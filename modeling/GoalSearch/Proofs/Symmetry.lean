/-
Unification in both orders.

Two unifications of the same terms, with the sides exchanged, alias variables in
opposite directions.  As long as no cell and no structure is met, and guards admit no
variables, they join the same chains one after the other, so their stores agree all
the time and they end alike.

* `Store.Bare` — terms that lead to no cell and to no structure;
* `Scope.Counterpart` — scopes whose stores agree;
* `Scope.Counterpart.bound` — bindings that join the same two chains;
* `unify_counterpart` — one unification and its mirror image, from scopes that agree;
* `Session.Reachable.unify_swap` — unification does not depend on the order of its
  terms.

Design notes: a restricted variable is never bound to a variable here, so it is the end
of its chain in both stores as long as it is unbound.  Of two plain variables, either may
be the end.
-/
import GoalSearch.Proofs.Chains
import GoalSearch.Proofs.Classes
import GoalSearch.Proofs.Levels

namespace GoalSearch

open GoalSearch.Action

variable {S : Vocabulary} {T : Theory S} {f : S.Guard → S.Term → Bool}

/-! ### Terms that lead to no cell and to no structure -/

namespace Store

variable {s s' : Store S} {A : S.Term → Prop} {t u a b : S.Term} {v w : Var}

/-- A term that leads to no cell and to no structure. -/
structure Bare (s : Store S) (t : S.Term) : Prop where
  cell : ∀ v, s.Reaches t (.var v) → s.isCell v = false
  struct : ∀ object label args, ¬ s.Reaches t (.struct object label args)

/-- A collection of terms that contains what its terms lead to, none of which is a cell
or a structure. -/
structure Sealed (s : Store S) (A : S.Term → Prop) : Prop where
  item : ∀ {items}, A (.list items) → ∀ t ∈ items, A t
  binding : ∀ {v t}, A (.var v) → s.binding v = some t → A t
  cell : ∀ {v}, A (.var v) → s.isCell v = false
  struct : ∀ {object label args}, ¬ A (.struct object label args)

theorem Bare.sealed (ht : s.Bare t) (hu : s.Bare u) :
    s.Sealed fun a => s.Reaches t a ∨ s.Reaches u a where
  item h _ ha := h.imp (·.item ha) (·.item ha)
  binding h hb := h.imp (·.binding hb) (·.binding hb)
  cell {v} h := h.elim (ht.cell v) (hu.cell v)
  struct h := h.elim (ht.struct _ _ _) (hu.struct _ _ _)

/-- The terms of such a collection are bare. -/
theorem Sealed.bare (hA : s.Sealed A) (ht : A t) : s.Bare t := by
  have hreach : ∀ u, s.Reaches t u → A u := by
    intro u hu
    induction hu with
    | refl => exact ht
    | item _ hmem ih => exact hA.item ih _ hmem
    | arg _ _ ih => exact absurd ih hA.struct
    | binding _ hb ih => exact hA.binding ih hb
  exact ⟨fun v hv => hA.cell (hreach _ hv), fun _ _ _ hs => hA.struct (hreach _ hs)⟩

theorem Sealed.deref (hA : s.Sealed A) (ht : A t) : A (s.deref t) :=
  deref_mem (fun _ _ => hA.binding) ht

theorem Sealed.congr (hA : s.Sealed A) (h : s ≈ s') : s'.Sealed A where
  item := hA.item
  binding {v t} hv hb := by
    rw [← binding_congr h] at hb
    exact hA.binding hv hb
  cell {v} hv := by
    rw [← isCell_congr h]
    exact hA.cell hv
  struct := hA.struct

theorem Sealed.set (hA : s.Sealed A) (v : Var) (ha : A a) : (s.set v (some a)).Sealed A where
  item := hA.item
  binding {w t} hw hb := by
    rw [binding_set] at hb
    by_cases hvw : v = w
    · rw [if_pos hvw] at hb
      cases hb
      exact ha
    · rw [if_neg hvw] at hb
      exact hA.binding hw hb
  cell hw := by
    rw [isCell_set]
    exact hA.cell hw
  struct := hA.struct

/-- The variables at the ends of chains in such a collection are unbound. -/
theorem Sealed.isUnbound (hA : s.Sealed A) (hs : s.ChainsEnd) (ht : A t)
    (hv : s.deref t = .var v) : s.isUnbound v = true := by
  have hmem := hA.deref ht
  rw [hv] at hmem
  exact isUnbound_of_not_isBound (hA.cell hmem) (isBound_of_deref_eq_var hs hv)

/-- Variables keep their roles. -/
theorem order_role : Order fun s s' : Store S => ∀ v, (s'.get v).role = (s.get v).role where
  of_equiv h v := by rw [h v]
  trans h h' v := (h' v).trans (h v)
  set _ _ v := role_set _ _ v _

/-! ### What matching variables have in common -/

theorem Agrees.guard?_eq (h : s.Agrees s') (hvw : s.Match (.var v) (.var w)) :
    s'.guard? w = s.guard? v := by
  rw [guard?, guard?, h.role]
  cases hvw with
  | same => rfl
  | plain hv hw => rw [hv, hw]

theorem Agrees.isRestricted_eq (h : s.Agrees s') (hvw : s.Match (.var v) (.var w)) :
    s'.isRestricted w = s.isRestricted v := by
  rw [isRestricted, isRestricted, h.guard?_eq hvw]

/-- Guards that admit no variable leave this to variables without a guard. -/
theorem verdict_var (hf : ∀ g w, f g (.var w) = false) (s : Store S) (v w : Var) :
    s.verdict f v (.var w) = !s.isRestricted v := by
  rw [verdict, isRestricted]
  cases s.guard? v with
  | none => rfl
  | some g => exact hf g w

theorem role_of_not_isRestricted (hcell : s.isCell v = false) (hv : s.isRestricted v = false) :
    (s.get v).role = .ordinary none := by
  rw [isCell] at hcell
  rw [isRestricted, guard?] at hv
  cases hrole : (s.get v).role with
  | ordinary guard =>
    rw [hrole, Option.isSome_eq_false_iff, Option.isNone_iff_eq_none] at hv
    rw [show guard = none from hv]
  | cell =>
    rw [hrole] at hcell
    cases hcell

/-- Two unbound variables make a pair. -/
theorem pairs_of_isUnbound (hv : s.isUnbound v = true) (hw : s.isUnbound w = true) (hne : v ≠ w)
    (hends : (s.deref t = .var v ∧ s.deref u = .var w) ∨
      (s.deref t = .var w ∧ s.deref u = .var v)) :
    s.Pairs t u v (.var w) where
  apart := ⟨isBound_of_isUnbound hv, step?_of_not_isBound (isBound_of_isUnbound hw),
    fun heq => hne (Term.var.inj heq).symm⟩
  ordinary := (isUnbound_eq_true.mp hv).1
  ends := hends

/-- An unbound variable makes a pair with a value. -/
theorem pairs_of_value {value : S.Term} (hv : s.isUnbound v = true)
    (hvalue : ∀ w, value = .var w → s.isCell w = true) (ht : s.deref t = .var v)
    (hu : s.deref u = value) : s.Pairs t u v value :=
  ⟨apart_of_isUnbound hv hvalue, (isUnbound_eq_true.mp hv).1, .inl ⟨ht, hu⟩⟩

theorem Pairs.symm {value : S.Term} (h : s.Pairs t u v value) : s.Pairs u t v value :=
  ⟨h.apart, h.ordinary, h.ends.symm.imp And.symm And.symm⟩

theorem Match.exists_var (h : s.Match (.var v) b) : ∃ w, b = .var w := by
  cases h with
  | same => exact ⟨v, rfl⟩
  | plain => exact ⟨_, rfl⟩

theorem Match.role_iff (h : s.Match (.var v) (.var w)) :
    (s.get v).role = .ordinary none ↔ (s.get w).role = .ordinary none := by
  cases h with
  | same => exact Iff.rfl
  | plain hv hw => exact iff_of_true hv hw

/-- Of two pairs of variables that match, one variable without a guard is taken from each
side.  The others match too, be they from one pair or not. -/
theorem Match.others {v' w' x x' y y' : Var} (hv : s.Match (.var v) (.var v'))
    (hw : s.Match (.var w) (.var w')) (hxy : (x = v ∧ y = w) ∨ (x = w ∧ y = v))
    (hxy' : (x' = v' ∧ y' = w') ∨ (x' = w' ∧ y' = v')) (hx : (s.get x).role = .ordinary none)
    (hx' : (s.get x').role = .ordinary none) : s.Match (.var y) (.var y') := by
  obtain ⟨rfl, rfl⟩ | ⟨rfl, rfl⟩ := hxy
  · obtain ⟨rfl, rfl⟩ | ⟨rfl, rfl⟩ := hxy'
    · exact hw
    · exact .plain (hw.role_iff.mpr hx') (hv.role_iff.mp hx)
  · obtain ⟨rfl, rfl⟩ | ⟨rfl, rfl⟩ := hxy'
    · exact .plain (hv.role_iff.mpr hx') (hw.role_iff.mp hx)
    · exact hv

end Store

/-! ### Scopes whose stores agree -/

namespace Scope

variable {A : S.Term → Prop} {c c' d d' : Scope S} {t u value value' : S.Term} {v v' w w' : Var}
  {r r' : Bool} {k k' n : Nat}

/-- Two scopes with stores that agree, in which chains end and a collection of terms
leads to no cell and to no structure. -/
structure Counterpart (A : S.Term → Prop) (c c' : Scope S) : Prop where
  chains : c.world.store.ChainsEnd
  chains' : c'.world.store.ChainsEnd
  closed : c.world.store.Sealed A
  closed' : c'.world.store.Sealed A
  agrees : c.world.store.Agrees c'.world.store

theorem Counterpart.symm (h : c.Counterpart A c') : c'.Counterpart A c :=
  ⟨h.chains', h.chains, h.closed', h.closed, h.agrees.symm⟩

theorem Counterpart.congr (h : c.Counterpart A c') (hd : d.world.store ≈ c.world.store)
    (hd' : d'.world.store ≈ c'.world.store) : d.Counterpart A d' where
  chains := h.chains.congr (Setoid.symm hd)
  chains' := h.chains'.congr (Setoid.symm hd')
  closed := h.closed.congr (Setoid.symm hd)
  closed' := h.closed'.congr (Setoid.symm hd')
  agrees := h.agrees.congr h.chains h.chains' (Setoid.symm hd) (Setoid.symm hd')

/-- The value of a binding that joins two chains of a collection is in the collection. -/
theorem mem_of_pairs {s : Store S} (hA : s.Sealed A) (ht : A t) (hu : A u)
    (hp : s.Pairs t u v value) : A value := by
  rcases hp.ends with ⟨-, hvalue⟩ | ⟨hvalue, -⟩
  · rw [← hvalue]
    exact hA.deref hu
  · rw [← hvalue]
    exact hA.deref ht

/-- Two bindings that join the same two chains, with guards that say the same, lead to
scopes that agree. -/
theorem Counterpart.bound (hT : T.GuardsDecide f) (h : c.Counterpart A c') (ht : A t) (hu : A u)
    (hp : c.world.store.Pairs t u v value) (hp' : c'.world.store.Pairs t u v' value')
    (hverdict : c.world.store.verdict f v value = c'.world.store.verdict f v' value')
    (hmatch : c.world.store.verdict f v value = true → c.world.store.Match value value')
    (hbind : bind T k (unify T k) v value c = .ok r d)
    (hbind' : bind T k' (unify T k') v' value' c' = .ok r' d') :
    r = r' ∧ d.Counterpart A d' := by
  obtain ⟨hr, hd⟩ := bind_verdict hT hp.apart hbind
  obtain ⟨hr', hd'⟩ := bind_verdict hT hp'.apart hbind'
  have hsame : r = r' := by rw [hr, hr', hverdict]
  subst hsame
  refine ⟨rfl, ?_⟩
  cases r with
  | false => exact h.congr hd hd'
  | true =>
    -- On both sides the same two chains are joined, whichever variable took the value.
    have hset := h.chains.set hp.apart.free hp.apart.checks.away
    have hset' := h.chains'.set hp'.apart.free hp'.apart.checks.away
    have hjoined := hp.joined h.chains hd
    have hjoined' := hp'.joined h.chains' hd'
    have hvalue := mem_of_pairs h.closed ht hu hp
    have hvalue' := mem_of_pairs h.closed' ht hu hp'
    exact
      { chains := hset.congr (Setoid.symm hd)
        chains' := hset'.congr (Setoid.symm hd')
        closed := (h.closed.set v hvalue).congr (Setoid.symm hd)
        closed' := (h.closed'.set v' hvalue').congr (Setoid.symm hd')
        agrees := h.agrees.joined hjoined hjoined' (hmatch hr.symm) }

end Scope

/-! ### One unification and its mirror image -/

section Mirror

variable {A : S.Term → Prop} {c c' d d' : Scope S} {t u a b : S.Term} {v w : Var}
  {r r' : Bool} {m n : Nat}

/-- Nothing is bound where both chains end at the same variable. -/
theorem unify_same (hs : c.world.store.ChainsEnd) (ht : c.world.store.deref t = .var v)
    (hu : c.world.store.deref u = .var v) (h : unify T n t u c = .ok r d) : r = true ∧ d = c := by
  cases n with
  | zero => cases h
  | succ n =>
    have hlast := Store.step?_deref hs t
    have hstep := unifyStep_spec T n (unify T n) c t u
    rw [unify] at h
    rw [ht] at hlast
    rw [ht, hu] at hstep
    generalize unifyStep T n (unify T n) t u c = result at *
    cases hstep with
    | outOfFuel _ => cases h
    | same _ =>
      cases h
      exact ⟨rfl, rfl⟩
    -- A variable at the end of its chain is identical to itself.
    | differ hid _ => exact absurd hid (Store.identical?_self hlast (by simp) n)

/-- A variable on the left and a value on the right, and the other way round. -/
theorem unify_value_counterpart (hT : T.GuardsDecide f) (h : c.Counterpart A c') (ht : A t)
    (hu : A u) (hv : c.world.store.deref t = .var v) (hvalue : (c.world.store.deref u).var? = none)
    (hab : unify T n t u c = .ok r d) (hba : unify T m u t c' = .ok r' d') :
    r = r' ∧ d.Counterpart A d' := by
  have hmatch := h.agrees.ends t
  rw [hv] at hmatch
  obtain ⟨v', hv'⟩ := hmatch.exists_var
  rw [hv'] at hmatch
  have hu' : c'.world.store.deref u = c.world.store.deref u :=
    (h.agrees.ends u).eq_of_value hvalue
  have hunbound := h.closed.isUnbound h.chains ht hv
  have hunbound' := h.closed'.isUnbound h.chains' ht hv'
  have hnone : ∀ {s : Store S} (w : Var), c.world.store.deref u = .var w → s.isCell w = true := by
    intro s w hw
    rw [hw] at hvalue
    cases hvalue
  obtain ⟨k, hk⟩ := bind_of_unify (fun n => unify_left hv hunbound hnone) hab
  obtain ⟨k', hk'⟩ :=
    bind_of_unify (fun n => unify_right hv' hunbound' (by rw [hu', hvalue])) hba
  rw [hu'] at hk'
  have hpairs := Store.pairs_of_value hunbound hnone hv rfl
  have hpairs' := Store.pairs_of_value hunbound' hnone hv' hu'
  refine h.bound hT ht hu hpairs hpairs' ?_ (fun _ => .same _) hk hk'
  rw [Store.verdict, Store.verdict, h.agrees.guard?_eq hmatch]

/-- Of two different variables, one is bound to the other, and that one is restricted only
if both are. -/
theorem bind_of_unify_variables (ht : c.world.store.deref t = .var v)
    (hv : c.world.store.isUnbound v = true) (hu : c.world.store.deref u = .var w)
    (hw : c.world.store.isUnbound w = true) (hne : v ≠ w) (h : unify T n t u c = .ok r d) :
    ∃ x y k, ((x = v ∧ y = w) ∨ (x = w ∧ y = v)) ∧ c.world.store.Pairs t u x (.var y) ∧
      c.world.store.isRestricted x =
        (c.world.store.isRestricted v && c.world.store.isRestricted w) ∧
      Scope.bind T k (unify T k) x (.var y) c = .ok r d := by
  have hlevel := fun n => unify_variables (T := T) (n := n) ht hv hu hw hne
  -- A restricted variable on the left and an unrestricted one on the right change places.
  cases hright : c.world.store.isRestricted v && !c.world.store.isRestricted w with
  | true =>
    simp only [hright, if_true] at hlevel
    obtain ⟨k, hk⟩ := bind_of_unify hlevel h
    refine ⟨w, v, k, .inr ⟨rfl, rfl⟩, ?_, ?_, hk⟩
    · exact Store.pairs_of_isUnbound hw hv (Ne.symm hne) (.inr ⟨ht, hu⟩)
    · rw [Bool.and_eq_true, Bool.not_eq_true'] at hright
      rw [hright.1, hright.2]
      rfl
  | false =>
    simp only [hright, Bool.false_eq_true, if_false] at hlevel
    obtain ⟨k, hk⟩ := bind_of_unify hlevel h
    refine ⟨v, w, k, .inl ⟨rfl, rfl⟩, ?_, ?_, hk⟩
    · exact Store.pairs_of_isUnbound hv hw hne (.inl ⟨ht, hu⟩)
    · cases hrestricted : c.world.store.isRestricted v with
      | false => rfl
      | true =>
        rw [hrestricted, Bool.true_and, Bool.not_eq_false'] at hright
        rw [hright]
        rfl

/-- Two variables: of two plain ones, the left one is bound on either side, and a plain
one is bound to a restricted one.  Two restricted ones refuse each other. -/
theorem unify_variables_counterpart (hT : T.GuardsDecide f) (hf : ∀ g w, f g (.var w) = false)
    (h : c.Counterpart A c') (ht : A t) (hu : A u) (hv : c.world.store.deref t = .var v)
    (hw : c.world.store.deref u = .var w) (hne : v ≠ w) (hab : unify T n t u c = .ok r d)
    (hba : unify T m u t c' = .ok r' d') : r = r' ∧ d.Counterpart A d' := by
  have hmv := h.agrees.ends t
  have hmw := h.agrees.ends u
  rw [hv] at hmv
  rw [hw] at hmw
  obtain ⟨v', hv'⟩ := hmv.exists_var
  obtain ⟨w', hw'⟩ := hmw.exists_var
  rw [hv'] at hmv
  rw [hw'] at hmw
  have hne' : v' ≠ w' := by
    rintro rfl
    have hends := (h.agrees.same t u).mpr (hv'.trans hw'.symm)
    rw [hv, hw] at hends
    exact hne (Term.var.inj hends)
  -- each side binds a variable that is restricted only if both are
  obtain ⟨x, y, k, hxy, hpairs, hx, hk⟩ :=
    bind_of_unify_variables hv (h.closed.isUnbound h.chains ht hv) hw
      (h.closed.isUnbound h.chains hu hw) hne hab
  obtain ⟨x', y', k', hxy', hpairs', hx', hk'⟩ :=
    bind_of_unify_variables hw' (h.closed'.isUnbound h.chains' hu hw') hv'
      (h.closed'.isUnbound h.chains' ht hv') (Ne.symm hne') hba
  have hrestricted : c'.world.store.isRestricted x' = c.world.store.isRestricted x := by
    rw [hx, hx', h.agrees.isRestricted_eq hmv, h.agrees.isRestricted_eq hmw, Bool.and_comm]
  refine h.bound hT ht hu hpairs hpairs'.symm ?_ (fun hadmitted => ?_) hk hk'
  · rw [Store.verdict_var hf, Store.verdict_var hf, hrestricted]
  · rw [Store.verdict_var hf, Bool.not_eq_true'] at hadmitted
    have hplain := Store.role_of_not_isRestricted hpairs.ordinary hadmitted
    have hplain' :=
      Store.role_of_not_isRestricted hpairs'.ordinary (hrestricted.trans hadmitted)
    rw [h.agrees.role] at hplain'
    exact hmv.others hmw hxy hxy'.symm hplain hplain'

/-- What the unification of two values comes to, given the ends of their chains. -/
inductive Compared (T : Theory S) (n : Nat) (c : Scope S) (a b : S.Term) : Bool → Scope S → Prop
  | same : c.world.store.identical? n a b = some true → Compared T n c a b true c
  | clash : c.world.store.identical? n a b = some false →
      (∀ as bs, a = .list as → b = .list bs → as.length ≠ bs.length) → Compared T n c a b false c
  | lists {as bs : List S.Term} {r : Bool} {d : Scope S} :
      c.world.store.identical? n a b = some false → a = .list as → b = .list bs →
      as.length = bs.length → allPairs (unify T n) as bs c = .ok r d → Compared T n c a b r d

theorem compared_of_unify (hclosed : c.world.store.Sealed A) (ht : A t) (hu : A u)
    (ha : (c.world.store.deref t).var? = none) (hb : (c.world.store.deref u).var? = none)
    (h : unify T (n + 1) t u c = .ok r d) :
    Compared T n c (c.world.store.deref t) (c.world.store.deref u) r d := by
  have hmemt := hclosed.deref ht
  have hmemu := hclosed.deref hu
  have hstep := unifyStep_spec T n (unify T n) c t u
  rw [unify] at h
  generalize c.world.store.deref t = a at *
  generalize c.world.store.deref u = b at *
  generalize unifyStep T n (unify T n) t u c = result at *
  cases hstep with
  | outOfFuel _ => cases h
  | same hid =>
    cases h
    exact .same hid
  | differ hid hdiffer =>
    cases hdiffer with
    | left v hav _ =>
      subst hav
      cases ha
    | right w hbw _ =>
      subst hbw
      cases hb
    | lists as bs has hbs hlength => exact .lists hid has hbs hlength h
    | structLeft object label args hstruct =>
      subst hstruct
      exact absurd hmemt hclosed.struct
    | structRight object label args hstruct =>
      subst hstruct
      exact absurd hmemu hclosed.struct
    | clash hclash =>
      cases h
      exact .clash hid hclash.lengths

variable (A) in
/-- Unification with some fuel and its mirror image end alike, from scopes that agree. -/
def Mirrors (T : Theory S) (n : Nat) : Prop :=
  ∀ {c c' d d' : Scope S} {t u : S.Term} {r r' : Bool}, c.Counterpart A c' → A t → A u →
    unify T n t u c = .ok r d → unify T n u t c' = .ok r' d' → r = r' ∧ d.Counterpart A d'

theorem allPairs_counterpart (hmirrors : Mirrors A T n) {as bs : List S.Term}
    (has : ∀ a ∈ as, A a) (hbs : ∀ b ∈ bs, A b) (h : c.Counterpart A c')
    (hab : allPairs (unify T n) as bs c = .ok r d)
    (hba : allPairs (unify T n) bs as c' = .ok r' d') : r = r' ∧ d.Counterpart A d' := by
  induction as generalizing bs c c' with
  | nil =>
    -- Lists of different lengths are compared up to the shorter one.
    cases bs with
    | _ =>
      cases hab
      cases hba
      exact ⟨rfl, h⟩
  | cons a as ih =>
    cases bs with
    | nil =>
      cases hab
      cases hba
      exact ⟨rfl, h⟩
    | cons b bs =>
      rw [allPairs, bind_eq_ok] at hab hba
      obtain ⟨r₁, d₁, h₁, hab⟩ := hab
      obtain ⟨r₁', d₁', h₁', hba⟩ := hba
      obtain ⟨rfl, hnext⟩ := hmirrors h (has a (by simp)) (hbs b (by simp)) h₁ h₁'
      cases r₁ with
      | true =>
        exact ih (fun a ha => has a (List.mem_cons_of_mem _ ha))
          (fun b hb => hbs b (List.mem_cons_of_mem _ hb)) hnext hab hba
      | false =>
        cases hab
        cases hba
        exact ⟨rfl, hnext⟩

/-- Two values: lists are unified element by element, in the same order on both sides. -/
theorem unify_values_counterpart (hmirrors : Mirrors A T n) (h : c.Counterpart A c') (ht : A t)
    (hu : A u) (ha : (c.world.store.deref t).var? = none)
    (hb : (c.world.store.deref u).var? = none) (hab : unify T (n + 1) t u c = .ok r d)
    (hba : unify T (n + 1) u t c' = .ok r' d') : r = r' ∧ d.Counterpart A d' := by
  have ht' := (h.agrees.ends t).eq_of_value ha
  have hu' := (h.agrees.ends u).eq_of_value hb
  have hleft := compared_of_unify h.closed ht hu ha hb hab
  have hright := compared_of_unify h.closed' hu ht (by rw [hu', hb]) (by rw [ht', ha]) hba
  rw [ht', hu'] at hright
  -- Identity is symmetric, so both sides take the same branch.
  have hid : c'.world.store.identical? n (c.world.store.deref u) (c.world.store.deref t) =
      c.world.store.identical? n (c.world.store.deref t) (c.world.store.deref u) := by
    rw [← h.agrees.identical?, Store.identical?_comm]
  have hmemt := h.closed.deref ht
  have hmemu := h.closed.deref hu
  generalize c.world.store.deref t = a at *
  generalize c.world.store.deref u = b at *
  cases hleft with
  | same hsame =>
    cases hright with
    | same => exact ⟨rfl, h⟩
    | clash hother =>
      rw [hid, hsame] at hother
      cases hother
    | lists hother =>
      rw [hid, hsame] at hother
      cases hother
  | clash hsame hlength =>
    cases hright with
    | same hother =>
      rw [hid, hsame] at hother
      cases hother
    | clash => exact ⟨rfl, h⟩
    | lists _ hbs has hequal => exact absurd hequal.symm (hlength _ _ has hbs)
  | lists hsame has hbs hequal hpairs =>
    cases hright with
    | same hother =>
      rw [hid, hsame] at hother
      cases hother
    | clash _ hlength => exact absurd hequal.symm (hlength _ _ hbs has)
    | lists _ hbs' has' _ hpairs' =>
      subst has hbs
      cases has'
      cases hbs'
      exact allPairs_counterpart hmirrors (h.closed.item hmemt) (h.closed.item hmemu) h hpairs
        hpairs'

/-- A unification and its mirror image end alike, and lead to scopes that agree. -/
theorem unify_counterpart (hT : T.GuardsDecide f) (hf : ∀ g w, f g (.var w) = false) (n : Nat) :
    Mirrors A T n := by
  induction n with
  | zero =>
    intro c c' d d' t u r r' _ _ _ hab
    cases hab
  | succ n ih =>
    intro c c' d d' t u r r' h ht hu hab hba
    cases ha : (c.world.store.deref t).var? with
    | some v =>
      rw [Term.var?_eq_some] at ha
      cases hb : (c.world.store.deref u).var? with
      | some w =>
        rw [Term.var?_eq_some] at hb
        by_cases hvw : v = w
        · subst hvw
          obtain ⟨rfl, rfl⟩ := unify_same h.chains ha hb hab
          have hsame := (h.agrees.same t u).mp (ha.trans hb.symm)
          obtain ⟨v', hv'⟩ : ∃ v', c'.world.store.deref t = .var v' := by
            have hmatch := h.agrees.ends t
            rw [ha] at hmatch
            exact hmatch.exists_var
          obtain ⟨rfl, rfl⟩ := unify_same h.chains' (hsame.symm.trans hv') hv' hba
          exact ⟨rfl, h⟩
        · exact unify_variables_counterpart hT hf h ht hu ha hb hvw hab hba
      | none => exact unify_value_counterpart hT h ht hu ha hb hab hba
    | none =>
      cases hb : (c.world.store.deref u).var? with
      | some w =>
        rw [Term.var?_eq_some] at hb
        -- the same with the two sides exchanged
        have ht' := (h.agrees.ends t).eq_of_value ha
        obtain ⟨w', hw'⟩ : ∃ w', c'.world.store.deref u = .var w' := by
          have hmatch := h.agrees.ends u
          rw [hb] at hmatch
          exact hmatch.exists_var
        obtain ⟨hr, hback⟩ :=
          unify_value_counterpart hT h.symm hu ht hw' (by rw [ht', ha]) hba hab
        exact ⟨hr.symm, hback.symm⟩
      | none => exact unify_values_counterpart ih h ht hu ha hb hab hba

end Mirror

/-! ### Unification in both orders -/

namespace Session

variable {ι κ : Type} [DecidableEq ι] [DecidableEq κ] {s : Session S ι κ}

/-- With guards that decide by the term alone and admit no variable, the unification of
two terms that lead to no cell and to no structure does not depend on their order: if
both orders end, then with the same verdict, and in stores that make the same terms
identical and leave the same restricted variables unbound. -/
theorem Reachable.unify_swap (hT : T.GuardsDecide f) (hf : ∀ g w, f g (.var w) = false)
    (h : s.Reachable T) (i : ι) {a b : S.Term} (ha : s.world.store.Bare a)
    (hb : s.world.store.Bare b) {n m : Nat} {r r' : Bool} {d d' : Scope S}
    (hab : unify T n a b (s.scope i) = .ok r d) (hba : unify T m b a (s.scope i) = .ok r' d') :
    r = r' ∧ (∀ k t u, d.world.store.identical? k t u = d'.world.store.identical? k t u) ∧
      ∀ v, s.world.store.isRestricted v = true →
        d.world.store.isUnbound v = d'.world.store.isUnbound v := by
  have hchains := (h.sound hT.inert).chains
  have hclosed := ha.sealed hb
  have hstart : (s.scope i).Counterpart _ (s.scope i) :=
    ⟨hchains, hchains, hclosed, hclosed, .refl _⟩
  -- both runs with the larger amount of fuel
  have hab' := (unify_below (Nat.le_max_left n m) a b).ok hab
  have hba' := (unify_below (Nat.le_max_right n m) b a).ok hba
  obtain ⟨hr, hend⟩ :=
    unify_counterpart hT hf (max n m) hstart (.inl .refl) (.inr .refl) hab' hba'
  refine ⟨hr, hend.agrees.identical?, fun v hv => ?_⟩
  refine hend.agrees.isUnbound hend.chains hend.chains' ?_
  have hrole := ((Scope.history_throughout Store.order_role hT.inert).unify n a b _ trivial).ok hab
  rwa [Store.isRestricted, Store.guard?, hrole.now]

end Session

/-- A restricted variable, another one, and three plain variables. -/
def Bounds.mixed : Session Bounds.vocabulary Bool Unit :=
  ⟨⟨⟨#[.fresh, ⟨.ordinary (some (1, 3)), none⟩, ⟨.ordinary (some (5, 9)), none⟩, .fresh, .fresh,
    .fresh]⟩, 0, (), []⟩, fun _ => .empty, fun _ => .new .standard⟩

theorem Bounds.mixed_reachable : Bounds.mixed.Reachable Bounds.theory := by
  have hone := Bounds.session_reachable.step (.newVariable (some ((1, 3) : Int × Int)))
  have htwo := hone.step (.newVariable (some ((5, 9) : Int × Int)))
  have hthree := (htwo.step (.newVariable none)).step (.newVariable none)
  exact hthree.step (.newVariable none)

theorem Bounds.mixed_bare (t : Bounds.vocabulary.Term) : Bounds.mixed.world.store.Bare t := by
  have hclosed : Bounds.mixed.world.store.Sealed fun _ => True :=
    { item := fun _ _ _ => trivial
      binding := fun _ _ => trivial
      cell := fun {v} _ => by
        obtain ⟨i⟩ := v
        match i with
        | 0 | 1 | 2 | 3 | 4 | 5 => rfl
        | _ + 6 => rfl
      struct := fun {_ label _} _ => nomatch label }
  exact hclosed.bare trivial

/-- Two lists in which restricted and plain variables meet, in both orders. -/
theorem Session.unify_swap_mixed : ∃ d d',
    unify Bounds.theory 3 (.list [.var ⟨3⟩, .var ⟨4⟩, .var ⟨5⟩])
      (.list [.var ⟨4⟩, .var ⟨1⟩, .int 7]) (Bounds.mixed.scope true) = .ok true d ∧
    unify Bounds.theory 3 (.list [.var ⟨4⟩, .var ⟨1⟩, .int 7])
      (.list [.var ⟨3⟩, .var ⟨4⟩, .var ⟨5⟩]) (Bounds.mixed.scope true) = .ok true d' ∧
    (d.world.store.binding ⟨3⟩).bind Term.var? = some ⟨4⟩ ∧
    (d'.world.store.binding ⟨4⟩).bind Term.var? = some ⟨3⟩ ∧
    d.world.store.identical? 1 (.var ⟨3⟩) (.var ⟨1⟩) =
      d'.world.store.identical? 1 (.var ⟨3⟩) (.var ⟨1⟩) ∧
    d.world.store.isUnbound ⟨1⟩ = d'.world.store.isUnbound ⟨1⟩ := by
  obtain ⟨-, hidentical, hunbound⟩ := Bounds.mixed_reachable.unify_swap
    (a := .list [.var ⟨3⟩, .var ⟨4⟩, .var ⟨5⟩]) (b := .list [.var ⟨4⟩, .var ⟨1⟩, .int 7])
    Bounds.guardsPure.decides (fun _ _ => rfl) true (Bounds.mixed_bare _) (Bounds.mixed_bare _)
    (n := 3) (m := 3) rfl rfl
  exact ⟨_, _, rfl, rfl, rfl, rfl, hidentical 1 _ _, hunbound ⟨1⟩ rfl⟩

end GoalSearch
