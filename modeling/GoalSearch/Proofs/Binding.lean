/-
Single bindings and the guards that decide on them.

Of two different ends of chains, one is bound to the other: an unbound variable to
a value on either side, but the left side if that is a cell, even where the right
one is an unbound variable.  A binding consults its guard twice, before the slot is
saved and right before it is filled.  A guard that is of one mind is obeyed without
a trace; one that changes its mind in between leaves the saved slot behind.

* `Store.Apart` — a variable that is not bound, and the end of another chain;
* `Store.Checks` — what a binding checks before it fills a slot;
* `Scope.bind_consults` — a binding in terms of its two consultations;
* `Theory.GuardsPure`, `Scope.bind_pure` — guards of one mind, and what a binding
  does with them;
* `unify_unbound` — the unification of an unbound variable with a value or a cell,
  in both orders;
* `unify_restricted` — the unification of a restricted variable with a value, for
  guards that bind nothing.

Design notes: nothing is assumed about the rest of the store, chains of bindings
that close included, since both ends are given.
-/
import GoalSearch.Proofs.Fuel
import GoalSearch.Proofs.Guards
import GoalSearch.Proofs.Marks

namespace GoalSearch

open GoalSearch.Action

variable {S : Vocabulary} {T : Theory S} {f : S.Guard → S.Term → Bool}

/-! ### Two different ends -/

namespace Store

variable {s s' : Store S} {v w : Var} {value : S.Term}

/-- A variable that is not bound, and the end of another chain. -/
structure Apart (s : Store S) (v : Var) (value : S.Term) : Prop where
  free : s.isBound v = false
  last : s.step? value = none
  other : value ≠ .var v

theorem Apart.congr (h : s.Apart v value) (hs : s ≈ s') : s'.Apart v value where
  free := by rw [← isBound_congr hs, h.free]
  last := by rw [← step?_congr hs, h.last]
  other := h.other

/-- The checks of a binding: the variable is not bound, and the value does not
dereference back to it. -/
structure Checks (s : Store S) (v : Var) (value : S.Term) : Prop where
  free : s.isBound v = false
  away : (s.deref value).var? ≠ some v

theorem Apart.checks (h : s.Apart v value) : s.Checks v value where
  free := h.free
  away := by
    rw [deref_of_step?_eq_none h.last, Ne, Term.var?_eq_some]
    exact h.other

theorem ne_of_isCell (hv : s.isUnbound v = true) (hw : s.isCell w = true) : v ≠ w := by
  rintro rfl
  rw [(isUnbound_eq_true.mp hv).1] at hw
  cases hw

/-- An unbound variable is apart from values and cells. -/
theorem apart_of_isUnbound (hv : s.isUnbound v = true)
    (hvalue : ∀ w, value = .var w → s.isCell w = true) : s.Apart v value where
  free := isBound_of_isUnbound hv
  last := by
    cases value with
    | var w => simp [step?, hvalue w rfl]
    | _ => rfl
  other := fun heq => ne_of_isCell hv (hvalue v heq) rfl

/-- A cell is apart from unbound variables. -/
theorem apart_of_isCell (hw : s.isCell w = true) (hv : s.isUnbound v = true) :
    s.Apart w (.var v) where
  free := by simp [isBound, hw]
  last := step?_of_not_isBound (isBound_of_isUnbound hv)
  other := fun heq => ne_of_isCell hv hw (Term.var.inj heq)

/-- Ends that are apart are not identical. -/
theorem Apart.identical? (h : s.Apart v value) (n : Nat) :
    s.identical? (n + 1) (.var v) value = some false ∧
      s.identical? (n + 1) value (.var v) = some false := by
  have hv := deref_of_step?_eq_none (step?_of_not_isBound h.free)
  have hvalue := deref_of_step?_eq_none h.last
  rw [Store.identical?, Store.identical?, hv, hvalue]
  cases value with
  | var w =>
    have hne : w ≠ v := fun heq => h.other (by rw [heq])
    simp [hne, Ne.symm hne]
  | _ => exact ⟨rfl, rfl⟩

end Store

/-! ### One binding -/

namespace Scope

variable {c d c₁ c₂ : Scope S} {v w : Var} {value : S.Term} {n : Nat} {unify : Unifier S}

/-- The scope after saving the slot of a variable. -/
def saved (c : Scope S) (v : Var) : Scope S :=
  { c with trail := c.trail.record c.world.store v }

theorem record_saved (c : Scope S) (v : Var) : record v c = .ok () (c.saved v) := rfl

/-- The scope after filling the slot of a variable. -/
def filled (c : Scope S) (v : Var) (value : S.Term) : Scope S :=
  { c with world.store := c.world.store.set v (some value) }

theorem assign_checked (h : c.world.store.Checks v value) :
    assign T n unify v value c = (do
      if ← admits T n unify v value then do
        modify fun e => e.filled v value
        pure none
      else pure (some (.rejected v)) : Action (Scope S) (Option Refusal)) c := by
  rw [assign, bind_ok (store_apply c), if_neg (by simp [h.free]), if_neg h.away]
  rfl

/-- A binding that is refused by the first consultation. -/
theorem bind_refused (h₁ : admits T n unify v value c = .ok false c₁) :
    bind T n unify v value c = .ok false c₁ := by
  rw [bind, bind_ok h₁]
  rfl

/-- A binding that is admitted by both consultations. -/
theorem bind_admitted (h₁ : admits T n unify v value c = .ok true c₁)
    (hchecks : c₁.world.store.Checks v value)
    (h₂ : admits T n unify v value (c₁.saved v) = .ok true c₂) :
    bind T n unify v value c = .ok true (c₂.filled v value) := by
  have hassign : assign T n unify v value (c₁.saved v) = .ok none (c₂.filled v value) := by
    rw [assign_checked (c := c₁.saved v) hchecks, bind_ok h₂]
    rfl
  rw [bind, bind_ok h₁, if_pos rfl, bind_ok (record_saved c₁ v), bind_ok hassign]
  rfl

/-- A binding that is refused by the second consultation only. -/
theorem bind_revoked (h₁ : admits T n unify v value c = .ok true c₁)
    (hchecks : c₁.world.store.Checks v value)
    (h₂ : admits T n unify v value (c₁.saved v) = .ok false c₂) :
    bind T n unify v value c = .ok false
      { c₂ with world.log := .refused (.rejected v) :: c₂.world.log } := by
  have hassign : assign T n unify v value (c₁.saved v) = .ok (some (.rejected v)) c₂ := by
    rw [assign_checked (c := c₁.saved v) hchecks, bind_ok h₂]
    rfl
  rw [bind, bind_ok h₁, if_pos rfl, bind_ok (record_saved c₁ v), bind_ok hassign]
  rfl

/-- A binding stops where its second consultation stops. -/
theorem bind_stopped {e : Stop} (h₁ : admits T n unify v value c = .ok true c₁)
    (hchecks : c₁.world.store.Checks v value)
    (h₂ : admits T n unify v value (c₁.saved v) = .error e c₂) :
    bind T n unify v value c = .error e c₂ := by
  have hassign : assign T n unify v value (c₁.saved v) = .error e c₂ := by
    rw [assign_checked (c := c₁.saved v) hchecks, bind_error h₂]
  rw [bind, bind_ok h₁, if_pos rfl, bind_ok (record_saved c₁ v), bind_error hassign]

/-- What a binding does with a guard that binds nothing, in whatever form its checks are
known: if the first consultation refuses, nothing has changed; otherwise the slot stays
saved, and the second consultation decides whether it is filled. -/
theorem bind_consults_of_checks (hguard : ∀ g, c.world.store.guard? v = some g → T.Inert g)
    (hchecks : ∀ s, c.world.store ≈ s → s.Checks v value) {r : Bool}
    (h : bind T n (GoalSearch.unify T n) v value c = .ok r d) :
    ∃ b₁ c₁, admits T n (GoalSearch.unify T n) v value c = .ok b₁ c₁ ∧
      (b₁ = false → r = false ∧ d.trail = c.trail ∧ d.world.store ≈ c.world.store) ∧
      (b₁ = true → (∃ c₂, admits T n (GoalSearch.unify T n) v value (c₁.saved v) = .ok r c₂) ∧
        d.trail.entries = ⟨v, c.world.store.binding v⟩ :: c.trail.entries ∧
        d.world.store ≈ if r then c.world.store.set v (some value) else c.world.store) := by
  obtain ⟨b₁, c₁, h₁, -⟩ := bind_eq_ok.mp h
  obtain ⟨htrail, hstore⟩ := (admits_of_inert hguard n value).ok h₁
  refine ⟨b₁, c₁, h₁, ?_, ?_⟩
  · rintro rfl
    rw [bind_refused h₁] at h
    cases h
    exact ⟨rfl, htrail, hstore⟩
  · rintro rfl
    have hchecks₁ := hchecks _ (Setoid.symm hstore)
    have hguard₁ : ∀ g, (c₁.saved v).world.store.guard? v = some g → T.Inert g := by
      show ∀ g, c₁.world.store.guard? v = some g → T.Inert g
      rwa [Store.guard?_congr hstore]
    have hentry : (c₁.saved v).trail.entries =
        ⟨v, c.world.store.binding v⟩ :: c.trail.entries := by
      show _ :: c₁.trail.entries = _
      rw [Store.binding_congr hstore, htrail]
    -- The second consultation starts from the trail with the new entry.
    cases h₂ : admits T n (GoalSearch.unify T n) v value (c₁.saved v) with
    | error e c₂ =>
      rw [bind_stopped h₁ hchecks₁ h₂] at h
      cases h
    | ok b₂ c₂ =>
      obtain ⟨htrail₂, hstore₂⟩ := (admits_of_inert hguard₁ n value).ok h₂
      have hentries : c₂.trail.entries = ⟨v, c.world.store.binding v⟩ :: c.trail.entries := by
        rw [htrail₂, hentry]
      have hsame : c₂.world.store ≈ c.world.store := Setoid.trans hstore₂ hstore
      cases b₂ with
      | true =>
        rw [bind_admitted h₁ hchecks₁ h₂] at h
        cases h
        exact ⟨⟨c₂, rfl⟩, hentries, Store.set_congr hsame v _⟩
      | false =>
        rw [bind_revoked h₁ hchecks₁ h₂] at h
        cases h
        exact ⟨⟨c₂, rfl⟩, hentries, hsame⟩

/-- What a binding between two ends does with a guard that binds nothing. -/
theorem bind_consults (hguard : ∀ g, c.world.store.guard? v = some g → T.Inert g)
    (hapart : c.world.store.Apart v value) {r : Bool}
    (h : bind T n (GoalSearch.unify T n) v value c = .ok r d) :
    ∃ b₁ c₁, admits T n (GoalSearch.unify T n) v value c = .ok b₁ c₁ ∧
      (b₁ = false → r = false ∧ d.trail = c.trail ∧ d.world.store ≈ c.world.store) ∧
      (b₁ = true → (∃ c₂, admits T n (GoalSearch.unify T n) v value (c₁.saved v) = .ok r c₂) ∧
        d.trail.entries = ⟨v, c.world.store.binding v⟩ :: c.trail.entries ∧
        d.world.store ≈ if r then c.world.store.set v (some value) else c.world.store) :=
  bind_consults_of_checks hguard (fun _ hs => (hapart.congr hs).checks) h

end Scope

/-! ### Guards of one mind -/

/-- The guards of variables bind nothing, and answer in every scope; whether they
admit a term is a function of this term. -/
structure Theory.GuardsPure (T : Theory S) (f : S.Guard → S.Term → Bool) : Prop where
  decides : T.GuardsDecide f
  answers : ∀ g value c, ∃ n b d, (T.admits g value).exec T n (unify T n) c = .ok b d

/-- What the guard of a variable, if there is one, says of a value. -/
def Store.verdict (f : S.Guard → S.Term → Bool) (s : Store S) (v : Var) (value : S.Term) : Bool :=
  (s.guard? v).all fun g => f g value

/-- Cells take everything. -/
theorem Store.verdict_of_isCell {s : Store S} {w : Var} (hw : s.isCell w = true) (value : S.Term) :
    s.verdict f w value = true := by
  rw [verdict, guard?_of_isCell hw]
  rfl

namespace Scope

variable {c d : Scope S} {v : Var} {value : S.Term}

theorem admits_verdict (hT : T.GuardsDecide f) (n : Nat) (v : Var) (value : S.Term)
    (c : Scope S) :
    Ensures (admits T n (unify T n) v value) c
      (fun b _ => b = c.world.store.verdict f v value) fun _ => True := by
  cases hguard : c.world.store.guard? v with
  | none =>
    rw [admits, ensures_bind_of_eq_ok (store_apply c), Store.verdict, hguard]
    exact rfl
  | some g =>
    refine (admits_decides hT n v value c).mono fun b d h => ?_
    rw [Store.verdict, hguard, h.2 g hguard]
    rfl

/-- If a binding ends, then as the guard says. -/
theorem bind_verdict (hT : T.GuardsDecide f) (hapart : c.world.store.Apart v value) {n : Nat}
    {r : Bool} (h : bind T n (unify T n) v value c = .ok r d) :
    r = c.world.store.verdict f v value ∧
      d.world.store ≈ if r then c.world.store.set v (some value) else c.world.store := by
  obtain ⟨b₁, c₁, h₁, hrefused, hasked⟩ := bind_consults (fun g _ => hT.inert g) hapart h
  have hfirst := (admits_verdict hT n v value c).ok h₁
  have hstore := ((admits_decides hT n v value c).ok h₁).1
  cases b₁ with
  | false =>
    obtain ⟨rfl, -, hsame⟩ := hrefused rfl
    exact ⟨hfirst, hsame⟩
  | true =>
    obtain ⟨⟨c₂, h₂⟩, -, hslots⟩ := hasked rfl
    refine ⟨?_, hslots⟩
    have hsecond := (admits_verdict hT n v value (c₁.saved v)).ok h₂
    rw [hsecond, Store.verdict, Store.verdict]
    show (c₁.world.store.guard? v).all _ = _
    rw [Store.guard?_congr hstore]

/-- A slot is saved and filled, and no other slot changes. -/
structure Filled (c : Scope S) (v : Var) (value : S.Term) (d : Scope S) : Prop where
  entries : d.trail.entries = ⟨v, c.world.store.binding v⟩ :: c.trail.entries
  slots : d.world.store ≈ c.world.store.set v (some value)

/-- A binding is carried out, or nothing changes. -/
def Settles (c : Scope S) (v : Var) (value : S.Term) : Bool → Scope S → Prop
  | true, d => c.Filled v value d
  | false, d => d.trail = c.trail ∧ d.world.store ≈ c.world.store

theorem admits_pure (hT : T.GuardsPure f) (v : Var) (value : S.Term) (c : Scope S) :
    ∃ n d, (∀ k, n ≤ k → admits T k (unify T k) v value c =
        .ok (c.world.store.verdict f v value) d) ∧
      d.trail = c.trail ∧ d.world.store ≈ c.world.store := by
  rw [Store.verdict]
  cases hguard : c.world.store.guard? v with
  | none =>
    refine ⟨0, c, fun k _ => ?_, rfl, Setoid.refl _⟩
    rw [admits, bind_ok (store_apply c), hguard]
    rfl
  | some g =>
    obtain ⟨n, b, d, hexec⟩ := hT.answers g value { c with trail := .empty }
    obtain ⟨rfl, hstore⟩ := hT.decides g value n _ b d hexec
    refine ⟨n, { d with trail := c.trail }, fun k hk => ?_, rfl, hstore⟩
    have hmore := (Hook.exec_below hk (unify_below hk) (T.admits g value)).ok hexec
    rw [admits, bind_ok (store_apply c), hguard]
    show aside ((T.admits g value).exec T k (unify T k)) c = _
    rw [aside, onPart, hmore]
    rfl

/-- A guard that is of one mind about a value is obeyed. -/
theorem bind_pure (hT : T.GuardsPure f) (hapart : c.world.store.Apart v value) :
    ∃ n d, (∀ k, n ≤ k → bind T k (unify T k) v value c =
        .ok (c.world.store.verdict f v value) d) ∧
      c.Settles v value (c.world.store.verdict f v value) d := by
  obtain ⟨n₁, c₁, h₁, htrail, hstore⟩ := admits_pure hT v value c
  obtain ⟨n₂, c₂, h₂, htrail₂, hstore₂⟩ := admits_pure hT v value (c₁.saved v)
  have hagain : (c₁.saved v).world.store.verdict f v value = c.world.store.verdict f v value := by
    show c₁.world.store.verdict f v value = _
    rw [Store.verdict, Store.verdict, Store.guard?_congr hstore]
  rw [hagain] at h₂
  cases hverdict : c.world.store.verdict f v value with
  | false =>
    rw [hverdict] at h₁
    exact ⟨n₁, c₁, fun k hk => bind_refused (h₁ k hk), htrail, hstore⟩
  | true =>
    rw [hverdict] at h₁ h₂
    refine ⟨max n₁ n₂, c₂.filled v value, fun k hk => ?_, ?_, ?_⟩
    · have hchecks := (hapart.congr (Setoid.symm hstore)).checks
      exact bind_admitted (h₁ k (by omega)) hchecks (h₂ k (by omega))
    · show c₂.trail.entries = _
      rw [htrail₂]
      show _ :: c₁.trail.entries = _
      rw [Store.binding_congr hstore, htrail]
    · exact Store.set_congr (Setoid.trans hstore₂ hstore) v _

end Scope

/-! ### Which side is bound -/

section Sides

variable {c d : Scope S} {t u : S.Term} {v w : Var} {n : Nat} {r : Bool}

/-- An unbound variable on the left is bound to a value or a cell. -/
theorem unify_left (ht : c.world.store.deref t = .var v) (hv : c.world.store.isUnbound v = true)
    (hu : ∀ w, c.world.store.deref u = .var w → c.world.store.isCell w = true) :
    unify T (n + 2) t u c =
      Scope.bind T (n + 1) (unify T (n + 1)) v (c.world.store.deref u) c := by
  have hid := (Store.apart_of_isUnbound hv hu).identical? n
  rw [unify, unifyStep, bind_ok (Scope.store_apply c), ht]
  rw [hid.1, ofOption, bind_ok (pure_apply false c), if_neg (by simp)]
  generalize hb : c.world.store.deref u = b at *
  cases b with
  | var w =>
    have hcell : c.world.store.isUnbound w = false := by simp [Store.isUnbound, hu w rfl]
    dsimp only
    rw [hcell, if_neg (by simp)]
  | _ => rfl

/-- An unbound variable on the right is bound to a value. -/
theorem unify_right (ht : c.world.store.deref t = .var v) (hv : c.world.store.isUnbound v = true)
    (hu : (c.world.store.deref u).var? = none) :
    unify T (n + 2) u t c =
      Scope.bind T (n + 1) (unify T (n + 1)) v (c.world.store.deref u) c := by
  -- A value is no variable, so there is no choice of what to bind.
  have hnone : ∀ w, c.world.store.deref u ≠ .var w := by
    intro w hw
    rw [hw] at hu
    cases hu
  have hid := (Store.apart_of_isUnbound hv fun w hw => absurd hw (hnone w)).identical? n
  rw [unify, unifyStep, bind_ok (Scope.store_apply c), ht]
  rw [hid.2, ofOption, bind_ok (pure_apply false c), if_neg (by simp)]
  generalize c.world.store.deref u = b at *
  cases b with
  | var w => exact absurd rfl (hnone w)
  | _ => rfl

/-- A cell on the left is given the unbound variable on the right. -/
theorem unify_cell (ht : c.world.store.deref t = .var v) (hv : c.world.store.isUnbound v = true)
    (hu : c.world.store.deref u = .var w) (hw : c.world.store.isCell w = true) :
    unify T (n + 2) u t c = Scope.bind T (n + 1) (unify T (n + 1)) w (.var v) c := by
  have hid := (Store.apart_of_isCell hw hv).identical? n
  have hcell : c.world.store.isUnbound w = false := by simp [Store.isUnbound, hw]
  rw [unify, unifyStep, bind_ok (Scope.store_apply c), ht, hu]
  rw [hid.1, ofOption, bind_ok (pure_apply false c), if_neg (by simp)]
  dsimp only
  rw [hcell, if_neg (by simp)]

/-- Of two unbound variables the left one is bound, unless only that is restricted. -/
theorem unify_variables (ht : c.world.store.deref t = .var v)
    (hv : c.world.store.isUnbound v = true) (hu : c.world.store.deref u = .var w)
    (hw : c.world.store.isUnbound w = true) (hne : v ≠ w) :
    unify T (n + 2) t u c =
      (if c.world.store.isRestricted v && !c.world.store.isRestricted w then
        Scope.bind T (n + 1) (unify T (n + 1)) w (.var v)
      else Scope.bind T (n + 1) (unify T (n + 1)) v (.var w)) c := by
  have hapart : c.world.store.Apart v (.var w) :=
    ⟨Store.isBound_of_isUnbound hv,
      Store.step?_of_not_isBound (Store.isBound_of_isUnbound hw),
      fun heq => hne (Term.var.inj heq).symm⟩
  rw [unify, unifyStep, bind_ok (Scope.store_apply c), ht, hu]
  rw [(hapart.identical? n).1, ofOption, bind_ok (pure_apply false c), if_neg (by simp)]
  dsimp only
  rw [hv, hw]
  rfl

/-- A binding that ends with enough fuel, as a unification that does. -/
theorem exists_unify_of_bind {x y : S.Term} {v : Var} {value : S.Term}
    {post : Scope S → Prop}
    (hlevel : ∀ n, unify T (n + 2) x y c = Scope.bind T (n + 1) (unify T (n + 1)) v value c)
    (h : ∃ n d, (∀ k, n ≤ k → Scope.bind T k (unify T k) v value c = .ok r d) ∧ post d) :
    ∃ n d, (∀ k, n ≤ k → unify T k x y c = .ok r d) ∧ post d := by
  obtain ⟨n, d, hbind, hd⟩ := h
  refine ⟨n + 2, d, fun k hk => ?_, hd⟩
  obtain ⟨k, rfl⟩ : ∃ j, k = j + 2 := ⟨k - 2, by omega⟩
  rw [hlevel k]
  exact hbind _ (by omega)

/-- A unification of ends that are apart has the fuel for their comparison. -/
theorem bind_of_unify {x y : S.Term} {v : Var} {value : S.Term}
    (hlevel : ∀ n, unify T (n + 2) x y c = Scope.bind T (n + 1) (unify T (n + 1)) v value c)
    (h : unify T n x y c = .ok r d) : ∃ k, Scope.bind T k (unify T k) v value c = .ok r d := by
  cases n with
  | zero => cases h
  | succ n =>
    cases n with
    | zero => cases h
    | succ n =>
      rw [hlevel n] at h
      exact ⟨n + 1, h⟩

end Sides

/-! ### An unbound variable and something else -/

/-- With guards of one mind, an unbound variable on the left is bound to a value or a
cell, and one on the right to a value, unless the guard refuses, which leaves all as
it was.  A cell on the left is overwritten with an unbound variable on the right. -/
theorem unify_unbound (hT : T.GuardsPure f) (c : Scope S) {t u b : S.Term} {v : Var}
    (ht : c.world.store.deref t = .var v) (hv : c.world.store.isUnbound v = true)
    (hu : c.world.store.deref u = b) (hb : ∀ w, b = .var w → c.world.store.isCell w = true) :
    (∃ n d, (∀ k, n ≤ k → unify T k t u c = .ok (c.world.store.verdict f v b) d) ∧
      c.Settles v b (c.world.store.verdict f v b) d) ∧
    (b.var? = none →
      ∃ n d, (∀ k, n ≤ k → unify T k u t c = .ok (c.world.store.verdict f v b) d) ∧
        c.Settles v b (c.world.store.verdict f v b) d) ∧
    ∀ w, b = .var w →
      ∃ n d, (∀ k, n ≤ k → unify T k u t c = .ok true d) ∧ c.Filled w (.var v) d := by
  subst hu
  have hbind := Scope.bind_pure hT (Store.apart_of_isUnbound hv hb)
  refine ⟨?_, fun hvalue => ?_, fun w hw => ?_⟩
  · exact exists_unify_of_bind (fun n => unify_left ht hv hb) hbind
  · exact exists_unify_of_bind (fun n => unify_right ht hv hvalue) hbind
  · have hcell := hb w hw
    have hover := Scope.bind_pure hT (Store.apart_of_isCell hcell hv)
    rw [Store.verdict_of_isCell hcell] at hover
    exact exists_unify_of_bind (fun n => unify_cell ht hv hw hcell) hover

theorem Bounds.guardsPure : Bounds.theory.GuardsPure fun bounds value =>
    match value with
    | .int n => bounds.1 ≤ n ∧ n ≤ bounds.2
    | _ => false where
  decides bounds value n c b d h := by
    cases value with
    | _ =>
      cases h
      exact ⟨rfl, Setoid.refl _⟩
  answers bounds value c := by
    cases value with
    | _ => exact ⟨0, _, c, rfl⟩

/-- A restricted variable takes three from either side and refuses nine, and an
unrestricted one takes a cell from the right. -/
theorem unify_unbound_sample :
    (∃ n d, (∀ k, n ≤ k → unify Bounds.theory k (.var ⟨3⟩) (.int 3) Bounds.scope = .ok true d) ∧
      Bounds.scope.Filled ⟨3⟩ (.int 3) d) ∧
    (∃ n d, (∀ k, n ≤ k → unify Bounds.theory k (.int 3) (.var ⟨3⟩) Bounds.scope = .ok true d) ∧
      Bounds.scope.Filled ⟨3⟩ (.int 3) d) ∧
    (∃ n d, (∀ k, n ≤ k → unify Bounds.theory k (.int 9) (.var ⟨3⟩) Bounds.scope = .ok false d) ∧
      d.trail = Bounds.scope.trail ∧ d.world.store ≈ Bounds.scope.world.store) ∧
    ∃ n d, (∀ k, n ≤ k → unify Bounds.theory k (.var ⟨1⟩) (.var ⟨2⟩) Bounds.scope = .ok true d) ∧
      Bounds.scope.Filled ⟨1⟩ (.var ⟨2⟩) d := by
  have hrestricted : Bounds.scope.world.store.isUnbound ⟨3⟩ = true := by decide +kernel
  have hplain : Bounds.scope.world.store.isUnbound ⟨1⟩ = true := by decide +kernel
  have hcell : Bounds.scope.world.store.isCell ⟨2⟩ = true := by decide +kernel
  have hthree := unify_unbound (t := .var ⟨3⟩) (u := .int 3) Bounds.guardsPure Bounds.scope
    (Store.deref_of_unbound hrestricted) hrestricted rfl (fun w hw => nomatch hw)
  have hnine := unify_unbound (t := .var ⟨3⟩) (u := .int 9) Bounds.guardsPure Bounds.scope
    (Store.deref_of_unbound hrestricted) hrestricted rfl (fun w hw => nomatch hw)
  have htwo := unify_unbound (t := .var ⟨1⟩) (u := .var ⟨2⟩) Bounds.guardsPure Bounds.scope
    (Store.deref_of_unbound hplain) hplain (Store.deref_of_cell hcell) (by
      intro w hw
      cases hw
      exact hcell)
  exact ⟨hthree.1, hthree.2.1 rfl, hnine.2.1 rfl, htwo.1⟩

/-- An unbound variable on the right is not bound to a cell on the left: the cell, which
held zero, is given the variable. -/
theorem cell_takes_unbound : ∃ d,
    Bounds.scope.world.store.isUnbound ⟨1⟩ = true ∧ Bounds.scope.world.store.isCell ⟨2⟩ = true ∧
      unify Bounds.theory 2 (.var ⟨2⟩) (.var ⟨1⟩) Bounds.scope = .ok true d ∧
      d.world.store.isUnbound ⟨1⟩ = true ∧
      Bounds.scope.world.store.number? (.var ⟨2⟩) = some 0 ∧
      d.world.store.number? (.var ⟨2⟩) = none := by
  refine ⟨_, by decide +kernel, by decide +kernel, rfl, by decide +kernel, by decide +kernel, ?_⟩
  decide +kernel

/-! ### A restricted variable and a value -/

/-- What is left of a binding by a guard that binds nothing and may change its mind.
If the guard refuses at once, the trail and all slots are as before.  If it admits the
value at first, the empty slot stays saved, and is filled if the guard still admits the
value when asked again. -/
theorem unify_restricted {c d : Scope S} {t u b : S.Term} {v : Var}
    (hguard : ∀ g, c.world.store.guard? v = some g → T.Inert g)
    (ht : c.world.store.deref t = .var v) (hv : c.world.store.isUnbound v = true)
    (hu : c.world.store.deref u = b) (hb : b.var? = none) {n : Nat} {r : Bool}
    (h : unify T n t u c = .ok r d ∨ unify T n u t c = .ok r d) :
    ∃ k b₁ c₁, Scope.admits T k (unify T k) v b c = .ok b₁ c₁ ∧
      (b₁ = false → r = false ∧ d.trail = c.trail ∧ d.world.store ≈ c.world.store) ∧
      (b₁ = true → (∃ c₂, Scope.admits T k (unify T k) v b (c₁.saved v) = .ok r c₂) ∧
        d.trail.entries = ⟨v, none⟩ :: c.trail.entries ∧
        d.world.store ≈ if r then c.world.store.set v (some b) else c.world.store) := by
  subst hu
  have hvalue : ∀ w, c.world.store.deref u = .var w → c.world.store.isCell w = true := by
    intro w hw
    rw [hw] at hb
    cases hb
  have hbind : ∃ k, Scope.bind T k (unify T k) v (c.world.store.deref u) c = .ok r d := by
    rcases h with h | h
    · exact bind_of_unify (fun n => unify_left ht hv hvalue) h
    · exact bind_of_unify (fun n => unify_right ht hv hb) h
  obtain ⟨k, hk⟩ := hbind
  obtain ⟨b₁, c₁, h₁, hrefused, hasked⟩ :=
    Scope.bind_consults hguard (Store.apart_of_isUnbound hv hvalue) hk
  rw [(Store.isUnbound_eq_true.mp hv).2] at hasked
  exact ⟨k, b₁, c₁, h₁, hrefused, hasked⟩

/-- The vocabulary without structures, with guards that ask the private state. -/
abbrev Fickle.vocabulary : Vocabulary := ⟨Empty, Unit, Bool⟩

/-- The theory in which a guard says yes and no in turn. -/
def Fickle.theory : Theory Fickle.vocabulary where
  unifyWith label := nomatch label
  copies label := nomatch label
  render label := nomatch label
  admits _ _ := .ask .state fun (yes : Bool) => .ask (.put (!yes)) fun _ => .done yes

theorem Fickle.guardsInert : Fickle.theory.GuardsInert :=
  Theory.guardsInert_of_asks fun _ _ => .ask fun _ => .ask fun _ => .done _

/-- A restricted variable whose guard, when asked next, says `yes`. -/
def Fickle.scope (yes : Bool) : Scope Fickle.vocabulary :=
  ⟨.empty, ⟨⟨#[.fresh, ⟨.ordinary (some ()), none⟩]⟩, 0, yes, []⟩⟩

/-- A guard that refuses at once leaves no trace, and one that refuses when asked again
leaves the empty slot saved. -/
theorem unify_restricted_sample :
    (∃ d, unify Fickle.theory 2 (.var ⟨1⟩) (.int 3) (Fickle.scope false) = .ok false d ∧
      d.trail = .empty ∧ d.world.store ≈ (Fickle.scope false).world.store) ∧
    ∃ d, unify Fickle.theory 2 (.int 3) (.var ⟨1⟩) (Fickle.scope true) = .ok false d ∧
      d.trail.entries = [⟨⟨1⟩, none⟩] ∧ d.world.store ≈ (Fickle.scope true).world.store := by
  have hunbound : ∀ yes, (Fickle.scope yes).world.store.isUnbound ⟨1⟩ = true := by decide +kernel
  constructor
  · obtain ⟨k, b₁, c₁, h₁, hrefused, -⟩ := unify_restricted (t := .var ⟨1⟩) (u := .int 3) (n := 2)
      (fun g _ => Fickle.guardsInert g) (Store.deref_of_unbound (hunbound false))
      (hunbound false) rfl rfl (.inl rfl)
    cases h₁
    exact ⟨_, rfl, (hrefused rfl).2⟩
  · obtain ⟨k, b₁, c₁, h₁, -, hasked⟩ := unify_restricted (t := .var ⟨1⟩) (u := .int 3) (n := 2)
      (fun g _ => Fickle.guardsInert g) (Store.deref_of_unbound (hunbound true))
      (hunbound true) rfl rfl (.inr rfl)
    cases h₁
    exact ⟨_, rfl, (hasked rfl).2⟩

/-- A guard that admits a value at first and refuses it when asked again leaves an entry
on the trail, though the unification fails and no slot has changed. -/
theorem refused_binding_leaves_entry : ∃ d,
    (Fickle.scope true).world.store.isRestricted ⟨1⟩ = true ∧
      unify Fickle.theory 2 (.var ⟨1⟩) (.int 3) (Fickle.scope true) = .ok false d ∧
      (Fickle.scope true).trail.length = 0 ∧ d.trail.length = 1 :=
  ⟨_, rfl, rfl, rfl, rfl⟩

end GoalSearch
