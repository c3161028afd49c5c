/-
Stores up to the choice of representatives.

A variable that is bound to another one stands for it from then on, and which of the
two is bound is a matter of the order in which they are unified.  Two stores agree if
their chains of bindings join the same terms, and end alike but for the choice among
variables that have no guard.  What can be read off such stores is the same.

* `Store.deref_set` — where chains end after a binding;
* `Store.Joined`, `Store.Pairs.joined` — a binding joins two chains, whichever of them
  it makes longer;
* `Store.Agrees` — stores that differ in the choice of representatives only;
* `Store.Agrees.joined` — they go on to agree when the same chains are joined;
* `Store.Agrees.identical?`, `Store.Agrees.isUnbound` — what they have in common.
-/
import GoalSearch.Proofs.Binding

namespace GoalSearch

variable {S : Vocabulary}

theorem allPairs?_swap {α β : Type} {f : α → β → Option Bool} {g : β → α → Option Bool}
    (h : ∀ a b, f a b = g b a) (as : List α) (bs : List β) :
    allPairs? f as bs = allPairs? g bs as := by
  induction as generalizing bs with
  | nil => cases bs <;> rfl
  | cons a as ih =>
    cases bs with
    | nil => rfl
    | cons b bs => rw [allPairs?, allPairs?, h a b, ih bs]

namespace Store

variable {s s' r r' : Store S} {t u a b e e' value : S.Term} {v w : Var}

/-! ### Where chains end after a binding -/

theorem step?_set_of_ne (h : t ≠ .var v) (value : Option S.Term) :
    (s.set v value).step? t = s.step? t := by
  cases t with
  | var w =>
    have hvw : v ≠ w := fun heq => h (by rw [heq])
    rw [step?, step?, isCell_set, binding_set, if_neg hvw]
  | _ => rfl

theorem step?_set_self (hcell : s.isCell v = false) (value : S.Term) :
    (s.set v (some value)).step? (.var v) = some value := by
  rw [step?, isCell_set, hcell, binding_set, if_pos rfl]
  rfl

/-- After a binding, the chains that ended at the variable end at its value, and all
others where they did. -/
theorem deref_set (hs : s.ChainsEnd) (h : s.Apart v value) (hcell : s.isCell v = false)
    (t : S.Term) :
    (s.deref t = .var v → (s.set v (some value)).deref t = value) ∧
      (s.deref t ≠ .var v → (s.set v (some value)).deref t = s.deref t) := by
  have hset : (s.set v (some value)).ChainsEnd := hs.set h.free h.checks.away
  have hvalue : (s.set v (some value)).deref value = value := by
    refine deref_of_step?_eq_none ?_
    rw [step?_set_of_ne h.other, h.last]
  induction t using hs.induction with
  | _ t ih =>
    by_cases htv : t = .var v
    · subst htv
      have hlast := deref_of_step?_eq_none (step?_of_not_isBound h.free)
      rw [hlast, deref_of_step?_eq_some hset (step?_set_self hcell value), hvalue]
      exact ⟨fun _ => rfl, fun hne => absurd rfl hne⟩
    · have hstep := step?_set_of_ne (s := s) htv (some value)
      cases ht : s.step? t with
      | none =>
        rw [deref_of_step?_eq_none ht, deref_of_step?_eq_none (hstep.trans ht)]
        exact ⟨fun heq => absurd heq htv, fun _ => rfl⟩
      | some u =>
        rw [deref_of_step?_eq_some hs ht, deref_of_step?_eq_some hset (hstep.trans ht)]
        exact ih u ht

/-- Of the ends of two chains, one is an ordinary variable, and the other one is the
value that it may be bound to. -/
structure Pairs (s : Store S) (t u : S.Term) (v : Var) (value : S.Term) : Prop where
  apart : s.Apart v value
  ordinary : s.isCell v = false
  ends : (s.deref t = .var v ∧ s.deref u = value) ∨ (s.deref t = value ∧ s.deref u = .var v)

/-- A term whose chain is one of two. -/
def OnEither (s : Store S) (t u x : S.Term) : Prop := s.deref x = s.deref t ∨ s.deref x = s.deref u

theorem OnEither.of_deref_eq {x y : S.Term} (h : s.OnEither t u x) (hxy : s.deref x = s.deref y) :
    s.OnEither t u y := by
  rwa [OnEither, ← hxy]

/-- Two chains have been joined: both go on to the end of one of them, and all others
end where they did. -/
structure Joined (s : Store S) (t u e : S.Term) (s' : Store S) : Prop where
  role : ∀ v, (s'.get v).role = (s.get v).role
  chosen : e = s.deref t ∨ e = s.deref u
  both : ∀ x, s.OnEither t u x → s'.deref x = e
  others : ∀ x, ¬ s.OnEither t u x → s'.deref x = s.deref x

/-- Chains that have been joined end alike, and so do those that did before. -/
theorem Joined.deref_eq_iff (h : s.Joined t u e s') (x y : S.Term) :
    s'.deref x = s'.deref y ↔ (s.OnEither t u x ∧ s.OnEither t u y) ∨ s.deref x = s.deref y := by
  -- The end that both chains now share was the end of one of them.
  have hchosen : ∀ z, e = s.deref z → s.OnEither t u z := by
    intro z hz
    rw [OnEither, ← hz]
    exact h.chosen
  by_cases hx : s.OnEither t u x
  · by_cases hy : s.OnEither t u y
    · rw [h.both x hx, h.both y hy]
      exact ⟨fun _ => .inl ⟨hx, hy⟩, fun _ => rfl⟩
    · rw [h.both x hx, h.others y hy]
      constructor
      · intro heq
        exact absurd (hchosen y heq) hy
      · rintro (⟨-, hy'⟩ | heq)
        · exact absurd hy' hy
        · exact absurd (hx.of_deref_eq heq) hy
  · by_cases hy : s.OnEither t u y
    · rw [h.others x hx, h.both y hy]
      constructor
      · intro heq
        exact absurd (hchosen x heq.symm) hx
      · rintro (⟨hx', -⟩ | heq)
        · exact absurd hx' hx
        · exact absurd (hy.of_deref_eq heq.symm) hx
    · rw [h.others x hx, h.others y hy]
      exact ⟨.inr, fun heq => heq.resolve_left fun hboth => hx hboth.1⟩

/-- A binding joins two chains. -/
theorem Pairs.joined (hs : s.ChainsEnd) (h : s.Pairs t u v value)
    (hs' : s' ≈ s.set v (some value)) : s.Joined t u value s' := by
  have hset : (s.set v (some value)).ChainsEnd := hs.set h.apart.free h.apart.checks.away
  have hderef : ∀ x, s'.deref x = (s.set v (some value)).deref x :=
    fun x => (deref_congr hset (Setoid.symm hs') x).symm
  have hends : ∀ x, s.OnEither t u x ↔ (s.deref x = .var v ∨ s.deref x = value) := by
    intro x
    rw [OnEither]
    rcases h.ends with ⟨ht, hu⟩ | ⟨ht, hu⟩
    · rw [ht, hu]
    · rw [ht, hu, or_comm]
  refine ⟨fun w => ?_, ?_, fun x hx => ?_, fun x hx => ?_⟩
  · rw [hs' w, role_set]
  · rcases h.ends with ⟨-, hu⟩ | ⟨ht, -⟩
    · exact .inr hu.symm
    · exact .inl ht.symm
  · obtain ⟨hvar, hother⟩ := deref_set hs h.apart h.ordinary x
    rw [hderef]
    rcases (hends x).mp hx with hx | hx
    · exact hvar hx
    · rw [hother (by rw [hx]; exact h.apart.other), hx]
  · rw [hderef]
    exact (deref_set hs h.apart h.ordinary x).2 fun hv => hx ((hends x).mpr (.inl hv))

/-! ### Stores that agree -/

/-- Ends of chains that are the same, or both variables without a guard. -/
inductive Match (s : Store S) : S.Term → S.Term → Prop
  | same (a : S.Term) : Match s a a
  | plain {v w : Var} : (s.get v).role = .ordinary none → (s.get w).role = .ordinary none →
      Match s (.var v) (.var w)

theorem Match.symm (h : s.Match a b) : s.Match b a := by
  cases h with
  | same => exact .same _
  | plain hv hw => exact .plain hw hv

theorem Match.of_role (h : s.Match a b) (hrole : ∀ v, (s'.get v).role = (s.get v).role) :
    s'.Match a b := by
  cases h with
  | same => exact .same _
  | plain hv hw => exact .plain (by rw [hrole, hv]) (by rw [hrole, hw])

theorem Match.eq_of_value (h : s.Match a b) (ha : a.var? = none) : b = a := by
  cases h with
  | same => rfl
  | plain => cases ha

/-- The chains of two stores join the same terms, and end alike but for the choice
among variables without a guard. -/
structure Agrees (s s' : Store S) : Prop where
  role : ∀ v, (s'.get v).role = (s.get v).role
  ends : ∀ t, s.Match (s.deref t) (s'.deref t)
  same : ∀ t u, s.deref t = s.deref u ↔ s'.deref t = s'.deref u

theorem Agrees.refl (s : Store S) : s.Agrees s :=
  ⟨fun _ => rfl, fun _ => .same _, fun _ _ => Iff.rfl⟩

theorem Agrees.symm (h : s.Agrees s') : s'.Agrees s where
  role v := (h.role v).symm
  ends t := (h.ends t).symm.of_role h.role
  same t u := (h.same t u).symm

theorem Agrees.congr (h : s.Agrees s') (hs : s.ChainsEnd) (hs' : s'.ChainsEnd) (hr : s ≈ r)
    (hr' : s' ≈ r') : r.Agrees r' where
  role v := by rw [← hr v, ← hr' v, h.role]
  ends t := by
    rw [← deref_congr hs hr, ← deref_congr hs' hr']
    exact (h.ends t).of_role fun v => by rw [hr v]
  same t u := by
    rw [← deref_congr hs hr, ← deref_congr hs' hr', ← deref_congr hs hr, ← deref_congr hs' hr']
    exact h.same t u

/-- Stores that agree go on to do so when both join the same two chains, with ends that
match. -/
theorem Agrees.joined (h : s.Agrees s') (hjoined : s.Joined t u e r)
    (hjoined' : s'.Joined t u e' r') (hmatch : s.Match e e') : r.Agrees r' := by
  -- a term is on one of the two chains in both stores or in neither
  have hon : ∀ x, s.OnEither t u x ↔ s'.OnEither t u x :=
    fun x => or_congr (h.same x t) (h.same x u)
  refine ⟨fun v => ?_, fun x => ?_, fun x y => ?_⟩
  · rw [hjoined.role, hjoined'.role, h.role]
  · have hends : s.Match (r.deref x) (r'.deref x) := by
      by_cases hx : s.OnEither t u x
      · rw [hjoined.both x hx, hjoined'.both x ((hon x).mp hx)]
        exact hmatch
      · rw [hjoined.others x hx, hjoined'.others x fun hx' => hx ((hon x).mpr hx')]
        exact h.ends x
    exact hends.of_role hjoined.role
  · rw [hjoined.deref_eq_iff, hjoined'.deref_eq_iff, hon x, hon y, h.same x y]

/-! ### What stores that agree have in common -/

/-- Whether two terms are identical does not depend on their order. -/
theorem identical?_comm (s : Store S) (n : Nat) (t u : S.Term) :
    s.identical? n t u = s.identical? n u t := by
  induction n generalizing t u with
  | zero => rfl
  | succ n ih =>
    rw [Store.identical?, Store.identical?]
    generalize s.deref t = a
    generalize s.deref u = b
    cases a with
    | list as =>
      cases b with
      | list bs =>
        dsimp only
        rw [allPairs?_swap ih]
        simp only [eq_comm]
      | _ => rfl
    | _ =>
      cases b with
      | list bs => rfl
      | _ => simp only [eq_comm]

/-- Stores that agree make the same terms identical. -/
theorem Agrees.identical? (h : s.Agrees s') (n : Nat) (t u : S.Term) :
    s.identical? n t u = s'.identical? n t u := by
  induction n generalizing t u with
  | zero => rfl
  | succ n ih =>
    have hitems : s.identical? n = s'.identical? n := funext fun t => funext fun u => ih t u
    have hsame := h.same t u
    have ht := h.ends t
    have hu := h.ends u
    rw [Store.identical?, Store.identical?, hitems]
    -- The ends are the same, or plain data of which `hsame` says that they compare alike.
    generalize s.deref t = a at *
    generalize s.deref u = b at *
    generalize s'.deref t = a' at *
    generalize s'.deref u = b' at *
    cases ht with
    | same =>
      cases hu with
      | same => rfl
      | plain =>
        cases a with
        | var v => simpa using hsame
        | _ => rfl
    | plain =>
      cases hu with
      | same =>
        cases b with
        | var w => simpa using hsame
        | _ => rfl
      | plain => simpa using hsame

theorem role_of_isRestricted {g : S.Guard} (h : s.guard? v = some g) :
    (s.get v).role = .ordinary (some g) := by
  rw [guard?] at h
  cases hrole : (s.get v).role with
  | ordinary guard =>
    rw [hrole] at h
    rw [show guard = some g from h]
  | cell =>
    rw [hrole] at h
    cases h

/-- Stores that agree leave the same restricted variables unbound. -/
theorem Agrees.isUnbound (h : s.Agrees s') (hs : s.ChainsEnd) (hs' : s'.ChainsEnd)
    (hv : s.isRestricted v = true) : s.isUnbound v = s'.isUnbound v := by
  -- Agreement is symmetric, so one direction is enough.
  have hone : ∀ {s s' : Store S}, s.Agrees s' → s'.ChainsEnd → s.isRestricted v = true →
      s.isUnbound v = true → s'.isUnbound v = true := by
    intro s s' h hs' hv hunbound
    obtain ⟨g, hg⟩ := Option.isSome_iff_exists.mp hv
    have hends := h.ends (.var v)
    rw [deref_of_unbound hunbound] at hends
    generalize hend : s'.deref (.var v) = e at hends
    cases hends with
    | same =>
      refine isUnbound_of_not_isBound ?_ (isBound_of_deref_eq_var hs' hend)
      rw [isCell, h.role, role_of_isRestricted hg]
    | plain hplain =>
      rw [role_of_isRestricted hg] at hplain
      cases hplain
  have hv' : s'.isRestricted v = true := by
    rwa [isRestricted, guard?, h.role]
  rw [Bool.eq_iff_iff]
  exact ⟨hone h hs' hv, hone h.symm hs hv'⟩

end Store

end GoalSearch
