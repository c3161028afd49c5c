/-
Chains of bindings over time.

A binding whose value leads back to its variable is refused, so unification
closes no chain of bindings, and neither does going back on the trail.  A scope
that continues another one in this sense still knows it, and has chains that
end wherever it goes back to.

* `Store.Order` — relations that last when a slot that is not bound is filled;
* `Scope.Throughout` — later scopes to which such a relation leads wherever they
  go back to;
* `Scope.history_throughout` — unification and going back lead to such scopes;
* `Scope.Continues` — later scopes that can go back without closing a chain.
-/
import GoalSearch.Proofs.Rollback

namespace GoalSearch

open GoalSearch.Action

variable {S : Vocabulary}

/-- Relations between earlier and later stores that see nothing but the slots,
and last when a variable that is not bound is given a value that does not lead
back to it. -/
structure Store.Order (P : Store S → Store S → Prop) : Prop where
  of_equiv : ∀ {s s'}, s ≈ s' → P s s'
  trans : ∀ {s s' s''}, P s s' → P s' s'' → P s s''
  set : ∀ {s : Store S} {v value}, s.isBound v = false → (s.deref value).var? ≠ some v →
    P s (s.set v (some value))

/-- Chains that end go on to do so. -/
theorem Store.order_chainsEnd :
    Order fun s s' : Store S => s.ChainsEnd → s'.ChainsEnd where
  of_equiv h hs := hs.congr h
  trans h h' hs := h' (h hs)
  set hv hvalue hs := hs.set hv hvalue

namespace Scope

variable {c d e : Scope S}

/-! ### Going back twice -/

theorem backtracked_of_length_le {mark : Nat} (h : c.trail.length ≤ mark) :
    c.backtracked mark = c := by
  rw [backtracked, Trail.backtrack_of_length_le h]

theorem backtracked_backtracked (c : Scope S) (mark mark' : Nat) :
    (c.backtracked mark).backtracked mark' = c.backtracked (min mark mark') := by
  obtain ⟨⟨entries⟩, w⟩ := c
  have hcount : entries.length - mark + (entries.length - (entries.length - mark) - mark') =
      entries.length - min mark mark' := by omega
  simp only [backtracked, Trail.backtrack_eq, Trail.length, List.length_drop, List.drop_drop,
    ← Trail.restore_append, ← List.take_add, hcount]

/-- Going back behind an earlier scope goes back from that scope. -/
theorem Extends.backtracked_equiv (h : c.Extends d) {mark : Nat} (hm : mark ≤ c.trail.length) :
    (d.backtracked mark).world.store ≈ (c.backtracked mark).world.store := by
  have hback := h.backtrack (Nat.le_refl _)
  have hlength : (d.backtracked c.trail.length).trail.length = c.trail.length := by
    have := h.grows.length_le
    rw [length_backtracked]
    omega
  have hentries := hback.grows.entries_eq hlength
  have hstore := hback.store_equiv hlength
  rw [show d.backtracked mark = (d.backtracked c.trail.length).backtracked mark by
    rw [backtracked_backtracked, Nat.min_eq_right hm]]
  generalize d.backtracked c.trail.length = d' at hentries hstore hlength
  simp only [backtracked, Trail.backtrack_eq, hentries, hlength]
  exact Trail.restore_congr _ hstore

/-! ### Relations that hold throughout -/

section Throughout

variable {P : Store S → Store S → Prop}

/-- A later scope, with the earlier slots related to its own and to those of all
scopes that it goes back to. -/
structure Throughout (P : Store S → Store S → Prop) (c d : Scope S) : Prop where
  later : c.Extends d
  always : ∀ mark, c.trail.length ≤ mark → P c.world.store (d.backtracked mark).world.store

theorem Throughout.now (h : c.Throughout P d) : P c.world.store d.world.store := by
  have := h.always _ h.later.grows.length_le
  rwa [backtracked_of_length_le (Nat.le_refl _)] at this

theorem Throughout.backtrack (h : c.Throughout P d) {mark : Nat} (hm : c.trail.length ≤ mark) :
    c.Throughout P (d.backtracked mark) := by
  refine ⟨h.later.backtrack hm, fun mark' hm' => ?_⟩
  rw [backtracked_backtracked]
  exact h.always _ (Nat.le_min.mpr ⟨hm, hm'⟩)

variable (hP : Store.Order P)

include hP

theorem Throughout.trans (h : c.Throughout P d) (h' : d.Throughout P e) : c.Throughout P e := by
  refine ⟨h.later.trans h'.later, fun mark hm => ?_⟩
  rcases Nat.le_total d.trail.length mark with hle | hle
  · exact hP.trans h.now (h'.always mark hle)
  · -- before `d` the two scopes go back to the same slots
    have hback := h'.later.backtracked_equiv hle
    exact hP.trans (h.always mark hm) (hP.of_equiv (Setoid.symm hback))

/-- A scope with at most one entry more can go back to where it came from. -/
theorem Extends.throughout (h : c.Extends d) (hlength : d.trail.length ≤ c.trail.length + 1)
    (hstores : P c.world.store d.world.store) : c.Throughout P d := by
  refine ⟨h, fun mark hm => ?_⟩
  by_cases hle : d.trail.length ≤ mark
  · rw [backtracked_of_length_le hle]
    exact hstores
  · have hmark : mark = c.trail.length := by omega
    subst hmark
    have := h.backtracked_equiv (Nat.le_refl _)
    rw [backtracked_of_length_le (c := c) (Nat.le_refl _)] at this
    exact hP.of_equiv (Setoid.symm this)

theorem throughout_of_same (htrail : d.trail = c.trail) (hstore : d.world.store ≈ c.world.store) :
    c.Throughout P d :=
  (extends_of_same htrail hstore).throughout hP (by rw [htrail]; omega)
    (hP.of_equiv (Setoid.symm hstore))

theorem lasting_throughout : Lasting (fun _ => True) (Throughout P) :=
  ⟨fun _ => throughout_of_same hP rfl (Setoid.refl _), Throughout.trans hP, fun _ _ => trivial⟩

section Bind

variable {T : Theory S} (hT : T.GuardsInert) (n : Nat) (v : Var) (value : S.Term)

include hT

/-- Filling a slot leaves the trail alone. -/
theorem assign_related :
    Keeps (fun _ => True) (fun c d : Scope S => d.trail = c.trail ∧
      P c.world.store d.world.store) Stop.Balanced (assign T n (unify T n) v value) := by
  intro c _
  rw [assign, ensures_bind_of_eq_ok (store_apply c)]
  split
  · exact ⟨rfl, hP.of_equiv (Setoid.refl _)⟩
  · next hunbound =>
    split
    · exact ⟨rfl, hP.of_equiv (Setoid.refl _)⟩
    · next hcycle =>
      rw [ensures_bind]
      refine (admits_inert hT n v value c trivial).mono ?_
      intro b d hd
      obtain ⟨htrail, hstore⟩ := hd
      split
      · refine ⟨htrail, ?_⟩
        have hset := hP.set (by simpa using hunbound) hcycle
        exact hP.trans hset (hP.of_equiv (Store.set_congr (Setoid.symm hstore) v (some value)))
      · exact ⟨htrail, hP.of_equiv (Setoid.symm hstore)⟩

theorem bind_related :
    Keeps (fun _ => True) (fun c d : Scope S => d.trail.length ≤ c.trail.length + 1 ∧
      P c.world.store d.world.store) Stop.Balanced (bind T n (unify T n) v value) := by
  intro c _
  rw [bind, ensures_bind]
  refine (admits_inert hT n v value c trivial).mono ?_
  intro b d hd
  obtain ⟨htrail, hstore⟩ := hd
  have hlength : d.trail.length = c.trail.length := by rw [htrail]
  have hsame : P c.world.store d.world.store := hP.of_equiv (Setoid.symm hstore)
  split
  · rw [ensures_bind_of_eq_ok (record_apply v d), ensures_bind]
    refine (assign_related hP hT n v value _ trivial).mono ?_
    intro r e he
    obtain ⟨hetrail, hestore⟩ := he
    have hkeeps : e.trail.length ≤ c.trail.length + 1 ∧ P c.world.store e.world.store := by
      refine ⟨?_, hP.trans hsame hestore⟩
      rw [hetrail, Trail.length_record, hlength]
    split
    · exact hkeeps
    · split
      · simp [Stop.Balanced]
      · exact hkeeps
  · exact ⟨by omega, hsame⟩

theorem bind_throughout :
    Keeps (fun _ => True) (Throughout P) Stop.Balanced (bind T n (unify T n) v value) := by
  intro c hc
  have hextends := bind_extends hT n v value c hc
  have hrelated := bind_related hP hT n v value c hc
  rw [ensures_iff] at hextends hrelated ⊢
  refine ⟨fun r d hd => ?_, hextends.2⟩
  obtain ⟨hlength, hstores⟩ := hrelated.1 r d hd
  exact (hextends.1 r d hd).throughout hP hlength hstores

omit v value in
/-- What lasts when slots are filled holds throughout. -/
theorem history_throughout : History T (Throughout P) where
  refl := fun _ => throughout_of_same hP rfl (Setoid.refl _)
  trans := Throughout.trans hP
  grows := fun h => h.later.grows
  world := fun _ _ h => throughout_of_same hP rfl (Store.equiv_of_eq h)
  backtrack := fun h hm => h.backtrack hm
  unify := unify_keeps (lasting_throughout hP) (by simp [Stop.Balanced])
    (fun _ _ h => throughout_of_same hP rfl (Store.equiv_of_eq h)) fun n _ =>
      bind_throughout hP hT n

end Bind

end Throughout

/-! ### Going on without closing a chain -/

/-- A later scope whose chains of bindings end wherever it goes back to, if
those of the earlier scope do. -/
structure Continues (c d : Scope S) : Prop where
  later : c.Extends d
  chains : c.world.store.ChainsEnd → ∀ mark, c.trail.length ≤ mark →
    (d.backtracked mark).world.store.ChainsEnd

theorem continues_iff_throughout :
    c.Continues d ↔ c.Throughout (fun s s' => s.ChainsEnd → s'.ChainsEnd) d :=
  ⟨fun h => ⟨h.later, fun mark hm hc => h.chains hc mark hm⟩,
    fun h => ⟨h.later, fun hc mark hm => h.always mark hm hc⟩⟩

theorem Continues.chainsEnd (h : c.Continues d) (hc : c.world.store.ChainsEnd) :
    d.world.store.ChainsEnd :=
  (continues_iff_throughout.mp h).now hc

theorem history_continues {T : Theory S} (hT : T.GuardsInert) : History T Continues := by
  have heq : Continues (S := S) = Throughout fun s s' => s.ChainsEnd → s'.ChainsEnd := by
    funext c d
    exact propext continues_iff_throughout
  rw [heq]
  exact history_throughout Store.order_chainsEnd hT

theorem Continues.trans (h : c.Continues d) (h' : d.Continues e) : c.Continues e := by
  rw [continues_iff_throughout] at *
  exact h.trans Store.order_chainsEnd h'

theorem Continues.backtrack (h : c.Continues d) {mark : Nat} (hm : c.trail.length ≤ mark) :
    c.Continues (d.backtracked mark) := by
  rw [continues_iff_throughout] at *
  exact h.backtrack hm

theorem continues_of_same (htrail : d.trail = c.trail) (hstore : d.world.store ≈ c.world.store) :
    c.Continues d :=
  continues_iff_throughout.mpr (throughout_of_same Store.order_chainsEnd htrail hstore)

end Scope

end GoalSearch
