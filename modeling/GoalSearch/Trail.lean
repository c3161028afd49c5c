/-
The trail: what slots held before they were changed.

Every change of a slot is recorded first, so that a search can go back to an
earlier store.  Going back to a mark undoes the newest entries until the trail
is as long as the mark says.

Main definitions:

* `Trail.record` — saves the slot of a variable;
* `Trail.undo`, `Trail.backtrack` — restore saved slots, newest first.

Main statements:

* `Trail.length_record`, `Trail.length_backtrack` — the length after each;
* `Trail.backtrack_of_length_le` — a mark above the trail undoes nothing.
-/
import GoalSearch.Store

namespace GoalSearch

/-- A saved slot: the variable and what its slot held. -/
structure Saved (S : Vocabulary) where
  /-- The variable whose slot was about to change. -/
  var : Var
  /-- What the slot held. -/
  previous : Option S.Term

/-- The saved slots, newest first. -/
structure Trail (S : Vocabulary) where
  /-- The saved slots, newest first. -/
  entries : List (Saved S)

namespace Trail

variable {S : Vocabulary}

/-- The trail on which nothing is saved. -/
def empty : Trail S := ⟨[]⟩

instance : Inhabited (Trail S) := ⟨empty⟩

/-- The number of saved slots. -/
def length (t : Trail S) : Nat := t.entries.length

/-- Saves the slot of a variable. -/
def record (t : Trail S) (s : Store S) (v : Var) : Trail S :=
  ⟨⟨v, s.binding v⟩ :: t.entries⟩

/-- Restores the newest `n` saved slots and drops them. -/
def undo : Nat → List (Saved S) → Store S → List (Saved S) × Store S
  | n + 1, e :: es, s => undo n es (s.set e.var e.previous)
  | _, es, s => (es, s)

/-- Restores saved slots until at most `mark` are left. -/
def backtrack (t : Trail S) (mark : Nat) (s : Store S) : Trail S × Store S :=
  let (entries, store) := undo (t.length - mark) t.entries s
  (⟨entries⟩, store)

@[simp] theorem length_empty : (empty : Trail S).length = 0 := rfl

@[simp] theorem length_record (t : Trail S) (s : Store S) (v : Var) :
    (t.record s v).length = t.length + 1 := rfl

theorem undo_fst (n : Nat) (es : List (Saved S)) (s : Store S) :
    (undo n es s).1 = es.drop n := by
  induction n generalizing es s with
  | zero => simp [undo]
  | succ n ih =>
    cases es with
    | nil => simp [undo]
    | cons e es => simp [undo, ih]

theorem length_backtrack (t : Trail S) (mark : Nat) (s : Store S) :
    (t.backtrack mark s).1.length = min t.length mark := by
  simp only [backtrack, length, undo_fst, List.length_drop]
  omega

theorem backtrack_of_length_le {t : Trail S} {mark : Nat} (h : t.length ≤ mark) (s : Store S) :
    t.backtrack mark s = (t, s) := by
  simp [backtrack, Nat.sub_eq_zero_of_le h, undo]

end Trail

end GoalSearch
