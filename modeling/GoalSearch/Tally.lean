/-
Named counters.

A tally holds a number for some of its names.  A name without a number is
different from one that counts zero, and adding zero to it makes it count.

Main definitions:

* `Tally`, `Tally.get?`, `Tally.count`;
* `Tally.add`, `Tally.raise`, `Tally.erase`;
* `Tally.agrees` — whether two tallies hold the same numbers;
* `Counter`, `Statistics` — what an engine counts.

Main statements:

* `Tally.get?_add`, `Tally.get?_raise`, `Tally.get?_erase` — each operation
  changes the number of one name.
-/

namespace GoalSearch

/-- Numbers for names in `κ`, each name at most once. -/
structure Tally (κ : Type) where
  /-- The names that count, in the order in which they began to. -/
  entries : List (κ × Nat)

namespace Tally

variable {κ : Type} [DecidableEq κ]

/-- The tally in which no name counts. -/
def empty : Tally κ := ⟨[]⟩

instance : Inhabited (Tally κ) := ⟨empty⟩

/-- The number of a name in a list of numbers. -/
def find : List (κ × Nat) → κ → Option Nat
  | [], _ => none
  | (j, n) :: rest, k => if j = k then some n else find rest k

/-- The list with another number for a name. -/
def replace : List (κ × Nat) → κ → Nat → List (κ × Nat)
  | [], k, n => [(k, n)]
  | (j, m) :: rest, k, n => if j = k then (k, n) :: rest else (j, m) :: replace rest k n

/-- The number of a name, if it counts. -/
def get? (t : Tally κ) (k : κ) : Option Nat := find t.entries k

/-- The number of a name; nothing is read as zero. -/
def count (t : Tally κ) (k : κ) : Nat := (t.get? k).getD 0

/-- Gives a name a number. -/
def put (t : Tally κ) (k : κ) (n : Nat) : Tally κ := ⟨replace t.entries k n⟩

/-- Adds to the number of a name, which counts from now on. -/
def add (t : Tally κ) (k : κ) (n : Nat) : Tally κ := t.put k (t.count k + n)

/-- Raises the number of a name to `n` if it is lower. -/
def raise (t : Tally κ) (k : κ) (n : Nat) : Tally κ := t.put k (max (t.count k) n)

/-- Takes the number from a name. -/
def erase (t : Tally κ) (k : κ) : Tally κ :=
  ⟨t.entries.filter fun entry => entry.1 ≠ k⟩

/-- Whether two tallies have the same number for every name. -/
def agrees (t u : Tally κ) : Bool :=
  (t.entries ++ u.entries).all fun entry => t.get? entry.1 == u.get? entry.1

theorem find_replace (es : List (κ × Nat)) (j k : κ) (n : Nat) :
    find (replace es j n) k = if j = k then some n else find es k := by
  induction es with
  | nil => simp [replace, find]
  | cons e es ih =>
    obtain ⟨i, m⟩ := e
    by_cases hij : i = j
    · subst hij
      by_cases hik : i = k <;> simp [replace, find, hik]
    · by_cases hik : i = k
      · subst hik
        simp [replace, find, hij, Ne.symm hij]
      · simp [replace, find, hij, hik, ih]

theorem get?_put (t : Tally κ) (j k : κ) (n : Nat) :
    (t.put j n).get? k = if j = k then some n else t.get? k :=
  find_replace t.entries j k n

theorem get?_add (t : Tally κ) (j k : κ) (n : Nat) :
    (t.add j n).get? k = if j = k then some (t.count j + n) else t.get? k :=
  get?_put t j k _

theorem get?_raise (t : Tally κ) (j k : κ) (n : Nat) :
    (t.raise j n).get? k = if j = k then some (max (t.count j) n) else t.get? k :=
  get?_put t j k _

theorem get?_erase (t : Tally κ) (j k : κ) :
    (t.erase j).get? k = if j = k then none else t.get? k := by
  simp only [get?, erase, ne_eq, decide_not]
  induction t.entries with
  | nil => simp [find]
  | cons e es ih =>
    obtain ⟨i, m⟩ := e
    by_cases hij : i = j
    · subst hij
      by_cases hik : i = k <;> simp_all [find]
    · by_cases hik : i = k
      · subst hik
        simp [find, hij, Ne.symm hij]
      · simp [find, hij, hik, ih]

end Tally

/-- What an engine counts. -/
inductive Counter
  /-- Calls of goals. -/
  | calls
  /-- Retries of the frame on top of the stack. -/
  | retries
  /-- Frames pushed. -/
  | framesPushed
  /-- Frames removed with their bindings undone. -/
  | framesPopped
  /-- Frames removed with their bindings kept. -/
  | framesRetired
  /-- Trail entries recorded by unification. -/
  | bindings
  /-- Trail entries undone. -/
  | bindingsUndone
  /-- Commits to a first solution. -/
  | commits
  /-- The deepest stack seen. -/
  | maxDepth
deriving DecidableEq, Repr

/-- The name of a counter. -/
def Counter.name : Counter → String
  | calls => "calls"
  | retries => "retries"
  | framesPushed => "frames_pushed"
  | framesPopped => "frames_popped"
  | framesRetired => "frames_retired"
  | bindings => "bindings"
  | bindingsUndone => "bindings_undone"
  | commits => "commits"
  | maxDepth => "max_depth"

/-- All counters of an engine. -/
def Counter.all : List Counter :=
  [calls, retries, framesPushed, framesPopped, framesRetired, bindings, bindingsUndone, commits,
    maxDepth]

/-- The counters of an engine. -/
abbrev Statistics : Type := Tally Counter

end GoalSearch
