/-
Addition puzzles with a different digit for every letter.

A puzzle is a sum written in columns.  The digits above the line of a column
add up to the digit below it plus ten times a carry.  The search decides one
letter after the other and then the carries; after every choice it works out
what the columns say about the rest.

Main definitions:

* `DigitSum`, `Column` — a puzzle and its columns;
* `DigitSum.nextOpen` — what is decided next, and the digits left for it;
* `DigitSum.propagate` — deduces digits until nothing changes;
* `DigitSum.solve` — the search.

Design notes: a column is used when at most one digit above its line is open.
Letters are compared only at the end of a propagation, when all deductions have
been made.
-/
import GoalSearch.Goal

namespace GoalSearch

variable {S : Vocabulary}

/-- The values of those of the variables that stand for integers. -/
def Store.digits (s : Store S) (vs : List Var) : List Int :=
  vs.filterMap fun v => s.int? (.var v)

namespace DigitSum

/-- One column of a sum: the digits above the line add up to the digit below it
plus ten times the carry. -/
structure Column where
  /-- The digits above the line, with the carry from the right. -/
  above : List Var
  /-- The digit below the line. -/
  below : Var
  /-- The carry to the left. -/
  carry : Var

end DigitSum

/-- A sum in columns. -/
structure DigitSum where
  /-- The columns, from the right. -/
  columns : List DigitSum.Column
  /-- The letters, in the order in which they are decided. -/
  letters : List Var
  /-- The carries that are no letters. -/
  carries : List Var

namespace DigitSum

/-- What is decided next: the first unbound letter with the digits that no
letter has, or else the first unbound carry. -/
def nextOpen (p : DigitSum) (s : Store S) : Option (Var × List Int) :=
  match p.letters.find? s.isUnbound with
  | some letter =>
    let taken := s.digits p.letters
    some (letter, [0, 1, 2, 3, 4, 5, 6, 7, 8, 9].filter fun n => n ∉ taken)
  | none => (p.carries.find? s.isUnbound).map fun carry => (carry, [0, 1, 2])

/-- Goes on with a round if an act succeeds, and ends it with a failure
otherwise. -/
def orFail {G : Type} (p : Program S G .verdict) (next : Program S G .attempt) :
    Program S G .attempt :=
  p.bind fun (b : Bool) => if b then next else .attempt (some false)

/-- One round over the columns.  A round without progress ends the rounds. -/
def sweep {G : Type} : List Column → (progress : Bool) → Program S G .attempt
  | [], progress => .attempt (if progress then none else some true)
  | c :: cs, progress =>
    Program.withStore fun s =>
      let known := total (s.digits c.above)
      match c.above.filter s.isUnbound with
      | [] =>
        -- the sum is known, so the digit below and the carry are too
        let changes := s.isUnbound c.below || s.isUnbound c.carry
        orFail
          ((Program.unifies (.var c.below) (.int (known % 10))).andThen
            (Program.unifies (.var c.carry) (.int (known / 10))))
          (sweep cs (progress || changes))
      | [last] =>
        match s.int? (.var c.below), s.int? (.var c.carry) with
        | some below, some carry =>
          -- the one open digit is what is missing to the sum
          orFail (Program.unifies (.var last) (.int (below + 10 * carry - known))) (sweep cs true)
        | _, _ => sweep cs progress
      | _ => sweep cs progress

/-- Deduces digits until nothing changes; whether all columns can still be
right and all letters differ. -/
def propagate {G : Type} (p : DigitSum) : Program S G .verdict :=
  .loop (sweep p.columns false) fun b =>
    if b then Program.withStore fun s => .verdict (decide (s.digits p.letters).Nodup)
    else .verdict false

/-- The choice of the digit at a position. -/
def choose {G : Type} (p : DigitSum) (v : Var) (digits : List Int) (i : Nat) :
    Program S G .attempt :=
  match digits[i]? with
  | some n =>
    ((Program.unifies (.var v) (.int n)).andThen p.propagate).bind fun (b : Bool) =>
      .attempt (some b)
  | none => .attempt none

/-- One level of the search. -/
def level {G : Type} (p : DigitSum) : Program S G .choices :=
  Program.withStore fun s =>
    .choices ((p.nextOpen s).map fun (v, digits) => p.choose v digits)

/-- The search for all digits. -/
def solve (p : DigitSum) : Goal S := .search (pure p.level)

end DigitSum

end GoalSearch
