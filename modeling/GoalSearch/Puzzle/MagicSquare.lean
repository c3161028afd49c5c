/-
Magic squares.

The fields of a square hold different digits, and the fields of every line add
up to the same sum.  A line is a cell that holds the fields of the line that
are still open and what they have to add up to; it is updated as digits are
placed, and goes back to what it was when the search does.

Main definitions:

* `MagicSquare` — the fields and the lines;
* `MagicSquare.constraint` — what the cell of a line holds;
* `MagicSquare.simplify` — updates lines until nothing changes;
* `MagicSquare.place`, `MagicSquare.fill` — places digits, one field after the
  other.
-/
import GoalSearch.Puzzle.DigitSum

namespace GoalSearch

variable {S : Vocabulary}

/-- A square. -/
structure MagicSquare where
  /-- The fields, row by row. -/
  fields : List Var
  /-- The cells of the lines. -/
  lines : List Var

namespace MagicSquare

/-- What the cell of a line holds: its open fields and their sum. -/
def constraint (fields : List S.Term) (sum : Int) : S.Term :=
  .list [.list fields, .int sum]

/-- What the cell of a line holds, if it is the constraint of a line. -/
def readLine? (s : Store S) (line : Var) : Option (List S.Term × Int) :=
  match (s.binding line).bind s.list? with
  | some (fields :: sum :: _) =>
    match s.list? fields, s.int? sum with
    | some fields, some sum => some (fields, sum)
    | _, _ => none
  | _ => none

/-- One round over the lines.  A line with one open field says what it holds; a
line with fewer open fields than it lists is updated.  A round without change
ends the rounds. -/
def sweep {G : Type} : List Var → (changed : Bool) → Program S G .attempt
  | [], changed => .attempt (if changed then none else some true)
  | line :: rest, changed =>
    Program.withStore fun s =>
      match readLine? s line with
      | none => .attempt (some false)
      | some ([], sum) => if sum = 0 then sweep rest changed else .attempt (some false)
      | some (fields, sum) =>
        let remaining := sum - total (fields.filterMap s.int?)
        if remaining < 0 then .attempt (some false)
        else
          match fields.filter s.isVar with
          | [field] =>
            -- the last open field is forced, and nothing is left of the line
            DigitSum.orFail
              ((Program.unifies field (.int remaining)).andThen
                (Program.unifies (.var line) (constraint [] 0)))
              (sweep rest true)
          | left =>
            if left.isEmpty ∧ remaining ≠ 0 then .attempt (some false)
            else if left.length < fields.length then
              DigitSum.orFail (Program.unifies (.var line) (constraint left remaining))
                (sweep rest true)
            else sweep rest changed

/-- Updates lines until nothing changes; whether all of them can still be
right. -/
def simplify {G : Type} (lines : List Var) : Program S G .verdict :=
  .loop (sweep lines false) .verdict

/-- A step that places a digit that no field holds in a field, and works out
what the lines say. -/
def place (q : MagicSquare) (field : Var) : Goal S :=
  .call (.nondeterministic
    (Program.withStore fun s =>
      let used := s.digits q.fields
      let digits : List Int := [1, 2, 3, 4, 5, 6, 7, 8, 9].filter fun n => n ∉ used
      .bindings (.var field) fun i => pure (digits[i]?.map .int))
    (Program.withStore fun s =>
      if (s.digits q.fields).Nodup then simplify q.lines else .verdict false))

/-- A loop that places digits until no field is open. -/
def fill (q : MagicSquare) : Goal S :=
  .loop (fun _ => return q.fields.any (← Quiet.store).isUnbound)
    fun _ => do
      match q.fields.find? (← Quiet.store).isUnbound with
      | some field => pure (q.place field)
      | none => pure .succeed

end MagicSquare

end GoalSearch
