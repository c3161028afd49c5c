/-
All magic squares with three rows.
-/
import GoalSearch.Demo.Session
import GoalSearch.Puzzle.MagicSquare

namespace GoalSearch.Demo

/-- The lines of a square with three rows, as positions of fields: each row
with its column, and the two diagonals. -/
def squareLines : List (List Nat) :=
  [[0, 1, 2], [0, 3, 6], [3, 4, 5], [1, 4, 7], [6, 7, 8], [2, 5, 8], [0, 4, 8], [2, 4, 6]]

/-- The rows of a square with three fields each, and an empty one. -/
def squareRows (fields : List String) : List String :=
  (List.range 3).map (fun i => "  " ++ " ".intercalate ((fields.drop (3 * i)).take 3)) ++ [""]

/-- Shows all squares. -/
def showSquares (fuel : Nat) : Session Unit := do
  let fields ← newVars (some (1, 9)) 9
  let lines ← squareLines.mapM fun line =>
    let places : List Kit.Term := line.filterMap fun i => fields[i]?.map .var
    newCell (MagicSquare.constraint (S := Kit.vocabulary) places 15)
  let q : MagicSquare := ⟨fields, lines⟩
  let _ ← execute fuel (.conjunct [q.fill, writing fields squareRows, .fail])
  let statistics ← statistics
  let retries := statistics.count .retries
  let deepest := statistics.count .maxDepth
  say s!"retries: {retries}, deepest stack: {deepest}"

end GoalSearch.Demo
