/-
SEND + MORE = MONEY.
-/
import GoalSearch.Demo.Session
import GoalSearch.Puzzle.DigitSum

namespace GoalSearch.Demo

/-- The rows of a sum: two numbers, a line, and the result. -/
def sumRows (letters : List String) : List String :=
  match letters with
  | [s, e, n, d, m, o, r, y] =>
    ["    " ++ String.join [s, e, n, d],
      "  + " ++ String.join [m, o, r, e],
      "  ------",
      "   " ++ String.join [m, o, n, e, y]]
  | _ => []

/-- Solves the puzzle and shows the solution. -/
def showSum (fuel : Nat) : Session Unit := do
  let s ← newVar (some (1, 9))
  let m ← newVar (some (1, 2))
  let e ← newVar (some (0, 9))
  let n ← newVar (some (0, 9))
  let d ← newVar (some (0, 9))
  let o ← newVar (some (0, 9))
  let r ← newVar (some (0, 9))
  let y ← newVar (some (0, 9))
  let c₁ ← newVar (some (0, 2))
  let c₂ ← newVar (some (0, 2))
  let c₃ ← newVar (some (0, 2))
  let puzzle : DigitSum :=
    { columns := [⟨[d, e], y, c₁⟩, ⟨[n, r, c₁], e, c₂⟩, ⟨[e, o, c₂], n, c₃⟩, ⟨[s, m, c₃], o, m⟩]
      letters := [d, e, n, r, s, m, o, y]
      carries := [c₁, c₂, c₃] }
  let solved ← execute fuel (.conjunct
    [puzzle.solve, writing [s, e, n, d, m, o, r, y] sumRows])
  say ("solved: " ++ Text.ofBool solved)
  let statistics ← statistics
  let calls := statistics.count .calls
  let retries := statistics.count .retries
  say s!"calls: {calls}, retries: {retries}"

end GoalSearch.Demo
