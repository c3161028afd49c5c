/-
A tour of the control constructs.

Each part of the tour runs one goal over variables with two values each, and
shows the solutions it meets.
-/
import GoalSearch.Demo.Session

namespace GoalSearch.Demo

/-- A goal that binds a variable to one of several atoms. -/
def oneOf (v : Var) (names : List String) : Kit.Goal :=
  .memberOf (.var v) (names.map .atom)

/-- A goal that shows the values of variables. -/
def showing (vs : List Var) : Kit.Goal :=
  .perform (Program.quietly
    (do Quiet.say ("  " ++ (← Quiet.display (.list (vs.map .var)))))
    fun _ => .verdict true)

/-- One row of the table of counters. -/
def counterRow (statistics : Statistics) (c : Counter) : String :=
  "  " ++ Text.padRight 10 ' ' c.name ++ " " ++ Text.padLeft 8 ' ' (toString (statistics.count c))

/-- The tour. -/
def tour (fuel : Nat) : Session Unit := do
  let v ← newVar none
  let w ← newVar none
  let u ← newVar none
  say "All solutions:"
  let _ ← execute fuel (.conjunct
    [oneOf v ["1", "2"], oneOf w ["a", "b"], showing [v, w], .fail])
  say "First solution:"
  let _ ← execute fuel (.conjunct [oneOf v ["1", "2"], oneOf w ["a", "b"], showing [v, w]])
  say "Once:"
  let _ ← execute fuel (.conjunct
    [oneOf v ["1", "2"], .once (oneOf w ["1", "2"]), oneOf u ["1", "2"], showing [v, w, u], .fail])
  say "Disjunction:"
  let _ ← execute fuel (.conjunct
    [.disjunction [oneOf v ["1", "2"], oneOf v ["a", "b"]], .once (oneOf w ["1", "2"]),
      showing [v, w], .fail])
  say "Double negation:"
  let satisfiable ← execute fuel (.conjunct [.notNot (oneOf v ["1", "2"]), showing [v]])
  say ("  succeeded: " ++ Text.ofBool satisfiable)
  let statistics ← statistics
  say "\nStatistics:"
  [.calls, .retries, .bindings, .commits, .maxDepth].forM fun c => say (counterRow statistics c)

end GoalSearch.Demo
