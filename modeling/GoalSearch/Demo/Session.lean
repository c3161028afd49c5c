/-
Programs that use one engine from the outside.

Main definitions:

* `Demo.Session` — a computation on an engine of the ready-made vocabulary;
* `Demo.newVar`, `say`, `execute`, `statistics` — what it consists of.
-/
import GoalSearch.Engine.Run
import GoalSearch.Kit.Goals

namespace GoalSearch.Demo

open Kit (vocabulary theory)

/-- A computation on an engine and its world. -/
abbrev Session (α : Type) : Type := Action (Machine vocabulary) α

/-- Makes an ordinary variable, restricted to the integers within bounds if
bounds are given. -/
def newVar (bounds : Option (Int × Int)) : Session Var :=
  Machine.onWorld (World.newVar
    (.ordinary (bounds.map fun (lo, hi) => ⟨none, .range lo hi⟩)) none)

/-- Makes several variables. -/
def newVars (bounds : Option (Int × Int)) (n : Nat) : Session (List Var) :=
  (List.range n).mapM fun _ => newVar bounds

/-- Makes a cell. -/
def newCell (content : Kit.Term) : Session Var :=
  Machine.onWorld (World.newVar .cell (some content))

/-- Writes a row. -/
def say (row : String) : Session Unit := Machine.onWorld (World.note (.said row))

/-- Whether a goal has a solution. -/
def execute (fuel : Nat) (goal : Kit.Goal) : Session Bool := Machine.execute theory fuel goal

/-- The counters of the engine. -/
def statistics : Session Statistics := return (← get).engine.statistics

/-- A goal that writes rows made of the texts of variables. -/
def writing (vs : List Var) (rows : List String → List String) : Kit.Goal :=
  .perform (Program.quietly
    (do
      let texts ← vs.mapM fun v => Quiet.display (.var v)
      (rows texts).forM Quiet.say)
    fun _ => .verdict true)

end GoalSearch.Demo
