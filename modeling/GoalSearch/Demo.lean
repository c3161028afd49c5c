/-
The demonstration programs by name.

Main definitions:

* `Demo` — a program and the settings of its engine;
* `Demo.ofName?` — the program with a name;
* `Demo.run` — runs a program in a world.
-/
import GoalSearch.Demo.Control
import GoalSearch.Demo.Square
import GoalSearch.Demo.Sum

namespace GoalSearch

/-- The demonstration programs. -/
inductive Demo
  /-- The tour of the control constructs, with or without frames in the log. -/
  | control (tracing : Bool)
  /-- All magic squares with three rows. -/
  | square
  /-- SEND + MORE = MONEY. -/
  | sum
deriving DecidableEq, Repr

namespace Demo

/-- The program with a name; frames are recorded if asked for, where the
program offers it. -/
def ofName? (name : String) (tracing : Bool) : Option Demo :=
  match name with
  | "basic" => some (.control tracing)
  | "magic_square" => some .square
  | "send_more_money" => some .sum
  | _ => none

/-- The settings of the engine of a program. -/
def config : Demo → Config
  | control tracing => { Config.standard with tracing }
  | square | sum => .standard

/-- What a program does. -/
def session (fuel : Nat) : Demo → Session Unit
  | control _ => tour fuel
  | square => showSquares fuel
  | sum => showSum fuel

/-- Runs a program with an engine of its own. -/
def run (fuel : Nat) (d : Demo) : Action (World Kit.vocabulary) Unit := fun w =>
  match d.session fuel ⟨.new d.config, w, []⟩ with
  | .ok _ m => .ok () m.world
  | .error e m => .error e m.world

end Demo

end GoalSearch
