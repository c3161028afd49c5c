/-
Records of what a search does.

Applications write rows of their own; the engine reports runs, refusals and,
on request, what happens on its stack of frames.  Every record of the engine
has a level, by which a reader of the log can leave records out.

Main definitions:

* `FrameKind` — the kinds of frames, as they are named in records;
* `Status` — how a run ends;
* `Record`, `Record.level`, `Record.message`;
* `Record.line?` — the line that a log of a given level shows for a record.
-/
import GoalSearch.Action

namespace GoalSearch

/-- The kinds of frames on the stack of an engine. -/
inductive FrameKind
  /-- The bottom frame of a run. -/
  | sentinel
  /-- A step that has at most one solution. -/
  | step
  /-- The open candidates of a predicate. -/
  | predicate
  /-- The open branches of a disjunction. -/
  | disjunction
  /-- A level of a choice-point search. -/
  | choicePoint
deriving DecidableEq, Repr

/-- The name of a kind of frame. -/
def FrameKind.label : FrameKind → String
  | sentinel => "sentinel"
  | step => "step"
  | predicate => "predicate"
  | disjunction => "disjunction"
  | choicePoint => "choice point"

/-- How a run ends. -/
inductive Status
  /-- A solution was reached. -/
  | success
  /-- No alternative was left. -/
  | exit
deriving DecidableEq, Repr

/-- The name of a status. -/
def Status.label : Status → String
  | success => "Success"
  | exit => "Exit"

/-- Levels of records. -/
inductive Level
  /-- Runs. -/
  | debug
  /-- Single frames and bindings. -/
  | trace
deriving DecidableEq, Repr

/-- The name of a level. -/
def Level.label : Level → String
  | debug => "debug"
  | trace => "trace"

/-- An entry of the log. -/
inductive Record
  /-- A row written by the application. -/
  | said (row : String)
  /-- A run starts at a depth of the stack and a length of the trail. -/
  | runStarted (depth trail : Nat)
  /-- A run ends. -/
  | runFinished (status : Status)
  /-- A variable refuses a value that its guard had admitted before. -/
  | refused (r : Refusal)
  /-- A frame is pushed. -/
  | pushed (kind : FrameKind) (depth : Nat)
  /-- The next alternative of a frame is tried. -/
  | retried (kind : FrameKind) (depth : Nat)
  /-- A frame is removed, and its bindings are undone. -/
  | popped (kind : FrameKind) (depth : Nat)
  /-- Frames are removed, and their bindings are kept. -/
  | committed (discarded depth : Nat)
deriving DecidableEq, Repr

namespace Record

/-- The level of a record; the rows of the application have none. -/
def level : Record → Option Level
  | said _ => none
  | runStarted .. | runFinished _ => some .debug
  | _ => some .trace

/-- The text of a record. -/
def message : Record → String
  | said row => row
  | runStarted d n => s!"execute: start at depth {d} (trail {n})"
  | runFinished status => "execute: finished with " ++ status.label
  | refused r => "unify: " ++ r.message
  | pushed k d => "push " ++ k.label ++ s!" at depth {d}"
  | retried k d => "retry " ++ k.label ++ s!" at depth {d}"
  | popped k d => "pop " ++ k.label ++ s!" at depth {d}"
  | committed n d => s!"commit: discarded {n} frames down to depth {d}"

/-- The line of a record in a log that is kept at a level: the rows of the
application always, the records of the engine after the name of their level,
and single frames and bindings only in a log that asks for them. -/
def line? (r : Record) (kept : Option Level) : Option String :=
  match r.level, kept with
  | none, _ => some r.message
  | some .trace, some .debug | some _, none => none
  | some level, some _ => some (level.label ++ ": " ++ r.message)

end Record

end GoalSearch
