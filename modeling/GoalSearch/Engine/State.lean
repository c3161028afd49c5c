/-
The state of an engine: stack, trail and counters.

An engine keeps a stack of frames, one for everything that may still have
alternatives.  What is to be done after a goal has succeeded is no frame but a
continuation, which a frame holds for each of its alternatives.

Main definitions:

* `Continuation`, `Activation`, `Frame` — the contents of the stack;
* `Engine`, `Machine` — an engine, and an engine in its world;
* `Machine.push`, `pop`, `retire`, `commit`, `undoTo` — the frame operations.

Design notes: the stack is a list with the top frame first, so what lies below
a frame is a tail of the stack, and the height of a frame counts from the
bottom.  Three operations remove frames: `pop` undoes the bindings made since
the frame was pushed, `retire` and `commit` keep them.
-/
import GoalSearch.Goal
import GoalSearch.Unify

namespace GoalSearch

/-- What is to be done once a goal has succeeded. -/
inductive Continuation (S : Vocabulary) : Type
  /-- The run has succeeded. -/
  | finish
  /-- The rest of a sequence. -/
  | sequence (rest : List (Goal S)) (next : Continuation S)
  /-- A goal. -/
  | call (goal : Goal S) (next : Continuation S)
  /-- The end of a `once`: the frames above a height are dropped. -/
  | commit (height : Nat) (next : Continuation S)
  /-- Keeps a copy of a template as an answer. -/
  | collect (template : S.Term) (next : Continuation S)
  /-- Asks for another solution. -/
  | refuse

/-- What a frame stands for. -/
inductive Activation (S : Vocabulary) : Type
  /-- The bottom of a run. -/
  | sentinel
  /-- A step with at most one solution. -/
  | step
  /-- The candidates of a predicate and how many of them were drawn. -/
  | candidates (draw : Nat → Quiet S (Option (Program S (Goal S) .verdict))) (drawn : Nat)
      (validate : Program S (Goal S) .verdict) (next : Continuation S)
  /-- The branches of a disjunction that were not tried yet. -/
  | branches (rest : List (Goal S)) (next : Continuation S)
  /-- A level of a search: how handlers are made, and the choices of the
  handler at this level with the number of those made; none while the handler
  is at work. -/
  | search (handler : Quiet S (Program S (Goal S) .choices))
      (choices : Option ((Nat → Program S (Goal S) .attempt) × Nat)) (next : Continuation S)

/-- The kind of frame that an activation makes. -/
def Activation.kind {S : Vocabulary} : Activation S → FrameKind
  | sentinel => .sentinel
  | step => .step
  | candidates .. => .predicate
  | branches .. => .disjunction
  | search .. => .choicePoint

/-- An activation on the stack. -/
structure Frame (S : Vocabulary) where
  /-- What the frame stands for. -/
  activation : Activation S
  /-- The length of the trail to which bindings are undone. -/
  mark : Nat

/-- Everything that belongs to one engine. -/
structure Engine (S : Vocabulary) where
  /-- The settings. -/
  config : Config
  /-- The saved slots. -/
  trail : Trail S
  /-- The stack, top frame first. -/
  frames : List (Frame S)
  /-- The counters. -/
  statistics : Statistics

/-- An engine with an empty stack, an empty trail and no counters. -/
def Engine.new {S : Vocabulary} (config : Config) : Engine S := ⟨config, .empty, [], .empty⟩

/-- The height of the stack. -/
def Engine.depth {S : Vocabulary} (e : Engine S) : Nat := e.frames.length

/-- What code sees of an engine. -/
def Engine.view {S : Vocabulary} (e : Engine S) : View :=
  ⟨e.depth, e.trail.length, e.statistics, e.config⟩

/-- An engine in its world, and the answers collected so far. -/
structure Machine (S : Vocabulary) where
  /-- The engine. -/
  engine : Engine S
  /-- What it shares with others. -/
  world : World S
  /-- The answers of the innermost search for answers, newest first. -/
  answers : List S.Term

namespace Machine

variable {S : Vocabulary} {α : Type}

/-- Runs a computation on the world. -/
def onWorld (x : Action (World S) α) : Action (Machine S) α :=
  Action.onPart world (fun w m => { m with world := w }) x

/-- Runs a computation on the trail and the world. -/
def onScope (x : Action (Scope S) α) : Action (Machine S) α :=
  Action.onPart (fun m => ⟨m.engine.trail, m.world⟩)
    (fun c m => { m with engine.trail := c.trail, world := c.world }) x

/-- Changes the engine. -/
def modifyEngine (f : Engine S → Engine S) : Action (Machine S) Unit :=
  modify fun m => { m with engine := f m.engine }

/-- The height of the stack. -/
def depth : Action (Machine S) Nat := return (← get).engine.depth

/-- The length of the trail. -/
def trailLength : Action (Machine S) Nat := return (← get).engine.trail.length

/-- Adds to a counter, if counters are kept; adding nothing leaves it alone. -/
def countBy (c : Counter) (n : Nat) : Action (Machine S) Unit :=
  modifyEngine fun e =>
    if e.config.statistics && n != 0 then { e with statistics := e.statistics.add c n } else e

/-- Adds one to a counter, if counters are kept. -/
def count (c : Counter) : Action (Machine S) Unit := countBy c 1

/-- Records what happens to a frame, if frames are to be recorded. -/
def trace (r : Record) : Action (Machine S) Unit := do
  if (← get).engine.config.tracing then onWorld (World.note r) else pure ()

/-- Undoes bindings until the trail is no longer than `mark`. -/
def undoTo (mark : Nat) : Action (Machine S) Unit := do
  countBy .bindingsUndone (← onScope (Scope.backtrack mark))

/-- Puts a frame on the stack. -/
def push (mark : Nat) (activation : Activation S) : Action (Machine S) Unit := do
  trace (.pushed activation.kind ((← depth) + 1))
  modifyEngine fun e => { e with frames := ⟨activation, mark⟩ :: e.frames }
  count .framesPushed
  modifyEngine fun e =>
    if e.config.statistics then { e with statistics := e.statistics.raise .maxDepth e.depth }
    else e

/-- Puts a frame on the stack that goes back to the present bindings. -/
def pushHere (activation : Activation S) : Action (Machine S) Unit := do
  push (← trailLength) activation

/-- Removes the top frame, if there is one. -/
def dropTop : Action (Machine S) (Option (Frame S)) :=
  modifyGet fun m =>
    match m.engine.frames with
    | [] => (none, m)
    | f :: fs => (some f, { m with engine.frames := fs })

/-- Removes the top frame and undoes its bindings. -/
def pop : Action (Machine S) Unit := do
  match ← dropTop with
  | none => pure ()
  | some f => do
    trace (.popped f.activation.kind ((← depth) + 1))
    undoTo f.mark
    count .framesPopped

/-- Removes the top frame and keeps its bindings. -/
def retire : Action (Machine S) Unit := do
  match ← dropTop with
  | none => pure ()
  | some _ => count .framesRetired

/-- Pushes a step and retires it at once. -/
def enterStep : Action (Machine S) Unit := do
  pushHere .step
  retire

/-- Removes the frames above a height and keeps their bindings. -/
def commit (height : Nat) : Action (Machine S) Unit := do
  let discarded := (← depth) - height
  -- the bindings of these frames belong to the solution committed to
  modifyEngine fun e => { e with frames := e.frames.drop discarded }
  trace (.committed discarded height)
  count .commits

/-- Removes the top `n` frames one by one and undoes their bindings. -/
def popMany : Nat → Action (Machine S) Unit
  | 0 => pure ()
  | n + 1 => do
    pop
    popMany n

/-- Removes the frames above a height one by one and undoes their bindings. -/
def unwind (height : Nat) : Action (Machine S) Unit := do
  popMany ((← depth) - height)

/-- Changes the activation of the frame that is `height` frames above the
bottom of the stack, if the stack is that high. -/
def updateAt (height : Nat) (f : Activation S → Activation S) : Action (Machine S) Unit :=
  modifyEngine fun e =>
    if height ≤ e.depth then
      { e with frames := e.frames.modify (e.depth - height) fun frame =>
          { frame with activation := f frame.activation } }
    else e

end Machine

end GoalSearch
