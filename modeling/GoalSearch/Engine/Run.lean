/-
Running goals.

A run searches depth first.  Success goes forward along continuations; failure
goes back to the frame on top of the stack and tries its next alternative.  A
run works above a frame of its own, its sentinel: when that frame is retried no
alternative is left, and the run ends.

Main definitions:

* `Task`, `Machine.step` — what the engine is about to do, and one step of it;
* `Machine.drive`, `Machine.run` — steps until a run ends;
* `Machine.execute`, `findFirst`, `findAll` — the three ways to run a goal;
* `Program.exec` — runs the code of an application.

Design notes: a step is not recursive.  Programs may run goals themselves, so a
step takes nested runs as an argument (`Runner`), and `run` closes the loop on
fuel: a run with fuel `n + 1` drives its own steps, unifies and repeats rounds
with fuel `n`, and so do the runs nested in it.  The searches for answers use
continuations of their own, which count and push exactly as a deterministic
step after the goal would.
-/
import GoalSearch.Engine.State

namespace GoalSearch

variable {S : Vocabulary} {α : Type}

/-- How nested runs are made: a goal and what is to be done after it. -/
abbrev Runner (S : Vocabulary) : Type :=
  Goal S → Continuation S → Action (Machine S) Status

/-- What an engine is about to do. -/
inductive Task (S : Vocabulary) : Type
  /-- Call a goal. -/
  | call (goal : Goal S) (next : Continuation S)
  /-- Go on after a success. -/
  | proceed (next : Continuation S)
  /-- Try the next alternative of the top frame. -/
  | retry
  /-- Go back after a failure. -/
  | backtrack

/-- The outcome of a step. -/
inductive Progress (S : Vocabulary) : Type
  /-- There is more to do. -/
  | task (t : Task S)
  /-- The run has ended. -/
  | ended (status : Status)

/-- Goals in sequence; the last one gets the continuation itself. -/
def Task.sequence (goals : List (Goal S)) (next : Continuation S) : Task S :=
  match goals with
  | [] => .proceed next
  | [g] => .call g next
  | g :: rest => .call g (.sequence rest next)

/-- Goes on if a verdict is positive, and back otherwise. -/
def Task.ofVerdict (b : Bool) (next : Continuation S) : Task S :=
  if b then .proceed next else .backtrack

namespace Machine

/-- Unifies two terms and counts the bindings recorded. -/
def unify (T : Theory S) (fuel : Nat) (a b : S.Term) : Action (Machine S) Bool := do
  let before ← trailLength
  let unified ← onScope (GoalSearch.unify T fuel a b)
  countBy .bindings ((← trailLength) - before)
  pure unified

/-- Runs a goal to its first solution; whether there is one.  The bindings of
the run are undone. -/
def executeWith (run : Runner S) (goal : Goal S) (next : Continuation S) :
    Action (Machine S) Bool := do
  onWorld (World.note (.runStarted (← depth) (← trailLength)))
  let status ← run goal next
  onWorld (World.note (.runFinished status))
  pure (status = .success)

/-- Runs a computation with a fresh list of answers; the answers that it
collects, oldest first. -/
def collecting (x : Action (Machine S) α) : Action (Machine S) (List S.Term) := do
  let saved := (← get).answers
  modify fun m => { m with answers := [] }
  let _ ← x
  modifyGet fun m => (m.answers.reverse, { m with answers := saved })

/-- Runs a goal; the template at its first solution. -/
def findFirstWith (run : Runner S) (goal : Goal S) (template : S.Term) :
    Action (Machine S) (Option S.Term) := do
  let answers ← collecting (executeWith run (.sequence [goal]) (.collect template .finish))
  pure answers.head?

/-- Runs a goal; the template at all its solutions, in their order. -/
def findAllWith (run : Runner S) (goal : Goal S) (template : S.Term) :
    Action (Machine S) (List S.Term) :=
  collecting (executeWith run (.sequence [goal]) (.collect template .refuse))

end Machine

/-- Runs a program, given how goals are run. -/
def Program.exec (T : Theory S) (fuel : Nat) (run : Runner S) {κ : Kind} :
    Program S (Goal S) κ → Action (Machine S) (Program.Value S (Goal S) κ)
  | .verdict b => pure b
  | .attempt r => pure r
  | .candidates draw => pure draw
  | .choices make => pure make
  | .ask q next => do (next (← Machine.onWorld (q.answer T fuel))).exec T fuel run
  | .unify a b next => do (next (← Machine.unify T fuel a b)).exec T fuel run
  | .execute goal next => do (next (← Machine.executeWith run goal .finish)).exec T fuel run
  | .findFirst goal template next => do
    (next (← Machine.findFirstWith run goal template)).exec T fuel run
  | .findAll goal template next => do
    (next (← Machine.findAllWith run goal template)).exec T fuel run
  | .view next => do (next (← get).engine.view).exec T fuel run
  | .resetStatistics next => do
    Machine.modifyEngine fun e => { e with statistics := .empty }
    next.exec T fuel run
  | .renew next => do
    Machine.modifyEngine fun e => .new e.config
    next.exec T fuel run
  | .loop round next => do (next (← Action.rounds (round.exec T fuel run) fuel)).exec T fuel run

namespace Machine

variable (T : Theory S) (fuel : Nat) (run : Runner S)

/-- Runs code that only asks. -/
def quietly (x : Quiet S α) : Action (Machine S) α := onWorld (x.exec T fuel)

/-- The top frame has no alternatives left. -/
def exhausted : Action (Machine S) (Task S) := do
  pop
  pure .backtrack

/-- Calls a predicate.  A frame goes back to the bindings before the predicate
prepared itself, and is retired before the predicate validates. -/
def callPredicate (p : Predicate S (Goal S)) (next : Continuation S) :
    Action (Machine S) (Task S) := do
  let mark ← trailLength
  match p with
  | .nondeterministic prepare validate => do
    -- the mark is older than what is prepared, so a retry undoes that as well
    let draw ← prepare.exec T fuel run
    push mark (.candidates draw 0 validate next)
    pure .retry
  | .semideterministic prepare validate => do
    push mark .step
    let _ ← prepare.exec T fuel run
    retire
    let valid ← validate.exec T fuel run
    pure (.ofVerdict valid next)
  | .deterministic prepare => do
    push mark .step
    let _ ← prepare.exec T fuel run
    retire
    pure (.proceed next)

/-- Calls a goal. -/
def call (goal : Goal S) (next : Continuation S) : Action (Machine S) (Task S) := do
  count .calls
  match goal with
  | .succeed => pure (.proceed next)
  | .fail => pure .backtrack
  | .call p => callPredicate T fuel run p next
  | .sequence goals => pure (.sequence goals next)
  | .disjunction branches => do
    pushHere (.branches branches next)
    pure .retry
  | .once goal => do
    enterStep
    pure (.call goal (.commit (← depth) next))
  | .notNot goal => do
    pushHere .step
    let status ← run goal .finish
    retire
    pure (.ofVerdict (status = .success) next)
  | .loop test body => do
    enterStep
    if ← quietly T fuel (test (← get).engine.view) then do
      let goal ← quietly T fuel (body (← get).engine.view)
      pure (.call goal (.call (.loop test body) next))
    else
      pure (.proceed next)
  | .search handler => do
    let level ← quietly T fuel handler
    pushHere (.search handler none next)
    match ← level.exec T fuel run with
    | some make => do
      -- the handler is done deciding, and its frame gets it back
      updateAt (← depth) fun
        | .search handler _ next => .search handler (some (make, 0)) next
        | other => other
      pure .retry
    | none => do
      -- nothing is left to decide
      retire
      pure (.proceed next)

/-- Goes on after a success. -/
def proceed (next : Continuation S) : Action (Machine S) (Progress S) :=
  match next with
  | .finish => pure (.ended .success)
  | .sequence rest next => pure (.task (.sequence rest next))
  | .call goal next => pure (.task (.call goal next))
  | .commit height next => do
    commit height
    pure (.task (.proceed next))
  | .collect template next => do
    count .calls
    pushHere .step
    let answer ← onWorld (World.resolve T fuel template)
    modify fun m => { m with answers := answer :: m.answers }
    retire
    pure (.task (.proceed next))
  | .refuse => do
    count .calls
    pure (.task .backtrack)

/-- Tries the next alternative of an activation at a height of the stack. -/
def retryActivation (height : Nat) (activation : Activation S) :
    Action (Machine S) (Progress S) :=
  match activation with
  | .sentinel => pure (.ended .exit)
  | .step => return .task (← exhausted)
  | .candidates draw drawn validate next => do
    match ← quietly T fuel (draw drawn) with
    | none => return .task (← exhausted)
    | some candidate => do
      updateAt height fun _ => .candidates draw (drawn + 1) validate next
      let applies : Bool ← candidate.exec T fuel run
      if applies then do
        let valid ← validate.exec T fuel run
        pure (.task (.ofVerdict valid next))
      else
        pure (.task .backtrack)
  | .branches [] _ => return .task (← exhausted)
  | .branches (branch :: rest) next => do
    updateAt height fun _ => .branches rest next
    pure (.task (.call branch next))
  | .search _ none _ => return .task (← exhausted)
  | .search handler (some (make, made)) next => do
    -- the frame is without handler while the handler chooses
    updateAt height fun _ => .search handler none next
    let outcome ← (make made).exec T fuel run
    updateAt height fun
      | .search handler _ next => .search handler (some (make, made + 1)) next
      | other => other
    match outcome with
    | none => return .task (← exhausted)
    | some false => pure (.task .backtrack)
    | some true => pure (.task (.call (.search handler) next))

/-- Tries the next alternative of the top frame. -/
def retry : Action (Machine S) (Progress S) := do
  count .retries
  let e := (← get).engine
  match e.frames with
  | [] => pure (.ended .exit)
  | frame :: _ => do
    trace (.retried frame.activation.kind e.depth)
    retryActivation T fuel run e.depth frame.activation

/-- Goes back to the bindings at which the top frame was pushed. -/
def backtrack : Action (Machine S) (Progress S) := do
  match (← get).engine.frames with
  | [] => pure ()
  | frame :: _ => undoTo frame.mark
  pure (.task .retry)

/-- Takes one step. -/
def step (task : Task S) : Action (Machine S) (Progress S) :=
  match task with
  | .call goal next => return .task (← call T fuel run goal next)
  | .proceed next => proceed T fuel next
  | .retry => retry T fuel run
  | .backtrack => backtrack

/-- Takes steps until the run ends, at most `n`. -/
def drive (task : Task S) : Nat → Action (Machine S) Status
  | 0 => throw .outOfFuel
  | n + 1 => fun m =>
    match step T fuel run task m with
    | .ok (.task task) m => drive task n m
    | .ok (.ended status) m => .ok status m
    | .error e m => .error e m

/-- Runs a goal above a sentinel of its own, given how nested runs are made.
All bindings are undone at the end, and the trail has to be as long as it
was. -/
def runWith (goal : Goal S) (next : Continuation S) : Action (Machine S) Status := do
  let base ← depth
  let mark ← trailLength
  push mark .sentinel
  let status ← drive T fuel run (.call goal next) fuel
  unwind base
  if (← trailLength) = mark then pure status else throw (.fault .unbalancedTrail)

end Machine

/-- Runs a goal and everything nested in it. -/
def Machine.run (T : Theory S) : Nat → Runner S
  | 0 => fun _ _ => throw .outOfFuel
  | n + 1 => Machine.runWith T n (Machine.run T n)

namespace Machine

variable (T : Theory S) (fuel : Nat)

/-- Runs a goal to its first solution; whether there is one. -/
def execute (goal : Goal S) : Action (Machine S) Bool :=
  executeWith (run T fuel) goal .finish

/-- Runs a goal; the template at its first solution. -/
def findFirst (goal : Goal S) (template : S.Term) : Action (Machine S) (Option S.Term) :=
  findFirstWith (run T fuel) goal template

/-- Runs a goal; the template at all its solutions, in their order. -/
def findAll (goal : Goal S) (template : S.Term) : Action (Machine S) (List S.Term) :=
  findAllWith (run T fuel) goal template

/-- Draws candidates from position `i` on and tries each of them at once, with
nothing undone in between; no verdict where the candidates have ended. -/
def tryCandidates (draw : Nat → Quiet S (Option (Program S (Goal S) .verdict))) (i : Nat) :
    Nat → Action (Machine S) (List (Option Bool))
  | 0 => pure []
  | n + 1 => do
    let verdict : Option Bool ←
      match ← quietly T fuel (draw i) with
      | none => pure none
      | some candidate => do
        let b : Bool ← candidate.exec T fuel (run T fuel)
        pure (some b)
    return verdict :: (← tryCandidates draw (i + 1) n)

/-- Runs a program. -/
def perform {κ : Kind} (p : Program S (Goal S) κ) :
    Action (Machine S) (Program.Value S (Goal S) κ) :=
  p.exec T fuel (run T fuel)

end Machine

end GoalSearch
