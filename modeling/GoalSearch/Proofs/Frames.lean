/-
What the operations on frames do.

None of the operations on the stack of an engine can stop, so each of them is
a function from machines to machines.  The functions are written so that the
stack, the trail, the slots and the answers they leave can be read off: what
is counted and recorded touches none of these.

* `Machine.push_apply`, `pop_apply`, `retire_apply`, `commit_apply`,
  `undoTo_apply` — the operations as functions;
* `Machine.pushed_frames` and its like — what they leave on the stack;
* `World.SameOutput` — what an application sees of them, apart from the slots.
-/
import GoalSearch.Engine.Run
import GoalSearch.Proofs.Rollback

namespace GoalSearch

open GoalSearch.Action

variable {S : Vocabulary}

namespace Machine

/-- The trail and the world of a machine. -/
def scope (m : Machine S) : Scope S := ⟨m.engine.trail, m.world⟩

/-! ### The operations as functions -/

/-- The machine after adding to a counter. -/
def counted (m : Machine S) (c : Counter) (n : Nat) : Machine S :=
  { m with engine.statistics :=
      if m.engine.config.statistics && n != 0 then m.engine.statistics.add c n
      else m.engine.statistics }

/-- The machine after counting the depth of its stack. -/
def measured (m : Machine S) : Machine S :=
  { m with engine.statistics :=
      if m.engine.config.statistics then m.engine.statistics.raise .maxDepth m.engine.depth
      else m.engine.statistics }

/-- The machine after a record on its frames, if these are recorded. -/
def noted (m : Machine S) (r : Record) : Machine S :=
  { m with world.log := if m.engine.config.tracing then r :: m.world.log else m.world.log }

/-- The machine after a record in the log. -/
def logged (m : Machine S) (r : Record) : Machine S :=
  { m with world.log := r :: m.world.log }

/-- The machine with another stack. -/
def withFrames (m : Machine S) (fs : List (Frame S)) : Machine S :=
  { m with engine.frames := fs }

/-- The machine with another trail and another world. -/
def withScope (m : Machine S) (c : Scope S) : Machine S :=
  { m with engine.trail := c.trail, world := c.world }

/-- The machine after pushing a frame. -/
def pushed (m : Machine S) (mark : Nat) (a : Activation S) : Machine S :=
  (((m.noted (.pushed a.kind (m.engine.depth + 1))).withFrames
    (⟨a, mark⟩ :: m.engine.frames)).counted .framesPushed 1).measured

/-- The machine after going back to a mark. -/
def undone (m : Machine S) (mark : Nat) : Machine S :=
  { m with
      engine.trail := (m.scope.backtracked mark).trail
      world := (m.scope.backtracked mark).world }.counted
    .bindingsUndone (m.engine.trail.length - mark)

/-- The machine after popping the frame `f` off `fs`. -/
def popped (m : Machine S) (f : Frame S) (fs : List (Frame S)) : Machine S :=
  (((m.withFrames fs).noted (.popped f.activation.kind (fs.length + 1))).undone f.mark).counted
    .framesPopped 1

/-- The machine after retiring the frame on `fs`. -/
def retired (m : Machine S) (fs : List (Frame S)) : Machine S :=
  (m.withFrames fs).counted .framesRetired 1

/-- The machine after pushing and retiring a step. -/
def stepped (m : Machine S) : Machine S :=
  (m.pushed m.engine.trail.length .step).retired m.engine.frames

/-- The machine after dropping the frames above a height. -/
def committed (m : Machine S) (height : Nat) : Machine S :=
  ((m.withFrames (m.engine.frames.drop (m.engine.depth - height))).noted
    (.committed (m.engine.depth - height) height)).counted .commits 1

variable (m : Machine S)

theorem depth_apply : depth m = .ok m.engine.depth m := rfl

theorem trailLength_apply : trailLength m = .ok m.engine.trail.length m := rfl

theorem note_apply (r : Record) : onWorld (World.note r) m = .ok () (m.logged r) := rfl

theorem modifyEngine_apply (f : Engine S → Engine S) :
    modifyEngine f m = .ok () { m with engine := f m.engine } := rfl

theorem countBy_apply (c : Counter) (n : Nat) : countBy c n m = .ok () (m.counted c n) := by
  simp only [countBy, modifyEngine, modify_apply, counted]
  split
  · rfl
  · rfl

theorem count_apply (c : Counter) : count c m = .ok () (m.counted c 1) := countBy_apply m c 1

theorem trace_apply (r : Record) : trace r m = .ok () (m.noted r) := by
  simp only [trace, bind_apply, get_apply, noted]
  split
  · rfl
  · rfl

theorem measure_apply :
    (modifyEngine fun e =>
        if e.config.statistics then { e with statistics := e.statistics.raise .maxDepth e.depth }
        else e) m =
      .ok () m.measured := by
  simp only [modifyEngine, modify_apply, measured]
  split
  · rfl
  · rfl

theorem push_apply (mark : Nat) (a : Activation S) :
    push mark a m = .ok () (m.pushed mark a) := by
  rw [push, bind_ok (depth_apply m), bind_ok (trace_apply m _), bind_ok (modifyEngine_apply _ _),
    bind_ok (count_apply _ _)]
  exact measure_apply _

theorem pushHere_apply (a : Activation S) :
    pushHere a m = .ok () (m.pushed m.engine.trail.length a) := by
  simp only [pushHere, bind_apply, trailLength_apply, push_apply]

theorem undoTo_apply (mark : Nat) : undoTo mark m = .ok () (m.undone mark) := by
  simp only [undoTo, bind_apply, onScope, onPart, Scope.backtrack, modifyGet_apply,
    countBy_apply]
  rfl

theorem retire_apply {f : Frame S} {fs : List (Frame S)} (h : m.engine.frames = f :: fs) :
    retire m = .ok () (m.retired fs) := by
  simp only [retire, dropTop, bind_apply, modifyGet_apply, h, count_apply]
  rfl

theorem pop_apply {f : Frame S} {fs : List (Frame S)} (h : m.engine.frames = f :: fs) :
    pop m = .ok () (m.popped f fs) := by
  simp only [pop, dropTop, bind_apply, modifyGet_apply, h, depth_apply, trace_apply,
    undoTo_apply, count_apply]
  rfl

/-- Nothing is retired from an empty stack. -/
theorem retire_of_nil (h : m.engine.frames = []) : retire m = .ok () m := by
  simp only [retire, dropTop, bind_apply, modifyGet_apply, h, pure_apply]

/-- Nothing is popped off an empty stack. -/
theorem pop_of_nil (h : m.engine.frames = []) : pop m = .ok () m := by
  simp only [pop, dropTop, bind_apply, modifyGet_apply, h, pure_apply]

theorem enterStep_apply : enterStep m = .ok () m.stepped := by
  simp only [enterStep, bind_apply, pushHere_apply]
  exact retire_apply _ rfl

theorem commit_apply (height : Nat) : commit height m = .ok () (m.committed height) := by
  simp only [commit, bind_apply, depth_apply, modifyEngine, modify_apply, trace_apply,
    count_apply]
  rfl

/-- Changing the activation of the top frame. -/
theorem updateAt_apply {f : Frame S} {fs : List (Frame S)} (h : m.engine.frames = f :: fs)
    {height : Nat} (hheight : height = fs.length + 1) (g : Activation S → Activation S) :
    updateAt height g m =
      .ok () (m.withFrames ({ f with activation := g f.activation } :: fs)) := by
  simp [updateAt, modifyEngine, modify_apply, Engine.depth, h, hheight, withFrames]

/-- A unification changes the trail and the world, and counts what it bound. -/
theorem unify_apply (T : Theory S) (fuel : Nat) (a b : S.Term) :
    unify T fuel a b m =
      match GoalSearch.unify T fuel a b m.scope with
      | .ok r c => .ok r
        ((m.withScope c).counted .bindings (c.trail.length - m.engine.trail.length))
      | .error e c => .error e (m.withScope c) := by
  rw [unify, bind_ok (trailLength_apply m), bind_apply, onScope, onPart, scope]
  cases GoalSearch.unify T fuel a b ⟨m.engine.trail, m.world⟩ with
  | error e c => rfl
  | ok r c =>
    show (do countBy .bindings ((← trailLength) - m.engine.trail.length); pure r)
      (m.withScope c) = _
    rw [bind_ok (trailLength_apply _), bind_ok (countBy_apply _ _ _)]
    rfl

theorem drive_succ (T : Theory S) (fuel : Nat) (run : Runner S) (t : Task S) (n : Nat) :
    drive T fuel run t (n + 1) m =
      match step T fuel run t m with
      | .ok (.task t) m => drive T fuel run t n m
      | .ok (.ended status) m => .ok status m
      | .error e m => .error e m :=
  rfl

/-! ### What they leave -/

@[simp] theorem pushed_frames (mark : Nat) (a : Activation S) :
    (m.pushed mark a).engine.frames = ⟨a, mark⟩ :: m.engine.frames := rfl

@[simp] theorem counted_frames (c : Counter) (n : Nat) :
    (m.counted c n).engine.frames = m.engine.frames := rfl

@[simp] theorem committed_frames (height : Nat) :
    (m.committed height).engine.frames = m.engine.frames.drop (m.engine.depth - height) := rfl

theorem length_undone (mark : Nat) :
    (m.undone mark).engine.trail.length = min m.engine.trail.length mark :=
  Scope.length_backtracked m.scope mark

theorem length_popped (f : Frame S) (fs : List (Frame S)) :
    (m.popped f fs).engine.trail.length = min m.engine.trail.length f.mark :=
  Scope.length_backtracked _ f.mark

end Machine

/-! ### What an application sees of them -/

/-- The row of an application, if a record is one. -/
def Record.row? : Record → Option String
  | .said row => some row
  | _ => none

/-- The rows of the application in the log, newest first. -/
def World.rows (w : World S) : List String := w.log.filterMap Record.row?

/-- Worlds with the same output of an application: its private state, and the
rows it has written. -/
structure World.SameOutput (w w' : World S) : Prop where
  state : w'.state = w.state
  rows : w'.rows = w.rows

section Output

variable {w w' w'' : World S}

theorem World.SameOutput.refl (w : World S) : w.SameOutput w := ⟨rfl, rfl⟩

theorem World.SameOutput.trans (h : w.SameOutput w') (h' : w'.SameOutput w'') :
    w.SameOutput w'' :=
  ⟨h'.state.trans h.state, h'.rows.trans h.rows⟩

theorem World.SameOutput.symm (h : w.SameOutput w') : w'.SameOutput w :=
  ⟨h.state.symm, h.rows.symm⟩

end Output

namespace Machine

variable (m : Machine S)

theorem logged_output {r : Record} (hr : r.row? = none) :
    m.world.SameOutput (m.logged r).world := by
  refine ⟨rfl, ?_⟩
  show (r :: m.world.log).filterMap Record.row? = m.world.log.filterMap Record.row?
  rw [List.filterMap_cons, hr]

theorem noted_output {r : Record} (hr : r.row? = none) :
    m.world.SameOutput (m.noted r).world := by
  refine ⟨rfl, ?_⟩
  show (if m.engine.config.tracing then r :: m.world.log else m.world.log).filterMap _ = _
  split
  · exact (m.logged_output hr).rows
  · rfl

/-- Undoing bindings is nothing that an application sees but for the slots. -/
theorem popped_output (f : Frame S) (fs : List (Frame S)) :
    m.world.SameOutput (m.popped f fs).world := by
  have h := (m.withFrames fs).noted_output (r := .popped f.activation.kind (fs.length + 1)) rfl
  exact ⟨h.state, h.rows⟩

end Machine

/-! ### Histories of machines -/

section History

variable {T : Theory S} {R : Scope S → Scope S → Prop} {l m m' : Machine S}

/-- A machine with the same trail and the same slots as a later machine is a
later machine. -/
theorem Scope.History.of_eq (H : Scope.History T R) (h : R l.scope m.scope)
    (htrail : m'.engine.trail = m.engine.trail) (hstore : m'.world.store = m.world.store) :
    R l.scope m'.scope := by
  have := H.trans h (H.world m.scope m'.world hstore)
  rwa [show m'.scope = { m.scope with world := m'.world } by
    simp [Machine.scope, htrail]]

theorem Scope.History.undone (H : Scope.History T R) (h : R l.scope m.scope) {mark : Nat}
    (hm : l.engine.trail.length ≤ mark) : R l.scope (m.undone mark).scope :=
  H.backtrack h hm

theorem Scope.History.popped (H : Scope.History T R) (h : R l.scope m.scope) {f : Frame S}
    {fs : List (Frame S)} (hm : l.engine.trail.length ≤ f.mark) :
    R l.scope (m.popped f fs).scope :=
  H.backtrack (d := ((m.withFrames fs).noted (.popped f.activation.kind (fs.length + 1))).scope)
    (H.of_eq h rfl rfl) hm

end History

end GoalSearch
