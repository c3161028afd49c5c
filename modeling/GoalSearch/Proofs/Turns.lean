/-
What a step makes of its task and of the stack.

A step of a run changes the stack in few ways.  It pushes a frame, gives the top frame
its next alternative or removes it, and a commit removes all frames above a height;
the code of an application leaves the stack alone.

* `Task.Turns` — the task after a step and the stack after it, by the task before;
* `Machine.Ready.turns` — every step of a run is one of these turns;
* `Configuration.exists_step` — steps in which no code runs return;
* `Configuration.Steps` — a step that returns, with whatever fuel;
* `Configuration.Reached` — what a run comes to, and the runs nested in it;
* `Configuration.EndsWith` — what a run ends with, and on which machine;
* `Configuration.Halts` — runs that end.

Design notes: a turn says nothing about the trail, the slots and the answers, and
nothing about which of its outcomes comes when.  Whether a step returns depends on the
fuel, what it returns does not, so `Steps` is a function on configurations.
-/
import GoalSearch.Proofs.Simulation

namespace GoalSearch

open GoalSearch.Action

variable {S : Vocabulary} {T : Theory S} {α : Type}

/-! ### Turns -/

/-- With the stack `F`, a step may turn a task into another one and leave the stack
`F'`. -/
inductive Task.Turns : Task S → List (Frame S) → Task S → List (Frame S) → Prop
  | succeed {F : List (Frame S)} {next : Continuation S} :
      Turns (.call .succeed next) F (.proceed next) F
  | fail {F : List (Frame S)} {next : Continuation S} : Turns (.call .fail next) F .backtrack F
  | candidates {F : List (Frame S)} {next : Continuation S} {p : Predicate S (Goal S)}
      {draw : Nat → Quiet S (Option (Program S (Goal S) .verdict))}
      {validate : Program S (Goal S) .verdict} {mark : Nat} :
      Turns (.call (.call p) next) F .retry (⟨.candidates draw 0 validate next, mark⟩ :: F)
  | verdict {F : List (Frame S)} {next : Continuation S} {p : Predicate S (Goal S)} (b : Bool) :
      Turns (.call (.call p) next) F (.ofVerdict b next) F
  | sequence {F : List (Frame S)} {next : Continuation S} {gs : List (Goal S)} :
      Turns (.call (.sequence gs) next) F (.sequence gs next) F
  | disjunction {F : List (Frame S)} {next : Continuation S} {gs : List (Goal S)} {mark : Nat} :
      Turns (.call (.disjunction gs) next) F .retry (⟨.branches gs next, mark⟩ :: F)
  | once {F : List (Frame S)} {next : Continuation S} {g : Goal S} :
      Turns (.call (.once g) next) F (.call g (.commit F.length next)) F
  | notNot {F : List (Frame S)} {next : Continuation S} {g : Goal S} (b : Bool) :
      Turns (.call (.notNot g) next) F (.ofVerdict b next) F
  | round {F : List (Frame S)} {next : Continuation S} {test : View → Quiet S Bool}
      {body : View → Quiet S (Goal S)} {v : View} {g : Goal S} : (body v).Yields g →
      Turns (.call (.loop test body) next) F (.call g (.call (.loop test body) next)) F
  | finished {F : List (Frame S)} {next : Continuation S} {test : View → Quiet S Bool}
      {body : View → Quiet S (Goal S)} :
      Turns (.call (.loop test body) next) F (.proceed next) F
  | level {F : List (Frame S)} {next : Continuation S}
      {handler : Quiet S (Program S (Goal S) .choices)}
      {make : Nat → Program S (Goal S) .attempt} {mark : Nat} :
      Turns (.call (.search handler) next) F .retry
        (⟨.search handler (some (make, 0)) next, mark⟩ :: F)
  | decided {F : List (Frame S)} {next : Continuation S}
      {handler : Quiet S (Program S (Goal S) .choices)} :
      Turns (.call (.search handler) next) F (.proceed next) F
  | rest {F : List (Frame S)} {next : Continuation S} {gs : List (Goal S)} :
      Turns (.proceed (.sequence gs next)) F (.sequence gs next) F
  | again {F : List (Frame S)} {next : Continuation S} {g : Goal S} :
      Turns (.proceed (.call g next)) F (.call g next) F
  | commit {F : List (Frame S)} {next : Continuation S} {height : Nat} :
      Turns (.proceed (.commit height next)) F (.proceed next) (F.drop (F.length - height))
  | collect {F : List (Frame S)} {next : Continuation S} {t : S.Term} :
      Turns (.proceed (.collect t next)) F (.proceed next) F
  | refuse {F : List (Frame S)} : Turns (.proceed .refuse) F .backtrack F
  | back {F : List (Frame S)} : Turns .backtrack F .retry F
  | exhausted {F : List (Frame S)} {f : Frame S} : Turns .retry (f :: F) .backtrack F
  | draw {F : List (Frame S)} {next : Continuation S}
      {draw : Nat → Quiet S (Option (Program S (Goal S) .verdict))} {drawn : Nat}
      {validate : Program S (Goal S) .verdict} {mark : Nat} (b : Bool) :
      Turns .retry (⟨.candidates draw drawn validate next, mark⟩ :: F) (.ofVerdict b next)
        (⟨.candidates draw (drawn + 1) validate next, mark⟩ :: F)
  | branch {F : List (Frame S)} {next : Continuation S} {g : Goal S} {gs : List (Goal S)}
      {mark : Nat} :
      Turns .retry (⟨.branches (g :: gs) next, mark⟩ :: F) (.call g next)
        (⟨.branches gs next, mark⟩ :: F)
  | choice {F : List (Frame S)} {next : Continuation S}
      {handler : Quiet S (Program S (Goal S) .choices)} {make : Nat → Program S (Goal S) .attempt}
      {made mark : Nat} (b : Bool) :
      Turns .retry (⟨.search handler (some (make, made)) next, mark⟩ :: F)
        (if b then .call (.search handler) next else .backtrack)
        (⟨.search handler (some (make, made + 1)) next, mark⟩ :: F)

namespace Machine

variable {n : Nat} {m : Machine S} {f : Frame S} {F : List (Frame S)} {next : Continuation S}

/-- Steady code stays, whatever history is looked at. -/
theorem exec_stays {R : Scope S → Scope S → Prop} (H : Scope.History T R) {κ : Kind}
    {p : Program S (Goal S) κ} (hp : p.Steady Goal.Steady) (m : Machine S) :
    Ensures (p.exec T n (run T n)) m (fun _ m' => m.Stays R m') fun _ => True :=
  (Program.exec_stays H (fun _ _ _ _ h => h) (run_sound H requirement_true n) n hp m
    trivial).weaken fun _ _ => trivial

/-- Steady code leaves the stack alone. -/
theorem exec_frames {κ : Kind} {p : Program S (Goal S) κ} (hp : p.Steady Goal.Steady)
    (m : Machine S) :
    Ensures (p.exec T n (run T n)) m (fun _ m' => m'.engine.frames = m.engine.frames)
      fun _ => True :=
  (exec_stays (Scope.history_grows T) hp m).mono fun _ _ h => h.frames

/-- Code that only asks leaves the engine and the slots alone. -/
theorem quietly_leaves (x : Quiet S α) (m : Machine S) :
    Ensures (quietly T n x) m (fun a m' => m'.engine = m.engine ∧
      m'.world.store = m.world.store ∧ x.Yields a) fun _ => True := by
  have hkeeps : Ensures (x.exec T n) m.world (fun _ w => w.store = m.world.store) fun _ => True :=
    Quiet.exec_keeps_store trivial x m.world trivial
  rw [quietly, onWorld, ensures_onPart, ensures_iff]
  exact ⟨fun a w hx => ⟨rfl, hkeeps.ok hx, Quiet.yields_of_exec hx⟩, fun _ _ _ => trivial⟩

theorem quietly_frames (x : Quiet S α) (m : Machine S) :
    Ensures (quietly T n x) m (fun a m' => m'.engine.frames = m.engine.frames ∧ x.Yields a)
      fun _ => True :=
  (quietly_leaves x m).mono fun _ _ h => ⟨congrArg Engine.frames h.1, h.2.2⟩

theorem nested_stays {R : Scope S → Scope S → Prop} (H : Scope.History T R) {g : Goal S}
    (hg : g.Steady) (m : Machine S) :
    Ensures (run T n g .finish) m (fun _ m' => m.Stays R m') fun _ => True :=
  ((run_sound H requirement_true n g .finish hg .finish m trivial).mono
    fun _ _ h => h.stays).weaken fun _ _ => trivial

theorem nested_frames {g : Goal S} (hg : g.Steady) (m : Machine S) :
    Ensures (run T n g .finish) m (fun _ m' => m'.engine.frames = m.engine.frames)
      fun _ => True :=
  (nested_stays (Scope.history_grows T) hg m).mono fun _ _ h => h.frames

theorem callPredicate_turns {p : Predicate S (Goal S)} (hp : (Goal.call p).Steady)
    (next : Continuation S) (m : Machine S) :
    Ensures (callPredicate T n (run T n) p next) m
      (fun t m' => (Task.call (.call p) next).Turns m.engine.frames t m'.engine.frames)
      fun _ => True := by
  rw [callPredicate, ensures_bind_of_eq_ok (trailLength_apply m)]
  cases hp with
  | nondeterministic hprepare hvalidate =>
    rw [ensures_bind]
    refine (exec_frames hprepare _).mono fun draw m' hm' => ?_
    rw [ensures_bind_of_eq_ok (push_apply _ _ _), ensures_pure, pushed_frames, hm']
    exact .candidates
  | semideterministic hprepare hvalidate =>
    rw [ensures_bind_of_eq_ok (push_apply _ _ _), ensures_bind]
    refine (exec_frames hprepare _).mono fun _ m' hm' => ?_
    rw [ensures_bind_of_eq_ok (retire_apply _ hm'), ensures_bind]
    refine (exec_frames hvalidate _).mono fun b m'' hm'' => ?_
    rw [ensures_pure, hm'']
    exact .verdict b
  | deterministic hprepare =>
    rw [ensures_bind_of_eq_ok (push_apply _ _ _), ensures_bind]
    refine (exec_frames hprepare _).mono fun _ m' hm' => ?_
    rw [ensures_bind_of_eq_ok (retire_apply _ hm'), ensures_pure]
    exact .verdict true

/-- What a call turns to. -/
theorem call_turns {g : Goal S} (hg : g.Steady) (next : Continuation S) (m : Machine S) :
    Ensures (call T n (run T n) g next) m
      (fun t m' => (Task.call g next).Turns m.engine.frames t m'.engine.frames)
      fun _ => True := by
  unfold call
  rw [ensures_bind_of_eq_ok (count_apply _ _)]
  cases hg with
  | succeed => exact .succeed
  | fail => exact .fail
  | nondeterministic hp hv => exact callPredicate_turns (.nondeterministic hp hv) next _
  | semideterministic hp hv => exact callPredicate_turns (.semideterministic hp hv) next _
  | deterministic hp => exact callPredicate_turns (.deterministic hp) next _
  | sequence _ => exact .sequence
  | disjunction _ =>
    rw [ensures_bind_of_eq_ok (pushHere_apply _ _)]
    exact .disjunction
  | once _ =>
    rw [ensures_bind_of_eq_ok (enterStep_apply _), ensures_bind_of_eq_ok (depth_apply _)]
    exact .once
  | notNot hg =>
    rw [ensures_bind_of_eq_ok (pushHere_apply _ _), ensures_bind]
    -- The nested run ends on the frames on which it began, so the step is retired.
    refine (nested_frames hg _).mono fun status m' hm' => ?_
    rw [ensures_bind_of_eq_ok (retire_apply _ hm'), ensures_pure]
    exact .notNot _
  | @loop test body _ =>
    rw [ensures_bind_of_eq_ok (enterStep_apply _), ensures_bind_of_eq_ok (get_apply _),
      ensures_bind]
    refine (quietly_frames _ _).mono ?_
    rintro b m' ⟨hm', -⟩
    split
    · rw [ensures_bind_of_eq_ok (get_apply _), ensures_bind]
      refine (quietly_frames _ _).mono ?_
      rintro g m'' ⟨hm'', hyields⟩
      rw [ensures_pure, hm'', hm']
      exact .round hyields
    · rw [ensures_pure, hm']
      exact .finished
  | @search handler hhandler =>
    rw [ensures_bind]
    refine (quietly_frames _ _).mono ?_
    rintro level m' ⟨hm', hyields⟩
    rw [ensures_bind_of_eq_ok (pushHere_apply _ _), ensures_bind]
    refine (exec_frames (hhandler level hyields) _).mono fun made m'' hm'' => ?_
    rw [pushed_frames, hm'] at hm''
    cases made with
    | none =>
      dsimp only
      rw [ensures_bind_of_eq_ok (retire_apply _ hm'')]
      exact .decided
    | some make =>
      dsimp only
      -- The level left the stack as it was, so the frame that gets its choices is on top.
      have hheight : m''.engine.depth = m.engine.frames.length + 1 := by
        rw [Engine.depth, hm'']
        rfl
      rw [ensures_bind_of_eq_ok (depth_apply _),
        ensures_bind_of_eq_ok (updateAt_apply _ hm'' hheight _)]
      exact .level

/-- What comes after a success. -/
theorem proceed_turns (next : Continuation S) (m : Machine S) :
    Ensures (proceed T n next) m
      (fun p m' => ∀ t, p = .task t →
        (Task.proceed next).Turns m.engine.frames t m'.engine.frames) fun _ => True := by
  cases next with
  | finish => rintro t ⟨⟩
  | sequence rest next =>
    rintro t ⟨⟩
    exact .rest
  | call g next =>
    rintro t ⟨⟩
    exact .again
  | commit height next =>
    unfold proceed
    rw [ensures_bind_of_eq_ok (commit_apply _ _)]
    rintro t ⟨⟩
    exact .commit
  | collect template next =>
    unfold proceed
    rw [ensures_bind_of_eq_ok (count_apply _ _), ensures_bind_of_eq_ok (pushHere_apply _ _),
      ensures_bind, onWorld, ensures_onPart, ensures_iff]
    refine ⟨fun answer w _ => ?_, fun _ _ _ => trivial⟩
    rw [ensures_bind_of_eq_ok (modify_apply _ _)]
    -- Only the world and the answers change while the template is copied.
    have hframes : { (m.counted .calls 1).pushed m.engine.trail.length .step with
        world := w, answers := answer :: m.answers }.engine.frames =
          ⟨.step, m.engine.trail.length⟩ :: m.engine.frames := rfl
    refine (ensures_bind_of_eq_ok (retire_apply _ hframes)).mpr ?_
    rintro t ⟨⟩
    exact .collect
  | refuse =>
    unfold proceed
    rw [ensures_bind_of_eq_ok (count_apply _ _)]
    rintro t ⟨⟩
    exact .refuse

theorem exhausted_turns (h : m.engine.frames = f :: F) (f' : Frame S) :
    Ensures (exhausted >>= fun t => pure (Progress.task t)) m
      (fun p m' => ∀ t, p = .task t → Task.retry.Turns (f' :: F) t m'.engine.frames)
      fun _ => True := by
  rw [ensures_bind_of_eq_ok (exhausted_apply h)]
  rintro t ⟨⟩
  exact .exhausted

/-- What a retry of a frame turns to. -/
theorem retryActivation_turns {own : Owner S} {loud : Prop} {a : Activation S} {mark : Nat}
    (hfits : a.Fits own loud F) (h : m.engine.frames = ⟨a, mark⟩ :: F) :
    Ensures (retryActivation T n (run T n) (F.length + 1) a) m
      (fun p m' => ∀ t, p = .task t → Task.retry.Turns (⟨a, mark⟩ :: F) t m'.engine.frames)
      fun _ => True := by
  cases a with
  | sentinel => exact hfits.elim
  | step => exact hfits.elim
  | candidates draw drawn validate next =>
    obtain ⟨hdraw, hvalidate, -⟩ := hfits
    unfold retryActivation
    rw [ensures_bind]
    refine (quietly_frames _ _).mono ?_
    rintro candidate m' ⟨hm', hyields⟩
    rw [h] at hm'
    cases candidate with
    | none => exact exhausted_turns hm' _
    | some candidate =>
      dsimp only
      rw [ensures_bind_of_eq_ok (updateAt_apply _ hm' rfl _)]
      refine ensures_bind.mpr ((exec_frames (hdraw _ _ hyields) _).mono fun b m'' hm'' => ?_)
      -- A candidate that does not apply turns like one that is not valid.
      split
      · rw [ensures_bind]
        refine (exec_frames hvalidate _).mono fun b m₃ hm₃ => ?_
        rintro t ⟨⟩
        rw [hm₃, hm'']
        exact .draw b
      · rintro t ⟨⟩
        rw [hm'']
        exact .draw false
  | branches rest next =>
    cases rest with
    | nil => exact exhausted_turns h _
    | cons branch rest =>
      unfold retryActivation
      rw [ensures_bind_of_eq_ok (updateAt_apply _ h rfl _)]
      rintro t ⟨⟩
      exact .branch
  | search handler choices next =>
    obtain ⟨-, ⟨make, made, rfl, hmake⟩, -⟩ := hfits
    unfold retryActivation
    rw [ensures_bind_of_eq_ok (updateAt_apply _ h rfl _), ensures_bind]
    refine (exec_frames (hmake made) _).mono fun outcome m' hm' => ?_
    rw [ensures_bind_of_eq_ok (updateAt_apply _ hm' rfl _)]
    rcases outcome with _ | b
    · exact exhausted_turns rfl _
    · cases b with
      | false =>
        rintro t ⟨⟩
        exact .choice false
      | true =>
        rintro t ⟨⟩
        exact .choice true

variable {own : Owner S} {loud : Prop} {start : Machine S} {t : Task S}

/-- Every step of a run turns its task and the stack. -/
theorem Ready.turns (h : m.Ready Scope.Grows own loud start (.task t)) :
    Ensures (step T n (run T n) t) m
      (fun p m' => ∀ t', p = .task t' → t.Turns m.engine.frames t' m'.engine.frames)
      fun _ => True := by
  obtain ⟨upper, habove, hfits, ht⟩ := h
  cases t with
  | call g next =>
    unfold step
    rw [ensures_bind]
    refine (call_turns ht.1 next m).mono fun t m' hturns => ?_
    rintro t' ⟨⟩
    exact hturns
  | proceed next => exact proceed_turns next m
  | retry =>
    cases upper with
    | nil =>
      rw [Ensures, show step T n (run T n) .retry m = _ from retry_apply n habove.frames]
      rintro t' ⟨⟩
    | cons f upper =>
      have hretry : step T n (run T n) .retry m = _ := retry_apply n habove.frames
      have hframes := habove.frames
      rw [Ensures, hretry, hframes]
      exact retryActivation_turns hfits.1 hframes
  | backtrack =>
    have hframes := habove.frames
    cases upper with
    | nil =>
      rw [Ensures, show step T n (run T n) .backtrack m = _ from backtrack_apply hframes]
      rintro t' ⟨⟩
      exact .back
    | cons f upper =>
      rw [Ensures, show step T n (run T n) .backtrack m = _ from backtrack_apply hframes]
      rintro t' ⟨⟩
      exact .back

end Machine

/-! ### Steps that return -/

/-- A loop or a search. -/
def Goal.repeats : Goal S → Bool
  | .loop _ _ => true
  | .search _ => true
  | _ => false

/-- The call of a double negation, which makes a run of its own. -/
def Task.nests : Task S → Bool
  | .call (.notNot _) _ => true
  | _ => false

/-- The alternatives of an activation are made by code of the application. -/
def Activation.runsCode : Activation S → Bool
  | .candidates _ _ _ _ => true
  | .search _ _ _ => true
  | _ => false

namespace Configuration

/-- The next step runs code of the application or copies a template. -/
def runsCode (c : Configuration S) : Bool :=
  match c.task with
  | .call (.call _) _ => true
  | .call g _ => g.repeats
  | .proceed (.collect _ _) => true
  | .retry => c.frames.head?.any fun f => f.activation.runsCode
  | _ => false

/-- What the engine does by itself returns. -/
theorem exists_step (T : Theory S) {c : Configuration S} (hcode : c.runsCode = false)
    (hnests : c.task.nests = false) :
    ∃ p m, Machine.step T 0 (Machine.run T 0) c.task c.machine = .ok p m := by
  obtain ⟨t, m⟩ := c
  cases t with
  | call g next =>
    cases g with
    | succeed | fail | sequence => exact ⟨_, _, bind_ok (bind_ok (Machine.count_apply m .calls))⟩
    | disjunction gs =>
      exact ⟨_, _, bind_ok ((bind_ok (Machine.count_apply m .calls)).trans
        (bind_ok (Machine.pushHere_apply _ _)))⟩
    | once g =>
      exact ⟨_, _, bind_ok ((bind_ok (Machine.count_apply m .calls)).trans
        ((bind_ok (Machine.enterStep_apply _)).trans (bind_ok (Machine.depth_apply _))))⟩
    | notNot => cases hnests
    | call | loop | search => cases hcode
  | proceed next =>
    cases next with
    | finish | sequence | call => exact ⟨_, _, rfl⟩
    | commit height next => exact ⟨_, _, bind_ok (Machine.commit_apply _ _)⟩
    | refuse => exact ⟨_, _, bind_ok (Machine.count_apply _ _)⟩
    | collect => cases hcode
  | backtrack =>
    -- An empty stack is left as it is, and the next retry ends the run.
    cases hframes : m.engine.frames with
    | nil =>
      have hback : Machine.backtrack m = .ok (.task .retry) m := by
        rw [Machine.backtrack, bind_ok (get_apply m), hframes]
        rfl
      exact ⟨_, _, hback⟩
    | cons f fs => exact ⟨_, _, Machine.backtrack_apply hframes⟩
  | retry =>
    cases hframes : m.engine.frames with
    | nil =>
      have hretry : Machine.retry T 0 (Machine.run T 0) m =
          .ok (.ended .exit) (m.counted .retries 1) := by
        rw [Machine.retry, bind_ok (Machine.count_apply m _), bind_ok (get_apply _),
          Machine.counted_frames, hframes]
        rfl
      exact ⟨_, _, hretry⟩
    | cons f fs =>
      obtain ⟨a, mark⟩ := f
      have hretry : Machine.retry T 0 (Machine.run T 0) m = _ := Machine.retry_apply 0 hframes
      cases a with
      | sentinel => exact ⟨_, _, hretry⟩
      | step =>
        exact ⟨_, _, hretry.trans (bind_ok (Machine.exhausted_apply hframes))⟩
      | branches gs next =>
        cases gs with
        | nil => exact ⟨_, _, hretry.trans (bind_ok (Machine.exhausted_apply hframes))⟩
        | cons g gs =>
          have hupdate := Machine.updateAt_apply ((m.counted .retries 1).noted
            (.retried (Activation.branches (g :: gs) next).kind (fs.length + 1)))
            hframes rfl fun _ => .branches gs next
          exact ⟨_, _, hretry.trans (bind_ok hupdate)⟩
      | candidates | search =>
        rw [runsCode, Configuration.frames, hframes] at hcode
        cases hcode

/-! ### Steps with whatever fuel -/

variable (T) in
/-- The next step returns, with some fuel, and leads to another configuration. -/
def Steps (c c' : Configuration S) : Prop :=
  ∃ n, Machine.step T n (Machine.run T n) c.task c.machine = .ok (.task c'.task) c'.machine

variable (T) in
/-- The run that goes on from a configuration ends with a status and leaves the machine
`m`, with some fuel. -/
def EndsWith (c : Configuration S) (status : Status) (m : Machine S) : Prop :=
  ∃ n, Machine.drive T n (Machine.run T n) c.task n c.machine = .ok status m

variable (T) in
/-- The run that goes on from a configuration ends, with some fuel. -/
def Halts (c : Configuration S) : Prop :=
  ∃ n status m, Machine.drive T n (Machine.run T n) c.task n c.machine = .ok status m

variable {c c₁ c₂ c' : Configuration S} {n : Nat}

/-- A step with some fuel is a step with more fuel. -/
theorem step_mono {n' : Nat} (hn : n ≤ n') {t : Task S} {m m' : Machine S} {p : Progress S}
    (h : Machine.step T n (Machine.run T n) t m = .ok p m') :
    Machine.step T n' (Machine.run T n') t m = .ok p m' :=
  (Machine.step_below hn (Machine.run_below hn) t).ok h

theorem Steps.unique (h : c.Steps T c₁) (h' : c.Steps T c₂) : c₁ = c₂ := by
  obtain ⟨n, hn⟩ := h
  obtain ⟨n', hn'⟩ := h'
  have hsame := (step_mono (Nat.le_max_left n n') hn).symm.trans
    (step_mono (Nat.le_max_right n n') hn')
  obtain ⟨t₁, m₁⟩ := c₁
  obtain ⟨t₂, m₂⟩ := c₂
  cases hsame
  rfl

theorem Steps.endsWith {status : Status} {m : Machine S} (h : c.Steps T c')
    (h' : c'.EndsWith T status m) : c.EndsWith T status m := by
  obtain ⟨n, hn⟩ := h
  obtain ⟨n', hdrive⟩ := h'
  have hle : n' ≤ max n n' + 1 := by omega
  have hbelow := Machine.drive_below (T := T) hle (Machine.run_below (T := T) hle) c'.task
    (Nat.le_max_right n n')
  refine ⟨max n n' + 1, ?_⟩
  rw [Machine.drive_succ, step_mono (by omega) hn]
  exact hbelow.ok hdrive

theorem EndsWith.of_steps {status : Status} {m : Machine S}
    (h : Relation.ReflTransGen (Steps T) c c') (h' : c'.EndsWith T status m) :
    c.EndsWith T status m := by
  induction h using Relation.ReflTransGen.head_induction_on with
  | refl => exact h'
  | head hstep _ ih => exact hstep.endsWith ih

theorem Steps.halts (h : c.Steps T c') (h' : c'.Halts T) : c.Halts T := by
  obtain ⟨n', status, m, hdrive⟩ := h'
  obtain ⟨n, hn⟩ := h.endsWith ⟨n', hdrive⟩
  exact ⟨n, status, m, hn⟩

theorem Halts.later (h : c.Halts T) (hstep : c.Steps T c') : c'.Halts T := by
  obtain ⟨n, status, m, hdrive⟩ := h
  obtain ⟨i, rfl⟩ : ∃ i, n = i + 1 := by
    cases n with
    | zero => cases hdrive
    | succ i => exact ⟨i, rfl⟩
  obtain ⟨n', hn'⟩ := hstep
  have hmore := step_mono (Nat.le_max_right (i + 1) n') hn'
  rw [Machine.drive_succ] at hdrive
  cases hok : Machine.step T (i + 1) (Machine.run T (i + 1)) c.task c.machine with
  | error e m' =>
    rw [hok] at hdrive
    cases hdrive
  | ok p m' =>
    have hsame := (step_mono (Nat.le_max_left (i + 1) n') hok).symm.trans hmore
    cases hsame
    rw [hok] at hdrive
    have hbelow := Machine.drive_below (T := T) (Nat.le_refl (i + 1))
      (Machine.run_below (T := T) (Nat.le_refl (i + 1))) c'.task (Nat.le_succ i)
    exact ⟨i + 1, status, m, hbelow.ok hdrive⟩

theorem halts_of_ended {status : Status} {m : Machine S}
    (h : Machine.step T n (Machine.run T n) c.task c.machine = .ok (.ended status) m) :
    c.Halts T := by
  refine ⟨n + 1, status, m, ?_⟩
  rw [Machine.drive_succ, step_mono (Nat.le_succ n) h]

theorem Halts.of_steps (h : c.Halts T) (hsteps : Relation.ReflTransGen (Steps T) c c') :
    c'.Halts T := by
  induction hsteps with
  | refl => exact h
  | tail _ hstep ih => exact ih.later hstep

section Single

variable {m : Machine S} {next : Continuation S}

theorem steps_succeed :
    Steps T ⟨.call .succeed next, m⟩ ⟨.proceed next, m.counted .calls 1⟩ :=
  ⟨0, bind_ok (bind_ok (Machine.count_apply m .calls))⟩

theorem steps_fail : Steps T ⟨.call .fail next, m⟩ ⟨.backtrack, m.counted .calls 1⟩ :=
  ⟨0, bind_ok (bind_ok (Machine.count_apply m .calls))⟩

theorem steps_sequence (g h : Goal S) (gs : List (Goal S)) :
    Steps T ⟨.call (.sequence (g :: h :: gs)) next, m⟩
      ⟨.call g (.sequence (h :: gs) next), m.counted .calls 1⟩ :=
  ⟨0, bind_ok (bind_ok (Machine.count_apply m .calls))⟩

theorem steps_single (g : Goal S) :
    Steps T ⟨.call (.sequence [g]) next, m⟩ ⟨.call g next, m.counted .calls 1⟩ :=
  ⟨0, bind_ok (bind_ok (Machine.count_apply m .calls))⟩

theorem steps_once (g : Goal S) :
    Steps T ⟨.call (.once g) next, m⟩
      ⟨.call g (.commit m.engine.depth next), (m.counted .calls 1).stepped⟩ := by
  refine ⟨0, bind_ok ((bind_ok (Machine.count_apply m .calls)).trans ?_)⟩
  exact (bind_ok (Machine.enterStep_apply _)).trans (bind_ok (Machine.depth_apply _))

theorem steps_rest (g : Goal S) : Steps T ⟨.proceed (.sequence [g] next), m⟩ ⟨.call g next, m⟩ :=
  ⟨0, rfl⟩

theorem steps_refuse : Steps T ⟨.proceed .refuse, m⟩ ⟨.backtrack, m.counted .calls 1⟩ :=
  ⟨0, bind_ok (Machine.count_apply m .calls)⟩

theorem steps_back {f : Frame S} {fs : List (Frame S)} (h : m.engine.frames = f :: fs) :
    Steps T ⟨.backtrack, m⟩ ⟨.retry, m.undone f.mark⟩ :=
  ⟨0, Machine.backtrack_apply h⟩

end Single

variable (T) in
/-- What the run from `first` comes to, and what the runs of double negations nested in
it come to. -/
inductive Reached (first : Configuration S) : Configuration S → Prop
  | first : Reached first first
  | step {c c' : Configuration S} : Reached first c → c.Steps T c' → Reached first c'
  | nested {g : Goal S} {next : Continuation S} {m : Machine S} :
      Reached first ⟨.call (.notNot g) next, m⟩ →
      Reached first (((m.counted .calls 1).pushed m.engine.trail.length .step).first g .finish)

/-- The configuration is between two steps of a run of steady goals. -/
def Poised (c : Configuration S) : Prop :=
  ∃ (start : Machine S) (loud : Prop),
    c.machine.Ready Scope.Grows (fun _ F => start.base <:+ F) loud start (.task c.task)

theorem poised_first (T : Theory S) {g : Goal S} {k : Continuation S} (hg : g.Steady)
    (hk : k.Entry) (m : Machine S) : (m.first g k).Poised :=
  ⟨m, _, Machine.ready_start (Scope.history_grows T) m hg hk⟩

/-- A step leads to a configuration of the same run. -/
theorem Steps.ready {start : Machine S} {loud : Prop} (hstep : c.Steps T c')
    (h : c.machine.Ready Scope.Grows (fun _ F => start.base <:+ F) loud start (.task c.task)) :
    c'.machine.Ready Scope.Grows (fun _ F => start.base <:+ F) loud start (.task c'.task) := by
  have H := Scope.history_grows T
  obtain ⟨n, hn⟩ := hstep
  have hrun := Machine.run_sound (T := T) H Machine.requirement_true n
  have hnext : Ensures (Machine.step T n (Machine.run T n) c.task) c.machine _ Stop.Balanced :=
    Machine.step_ready H (fun _ _ _ _ h => h) hrun (fun _ _ _ => trivial) (fun _ _ hF => hF)
      h fun _ _ _ => h.base_suffix
  exact hnext.ok hn

theorem Poised.step (h : c.Poised) (hstep : c.Steps T c') : c'.Poised := by
  obtain ⟨start, loud, hready⟩ := h
  exact ⟨start, loud, hstep.ready hready⟩

theorem Poised.nested {g : Goal S} {next : Continuation S} {m : Machine S}
    (h : (Configuration.mk (.call (.notNot g) next) m).Poised) : g.Steady := by
  obtain ⟨start, loud, upper, -, -, hfits⟩ := h
  cases hfits.1 with
  | notNot hg => exact hg

theorem Reached.poised {first : Configuration S} (hfirst : first.Poised)
    (h : Reached T first c) : c.Poised := by
  induction h with
  | first => exact hfirst
  | step _ hstep ih => exact ih.step hstep
  | nested _ ih => exact poised_first T ih.nested .finish _

theorem Poised.turns (h : c.Poised) (hstep : c.Steps T c') :
    c.task.Turns c.frames c'.task c'.frames := by
  obtain ⟨start, loud, hready⟩ := h
  obtain ⟨n, hn⟩ := hstep
  exact hready.turns.ok hn _ rfl

/-! ### Runs that stand on a stack -/

variable (T) in
/-- A run leads from one configuration to another, with a property of the stack all
along. -/
inductive Along (P : List (Frame S) → Prop) (c : Configuration S) : Configuration S → Prop
  | refl : P c.frames → Along P c c
  | tail {c' c'' : Configuration S} : Along P c c' → c'.Steps T c'' → P c''.frames → Along P c c''

variable {P Q : List (Frame S) → Prop}

theorem Along.trans (h : Along T P c c₁) (h' : Along T P c₁ c') : Along T P c c' := by
  induction h' with
  | refl => exact h
  | tail _ hstep hP ih => exact .tail ih hstep hP

theorem Along.mono (h : Along T P c c') (hPQ : ∀ fs, P fs → Q fs) : Along T Q c c' := by
  induction h with
  | refl hP => exact .refl (hPQ _ hP)
  | tail _ hstep hP ih => exact .tail ih hstep (hPQ _ hP)

theorem along_of_step (hP : P c.frames) (hstep : c.Steps T c') (hP' : P c'.frames) :
    Along T P c c' :=
  .tail (.refl hP) hstep hP'

theorem Along.start (h : Along T P c c') : P c.frames := by
  induction h with
  | refl hP => exact hP
  | tail _ _ _ ih => exact ih

theorem Along.last (h : Along T P c c') : P c'.frames := by
  cases h with
  | refl hP => exact hP
  | tail _ _ hP => exact hP

theorem Along.steps (h : Along T P c c') : Relation.ReflTransGen (Steps T) c c' := by
  induction h with
  | refl => exact .refl
  | tail _ hstep _ ih => exact ih.tail hstep

theorem Along.reached {first : Configuration S} (h : Along T P c c') (hc : Reached T first c) :
    Reached T first c' := by
  induction h with
  | refl => exact hc
  | tail _ hstep _ ih => exact .step ih hstep

/-- The run stands on a stack. -/
abbrev Upon (T : Theory S) (F : List (Frame S)) : Configuration S → Configuration S → Prop :=
  Along T (F <:+ ·)

theorem Steps.upon {t t' : Task S} {m m' : Machine S} {F : List (Frame S)}
    (h : Steps T ⟨t, m⟩ ⟨t', m'⟩) (hframes : m'.engine.frames = F) (hF : m.engine.frames <:+ F) :
    Upon T m.engine.frames ⟨t, m⟩ ⟨t', m'⟩ := by
  refine along_of_step (List.suffix_refl _) h ?_
  rw [Configuration.frames, hframes]
  exact hF

/-- The run stands on a stack, with something on top of it. -/
abbrev Atop (T : Theory S) (F : List (Frame S)) : Configuration S → Configuration S → Prop :=
  Along T fun fs => F <:+ fs ∧ F.length < fs.length

theorem Along.atop {f : Frame S} {F : List (Frame S)} (h : Upon T (f :: F) c c') :
    Atop T F c c' := by
  refine h.mono fun fs hfs => ⟨(List.suffix_cons f F).trans hfs, ?_⟩
  have hle := hfs.length_le
  rw [List.length_cons] at hle
  omega

end Configuration

end GoalSearch
