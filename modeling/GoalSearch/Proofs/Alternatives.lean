/-
Where the alternatives of a frame start.

Before a predicate tries its candidates it prepares itself, and before a search makes
its choices it decides between what; both may bind variables.  The frame of the call
goes back further than that, to where the goal was called.  So the first alternative
starts from what was prepared, and every other one from the slots of the call, whatever
the alternatives before it have bound and whatever was done after them.

* `Machine.Prepares` — what a call does before its frame has alternatives;
* `Configuration.trialAfter?` — the alternatives of the frame of a call, as they are
  tried;
* `Machine.Advances` — computations that do not go back;
* `Machine.Ready.recedes` — a step goes back no further than the frame on top;
* `Configuration.Lodged` — a run that is on the frame of a call;
* `Machine.alternatives_start_at_call` — the slots from which an alternative starts.

Design notes: a frame is that of the same call as long as the stack is at least as high
as when it was pushed.  In the meantime the frames on top of it go back no further than
it does itself, so the scope of the call can be returned to all along.
-/
import GoalSearch.Proofs.Termination

namespace GoalSearch

open GoalSearch.Action GoalSearch.Configuration

variable {S : Vocabulary} {T : Theory S}

/-! ### Frames with alternatives -/

variable (T) in
/-- What is done when a goal is called, before its frame has alternatives: a predicate
prepares its candidates, or a search decides between what its choices are.  The frame
stands for `a` then, and `m₁` is what is left. -/
inductive Machine.Prepares (n : Nat) (m : Machine S) (next : Continuation S) :
    Goal S → Activation S → Machine S → Prop
  | candidates {prepare : Program S (Goal S) .candidates} {validate : Program S (Goal S) .verdict}
      {draw : Nat → Quiet S (Option (Program S (Goal S) .verdict))} {m₁ : Machine S} :
      prepare.exec T n (run T n) (m.counted .calls 1) = .ok draw m₁ →
      Prepares n m next (.call (.nondeterministic prepare validate))
        (.candidates draw 0 validate next) m₁
  | choices {handler : Quiet S (Program S (Goal S) .choices)} {level : Program S (Goal S) .choices}
      {make : Nat → Program S (Goal S) .attempt} {m₀ m₁ : Machine S} :
      quietly T n handler (m.counted .calls 1) = .ok level m₀ →
      level.exec T n (run T n) (m₀.pushed m₀.engine.trail.length (.search handler none next)) =
        .ok (some make) m₁ →
      Prepares n m next (.search handler) (.search handler (some (make, 0)) next) m₁

/-- The machine when the frame on the stack `F` is retried. -/
def Machine.retried (m : Machine S) (kind : FrameKind) (F : List (Frame S)) : Machine S :=
  (m.counted .retries 1).noted (.retried kind (F.length + 1))

/-- An alternative that is tried: its position, its program, and the machine on which
the program runs. -/
structure Trial (S : Vocabulary) where
  /-- How many alternatives come before it. -/
  position : Nat
  /-- The kind of its verdict. -/
  kind : Kind
  /-- The program. -/
  program : Program S (Goal S) kind
  /-- The machine. -/
  machine : Machine S

namespace Configuration

variable (T)

/-- The alternative that the next step tries.  A candidate has been drawn before it is
tried, and the frame of a search is without its choices meanwhile. -/
def trial? (n : Nat) (c : Configuration S) : Option (Trial S) :=
  match c.task, c.frames with
  | .retry, ⟨.candidates draw i validate next, mark⟩ :: F =>
    match Machine.quietly T n (draw i) (c.machine.retried .predicate F) with
    | .ok (some p) m =>
      some ⟨i, _, p, m.withFrames (⟨.candidates draw (i + 1) validate next, mark⟩ :: F)⟩
    | _ => none
  | .retry, ⟨.search handler (some (make, i)) next, mark⟩ :: F =>
    some ⟨i, _, make i,
      (c.machine.retried .choicePoint F).withFrames (⟨.search handler none next, mark⟩ :: F)⟩
  | _, _ => none

/-- The configuration after a number of steps, if the stack is at least as high as
`height` after each of them. -/
def onward? (n height : Nat) : Nat → Configuration S → Option (Configuration S)
  | 0, c => some c
  | j + 1, c =>
    match Machine.step T n (Machine.run T n) c.task c.machine with
    | .ok (.task t) m => if height ≤ m.engine.frames.length then onward? n height j ⟨t, m⟩ else none
    | _ => none

/-- The alternative that is tried a number of steps after a call has put its frame on the
stack, if the frame has stayed there and is on top again. -/
def trialAfter? (n j : Nat) (c : Configuration S) : Option (Trial S) :=
  match Machine.step T n (Machine.run T n) c.task c.machine with
  | .ok (.task .retry) m => do
    let c' ← onward? T n m.engine.frames.length j ⟨.retry, m⟩
    if c'.frames.length = m.engine.frames.length then trial? T n c' else none
  | _ => none

variable {T} {c c' : Configuration S} {n j height : Nat} {x : Trial S}

/-- The next step runs the alternative, whatever it does afterwards. -/
theorem step_of_trial? (h : c.trial? T n = some x) :
    ∃ rest, Machine.step T n (Machine.run T n) c.task c.machine =
      (x.program.exec T n (Machine.run T n) >>= rest) x.machine := by
  obtain ⟨t, m⟩ := c
  unfold trial? at h
  split at h
  · next draw i validate next mark F ht hframes =>
    split at h
    · next p m₁ hdraw =>
      cases h
      cases ht
      have hm₁ : m₁.engine.frames = ⟨.candidates draw i validate next, mark⟩ :: F :=
        ((Machine.quietly_frames _ _).ok hdraw).1.trans hframes
      exact ⟨_, (Machine.retry_apply n hframes).trans ((bind_ok hdraw).trans
        (bind_ok (Machine.updateAt_apply m₁ hm₁ rfl _)))⟩
    · cases h
  · next handler make i next mark F ht hframes =>
    cases h
    cases ht
    exact ⟨_, (Machine.retry_apply n hframes).trans
      (bind_ok (Machine.updateAt_apply (m.retried .choicePoint F) hframes rfl _))⟩
  · cases h

/-- The top frame is retried, and as many of its alternatives have been taken as come
before this one.  It starts from the slots that are found there. -/
theorem of_trial? (h : c.trial? T n = some x) :
    c.task = .retry ∧ x.machine.world.store = c.machine.world.store ∧
      ∃ a mark F, c.frames = ⟨a, mark⟩ :: F ∧ a.taken = x.position := by
  unfold trial? at h
  split at h
  · next draw i validate next mark F ht hframes =>
    split at h
    · next p m₁ hdraw =>
      cases h
      have hstore := ((Machine.quietly_leaves _ _).ok hdraw).2.1
      exact ⟨ht, hstore, _, _, _, hframes, rfl⟩
    · cases h
  · next handler make i next mark F ht hframes =>
    cases h
    exact ⟨ht, rfl, _, _, _, hframes, rfl⟩
  · cases h

theorem along_of_onward? (h : c.onward? T n height j = some c') (hc : height ≤ c.frames.length) :
    Along T (height ≤ ·.length) c c' := by
  induction j generalizing c with
  | zero =>
    cases h
    exact .refl hc
  | succ j ih =>
    unfold onward? at h
    split at h
    · next t m hstep =>
      split at h
      · next hle => exact (along_of_step hc ⟨n, hstep⟩ hle).trans (ih h hle)
      · cases h
    · cases h

theorem of_trialAfter? (h : c.trialAfter? T n j = some x) :
    ∃ m c', Steps T c ⟨.retry, m⟩ ∧ Along T (m.engine.frames.length ≤ ·.length) ⟨.retry, m⟩ c' ∧
      c'.frames.length = m.engine.frames.length ∧ c'.trial? T n = some x := by
  unfold trialAfter? at h
  split at h
  · next m hstep =>
    obtain ⟨c', honward, h⟩ := Option.bind_eq_some_iff.mp h
    split at h
    · next heq => exact ⟨m, c', ⟨n, hstep⟩, along_of_onward? honward (Nat.le_refl _), heq, h⟩
    · cases h
  · cases h

end Configuration

namespace Machine

/-! ### Computations that do not go back -/

section Advances

variable {R : Scope S → Scope S → Prop} {α : Type}

/-- The second machine is at a later scope than the first. -/
def Onward (R : Scope S → Scope S → Prop) (m m' : Machine S) : Prop := R m.scope m'.scope

/-- Wherever a computation starts, it ends at a later scope if it ends. -/
abbrev Advances (R : Scope S → Scope S → Prop) (x : Action (Machine S) α) : Prop :=
  Keeps (fun _ => True) (Onward R) (fun _ => True) x

variable (H : Scope.History T R) {n : Nat}

include H

theorem lasting_onward : Lasting (fun _ => True) (Onward R) :=
  ⟨fun m => H.refl m.scope, H.trans, fun _ _ => trivial⟩

/-- Computations that change neither the trail nor the slots. -/
theorem advances_of_same {x : Action (Machine S) α} (h : ∀ m, ∃ a m', x m = .ok a m' ∧
    m'.engine.trail = m.engine.trail ∧ m'.world.store = m.world.store) : Advances R x := by
  intro m _
  obtain ⟨a, m', hx, htrail, hstore⟩ := h m
  rw [ensures_of_eq_ok hx]
  exact H.of_eq (H.refl _) htrail hstore

theorem advances_count (c : Counter) : Advances R (count (S := S) c) :=
  advances_of_same H fun m => ⟨_, _, count_apply m c, rfl, rfl⟩

theorem advances_push (mark : Nat) (a : Activation S) : Advances R (push mark a) :=
  advances_of_same H fun m => ⟨_, _, push_apply m mark a, rfl, rfl⟩

theorem advances_pushHere (a : Activation S) : Advances R (pushHere a) :=
  advances_of_same H fun m => ⟨_, _, pushHere_apply m a, rfl, rfl⟩

theorem advances_retire : Advances R (retire (S := S)) := by
  refine advances_of_same H fun m => ?_
  cases hframes : m.engine.frames with
  | nil => exact ⟨(), m, retire_of_nil m hframes, rfl, rfl⟩
  | cons f fs => exact ⟨_, _, retire_apply m hframes, rfl, rfl⟩

theorem advances_enterStep : Advances R (enterStep (S := S)) :=
  advances_of_same H fun m => ⟨_, _, enterStep_apply m, rfl, rfl⟩

theorem advances_commit (height : Nat) : Advances R (commit (S := S) height) :=
  advances_of_same H fun m => ⟨_, _, commit_apply m height, rfl, rfl⟩

theorem advances_depth : Advances R (depth (S := S)) :=
  advances_of_same H fun m => ⟨_, _, depth_apply m, rfl, rfl⟩

theorem advances_trailLength : Advances R (trailLength (S := S)) :=
  advances_of_same H fun m => ⟨_, _, trailLength_apply m, rfl, rfl⟩

theorem advances_updateAt (height : Nat) (f : Activation S → Activation S) :
    Advances R (updateAt height f) := by
  refine advances_of_same H fun m => ⟨(), _, modifyEngine_apply m _, ?_, rfl⟩
  dsimp only
  split
  · rfl
  · rfl

theorem advances_quietly (x : Quiet S α) : Advances R (quietly T n x) :=
  fun m _ => (quietly_leaves x m).mono fun _ _ h =>
    H.of_eq (H.refl _) (congrArg Engine.trail h.1) h.2.1

/-- What follows on code that only asks needs to advance for values that the code has. -/
theorem advances_quietly_bind {β : Type} {x : Quiet S α} {f : α → Action (Machine S) β}
    (hf : ∀ a, x.Yields a → Advances R (f a)) : Advances R (quietly T n x >>= f) := by
  intro m _
  rw [ensures_bind]
  refine (quietly_leaves x m).mono ?_
  rintro a m' ⟨hengine, hstore, hyields⟩
  have hm' : m.Onward R m' := H.of_eq (H.refl _) (congrArg Engine.trail hengine) hstore
  exact (hf a hyields m' trivial).mono fun _ _ => H.trans hm'

theorem advances_exec {κ : Kind} {p : Program S (Goal S) κ} (hp : p.Steady Goal.Steady) :
    Advances R (p.exec T n (run T n)) :=
  fun m _ => (exec_stays H hp m).mono fun _ _ h => h.scope

theorem advances_run {g : Goal S} (hg : g.Steady) : Advances R (run T n g .finish) :=
  fun m _ => (nested_stays H hg m).mono fun _ _ h => h.scope

theorem advances_callPredicate {p : Predicate S (Goal S)} (hp : (Goal.call p).Steady)
    (next : Continuation S) : Advances R (callPredicate T n (run T n) p next) := by
  have h := lasting_onward H
  refine Keeps.bind h (advances_trailLength H) fun mark => ?_
  cases hp with
  | nondeterministic hprepare hvalidate =>
    refine Keeps.bind h (advances_exec H hprepare) fun draw => ?_
    exact Keeps.bind h (advances_push H mark _) fun _ => Keeps.pure h _
  | semideterministic hprepare hvalidate =>
    refine Keeps.bind h (advances_push H mark _) fun _ => ?_
    refine Keeps.bind h (advances_exec H hprepare) fun _ => ?_
    refine Keeps.bind h (advances_retire H) fun _ => ?_
    exact Keeps.bind h (advances_exec H hvalidate) fun b => Keeps.pure h _
  | deterministic hprepare =>
    refine Keeps.bind h (advances_push H mark _) fun _ => ?_
    refine Keeps.bind h (advances_exec H hprepare) fun _ => ?_
    exact Keeps.bind h (advances_retire H) fun _ => Keeps.pure h _

/-- A call does not go back. -/
theorem advances_call {g : Goal S} (hg : g.Steady) (next : Continuation S) :
    Advances R (call T n (run T n) g next) := by
  have h := lasting_onward H
  refine Keeps.bind h (advances_count H .calls) fun _ => ?_
  cases hg with
  | succeed => exact Keeps.pure h _
  | fail => exact Keeps.pure h _
  | nondeterministic hp hv => exact advances_callPredicate H (.nondeterministic hp hv) next
  | semideterministic hp hv => exact advances_callPredicate H (.semideterministic hp hv) next
  | deterministic hp => exact advances_callPredicate H (.deterministic hp) next
  | sequence _ => exact Keeps.pure h _
  | disjunction _ => exact Keeps.bind h (advances_pushHere H _) fun _ => Keeps.pure h _
  | once _ =>
    refine Keeps.bind h (advances_enterStep H) fun _ => ?_
    exact Keeps.bind h (advances_depth H) fun _ => Keeps.pure h _
  | notNot hg =>
    refine Keeps.bind h (advances_pushHere H _) fun _ => ?_
    -- A nested run goes on from where it starts, as every run does.
    refine Keeps.bind h (advances_run H hg) fun _ => ?_
    exact Keeps.bind h (advances_retire H) fun _ => Keeps.pure h _
  | loop _ =>
    refine Keeps.bind h (advances_enterStep H) fun _ => ?_
    refine Keeps.bind h (Keeps.get h) fun _ => ?_
    refine Keeps.bind h (advances_quietly H _) fun more => ?_
    cases more with
    | false => exact Keeps.pure h _
    | true =>
      refine Keeps.bind h (Keeps.get h) fun _ => ?_
      exact Keeps.bind h (advances_quietly H _) fun _ => Keeps.pure h _
  | search hhandler =>
    refine advances_quietly_bind H fun level hyields => ?_
    refine Keeps.bind h (advances_pushHere H _) fun _ => ?_
    refine Keeps.bind h (advances_exec H (hhandler level hyields)) fun made => ?_
    cases made with
    | none => exact Keeps.bind h (advances_retire H) fun _ => Keeps.pure h _
    | some make =>
      refine Keeps.bind h (advances_depth H) fun _ => ?_
      exact Keeps.bind h (advances_updateAt H _ _) fun _ => Keeps.pure h _

/-- What is done after a success does not go back. -/
theorem advances_proceed (next : Continuation S) : Advances R (proceed T n next) := by
  have h := lasting_onward H
  cases next with
  | finish => exact Keeps.pure h _
  | sequence rest next => exact Keeps.pure h _
  | call g next => exact Keeps.pure h _
  | commit height next => exact Keeps.bind h (advances_commit H height) fun _ => Keeps.pure h _
  | collect template next =>
    refine Keeps.bind h (advances_count H .calls) fun _ => ?_
    refine Keeps.bind h (advances_pushHere H .step) fun _ => ?_
    refine Keeps.bind h (fun m _ => ?_) fun answer => ?_
    · rw [onWorld, ensures_onPart]
      exact (World.resolve_keeps_store trivial template m.world trivial).mono
        fun _ w hw => H.world m.scope w hw
    · refine Keeps.bind h (fun m _ => H.refl m.scope) fun _ => ?_
      exact Keeps.bind h (advances_retire H) fun _ => Keeps.pure h _
  | refuse => exact Keeps.bind h (advances_count H .calls) fun _ => Keeps.pure h _

end Advances

/-! ### Steps go back no further than the frame on top -/

section Recedes

variable {R : Scope S → Scope S → Prop} (H : Scope.History T R) {n : Nat} {l m start : Machine S}
  {F : List (Frame S)} {own : Owner S} {loud : Prop} {f : Frame S}

include H

theorem exhausted_recedes (h : m.engine.frames = f :: F) (hm : l.Onward R m)
    (hmark : l.engine.trail.length ≤ f.mark) :
    Ensures (exhausted >>= fun t => pure (Progress.task t)) m (fun _ m' => l.Onward R m')
      fun _ => True := by
  rw [ensures_bind_of_eq_ok (exhausted_apply h)]
  exact H.popped hm hmark

theorem retryActivation_recedes {a : Activation S} {mark : Nat} (hfits : a.Fits own loud F)
    (h : m.engine.frames = ⟨a, mark⟩ :: F) (hm : l.Onward R m)
    (hmark : l.engine.trail.length ≤ mark) :
    Ensures (retryActivation T n (run T n) (F.length + 1) a) m (fun _ m' => l.Onward R m')
      fun _ => True := by
  cases a with
  | sentinel => exact hfits.elim
  | step => exact hfits.elim
  | candidates draw drawn validate next =>
    obtain ⟨hdraw, hvalidate, -⟩ := hfits
    unfold retryActivation
    rw [ensures_bind]
    refine (quietly_leaves _ _).mono ?_
    rintro candidate m' ⟨hengine, hstore, hyields⟩
    have hm' : l.Onward R m' := H.of_eq hm (congrArg Engine.trail hengine) hstore
    have hframes := (congrArg Engine.frames hengine).trans h
    cases candidate with
    | none => exact exhausted_recedes H hframes hm' hmark
    | some candidate =>
      dsimp only
      rw [ensures_bind_of_eq_ok (updateAt_apply _ hframes rfl _)]
      refine ensures_bind.mpr ((exec_stays H (hdraw _ _ hyields) _).mono fun b m₁ hm₁ => ?_)
      -- The draw may bind variables, so what follows starts from a later state than this one.
      have hlater : l.Onward R m₁ := H.trans (H.of_eq hm' rfl rfl) hm₁.scope
      split
      · rw [ensures_bind]
        exact (exec_stays H hvalidate _).mono fun _ _ hm₂ => H.trans hlater hm₂.scope
      · exact hlater
  | branches rest next =>
    cases rest with
    | nil => exact exhausted_recedes H h hm hmark
    | cons branch rest =>
      unfold retryActivation
      rw [ensures_bind_of_eq_ok (updateAt_apply _ h rfl _)]
      exact H.of_eq hm rfl rfl
  | search handler choices next =>
    obtain ⟨-, ⟨make, made, rfl, hmake⟩, -⟩ := hfits
    unfold retryActivation
    rw [ensures_bind_of_eq_ok (updateAt_apply _ h rfl _), ensures_bind]
    refine (exec_stays H (hmake made) _).mono fun outcome m' hm' => ?_
    have hlater : l.Onward R m' := H.trans (H.of_eq hm rfl rfl) hm'.scope
    rw [ensures_bind_of_eq_ok (updateAt_apply _ hm'.frames rfl _)]
    have hupdated : l.Onward R (m'.withFrames
        (⟨.search handler (some (make, made + 1)) next, mark⟩ :: F)) := H.of_eq hlater rfl rfl
    -- Only a level without further choices gives up its frame.
    rcases outcome with _ | b
    · exact exhausted_recedes H rfl hupdated hmark
    · cases b with
      | false => exact hupdated
      | true => exact hupdated

/-- A step of a run leads from where `l` can be returned to, to where it still can be,
if the top frame does not go back further. -/
theorem Ready.recedes {R' : Scope S → Scope S → Prop} {t : Task S}
    (h : m.Ready R' own loud start (.task t)) (hm : l.Onward R m)
    (hmarks : ∀ f ∈ m.engine.frames.head?, l.engine.trail.length ≤ f.mark) :
    Ensures (step T n (run T n) t) m (fun _ m' => l.Onward R m') fun _ => True := by
  obtain ⟨upper, habove, hfits, ht⟩ := h
  have hframes := habove.frames
  cases t with
  | call g next =>
    unfold step
    rw [ensures_bind]
    exact (advances_call H ht.1 next m trivial).mono fun _ _ hm' => H.trans hm hm'
  | proceed next =>
    exact (advances_proceed H next m trivial).mono fun _ _ hm' => H.trans hm hm'
  | retry =>
    have hretried : ∀ a F', l.Onward R (m.retried a F') := fun _ _ => H.of_eq hm rfl rfl
    cases upper with
    | nil =>
      rw [Ensures, show step T n (run T n) .retry m = _ from retry_apply n hframes]
      exact hretried _ _
    | cons f upper =>
      rw [Ensures, show step T n (run T n) .retry m = _ from retry_apply n hframes]
      exact retryActivation_recedes H hfits.1 hframes (hretried _ _)
        (hmarks f (by rw [hframes]; rfl))
  | backtrack =>
    obtain ⟨f, F, hcons⟩ : ∃ f F, m.engine.frames = f :: F := by
      cases upper with
      | nil => exact ⟨_, _, hframes⟩
      | cons f upper => exact ⟨_, _, hframes⟩
    rw [Ensures, show step T n (run T n) .backtrack m = _ from backtrack_apply hcons]
    exact H.undone hm (hmarks f (by rw [hcons]; rfl))

end Recedes

end Machine

/-! ### What a step makes of a frame below the top -/

section Turns

variable {t t' : Task S} {F F' : List (Frame S)}

/-- A step puts frames on top of the stack, or removes some, or it gives the top frame
its next alternative. -/
theorem Task.Turns.stack_cases (h : t.Turns F t' F') :
    (t ≠ .retry ∧ F <:+ F') ∨ (F' <:+ F ∧ (t = .retry → F'.length < F.length)) ∨
      ∃ f f' G, F = f :: G ∧ F' = f' :: G ∧ f'.mark = f.mark ∧
        f'.activation.runsCode = f.activation.runsCode ∧
        (f.activation.runsCode = true → f'.activation.taken = f.activation.taken + 1) := by
  cases h with
  | exhausted => exact .inr (.inl ⟨List.suffix_cons _ _, fun _ => Nat.lt_succ_self _⟩)
  | commit => exact .inr (.inl ⟨List.drop_suffix _ _, nofun⟩)
  | draw b => exact .inr (.inr ⟨_, _, _, rfl, rfl, rfl, rfl, fun _ => rfl⟩)
  | branch => exact .inr (.inr ⟨_, _, _, rfl, rfl, rfl, rfl, nofun⟩)
  | choice b => exact .inr (.inr ⟨_, _, _, rfl, rfl, rfl, rfl, fun _ => rfl⟩)
  | candidates | disjunction | level => exact .inl ⟨nofun, List.suffix_cons _ _⟩
  | _ => exact .inl ⟨nofun, List.suffix_refl _⟩

theorem Task.sequence_ne_retry (gs : List (Goal S)) (next : Continuation S) :
    Task.sequence gs next ≠ .retry := by
  unfold Task.sequence
  split <;> nofun

theorem Task.ofVerdict_ne_retry (b : Bool) (next : Continuation S) :
    Task.ofVerdict b next ≠ .retry := by
  cases b <;> nofun

/-- The top frame is retried after it has been pushed, or when the run went back to it. -/
theorem Task.Turns.of_retry (h : t.Turns F .retry F') :
    (t = .backtrack ∧ F' = F) ∨ ∃ f, F' = f :: F := by
  generalize ht' : Task.retry = t' at h
  cases h with
  | back => exact .inl ⟨rfl, rfl⟩
  | candidates | disjunction | level => exact .inr ⟨_, rfl⟩
  | sequence | rest => exact absurd ht'.symm (Task.sequence_ne_retry _ _)
  | verdict b | notNot b | draw b => exact absurd ht'.symm (Task.ofVerdict_ne_retry _ _)
  | choice b => cases b <;> cases ht'
  | _ => cases ht'

variable {a : Activation S} {mark : Nat} {G : List (Frame S)}

/-- A frame that has alternatives made by code stays where it is while the stack is
higher than below it, and when it is retried one more of them is taken. -/
theorem Task.Turns.keeps_frame (h : t.Turns F t' F') (hF : ⟨a, mark⟩ :: G <:+ F)
    (hcode : a.runsCode = true) (hlt : G.length < F'.length) :
    ∃ a', ⟨a', mark⟩ :: G <:+ F' ∧ a'.runsCode = true ∧ a.taken ≤ a'.taken ∧
      (t = .retry → F = ⟨a, mark⟩ :: G → a.taken < a'.taken) := by
  rcases h.stack_cases with ⟨hne, hsuffix⟩ | ⟨hsuffix, hshort⟩ |
      ⟨f, ⟨a', mark'⟩, G', rfl, rfl, hmark, hruns, htaken⟩
  · exact ⟨a, hF.trans hsuffix, hcode, Nat.le_refl _, fun ht => absurd ht hne⟩
  · -- Frames were dropped, but not this one: the stack is still higher than what is below it.
    refine ⟨a, List.suffix_of_suffix_length_le hF hsuffix hlt, hcode, Nat.le_refl _, ?_⟩
    rintro ht rfl
    exact absurd (Nat.le_of_lt_succ (hshort ht)) (Nat.not_le_of_lt hlt)
  · rcases List.suffix_cons_iff.mp hF with heq | hbelow
    · cases heq
      obtain rfl : mark' = mark := hmark
      have hnext : a'.taken = a.taken + 1 := htaken hcode
      exact ⟨a', List.suffix_refl _, hruns.trans hcode, by omega, fun _ _ => by omega⟩
    · refine ⟨a, hbelow.trans (List.suffix_cons _ _), hcode, Nat.le_refl _, fun _ heq => ?_⟩
      cases heq
      exact absurd hbelow.length_le (by simp)

end Turns

/-! ### A run on the frame of a call -/

/-- Frames on top of a frame of the run go back no further than it does. -/
theorem Machine.Ready.mark_le {R : Scope S → Scope S → Prop} {own : Owner S} {loud : Prop}
    {m start : Machine S} {p : Progress S} {f : Frame S} {F : List (Frame S)}
    (h : m.Ready R own loud start p) (hbase : start.base <:+ F)
    (hf : f :: F <:+ m.engine.frames) : ∀ g ∈ m.engine.frames.head?, f.mark ≤ g.mark := by
  obtain ⟨upper, habove, -, -⟩ := h
  obtain ⟨lower, rfl⟩ := hbase
  obtain ⟨higher, hstack⟩ := hf
  have hupper : upper = higher ++ f :: lower := by
    have hframes := hstack.trans habove.frames
    rw [← List.cons_append, ← List.append_assoc] at hframes
    exact (List.append_cancel_right hframes).symm
  have hsorted := habove.rising.sorted
  rw [hupper] at hsorted
  rw [← hstack]
  intro g hg
  cases higher with
  | nil =>
    cases hg
    exact Nat.le_refl _
  | cons top higher =>
    cases hg
    exact (List.pairwise_cons.mp hsorted).1 f (by simp)

namespace Configuration

variable {start l : Machine S} {loud : Prop} {a : Activation S} {c c' : Configuration S}

/-- The run above `start` is on the frame of a call that was made at `l`.  The frame has
alternatives made by code, and stands for `a`; the scope of the call can be returned to. -/
structure Lodged (start : Machine S) (loud : Prop) (l : Machine S) (a : Activation S)
    (c : Configuration S) : Prop where
  ready : c.machine.Ready Scope.Grows (fun _ F => start.base <:+ F) loud start (.task c.task)
  frame : ⟨a, l.engine.trail.length⟩ :: l.engine.frames <:+ c.frames
  runsCode : a.runsCode = true
  scope : l.scope.Extends c.machine.scope

/-- A step that leaves the frame on the stack. -/
theorem Lodged.step (hT : T.GuardsInert) (h : Lodged start loud l a c)
    (hbase : start.base <:+ l.engine.frames) (hstep : c.Steps T c')
    (hstack : l.engine.frames.length < c'.frames.length) :
    ∃ a', Lodged start loud l a' c' ∧ a.taken ≤ a'.taken ∧
      (c.task = .retry → c.frames = ⟨a, l.engine.trail.length⟩ :: l.engine.frames →
        a.taken < a'.taken) := by
  have hturns : c.task.Turns c.frames c'.task c'.frames :=
    Poised.turns ⟨start, loud, h.ready⟩ hstep
  obtain ⟨a', hframe, hcode, hle, hlt⟩ :=
    hturns.keeps_frame h.frame h.runsCode hstack
  refine ⟨a', ⟨hstep.ready h.ready, hframe, hcode, ?_⟩, hle, hlt⟩
  obtain ⟨n, hn⟩ := hstep
  have hmarks := h.ready.mark_le hbase h.frame
  have hrecedes := h.ready.recedes (Scope.history_extends hT) (n := n) h.scope hmarks
  exact hrecedes.ok hn

/-- As long as the frame is on the stack; after the first step of the run on it, the
frame has had an alternative. -/
theorem Lodged.along (hT : T.GuardsInert) (h : Lodged start loud l a c)
    (hbase : start.base <:+ l.engine.frames) (hretry : c.task = .retry)
    (hframes : c.frames = ⟨a, l.engine.trail.length⟩ :: l.engine.frames)
    (hc : Along T (l.engine.frames.length < ·.length) c c') :
    ∃ a', Lodged start loud l a' c' ∧ ((c' = c ∧ a' = a) ∨ 0 < a'.taken) := by
  induction hc with
  | refl => exact ⟨a, h, .inl ⟨rfl, rfl⟩⟩
  | tail _ hstep hstack ih =>
    obtain ⟨a₁, h₁, hor⟩ := ih
    obtain ⟨a₂, h₂, hle, hlt⟩ := h₁.step hT hbase hstep hstack
    refine ⟨a₂, h₂, .inr ?_⟩
    rcases hor with ⟨rfl, rfl⟩ | hpos
    · exact Nat.zero_lt_of_lt (hlt hretry hframes)
    · exact Nat.lt_of_lt_of_le hpos hle

/-- When the run goes back to the frame of the call, it goes back to the slots of the
call. -/
theorem Lodged.store_of_back (hT : T.GuardsInert) (h : Lodged start loud l a c)
    (hbase : start.base <:+ l.engine.frames) (hstep : c.Steps T c') (hretry : c'.task = .retry)
    (htop : c'.frames.length = l.engine.frames.length + 1) :
    c'.machine.world.store ≈ l.world.store := by
  have hturns : c.task.Turns c.frames c'.task c'.frames :=
    Poised.turns ⟨start, loud, h.ready⟩ hstep
  rw [hretry] at hturns
  have hlength := h.frame.length_le
  rw [List.length_cons] at hlength
  rcases hturns.of_retry with ⟨hback, hsame⟩ | ⟨f, hpushed⟩
  · have hframes : c.frames = ⟨a, l.engine.trail.length⟩ :: l.engine.frames := by
      refine (h.frame.eq_of_length ?_).symm
      rw [← hsame, htop, List.length_cons]
    obtain ⟨a', h', -⟩ := h.step hT hbase hstep (by rw [htop]; exact Nat.lt_succ_self _)
    obtain ⟨n, hn⟩ := hstep
    -- The trail is cut to the mark of the frame, and above the call it only grew.
    have hundone : Machine.step T n (Machine.run T n) .backtrack c.machine =
        .ok (.task .retry) (c.machine.undone l.engine.trail.length) :=
      Machine.backtrack_apply hframes
    rw [hback, hundone] at hn
    have hmachine : c'.machine = c.machine.undone l.engine.trail.length := by
      injection hn with _ hm
      exact hm.symm
    have hle : l.engine.trail.length ≤ c.machine.engine.trail.length := h.scope.grows.length_le
    refine h'.scope.store_equiv ?_
    show c'.machine.engine.trail.length = l.engine.trail.length
    rw [hmachine, Machine.length_undone, Nat.min_eq_right hle]
  · rw [hpushed, List.length_cons] at htop
    omega

end Configuration

/-! ### What a call leaves -/

section Prepares

variable {n : Nat} {m m₁ : Machine S} {g : Goal S} {next : Continuation S} {a : Activation S}

/-- After what is prepared the frame is on the stack, and is retried. -/
theorem Machine.Prepares.steps (h : m.Prepares T n next g a m₁) (hg : g.Steady) :
    ∃ m₂, Steps T ⟨.call g next, m⟩ ⟨.retry, m₂⟩ ∧
      m₂.engine.frames = ⟨a, m.engine.trail.length⟩ :: m.engine.frames ∧
      m₂.world.store = m₁.world.store := by
  cases h with
  | @candidates prepare validate draw m₁ hprepare =>
    cases hg with
    | nondeterministic hsteady _ =>
      have hframes : m₁.engine.frames = m.engine.frames :=
        (Machine.exec_frames hsteady (m.counted .calls 1)).ok hprepare
      let m₂ := m₁.pushed m.engine.trail.length (.candidates draw 0 validate next)
      have hcall : Machine.callPredicate T n (Machine.run T n)
          (.nondeterministic prepare validate) next (m.counted .calls 1) = .ok .retry m₂ := by
        refine (bind_ok (Machine.trailLength_apply _)).trans ((bind_ok hprepare).trans ?_)
        exact bind_ok (Machine.push_apply m₁ _ _)
      refine ⟨m₂, ⟨n, bind_ok ((bind_ok (Machine.count_apply m .calls)).trans hcall)⟩, ?_, rfl⟩
      rw [Machine.pushed_frames, hframes]
  | @choices handler level make m₀ m₁ hhandler hlevel =>
    cases hg with
    | search hsteady =>
      obtain ⟨hengine, -, hyields⟩ := (Machine.quietly_leaves handler _).ok hhandler
      have hframes := (Machine.exec_frames (hsteady level hyields) _).ok hlevel
      rw [Machine.pushed_frames, hengine] at hframes
      -- The level leaves the stack alone, so the frame it updates is the one just pushed.
      have hheight : m₁.engine.depth = m.engine.frames.length + 1 := by
        rw [Engine.depth, hframes]
        rfl
      have hcall : Machine.call T n (Machine.run T n) (.search handler) next m =
          .ok .retry (m₁.withFrames (⟨.search handler (some (make, 0)) next,
            m.engine.trail.length⟩ :: m.engine.frames)) := by
        refine (bind_ok (Machine.count_apply m .calls)).trans ((bind_ok hhandler).trans ?_)
        refine (bind_ok (Machine.pushHere_apply m₀ _)).trans ((bind_ok hlevel).trans ?_)
        refine (bind_ok (Machine.depth_apply m₁)).trans ?_
        exact bind_ok (Machine.updateAt_apply m₁ hframes hheight _)
      exact ⟨_, ⟨n, bind_ok hcall⟩, rfl, rfl⟩

/-- None of the alternatives has been taken. -/
theorem Machine.Prepares.untaken (h : m.Prepares T n next g a m₁) :
    a.runsCode = true ∧ a.taken = 0 := by
  cases h with
  | candidates _ => exact ⟨rfl, rfl⟩
  | choices _ _ => exact ⟨rfl, rfl⟩

end Prepares

variable (T) in
/-- All alternatives of the frame of a call start from the same slots. -/
def Configuration.StartAlike (c : Configuration S) : Prop :=
  ∀ n j x n' j' x', c.trialAfter? T n j = some x → c.trialAfter? T n' j' = some x' →
    x.machine.world.store ≈ x'.machine.world.store

/-- Where an alternative starts that is tried on the frame of a call. -/
theorem Machine.Prepares.store_of_trial (hT : T.GuardsInert) {start m m₁ : Machine S}
    {g₀ g : Goal S} {k next : Continuation S} (hg₀ : g₀.Steady) (hk : k.Entry) {n n' j : Nat}
    {a : Activation S} {x : Trial S} (hprepares : m.Prepares T n next g a m₁)
    (hreached : Reached T (start.first g₀ k) ⟨.call g next, m⟩)
    (hx : trialAfter? T n' j ⟨.call g next, m⟩ = some x) :
    (x.position = 0 → x.machine.world.store = m₁.world.store) ∧
      (0 < x.position → x.machine.world.store ≈ m.world.store) := by
  obtain ⟨start, loud, hready⟩ := hreached.poised (poised_first T hg₀ hk start)
  have hbase : start.base <:+ m.engine.frames := hready.base_suffix
  obtain ⟨-, -, -, hg, -⟩ := id hready
  -- the frame of the call
  obtain ⟨m₂, c, hcall, hc, hheight, hx⟩ := of_trialAfter? hx
  obtain ⟨m₂', hsteps, hframes, hstore⟩ := hprepares.steps hg
  cases hcall.unique hsteps
  obtain ⟨hcode, huntaken⟩ := hprepares.untaken
  have hscope : m.scope.Extends m₂.scope := by
    obtain ⟨n, hn⟩ := hsteps
    obtain ⟨t, m₃, hm₃, hrest⟩ := bind_eq_ok.mp hn
    cases hrest
    exact (advances_call (Scope.history_extends hT) hg next m trivial).ok hm₃
  have hlodged : Lodged start loud m a ⟨.retry, m₂⟩ :=
    ⟨hsteps.ready hready, hframes ▸ List.suffix_refl _, hcode, hscope⟩
  rw [hframes, List.length_cons] at hc hheight
  -- the frame when the alternative is tried
  obtain ⟨hretry, hsame, a', mark, F, htop, htaken⟩ := of_trial? hx
  rw [hsame]
  constructor
  · intro hzero
    obtain ⟨a₁, h₁, hor⟩ := hlodged.along hT hbase rfl hframes hc
    have heq := h₁.frame.eq_of_length hheight.symm
    rw [htop] at heq
    cases heq
    rcases hor with ⟨rfl, -⟩ | hpos
    · exact hstore
    · omega
  · intro hpos
    cases hc with
    | refl =>
      have heq := hframes.symm.trans htop
      cases heq
      omega
    | tail hbefore hstep _ =>
      obtain ⟨a₁, h₁, -⟩ := hlodged.along hT hbase rfl hframes hbefore
      exact h₁.store_of_back hT hbase hstep hretry hheight

/-- Where the alternatives of a predicate or of a level of a search start, in a run in
which no code puts another engine in place of its own, and guards bind nothing.  The
first one starts from the slots that were left when the candidates had been prepared, or
the choices decided on.  All others start from the slots with which the goal was called:
nothing that was prepared is bound any more, and nothing that was bound since, by
alternatives or by what was done after them.  So all of them start from the same slots
if nothing was bound when they were prepared. -/
theorem Machine.alternatives_start_at_call (hT : T.GuardsInert) {start m m₁ : Machine S}
    {g₀ g : Goal S} {k next : Continuation S} (hg₀ : g₀.Steady) (hk : k.Entry)
    (hreached : Reached T (start.first g₀ k) ⟨.call g next, m⟩) {n : Nat} {a : Activation S}
    (hprepares : m.Prepares T n next g a m₁) :
    (∀ n' j x, trialAfter? T n' j ⟨.call g next, m⟩ = some x →
        (x.position = 0 → x.machine.world.store = m₁.world.store) ∧
          (0 < x.position → x.machine.world.store ≈ m.world.store)) ∧
      (m₁.world.store ≈ m.world.store → StartAlike T ⟨.call g next, m⟩) := by
  have hstart : ∀ n' j x, trialAfter? T n' j ⟨.call g next, m⟩ = some x → _ :=
    fun _ _ _ hx => hprepares.store_of_trial hT hg₀ hk hreached hx
  refine ⟨hstart, fun hsame => ?_⟩
  have hcalled : ∀ n' j x, trialAfter? T n' j ⟨.call g next, m⟩ = some x →
      x.machine.world.store ≈ m.world.store := by
    intro n' j x hx
    obtain ⟨hfirst, hlater⟩ := hstart n' j x hx
    rcases Nat.eq_zero_or_pos x.position with hzero | hpos
    · exact Setoid.trans (Store.equiv_of_eq (hfirst hzero)) hsame
    · exact hlater hpos
  exact fun n j x n' j' x' hx hx' =>
    Setoid.trans (hcalled n j x hx) (Setoid.symm (hcalled n' j' x' hx'))

/-- What is done after the goals below: a variable gets the first of its values, and
another solution is asked for. -/
def Bounds.afterwards : Continuation Bounds.vocabulary :=
  .sequence [.once (.memberOf (.var ⟨4⟩) [.int 8, .int 9])] (.collect (.int 0) .refuse)

/-- The call of a goal at the beginning of a run, on an engine that has been used. -/
def Bounds.calling (g : Goal Bounds.vocabulary) : Configuration Bounds.vocabulary :=
  ⟨.call g Bounds.afterwards, (Bounds.used.pushed 1 .sentinel).counted .calls 1⟩

theorem Bounds.reached_calling (g : Goal Bounds.vocabulary) :
    Reached Bounds.theory (Bounds.used.first
      (.sequence [g, .once (.memberOf (.var ⟨4⟩) [.int 8, .int 9])]) (.collect (.int 0) .refuse))
      (Bounds.calling g) :=
  .step .first ⟨0, bind_ok (bind_ok (Machine.count_apply _ _))⟩

/-- A predicate that binds one variable before it has two candidates for another. -/
def Bounds.prepared : Goal Bounds.vocabulary :=
  .call (.nondeterministic (.unify (.var ⟨1⟩) (.int 5) fun _ =>
    .bindings (.var ⟨2⟩) fun i => pure [.int 6, .int 7][i]?) (.verdict true))

theorem Bounds.prepared_steady : Bounds.prepared.Steady := by
  refine .nondeterministic (.unify fun _ => .candidates fun i p h => ?_) (.verdict true)
  obtain ⟨value, -, hp⟩ := Quiet.yields_bind h
  cases value with
  | none => nomatch hp
  | some value =>
    cases hp
    exact .unify fun r => .verdict r

/-- The first candidate finds the variable bound that was bound before, and the second
one finds it free, and so the other variables. -/
theorem Machine.alternatives_start_at_call_prepared :
    ∃ x y : Trial Bounds.vocabulary,
      trialAfter? Bounds.theory 9 0 (Bounds.calling Bounds.prepared) = some x ∧
      trialAfter? Bounds.theory 9 9 (Bounds.calling Bounds.prepared) = some y ∧
      x.position = 0 ∧ x.machine.world.store.isUnbound ⟨1⟩ = false ∧
      y.position = 1 ∧ y.machine.world.store ≈ Bounds.used.world.store := by
  let m := (Bounds.calling Bounds.prepared).machine
  let binds : Action (Machine Bounds.vocabulary) Bool :=
    Machine.unify Bounds.theory 9 (.var ⟨1⟩) (.int 5)
  have hbinds : (result? binds (m.counted .calls 1)) = some true := by decide +kernel
  obtain ⟨m₁, hm₁⟩ := result?_eq_some.mp hbinds
  have hbound : (binds.last (m.counted .calls 1)).world.store.isUnbound ⟨1⟩ = false := by
    decide +kernel
  rw [last, hm₁] at hbound
  have hprepares : m.Prepares Bounds.theory 9 Bounds.afterwards Bounds.prepared _ m₁ :=
    .candidates (bind_ok hm₁)
  have hsteady : (Goal.sequence [Bounds.prepared,
      .once (.memberOf (.var ⟨4⟩) [.int 8, .int 9])]).Steady := by
    refine .sequence ?_
    simp only [List.forall_mem_cons]
    exact ⟨Bounds.prepared_steady, .once (Goal.steady_memberOf _ _), by simp⟩
  have hstart := (Machine.alternatives_start_at_call Bounds.guardsInert hsteady (.all _)
    (Bounds.reached_calling _) hprepares).1
  have hpositions : ∀ p ∈ [(0, 0), (9, 1)],
      (trialAfter? Bounds.theory 9 p.1 (Bounds.calling Bounds.prepared)).map Trial.position =
        some p.2 := by
    decide +kernel
  obtain ⟨x, hx, hfirst⟩ := Option.map_eq_some_iff.mp (hpositions (0, 0) (by simp))
  obtain ⟨y, hy, hsecond⟩ := Option.map_eq_some_iff.mp (hpositions (9, 1) (by simp))
  refine ⟨x, y, hx, hy, hfirst, ?_, hsecond, ?_⟩
  · rw [(hstart 9 0 x hx).1 hfirst]
    exact hbound
  · have hpos : 0 < y.position := by rw [hsecond]; exact Nat.one_pos
    exact (hstart 9 9 y hy).2 hpos

theorem Configuration.not_startAlike {c : Configuration S} {n i j : Nat} {v : Var} {b : Bool}
    (h : (c.trialAfter? T n i).map (fun x => x.machine.world.store.isUnbound v) = some b)
    (h' : (c.trialAfter? T n j).map (fun x => x.machine.world.store.isUnbound v) = some !b) :
    ¬ c.StartAlike T := by
  intro hsame
  obtain ⟨x, hx, hb⟩ := Option.map_eq_some_iff.mp h
  obtain ⟨x', hx', hb'⟩ := Option.map_eq_some_iff.mp h'
  rw [Store.isUnbound_congr (hsame n i x n j x' hx hx'), hb'] at hb
  simp at hb

/-- A search that binds one variable before it has two choices for another. -/
def Bounds.decided : Goal Bounds.vocabulary :=
  .search (pure (.unify (.var ⟨1⟩) (.int 5) fun _ => .choices (some fun i =>
    .unify (.var ⟨2⟩) (.int (i + 6)) fun r => .attempt (some (r && i = 1)))))

/-- A predicate that puts a new engine in place of the one that runs it before it has two
candidates. -/
def Bounds.renewed : Goal Bounds.vocabulary :=
  .call (.nondeterministic (.renew (.bindings (.var ⟨2⟩) fun i => pure [.int 6, .int 7][i]?))
    (.verdict false))

/-- The vocabulary without structures and with variables as guards. -/
abbrev Meddling.vocabulary : Vocabulary := ⟨Empty, Var, Unit⟩

/-- The theory in which a restricted variable takes every value, and another variable is
given a value when it does. -/
def Meddling.theory : Theory Meddling.vocabulary where
  unifyWith label := nomatch label
  copies label := nomatch label
  render label := nomatch label
  admits v _ := .unify (.var v) (.int 0) .done

/-- A machine with a variable that gives the next one a value when it is bound. -/
def Meddling.machine : Machine Meddling.vocabulary :=
  ⟨.new .standard, ⟨⟨#[.fresh, ⟨.ordinary (some ⟨2⟩), none⟩, .fresh]⟩, 0, (), []⟩, []⟩

/-- The alternatives do not start alike if a predicate or a search binds a variable before
there are alternatives.  If a new engine is put in place, its trail is too short for the
bindings of the first candidate to be undone.  What a guard binds is on no trail. -/
theorem Machine.alternatives_start_apart :
    ¬ StartAlike Bounds.theory (Bounds.calling Bounds.prepared) ∧
      ¬ StartAlike Bounds.theory (Bounds.calling Bounds.decided) ∧
      ¬ StartAlike Bounds.theory (Bounds.calling Bounds.renewed) ∧
      ¬ StartAlike Meddling.theory (Meddling.machine.first (.memberOf (.var ⟨1⟩) [.int 6, .int 7])
        (.collect (.int 0) .refuse)) := by
  refine ⟨?_, ?_, ?_, ?_⟩
  · exact not_startAlike (n := 9) (i := 0) (j := 9) (v := ⟨1⟩) (b := false)
      (by decide +kernel) (by decide +kernel)
  · exact not_startAlike (n := 9) (i := 0) (j := 2) (v := ⟨1⟩) (b := false)
      (by decide +kernel) (by decide +kernel)
  · exact not_startAlike (n := 9) (i := 0) (j := 2) (v := ⟨2⟩) (b := true)
      (by decide +kernel) (by decide +kernel)
  · exact not_startAlike (n := 9) (i := 0) (j := 4) (v := ⟨2⟩) (b := true)
      (by decide +kernel) (by decide +kernel)

end GoalSearch
