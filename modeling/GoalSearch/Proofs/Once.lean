/-
What a `once` cuts.

When the goal of a `once` succeeds, the frames above a height are dropped.  The
height was noted down when the `once` was called, and much may have happened
since: frames were pushed and popped, and runs were nested in the run.  Still
the frames that remain are those on which the `once` was called.

* `Machine.Ordered` — marks that never fall from the bottom to the top;
* `Path` — the configurations that a run has gone through;
* `Machine.Started` — the runs that are started, at rest or within a step;
* `Called` — a `once` that was called on a stack and has not committed yet;
* `Machine.path_ready` — every commit in a configuration has its own call;
* `Machine.once_cuts_own_alternatives` — what a commit leaves.

Design notes: a path keeps the past of a configuration, so a commit can be led
back to the call it belongs to.  After a commit no other commit to the same call
is left: those in the continuation that goes on are parts of it, and those on
the stack go back to lower stacks.  Which runs a step makes is not said by the
outcome of the step; it is said by what happens when such a run stops.
-/
import GoalSearch.Proofs.Balance

namespace GoalSearch

open GoalSearch.Action

variable {S : Vocabulary} {α : Type}

/-! ### Ordered marks -/

theorem Rising.bounded {lo : Nat} {fs : List (Frame S)} {n : Nat} (h : Rising lo fs n) :
    ∀ f ∈ fs, f.mark ≤ n := by
  induction fs generalizing n with
  | nil => simp
  | cons f fs ih =>
    rw [List.forall_mem_cons]
    exact ⟨h.1, fun f' hf' => Nat.le_trans (ih h.2 f' hf') h.1⟩

theorem Rising.sorted {lo : Nat} {fs : List (Frame S)} {n : Nat} (h : Rising lo fs n) :
    fs.Pairwise fun upper lower => lower.mark ≤ upper.mark := by
  induction fs generalizing n with
  | nil => exact .nil
  | cons f fs ih => exact .cons h.2.bounded (ih h.2)

/-- What an engine is about to do, and the machine it does it on. -/
structure Configuration (S : Vocabulary) where
  /-- What is to be done. -/
  task : Task S
  /-- The machine. -/
  machine : Machine S

/-- The stack of a configuration. -/
abbrev Configuration.frames (c : Configuration S) : List (Frame S) := c.machine.engine.frames

/-- The first configuration of a run. -/
def Machine.first (m : Machine S) (g : Goal S) (k : Continuation S) : Configuration S :=
  ⟨.call g k, m.pushed m.engine.trail.length .sentinel⟩

section Path

variable (T : Theory S) (fuel : Nat) (run : Runner S)

/-- The configurations through which a run has gone from the first one on, the
latest first. -/
inductive Path (first : Configuration S) : List (Configuration S) → Prop
  | first : Path first [first]
  | step {c c' : Configuration S} {past : List (Configuration S)} :
      Path first (c :: past) →
      Machine.step T fuel run c.task c.machine = .ok (.task c'.task) c'.machine →
      Path first (c' :: c :: past)

/-- The configurations of a run after at most `n` steps, the latest first. -/
def pathFrom (first : Configuration S) : Nat → List (Configuration S)
  | 0 => [first]
  | n + 1 =>
    match pathFrom first n with
    | [] => []
    | c :: past =>
      match Machine.step T fuel run c.task c.machine with
      | .ok (.task t) m => ⟨t, m⟩ :: c :: past
      | _ => c :: past

theorem path_pathFrom (first : Configuration S) (n : Nat) :
    Path T fuel run first (pathFrom T fuel run first n) := by
  induction n with
  | zero => exact .first
  | succ n ih =>
    unfold pathFrom
    cases h : pathFrom T fuel run first n with
    | nil =>
      rw [h] at ih
      exact ih
    | cons c past =>
      rw [h] at ih
      dsimp only
      split
      · next t m hstep => exact .step ih hstep
      · exact ih

/-- The runner that stops instead of making one run. -/
noncomputable def Runner.without (g : Goal S) (k : Continuation S) (m : Machine S) (e : Stop) :
    Runner S :=
  open Classical in fun g' k' m' => if (g', k', m') = (g, k, m) then .error e m' else run g' k' m'

/-- The next step from a configuration makes a nested run: whatever the reason
for which that run would stop, the step would stop for it. -/
def Configuration.Makes (c : Configuration S) (g : Goal S) (k : Continuation S)
    (m : Machine S) : Prop :=
  ∀ e, ∃ m', Machine.step T fuel (run.without g k m e) c.task c.machine = .error e m'

theorem Runner.without_self (g : Goal S) (k : Continuation S) (m : Machine S) (e : Stop) :
    run.without g k m e g k m = .error e m := by
  unfold Runner.without
  rw [if_pos rfl]

/-- A call of a double negation makes the run of its goal, above a step. -/
theorem Configuration.makes_notNot (g : Goal S) (next : Continuation S) (m : Machine S) :
    (Configuration.mk (.call (.notNot g) next) m).Makes T fuel run g .finish
      ((m.counted .calls 1).pushed m.engine.trail.length .step) := by
  intro e
  let pushed := (m.counted .calls 1).pushed m.engine.trail.length .step
  refine ⟨pushed, bind_error ?_⟩
  unfold Machine.call
  rw [bind_ok (Machine.count_apply _ _)]
  refine (bind_ok (Machine.pushHere_apply _ _)).trans ?_
  exact bind_error (Runner.without_self run g .finish pushed e)

end Path

/-- On the way through `past`, a `once` with `next` after it was called on the
stack `F`, on which the base of the run was; since then the stack has stood on
`F`, and the `once` has not committed. -/
def Called (base : List (Frame S)) (past : List (Configuration S)) : Owner S := fun next F =>
  ∃ later call earlier, past = later ++ call :: earlier ∧
    (∃ g, call.task = .call (.once g) next) ∧ call.frames = F ∧ base <:+ F ∧
    ∀ c ∈ later, F <:+ c.frames ∧ c.task ≠ .proceed (.commit F.length next)

section Called

variable {base F : List (Frame S)} {past : List (Configuration S)} {c : Configuration S}
  {next : Continuation S}

theorem Called.base_suffix (h : Called base past next F) : base <:+ F := by
  obtain ⟨_, _, _, -, -, -, hbase, -⟩ := h
  exact hbase

theorem Called.cons (h : Called base past next F) (hF : F <:+ c.frames)
    (hc : c.task ≠ .proceed (.commit F.length next)) : Called base (c :: past) next F := by
  obtain ⟨later, call, earlier, rfl, htask, hframes, hbase, hlater⟩ := h
  refine ⟨c :: later, call, earlier, rfl, htask, hframes, hbase, ?_⟩
  rw [List.forall_mem_cons]
  exact ⟨⟨hF, hc⟩, hlater⟩

theorem called_of_once {g : Goal S} (hc : c.task = .call (.once g) next)
    (hbase : base <:+ c.frames) : Called base (c :: past) next c.frames :=
  ⟨[], c, past, rfl, ⟨g, hc⟩, rfl, hbase, by simp⟩

end Called

namespace Machine

variable {T : Theory S} {fuel : Nat} {run : Runner S} {R : Scope S → Scope S → Prop}
  {loud : Prop} {start m : Machine S} {own : Owner S}

theorem Ready.base_suffix {p : Progress S} (h : m.Ready R own loud start p) :
    start.base <:+ m.engine.frames := by
  obtain ⟨upper, habove, -⟩ := h
  rw [habove.frames]
  exact List.suffix_append _ _

theorem Ready.mono {own' : Owner S} {t : Task S} (h : m.Ready R own loud start (.task t))
    (hown : ∀ next F, F <:+ m.engine.frames → own next F → own' next F) :
    m.Ready R own' loud start (.task t) := by
  obtain ⟨upper, habove, hfits, ht⟩ := h
  refine ⟨upper, habove, hfits.parts.mono fun next F hF => ?_,
    Task.Fits.mono (fun next F hF => hown next F hF.2 hF.1) (Task.Fits.parts ht)⟩
  rw [← habove.frames] at hF
  exact hown next F hF.2.1 hF.1

/-- After a commit, no other commit of the same call is left. -/
theorem Ready.after_commit {next : Continuation S}
    (h : m.Ready R own loud start (.task (.proceed next))) :
    m.Ready R (fun next' F => own next' F ∧ (F.length = m.engine.depth → next' ≠ next)) loud
      start (.task (.proceed next)) := by
  obtain ⟨upper, habove, hfits, ht⟩ := h
  refine ⟨upper, habove, hfits.parts.mono fun next' F hF => ⟨hF.1, fun hlength => ?_⟩,
    Continuation.Fits.mono (fun next' F hF => ⟨hF.1, fun _ hnext => ?_⟩)
      (Continuation.Fits.parts ht)⟩
  · have hlt := hF.2.2
    rw [← habove.frames, hlength, Engine.depth] at hlt
    exact absurd hlt (Nat.lt_irrefl _)
  · have hlt := hF.2.2
    rw [hnext] at hlt
    exact absurd hlt (Nat.lt_irrefl _)

theorem proceed_commit (height : Nat) (next : Continuation S) (m : Machine S) :
    step T fuel run (.proceed (.commit height next)) m =
      .ok (.task (.proceed next)) (m.committed height) := by
  show (commit height >>= fun _ => pure (Progress.task (.proceed next))) m = _
  rw [bind_ok (commit_apply _ _)]
  rfl

/-- Every commit in a configuration of a run has a call of its own. -/
theorem path_ready (H : Scope.History T R) {I : List (Frame S) → Nat → Prop}
    (hI : Requirement I) (hrun : run.Sound I R) {g : Goal S} {k : Continuation S}
    (hg : g.Steady) (hk : k.Entry) (hstart : start.Meets I) {c : Configuration S}
    {past : List (Configuration S)} (hp : Path T fuel run (start.first g k) (c :: past)) :
    c.machine.Ready R (Called start.base past) (k ≠ .finish) start (.task c.task) := by
  generalize hcs : c :: past = cs at hp
  induction hp generalizing c past with
  | first =>
    cases hcs
    exact ready_start H start hg hk
  | @step c' c'' past' hp hstep ih =>
    obtain ⟨rfl, rfl⟩ := List.cons.inj hcs
    have hready := ih rfl
    have hbase := hready.base_suffix
    -- what owns the commits once the step is taken
    let own : Owner S := fun next F =>
      (Called start.base past' next F ∧ F <:+ c'.frames) ∨
        (∃ g, c'.task = .call (.once g) next) ∧ F = c'.frames
    have howned : c'.machine.Ready R own (k ≠ .finish) start (.task c'.task) :=
      hready.mono fun next F hF hcalled => .inl ⟨hcalled, hF⟩
    have hownbase : ∀ next F, own next F → start.base <:+ F := by
      rintro next F (⟨hcalled, -⟩ | ⟨-, rfl⟩)
      · exact hcalled.base_suffix
      · exact hbase
    have hafter : c.machine.Ready R own (k ≠ .finish) start (.task c.task) :=
      (step_ready H hI.mono hrun (fun fs n hfs => hI.nest hstart fs n hfs) hownbase howned
        fun g next hcall => .inr ⟨⟨g, hcall⟩, rfl⟩).ok hstep
    by_cases hcommit : ∃ height next, c'.task = .proceed (.commit height next)
    · obtain ⟨height, next, htask⟩ := hcommit
      rw [htask, proceed_commit] at hstep
      injection hstep with hp hm
      injection hp with hp
      have hheight : c.machine.engine.depth = height := by
        obtain ⟨upper, habove, -, hfits⟩ := hready
        rw [htask] at hfits
        have hle : height ≤ c'.machine.engine.frames.length := hfits.1
        rw [← hm, Engine.depth, committed_frames, List.length_drop, Engine.depth]
        omega
      rw [← hp] at hafter ⊢
      refine hafter.after_commit.mono ?_
      rintro next' F hF ⟨⟨hcalled, hF'⟩ | ⟨⟨g', hcall⟩, -⟩, hne⟩
      · refine hcalled.cons hF' fun h => ?_
        rw [htask] at h
        injection h with h
        injection h with hlength hnext
        exact hne (by rw [hheight, hlength]) hnext.symm
      · rw [htask] at hcall
        cases hcall
    · refine hafter.mono ?_
      rintro next' F hF (⟨hcalled, hF'⟩ | ⟨⟨g', hcall⟩, rfl⟩)
      · exact hcalled.cons hF' fun h => hcommit ⟨_, _, h⟩
      · exact called_of_once hcall hbase

end Machine

end GoalSearch
