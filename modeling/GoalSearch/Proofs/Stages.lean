/-
Runs that go on alike from different stacks.

Goals that are grouped in another way put other frames on the stack and other
continuations on hold.  Whether that matters is a question of what a run can
still do: two stages match if whatever a run does from one of them within so
many steps, another run does from the other one with enough fuel.

* `Machine.Simulates` — whatever a run does from here, another one does from there;
* `Machine.Slides`, `Stage.Becomes` — steps with no effect but on the stack;
* `Stage.Matches`, `Stack.Matches`, `Task.Matches`, `Goal.Matches` — stages,
  stacks, tasks and goals from which runs go on alike;
* `Machine.Paired` — machines beside each other on two given stacks.

Design notes: stacks are compared by what going back on them leads to, and
continuations by what going on with them leads to on all stacks that are built
upon two given ones.  Nothing is said of their shapes, so it does not matter that
the heights to which both sides commit are not the same.  Slots are compared up
to bindings that are undone by going back, as one run may have undone them when
the other one has not yet.
-/
import GoalSearch.Proofs.Regrouping
import GoalSearch.Proofs.Simulation

namespace GoalSearch

open GoalSearch.Action GoalSearch.Configuration Machine

variable {S : Vocabulary} {T : Theory S} {k J J' : Nat}

/-! ### Runs that do what others do -/

namespace Machine

variable {t t' : Task S} {p p' p₁ p₁' : Progress S} {m m' m₁ m₁' : Machine S}

/-- Goes on with the outcome of a step, for at most `J` steps. -/
def resume (T : Theory S) (k J : Nat) : Progress S → Action (Machine S) Status
  | .task t => drive T k (run T k) t J
  | .ended status => pure status

theorem resume_of_step (h : step T k (run T k) t m = .ok p m₁) :
    resume T k (J + 1) (.task t) m = resume T k J p m₁ := by
  rw [resume, drive_succ, h]
  cases p <;> rfl

theorem resume_succ (t : Task S) (m : Machine S) :
    resume T k (J + 1) (.task t) m = (step T k (run T k) t >>= resume T k J) m := by
  cases h : step T k (run T k) t m with
  | ok p m₁ => rw [resume_of_step h, bind_ok h]
  | error e m₁ => rw [bind_error h, resume, drive_succ, h]

theorem resume_below {k' : Nat} (hk : k ≤ k') (hJ : J ≤ J') (p : Progress S) :
    Below (resume T k J p) (resume T k' J' p) := by
  cases p with
  | task t => exact drive_below hk (run_below hk) t hJ
  | ended status => exact below_pure status

theorem ample_resume (p : Progress S) : Ample fun n => resume T n n p :=
  fun _ _ hij => resume_below hij hij p

/-- Whatever a run does from `p` within `J` steps, another one does from `p'` with
enough fuel. -/
def Simulates (T : Theory S) (k J : Nat) (p : Progress S) (m : Machine S) (p' : Progress S)
    (m' : Machine S) : Prop :=
  Matched (resume T k J p) m (fun n => resume T n n p') m'
    (fun status m₁ status' m₁' => status = status' ∧ m₁.Beside T m₁') (Stopped T)

theorem simulates_ended (h : m.Beside T m') (status : Status) :
    Simulates T k J (.ended status) m (.ended status) m' :=
  matched_pure ⟨rfl, h⟩

theorem simulates_zero (h : m.world.rows = m'.world.rows) : Simulates T k 0 (.task t) m p' m' :=
  matched_outOfFuel (ample_resume p') h

theorem Simulates.mono (h : Simulates T k J p m p' m') (hJ : J' ≤ J) :
    Simulates T k J' p m p' m' := by
  refine Matched.left (ample_resume p') h ?_ (fun _ _ _ _ h => h.2.world.rows) fun _ _ =>
    Stopped.rows
  exact (resume_below (Nat.le_refl k) hJ p).outcome m

theorem Simulates.left_step (h : Simulates T k J p m₁ p' m')
    (hstep : step T k (run T k) t m = .ok p m₁) : Simulates T k (J + 1) (.task t) m p' m' :=
  Matched.congr h (resume_of_step hstep) fun _ => rfl

/-- The first step of a run on the right. -/
theorem right_resume {σ : Type} {x : Action (Machine S) σ}
    {post : σ → Machine S → Status → Machine S → Prop} {stop : Machine S → Machine S → Prop}
    (h : Matched x m (fun n => step T n (run T n) t' >>= resume T n n) m' post stop) :
    Matched x m (fun n => resume T n n (.task t')) m' post stop := by
  refine Matched.right 1 h fun n => ?_
  refine NoFurther.congr ((Below.bind ?_ fun p => ?_).outcome m') (resume_succ t' m')
  · exact step_below (Nat.le_succ n) (run_below (Nat.le_succ n)) t'
  · exact resume_below (Nat.le_succ n) (Nat.le_refl n) p

theorem Simulates.right_step (h : Simulates T k J p m p' m₁')
    (hstep : ∀ n, step T n (run T n) t' m' = .ok p' m₁') :
    Simulates T k J p m (.task t') m' :=
  right_resume (Matched.of_ok_right hstep h)

/-- A step on both sides. -/
theorem Simulates.of_step
    (h : Matched (step T k (run T k) t) m (fun n => step T n (run T n) t') m' (Simulates T k J)
      (Stopped T)) :
    Simulates T k (J + 1) (.task t) m (.task t') m' := by
  have hample : Ample fun n => step T n (run T n) t' :=
    fun _ _ hij => step_below hij (run_below hij) t'
  have hbind := Matched.bind hample ample_resume h fun _ _ _ _ _ _ _ hsim => hsim
  exact right_resume (hbind.congr (resume_succ t m) fun _ => rfl)

theorem Simulates.of_call {g g' : Goal S} {next next' : Continuation S}
    (h : Matched (call T k (run T k) g next) m (fun n => call T n (run T n) g' next') m'
      (fun t m₁ t' m₁' => Simulates T k J (.task t) m₁ (.task t') m₁') (Stopped T)) :
    Simulates T k (J + 1) (.task (.call g next)) m (.task (.call g' next')) m' := by
  refine .of_step (Matched.bind (fun _ _ hij => call_below hij (run_below hij) g' next')
    (fun _ => ample_const (writes_pure _)) h ?_)
  exact fun _ _ _ _ _ _ _ hsim => matched_pure hsim

/-! ### Steps with no effect -/

/-- Steps for which any fuel is enough. -/
inductive Slides (T : Theory S) : Progress S → Machine S → Progress S → Machine S → Prop
  | refl (p : Progress S) (m : Machine S) : Slides T p m p m
  | head {t : Task S} {p p' : Progress S} {m m₁ m' : Machine S} :
      (∀ n, step T n (run T n) t m = .ok p m₁) → Slides T p m₁ p' m' → Slides T (.task t) m p' m'

theorem Slides.trans (h : Slides T p m p₁ m₁) (h' : Slides T p₁ m₁ p' m') :
    Slides T p m p' m' := by
  induction h with
  | refl => exact h'
  | head hstep _ ih => exact .head hstep (ih h')

theorem Slides.left (h : Slides T p m p₁ m₁) (hsim : Simulates T k J p₁ m₁ p' m') :
    Simulates T k J p m p' m' := by
  induction h with
  | refl => exact hsim
  | head hstep _ ih => exact ((ih hsim).left_step (hstep k)).mono (Nat.le_succ J)

theorem Slides.right (h : Slides T p' m' p₁' m₁') (hsim : Simulates T k J p m p₁' m₁') :
    Simulates T k J p m p' m' := by
  induction h with
  | refl => exact hsim
  | head hstep _ ih => exact (ih hsim).right_step hstep

theorem Beside.length (h : m.Beside T m') :
    m.engine.trail.length = m'.engine.trail.length :=
  congrArg Trail.length h.trail

theorem Beside.of_undone {ν : Nat} (h : (m.undone ν).Beside T (m'.undone ν))
    (hm : m.engine.trail.length ≤ ν) (hm' : m'.engine.trail.length ≤ ν) : m.Beside T m' :=
  ((m.beside_undone hm).trans h).trans (m'.beside_undone hm').symm

end Machine

/-! ### Stages -/

/-- What a run is about to do, and on which stack. -/
structure Stage (S : Vocabulary) where
  progress : Progress S
  frames : List (Frame S)

/-- A task on a stack. -/
abbrev Task.on (t : Task S) (F : List (Frame S)) : Stage S := ⟨.task t, F⟩

/-- A machine at a stage: its trail has `ν` entries, and more of them only if the
run is about to go back. -/
structure Machine.At (m : Machine S) (ν : Nat) (c : Stage S) : Prop where
  frames : m.engine.frames = c.frames
  le : ν ≤ m.engine.trail.length
  length : m.engine.trail.length = ν ∨ c.progress = .task .backtrack

theorem Machine.At.length_eq {m : Machine S} {ν : Nat} {c : Stage S} (h : m.At ν c)
    (hc : c.progress ≠ .task .backtrack) : m.engine.trail.length = ν :=
  h.length.resolve_right hc

/-- Steps lead from one stage to another one, with no effect on slots but those
that are undone by going back. -/
def Stage.Becomes (T : Theory S) (ν : Nat) (c c₁ : Stage S) : Prop :=
  ∀ m, m.At ν c → ∃ m₁, Slides T c.progress m c₁.progress m₁ ∧ m₁.At ν c₁ ∧
    (m.undone ν).Beside T (m₁.undone ν)

/-- Whatever a run does from the stage `c` within `J` steps, another one does from
the stage `c'`. -/
def Stage.Matches (T : Theory S) (k J ν : Nat) (c c' : Stage S) : Prop :=
  ∀ m m', m.At ν c → m'.At ν c' → (m.undone ν).Beside T (m'.undone ν) →
    Simulates T k J c.progress m c'.progress m'

namespace Stage

variable {ν : Nat} {c c' c₁ c₁' : Stage S}

theorem Becomes.refl (c : Stage S) : c.Becomes T ν c := fun m hm => ⟨m, .refl _ _, hm, .refl _⟩

theorem Becomes.trans (h : c.Becomes T ν c₁) (h' : c₁.Becomes T ν c') : c.Becomes T ν c' := by
  intro m hm
  obtain ⟨m₁, hslides, hm₁, hbeside⟩ := h m hm
  obtain ⟨m', hslides', hm', hbeside'⟩ := h' m₁ hm₁
  exact ⟨m', hslides.trans hslides', hm', hbeside.trans hbeside'⟩

theorem Matches.left (h : c₁.Matches T k J ν c') (hc : c.Becomes T ν c₁) :
    c.Matches T k J ν c' := by
  intro m m' hm hm' hbeside
  obtain ⟨m₁, hslides, hm₁, hbeside₁⟩ := hc m hm
  exact hslides.left (h m₁ m' hm₁ hm' (hbeside₁.symm.trans hbeside))

theorem Matches.right (h : c.Matches T k J ν c₁') (hc : c'.Becomes T ν c₁') :
    c.Matches T k J ν c' := by
  intro m m' hm hm' hbeside
  obtain ⟨m₁', hslides, hm₁', hbeside₁⟩ := hc m' hm'
  exact hslides.right (h m m₁' hm hm₁' (hbeside.trans hbeside₁))

/-- A step that leaves the slots alone. -/
theorem becomes_of_step {t : Task S} {p : Progress S} {F F₁ : List (Frame S)}
    (ht : t ≠ .backtrack)
    (h : ∀ m : Machine S, m.engine.frames = F → m.engine.trail.length = ν →
      ∃ m₁, (∀ n, step T n (run T n) t m = .ok p m₁) ∧ m₁.engine.frames = F₁ ∧ m.Beside T m₁) :
    (t.on F).Becomes T ν ⟨p, F₁⟩ := by
  intro m hm
  have hν : m.engine.trail.length = ν := hm.length_eq (by simpa using ht)
  obtain ⟨m₁, hstep, hframes, hbeside⟩ := h m hm.frames hν
  have hν₁ : m₁.engine.trail.length = ν := hbeside.length.symm.trans hν
  exact ⟨m₁, .head hstep (.refl _ _), ⟨hframes, hν₁.ge, .inl hν₁⟩, hbeside.undone ν⟩

end Stage

/-! ### Stacks, tasks and goals -/

/-- Going back on one stack and on another one. -/
def Stack.Matches (T : Theory S) (k J ν : Nat) (F F' : List (Frame S)) : Prop :=
  (Task.backtrack.on F).Matches T k J ν (Task.backtrack.on F')

/-- Tasks from which runs go on alike on all stacks that are built upon `F` and
`F'`. -/
def Task.Matches (T : Theory S) (k J ν : Nat) (F F' : List (Frame S)) (t t' : Task S) : Prop :=
  ∀ i ≤ J, ∀ μ G G', ν ≤ μ → F <:+ G → F' <:+ G' → Stack.Matches T k i μ G G' →
    (t.on G).Matches T k i μ (t'.on G')

/-- Continuations and stacks from which runs go on and back alike. -/
structure Continuation.Matches (T : Theory S) (k J ν : Nat) (F F' : List (Frame S))
    (next next' : Continuation S) : Prop where
  back : Stack.Matches T k J ν F F'
  on : Task.Matches T k J ν F F' (.proceed next) (.proceed next')

/-- Goals that runs go on from alike, if they do so after them. -/
def Goal.Matches (T : Theory S) (k J : Nat) (g g' : Goal S) : Prop :=
  ∀ i ≤ J, ∀ ν F F' next next', Continuation.Matches T k i ν F F' next next' →
    ((Task.call g next).on F).Matches T k i ν ((Task.call g' next').on F')

namespace Machine

/-- Machines beside each other on the stacks `F` and `F'`, with at least `ν`
entries on their trails. -/
structure Paired (T : Theory S) (ν : Nat) (F F' : List (Frame S)) (m m' : Machine S) : Prop where
  frames : m.engine.frames = F
  frames' : m'.engine.frames = F'
  le : ν ≤ m.engine.trail.length
  beside : m.Beside T m'

theorem At.paired {m m' : Machine S} {ν : Nat} {c c' : Stage S} (h : m.At ν c) (h' : m'.At ν c')
    (hc : c.progress ≠ .task .backtrack) (hc' : c'.progress ≠ .task .backtrack)
    (hbeside : (m.undone ν).Beside T (m'.undone ν)) : Paired T ν c.frames c'.frames m m' :=
  ⟨h.frames, h'.frames, h.le, hbeside.of_undone (h.length_eq hc).le (h'.length_eq hc').le⟩

end Machine

section Matches

variable {ν μ : Nat} {F F' G G' : List (Frame S)} {t t' t₁ t₁' : Task S}
  {next next' : Continuation S} {g g' : Goal S} {m m' m₁ m₁' : Machine S}

theorem Stack.Matches.mono (h : Stack.Matches T k J ν F F') (hJ : J' ≤ J) (hν : ν ≤ μ) :
    Stack.Matches T k J' μ F F' := by
  intro m m' hm hm' hbeside
  refine (h m m' ⟨hm.frames, hν.trans hm.le, .inr rfl⟩ ⟨hm'.frames, hν.trans hm'.le, .inr rfl⟩
    ?_).mono hJ
  exact ((m.beside_undone_undone hν).trans (hbeside.undone ν)).trans
    (m'.beside_undone_undone hν).symm

theorem Task.Matches.mono (h : Task.Matches T k J ν F F' t t') (hJ : J' ≤ J) (hν : ν ≤ μ)
    (hF : F <:+ G) (hF' : F' <:+ G') : Task.Matches T k J' μ G G' t t' :=
  fun i hi _ _ _ hμ hG hG' => h i (hi.trans hJ) _ _ _ (hν.trans hμ) (hF.trans hG) (hF'.trans hG')

theorem Task.Matches.left (h : Task.Matches T k J ν F F' t₁ t')
    (ht : ∀ μ G, F <:+ G → (t.on G).Becomes T μ (t₁.on G)) : Task.Matches T k J ν F F' t t' :=
  fun i hi μ G G' hμ hG hG' hback => (h i hi μ G G' hμ hG hG' hback).left (ht μ G hG)

theorem Task.Matches.right (h : Task.Matches T k J ν F F' t t₁')
    (ht : ∀ μ G, F' <:+ G → (t'.on G).Becomes T μ (t₁'.on G)) : Task.Matches T k J ν F F' t t' :=
  fun i hi μ G G' hμ hG hG' hback => (h i hi μ G G' hμ hG hG' hback).right (ht μ G' hG')

/-- Tasks that match do so on the two stacks themselves. -/
theorem Task.Matches.stage (h : Task.Matches T k J ν F F' t t')
    (hback : Stack.Matches T k J ν F F') : (t.on F).Matches T k J ν (t'.on F') :=
  h J (Nat.le_refl J) ν F F' (Nat.le_refl ν) (List.suffix_refl F) (List.suffix_refl F') hback

theorem Continuation.Matches.mono (h : next.Matches T k J ν F F' next') (hJ : J' ≤ J)
    (hν : ν ≤ μ) : next.Matches T k J' μ F F' next' :=
  ⟨h.back.mono hJ hν, h.on.mono hJ hν (List.suffix_refl _) (List.suffix_refl _)⟩

/-- Frames are put on both stacks. -/
theorem Continuation.Matches.on_top (h : next.Matches T k J ν F F' next') (hF : F <:+ G)
    (hF' : F' <:+ G') (hback : Stack.Matches T k J ν G G') : next.Matches T k J ν G G' next' :=
  ⟨hback, h.on.mono (Nat.le_refl _) (Nat.le_refl _) hF hF'⟩

theorem Goal.Matches.mono (h : g.Matches T k J g') (hJ : J' ≤ J) : g.Matches T k J' g' :=
  fun i hi => h i (hi.trans hJ)

theorem Goal.Matches.task (h : g.Matches T k J g')
    (hnext : Task.Matches T k J ν F F' (.proceed next) (.proceed next')) :
    Task.Matches T k J ν F F' (.call g next) (.call g' next') :=
  fun i hi _ _ _ hμ hG hG' hback => h i hi _ _ _ _ _ ⟨hback, hnext.mono hi hμ hG hG'⟩

namespace Machine

/-! ### Machines on both sides -/

namespace Paired

variable (h : Paired T ν F F' m m')

include h

theorem length : m.engine.trail.length = m'.engine.trail.length := h.beside.length

theorem here : Paired T m.engine.trail.length F F' m m' :=
  ⟨h.frames, h.frames', Nat.le_refl _, h.beside⟩

theorem apace (h₁ : Apace T m m' m₁ m₁') : Paired T ν F F' m₁ m₁' :=
  ⟨h₁.frames.trans h.frames, h₁.frames'.trans h.frames', h.le.trans h₁.later, h₁.beside⟩

theorem counted (c : Counter) (i i' : Nat) : Paired T ν F F' (m.counted c i) (m'.counted c i') :=
  ⟨h.frames, h.frames', h.le,
    ((m.beside_counted c i).symm.trans h.beside).trans (m'.beside_counted c i')⟩

theorem withFrames (G G' : List (Frame S)) :
    Paired T ν G G' (m.withFrames G) (m'.withFrames G') :=
  ⟨rfl, rfl, h.le, ((m.beside_withFrames G).symm.trans h.beside).trans (m'.beside_withFrames G')⟩

theorem noted {r r' : Record} (hr : r.row? = none) (hr' : r'.row? = none) :
    Paired T ν F F' (m.noted r) (m'.noted r') :=
  ⟨h.frames, h.frames', h.le,
    ((m.beside_noted hr).symm.trans h.beside).trans (m'.beside_noted hr')⟩

theorem pushed (a a' : Activation S) {mark mark' : Nat} (hmark : mark = μ) (hmark' : mark' = μ) :
    Paired T ν (⟨a, μ⟩ :: F) (⟨a', μ⟩ :: F') (m.pushed mark a) (m'.pushed mark' a') := by
  subst hmark hmark'
  refine ⟨?_, ?_, h.le, ?_⟩
  · rw [pushed_frames, h.frames]
  · rw [pushed_frames, h.frames']
  · exact ((m.beside_pushed _ a).symm.trans h.beside).trans (m'.beside_pushed _ a')

theorem retired (G G' : List (Frame S)) : Paired T ν G G' (m.retired G) (m'.retired G') :=
  ⟨rfl, rfl, h.le, ((m.beside_retired G).symm.trans h.beside).trans (m'.beside_retired G')⟩

theorem stepped : Paired T ν F F' m.stepped m'.stepped :=
  ⟨h.frames, h.frames', h.le, (m.beside_stepped.symm.trans h.beside).trans m'.beside_stepped⟩

/-- An answer is kept on both sides. -/
theorem answered (answer : S.Term) :
    Paired T ν F F' { m with answers := answer :: m.answers }
      { m' with answers := answer :: m'.answers } := by
  refine ⟨h.frames, h.frames', h.le, ?_⟩
  rw [h.beside.answers]
  exact h.beside.with_answers _

end Paired

theorem Paired.popped {a a' : Activation S} (h : Paired T ν (⟨a, ν⟩ :: F) (⟨a', ν⟩ :: F') m m') :
    Paired T ν F F' (m.popped ⟨a, ν⟩ F) (m'.popped ⟨a', ν⟩ F') := by
  refine ⟨rfl, rfl, ?_, ?_⟩
  · rw [length_popped]
    exact Nat.le_min.mpr ⟨h.le, Nat.le_refl _⟩
  · have hundone := h.beside.undone ν
    exact ((m.beside_popped ⟨a, ν⟩ F).symm.trans hundone).trans (m'.beside_popped ⟨a', ν⟩ F')

end Machine

theorem Stack.Matches.simulates (h : Stack.Matches T k J ν F F') (hm : Paired T ν F F' m m') :
    Simulates T k J (.task .backtrack) m (.task .backtrack) m' :=
  h m m' ⟨hm.frames, hm.le, .inr rfl⟩ ⟨hm.frames', hm.le.trans hm.length.le, .inr rfl⟩
    (hm.beside.undone ν)

theorem Stage.Matches.simulates (h : (t.on F).Matches T k J ν (t'.on F'))
    (hm : Paired T μ F F' m m') (hν : m.engine.trail.length = ν) :
    Simulates T k J (.task t) m (.task t') m' := by
  have hν' : m'.engine.trail.length = ν := hm.length.symm.trans hν
  exact h m m' ⟨hm.frames, hν.ge, .inl hν⟩ ⟨hm.frames', hν'.ge, .inl hν'⟩ (hm.beside.undone _)

theorem Task.Matches.simulates (h : Task.Matches T k J ν F F' t t')
    (hback : Stack.Matches T k J ν F F') (hm : Paired T ν F F' m m') :
    Simulates T k J (.task t) m (.task t') m' := by
  have hlater := h.mono (Nat.le_refl J) hm.le (List.suffix_refl F) (List.suffix_refl F')
  exact (hlater.stage (hback.mono (Nat.le_refl J) hm.le)).simulates hm rfl

theorem Continuation.Matches.proceed (h : next.Matches T k J ν F F' next')
    (hm : Paired T ν F F' m m') :
    Simulates T k J (.task (.proceed next)) m (.task (.proceed next')) m' :=
  h.on.simulates h.back hm

theorem Continuation.Matches.verdict (h : next.Matches T k J ν F F' next')
    (hm : Paired T ν F F' m m') (b : Bool) :
    Simulates T k J (.task (.ofVerdict b next)) m (.task (.ofVerdict b next')) m' := by
  cases b with
  | true => exact h.proceed hm
  | false => exact h.back.simulates hm

theorem Goal.Matches.simulates (h : g.Matches T k J g') (hnext : next.Matches T k J ν F F' next')
    (hm : Paired T ν F F' m m') :
    Simulates T k J (.task (.call g next)) m (.task (.call g' next')) m' :=
  (h.task hnext.on).simulates hnext.back hm

end Matches

end GoalSearch
