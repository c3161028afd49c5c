/-
Two runs in lockstep.

Two runs of the same goal, begun on machines abreast, take the same steps.  Their
stacks may stand on different frames, so heights and marks differ; above the base
of the run each frame has a twin on the other side, and each height and each mark
is as far above the base as that of its twin.

* `Continuation.Twin`, `Frame.Twin`, `Task.Twin` — what corresponds to what;
* `Machine.Twins` — two runs between two steps;
* `Machine.step_twins` — a step keeps two runs in lockstep;
* `Machine.drive_twins`, `Machine.run_paced` — and so do all of its steps.

Design notes: what is to be done at the very end of a run is not looked into.
Continuations there are related by `E`, and whoever compares two runs says what
becomes of them (`Machine.Closes`), as the ways to run a goal differ in
nothing else.  A height that is not below the base of its run cannot be told
from outside, so no invariant on the frames below is needed.
-/
import GoalSearch.Proofs.Abreast

namespace GoalSearch

open GoalSearch.Action

variable {S : Vocabulary} {T : Theory S} {α : Type}

/-! ### What corresponds to what -/

section Twin

variable (C : Comparison T) (E : Continuation S → Continuation S → Prop) (l r : Machine S)

/-- Continuations that do the same up to the end of their runs, with heights
counted from the bases of `l` and `r`. -/
inductive Continuation.Twin : Continuation S → Continuation S → Prop
  | closing {k k' : Continuation S} : E k k' → Twin k k'
  | sequence {rest : List (Goal S)} {k k' : Continuation S} :
      (∀ g ∈ rest, g.Heeds C.views C.stores) → Twin k k' →
      Twin (.sequence rest k) (.sequence rest k')
  | call {g : Goal S} {k k' : Continuation S} :
      g.Heeds C.views C.stores → Twin k k' → Twin (.call g k) (.call g k')
  | commit {i : Nat} {k k' : Continuation S} :
      Twin k k' → Twin (.commit (l.base.length + i) k) (.commit (r.base.length + i) k')

/-- Activations that do the same up to the end of their runs. -/
inductive Activation.Twin : Activation S → Activation S → Prop
  | step : Twin .step .step
  | candidates {draw : Nat → Quiet S (Option (Program S (Goal S) .verdict))} {drawn : Nat}
      {validate : Program S (Goal S) .verdict} {k k' : Continuation S} :
      (∀ i, (draw i).Heeds C.stores) →
      (∀ i p, (draw i).Yields (some p) → p.Heeds C.views C.stores (Goal.Heeds C.views C.stores)) →
      validate.Heeds C.views C.stores (Goal.Heeds C.views C.stores) →
      k.Twin C E l r k' →
      Twin (.candidates draw drawn validate k) (.candidates draw drawn validate k')
  | branches {rest : List (Goal S)} {k k' : Continuation S} :
      (∀ g ∈ rest, g.Heeds C.views C.stores) → k.Twin C E l r k' →
      Twin (.branches rest k) (.branches rest k')
  | search {handler : Quiet S (Program S (Goal S) .choices)}
      {choices : Option ((Nat → Program S (Goal S) .attempt) × Nat)} {k k' : Continuation S} :
      (Goal.search handler).Heeds C.views C.stores →
      (∀ c, choices = some c → ∀ i, (c.1 i).Heeds C.views C.stores (Goal.Heeds C.views C.stores)) →
      k.Twin C E l r k' → Twin (.search handler choices k) (.search handler choices k')

/-- Frames that do the same and go back as far above the start of their runs. -/
structure Frame.Twin (f f' : Frame S) : Prop where
  activation : f.activation.Twin C E l r f'.activation
  mark : ∃ i, f.mark = l.engine.trail.length + i ∧ f'.mark = r.engine.trail.length + i

/-- Tasks that do the same up to the end of their runs. -/
inductive Task.Twin : Task S → Task S → Prop
  | call {g : Goal S} {k k' : Continuation S} :
      g.Heeds C.views C.stores → k.Twin C E l r k' → Twin (.call g k) (.call g k')
  | proceed {k k' : Continuation S} : k.Twin C E l r k' → Twin (.proceed k) (.proceed k')
  | retry : Twin .retry .retry
  | backtrack : Twin .backtrack .backtrack

/-- Outcomes of steps that do the same up to the end of their runs. -/
inductive Progress.Twin : Progress S → Progress S → Prop
  | task {t t' : Task S} : t.Twin C E l r t' → Twin (.task t) (.task t')
  | ended {status : Status} :
      (status = .success → E .finish .finish) → Twin (.ended status) (.ended status)

/-- Two runs between two steps, begun on `l` and `r` and about to do what `p`
and `p'` say. -/
def Machine.Twins (A : List S.Term → List S.Term → Prop) (p : Progress S) (m : Machine S)
    (p' : Progress S) (m' : Machine S) : Prop :=
  ∃ upper upper', Machine.Abreast C A l r (upper ++ l.base) (upper' ++ r.base) m m' ∧
    List.Forall₂ (Frame.Twin C E l r) upper upper' ∧ p.Twin C E l r p'

end Twin

variable {C : Comparison T} {E : Continuation S → Continuation S → Prop} {l r m m' : Machine S}
  {A : List S.Term → List S.Term → Prop} {k k' : Continuation S} {upper upper' : List (Frame S)}
  {f f' : Frame S}

theorem Task.twin_sequence {rest : List (Goal S)}
    (hrest : ∀ g ∈ rest, g.Heeds C.views C.stores) (h : k.Twin C E l r k') :
    (Task.sequence rest k).Twin C E l r (Task.sequence rest k') := by
  match rest with
  | [] => exact .proceed h
  | [g] => exact .call (hrest g (by simp)) h
  | g :: g' :: rest =>
    exact .call (hrest g (by simp)) (.sequence (fun x hx => hrest x (List.mem_cons_of_mem _ hx)) h)

theorem Task.twin_ofVerdict (b : Bool) (h : k.Twin C E l r k') :
    (Task.ofVerdict b k).Twin C E l r (Task.ofVerdict b k') := by
  cases b with
  | true => exact .proceed h
  | false => exact .backtrack

namespace Machine

/-- Above the bases the stacks stand on equally many frames. -/
theorem Abreast.depth_eq (h : Abreast C A l r (upper ++ l.base) (upper' ++ r.base) m m')
    (hframes : List.Forall₂ (Frame.Twin C E l r) upper upper') :
    m.engine.depth = l.base.length + upper.length ∧
      m'.engine.depth = r.base.length + upper.length := by
  rw [Engine.depth, Engine.depth, h.frames, h.frames', List.length_append, List.length_append,
    hframes.length_eq]
  omega

section Step

variable {n : Nat} {run : Runner S} (hT : T.Heeds C.stores) (hrun : run.Paced C)

/-! ### Going back -/

theorem exhausted_twins (h : Abreast C A l r (f :: upper ++ l.base) (f' :: upper' ++ r.base) m m')
    (hframes : List.Forall₂ (Frame.Twin C E l r) (f :: upper) (f' :: upper')) :
    Parallel exhausted m exhausted m' (fun t m₁ t' m₁' =>
      Twins C E l r A (.task t) m₁ (.task t') m₁') (Halted C l r) := by
  cases hframes with
  | cons hf hrest =>
    obtain ⟨i, hmark, hmark'⟩ := hf.mark
    rw [exhausted, parallel_bind_of_ok (pop_apply m h.frames) (pop_apply m' h.frames')]
    exact ⟨upper, upper', h.popped hmark hmark', hrest, .task .backtrack⟩

theorem backtrack_twins (h : Abreast C A l r (upper ++ l.base) (upper' ++ r.base) m m')
    (hframes : List.Forall₂ (Frame.Twin C E l r) upper upper') :
    Parallel backtrack m backtrack m' (Twins C E l r A) (Halted C l r) := by
  have hundone : ∀ i, Parallel
      (undoTo (l.engine.trail.length + i) >>= fun _ => pure (Progress.task .retry)) m
      (undoTo (r.engine.trail.length + i) >>= fun _ => pure (Progress.task .retry)) m'
      (Twins C E l r A) (Halted C l r) := by
    intro i
    rw [parallel_bind_of_ok (undoTo_apply m _) (undoTo_apply m' _)]
    exact ⟨upper, upper', h.undone i, hframes, .task .retry⟩
  rw [backtrack, parallel_bind_of_ok (get_apply m) (get_apply m'), h.frames, h.frames']
  cases hframes with
  | nil => exact hundone 0
  | cons hf _ =>
    obtain ⟨i, hmark, hmark'⟩ := hf.mark
    have hback := hundone i
    rw [← hmark, ← hmark'] at hback
    exact hback

/-! ### Calling goals -/

section Call

include hT hrun

theorem callPredicate_twins (h : Abreast C A l r (upper ++ l.base) (upper' ++ r.base) m m')
    (hframes : List.Forall₂ (Frame.Twin C E l r) upper upper') {p : Predicate S (Goal S)}
    (hp : (Goal.call p).Heeds C.views C.stores) (hk : k.Twin C E l r k') :
    Parallel (callPredicate T n run p k) m (callPredicate T n run p k') m' (fun t m₁ t' m₁' =>
      Twins C E l r A (.task t) m₁ (.task t') m₁') (Halted C l r) := by
  rw [callPredicate, callPredicate,
    parallel_bind_of_ok (trailLength_apply m) (trailLength_apply m')]
  cases hp with
  | nondeterministic hprepare hvalidate =>
    have hmark := h.trail_above
    refine (hprepare.paced hT hrun n m m' h).bind ?_
    rintro draw m₁ _ m₁' hdraw - ⟨rfl, h₁⟩
    obtain ⟨hdraw, hcandidate⟩ := hprepare.value hdraw
    rw [parallel_bind_of_ok (push_apply _ _ _) (push_apply _ _ _)]
    refine ⟨_ :: upper, _ :: upper', h₁.pushed _ _ _ _, .cons ⟨?_, hmark⟩ hframes, .task .retry⟩
    exact .candidates hdraw hcandidate hvalidate hk
  | semideterministic hprepare hvalidate =>
    rw [parallel_bind_of_ok (push_apply _ _ _) (push_apply _ _ _)]
    refine (hprepare.paced hT hrun n _ _ (h.pushed _ _ _ _)).bind ?_
    rintro _ m₁ _ m₁' - - ⟨-, h₁⟩
    rw [parallel_bind_of_ok (retire_apply _ h₁.frames) (retire_apply _ h₁.frames')]
    refine (hvalidate.paced hT hrun n _ _ h₁.retired).bind ?_
    rintro b m₂ _ m₂' - - ⟨rfl, h₂⟩
    exact ⟨upper, upper', h₂, hframes, .task (Task.twin_ofVerdict b hk)⟩
  | deterministic hprepare =>
    rw [parallel_bind_of_ok (push_apply _ _ _) (push_apply _ _ _)]
    refine (hprepare.paced hT hrun n _ _ (h.pushed _ _ _ _)).bind ?_
    rintro _ m₁ _ m₁' - - ⟨-, h₁⟩
    rw [parallel_bind_of_ok (retire_apply _ h₁.frames) (retire_apply _ h₁.frames')]
    exact ⟨upper, upper', h₁.retired, hframes, .task (.proceed hk)⟩

omit hT hrun in
/-- A loop asks its test on both sides, and goes on behind itself or behind its body. -/
theorem loop_twins {test : View → Quiet S Bool} {body : View → Quiet S (Goal S)}
    (h : Abreast C A l r (upper ++ l.base) (upper' ++ r.base) m m')
    (hframes : List.Forall₂ (Frame.Twin C E l r) upper upper')
    (hg : (Goal.loop test body).Heeds C.views C.stores) (hk : k.Twin C E l r k') :
    Parallel (call T n run (.loop test body) k) m (call T n run (.loop test body) k') m'
      (fun t m₁ t' m₁' => Twins C E l r A (.task t) m₁ (.task t') m₁') (Halted C l r) := by
  cases hg with
  | loop heq htest hbody hgoal =>
  unfold call
  rw [parallel_bind_of_ok (count_apply m _) (count_apply m' _)]
  have h₁ := h.counted .calls
  rw [parallel_bind_of_ok (enterStep_apply _) (enterStep_apply _),
    parallel_bind_of_ok (get_apply _) (get_apply _), ← (heq _ _ h₁.stepped.view).1]
  refine (quietly_parallel (htest _) h₁.stepped).bind ?_
  rintro b m₂ _ m₂' - - ⟨rfl, h₂, -⟩
  cases b with
  | false => exact ⟨upper, upper', h₂, hframes, .task (.proceed hk)⟩
  | true =>
    rw [if_pos rfl, if_pos rfl, parallel_bind_of_ok (get_apply _) (get_apply _),
      ← (heq _ _ h₂.view).2]
    refine (quietly_parallel (hbody _) h₂).bind ?_
    rintro g m₃ _ m₃' - - ⟨rfl, h₃, hg⟩
    exact ⟨upper, upper', h₃, hframes,
      .task (.call (hgoal _ g hg) (.call (.loop heq htest hbody hgoal) hk))⟩

/-- A search leaves the frame of its level on top of both sides, or is decided at once. -/
theorem search_twins {handler : Quiet S (Program S (Goal S) .choices)}
    (h : Abreast C A l r (upper ++ l.base) (upper' ++ r.base) m m')
    (hframes : List.Forall₂ (Frame.Twin C E l r) upper upper')
    (hg : (Goal.search handler).Heeds C.views C.stores) (hk : k.Twin C E l r k') :
    Parallel (call T n run (.search handler) k) m (call T n run (.search handler) k') m'
      (fun t m₁ t' m₁' => Twins C E l r A (.task t) m₁ (.task t') m₁') (Halted C l r) := by
  cases hg with
  | search hhandler hlevel =>
  unfold call
  rw [parallel_bind_of_ok (count_apply m _) (count_apply m' _)]
  have h₁ := h.counted .calls
  refine (quietly_parallel hhandler h₁).bind ?_
  rintro level m₂ _ m₂' - - ⟨rfl, h₂, hyields⟩
  rw [parallel_bind_of_ok (pushHere_apply _ _) (pushHere_apply _ _)]
  have hmark := h₂.trail_above
  refine ((hlevel level hyields).paced hT hrun n _ _ (h₂.pushed _ _ _ _)).bind ?_
  rintro made m₃ _ m₃' hmade - ⟨rfl, h₃⟩
  have hheeds := (hlevel level hyields).value hmade
  cases made with
  | none =>
    dsimp only
    rw [parallel_bind_of_ok (retire_apply _ h₃.frames) (retire_apply _ h₃.frames')]
    exact ⟨upper, upper', h₃.retired, hframes, .task (.proceed hk)⟩
  | some make =>
    -- the frame that was pushed is on top again, so its height finds it
    dsimp only
    have hheight : m₃.engine.depth = (upper ++ l.base).length + 1 := by
      rw [Engine.depth, h₃.frames]
      rfl
    have hheight' : m₃'.engine.depth = (upper' ++ r.base).length + 1 := by
      rw [Engine.depth, h₃.frames']
      rfl
    rw [parallel_bind_of_ok (depth_apply _) (depth_apply _),
      parallel_bind_of_ok (updateAt_apply _ h₃.frames hheight _)
        (updateAt_apply _ h₃.frames' hheight' _)]
    refine ⟨_ :: upper, _ :: upper', h₃.withFrames _ _ fun hexact => ?_,
      .cons ⟨.search (.search hhandler hlevel) ?_ hk, hmark⟩ hframes, .task .retry⟩
    · exact h₃.depths hexact
    · rintro _ ⟨rfl⟩ i
      exact hheeds make rfl i

theorem call_twins (h : Abreast C A l r (upper ++ l.base) (upper' ++ r.base) m m')
    (hframes : List.Forall₂ (Frame.Twin C E l r) upper upper') {g : Goal S}
    (hg : g.Heeds C.views C.stores) (hk : k.Twin C E l r k') :
    Parallel (call T n run g k) m (call T n run g k') m' (fun t m₁ t' m₁' =>
      Twins C E l r A (.task t) m₁ (.task t') m₁') (Halted C l r) := by
  unfold call
  rw [parallel_bind_of_ok (count_apply m _) (count_apply m' _)]
  have h₁ := h.counted .calls
  cases hg with
  | succeed => exact ⟨upper, upper', h₁, hframes, .task (.proceed hk)⟩
  | fail => exact ⟨upper, upper', h₁, hframes, .task .backtrack⟩
  | nondeterministic hp hv =>
    exact callPredicate_twins hT hrun h₁ hframes (.nondeterministic hp hv) hk
  | semideterministic hp hv =>
    exact callPredicate_twins hT hrun h₁ hframes (.semideterministic hp hv) hk
  | deterministic hp => exact callPredicate_twins hT hrun h₁ hframes (.deterministic hp) hk
  | sequence hgs => exact ⟨upper, upper', h₁, hframes, .task (Task.twin_sequence hgs hk)⟩
  | disjunction hgs =>
    rw [parallel_bind_of_ok (pushHere_apply _ _) (pushHere_apply _ _)]
    exact ⟨_ :: upper, _ :: upper', h₁.pushed _ _ _ _,
      .cons ⟨.branches hgs hk, h₁.trail_above⟩ hframes, .task .retry⟩
  | once hg =>
    rw [parallel_bind_of_ok (enterStep_apply _) (enterStep_apply _),
      parallel_bind_of_ok (depth_apply _) (depth_apply _)]
    have h₂ := h₁.stepped
    obtain ⟨hdepth, hdepth'⟩ := h₂.depth_eq hframes
    rw [hdepth, hdepth']
    exact ⟨upper, upper', h₂, hframes, .task (.call hg (.commit hk))⟩
  | notNot hg =>
    rw [parallel_bind_of_ok (pushHere_apply _ _) (pushHere_apply _ _)]
    have h₂ := h₁.pushed (m.counted .calls 1).engine.trail.length
      (m'.counted .calls 1).engine.trail.length .step .step
    -- the nested run begins a comparison of its own
    have hnested := hrun _ .finish A _ _ hg .finish (fun hk => absurd rfl hk) h₂.here
    refine (hnested.stops fun _ _ h₃ => h₂.halted.since h₃).bind ?_
    rintro status m₃ _ m₃' - - ⟨rfl, h₃⟩
    have h₄ := h₂.since h₃
    rw [parallel_bind_of_ok (retire_apply _ h₄.frames) (retire_apply _ h₄.frames')]
    exact ⟨upper, upper', h₄.retired, hframes, .task (Task.twin_ofVerdict _ hk)⟩
  | @loop test body heq htest hbody hgoal =>
    have hloop : Parallel (call T n run (.loop test body) k) m
        (call T n run (.loop test body) k') m' _ _ :=
      loop_twins h hframes (.loop heq htest hbody hgoal) hk
    exact (parallel_bind_of_ok (count_apply m _) (count_apply m' _)).mp hloop
  | @search handler hhandler hlevel =>
    have hsearch : Parallel (call T n run (.search handler) k) m
        (call T n run (.search handler) k') m' _ _ :=
      search_twins hT hrun h hframes (.search hhandler hlevel) hk
    exact (parallel_bind_of_ok (count_apply m _) (count_apply m' _)).mp hsearch

end Call

/-! ### Going on -/

/-- Keeping an answer: both sides keep the same one, whatever they do next. -/
theorem collect_parallel {F F' : List (Frame S)} (hA : Extensible A)
    (h : Abreast C A l r F F' m m') (t : S.Term) (k k' : Continuation S) :
    Parallel (proceed T n (.collect t k)) m (proceed T n (.collect t k')) m'
      (fun p m₁ p' m₁' => p = .task (.proceed k) ∧ p' = .task (.proceed k') ∧
        Abreast C A l r F F' m₁ m₁') (Halted C l r) := by
  unfold proceed
  rw [parallel_bind_of_ok (count_apply m _) (count_apply m' _),
    parallel_bind_of_ok (pushHere_apply _ _) (pushHere_apply _ _)]
  have h₁ := (h.counted .calls).pushed (m.counted .calls 1).engine.trail.length
    (m'.counted .calls 1).engine.trail.length .step .step
  refine (onWorld_parallel (Comparison.resolve_tandem n t)
    (World.resolve_keeps_store trivial t) h₁).bind ?_
  rintro a m₂ _ m₂' - - ⟨rfl, h₂, -⟩
  rw [parallel_bind_of_ok (modify_apply _ _) (modify_apply _ _)]
  have h₃ := h₂.with_answers (hA a _ _ h₂.answers)
  refine (parallel_bind_of_ok (retire_apply _ h₃.frames) (retire_apply _ h₃.frames')).mpr ?_
  exact ⟨rfl, rfl, h₃.retired⟩

/-- Going on after a success, unless a run has come to its end. -/
theorem proceed_twins (h : Abreast C A l r (upper ++ l.base) (upper' ++ r.base) m m')
    (hframes : List.Forall₂ (Frame.Twin C E l r) upper upper') (hk : k.Twin C E l r k')
    (hclosing : E k k' → Parallel (proceed T n k) m (proceed T n k') m' (Twins C E l r A)
      (Halted C l r)) :
    Parallel (proceed T n k) m (proceed T n k') m' (Twins C E l r A) (Halted C l r) := by
  cases hk with
  | closing hE => exact hclosing hE
  | sequence hrest hk => exact ⟨upper, upper', h, hframes, .task (Task.twin_sequence hrest hk)⟩
  | call hg hk => exact ⟨upper, upper', h, hframes, .task (.call hg hk)⟩
  | @commit i k k' hk =>
    -- the heights are equally far above the bases, so as many frames go
    obtain ⟨hdepth, hdepth'⟩ := h.depth_eq hframes
    unfold proceed
    rw [parallel_bind_of_ok (commit_apply m _) (commit_apply m' _)]
    have hdropped : m.engine.depth - (l.base.length + i) = upper.length - i := by omega
    have hdropped' : m'.engine.depth - (r.base.length + i) = upper.length - i := by omega
    have hcommitted := h.committed hdropped hdropped'
    have hle : upper.length - i ≤ upper.length := Nat.sub_le _ _
    have hle' : upper.length - i ≤ upper'.length := hframes.length_eq ▸ hle
    rw [List.drop_append_of_le_length hle, List.drop_append_of_le_length hle'] at hcommitted
    exact ⟨_, _, hcommitted, List.forall₂_drop _ hframes, .task (.proceed hk)⟩

/-! ### Trying alternatives -/

section Retry

section Frame

variable {mark mark' height height' : Nat}
  (hmark : ∃ i, mark = l.engine.trail.length + i ∧ mark' = r.engine.trail.length + i)
  (hrest : List.Forall₂ (Frame.Twin C E l r) upper upper')
  (hheight : height = (upper ++ l.base).length + 1)
  (hheight' : height' = (upper' ++ r.base).length + 1)

include hmark hrest

/-- A frame with nothing left to try is given up. -/
theorem giveUp_twins {a a' : Activation S}
    (h : Abreast C A l r (⟨a, mark⟩ :: upper ++ l.base) (⟨a', mark'⟩ :: upper' ++ r.base) m m')
    (ha : a.Twin C E l r a') :
    Parallel (exhausted >>= fun t => pure (Progress.task t)) m
      (exhausted >>= fun t => pure (Progress.task t)) m' (Twins C E l r A) (Halted C l r) := by
  refine (exhausted_twins h (.cons ⟨ha, hmark⟩ hrest)).bind ?_
  exact fun t m₁ t' m₁' _ _ h₁ => h₁

include hT hrun hheight hheight'

/-- Trying the next candidate: the frame is changed before the candidate is tried,
and stays where it fails. -/
theorem retryCandidates_twins {draw : Nat → Quiet S (Option (Program S (Goal S) .verdict))}
    {drawn : Nat} {validate : Program S (Goal S) .verdict}
    (h : Abreast C A l r (⟨.candidates draw drawn validate k, mark⟩ :: upper ++ l.base)
      (⟨.candidates draw drawn validate k', mark'⟩ :: upper' ++ r.base) m m')
    (hdraw : ∀ i, (draw i).Heeds C.stores)
    (hcandidate : ∀ i p, (draw i).Yields (some p) →
      p.Heeds C.views C.stores (Goal.Heeds C.views C.stores))
    (hvalidate : validate.Heeds C.views C.stores (Goal.Heeds C.views C.stores))
    (hk : k.Twin C E l r k') :
    Parallel (retryActivation T n run height (.candidates draw drawn validate k)) m
      (retryActivation T n run height' (.candidates draw drawn validate k')) m'
      (Twins C E l r A) (Halted C l r) := by
  unfold retryActivation
  refine (quietly_parallel (hdraw drawn) h).bind ?_
  rintro candidate m₁ _ m₁' - - ⟨rfl, h₁, hyields⟩
  cases candidate with
  | none => exact giveUp_twins hmark hrest h₁ (.candidates hdraw hcandidate hvalidate hk)
  | some candidate =>
    dsimp only
    rw [parallel_bind_of_ok (updateAt_apply _ h₁.frames hheight _)
      (updateAt_apply _ h₁.frames' hheight' _)]
    have h₂ := h₁.withFrames (⟨.candidates draw (drawn + 1) validate k, mark⟩ :: upper ++ l.base)
      (⟨.candidates draw (drawn + 1) validate k', mark'⟩ :: upper' ++ r.base) h₁.depths
    have hframes₂ : List.Forall₂ (Frame.Twin C E l r)
        (⟨.candidates draw (drawn + 1) validate k, mark⟩ :: upper)
        (⟨.candidates draw (drawn + 1) validate k', mark'⟩ :: upper') :=
      .cons ⟨.candidates hdraw hcandidate hvalidate hk, hmark⟩ hrest
    refine ((hcandidate _ _ hyields).paced hT hrun n _ _ h₂).bind ?_
    rintro applies m₃ _ m₃' - - ⟨rfl, h₃⟩
    split
    · refine (hvalidate.paced hT hrun n _ _ h₃).bind ?_
      rintro valid m₄ _ m₄' - - ⟨rfl, h₄⟩
      exact ⟨_, _, h₄, hframes₂, .task (Task.twin_ofVerdict valid hk)⟩
    · exact ⟨_, _, h₃, hframes₂, .task .backtrack⟩

/-- Making the next choice of a search: while the choice is made the frame has
none, and it gets them back afterwards. -/
theorem retrySearch_twins {handler : Quiet S (Program S (Goal S) .choices)}
    {make : Nat → Program S (Goal S) .attempt} {made : Nat}
    (h : Abreast C A l r (⟨.search handler (some (make, made)) k, mark⟩ :: upper ++ l.base)
      (⟨.search handler (some (make, made)) k', mark'⟩ :: upper' ++ r.base) m m')
    (hhandler : (Goal.search handler).Heeds C.views C.stores)
    (hmake : ∀ i, (make i).Heeds C.views C.stores (Goal.Heeds C.views C.stores))
    (hk : k.Twin C E l r k') :
    Parallel (retryActivation T n run height (.search handler (some (make, made)) k)) m
      (retryActivation T n run height' (.search handler (some (make, made)) k')) m'
      (Twins C E l r A) (Halted C l r) := by
  unfold retryActivation
  rw [parallel_bind_of_ok (updateAt_apply _ h.frames hheight _)
    (updateAt_apply _ h.frames' hheight' _)]
  have h₁ := h.withFrames (⟨.search handler none k, mark⟩ :: upper ++ l.base)
    (⟨.search handler none k', mark'⟩ :: upper' ++ r.base) h.depths
  refine ((hmake made).paced hT hrun n _ _ h₁).bind ?_
  rintro outcome m₂ _ m₂' - - ⟨rfl, h₂⟩
  rw [parallel_bind_of_ok (updateAt_apply _ h₂.frames hheight _)
    (updateAt_apply _ h₂.frames' hheight' _)]
  have h₃ := h₂.withFrames
    (⟨.search handler (some (make, made + 1)) k, mark⟩ :: upper ++ l.base)
    (⟨.search handler (some (make, made + 1)) k', mark'⟩ :: upper' ++ r.base) h₂.depths
  have htwin : Activation.Twin C E l r (.search handler (some (make, made + 1)) k)
      (.search handler (some (make, made + 1)) k') := by
    refine .search hhandler ?_ hk
    rintro _ ⟨rfl⟩ i
    exact hmake i
  rcases outcome with _ | b
  · exact giveUp_twins hmark hrest h₃ htwin
  · cases b with
    | false => exact ⟨_, _, h₃, .cons ⟨htwin, hmark⟩ hrest, .task .backtrack⟩
    | true => exact ⟨_, _, h₃, .cons ⟨htwin, hmark⟩ hrest, .task (.call hhandler hk)⟩

end Frame

include hT hrun

/-- Trying what is left in the top frames, by the kind of their activations. -/
theorem retryActivation_twins
    (h : Abreast C A l r (f :: upper ++ l.base) (f' :: upper' ++ r.base) m m')
    (hf : f.Twin C E l r f') (hrest : List.Forall₂ (Frame.Twin C E l r) upper upper')
    {height height' : Nat} (hheight : height = (upper ++ l.base).length + 1)
    (hheight' : height' = (upper' ++ r.base).length + 1) :
    Parallel (retryActivation T n run height f.activation) m
      (retryActivation T n run height' f'.activation) m' (Twins C E l r A) (Halted C l r) := by
  obtain ⟨a, mark⟩ := f
  obtain ⟨a', mark'⟩ := f'
  obtain ⟨ha, hmark⟩ := hf
  cases ha with
  | step => exact giveUp_twins hmark hrest h .step
  | candidates hdraw hcandidate hvalidate hk =>
    exact retryCandidates_twins hT hrun hmark hrest hheight hheight' h hdraw hcandidate hvalidate hk
  | @branches rest k k' hbranches hk =>
    cases rest with
    | nil => exact giveUp_twins hmark hrest h (.branches hbranches hk)
    | cons branch rest =>
      unfold retryActivation
      rw [parallel_bind_of_ok (updateAt_apply _ h.frames hheight _)
        (updateAt_apply _ h.frames' hheight' _)]
      refine ⟨⟨.branches rest k, mark⟩ :: upper, ⟨.branches rest k', mark'⟩ :: upper',
        h.withFrames _ _ h.depths, .cons ⟨.branches ?_ hk, hmark⟩ hrest, .task (.call ?_ hk)⟩
      · exact fun g hg => hbranches g (List.mem_cons_of_mem _ hg)
      · exact hbranches branch (by simp)
  | @search handler choices k k' hhandler hchoices hk =>
    rcases choices with _ | ⟨make, made⟩
    · exact giveUp_twins hmark hrest h (.search hhandler hchoices hk)
    · exact retrySearch_twins hT hrun hmark hrest hheight hheight' h hhandler (hchoices _ rfl) hk

theorem retry_twins (h : Abreast C A l r (upper ++ l.base) (upper' ++ r.base) m m')
    (hframes : List.Forall₂ (Frame.Twin C E l r) upper upper') :
    Parallel (retry T n run) m (retry T n run) m' (Twins C E l r A) (Halted C l r) := by
  have h₁ := h.counted .retries
  rw [retry, parallel_bind_of_ok (count_apply _ _) (count_apply _ _),
    parallel_bind_of_ok (get_apply _) (get_apply _)]
  dsimp only
  rw [h₁.frames, h₁.frames']
  cases hframes with
  | nil =>
    dsimp only [List.nil_append, base]
    rw [parallel_bind_of_ok (trace_apply _ _) (trace_apply _ _)]
    exact ⟨[], [], h₁.noted _ _ rfl rfl, .nil, .ended (by simp)⟩
  | @cons f f' upper upper' hf hrest =>
    dsimp only [List.cons_append]
    rw [parallel_bind_of_ok (trace_apply _ _) (trace_apply _ _)]
    refine retryActivation_twins hT hrun (h₁.noted _ _ rfl rfl) hf hrest ?_ ?_
    · rw [Engine.depth, h₁.frames]
      rfl
    · rw [Engine.depth, h₁.frames']
      rfl

/-- A step of both runs keeps them in lockstep, if it does where they come to
their ends. -/
theorem step_twins {t t' : Task S} (h : Twins C E l r A (.task t) m (.task t') m')
    (hclosing : ∀ k k', t = .proceed k → t' = .proceed k' → E k k' →
      Parallel (proceed T n k) m (proceed T n k') m' (Twins C E l r A) (Halted C l r)) :
    Parallel (step T n run t) m (step T n run t') m' (Twins C E l r A) (Halted C l r) := by
  obtain ⟨upper, upper', h, hframes, ht⟩ := h
  cases ht with
  | task ht =>
    cases ht with
    | call hg hk =>
      refine (call_twins hT hrun h hframes hg hk).bind ?_
      exact fun t m₁ t' m₁' _ _ h₁ => h₁
    | proceed hk => exact proceed_twins h hframes hk (hclosing _ _ rfl rfl)
    | retry => exact retry_twins hT hrun h hframes
    | backtrack => exact backtrack_twins h hframes

end Retry

/-! ### Whole runs -/

/-- Undoing what is above the starts of both runs. -/
theorem popMany_twins (h : Abreast C A l r (upper ++ l.base) (upper' ++ r.base) m m')
    (hframes : List.Forall₂ (Frame.Twin C E l r) upper upper') :
    Parallel (popMany (upper.length + 1)) m (popMany (upper'.length + 1)) m' (fun _ m₁ _ m₁' =>
      Abreast C A l r l.engine.frames r.engine.frames m₁ m₁') (Halted C l r) := by
  induction hframes generalizing m m' with
  | nil =>
    unfold popMany
    rw [parallel_bind_of_ok (pop_apply m h.frames) (pop_apply m' h.frames')]
    exact h.popped (i := 0) rfl rfl
  | cons hf _ ih =>
    obtain ⟨i, hmark, hmark'⟩ := hf.mark
    unfold popMany
    rw [parallel_bind_of_ok (pop_apply m h.frames) (pop_apply m' h.frames')]
    exact ih (h.popped hmark hmark')

/-- Two runs stand above their starts, with nothing said of what comes next. -/
def Risen (C : Comparison T) (E : Continuation S → Continuation S → Prop) (l r : Machine S)
    (A : List S.Term → List S.Term → Prop) (m m' : Machine S) : Prop :=
  ∃ upper upper', Abreast C A l r (upper ++ l.base) (upper' ++ r.base) m m' ∧
    List.Forall₂ (Frame.Twin C E l r) upper upper'

/-- What becomes of two runs that have come to their ends: they stay in
lockstep. -/
def Closes (C : Comparison T) (E : Continuation S → Continuation S → Prop) (l r : Machine S)
    (A : List S.Term → List S.Term → Prop) (n : Nat) : Prop :=
  ∀ k k' upper upper' m m', E k k' →
    Abreast C A l r (upper ++ l.base) (upper' ++ r.base) m m' →
    List.Forall₂ (Frame.Twin C E l r) upper upper' →
    Parallel (proceed T n k) m (proceed T n k') m' (Twins C E l r A) (Halted C l r)

section Run

include hT hrun

theorem drive_twins (hclosing : Closes C E l r A n) {t t' : Task S}
    (h : Twins C E l r A (.task t) m (.task t') m') (j : Nat) :
    Parallel (drive T n run t j) m (drive T n run t' j) m' (fun st m₁ st' m₁' => st = st' ∧
      Risen C E l r A m₁ m₁') (Halted C l r) := by
  induction j generalizing t t' m m' with
  | zero =>
    obtain ⟨upper, upper', h, -⟩ := h
    exact parallel_throw h.halted
  | succ j ih =>
    have hstep := step_twins hT hrun h fun k k' htask htask' hE => by
      obtain ⟨upper, upper', habreast, hframes, -⟩ := h
      -- Where both sides are at their ends, what closes them keeps them together.
      exact hclosing k k' upper upper' m m' hE habreast hframes
    unfold Parallel at hstep ⊢
    rw [drive_succ, drive_succ]
    cases hs : step T n run t m <;> cases hs' : step T n run t' m' <;> rw [hs, hs'] at hstep
    · next p m₁ p' m₁' =>
      obtain ⟨upper, upper', habreast, hframes, hp⟩ := hstep
      cases hp with
      | task ht => exact ih ⟨upper, upper', habreast, hframes, .task ht⟩
      | ended _ => exact ⟨rfl, upper, upper', habreast, hframes⟩
    · exact False.elim hstep
    · exact False.elim hstep
    · exact hstep

omit hT hrun in
/-- What is left of a run once it has ended: its frames are popped, and the
trail must be as long as it was. -/
theorem unwind_twins (h : Risen C E l r A m m') (st : Status) :
    Parallel (do
        unwind l.engine.depth
        if (← trailLength) = l.engine.trail.length then pure st
        else throw (.fault .unbalancedTrail)) m
      (do
        unwind r.engine.depth
        if (← trailLength) = r.engine.trail.length then pure st
        else throw (.fault .unbalancedTrail)) m'
      (fun st m₁ st' m₁' => st = st' ∧
        Abreast C A l r l.engine.frames r.engine.frames m₁ m₁') (Halted C l r) := by
  obtain ⟨upper, upper', h, hframes⟩ := h
  obtain ⟨hdepth, hdepth'⟩ := h.depth_eq hframes
  have hcount : m.engine.depth - l.engine.depth = upper.length + 1 := by
    have hbase : l.base.length = l.engine.depth + 1 := rfl
    omega
  have hcount' : m'.engine.depth - r.engine.depth = upper'.length + 1 := by
    have hbase : r.base.length = r.engine.depth + 1 := rfl
    have hlength := hframes.length_eq
    omega
  have hunwind : Parallel (unwind l.engine.depth) m (unwind r.engine.depth) m'
      (fun _ m₁ _ m₁' => Abreast C A l r l.engine.frames r.engine.frames m₁ m₁')
      (Halted C l r) := by
    rw [unwind, unwind, parallel_bind_of_ok (depth_apply m) (depth_apply m'), hcount, hcount']
    exact popMany_twins h hframes
  refine hunwind.bind ?_
  rintro _ m₁ _ m₁' - - h₁
  -- one trail is as long as it was if and only if the other one is
  have hlength : m₁.engine.trail.length + r.engine.trail.length =
      m₁'.engine.trail.length + l.engine.trail.length := h₁.scopes.trail.length_add
  rw [parallel_bind_of_ok (trailLength_apply m₁) (trailLength_apply m₁')]
  by_cases hbalanced : m₁.engine.trail.length = l.engine.trail.length
  · rw [if_pos hbalanced, if_pos (by omega)]
    exact ⟨rfl, h₁⟩
  · rw [if_neg hbalanced, if_neg (by omega)]
    exact parallel_throw h₁.halted

omit hT hrun in
/-- The first step of two runs. -/
theorem Abreast.start (h : Abreast C A l r l.engine.frames r.engine.frames l r) {g : Goal S}
    (hg : g.Heeds C.views C.stores) (hk : k.Twin C E l r k') :
    Twins C E l r A (.task (.call g k)) (l.pushed l.engine.trail.length .sentinel)
      (.task (.call g k')) (r.pushed r.engine.trail.length .sentinel) :=
  ⟨[], [], h.pushed _ _ _ _, .nil, .task (.call hg hk)⟩

theorem runWith_twins (h : Abreast C A l r l.engine.frames r.engine.frames l r) {g : Goal S}
    (hg : g.Heeds C.views C.stores) (hk : k.Twin C E l r k') (hclosing : Closes C E l r A n) :
    Parallel (runWith T n run g k) l (runWith T n run g k') r (fun st m st' m' => st = st' ∧
      Abreast C A l r l.engine.frames r.engine.frames m m') (Halted C l r) := by
  unfold runWith
  rw [parallel_bind_of_ok (depth_apply l) (depth_apply r),
    parallel_bind_of_ok (trailLength_apply l) (trailLength_apply r),
    parallel_bind_of_ok (push_apply _ _ _) (push_apply _ _ _)]
  refine (drive_twins hT hrun hclosing (h.start hg hk) n).bind ?_
  rintro st m₁ _ m₁' - - ⟨rfl, h₁⟩
  exact unwind_twins h₁ st

end Run

end Step

end Machine

/-! ### Runs with the same end -/

/-- What may be left to do at the end of a run that was begun with `k₀`. -/
inductive Continuation.Closing (k₀ : Continuation S) : Continuation S → Prop
  | start : Closing k₀ k₀
  | collected {t : S.Term} {k : Continuation S} : Closing k₀ (.collect t k) → Closing k₀ k

/-- At the end of a run for answers, an answer is kept, and the run is done or
goes back for another one. -/
theorem Continuation.Closing.cases {t : S.Term} {k₁ k : Continuation S}
    (h : (Continuation.collect t k₁).Closing k) (hk₁ : k₁ = .finish ∨ k₁ = .refuse) :
    k = .collect t k₁ ∨ k = k₁ := by
  induction h with
  | start => exact .inl rfl
  | collected _ ih =>
    rcases ih with heq | rfl
    · cases heq
      exact .inr rfl
    · rcases hk₁ with heq | heq <;> cases heq

theorem Continuation.Closing.of_finish {k : Continuation S} (h : Closing .finish k) :
    k = .finish := by
  induction h with
  | start => rfl
  | collected _ ih => cases ih

namespace Machine

/-- At the end of a run the same is done on both sides, if it is where an answer
is kept. -/
theorem closing_parallel {n : Nat} {k₀ : Continuation S} (hk₀ : k₀.Entry) (hk : k₀.Closing k)
    (h : Abreast C A l r (upper ++ l.base) (upper' ++ r.base) m m')
    (hframes : List.Forall₂ (Frame.Twin C (fun k k' => k = k' ∧ k₀.Closing k) l r) upper upper')
    (hcollect : ∀ t k₁, k = .collect t k₁ → k₀ ≠ .finish →
      Parallel (proceed T n k) m (proceed T n k) m'
        (Twins C (fun k k' => k = k' ∧ k₀.Closing k) l r A) (Halted C l r)) :
    Parallel (proceed T n k) m (proceed T n k) m'
      (Twins C (fun k k' => k = k' ∧ k₀.Closing k) l r A) (Halted C l r) := by
  have hfinish : k = .finish → Parallel (proceed T n k) m (proceed T n k) m'
      (Twins C (fun k k' => k = k' ∧ k₀.Closing k) l r A) (Halted C l r) := by
    rintro rfl
    exact ⟨upper, upper', h, hframes, .ended fun _ => ⟨rfl, hk⟩⟩
  cases hk₀ with
  | finish => exact hfinish hk.of_finish
  | first t =>
    rcases hk.cases (.inl rfl) with heq | heq
    · exact hcollect t .finish heq (by simp)
    · exact hfinish heq
  | all t =>
    rcases hk.cases (.inr rfl) with heq | rfl
    · exact hcollect t .refuse heq (by simp)
    · unfold proceed
      rw [parallel_bind_of_ok (count_apply m _) (count_apply m' _)]
      exact ⟨upper, upper', h.counted .calls, hframes, .task .backtrack⟩

theorem closes_same {k₀ : Continuation S} (hk₀ : k₀.Entry) (hA : k₀ ≠ .finish → Extensible A)
    (n : Nat) : Closes C (fun k k' => k = k' ∧ k₀.Closing k) l r A n := by
  rintro k _ upper upper' m m' ⟨rfl, hk⟩ h hframes
  refine closing_parallel hk₀ hk h hframes ?_
  rintro t k₁ rfl hloud
  refine (collect_parallel (hA hloud) h _ _ _).mono ?_
  rintro _ m₁ _ m₁' - - ⟨rfl, rfl, h₁⟩
  exact ⟨upper, upper', h₁, hframes, .task (.proceed (.closing ⟨rfl, hk.collected⟩))⟩

/-- Runs of the same goal on machines abreast end alike, however deeply other
runs are nested in them. -/
theorem run_paced (hT : T.Heeds C.stores) (n : Nat) : (run T n).Paced C := by
  induction n with
  | zero => exact fun _ _ _ _ _ _ _ _ h => parallel_throw h.halted
  | succ n ih =>
    intro g k A l r hg hk hA h
    have hclosing := closes_same (C := C) (l := l) (r := r) hk hA n
    exact runWith_twins hT ih h hg (.closing ⟨rfl, .start⟩) hclosing

end Machine

end GoalSearch
