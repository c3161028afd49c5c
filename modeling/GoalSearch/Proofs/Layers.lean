/-
Goals made alike of parts that match.

One step of a call looks at one layer of a goal: it runs the code in it, puts a
frame on the stack or calls a part.  So goals match if the code in them does the
same and their parts match, on the bound for one step less.

* `Stack.matches_of_retry` — stacks whose top frames are retried alike;
* `Machine.candidates_simulates`, `Machine.search_simulates` — frames with
  candidates and with choices made alike;
* `Goal.Layer.matches` — goals made alike.

Design notes: what is run in the middle of a step are programs, which may run
goals in turn.  That these runs match is a hypothesis here (`RunsMirrored`), as
they have a bound of their own.
-/
import GoalSearch.Proofs.Slides

namespace GoalSearch

open GoalSearch.Action GoalSearch.Configuration Machine

variable {S : Vocabulary} {T : Theory S} {k J i ν : Nat} {F F' : List (Frame S)}
  {next next' : Continuation S} {m m' : Machine S}

/-! ### Frames that are retried -/

/-- Going back to a frame goes back to the bindings at which it was pushed. -/
theorem Stack.matches_of_retry {a a' : Activation S}
    (h : ∀ m m', Paired T ν (⟨a, ν⟩ :: F) (⟨a', ν⟩ :: F') m m' →
      Simulates T k J (.task .retry) m (.task .retry) m') :
    Stack.Matches T k J ν (⟨a, ν⟩ :: F) (⟨a', ν⟩ :: F') := by
  intro m m' hm hm' hbeside
  have hpaired : Paired T ν (⟨a, ν⟩ :: F) (⟨a', ν⟩ :: F') (m.undone ν) (m'.undone ν) := by
    refine ⟨hm.frames, hm'.frames, ?_, hbeside⟩
    rw [length_undone]
    exact Nat.le_min.mpr ⟨hm.le, Nat.le_refl _⟩
  have hback : ∀ n, step T n (run T n) .backtrack m' = .ok (.task .retry) (m'.undone ν) :=
    fun _ => backtrack_apply hm'.frames
  have hstep : step T k (run T k) .backtrack m = .ok (.task .retry) (m.undone ν) :=
    backtrack_apply hm.frames
  exact (((h _ _ hpaired).right_step hback).left_step hstep).mono (Nat.le_succ J)

namespace Machine

theorem Paired.retry {a a' : Activation S} {μ μ' : Nat}
    (hm : Paired T ν (⟨a, μ⟩ :: F) (⟨a', μ'⟩ :: F') m m')
    (h : ∀ m₁ m₁', Paired T ν (⟨a, μ⟩ :: F) (⟨a', μ'⟩ :: F') m₁ m₁' →
      Matched (retryActivation T k (run T k) (F.length + 1) a) m₁
        (fun n => retryActivation T n (run T n) (F'.length + 1) a') m₁' (Simulates T k J)
        (Stopped T)) :
    Simulates T k (J + 1) (.task .retry) m (.task .retry) m' := by
  have hnoted := (hm.counted .retries 1 1).noted
    (show (Record.retried a.kind (F.length + 1)).row? = none from rfl)
    (show (Record.retried a'.kind (F'.length + 1)).row? = none from rfl)
  exact .of_step ((h _ _ hnoted).congr (retry_apply k hm.frames) fun n => retry_apply n hm.frames')

/-- A frame without alternatives left is removed on both sides. -/
theorem Paired.exhausted {a a' : Activation S}
    (hm : Paired T ν (⟨a, ν⟩ :: F) (⟨a', ν⟩ :: F') m m') (hback : Stack.Matches T k J ν F F') :
    Matched (exhausted >>= fun t => pure (.task t)) m
      (fun _ => exhausted >>= fun t => pure (.task t)) m' (Simulates T k J) (Stopped T) :=
  Matched.of_ok (exhausted_apply hm.frames) (fun _ => exhausted_apply hm.frames')
    (matched_pure (hback.simulates hm.popped))

end Machine

/-! ### Code in the middle of steps -/

namespace Machine

theorem ample_exhausted :
    Ample fun _ => exhausted (S := S) >>= fun t => pure (Progress.task t) :=
  ample_const (writes_exhausted.bind fun _ => writes_pure _)

variable {R : Goal S → Goal S → Prop} (hR : Goal.Congruence R) (hrun : RunsMirrored T R k)

include hR hrun

/-- Candidates that are drawn alike, tried and validated. -/
theorem candidates_simulates
    {draw draw' : Nat → Quiet S (Option (Program S (Goal S) .verdict))}
    {validate validate' : Program S (Goal S) .verdict}
    (hdraw : ∀ i, (draw i).Akin (Option.Rel (Program.Akin R)) (draw' i))
    (hvalidate : validate.Akin R validate') (hnext : next.Matches T k J ν F F' next')
    (drawn : Nat) (hi : i ≤ J)
    (hm : Paired T ν (⟨.candidates draw drawn validate next, ν⟩ :: F)
      (⟨.candidates draw' drawn validate' next', ν⟩ :: F') m m') :
    Simulates T k i (.task .retry) m (.task .retry) m' := by
  induction i generalizing drawn m m' with
  | zero => exact simulates_zero hm.beside.world.rows
  | succ i ih =>
    replace hnext := hnext.mono (Nat.le_of_succ_le hi) (Nat.le_refl ν)
    -- the frame is retried with one step less, after one more candidate was drawn
    have hback := Stack.matches_of_retry fun _ _ => ih (drawn + 1) (Nat.le_of_succ_le hi)
    refine hm.retry fun m₁ m₁' h₁ => ?_
    refine Matched.bind (fun _ _ hij => quietly_below hij _) (fun o => ?_)
      (quietly_mirrored (hdraw drawn) h₁.beside) ?_
    · cases o with
      | none => exact ample_exhausted
      | some p =>
        refine (ample_const (writes_updateAt _ _)).bind fun _ => p.ample_exec.bind fun b => ?_
        cases b with
        | true => exact validate'.ample_exec.bind fun _ => ample_const (writes_pure _)
        | false => exact ample_const (writes_pure _)
    rintro o m₂ _ o' m₂' - - ⟨ho, h₂⟩
    have hm₂ := h₁.apace h₂
    cases ho with
    | none => exact hm₂.exhausted hnext.back
    | some hp =>
      refine Matched.of_ok (updateAt_apply m₂ hm₂.frames rfl _)
        (fun _ => updateAt_apply m₂' hm₂.frames' rfl _) ?_
      have hm₃ := hm₂.withFrames (⟨.candidates draw (drawn + 1) validate next, ν⟩ :: F)
        (⟨.candidates draw' (drawn + 1) validate' next', ν⟩ :: F')
      refine Matched.bind (Program.ample_exec _) (fun b => ?_) (hp.mirrored hR hrun hm₃.beside) ?_
      · cases b with
        | true => exact validate'.ample_exec.bind fun _ => ample_const (writes_pure _)
        | false => exact ample_const (writes_pure _)
      rintro (b : Bool) m₄ _ _ m₄' - - ⟨rfl, h₄⟩
      have hm₄ := hm₃.apace h₄
      cases b with
      | false => exact matched_pure (hback.simulates hm₄)
      | true =>
        refine Matched.bind validate'.ample_exec (fun _ => ample_const (writes_pure _))
          (hvalidate.mirrored hR hrun hm₄.beside) ?_
        rintro (valid : Bool) m₅ _ _ m₅' - - ⟨rfl, h₅⟩
        have htop := hnext.on_top (List.suffix_cons _ _) (List.suffix_cons _ _) hback
        exact matched_pure (htop.verdict (hm₄.apace h₅) valid)

/-- Choices that are made alike. -/
theorem search_simulates {handler handler' : Quiet S (Program S (Goal S) .choices)}
    {make make' : Nat → Program S (Goal S) .attempt} (hmake : ∀ i, (make i).Akin R (make' i))
    (hsearch : (Goal.search handler).Matches T k J (.search handler'))
    (hnext : next.Matches T k J ν F F' next') (made : Nat) (hi : i ≤ J)
    (hm : Paired T ν (⟨.search handler (some (make, made)) next, ν⟩ :: F)
      (⟨.search handler' (some (make', made)) next', ν⟩ :: F') m m') :
    Simulates T k i (.task .retry) m (.task .retry) m' := by
  induction i generalizing made m m' with
  | zero => exact simulates_zero hm.beside.world.rows
  | succ i ih =>
    replace hnext := hnext.mono (Nat.le_of_succ_le hi) (Nat.le_refl ν)
    have hback := Stack.matches_of_retry fun _ _ => ih (made + 1) (Nat.le_of_succ_le hi)
    -- the frame holds no choices while one of them is made
    refine hm.retry fun m₁ m₁' h₁ => ?_
    refine Matched.of_ok (updateAt_apply m₁ h₁.frames rfl _)
      (fun _ => updateAt_apply m₁' h₁.frames' rfl _) ?_
    have hm₁ := h₁.withFrames (⟨.search handler none next, ν⟩ :: F)
      (⟨.search handler' none next', ν⟩ :: F')
    refine Matched.bind (Program.ample_exec _) (fun o => ?_)
      ((hmake made).mirrored hR hrun hm₁.beside) ?_
    · refine (ample_const (writes_updateAt _ _)).bind fun _ => ?_
      rcases o with _ | _ | _
      · exact ample_exhausted
      · exact ample_const (writes_pure _)
      · exact ample_const (writes_pure _)
    rintro (o : Option Bool) m₂ _ _ m₂' - - ⟨rfl, h₂⟩
    have hm₂ := hm₁.apace h₂
    refine Matched.of_ok (updateAt_apply m₂ hm₂.frames rfl _)
      (fun _ => updateAt_apply m₂' hm₂.frames' rfl _) ?_
    have hm₃ := hm₂.withFrames (⟨.search handler (some (make, made + 1)) next, ν⟩ :: F)
      (⟨.search handler' (some (make', made + 1)) next', ν⟩ :: F')
    rcases o with _ | _ | _
    · exact hm₃.exhausted hnext.back
    · exact matched_pure (hback.simulates hm₃)
    · have htop := hnext.on_top (List.suffix_cons _ _) (List.suffix_cons _ _) hback
      exact matched_pure ((hsearch.mono (Nat.le_of_succ_le hi)).simulates htop hm₃)

/-! ### Calls of steps, loops and searches -/

/-- A predicate with candidates prepares itself before it pushes its frame. -/
theorem nondeterministic_simulates {prepare prepare' : Program S (Goal S) .candidates}
    {validate validate' : Program S (Goal S) .verdict} (hprepare : prepare.Akin R prepare')
    (hvalidate : validate.Akin R validate') (hnext : next.Matches T k J ν F F' next')
    (hm : Paired T ν F F' m m') :
    Simulates T k (J + 1) (.task (.call (.call (.nondeterministic prepare validate)) next)) m
      (.task (.call (.call (.nondeterministic prepare' validate')) next')) m' := by
  have hm₀ := hm.here.counted .calls 1 1
  refine .of_call (Matched.of_ok (count_apply m .calls) (fun _ => count_apply m' .calls) ?_)
  refine Matched.of_ok (trailLength_apply _) (fun _ => trailLength_apply _) ?_
  refine Matched.bind prepare'.ample_exec
    (fun _ => ample_const ((writes_push _ _).bind fun _ => writes_pure _))
    (hprepare.mirrored hR hrun hm₀.beside) ?_
  rintro draw m₁ _ draw' m₁' - - ⟨hdraw, h₁⟩
  refine Matched.of_ok (push_apply _ _ _) (fun _ => push_apply _ _ _) (matched_pure ?_)
  exact candidates_simulates hR hrun hdraw hvalidate (hnext.mono (Nat.le_refl J) hm.le) 0
    (Nat.le_refl J) ((hm₀.apace h₁).pushed _ _ rfl hm.length.symm)

theorem semideterministic_simulates
    {prepare prepare' validate validate' : Program S (Goal S) .verdict}
    (hprepare : prepare.Akin R prepare') (hvalidate : validate.Akin R validate')
    (hnext : next.Matches T k J ν F F' next') (hm : Paired T ν F F' m m') :
    Simulates T k (J + 1) (.task (.call (.call (.semideterministic prepare validate)) next)) m
      (.task (.call (.call (.semideterministic prepare' validate')) next')) m' := by
  have hm₀ := hm.counted .calls 1 1
  refine .of_call (Matched.of_ok (count_apply m .calls) (fun _ => count_apply m' .calls) ?_)
  refine Matched.of_ok (trailLength_apply _) (fun _ => trailLength_apply _) ?_
  refine Matched.of_ok (push_apply _ _ _) (fun _ => push_apply _ _ _) ?_
  have hm₁ := hm₀.pushed .step .step rfl hm.length.symm
  refine Matched.bind prepare'.ample_exec (fun _ => ?_)
    (hprepare.mirrored hR hrun hm₁.beside) ?_
  · refine (ample_const writes_retire).bind fun _ => ?_
    exact validate'.ample_exec.bind fun _ => ample_const (writes_pure _)
  rintro _ m₂ _ _ m₂' - - ⟨-, h₂⟩
  have hm₂ := hm₁.apace h₂
  refine Matched.of_ok (retire_apply m₂ hm₂.frames) (fun _ => retire_apply m₂' hm₂.frames') ?_
  have hm₃ := hm₂.retired F F'
  refine Matched.bind validate'.ample_exec (fun _ => ample_const (writes_pure _))
    (hvalidate.mirrored hR hrun hm₃.beside) ?_
  rintro (valid : Bool) m₄ _ _ m₄' - - ⟨rfl, h₄⟩
  exact matched_pure (hnext.verdict (hm₃.apace h₄) valid)

theorem deterministic_simulates {prepare prepare' : Program S (Goal S) .verdict}
    (hprepare : prepare.Akin R prepare') (hnext : next.Matches T k J ν F F' next')
    (hm : Paired T ν F F' m m') :
    Simulates T k (J + 1) (.task (.call (.call (.deterministic prepare)) next)) m
      (.task (.call (.call (.deterministic prepare')) next')) m' := by
  have hm₀ := hm.counted .calls 1 1
  refine .of_call (Matched.of_ok (count_apply m .calls) (fun _ => count_apply m' .calls) ?_)
  refine Matched.of_ok (trailLength_apply _) (fun _ => trailLength_apply _) ?_
  refine Matched.of_ok (push_apply _ _ _) (fun _ => push_apply _ _ _) ?_
  have hm₁ := hm₀.pushed .step .step rfl hm.length.symm
  refine Matched.bind prepare'.ample_exec
    (fun _ => ample_const (writes_retire.bind fun _ => writes_pure _))
    (hprepare.mirrored hR hrun hm₁.beside) ?_
  rintro _ m₂ _ _ m₂' - - ⟨-, h₂⟩
  have hm₂ := hm₁.apace h₂
  refine Matched.of_ok (retire_apply m₂ hm₂.frames) (fun _ => retire_apply m₂' hm₂.frames') ?_
  exact matched_pure (hnext.proceed (hm₂.retired F F'))

/-- A level of a search pushes its frame before it looks for choices. -/
theorem level_simulates {handler handler' : Quiet S (Program S (Goal S) .choices)}
    (hlevels : handler.Akin (Program.Akin R) handler')
    (hsearch : (Goal.search handler).Matches T k J (.search handler'))
    (hnext : next.Matches T k J ν F F' next') (hm : Paired T ν F F' m m') :
    Simulates T k (J + 1) (.task (.call (.search handler) next)) m
      (.task (.call (.search handler') next')) m' := by
  have hm₀ := hm.counted .calls 1 1
  refine .of_call (Matched.of_ok (count_apply m .calls) (fun _ => count_apply m' .calls) ?_)
  refine Matched.bind (fun _ _ hij => quietly_below hij _) (fun level => ?_)
    (quietly_mirrored hlevels hm₀.beside) ?_
  · refine (ample_const (writes_pushHere _)).bind fun _ => level.ample_exec.bind ?_
    rintro (_ | make)
    · exact ample_const (writes_retire.bind fun _ => writes_pure _)
    · refine ample_const (writes_depth.bind fun _ => ?_)
      exact (writes_updateAt _ _).bind fun _ => writes_pure _
  rintro level m₁ _ level' m₁' - - ⟨hlevel, h₁⟩
  have hm₁ := (hm₀.apace h₁).here
  replace hnext := hnext.mono (Nat.le_refl J) (hm₀.apace h₁).le
  refine Matched.of_ok (pushHere_apply _ _) (fun _ => pushHere_apply _ _) ?_
  have hm₂ := hm₁.pushed (.search handler none next) (.search handler' none next') rfl
    hm₁.length.symm
  refine Matched.bind level'.ample_exec ?_ (hlevel.mirrored hR hrun hm₂.beside) ?_
  · rintro (_ | make)
    · exact ample_const (writes_retire.bind fun _ => writes_pure _)
    · refine ample_const (writes_depth.bind fun _ => ?_)
      exact (writes_updateAt _ _).bind fun _ => writes_pure _
  rintro make m₃ _ make' m₃' - - ⟨hmake, h₃⟩
  have hm₃ := hm₂.apace h₃
  cases hmake with
  | none =>
    refine Matched.of_ok (retire_apply m₃ hm₃.frames) (fun _ => retire_apply m₃' hm₃.frames') ?_
    exact matched_pure (hnext.proceed (hm₃.retired F F'))
  | some hmake =>
    -- the choices are put into the frame that was pushed, which is still on top
    refine Matched.of_ok (depth_apply _) (fun _ => depth_apply _) ?_
    refine Matched.of_ok (updateAt_apply m₃ hm₃.frames (congrArg List.length hm₃.frames) _)
      (fun _ => updateAt_apply m₃' hm₃.frames' (congrArg List.length hm₃.frames') _) ?_
    exact matched_pure (search_simulates hR hrun hmake hsearch hnext 0 (Nat.le_refl J)
      (hm₃.withFrames _ _))

omit hR hrun

/-- A loop calls its body before it tests again. -/
theorem loop_simulates {test test' : View → Quiet S Bool} {body body' : View → Quiet S (Goal S)}
    (htest : ∀ v v', v.Beside v' → (test v).Akin Eq (test' v'))
    (hbody : ∀ v v', v.Beside v' → (body v).Akin (Goal.Matches T k J) (body' v'))
    (hloop : (Goal.loop test body).Matches T k J (.loop test' body'))
    (hnext : next.Matches T k J ν F F' next') (hm : Paired T ν F F' m m') :
    Simulates T k (J + 1) (.task (.call (.loop test body) next)) m
      (.task (.call (.loop test' body') next')) m' := by
  have hm₁ := (hm.counted .calls 1 1).stepped
  refine .of_call (Matched.of_ok (count_apply m .calls) (fun _ => count_apply m' .calls) ?_)
  refine Matched.of_ok (enterStep_apply _) (fun _ => enterStep_apply _) ?_
  refine Matched.of_ok (get_apply _) (fun _ => get_apply _) ?_
  -- The test is asked of both engines, whose views it cannot tell apart.
  refine Matched.bind (fun _ _ hij => quietly_below hij _) (fun b => ?_)
    (quietly_mirrored (htest _ _ hm₁.beside.view) hm₁.beside) ?_
  · cases b with
    | false => exact ample_const (writes_pure _)
    | true =>
      refine (ample_const writes_get).bind fun m => ?_
      exact Ample.bind (fun _ _ hij => quietly_below hij _) fun _ => ample_const (writes_pure _)
  rintro b m₂ _ _ m₂' - - ⟨rfl, h₂⟩
  have hm₂ := hm₁.apace h₂
  cases b with
  | false => exact matched_pure (hnext.proceed hm₂)
  | true =>
    refine Matched.of_ok (get_apply _) (fun _ => get_apply _) ?_
    refine Matched.bind (fun _ _ hij => quietly_below hij _)
      (fun _ => ample_const (writes_pure _))
      (quietly_mirrored (hbody _ _ hm₂.beside.view) hm₂.beside) ?_
    rintro g m₃ _ g' m₃' - - ⟨hg, h₃⟩
    exact matched_pure (hg.simulates (.call hloop hnext) (hm₂.apace h₃))

/-- The goal of a `notNot` is run to its first solution. -/
theorem notNot_simulates {g g' : Goal S}
    (hrun : ∀ m m', m.Beside T m' →
      Mirrored T Eq (run T k g .finish) m (fun n => run T n g' .finish) m')
    (hnext : next.Matches T k J ν F F' next') (hm : Paired T ν F F' m m') :
    Simulates T k (J + 1) (.task (.call (.notNot g) next)) m (.task (.call (.notNot g') next'))
      m' := by
  have hm₁ := (hm.counted .calls 1 1).pushed .step .step rfl hm.length.symm
  refine .of_call (Matched.of_ok (count_apply m .calls) (fun _ => count_apply m' .calls) ?_)
  refine Matched.of_ok (pushHere_apply _ _) (fun _ => pushHere_apply _ _) ?_
  refine Matched.bind (fun _ _ hij => run_below hij _ _)
    (fun _ => ample_const (writes_retire.bind fun _ => writes_pure _)) (hrun _ _ hm₁.beside) ?_
  rintro status m₂ _ _ m₂' - - ⟨rfl, h₂⟩
  have hm₂ := hm₁.apace h₂
  refine Matched.of_ok (retire_apply m₂ hm₂.frames) (fun _ => retire_apply m₂' hm₂.frames') ?_
  exact matched_pure (hnext.verdict (hm₂.retired F F') _)

end Machine

/-! ### Goals made alike -/

/-- Goals match if their calls do with one step more than what comes after them. -/
theorem Goal.matches_of_simulates {g g' : Goal S}
    (h : ∀ i < J, ∀ {ν F F' next next' m m'}, Continuation.Matches T k i ν F F' next next' →
      Paired T ν F F' m m' →
      Simulates T k (i + 1) (.task (.call g next)) m (.task (.call g' next')) m') :
    g.Matches T k J g' := by
  intro i hi ν F F' next next' hnext m m' hm hm' hbeside
  have hpaired := hm.paired hm' (by simp) (by simp) hbeside
  cases i with
  | zero => exact simulates_zero hpaired.beside.world.rows
  | succ i => exact h i hi (hnext.mono (Nat.le_succ i) (Nat.le_refl ν)) hpaired

section Layer

variable {R : Goal S → Goal S → Prop} (hR : Goal.Congruence R) (hrun : RunsMirrored T R k)
  (hgoal : ∀ {g g'}, R g g' → g.Matches T k J g')

include hR hrun hgoal

theorem Goal.Layer.simulates {g g' : Goal S} (hg : R g g') (h : g.Layer R g')
    (hnext : next.Matches T k J ν F F' next') (hm : Paired T ν F F' m m') :
    Simulates T k (J + 1) (.task (.call g next)) m (.task (.call g' next')) m' := by
  have hm₀ := hm.counted .calls 1 1
  cases h with
  | succeed =>
    refine .of_call (Matched.of_ok (count_apply m .calls) (fun _ => count_apply m' .calls) ?_)
    exact matched_pure (hnext.proceed hm₀)
  | fail =>
    refine .of_call (Matched.of_ok (count_apply m .calls) (fun _ => count_apply m' .calls) ?_)
    exact matched_pure (hnext.back.simulates hm₀)
  | nondeterministic hprepare hvalidate =>
    exact nondeterministic_simulates hR hrun hprepare hvalidate hnext hm
  | semideterministic hprepare hvalidate =>
    exact semideterministic_simulates hR hrun hprepare hvalidate hnext hm
  | deterministic hprepare => exact deterministic_simulates hR hrun hprepare hnext hm
  | @sequence gs gs' hgs =>
    refine .of_call (Matched.of_ok (count_apply m .calls) (fun _ => count_apply m' .calls) ?_)
    have hself := Goal.spread_self (Goal.does_self (T := T))
    have htask := Task.matches_of_does (hgs.imp fun _ _ => hgoal)
      (Task.does_sequence (hself gs) next) (Task.does_sequence (hself gs') next') hnext.on
    exact matched_pure (htask.simulates hnext.back hm₀)
  | @disjunction gs gs' hgs =>
    refine .of_call (Matched.of_ok (count_apply m .calls) (fun _ => count_apply m' .calls) ?_)
    refine Matched.of_ok (pushHere_apply _ _) (fun _ => pushHere_apply _ _) (matched_pure ?_)
    have hself := Goal.spread_self (Goal.offers_self (T := T))
    replace hnext := hnext.mono (Nat.le_refl J) hm.le
    have hcalls := Task.matches_calls (hgs.imp fun _ _ => hgoal) hnext.on
    have hstage := Stage.matches_of_offers hcalls (Stage.offers_branches (hself gs) next _ F)
      (Stage.offers_branches (hself gs') next' _ F') hnext.back
    exact hstage.simulates (hm₀.pushed (.branches gs next) (.branches gs' next') rfl
      hm.length.symm) rfl
  | once hpart =>
    refine .of_call (Matched.of_ok (count_apply m .calls) (fun _ => count_apply m' .calls) ?_)
    refine Matched.of_ok (enterStep_apply _) (fun _ => enterStep_apply _) ?_
    refine Matched.of_ok (depth_apply _) (fun _ => depth_apply _) (matched_pure ?_)
    -- the heights to cut back to are those of the two stacks, whatever they are
    rw [Engine.depth, Engine.depth, hm₀.stepped.frames, hm₀.stepped.frames']
    exact (hgoal hpart).simulates hnext.commit hm₀.stepped
  | notNot hpart => exact notNot_simulates (hrun hpart .finish) hnext hm
  | @loop test test' body body' hcode =>
    refine loop_simulates (fun v v' hv => ?_) (fun v v' hv => ?_) (hgoal hg) hnext hm
    · exact Quiet.akin_of_eq (hcode v v' hv).1
    · exact Quiet.Akin.mono (hcode v v' hv).2 fun _ _ => hgoal
  | search hlevels => exact level_simulates hR hrun hlevels (hgoal hg) hnext hm

/-- Goals made alike match with one step more than their parts. -/
theorem Goal.Layer.matches {g g' : Goal S} (hg : R g g') (h : g.Layer R g') :
    g.Matches T k (J + 1) g' :=
  Goal.matches_of_simulates fun _ hi _ _ _ _ _ _ _ hnext hm =>
    Goal.Layer.simulates hR hrun (fun hg => (hgoal hg).mono (Nat.le_of_lt_succ hi)) hg h hnext hm

end Layer

end GoalSearch
