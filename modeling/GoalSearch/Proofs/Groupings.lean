/-
Grouping goals in another way is unobservable.

The ways to group goals differ in the frames that are pushed, in the shapes of
what comes next and in the heights to which commits cut back.  None of this is
seen by code that does not look at the stack and the counters of its engine.

* `Goal.Regroups.matches` — a run reaches with one grouping what it reaches with
  the other one;
* `Goal.Congruence.matches` — so it does in every context, given runs with less
  fuel;
* `Goal.Congruence.runsMirrored` — runs, by induction on their fuel;
* `Machine.regrouping_unobservable` — executions and runs for answers.

Design notes: nested runs inside `notNot` end at the first solution, where a goal
is as good as its first solution only.  The induction on the fuel therefore
carries two facts at once, one about related goals and one about goals that test
the same (`Goal.Tests`).  Code that puts another engine in place of its own is left
out: it takes away the frames around a goal, which depend on the grouping.
-/
import GoalSearch.Proofs.Independence
import GoalSearch.Proofs.Layers

namespace GoalSearch

open GoalSearch.Action GoalSearch.Configuration Machine

variable {S : Vocabulary} {T : Theory S} {k J ν : Nat} {F F' : List (Frame S)}
  {next next' : Continuation S} {g g' : Goal S} {m m' : Machine S}

/-! ### Ways to group goals -/

/-- Goals of which the first one has a solution if and only if the other one does. -/
inductive Goal.Tests : Goal S → Goal S → Prop
  | once (g : Goal S) : Tests (once g) g
  | notNot (g : Goal S) : Tests (notNot g) g

/-- Runs to the first solution of goals that test the same, with a bound on the
left and with enough fuel on the right. -/
def Machine.TestsMirrored (T : Theory S) (k : Nat) : Prop :=
  ∀ {g g' : Goal S}, g.Tests g' → g'.Unaware → ∀ m m', m.Beside T m' →
    Mirrored T Eq (run T k g .finish) m (fun n => run T n g' .finish) m' ∧
      Mirrored T Eq (run T k g' .finish) m (fun n => run T n g .finish) m'

theorem Goal.Heeds.of_sequence {V : View → View → Prop} {Q : Store S → Store S → Prop}
    {gs : List (Goal S)} (h : (Goal.sequence gs).Heeds V Q) : ∀ g ∈ gs, g.Heeds V Q := by
  cases h with
  | sequence h => exact h

theorem Goal.Heeds.of_disjunction {V : View → View → Prop} {Q : Store S → Store S → Prop}
    {gs : List (Goal S)} (h : (Goal.disjunction gs).Heeds V Q) : ∀ g ∈ gs, g.Heeds V Q := by
  cases h with
  | disjunction h => exact h

theorem Goal.offers_sequence_disjunction (bs cs : List (Goal S)) (next : Continuation S) (ν : Nat)
    (F : List (Frame S)) :
    Stage.Offers T ν F (bs.map fun b => .sequence (b :: cs) next)
      ((Task.call (.sequence (.disjunction bs :: cs)) next).on F) := by
  have hbranches := Goal.offers_disjunction (Goal.spread_self (Goal.offers_self (T := T)) bs)
  refine Stage.Offers.of_becomes ?_ Stage.call_sequence
  cases cs with
  | nil => exact hbranches next ν F
  | cons c cs => exact hbranches _ ν F

theorem Goal.offers_distributed (bs cs : List (Goal S)) (next : Continuation S) (ν : Nat)
    (F : List (Frame S)) :
    Stage.Offers T ν F (bs.map fun b => .sequence (b :: cs) next)
      ((Task.call (.disjunction (bs.map fun b => .sequence (b :: cs))) next).on F) := by
  have hself := Goal.spread_self (Goal.offers_self (T := T))
  refine Stage.Offers.refine (Goal.offers_disjunction (hself _) next ν F) ?_
  simp only [List.map_map, List.forall₂_map_left_iff, List.forall₂_map_right_iff]
  exact List.forall₂_same.mpr fun b _ F => Stage.call_sequence

/-- A commit after a commit to the same height drops no frame. -/
theorem Goal.matches_once_once (hg : g.Matches T k J g) :
    (once (once g)).Matches T k J (once g) ∧ (once g).Matches T k J (once (once g)) := by
  have htwice : ∀ {next F ν G}, F <:+ G →
      ((Task.proceed (.commit F.length (.commit F.length next))).on G).Becomes T ν
        ((Task.proceed next).on F) :=
    fun hG => (Stage.proceed_commit hG).trans (Stage.proceed_commit (List.suffix_refl _))
  refine ⟨fun i hi ν F F' next next' hnext => ?_, fun i hi ν F F' next next' hnext => ?_⟩
  · have hon := hnext.on.dropping hnext.back (fun _ _ => htwice) fun _ _ => Stage.proceed_commit
    have hstage := ((hg.mono hi).task hon).stage hnext.back
    exact (hstage.left (Stage.call_once.trans Stage.call_once)).right Stage.call_once
  · have hon := hnext.on.dropping hnext.back (fun _ _ => Stage.proceed_commit) fun _ _ => htwice
    have hstage := ((hg.mono hi).task hon).stage hnext.back
    exact (hstage.left Stage.call_once).right (Stage.call_once.trans Stage.call_once)

theorem Goal.Tests.matches_notNot (h : g.Tests g') (hg : g'.Unaware) (htests : TestsMirrored T k) :
    (Goal.notNot g).Matches T k J (.notNot g') ∧ (Goal.notNot g').Matches T k J (.notNot g) := by
  constructor
  · exact Goal.matches_of_simulates fun _ _ _ _ _ _ _ _ _ hnext hm =>
      notNot_simulates (fun m m' hm => (htests h hg m m' hm).1) hnext hm
  · exact Goal.matches_of_simulates fun _ _ _ _ _ _ _ _ _ hnext hm =>
      notNot_simulates (fun m m' hm => (htests h hg m m' hm).2) hnext hm

section Regroups

variable (hself : ∀ {g : Goal S}, g.Unaware → g.Matches T k J g)

include hself

theorem Goal.forall₂_matches {gs : List (Goal S)} (h : ∀ g ∈ gs, g.Unaware) :
    List.Forall₂ (Goal.Matches T k J) gs gs :=
  List.forall₂_same.mpr fun g hg => hself (h g hg)

theorem Goal.Flattens.matches_sequence (h : Flattens succeed sequence g g') (hg : g.Unaware) :
    g.Matches T k J g' ∧ g'.Matches T k J g := by
  obtain ⟨xs, hdoes, hdoes', hparts⟩ := h.exists_parts (P := Goal.Does T) Goal.does_self
    Goal.does_succeed fun _ _ => Goal.does_sequence
  have hxs := Goal.forall₂_matches hself (hparts Goal.Unaware (fun _ => Heeds.of_sequence) hg)
  exact ⟨Goal.matches_of_does hxs hdoes hdoes', Goal.matches_of_does hxs hdoes' hdoes⟩

theorem Goal.Flattens.matches_disjunction (h : Flattens fail disjunction g g') (hg : g.Unaware) :
    g.Matches T k J g' ∧ g'.Matches T k J g := by
  obtain ⟨xs, hoffers, hoffers', hparts⟩ := h.exists_parts (P := Goal.Offers T) Goal.offers_self
    Goal.offers_fail fun _ _ => Goal.offers_disjunction
  have hxs := Goal.forall₂_matches hself (hparts Goal.Unaware (fun _ => Heeds.of_disjunction) hg)
  exact ⟨Goal.matches_of_offers hxs hoffers hoffers', Goal.matches_of_offers hxs hoffers' hoffers⟩

theorem Goal.matches_distributed {bs cs : List (Goal S)} (hbs : ∀ b ∈ bs, b.Unaware)
    (hcs : ∀ c ∈ cs, c.Unaware) :
    (sequence (disjunction bs :: cs)).Matches T k J
        (disjunction (bs.map fun b => sequence (b :: cs))) ∧
      (disjunction (bs.map fun b => sequence (b :: cs))).Matches T k J
        (sequence (disjunction bs :: cs)) := by
  have halternatives : ∀ i ≤ J, ∀ {ν F F' next next'},
      Continuation.Matches T k i ν F F' next next' →
      List.Forall₂ (Task.Matches T k i ν F F') (bs.map fun b => .sequence (b :: cs) next)
        (bs.map fun b => .sequence (b :: cs) next') := by
    intro i hi ν F F' next next' hnext
    rw [List.forall₂_map_left_iff, List.forall₂_map_right_iff]
    refine List.forall₂_same.mpr fun b hb => ?_
    have hgs := Goal.forall₂_matches hself (List.forall_mem_cons.mpr ⟨hbs b hb, hcs⟩)
    have hdoes := Task.does_sequence (Goal.spread_self (Goal.does_self (T := T)) (b :: cs))
    exact Task.matches_of_does (hgs.imp fun _ _ h => h.mono hi) (hdoes next) (hdoes next') hnext.on
  constructor
  · exact Goal.matches_of_tasks (Goal.offers_sequence_disjunction bs cs)
      (Goal.offers_distributed bs cs) halternatives
  · exact Goal.matches_of_tasks (Goal.offers_distributed bs cs)
      (Goal.offers_sequence_disjunction bs cs) halternatives

/-- Ways to group goals match in both directions. -/
theorem Goal.Regroups.matches (htests : TestsMirrored T k) (h : g.Regroups g') (hg : g.Unaware)
    (hg' : g'.Unaware) : g.Matches T k J g' ∧ g'.Matches T k J g := by
  cases h with
  | sequences h => exact h.matches_sequence hself hg
  | disjunctions h => exact h.matches_disjunction hself hg
  | distributed bs cs =>
    obtain ⟨hbs, hcs⟩ := List.forall_mem_cons.mp hg.of_sequence
    exact Goal.matches_distributed hself hbs.of_disjunction hcs
  | once_once g =>
    cases hg' with
    | once hg => exact Goal.matches_once_once (hself hg)
  | notNot_notNot g =>
    cases hg' with
    | notNot hg => exact (Goal.Tests.notNot g).matches_notNot hg htests
  | notNot_once g =>
    cases hg' with
    | notNot hg => exact (Goal.Tests.once g).matches_notNot hg htests

end Regroups

/-- Goals that are regrouped or made alike of related parts match. -/
theorem Goal.Congruence.matches {R : Goal S → Goal S → Prop} (hR : Goal.Congruence R)
    (hrun : RunsMirrored T R k) (htests : TestsMirrored T k) (J : Nat) {g g' : Goal S}
    (h : R g g') : g.Matches T k J g' := by
  -- goals made alike need their parts with one step less, and regrouped goals need
  -- parts of their own only, which are made alike
  induction J generalizing g g' with
  | zero => exact Goal.matches_of_simulates fun i hi => absurd hi (Nat.not_lt_zero i)
  | succ J ih =>
    have hself : ∀ {g : Goal S}, g.Unaware → g.Matches T k (J + 1) g := fun hg =>
      Goal.Layer.matches hR hrun ih (hR.refl hg) (Goal.layer_refl (fun _ => hR.refl) hg)
    obtain ⟨hg, hg'⟩ := hR.unaware h
    rcases hR.cases h with hregroups | hregroups | hlayer
    · exact (hregroups.matches hself htests hg hg').1
    · exact (hregroups.matches hself htests hg' hg).2
    · exact Goal.Layer.matches hR hrun ih h hlayer

/-! ### Runs -/

namespace Machine

/-- What a run that started on `m` leaves of the machine `m₀` at its end. -/
structure Concludes (T : Theory S) (m m₀ m₁ : Machine S) : Prop where
  frames : m₁.engine.frames = m.engine.frames
  trail : m₁.engine.trail = m.engine.trail
  beside : (m₀.undone m.engine.trail.length).Beside T m₁

theorem Retreats.exists_beside (h : m.Retreats m') : ∃ mark, (m.undone mark).Beside T m' := by
  obtain ⟨mark, htrail, hstore⟩ := h.slots
  exact ⟨mark, htrail.symm, h.config.symm,
    ⟨hstore.symm, h.output.state.symm, .inl h.objects.symm, h.output.rows.symm⟩, h.answers.symm⟩

theorem run_restores (hg : g.Steady) (hnext : next.Entry) {status : Status}
    (h : run T k g next m = .ok status m') : m.Restores Scope.Grows next m' := by
  have hsound := run_sound (Scope.history_grows T) requirement_true k g next hg hnext m trivial
  exact hsound.ok h

theorem length_of_run {n : Nat} {status : Status} {m m₁ : Machine S} (hg : g.Steady)
    (h : run T n g .finish m = .ok status m₁) :
    m₁.engine.trail.length = m.engine.trail.length :=
  congrArg Trail.length (run_restores hg .finish h).trail

theorem run_concludes (hg : g.Steady) (hnext : next.Entry) {status : Status} {m₀ : Machine S}
    (h : resume T k k (.task (.call g next)) (m.first g next).machine = .ok status m₀) :
    ∃ m₁, run T (k + 1) g next m = .ok status m₁ ∧ Concludes T m m₀ m₁ := by
  obtain ⟨m₁, hok, hretreats⟩ := run_of_drive hg hnext h
  have hrestores := run_restores hg hnext hok
  obtain ⟨mark, hmark⟩ := hretreats.exists_beside (T := T)
  refine ⟨m₁, hok, hrestores.frames, hrestores.trail, ?_⟩
  -- the run has gone back to where it started, and not to an earlier mark
  have hlength : (m₀.undone mark).engine.trail.length = m.engine.trail.length :=
    hmark.length.trans (congrArg Trail.length hrestores.trail)
  have hle : m.engine.trail.length ≤ mark := by
    rw [← hlength, length_undone]
    exact Nat.min_le_right _ _
  exact ((m₀.beside_undone_undone hle).trans (beside_undone _ hlength.le).symm).trans hmark

theorem run_stops {e : Stop} {m₀ : Machine S}
    (h : resume T k k (.task (.call g next)) (m.first g next).machine = .error e m₀) :
    run T (k + 1) g next m = .error e m₀ :=
  run_succ_apply.trans (bind_error h)

end Machine

section Runs

variable {α : Type} {x : Action (Machine S) α} {s : Machine S}
  {post : α → Machine S → Status → Machine S → Prop}
  {post' : Status → Machine S → α → Machine S → Prop} {stop : Machine S → Machine S → Prop}
  (hg : g.Steady) (hnext : next.Entry)

include hg hnext

/-- A run is matched if its steps are. -/
theorem matched_run_left {y : Nat → Action (Machine S) α}
    (h : Matched (resume T k k (.task (.call g next))) (m.first g next).machine y s post' stop) :
    Matched (run T (k + 1) g next) m y s
      (fun status m₁ a s' => ∃ m₀, post' status m₀ a s' ∧ Concludes T m m₀ m₁) stop := by
  cases hsteps : resume T k k (.task (.call g next)) (m.first g next).machine with
  | ok status m₀ =>
    obtain ⟨m₁, hok, hends⟩ := run_concludes hg hnext hsteps
    obtain ⟨n, a, s', hy, hpost⟩ := h.ok hsteps
    refine ⟨fun hx => ?_, fun hx => ?_, fun hx => ?_⟩
    · rw [hok] at hx
      cases hx
      exact ⟨n, a, s', hy, m₀, hpost, hends⟩
    · rw [hok] at hx
      cases hx
    · rw [hok] at hx
      cases hx
  | error e m₀ =>
    have herror := run_stops hsteps
    refine ⟨fun hx => ?_, fun hx => ?_, fun hx => ?_⟩
    · rw [herror] at hx
      cases hx
    · rw [herror] at hx
      exact h.fault (hsteps.trans hx)
    · rw [herror] at hx
      exact h.rows (hsteps.trans hx)

/-- A run matches if its steps do. -/
theorem matched_run_right
    (h : Matched x s (fun n => resume T n n (.task (.call g next))) (m.first g next).machine post
      stop) :
    Matched x s (fun n => run T n g next) m
      (fun a s' status m₁ => ∃ m₀, post a s' status m₀ ∧ Concludes T m m₀ m₁) stop := by
  -- The rows of a run are those of its steps: what a run adds at its ends writes none.
  have hrows : ∀ n, Logged.rows ((run T (n + 1) g next).last m) =
      Logged.rows ((resume T n n (.task (.call g next))).last (m.first g next).machine) := by
    intro n
    cases hsteps : resume T n n (.task (.call g next)) (m.first g next).machine with
    | ok status m₀ =>
      obtain ⟨m₁, hok, hends⟩ := run_concludes hg hnext hsteps
      rw [last, hok, last, hsteps]
      exact hends.beside.world.rows.symm
    | error e m₀ => rw [last, run_stops hsteps, last, hsteps]
  constructor
  · intro a s' hx
    obtain ⟨n, status, m₀, hsteps, hpost⟩ := h.ok hx
    obtain ⟨m₁, hok, hends⟩ := run_concludes hg hnext hsteps
    exact ⟨n + 1, status, m₁, hok, m₀, hpost, hends⟩
  · intro f s' hx
    obtain ⟨n, m₀, hsteps, hstop⟩ := h.fault hx
    exact ⟨n + 1, m₀, run_stops hsteps, hstop⟩
  · intro s' hx
    obtain ⟨n, hn⟩ := h.rows hx
    refine ⟨n + 1, fun j hj => ?_⟩
    obtain ⟨j, rfl⟩ : ∃ i, j = i + 1 := ⟨j - 1, by omega⟩
    rw [hrows]
    exact hn j (by omega)

end Runs

/-! ### From the first step of a run to its end -/

namespace Stage

theorem matches_ended (status : Status) :
    Stage.Matches T k J ν ⟨.ended status, F⟩ ⟨.ended status, F'⟩ := by
  intro m m' hm hm' hbeside
  exact simulates_ended (hm.paired hm' (by simp) (by simp) hbeside).beside status

theorem backtrack_sentinel :
    (Task.backtrack.on (⟨.sentinel, ν⟩ :: F)).Becomes T ν ⟨.ended .exit, ⟨.sentinel, ν⟩ :: F⟩ :=
  (backtrack_frame _).trans retry_sentinel

end Stage

/-- Runs that go back to their sentinels end. -/
theorem Stack.matches_base (h : m.Beside T m') :
    Stack.Matches T k J m.engine.trail.length m.base m'.base := by
  rw [Machine.base, Machine.base, ← h.length]
  exact ((Stage.matches_ended .exit).left Stage.backtrack_sentinel).right Stage.backtrack_sentinel

theorem Task.matches_finish : Task.Matches T k J ν F F' (.proceed .finish) (.proceed .finish) :=
  fun _ _ _ _ _ _ _ _ _ =>
    ((Stage.matches_ended .success).left Stage.proceed_finish).right Stage.proceed_finish

theorem Task.matches_refuse : Task.Matches T k J ν F F' (.proceed .refuse) (.proceed .refuse) :=
  fun _ _ _ _ _ _ _ _ hback =>
    (Stage.Matches.left hback Stage.proceed_refuse).right Stage.proceed_refuse

/-- An answer is the same on both sides. -/
theorem Task.matches_collect (template : S.Term)
    (h : Task.Matches T k J ν F F' (.proceed next) (.proceed next')) :
    Task.Matches T k J ν F F' (.proceed (.collect template next))
      (.proceed (.collect template next')) := by
  intro i hi μ G G' hμ hG hG' hback m m' hm hm' hbeside
  have hpaired := hm.paired hm' (by simp) (by simp) hbeside
  cases i with
  | zero => exact simulates_zero hpaired.beside.world.rows
  | succ i =>
    have hm₁ := (hpaired.counted .calls 1 1).pushed .step .step rfl hpaired.length.symm
    refine .of_step ?_
    refine Matched.of_ok (count_apply m .calls) (fun _ => count_apply m' .calls) ?_
    refine Matched.of_ok (pushHere_apply _ _) (fun _ => pushHere_apply _ _) ?_
    refine Matched.bind (fun _ _ hij => below_onWorld (World.resolve_below hij template))
      (fun answer => ample_const ?_) (resolve_mirrored k template hm₁.beside) ?_
    · refine Writes.bind (writes_of_rows (fun m => ⟨_, modify_apply _ m⟩) fun _ => rfl) fun _ => ?_
      exact writes_retire.bind fun _ => writes_pure _
    rintro answer m₂ _ _ m₂' - - ⟨rfl, h₂⟩
    have hm₂ := hm₁.apace h₂
    refine Matched.of_ok (modify_apply _ _) (fun _ => modify_apply _ _) ?_
    have hm₃ := hm₂.answered answer
    refine Matched.of_ok (retire_apply _ hm₃.frames) (fun _ => retire_apply _ hm₃.frames') ?_
    have hlater := h.mono (Nat.le_of_succ_le hi) hμ hG hG'
    exact matched_pure (hlater.simulates (hback.mono (Nat.le_succ i) (Nat.le_refl μ))
      (hm₃.retired G G'))

theorem Continuation.Entry.matches (hnext : next.Entry) (h : m.Beside T m') :
    next.Matches T k J m.engine.trail.length m.base m'.base next := by
  refine ⟨Stack.matches_base h, ?_⟩
  cases hnext with
  | finish => exact Task.matches_finish
  | first template => exact Task.matches_collect template Task.matches_finish
  | all template => exact Task.matches_collect template Task.matches_refuse

/-- Continuations with which the run has succeeded. -/
theorem Continuation.matches_of_success (h : m.Beside T m')
    (hnext : ∀ μ G, m.base <:+ G → ∃ F,
      ((Task.proceed next).on G).Becomes T μ ⟨.ended .success, F⟩)
    (hnext' : ∀ μ G, m'.base <:+ G → ∃ F,
      ((Task.proceed next').on G).Becomes T μ ⟨.ended .success, F⟩) :
    next.Matches T k J m.engine.trail.length m.base m'.base next' := by
  -- only the rest of the run is undone, so it does not matter what is on the stacks
  refine ⟨Stack.matches_base h, fun i hi μ G G' hμ hG hG' _ => ?_⟩
  obtain ⟨F, hends⟩ := hnext μ G hG
  obtain ⟨F', hends'⟩ := hnext' μ G' hG'
  exact ((Stage.matches_ended .success).left hends).right hends'

namespace Machine

theorem paired_first (g g' : Goal S) (next next' : Continuation S) (h : m.Beside T m') :
    Paired T m.engine.trail.length m.base m'.base (m.first g next).machine
      (m'.first g' next').machine :=
  ⟨rfl, rfl, Nat.le_refl _, ((m.beside_pushed _ _).symm.trans h).trans (m'.beside_pushed _ _)⟩

/-- Runs match if their first stages do. -/
theorem run_mirrored (hg : g.Steady) (hg' : g'.Steady) (hnext : next.Entry)
    (hstage : ((Task.call g next).on m.base).Matches T k k m.engine.trail.length
      ((Task.call g' next).on m'.base)) (h : m.Beside T m') :
    Mirrored T Eq (run T (k + 1) g next) m (fun n => run T n g' next) m' := by
  have hsteps := hstage.simulates (paired_first g g' next next h) rfl
  refine (matched_run_right hg' hnext (matched_run_left hg hnext hsteps)).mono ?_
  rintro status m₁ _ _ m₁' - - ⟨m₀', ⟨m₀, ⟨rfl, h₀⟩, hends⟩, hends'⟩
  refine ⟨rfl, ?_, hends.frames, hends'.frames, (congrArg Trail.length hends.trail).ge⟩
  -- both runs go back to where they started, which undoes the same bindings
  have hundone := h₀.undone m.engine.trail.length
  have hbeside' := hends'.beside
  rw [← h.length] at hbeside'
  exact (hends.beside.symm.trans hundone).trans hbeside'

theorem run_zero_mirrored {R : Status → Status → Prop} (h : m.Beside T m') :
    Mirrored T R (run T 0 g next) m (fun n => run T n g' next') m' :=
  matched_outOfFuel (fun _ _ hij => run_below hij g' next') h.world.rows

/-- A goal and its first solution only are run to the first solution. -/
theorem once_mirrored (hg : g.Steady) (hmatch : g.Matches T k k g) (h : m.Beside T m') :
    Mirrored T Eq (run T (k + 1) (.once g) .finish) m (fun n => run T n g .finish) m' ∧
      Mirrored T Eq (run T (k + 1) g .finish) m (fun n => run T n (.once g) .finish) m' := by
  have hfinish : ∀ {μ G}, ∃ F,
      ((Task.proceed (S := S) .finish).on G).Becomes T μ ⟨.ended .success, F⟩ :=
    ⟨_, Stage.proceed_finish⟩
  have hcommit : ∀ {o : Machine S} {μ G}, o.base <:+ G → ∃ F,
      ((Task.proceed (.commit o.base.length .finish)).on G).Becomes T μ ⟨.ended .success, F⟩ :=
    fun hG => ⟨_, (Stage.proceed_commit hG).trans Stage.proceed_finish⟩
  constructor
  · have hnext := Continuation.matches_of_success (T := T) (J := k) (k := k) h (fun _ _ => hcommit)
      fun _ _ _ => hfinish
    have hstage := hmatch k (Nat.le_refl k) _ _ _ _ _ hnext
    exact run_mirrored (.once hg) hg .finish (hstage.left Stage.call_once) h
  · have hnext := Continuation.matches_of_success (T := T) (J := k) (k := k) h
      (fun _ _ _ => hfinish) fun _ _ => hcommit
    have hstage := hmatch k (Nat.le_refl k) _ _ _ _ _ hnext
    exact run_mirrored hg (.once hg) .finish (hstage.right Stage.call_once) h

theorem becomes_verdict (status : Status) :
    ((Task.ofVerdict (status = .success) .finish).on (⟨.sentinel, ν⟩ :: F)).Becomes T ν
      ⟨.ended status, ⟨.sentinel, ν⟩ :: F⟩ := by
  cases status with
  | success => exact Stage.proceed_finish
  | exit => exact Stage.backtrack_sentinel

section NotNot

variable (hg : g.Steady)
  (hrun : ∀ m m', m.Beside T m' →
    Mirrored T Eq (run T k g .finish) m (fun n => run T n g .finish) m')

include hg hrun

/-- The call of a nested run, on the left, ends with the verdict of the run. -/
theorem call_notNot_left (h : m.Beside T m') :
    Matched (call T k (run T k) (.notNot g) .finish) (m.first (.notNot g) .finish).machine
      (fun n => run T n g .finish) m'
      (fun t m₁ status m₁' => ∀ j, Simulates T k j (.task t) m₁ (.ended status) m₁')
      (Stopped T) := by
  have hfirst := (m.beside_pushed m.engine.trail.length .sentinel).symm.trans h
  refine Matched.of_ok_left (count_apply _ .calls) (Matched.of_ok_left (pushHere_apply _ _) ?_)
  refine Matched.bind_left (fun _ _ hij => run_below hij _ _) (hrun _ _ ?_) ?_
  · exact ((beside_counted _ .calls 1).trans (beside_pushed _ _ .step)).symm.trans hfirst
  rintro status m₁ n _ m₁' - hright ⟨rfl, h₁⟩
  refine Matched.of_ok_left (retire_apply m₁ h₁.frames) (matched_pure fun j => ?_)
  have hbeside := (m₁.beside_retired m.base).symm.trans h₁.beside
  have hν' : m₁'.engine.trail.length = m.engine.trail.length :=
    (length_of_run hg hright).trans h.length.symm
  have hν : (m₁.retired m.base).engine.trail.length = m.engine.trail.length :=
    hbeside.length.trans hν'
  have hstage : Stage.Matches T k j m.engine.trail.length
      ((Task.ofVerdict (status = .success) .finish).on m.base)
      ⟨.ended status, m'.engine.frames⟩ :=
    (Stage.matches_ended status).left (becomes_verdict status)
  exact hstage _ _ ⟨rfl, hν.ge, .inl hν⟩ ⟨h₁.frames', hν'.ge, .inl hν'⟩ (hbeside.undone _)

/-- The call of a nested run, on the right, ends with the verdict of the run. -/
theorem call_notNot_right (h : m.Beside T m') :
    Matched (run T k g .finish) m (fun n => call T n (run T n) (.notNot g) .finish)
      (m'.first (.notNot g) .finish).machine
      (fun status m₁ t m₁' => Simulates T 0 0 (.ended status) m₁ (.task t) m₁') (Stopped T) := by
  have hfirst := h.trans (m'.beside_pushed m'.engine.trail.length .sentinel)
  refine Matched.of_ok_right (fun _ => count_apply _ .calls)
    (Matched.of_ok_right (fun _ => pushHere_apply _ _) ?_)
  refine Matched.bind_right (fun _ _ hij => run_below hij _ _)
    (fun _ => ample_const (writes_retire.bind fun _ => writes_pure _)) (hrun _ _ ?_) ?_
  · exact (hfirst.trans (beside_counted _ .calls 1)).trans (beside_pushed _ _ .step)
  rintro status m₁ n _ m₁' hleft - ⟨rfl, h₁⟩
  refine Matched.of_ok_right (fun _ => retire_apply m₁' h₁.frames') (matched_pure ?_)
  have hbeside := h₁.beside.trans (m₁'.beside_retired m'.base)
  have hν : m₁.engine.trail.length = m'.engine.trail.length :=
    (length_of_run hg hleft).trans h.length
  have hν' := hbeside.length.symm.trans hν
  have hstage : Stage.Matches T 0 0 m'.engine.trail.length ⟨.ended status, m.engine.frames⟩
      ((Task.ofVerdict (status = .success) .finish).on m'.base) :=
    (Stage.matches_ended status).right (becomes_verdict status)
  exact hstage _ _ ⟨h₁.frames, hν.ge, .inl hν⟩ ⟨rfl, hν'.ge, .inl hν'⟩ (hbeside.undone _)

/-- A run that is nested in another one, on the left. -/
theorem notNot_mirrored_left (h : m.Beside T m') :
    Mirrored T Eq (run T (k + 1) (.notNot g) .finish) m (fun n => run T n g .finish) m' := by
  have hample : Ample fun n => run T n g .finish := fun _ _ hij => run_below hij g .finish
  have hstep : Matched (step T k (run T k) (.call (.notNot g) .finish))
      (m.first (.notNot g) .finish).machine (fun n => run T n g .finish) m'
      (fun p m₁ status m₁' => ∀ j, Simulates T k j p m₁ (.ended status) m₁') (Stopped T) :=
    Matched.bind_left hample (call_notNot_left hg hrun h) fun _ _ _ _ _ _ _ hsim =>
      matched_pure hsim
  have hsteps : Matched (resume T k k (.task (.call (.notNot g) .finish)))
      (m.first (.notNot g) .finish).machine (fun n => run T n g .finish) m'
      (fun status m₁ status' m₁' => status = status' ∧ m₁.Beside T m₁') (Stopped T) := by
    cases k with
    | zero =>
      exact matched_outOfFuel hample ((m.beside_pushed _ .sentinel).symm.trans h).world.rows
    | succ k =>
      refine Matched.congr ?_ (resume_succ _ _) fun _ => rfl
      exact Matched.bind_left hample hstep fun _ _ _ _ _ _ _ hsim => hsim k
  refine (matched_run_left (.notNot hg) .finish hsteps).mono ?_
  rintro status m₁ n _ m₁' - hright ⟨m₀, ⟨rfl, h₀⟩, hends⟩
  have hlength : m₁'.engine.trail.length ≤ m.engine.trail.length :=
    ((length_of_run hg hright).trans h.length.symm).le
  refine ⟨rfl, ?_, hends.frames, (run_restores hg .finish hright).frames,
    (congrArg Trail.length hends.trail).ge⟩
  exact (hends.beside.symm.trans (h₀.undone _)).trans (m₁'.beside_undone hlength).symm

/-- A run that is nested in another one, on the right. -/
theorem notNot_mirrored_right (h : m.Beside T m') :
    Mirrored T Eq (run T k g .finish) m (fun n => run T n (.notNot g) .finish) m' := by
  have hstep : Matched (run T k g .finish) m
      (fun n => step T n (run T n) (.call (.notNot g) .finish))
      (m'.first (.notNot g) .finish).machine
      (fun status m₁ p m₁' => Simulates T 0 0 (.ended status) m₁ p m₁') (Stopped T) :=
    Matched.bind_right (fun _ _ hij => call_below hij (run_below hij) _ _)
      (fun _ => ample_const (writes_pure _)) (call_notNot_right hg hrun h)
      fun _ _ _ _ _ _ _ hsim => matched_pure hsim
  have hsteps := right_resume (Matched.bind_right
    (fun _ _ hij => step_below hij (run_below hij) _) ample_resume hstep
    fun _ _ _ _ _ _ _ hsim => hsim)
  refine (matched_run_right (.notNot hg) .finish hsteps).mono ?_
  rintro status m₁ _ _ m₁' hleft - ⟨m₀', ⟨rfl, h₀⟩, hends⟩
  have hlength := length_of_run hg hleft
  refine ⟨rfl, ?_, (run_restores hg .finish hleft).frames, hends.frames, hlength.ge⟩
  exact ((m₁.beside_undone (hlength.trans h.length).le).trans (h₀.undone _)).trans hends.beside

end NotNot

end Machine

/-- Runs of goals that are regrouped or made alike of related parts. -/
theorem Goal.Congruence.runsMirrored {R : Goal S → Goal S → Prop} (hR : Goal.Congruence R)
    (k : Nat) : RunsMirrored T R k ∧ TestsMirrored T k := by
  induction k with
  | zero =>
    exact ⟨fun _ _ _ _ h => run_zero_mirrored h,
      fun _ _ _ _ h => ⟨run_zero_mirrored h, run_zero_mirrored h⟩⟩
  | succ k ih =>
    -- nested runs have less fuel than the run that makes them, however many steps it takes
    have hmatch := hR.matches ih.1 ih.2
    have hruns : RunsMirrored T R (k + 1) := by
      intro g g' next hgg hnext m m' h
      obtain ⟨hg, hg'⟩ := hR.unaware hgg
      exact run_mirrored hg.steady hg'.steady hnext
        (hmatch k hgg k (Nat.le_refl k) _ _ _ _ _ (hnext.matches h)) h
    refine ⟨hruns, ?_⟩
    rintro _ g (_ | _) hg m m' h
    · exact once_mirrored hg.steady (hmatch k (hR.refl hg)) h
    · exact ⟨notNot_mirrored_left hg.steady (ih.1 (hR.refl hg) .finish) h,
        notNot_mirrored_right hg.steady (hruns (hR.refl hg) .finish) h⟩

/-! ### Grouping is unobservable -/

namespace Machine

section Coincide

variable {α : Type} {x y : Nat → Action (Machine S) α}

/-- Computations that do the same with enough fuel: each of them ends with the
value of the other one or stops for the same reason, and has then written the same
rows, with the same private state, the same slots and the same trail.  What one of
them has written when it runs out of fuel is written by the other one as well. -/
structure Coincide (T : Theory S) (x y : Nat → Action (Machine S) α) (m m' : Machine S) :
    Prop where
  left : ∀ k, Mirrored T Eq (x k) m y m'
  right : ∀ k, Mirrored T Eq (y k) m' x m

theorem Coincide.ok (h : Coincide T x y m m') {a : α} {m₁ : Machine S} (hx : x k m = .ok a m₁) :
    ∃ n m₁', y n m' = .ok a m₁' ∧ m₁.Beside T m₁' := by
  obtain ⟨n, _, m₁', hy, rfl, h₁⟩ := (h.left k).ok hx
  exact ⟨n, m₁', hy, h₁.beside⟩

end Coincide

/-- The three ways to run goals in a congruence. -/
theorem entry_points_mirrored {R : Goal S → Goal S → Prop} (hR : Goal.Congruence R) (h : R g g')
    (hm : m.Beside T m') (t : S.Term) (k : Nat) :
    Mirrored T Eq (execute T k g) m (fun n => execute T n g') m' ∧
      Mirrored T Eq (findFirst T k g t) m (fun n => findFirst T n g' t) m' ∧
      Mirrored T Eq (findAll T k g t) m (fun n => findAll T n g' t) m' := by
  have hrun : RunsMirrored T R k := (hR.runsMirrored k).1
  refine ⟨?_, ?_, ?_⟩
  · exact executeWith_mirrored (hrun h .finish) hm
  · exact findFirstWith_mirrored (hrun (hR.single h) (.first t)) hm
  · exact collecting_mirrored (hrun (hR.single h) (.all t)) hm

/-- Grouping goals in another way is unobservable, whatever is around them and
whatever the code in them does, as long as it does not depend on the stack and the
counters of its engine and does not put another engine in its place.  Since this
code is arbitrary, it may remember or write down each of its calls and the slots
that it finds then, so these are the same and come in the same order. -/
theorem regrouping_unobservable {C : Goal S → Goal S} (hC : Goal.Context C) (h : g.Regroups g')
    (hg : (C g).Unaware) (hg' : (C g').Unaware) (hm : m.Beside T m') (t : S.Term) :
    Coincide T (fun n => execute T n (C g)) (fun n => execute T n (C g')) m m' ∧
      Coincide T (fun n => findFirst T n (C g) t) (fun n => findFirst T n (C g') t) m m' ∧
      Coincide T (fun n => findAll T n (C g) t) (fun n => findAll T n (C g') t) m m' := by
  -- a congruence has a direction, so there is one for each of the two sides
  have hleft := entry_points_mirrored (Goal.congruence_placed (.inl h)) (hC.placed hg hg') hm t
  have hright := entry_points_mirrored (Goal.congruence_placed (.inr h)) (hC.placed hg' hg)
    hm.symm t
  refine ⟨⟨fun k => (hleft k).1, fun k => (hright k).1⟩, ?_, ?_⟩
  · exact ⟨fun k => (hleft k).2.1, fun k => (hright k).2.1⟩
  · exact ⟨fun k => (hleft k).2.2, fun k => (hright k).2.2⟩

end Machine

/-! ### Samples -/

/-- A step that writes down what a variable stands for, each time it is called. -/
def Bounds.scribe : Goal Bounds.vocabulary :=
  .test (.ask (.display (.var ⟨1⟩)) fun (text : String) => .ask (.say text) fun _ => .verdict true)

/-- Two branches with three values in all. -/
def Bounds.forked : List (Goal Bounds.vocabulary) :=
  [.memberOf (.var ⟨1⟩) [.int 1, .int 2], .memberOf (.var ⟨1⟩) [.int 3]]

/-- A goal in a run of its own, then without its bindings, and then with them. -/
def Bounds.surroundings (x : Goal Bounds.vocabulary) : Goal Bounds.vocabulary :=
  .sequence [.test (.execute x .verdict), .notNot x, x]

theorem Bounds.surroundings_context : Goal.Context Bounds.surroundings := by
  have hparts : ∀ C ∈ [fun x => Goal.test (.execute x .verdict), fun x => .notNot x, fun x => x],
      Goal.Context (S := Bounds.vocabulary) C := by
    simp only [List.forall_mem_cons]
    refine ⟨?_, .notNot .hole, .hole, by simp⟩
    exact .semideterministic (.verdict true) (.execute .hole .verdict)
  exact .sequence hparts

theorem Bounds.surroundings_unaware {x : Goal Bounds.vocabulary} (hx : x.Unaware) :
    (Bounds.surroundings x).Unaware := by
  refine .sequence ?_
  simp only [List.forall_mem_cons]
  exact ⟨.semideterministic (.verdict true) (.execute hx .verdict), .notNot hx, hx, by simp⟩

theorem Bounds.scribe_unaware : Bounds.scribe.Unaware :=
  .semideterministic (.verdict true) (.ask (by simp) fun _ => .ask (by simp) fun _ => .verdict true)

theorem Bounds.forked_unaware : ∀ b ∈ Bounds.forked, b.Unaware := by
  simp only [Bounds.forked, List.forall_mem_cons]
  exact ⟨Goal.heeds_memberOf _ _ _ _, Goal.heeds_memberOf _ _ _ _, by simp⟩

/-- The three answers of a goal that writes rows, with the branches in front of
the step that writes and with this step in each of them. -/
theorem Machine.regrouping_unobservable_scribe :
    ∃ answers m n m', findAll Bounds.theory 60 (Bounds.surroundings
        (.sequence [.disjunction Bounds.forked, Bounds.scribe])) (.var ⟨1⟩) Bounds.unused =
          .ok answers m ∧
      findAll Bounds.theory n (Bounds.surroundings
        (.disjunction (Bounds.forked.map fun b => .sequence [b, Bounds.scribe]))) (.var ⟨1⟩)
          Bounds.unused = .ok answers m' ∧
      answers.length = 3 ∧ m.Beside Bounds.theory m' := by
  have hsequence : ∀ b : Goal Bounds.vocabulary, b.Unaware →
      (Goal.sequence [b, Bounds.scribe]).Unaware := by
    intro b hb
    refine .sequence ?_
    simp only [List.forall_mem_cons]
    exact ⟨hb, Bounds.scribe_unaware, by simp⟩
  have hdistributed : (Goal.disjunction
      (Bounds.forked.map fun b => .sequence [b, Bounds.scribe])).Unaware :=
    .disjunction (List.forall_mem_map.mpr fun b hb => hsequence b (Bounds.forked_unaware b hb))
  have hlength : (result? (findAll Bounds.theory 60 (Bounds.surroundings
      (.sequence [.disjunction Bounds.forked, Bounds.scribe])) (.var ⟨1⟩))
        Bounds.unused).map List.length = some 3 := by
    decide +kernel
  obtain ⟨answers, hanswers, hlength⟩ := Option.map_eq_some_iff.mp hlength
  obtain ⟨m, hm⟩ := result?_eq_some.mp hanswers
  obtain ⟨-, -, hall⟩ := Machine.regrouping_unobservable Bounds.surroundings_context
    (.distributed Bounds.forked [Bounds.scribe])
    (Bounds.surroundings_unaware (hsequence _ (.disjunction Bounds.forked_unaware)))
    (Bounds.surroundings_unaware hdistributed) (.refl Bounds.unused) (.var ⟨1⟩)
  obtain ⟨n, m', hm', hbeside⟩ := hall.ok hm
  exact ⟨answers, m, n, m', hm, hm', hlength, hbeside⟩

/-- The first solution of a goal that puts a new engine in place of the one that
runs it, and has two choices with two values each on the new one. -/
def Bounds.renewing : Goal Bounds.vocabulary :=
  .once (.sequence [Bounds.renewal, .memberOf (.var ⟨1⟩) [.int 1, .int 2],
    .memberOf (.var ⟨2⟩) [.int 1, .int 2]])

/-- The commit of `once` cuts back to a height on the old engine.  This height is
greater inside a disjunction of a single branch, and then nothing of the new
engine is cut away, so all four answers are found and not two of them. -/
theorem Machine.renewal_shows_grouping :
    (Goal.disjunction [Bounds.renewing]).Regroups Bounds.renewing ∧
      (∃ l l' m m', findAll Bounds.theory 60 (.disjunction [Bounds.renewing])
          (.list [.var ⟨1⟩, .var ⟨2⟩]) Bounds.unused = .ok l m ∧
        findAll Bounds.theory 60 Bounds.renewing (.list [.var ⟨1⟩, .var ⟨2⟩]) Bounds.unused =
          .ok l' m' ∧ l.length = 4 ∧ l'.length = 2) ∧
      ¬ Coincide Bounds.theory
        (fun n => findAll Bounds.theory n (.disjunction [Bounds.renewing])
          (.list [.var ⟨1⟩, .var ⟨2⟩]))
        (fun n => findAll Bounds.theory n Bounds.renewing (.list [.var ⟨1⟩, .var ⟨2⟩]))
        Bounds.unused Bounds.unused := by
  have hfour : (result? (findAll Bounds.theory 60 (.disjunction [Bounds.renewing])
      (.list [.var ⟨1⟩, .var ⟨2⟩])) Bounds.unused).map List.length = some 4 := by
    decide +kernel
  have htwo : (result? (findAll Bounds.theory 60 Bounds.renewing
      (.list [.var ⟨1⟩, .var ⟨2⟩])) Bounds.unused).map List.length = some 2 := by
    decide +kernel
  obtain ⟨l, hl, hfour⟩ := Option.map_eq_some_iff.mp hfour
  obtain ⟨l', hl', htwo⟩ := Option.map_eq_some_iff.mp htwo
  obtain ⟨m, hm⟩ := result?_eq_some.mp hl
  obtain ⟨m', hm'⟩ := result?_eq_some.mp hl'
  refine ⟨.disjunctions (.single _), ⟨l, l', m, m', hm, hm', hfour, htwo⟩, fun hsame => ?_⟩
  obtain ⟨n, m₁, hm₁, -⟩ := hsame.ok hm
  -- Two bounds that suffice give the same list, and here the lengths differ.
  have hsame : l = l' :=
    Below.value_eq (fun i j hij => collecting_below (run_below hij) _ _) hm₁ hm'
  rw [← hsame, hfour] at htwo
  cases htwo

end GoalSearch
