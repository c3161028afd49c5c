/-
Steps that only rearrange what is left to do.

A sequence is taken apart into continuations, a disjunction into the branches of
a frame, and a commit drops frames.  None of these steps runs code, so all that
matters is which goals are called in the end, and in which order.

* `Stage.call_sequence`, `Stage.proceed_commit` and their like — single steps;
* `Task.Does` — a task comes to calling goals one after the other;
* `Stage.Offers` — a stage comes to one task after the other, whenever the run is
  sent back;
* `Goal.matches_of_does`, `Goal.matches_of_offers` — goals that come to the same
  match.

Design notes: goals in sequence are called with continuations in between that are
found while the steps are taken, and so are the stacks from which a disjunction
goes on.  Both are left to the definitions, which only say that there are some.
-/
import GoalSearch.Proofs.Stages

namespace GoalSearch

open GoalSearch.Action GoalSearch.Configuration Machine

variable {S : Vocabulary} {T : Theory S} {k J ν : Nat} {F F' G : List (Frame S)}
  {next next' : Continuation S} {g g' : Goal S}

/-! ### Single steps -/

namespace Stage

theorem call_succeed : ((Task.call .succeed next).on F).Becomes T ν ((Task.proceed next).on F) :=
  becomes_of_step (by simp) fun m hm _ =>
    ⟨_, fun _ => bind_ok (bind_ok (count_apply m .calls)), hm, m.beside_counted _ _⟩

theorem call_fail : ((Task.call .fail next).on F).Becomes T ν (Task.backtrack.on F) :=
  becomes_of_step (by simp) fun m hm _ =>
    ⟨_, fun _ => bind_ok (bind_ok (count_apply m .calls)), hm, m.beside_counted _ _⟩

theorem call_sequence {gs : List (Goal S)} :
    ((Task.call (.sequence gs) next).on F).Becomes T ν ((Task.sequence gs next).on F) :=
  becomes_of_step (by simp) fun m hm _ =>
    ⟨_, fun _ => bind_ok (bind_ok (count_apply m .calls)), hm, m.beside_counted _ _⟩

theorem call_once :
    ((Task.call (.once g) next).on F).Becomes T ν ((Task.call g (.commit F.length next)).on F) := by
  refine becomes_of_step (by simp) fun m hm _ => ⟨(m.counted .calls 1).stepped, fun n => ?_, hm, ?_⟩
  · refine bind_ok ((bind_ok (count_apply m .calls)).trans
      ((bind_ok (enterStep_apply _)).trans ((bind_ok (depth_apply _)).trans ?_)))
    rw [← hm]
    rfl
  · exact (m.beside_counted _ _).trans (beside_stepped _)

theorem call_disjunction {gs : List (Goal S)} :
    ((Task.call (.disjunction gs) next).on F).Becomes T ν
      (Task.retry.on (⟨.branches gs next, ν⟩ :: F)) := by
  refine becomes_of_step (by simp) fun m hm hν => ?_
  refine ⟨(m.counted .calls 1).pushed ν (.branches gs next), fun n => ?_, ?_, ?_⟩
  · refine bind_ok ((bind_ok (count_apply m .calls)).trans ?_)
    refine (bind_ok (pushHere_apply _ _)).trans ?_
    rw [← hν]
    rfl
  · rw [pushed_frames, counted_frames, hm]
  · exact (m.beside_counted _ _).trans (beside_pushed _ _ _)

theorem proceed_sequence {gs : List (Goal S)} :
    ((Task.proceed (.sequence gs next)).on F).Becomes T ν ((Task.sequence gs next).on F) :=
  becomes_of_step (by simp) fun m hm _ => ⟨m, fun _ => rfl, hm, .refl m⟩

theorem proceed_call :
    ((Task.proceed (.call g next)).on F).Becomes T ν ((Task.call g next).on F) :=
  becomes_of_step (by simp) fun m hm _ => ⟨m, fun _ => rfl, hm, .refl m⟩

theorem proceed_finish :
    ((Task.proceed .finish).on F).Becomes T ν ⟨.ended .success, F⟩ :=
  becomes_of_step (by simp) fun m hm _ => ⟨m, fun _ => rfl, hm, .refl m⟩

theorem proceed_refuse :
    ((Task.proceed .refuse).on F).Becomes T ν (Task.backtrack.on F) :=
  becomes_of_step (by simp) fun m hm _ =>
    ⟨_, fun _ => bind_ok (count_apply m .calls), hm, m.beside_counted _ _⟩

/-- A commit goes back to the stack at whose height it was made. -/
theorem proceed_commit (hF : F <:+ G) :
    ((Task.proceed (.commit F.length next)).on G).Becomes T ν ((Task.proceed next).on F) := by
  refine becomes_of_step (by simp) fun m hm _ => ?_
  refine ⟨m.committed F.length, fun n => bind_ok (commit_apply m _), ?_, m.beside_committed _⟩
  rw [committed_frames, Engine.depth, hm]
  exact (List.suffix_iff_eq_drop.mp hF).symm

theorem backtrack_frame (a : Activation S) :
    (Task.backtrack.on (⟨a, ν⟩ :: F)).Becomes T ν (Task.retry.on (⟨a, ν⟩ :: F)) := by
  intro m hm
  have hlength : (m.undone ν).engine.trail.length = ν :=
    (length_undone m ν).trans (Nat.min_eq_right hm.le)
  refine ⟨m.undone ν, .head (fun n => backtrack_apply hm.frames) (.refl _ _), ?_, ?_⟩
  · exact ⟨hm.frames, hlength.ge, .inl hlength⟩
  · exact beside_undone_undone m (Nat.le_refl ν)

theorem retry_sentinel :
    (Task.retry.on (⟨.sentinel, ν⟩ :: F)).Becomes T ν ⟨.ended .exit, ⟨.sentinel, ν⟩ :: F⟩ := by
  refine becomes_of_step (by simp) fun m hm _ => ⟨_, fun n => retry_apply n hm, hm, ?_⟩
  exact (m.beside_counted _ _).trans (beside_noted _ rfl)

theorem retry_exhausted :
    (Task.retry.on (⟨.branches [] next, ν⟩ :: F)).Becomes T ν (Task.backtrack.on F) := by
  refine becomes_of_step (by simp) fun m hm hν => ?_
  let m₁ := (m.counted .retries 1).noted (.retried .disjunction (F.length + 1))
  refine ⟨m₁.popped ⟨.branches [] next, ν⟩ F, fun n => ?_, rfl, ?_⟩
  · exact (retry_apply n hm).trans (bind_ok (exhausted_apply hm))
  · have hnoted : m.Beside T m₁ := (m.beside_counted _ _).trans (beside_noted _ rfl)
    exact (hnoted.trans (m₁.beside_undone hν.le)).trans (m₁.beside_popped ⟨.branches [] next, ν⟩ F)

theorem retry_branch {gs : List (Goal S)} :
    (Task.retry.on (⟨.branches (g :: gs) next, ν⟩ :: F)).Becomes T ν
      ((Task.call g next).on (⟨.branches gs next, ν⟩ :: F)) := by
  refine becomes_of_step (by simp) fun m hm hν => ?_
  let m₁ := (m.counted .retries 1).noted (.retried .disjunction (F.length + 1))
  refine ⟨m₁.withFrames (⟨.branches gs next, ν⟩ :: F), fun n => ?_, rfl, ?_⟩
  · exact (retry_apply n hm).trans (bind_ok (updateAt_apply m₁ hm rfl _))
  · exact ((m.beside_counted _ _).trans (beside_noted _ rfl)).trans (m₁.beside_withFrames _)

end Stage

/-! ### Continuations -/

/-- Tasks that drop the frames upon two stacks. -/
theorem Task.Matches.dropping {t t' t₁ t₁' : Task S} (h : Task.Matches T k J ν F F' t₁ t₁')
    (hback : Stack.Matches T k J ν F F') (ht : ∀ μ G, F <:+ G → (t.on G).Becomes T μ (t₁.on F))
    (ht' : ∀ μ G, F' <:+ G → (t'.on G).Becomes T μ (t₁'.on F')) :
    Task.Matches T k J ν F F' t t' := by
  intro i hi μ G G' hμ hG hG' _
  have hstage := h i hi μ F F' hμ (List.suffix_refl _) (List.suffix_refl _) (hback.mono hi hμ)
  exact (hstage.left (ht μ G hG)).right (ht' μ G' hG')

theorem Continuation.Matches.commit (h : next.Matches T k J ν F F' next') :
    Continuation.Matches T k J ν F F' (.commit F.length next) (.commit F'.length next') :=
  ⟨h.back, h.on.dropping h.back (fun _ _ hG => Stage.proceed_commit hG) fun _ _ hG =>
    Stage.proceed_commit hG⟩

theorem Continuation.Matches.call (hg : g.Matches T k J g') (h : next.Matches T k J ν F F' next') :
    Continuation.Matches T k J ν F F' (.call g next) (.call g' next') :=
  ⟨h.back, ((hg.task h.on).left fun _ _ _ => Stage.proceed_call).right fun _ _ _ =>
    Stage.proceed_call⟩

/-! ### Lists of goals that stand for others -/

/-- Each goal of the first list stands for some goals of the second one. -/
inductive Goal.Spread (P : Goal S → List (Goal S) → Prop) : List (Goal S) → List (Goal S) → Prop
  | nil : Spread P [] []
  | cons {g : Goal S} {gs xs ys : List (Goal S)} :
      P g xs → Spread P gs ys → Spread P (g :: gs) (xs ++ ys)

section Spread

variable {P : Goal S → List (Goal S) → Prop} {gs gs' xs ys : List (Goal S)}

theorem Goal.Spread.append (h : Spread P gs xs) (h' : Spread P gs' ys) :
    Spread P (gs ++ gs') (xs ++ ys) := by
  induction h with
  | nil => exact h'
  | cons hg _ ih =>
    rw [List.append_assoc]
    exact .cons hg ih

variable (hself : ∀ g, P g [g])

include hself

theorem Goal.spread_self : ∀ gs, Spread P gs gs
  | [] => .nil
  | g :: gs => .cons (hself g) (spread_self gs)

/-- Both ways to group goals stand for the same goals, which are parts of them. -/
theorem Goal.Flattens.exists_parts {unit : Goal S} {join : List (Goal S) → Goal S}
    (hunit : P unit []) (hjoin : ∀ gs xs, Spread P gs xs → P (join gs) xs)
    (h : Flattens unit join g g') :
    ∃ xs, P g xs ∧ P g' xs ∧
      ∀ p : Goal S → Prop, (∀ gs, p (join gs) → ∀ x ∈ gs, p x) → p g → ∀ x ∈ xs, p x := by
  have hsame := Goal.spread_self hself
  cases h with
  | empty => exact ⟨[], hjoin [] [] .nil, hunit, by simp⟩
  | single => exact ⟨[g'], hjoin _ _ (hsame _), hself g', fun p hp hg => hp _ hg⟩
  | nested as bs cs =>
    refine ⟨as ++ (bs ++ cs), hjoin _ _ ?_, hjoin _ _ ?_, fun p hp hg x hx => ?_⟩
    · exact (hsame as).append (.cons (hjoin bs bs (hsame bs)) (hsame cs))
    · rw [List.append_assoc]
      exact hsame _
    · have hparts := hp _ hg
      rcases List.mem_append.mp hx with hx | hx
      · exact hparts x (by simp [hx])
      · rcases List.mem_append.mp hx with hx | hx
        · exact hp bs (hparts _ (by simp)) x hx
        · exact hparts x (by simp [hx])
  | neutral as cs =>
    refine ⟨as ++ cs, hjoin _ _ ?_, hjoin _ _ (hsame _), fun p hp hg x hx => hp _ hg x ?_⟩
    · exact (hsame as).append (.cons hunit (hsame cs))
    · rcases List.mem_append.mp hx with hx | hx <;> simp [hx]

end Spread

/-! ### Goals one after the other -/

variable (T) in
/-- The task comes to calling goals one after the other, and goes on with `next`. -/
def Task.Does (next : Continuation S) : List (Goal S) → Task S → Prop
  | [], t => ∀ ν F, (t.on F).Becomes T ν ((Task.proceed next).on F)
  | g :: gs, t => ∃ inner, (∀ ν F, (t.on F).Becomes T ν ((Task.call g inner).on F)) ∧
      Task.Does next gs (.proceed inner)

variable (T) in
/-- A call of the goal comes to calling other goals one after the other. -/
def Goal.Does (g : Goal S) (xs : List (Goal S)) : Prop :=
  ∀ next, Task.Does T next xs (.call g next)

section Does

variable {t t' t₁ : Task S} {gs xs xs' ys : List (Goal S)}

theorem Task.Does.of_becomes (h : Task.Does T next xs t₁)
    (ht : ∀ ν F, (t.on F).Becomes T ν (t₁.on F)) : Task.Does T next xs t := by
  cases xs with
  | nil => exact fun ν F => (ht ν F).trans (h ν F)
  | cons g gs =>
    obtain ⟨inner, hcall, hrest⟩ := h
    exact ⟨inner, fun ν F => (ht ν F).trans (hcall ν F), hrest⟩

theorem Task.Does.append {inner : Continuation S} (h : Task.Does T inner xs t)
    (h' : Task.Does T next ys (.proceed inner)) : Task.Does T next (xs ++ ys) t := by
  induction xs generalizing t with
  | nil => exact h'.of_becomes h
  | cons x xs ih =>
    obtain ⟨inner', hcall, hrest⟩ := h
    exact ⟨inner', hcall, ih hrest⟩

theorem Goal.does_self (g : Goal S) : g.Does T [g] :=
  fun next => ⟨next, fun _ _ => .refl _, fun _ _ => .refl _⟩

theorem Goal.does_succeed : Goal.Does T .succeed ([] : List (Goal S)) :=
  fun _ _ _ => Stage.call_succeed

theorem Task.does_sequence (h : Goal.Spread (Goal.Does T) gs xs) (next : Continuation S) :
    Task.Does T next xs (.sequence gs next) := by
  induction h with
  | nil => exact fun _ _ => .refl _
  | @cons g gs xs ys hg _ ih =>
    cases gs with
    | nil => exact (hg next).append ih
    | cons g' gs => exact (hg _).append (ih.of_becomes fun _ _ => Stage.proceed_sequence)

theorem Goal.does_sequence (h : Goal.Spread (Goal.Does T) gs xs) :
    (Goal.sequence gs).Does T xs :=
  fun next => (Task.does_sequence h next).of_becomes fun _ _ => Stage.call_sequence

/-- Tasks that come to goals that match. -/
theorem Task.matches_of_does (hgs : List.Forall₂ (Goal.Matches T k J) xs xs')
    (h : Task.Does T next xs t) (h' : Task.Does T next' xs' t')
    (hnext : Task.Matches T k J ν F F' (.proceed next) (.proceed next')) :
    Task.Matches T k J ν F F' t t' := by
  induction hgs generalizing t t' with
  | nil => exact (hnext.left fun μ G _ => h μ G).right fun μ G _ => h' μ G
  | cons hg _ ih =>
    obtain ⟨inner, hcall, hrest⟩ := h
    obtain ⟨inner', hcall', hrest'⟩ := h'
    exact ((hg.task (ih hrest hrest')).left fun μ G _ => hcall μ G).right fun μ G _ => hcall' μ G

theorem Goal.matches_of_does (hgs : List.Forall₂ (Goal.Matches T k J) xs xs') (h : g.Does T xs)
    (h' : g'.Does T xs') : g.Matches T k J g' := by
  intro i hi ν F F' next next' hnext
  have htask := Task.matches_of_does (hgs.imp fun _ _ h => h.mono hi) (h next) (h' next') hnext.on
  exact htask.stage hnext.back

end Does

/-! ### Goals in turn -/

variable (T) in
/-- From the stage a run comes to tasks one after the other, the next one whenever
it is sent back, and goes back on the stack `F` in the end. -/
def Stage.Offers (ν : Nat) (F : List (Frame S)) : List (Task S) → Stage S → Prop
  | [], c => c.Becomes T ν (Task.backtrack.on F)
  | t :: ts, c => ∃ G, F <:+ G ∧ c.Becomes T ν (t.on G) ∧
      Stage.Offers ν F ts (Task.backtrack.on G)

variable (T) in
/-- A call of the goal comes to calling other goals in turn. -/
def Goal.Offers (g : Goal S) (xs : List (Goal S)) : Prop :=
  ∀ next ν F, Stage.Offers T ν F (xs.map fun x => .call x next) ((Task.call g next).on F)

section Offers

variable {c c' c₁ : Stage S} {ts ts' : List (Task S)} {gs xs xs' : List (Goal S)}

theorem Stage.Offers.of_becomes (h : Stage.Offers T ν F ts c₁) (hc : c.Becomes T ν c₁) :
    Stage.Offers T ν F ts c := by
  cases ts with
  | nil => exact hc.trans h
  | cons t ts =>
    obtain ⟨G, hG, ht, hrest⟩ := h
    exact ⟨G, hG, hc.trans ht, hrest⟩

theorem Stage.Offers.append (h : Stage.Offers T ν G ts c) (hF : F <:+ G)
    (h' : Stage.Offers T ν F ts' (Task.backtrack.on G)) : Stage.Offers T ν F (ts ++ ts') c := by
  induction ts generalizing c with
  | nil => exact h'.of_becomes h
  | cons t ts ih =>
    obtain ⟨H, hH, ht, hrest⟩ := h
    exact ⟨H, hF.trans hH, ht, ih hrest⟩

theorem Stage.Offers.refine (h : Stage.Offers T ν F ts c)
    (hts : List.Forall₂ (fun t t₁ => ∀ F, (t.on F).Becomes T ν (t₁.on F)) ts ts') :
    Stage.Offers T ν F ts' c := by
  induction hts generalizing c with
  | nil => exact h
  | cons ht _ ih =>
    obtain ⟨G, hG, hc, hrest⟩ := h
    exact ⟨G, hG, hc.trans (ht G), ih hrest⟩

theorem Goal.offers_self (g : Goal S) : g.Offers T [g] :=
  fun _ _ F => ⟨F, List.suffix_refl F, .refl _, .refl _⟩

theorem Goal.offers_fail : Goal.Offers T .fail ([] : List (Goal S)) :=
  fun _ _ _ => Stage.call_fail

theorem Stage.offers_branches (h : Goal.Spread (Goal.Offers T) gs xs) (next : Continuation S)
    (ν : Nat) (F : List (Frame S)) :
    Stage.Offers T ν F (xs.map fun x => .call x next)
      (Task.retry.on (⟨.branches gs next, ν⟩ :: F)) := by
  induction h with
  | nil => exact Stage.retry_exhausted
  | cons hg _ ih =>
    rw [List.map_append]
    refine Stage.Offers.of_becomes (.append (hg next ν _) (List.suffix_cons _ F) ?_)
      Stage.retry_branch
    exact ih.of_becomes (Stage.backtrack_frame _)

theorem Goal.offers_disjunction (h : Goal.Spread (Goal.Offers T) gs xs) :
    (Goal.disjunction gs).Offers T xs :=
  fun next ν F => (Stage.offers_branches h next ν F).of_becomes Stage.call_disjunction

theorem Task.matches_calls (hgs : List.Forall₂ (Goal.Matches T k J) xs xs')
    (hnext : Task.Matches T k J ν F F' (.proceed next) (.proceed next')) :
    List.Forall₂ (Task.Matches T k J ν F F') (xs.map fun x => .call x next)
      (xs'.map fun x => .call x next') := by
  rw [List.forall₂_map_left_iff, List.forall₂_map_right_iff]
  exact hgs.imp fun _ _ hg => hg.task hnext

/-- Stages that come to tasks that match. -/
theorem Stage.matches_of_offers (hts : List.Forall₂ (Task.Matches T k J ν F F') ts ts')
    (h : Stage.Offers T ν F ts c) (h' : Stage.Offers T ν F' ts' c')
    (hback : Stack.Matches T k J ν F F') : c.Matches T k J ν c' := by
  induction hts generalizing c c' with
  | nil => exact (Stage.Matches.left hback h).right h'
  | cons ht _ ih =>
    obtain ⟨G, hG, hc, hrest⟩ := h
    obtain ⟨G', hG', hc', hrest'⟩ := h'
    -- the tasks that are left are what the run comes to when it is sent back
    have hstage := ht J (Nat.le_refl J) ν G G' (Nat.le_refl ν) hG hG' (ih hrest hrest')
    exact (hstage.left hc).right hc'

theorem Goal.matches_of_tasks {alternatives : Continuation S → List (Task S)}
    (h : ∀ next ν F, Stage.Offers T ν F (alternatives next) ((Task.call g next).on F))
    (h' : ∀ next ν F, Stage.Offers T ν F (alternatives next) ((Task.call g' next).on F))
    (halternatives : ∀ i ≤ J, ∀ {ν F F' next next'}, Continuation.Matches T k i ν F F' next next' →
      List.Forall₂ (Task.Matches T k i ν F F') (alternatives next) (alternatives next')) :
    g.Matches T k J g' :=
  fun i hi ν F F' next next' hnext =>
    Stage.matches_of_offers (halternatives i hi hnext) (h next ν F) (h' next' ν F') hnext.back

theorem Goal.matches_of_offers (hgs : List.Forall₂ (Goal.Matches T k J) xs xs)
    (h : g.Offers T xs) (h' : g'.Offers T xs) : g.Matches T k J g' :=
  Goal.matches_of_tasks h h' fun _ hi _ _ _ _ _ hnext =>
    Task.matches_calls (hgs.imp fun _ _ h => h.mono hi) hnext.on

end Offers

end GoalSearch
