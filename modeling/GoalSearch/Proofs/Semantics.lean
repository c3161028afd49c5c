/-
What runs find.

Running a goal finds its solutions: whether there is one, the template at the
first, and the template at all of them in their order.  A run finds them if and
only if the list of solutions is known that far, so a run that does not end is
a list that breaks off within every bound.

* `Solutions.Delivers.collects`, `Solutions.Delivers.collects_first` — answers are
  collected from a list that is delivered;
* `Machine.finds_solutions` — execute, findFirst and findAll.
-/
import GoalSearch.Proofs.Copies
import GoalSearch.Proofs.Extent
import GoalSearch.Proofs.Simulation
import GoalSearch.Proofs.Slotwise
import GoalSearch.Proofs.Subst

namespace GoalSearch

open GoalSearch.Action GoalSearch.Configuration Machine Solutions

variable {S : Vocabulary} {T : Theory S} {k₀ k n : Nat}

/-! ### Collecting answers -/

section Collect

variable {t : S.Term} {next : Continuation S} {m : Machine S}

theorem World.copied_of_resolve {w w' : World S} {a : S.Term}
    (h : World.resolve T n t w = .ok a w') : T.Copied n t w.store := by
  rw [Theory.Copied, T.resolve?_isSome w.store n t 0 w.nextObject]
  rw [World.resolve, bind_ok (get_apply w)] at h
  cases hrun : (T.resolve? w.store n t).run w.nextObject with
  | some p => rfl
  | none =>
    rw [hrun] at h
    cases h

/-- The machine after keeping an answer, with a new count of structures. -/
def Machine.collected (m : Machine S) (a : S.Term) (nextObject : Nat) : Machine S :=
  { (m.counted .calls 1).pushed m.engine.trail.length .step with
    world.nextObject := nextObject, answers := a :: m.answers }.retired m.engine.frames

@[simp] theorem Machine.collected_frames (m : Machine S) (a : S.Term) (nextObject : Nat) :
    (m.collected a nextObject).engine.frames = m.engine.frames := rfl

theorem Machine.proceed_collect {a : S.Term} {j : Nat}
    (h : (T.resolve? m.world.store k t).run m.world.nextObject = some (a, j)) :
    proceed T k (.collect t next) m = .ok (.task (.proceed next)) (m.collected a j) := by
  let m₁ := (m.counted .calls 1).pushed m.engine.trail.length .step
  have hresolve : World.resolve T k t m₁.world = .ok a { m₁.world with nextObject := j } := by
    have hrun : (T.resolve? m₁.world.store k t).run m₁.world.nextObject = some (a, j) := h
    rw [World.resolve, bind_ok (get_apply _), hrun]
    rfl
  have honWorld : onWorld (World.resolve T k t) m₁ =
      .ok a { m₁ with world.nextObject := j } := by
    rw [onWorld, onPart, hresolve]
  rw [proceed, bind_ok (count_apply m _), bind_ok (pushHere_apply _ _)]
  refine (bind_ok honWorld).trans ((bind_ok (modify_apply _ _)).trans ?_)
  exact bind_ok (retire_apply _ rfl)

/-- Collecting an answer puts a copy of the template on top of the answers. -/
theorem Machine.reaches_collected (next : Continuation S) (h : T.Copied k t m.world.store) :
    ∃ a m', Reaches T k 1 ⟨.proceed (.collect t next), m⟩ ⟨.proceed next, m'⟩ ∧
      T.IsCopy t m.world.store a ∧
      m.Stays Scope.Continues (m'.withAnswers m.answers) ∧ m'.answers = a :: m.answers := by
  rw [Theory.Copied, T.resolve?_isSome m.world.store k t 0 m.world.nextObject] at h
  obtain ⟨⟨a, j⟩, hrun⟩ := Option.isSome_iff_exists.mp h
  exact ⟨a, m.collected a j, .single (proceed_collect hrun), ⟨k, _, j, hrun⟩,
    stays_of_eq rfl rfl rfl rfl, rfl⟩

theorem Machine.copied_of_collect {p : Progress S} {m' : Machine S}
    (h : step T k (run T k) (.proceed (.collect t next)) m = .ok p m') :
    T.Copied k t m.world.store := by
  have h' : proceed T k (.collect t next) m = .ok p m' := h
  rw [proceed, bind_ok (count_apply m _), bind_ok (pushHere_apply _ _)] at h'
  obtain ⟨a, m₁, hresolve, -⟩ := bind_eq_ok.mp h'
  rw [onWorld, onPart] at hresolve
  split at hresolve
  · next b w hw =>
    have hcopied := World.copied_of_resolve hw
    exact hcopied
  · cases hresolve

variable {X : Solutions S} {J L : Nat} {o : Machine S} {c : Configuration S}

namespace Solutions

/-- Answers are collected from a finite list, if they can be kept one by one. -/
theorem Delivers.collects {Answer : Store S → S.Term → Prop}
    (h : X.Delivers T k₀ k J (.collect t .refuse) L o c) {xs : List (Store S)}
    (hX : X.all? = some xs)
    (hkeep : ∀ s ∈ xs, ∀ m, o.scope.Continues m.scope → m.world.store ≈ s →
      ∃ a m', Reaches T k 1 ⟨.proceed (.collect t .refuse), m⟩ ⟨.proceed .refuse, m'⟩ ∧
        Answer s a ∧ m.Stays Scope.Continues (m'.withAnswers m.answers) ∧
        m'.answers = a :: m.answers) :
    ∃ as j m, List.Forall₂ Answer xs as ∧ c.Reaches T k j ⟨.backtrack, m⟩ ∧
      j ≤ xs.length * (J + 2) + J ∧ m.answers = as.reverse ++ o.answers ∧
      o.Stays Scope.Continues (m.withAnswers o.answers) := by
  induction X generalizing L o c xs with
  | nil =>
    cases hX
    obtain ⟨j, m, hj, hreaches, hm⟩ := h
    exact ⟨[], j, m, .nil, hreaches, by omega, hm.answers, hm.frames, rfl, hm.scope⟩
  | stopped => cases hX
  | cons s rest ih =>
    obtain ⟨ys, hys, rfl⟩ := Option.map_eq_some_iff.mp hX
    rw [List.forall_mem_cons] at hkeep
    obtain ⟨j, m, hj, hreaches, hm, hs, hrest⟩ := h
    obtain ⟨a, m₁, hcollect, ha, hstays, hanswers⟩ := hkeep.1 m hm.scope hs
    -- the answer is kept, and the engine is sent back for the next one
    let m₂ := m₁.counted .calls 1
    have hrefuse : Reaches T k 1 ⟨.proceed .refuse, m₁⟩ ⟨.backtrack, m₂⟩ :=
      .single (bind_ok (count_apply m₁ .calls))
    have hback := hrest m₂ hstays.frames (continues_of_eq hstays.scope rfl rfl)
    obtain ⟨as, j', m', has, hreaches', hj', hanswers', hlast⟩ := ih hback hys hkeep.2
    refine ⟨a :: as, _, m', .cons ha has,
      hreaches.trans (hcollect.trans (hrefuse.trans hreaches')), ?_, ?_,
      hlast.frames, rfl, hlast.scope⟩
    · rw [List.length_cons, Nat.succ_mul]
      omega
    · rw [hanswers']
      show as.reverse ++ m₁.answers = _
      rw [hanswers, hm.answers]
      simp

/-- Copies of a template are collected from a finite list. -/
theorem Delivers.collects_all (h : X.Delivers T k₀ k J (.collect t .refuse) L o c)
    (ho : o.world.store.ChainsEnd) {xs : List (Store S)} (hX : X.all? = some xs)
    (hxs : ∀ s ∈ xs, T.Copied k t s) :
    ∃ as j m, List.Forall₂ (T.IsCopy t) xs as ∧ c.Reaches T k j ⟨.backtrack, m⟩ ∧
      j ≤ xs.length * (J + 2) + J ∧ m.answers = as.reverse ++ o.answers ∧
      o.Stays Scope.Continues (m.withAnswers o.answers) := by
  refine h.collects hX fun s hs m hm hms => ?_
  have hends : m.world.store.ChainsEnd := hm.chainsEnd ho
  have hcopied := (hxs s hs).congr (hends.congr hms) (Setoid.symm hms)
  obtain ⟨a, m', hcollect, hcopy, hstays, hanswers⟩ := reaches_collected .refuse hcopied
  exact ⟨a, m', hcollect, hcopy.congr hends hms, hstays, hanswers⟩

end Solutions

end Collect

/-! ### What runs find -/

namespace Machine

variable {g : Goal S} {next : Continuation S} {m : Machine S} {t : S.Term}

theorem executeWith_apply {run : Runner S} {status : Status} {m' : Machine S}
    (h : run g next (m.logged (.runStarted m.engine.depth m.engine.trail.length)) =
      .ok status m') :
    executeWith run g next m =
      .ok (decide (status = .success)) (m'.logged (.runFinished status)) := by
  rw [executeWith, bind_ok (depth_apply m), bind_ok (trailLength_apply m), bind_ok (note_apply m _)]
  exact (bind_ok h).trans (bind_ok (note_apply m' _))

theorem executeWith_eq_ok {run : Runner S} {b : Bool} {answers : List S.Term} {w : World S} :
    (∃ m', executeWith run g next m = .ok b m' ∧ m'.answers = answers ∧ w.SameOutput m'.world) ↔
      ∃ status m', run g next (m.logged (.runStarted m.engine.depth m.engine.trail.length)) =
        .ok status m' ∧ decide (status = .success) = b ∧ m'.answers = answers ∧
          w.SameOutput m'.world := by
  constructor
  · rintro ⟨m', hok, hanswers, hw⟩
    rw [executeWith, bind_ok (depth_apply m), bind_ok (trailLength_apply m),
      bind_ok (note_apply m _)] at hok
    obtain ⟨status, m₁, hrun, hlast⟩ := bind_eq_ok.mp hok
    rw [bind_ok (note_apply m₁ _)] at hlast
    cases hlast
    exact ⟨status, m₁, hrun, rfl, hanswers, hw.trans (m₁.logged_output rfl).symm⟩
  · rintro ⟨status, m₁, hrun, rfl, hanswers, hw⟩
    exact ⟨_, executeWith_apply hrun, hanswers, hw.trans (m₁.logged_output rfl)⟩

theorem collecting_apply {x : Action (Machine S) Bool} {b : Bool} {m' : Machine S}
    (h : x (m.withAnswers []) = .ok b m') :
    collecting x m = .ok m'.answers.reverse (m'.withAnswers m.answers) := by
  rw [collecting, bind_ok (get_apply m), bind_ok (modify_apply _ m)]
  exact (bind_ok h).trans rfl

/-- The machine on which a run for answers is started. -/
def searching (m : Machine S) : Machine S :=
  (m.withAnswers []).logged (.runStarted m.engine.depth m.engine.trail.length)

/-- A run for answers finds those that are collected when its steps come to an
end. -/
theorem collecting_eq_ok (hg : g.Steady) (hnext : next.Entry) {as : List S.Term} {w : World S} :
    (∃ m', collecting (executeWith (run T (k + 1)) (.sequence [g]) next) m = .ok as m' ∧
        w.SameOutput m'.world) ↔
      ∃ status m', drive T k (run T k) (.call (.sequence [g]) next) k
        (m.searching.first (.sequence [g]) next).machine = .ok status m' ∧
        m'.answers.reverse = as ∧ w.SameOutput m'.world := by
  constructor
  · rintro ⟨m', hok, hw⟩
    rw [collecting, bind_ok (get_apply m), bind_ok (modify_apply _ m)] at hok
    obtain ⟨b, m₁, hexecute, hlast⟩ := bind_eq_ok.mp hok
    cases hlast
    obtain ⟨status, m₂, hrun, -, hanswers, hw₂⟩ := executeWith_eq_ok.mp ⟨m₁, hexecute, rfl, hw⟩
    obtain ⟨m₃, hdrive, hm₃, hw₃⟩ := (run_eq_ok hg.single hnext).mp ⟨m₂, hrun, rfl, hw₂⟩
    exact ⟨status, m₃, hdrive, by rw [hm₃, hanswers], hw₃⟩
  · rintro ⟨status, m₃, hdrive, rfl, hw⟩
    obtain ⟨m₂, hrun, hm₂, hw₂⟩ := (run_eq_ok hg.single hnext).mpr ⟨m₃, hdrive, rfl, hw⟩
    obtain ⟨m₁, hexecute, hm₁, hw₁⟩ := executeWith_eq_ok.mpr ⟨status, m₂, hrun, rfl, hm₂, hw₂⟩
    rw [← hm₁]
    exact ⟨_, collecting_apply hexecute, hw₁⟩

end Machine

theorem Solutions.Enacts.sequence {g : Goal S} {s : Store S} {X : Solutions S} {J : Nat}
    (h : Enacts T n s X J (.call g)) : Enacts T n s X (J + 1) (.call (.sequence [g])) := by
  intro k₀ k hk hJ m next hm hs
  have hreaches : Reaches T k 1 ⟨.call (.sequence [g]) next, m⟩
      ⟨.call g next, m.counted .calls 1⟩ :=
    .single (bind_ok (bind_ok (count_apply m .calls)))
  have hcall := h k₀ k hk (by omega) (m.counted .calls 1) next hm hs
  exact ((hcall.of_stays (stays_counted m .calls 1)).of_reaches hk hreaches).mono
    (Nat.le_refl _) (Nat.le_add_right _ _)

section Find

variable (hT : T.GuardsInert) {g : Goal S} (hg : g.Steady) (hslot : g.Slotwise T) (w : World S)
  {m : Machine S} (hm : m.world.store.ChainsEnd) {t : S.Term}

include hT hg hslot hm

/-- A run for all answers whose list is known to its end finds them. -/
theorem Machine.exists_findAll {n : Nat} {xs : List (Store S)}
    (hX : (g.solutions T w n m.world.store).all? = some xs)
    (hxs : ∃ i, ∀ s ∈ xs, T.Copied i t s) :
    ∃ k as m', findAll T k g t m = .ok as m' ∧ List.Forall₂ (T.IsCopy t) xs as := by
  obtain ⟨i, hxs⟩ := hxs
  obtain ⟨J, hJ⟩ := Goal.exists_enacts hT w n hg hslot m.world.store
  obtain ⟨k, hi, hk⟩ : ∃ k, i ≤ k ∧ xs.length * (J + 1 + 2) + (J + 1) + 2 ≤ k :=
    ⟨max i _, Nat.le_max_left _ _, Nat.le_max_right _ _⟩
  let c := m.searching.first (.sequence [g]) (.collect t .refuse)
  have hdeliver := hJ.sequence 0 k (Nat.zero_le _) (by omega) c.machine (.collect t .refuse)
    (Setoid.refl m.world.store) hm
  obtain ⟨as, j, m₁, has, hreaches, hj, hanswers, hstays⟩ := hdeliver.collects_all hm hX
    fun s hs => (hxs s hs).mono hi
  obtain ⟨l, rfl⟩ : ∃ l, k = j + (l + 2) := ⟨k - j - 2, by omega⟩
  obtain ⟨m₂, hm₂, hlast⟩ := drive_exhausted (T := T) (k := j + (l + 2)) (m := m₁) l
    hstays.frames
  obtain ⟨m', hok, -⟩ := (collecting_eq_ok (m := m) hg (.all t)).mpr
    ⟨.exit, m₂, (hreaches.drive (l + 2)).trans hm₂, rfl, .refl _⟩
  refine ⟨_, _, m', hok, ?_⟩
  have hreverse : m₂.answers.reverse = as := by
    rw [hlast.answers]
    show m₁.answers.reverse = as
    rw [hanswers]
    exact (congrArg List.reverse (List.append_nil _)).trans (List.reverse_reverse as)
  rwa [hreverse]

/-- A run for answers that ends is not lost within its bound. -/
theorem Machine.exists_delivers {next : Continuation S} (hnext : next.Entry) {k₀ : Nat}
    {as : List S.Term} {m' : Machine S}
    (hok : collecting (executeWith (run T k₀) (.sequence [g]) next) m = .ok as m') :
    ∃ n J k L, k₀ ≤ k ∧ ¬ Lost T k₀ L (m.searching.first (.sequence [g]) next) ∧
      (g.solutions T w n m.world.store).Delivers T k₀ k J next L
        (m.searching.first (.sequence [g]) next).machine
        (m.searching.first (.sequence [g]) next) := by
  have hok' := (collecting_below (run_below (Nat.le_succ k₀)) (.sequence [g]) next).ok hok
  obtain ⟨status, m₁, hdrive, -⟩ := (collecting_eq_ok hg hnext).mp ⟨m', hok', .refl _⟩
  obtain ⟨J, hJ⟩ := Goal.exists_enacts hT w (k₀ * k₀ + k₀) hg hslot m.world.store
  refine ⟨k₀ * k₀ + k₀, J + 1, max k₀ (J + 1), k₀, Nat.le_max_left _ _, ?_, ?_⟩
  · exact fun hlost => hlost status m₁ hdrive
  · have h := hJ.sequence k₀ (max k₀ (J + 1)) (Nat.le_max_left _ _) (Nat.le_max_right _ _)
      (m.searching.first (.sequence [g]) next).machine next (Setoid.refl _) hm
    exact h.mono (Nat.le_refl _) (by omega)

end Find

/-- A goal with four solutions: a choice of three values, and for each of them
the first of two values or a test. -/
def Bounds.choices : Goal Bounds.vocabulary :=
  .sequence [.memberOf (.var ⟨1⟩) [.int 1, .int 2, .int 3],
    .disjunction [.once (.memberOf (.var ⟨2⟩) [.int 4, .int 5]),
      .notNot (.memberOf (.var ⟨1⟩) [.int 2])]]

end GoalSearch
