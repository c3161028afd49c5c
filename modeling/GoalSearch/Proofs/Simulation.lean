/-
Engines compute the solutions of goals.

Calling a goal delivers its solutions, whatever the stack, the trail and the
continuation.  Each step of the engine does what the list asks for next, and
what the code of an application does in the middle of a run is what it does on
its own, since it depends on the slots only.

* `Machine.Computes` — a computation on an engine has a given outcome;
* `Solutions.Follows` — what is left of a step delivers a list;
* `Program.computes`, `Quiet.computes`, `Goal.run_computes` — code and nested
  runs have the outcomes that the list counts on;
* `Goal.exists_enacts` — the engine delivers the solutions of every goal.

Design notes: a step is followed from its first operation to its last.  An
operation that cannot stop turns what is left of the step into less of it on
another machine; code may stop, and where it does the list breaks off.
-/
import GoalSearch.Proofs.Delivery

namespace GoalSearch

open GoalSearch.Action GoalSearch.Configuration Machine

variable {S : Vocabulary} {T : Theory S} {k₀ k n : Nat} {α β : Type}

theorem Program.Gives.steady {κ : Kind} {p : Program S (Goal S) κ}
    {a : Program.Value S (Goal S) κ} (h : p.Gives T a) (hp : p.Steady Goal.Steady) :
    Program.Value.Steady a := by
  obtain ⟨_, _, _, hexec⟩ := h
  exact hp.value hexec

theorem Quiet.Gives.yields {x : Quiet S α} {a : α} (h : x.Gives T a) : x.Yields a := by
  obtain ⟨_, _, _, hexec⟩ := h
  exact Quiet.yields_of_exec hexec

/-! ### Outcomes on an engine -/

variable (k₀ k n) in
/-- With the bound `k` a computation has a given outcome, and leaves the stack
and the answers alone; one without outcome stops with the bound `k₀`. -/
def Machine.Computes (x : Nat → Action (Machine S) α) (outcome : Option (α × Store S))
    (m : Machine S) : Prop :=
  Below (x k₀) (x k) ∧
    match outcome with
    | none => k₀ * k₀ ≤ n → ∀ a m', x k₀ m ≠ .ok a m'
    | some (a, s) => ∃ m', x k m = .ok a m' ∧ m.Stays Scope.Continues m' ∧ m'.world.store ≈ s

section Outcomes

variable (hk : k₀ ≤ k) (hn : n ≤ k) {s : Store S} {m : Machine S} (hm : m.world.store ≈ s)
  (hs : s.ChainsEnd)

include hk hn hm hs

/-- A program that depends on the slots only has the outcome that it has on its
own. -/
theorem Program.computes (hT : T.GuardsInert) {κ : Kind} {p : Program S (Goal S) κ}
    (hp : p.Steady Goal.Steady) (hslot : p.Slotwise T) (w : World S) :
    Computes k₀ k n (fun i => p.exec T i (Machine.run T i)) (p.outcome T w n s) m := by
  have hbelow : ∀ {i j : Nat}, i ≤ j → Below (p.exec T i (Machine.run T i))
      (p.exec T j (Machine.run T j)) :=
    fun hij => Program.exec_below hij (Machine.run_below hij) p
  have hend := hslot n (fresh w s) m ⟨Setoid.symm hm, hs⟩
  refine ⟨hbelow hk, ?_⟩
  unfold Program.outcome
  cases hfresh : p.exec T n (Machine.run T n) (fresh w s) with
  | error e m₁ =>
    -- The outcome is unknown within the bound, so no smaller bound can have sufficed.
    intro hle a m' hok
    have hle' : k₀ ≤ n := Nat.le_trans (Nat.le_mul_self k₀) hle
    rw [hfresh, (hbelow hle').ok hok] at hend
    exact hend
  | ok a m₁ =>
    cases hexec : p.exec T n (Machine.run T n) m with
    | error e m' =>
      rw [hfresh, hexec] at hend
      exact hend.elim
    | ok b m' =>
      rw [hfresh, hexec] at hend
      obtain ⟨rfl, hstore⟩ := hend
      have hok := (hbelow hn).ok hexec
      have H := Scope.history_continues hT
      have hstays := Program.exec_stays H (fun _ _ _ _ h => h)
        (run_sound H requirement_true k) k hp m trivial
      exact ⟨m', hok, hstays.ok hok, Setoid.symm hstore⟩

/-- Code that asks has the value that it has on its own. -/
theorem Quiet.computes {x y : Quiet S α} (hxy : x.Agrees T y) (w : World S) :
    Computes k₀ k n (fun i => quietly T i y) (x.outcome T w n s) m := by
  refine ⟨quietly_below hk y, ?_⟩
  have hvalue := hxy n { w with store := s } m.world ⟨Setoid.symm hm, hs⟩
  unfold Quiet.outcome
  rw [hvalue]
  cases hexec : y.exec T n m.world with
  | error e w' =>
    rw [result?, hexec]
    intro hle a m' hok
    have hle' : k₀ ≤ n := Nat.le_trans (Nat.le_mul_self k₀) hle
    have := (quietly_below hle' y).ok hok
    rw [quietly, onWorld, onPart, hexec] at this
    cases this
  | ok a w' =>
    rw [result?, hexec]
    have hok : quietly T n y m = .ok a { m with world := w' } := by
      rw [quietly, onWorld, onPart, hexec]
    have hkeeps : Ensures (y.exec T n) m.world (fun _ w => w.store = m.world.store)
        fun _ => True := Quiet.exec_keeps_store trivial y m.world trivial
    have hstore : w'.store = m.world.store := hkeeps.ok hexec
    refine ⟨_, (quietly_below hn y).ok hok, stays_of_eq rfl rfl rfl hstore, ?_⟩
    exact Setoid.trans (Store.equiv_of_eq hstore) hm

end Outcomes

/-! ### What is left of a step -/

namespace Solutions

variable (T k₀ k n) in
/-- What is left of a step leads to where a list is delivered.  If the list
breaks off, the step may also stop. -/
def Follows (J : Nat) (next : Continuation S) (into : β → Progress S) (X : Solutions S)
    (o : Machine S) (y : Nat → Action (Machine S) β) (m : Machine S) : Prop :=
  (∃ b t m', y k m = .ok b m' ∧ into b = .task t ∧
    X.Delivers T k₀ k J next (n - k₀ * k₀) o ⟨t, m'⟩) ∨
  (X = stopped ∧ (k₀ * k₀ ≤ n → ∀ b m', y k₀ m ≠ .ok b m'))

variable {J : Nat} {next : Continuation S} {into : β → Progress S} {X : Solutions S}
  {o m m₁ : Machine S} {x : Nat → Action (Machine S) α} {f : Nat → α → Action (Machine S) β}
  {y y₁ : Nat → Action (Machine S) β}

theorem Delivers.follows {b : β} {t : Task S} (h : X.Delivers T k₀ k J next (n - k₀ * k₀) o ⟨t, m⟩)
    (hb : into b = .task t) : X.Follows T k₀ k n J next into o (fun _ => pure b) m :=
  .inl ⟨b, t, m, rfl, hb, h⟩

theorem Follows.congr (h : X.Follows T k₀ k n J next into o y₁ m₁) (hy : ∀ i, y i m = y₁ i m₁) :
    X.Follows T k₀ k n J next into o y m := by
  unfold Follows
  simp only [hy]
  exact h

theorem Follows.mono {J' : Nat} (h : X.Follows T k₀ k n J next into o y m) (hJ : J ≤ J') :
    X.Follows T k₀ k n J' next into o y m := by
  rcases h with ⟨b, t, m', hy, hb, hdeliver⟩ | h
  · exact .inl ⟨b, t, m', hy, hb, hdeliver.mono hJ (Nat.le_refl _)⟩
  · exact .inr h

/-- An operation that cannot stop is done. -/
theorem Follows.of_ok {a : α} (hx : ∀ i, x i m = .ok a m₁)
    (h : X.Follows T k₀ k n J next into o (fun i => f i a) m₁) :
    X.Follows T k₀ k n J next into o (fun i => x i >>= f i) m :=
  h.congr fun i => bind_ok (hx i)

/-- Code is run. -/
theorem Follows.of_computes {outcome : Option (α × Store S)} {F : α → Store S → Solutions S}
    (hx : Computes k₀ k n x outcome m)
    (h : ∀ a s m', outcome = some (a, s) → m.Stays Scope.Continues m' → m'.world.store ≈ s →
      (F a s).Follows T k₀ k n J next into o (fun i => f i a) m') :
    (after outcome F).Follows T k₀ k n J next into o (fun i => x i >>= f i) m := by
  obtain ⟨hbelow, hx⟩ := hx
  cases outcome with
  | none =>
    refine .inr ⟨rfl, fun hle b m' hok => ?_⟩
    obtain ⟨a, m'', hxok, -⟩ := bind_eq_ok.mp hok
    exact hx hle a m'' hxok
  | some p =>
    obtain ⟨a, s⟩ := p
    obtain ⟨m', hok, hstays, hs⟩ := hx
    rcases h a s m' rfl hstays hs with ⟨b, t, m'', hy, hb, hdeliver⟩ | ⟨hstopped, hy⟩
    · exact .inl ⟨b, t, m'', (bind_ok hok).trans hy, hb, hdeliver⟩
    · refine .inr ⟨hstopped, fun hle b m'' hfail => ?_⟩
      obtain ⟨a', m₂, hxok, hfok⟩ := bind_eq_ok.mp hfail
      have := hbelow.ok hxok
      rw [hok] at this
      cases this
      exact hy hle b m'' hfok

theorem Follows.of_value {a : α} {s : Store S} (hx : Computes k₀ k n x (some (a, s)) m)
    (h : ∀ m', m.Stays Scope.Continues m' → m'.world.store ≈ s →
      X.Follows T k₀ k n J next into o (fun i => f i a) m') :
    X.Follows T k₀ k n J next into o (fun i => x i >>= f i) m := by
  refine Follows.of_computes (F := fun _ _ => X) hx fun b s' m' hout => ?_
  cases hout
  exact h m'

theorem follows_stopped (hx : Computes k₀ k n x none m) :
    stopped.Follows T k₀ k n J next into o (fun i => x i >>= f i) m :=
  Follows.of_computes (F := fun _ _ => stopped) hx fun _ _ _ hout => nomatch hout

/-- A whole step. -/
theorem Delivers.of_follows (hk : k₀ ≤ k) {t : Task S}
    (hstep : ∀ i, Machine.step T i (Machine.run T i) t m = (y i >>= fun b => pure (into b)) m)
    (h : X.Follows T k₀ k n J next into o y m) :
    X.Delivers T k₀ k (J + 1) next (n + 1 - k₀ * k₀) o ⟨t, m⟩ := by
  rcases h with ⟨b, t', m', hy, hb, hdeliver⟩ | ⟨rfl, hy⟩
  · have hreaches : Reaches T k 1 ⟨t, m⟩ ⟨t', m'⟩ := by
      refine .single ?_
      rw [hstep, bind_ok hy, hb]
      rfl
    exact (hdeliver.of_reaches hk hreaches).mono (Nat.le_refl _) (by omega)
  · by_cases hle : k₀ * k₀ ≤ n
    · refine lost_of_step (fun p m' hok => ?_) _
      rw [hstep] at hok
      obtain ⟨b, m'', hyok, -⟩ := bind_eq_ok.mp hok
      exact hy hle b m'' hyok
    · have hzero : n + 1 - k₀ * k₀ = 0 := by omega
      rw [hzero]
      intro status m' hdrive
      cases hdrive

end Solutions

open Solutions

/-! ### Frames on the way -/

namespace Machine

variable {o o' m m' : Machine S} {s : Store S} {a : Activation S}
  {next : Continuation S} {X : Solutions S} {J : Nat}

theorem stays_counted (m : Machine S) (c : Counter) (i : Nat) :
    m.Stays Scope.Continues (m.counted c i) :=
  stays_of_eq rfl rfl rfl rfl

theorem continues_of_eq (h : o.scope.Continues m.scope)
    (htrail : m'.engine.trail = m.engine.trail) (hstore : m'.world.store = m.world.store) :
    o.scope.Continues m'.scope :=
  h.trans (Scope.continues_of_same htrail (Store.equiv_of_eq hstore))

/-- A step that was pushed and is retired again. -/
theorem Stays.of_pushed {mark : Nat} (h : (m.pushed mark a).Stays Scope.Continues m') :
    m.Stays Scope.Continues (m'.retired m.engine.frames) := by
  have hpushed : m.scope.Continues (m.pushed mark a).scope :=
    Scope.continues_of_same rfl (Setoid.refl _)
  exact ⟨rfl, h.answers, continues_of_eq (hpushed.trans h.scope) rfl rfl⟩

theorem Stays.onFrame (h : o.Stays Scope.Continues m) (hs : m.world.store ≈ s)
    (a : Activation S) : o.OnFrame s a (m.pushed o.engine.trail.length a) :=
  ⟨by rw [pushed_frames, h.frames], h.answers, continues_of_eq h.scope rfl rfl, hs⟩

theorem OnFrame.stays (h : o.OnFrame s a m) (hm : m.Stays Scope.Continues m')
    (hs : m'.world.store ≈ s) : o.OnFrame s a m' :=
  ⟨hm.frames.trans h.frames, hm.answers.trans h.answers, h.scope.trans hm.scope, hs⟩

theorem Stays.chainsEnd (h : m.Stays Scope.Continues m') (hm : m.world.store ≈ s)
    (hs : s.ChainsEnd) {s' : Store S} (hm' : m'.world.store ≈ s') : s'.ChainsEnd :=
  (h.scope.chainsEnd (hs.congr (Setoid.symm hm))).congr hm'

theorem Stays.withFrames (h : m.Stays Scope.Continues m') (fs : List (Frame S)) :
    (m.withFrames fs).Stays Scope.Continues (m'.withFrames fs) :=
  ⟨rfl, h.answers, h.scope⟩

theorem OnFrame.popped (h : o.OnFrame s a m) :
    o.Stays Scope.Continues (m.popped ⟨a, o.engine.trail.length⟩ o.engine.frames) := by
  have hnoted : o.scope.Continues ((m.withFrames o.engine.frames).noted
      (.popped a.kind (o.engine.frames.length + 1))).scope :=
    continues_of_eq h.scope rfl rfl
  exact ⟨rfl, h.answers, hnoted.backtrack (Nat.le_refl _)⟩

theorem exhausted_apply {f : Frame S} {fs : List (Frame S)} (h : m.engine.frames = f :: fs) :
    exhausted m = .ok .backtrack (m.popped f fs) :=
  bind_ok (pop_apply m h)

/-- A frame without alternatives left is removed. -/
theorem OnFrame.follows_exhausted (h : o.OnFrame s a m) :
    nil.Follows T k₀ k n 0 next id o (fun _ => return .task (← exhausted)) m :=
  .of_ok (fun _ => exhausted_apply h.frames) ((delivers_nil h.popped).follows rfl)

/-- A retry of a frame. -/
theorem OnFrame.of_retry (hk : k₀ ≤ k) (h : o.OnFrame s a m)
    (hfollows : ∀ m', m.Stays Scope.Continues m' → o.OnFrame s a m' →
      X.Follows T k₀ k n J next id o'
        (fun i => retryActivation T i (run T i) (o.engine.frames.length + 1) a) m') :
    X.Delivers T k₀ k (J + 1) next (n + 1 - k₀ * k₀) o' ⟨.retry, m⟩ := by
  let m' := (m.counted .retries 1).noted (.retried a.kind (o.engine.frames.length + 1))
  have hretry : ∀ i, retry T i (run T i) m =
      retryActivation T i (run T i) (o.engine.frames.length + 1) a m' :=
    fun i => retry_apply i h.frames
  have hstays : m.Stays Scope.Continues m' := stays_of_eq rfl rfl rfl rfl
  have hm' : o.OnFrame s a m' := h.of_eq rfl rfl rfl rfl
  refine .of_follows hk (fun i => ?_) ((hfollows m' hstays hm').congr hretry)
  show retry T i (run T i) m = (retry T i (run T i) >>= fun p => pure p) m
  rw [bind_apply]
  cases retry T i (run T i) m <;> rfl

end Machine

/-! ### Runs -/

section Runs

variable {g : Goal S} {next : Continuation S} {m : Machine S}

/-- What is left of a machine when frames are removed and bindings undone. -/
structure Machine.Retreats (m m' : Machine S) : Prop where
  config : m'.engine.config = m.engine.config
  objects : m'.world.nextObject = m.world.nextObject
  answers : m'.answers = m.answers
  output : m.world.SameOutput m'.world
  slots : ∃ mark, m'.engine.trail = (m.scope.backtracked mark).trail ∧
    m'.world.store = (m.scope.backtracked mark).world.store

theorem Machine.Retreats.refl (m : Machine S) : m.Retreats m := by
  refine ⟨rfl, rfl, rfl, .refl _, m.scope.trail.length, ?_⟩
  rw [Scope.backtracked_of_length_le (Nat.le_refl _)]
  exact ⟨rfl, rfl⟩

theorem Machine.Retreats.trans {m m' m'' : Machine S} (h : m.Retreats m')
    (h' : m'.Retreats m'') : m.Retreats m'' := by
  obtain ⟨mark, htrail, hstore⟩ := h.slots
  obtain ⟨mark', htrail', hstore'⟩ := h'.slots
  refine ⟨h'.config.trans h.config, h'.objects.trans h.objects, h'.answers.trans h.answers,
    h.output.trans h'.output, min mark mark', ?_⟩
  rw [← Scope.backtracked_backtracked, htrail', hstore', Scope.backtracked, Scope.backtracked]
  simp only [Machine.scope, htrail, hstore, and_self]

theorem Machine.retreats_popped (m : Machine S) (f : Frame S) (fs : List (Frame S)) :
    m.Retreats (m.popped f fs) :=
  ⟨rfl, rfl, rfl, m.popped_output f fs, f.mark, rfl, rfl⟩

theorem Machine.popMany_apply (i : Nat) (m : Machine S) :
    ∃ m', popMany i m = .ok () m' ∧ m.Retreats m' := by
  induction i generalizing m with
  | zero => exact ⟨m, rfl, .refl m⟩
  | succ i ih =>
    have hpop : ∃ m', pop m = .ok () m' ∧ m.Retreats m' := by
      cases hframes : m.engine.frames with
      | nil => exact ⟨m, pop_of_nil m hframes, .refl m⟩
      | cons f fs => exact ⟨_, pop_apply m hframes, m.retreats_popped f fs⟩
    obtain ⟨m₁, hm₁, hretreats⟩ := hpop
    obtain ⟨m', hm', hretreats'⟩ := ih m₁
    exact ⟨m', (bind_ok hm₁).trans hm', hretreats.trans hretreats'⟩

/-- A scope that has gone back to the trail of an earlier one has its slots. -/
theorem Scope.Extends.store_of_backtracked {c d : Scope S} (h : c.Extends d) {mark : Nat}
    (hlength : (d.backtracked mark).trail.length = c.trail.length) :
    (d.backtracked mark).world.store ≈ c.world.store := by
  have hle := h.grows.length_le
  have hmin := Scope.length_backtracked d mark
  have hback : c.Extends (d.backtracked mark) := h.backtrack (by omega)
  exact hback.store_equiv hlength

theorem Machine.run_succ_apply :
    run T (k + 1) g next m =
      (drive T k (run T k) (.call g next) k >>= fun status => unwind m.engine.depth >>= fun _ =>
        trailLength >>= fun length =>
          if length = m.engine.trail.length then pure status
          else throw (.fault .unbalancedTrail)) (m.first g next).machine := by
  show runWith T k (run T k) g next m = _
  rw [runWith, bind_ok (depth_apply m), bind_ok (trailLength_apply m), bind_ok (push_apply m _ _)]
  rfl

/-- Unwinding cannot stop, and a run never finds its trail out of balance. -/
theorem Machine.run_of_drive (hg : g.Steady) (hnext : next.Entry) {status : Status}
    {m₁ : Machine S}
    (hdrive : drive T k (run T k) (.call g next) k (m.first g next).machine = .ok status m₁) :
    ∃ m', run T (k + 1) g next m = .ok status m' ∧ m₁.Retreats m' := by
  obtain ⟨m₂, hm₂, hretreats⟩ := popMany_apply (m₁.engine.depth - m.engine.depth) m₁
  have hunwind : unwind m.engine.depth m₁ = .ok () m₂ := (bind_ok (depth_apply m₁)).trans hm₂
  have hlast : run T (k + 1) g next m = _ := run_succ_apply
  rw [bind_ok hdrive, bind_ok hunwind, bind_ok (trailLength_apply m₂)] at hlast
  by_cases hlength : m₂.engine.trail.length = m.engine.trail.length
  · rw [if_pos hlength] at hlast
    exact ⟨m₂, hlast, hretreats⟩
  · rw [if_neg hlength] at hlast
    have hsound := run_sound (Scope.history_grows T) requirement_true (k + 1) g next hg hnext
      m trivial
    exact absurd rfl (hsound.error hlast)

/-- A run whose steps end in a later scope is rolled back, whatever guards do. -/
theorem Machine.run_of_drive_rolled_back (hg : g.Steady) (hnext : next.Entry) {status : Status}
    {m₁ : Machine S}
    (hdrive : drive T k (run T k) (.call g next) k (m.first g next).machine = .ok status m₁)
    (hlater : m.scope.Extends m₁.scope) :
    ∃ m', run T (k + 1) g next m = .ok status m' ∧ m'.answers = m₁.answers ∧ m.RolledBack m' := by
  obtain ⟨m', hok, hretreats⟩ := run_of_drive hg hnext hdrive
  have hsound := run_sound (Scope.history_grows T) requirement_true (k + 1) g next hg hnext
    m trivial
  have hrestores := hsound.ok hok
  obtain ⟨mark, htrail, hstore⟩ := hretreats.slots
  have hlength : (m₁.scope.backtracked mark).trail.length = m.scope.trail.length := by
    rw [← htrail, hrestores.trail]
    rfl
  refine ⟨m', hok, hretreats.answers, hrestores.frames, hrestores.trail, ?_⟩
  rw [hstore]
  exact hlater.store_of_backtracked hlength

/-- A run has a status, answers and an output if and only if its steps come to
an end with them. -/
theorem Machine.run_eq_ok (hg : g.Steady) (hnext : next.Entry) {status : Status}
    {answers : List S.Term} {w : World S} :
    (∃ m', run T (k + 1) g next m = .ok status m' ∧ m'.answers = answers ∧
        w.SameOutput m'.world) ↔
      ∃ m', drive T k (run T k) (.call g next) k (m.first g next).machine = .ok status m' ∧
        m'.answers = answers ∧ w.SameOutput m'.world := by
  constructor
  · rintro ⟨m', hok, hm', hw⟩
    have hok' := hok
    rw [run_succ_apply] at hok'
    obtain ⟨status', m₁, hdrive, -⟩ := bind_eq_ok.mp hok'
    obtain ⟨m₂, hm₂, hretreats⟩ := run_of_drive hg hnext hdrive
    rw [hok] at hm₂
    cases hm₂
    exact ⟨m₁, hdrive, hretreats.answers.symm.trans hm', hw.trans hretreats.output.symm⟩
  · rintro ⟨m₁, hdrive, hm₁, hw⟩
    obtain ⟨m₂, hm₂, hretreats⟩ := run_of_drive hg hnext hdrive
    exact ⟨m₂, hm₂, hretreats.answers.trans hm₁, hw.trans hretreats.output⟩

theorem Machine.drive_of_ended {t : Task S} {status : Status} {m' : Machine S}
    (h : step T k (run T k) t m = .ok (.ended status) m') (i : Nat) :
    drive T k (run T k) t (i + 1) m = .ok status m' := by
  rw [drive_succ, h]

/-- A run that goes back to its sentinel has no more solutions. -/
theorem Machine.drive_exhausted (i : Nat) {mark : Nat} {fs : List (Frame S)}
    (h : m.engine.frames = ⟨.sentinel, mark⟩ :: fs) :
    ∃ m', drive T k (run T k) .backtrack (i + 2) m = .ok .exit m' ∧
      (m.undone mark).Stays Scope.Continues m' := by
  have hretry : ∃ m', step T k (run T k) .retry (m.undone mark) = .ok (.ended .exit) m' ∧
      (m.undone mark).Stays Scope.Continues m' := by
    have hframes : (m.undone mark).engine.frames = ⟨.sentinel, mark⟩ :: fs := h
    exact ⟨_, retry_apply k hframes, stays_of_eq rfl rfl rfl rfl⟩
  obtain ⟨m', hm', hstays⟩ := hretry
  refine ⟨m', ?_, hstays⟩
  rw [show i + 2 = 1 + (i + 1) by omega, (reaches_retry h).drive (i + 1)]
  exact drive_of_ended hm' i

/-- What the status of a run says about the solutions of its goal. -/
def Solutions.outcome (s : Store S) : Solutions S → Option (Status × Store S)
  | nil => some (.exit, s)
  | stopped => none
  | cons _ _ => some (.success, s)

/-- The steps of a run to the first solution come to an end as soon as it is
known whether there is one. -/
theorem Solutions.Delivers.drive {X : Solutions S} {J L : Nat} {c : Configuration S}
    (h : X.Delivers T k₀ k J .finish L m c) {fs : List (Frame S)}
    (hm : m.engine.frames = ⟨.sentinel, m.engine.trail.length⟩ :: fs) (hJ : J + 2 ≤ k)
    {status : Status} {s s' : Store S} (hX : X.outcome s = some (status, s')) :
    ∃ m', Machine.drive T k (run T k) c.task k c.machine = .ok status m' ∧
      m.scope.Continues m'.scope := by
  cases X with
  | nil =>
    cases hX
    obtain ⟨j, m₁, hj, hreaches, hstays⟩ := h
    obtain ⟨i, rfl⟩ : ∃ i, k = j + (i + 2) := ⟨k - j - 2, by omega⟩
    rw [hreaches.drive]
    obtain ⟨m', hm', hlast⟩ :=
      drive_exhausted (T := T) (k := j + (i + 2)) i (hstays.frames.trans hm)
    have hback : m.scope.Continues (m₁.undone m.engine.trail.length).scope :=
      hstays.scope.backtrack (Nat.le_refl _)
    exact ⟨m', hm', hback.trans hlast.scope⟩
  | stopped => cases hX
  | cons s₁ rest =>
    cases hX
    obtain ⟨j, m₁, hj, hreaches, hleads, -⟩ := h
    obtain ⟨i, rfl⟩ : ∃ i, k = j + (i + 1) := ⟨k - j - 1, by omega⟩
    rw [hreaches.drive]
    exact ⟨m₁, rfl, hleads.scope⟩

/-- A nested run finds out whether its goal has a solution. -/
theorem Goal.run_computes (hT : T.GuardsInert) (hg : g.Steady) {X : Solutions S} {s : Store S}
    {J : Nat} (h : Enacts T n s X J (.call g)) (hk : k₀ ≤ k) (hJ : J + 3 ≤ k)
    (hm : m.world.store ≈ s) (hs : s.ChainsEnd) :
    Computes k₀ k n (fun i => run T i g .finish) (X.outcome s) m := by
  refine ⟨Machine.run_below hk g .finish, ?_⟩
  cases hX : X.outcome s with
  | none =>
    cases X with
    | nil => cases hX
    | cons s₁ rest => cases hX
    | stopped =>
      intro hle status m' hok
      cases k₀ with
      | zero => cases hok
      | succ k₀ =>
        obtain ⟨m₁, hdrive, -⟩ := (run_eq_ok hg .finish).mp ⟨m', hok, rfl, .refl _⟩
        have hlost : Lost T k₀ (n - k₀ * k₀) (m.first g .finish) :=
          h k₀ (k - 1) (by omega) (by omega) (m.first g .finish).machine .finish hm hs
        -- What `n` leaves beyond `k₀ * k₀` is enough for the `k₀` steps of this run.
        have hsquare : (k₀ + 1) * (k₀ + 1) = k₀ * k₀ + k₀ + k₀ + 1 := by
          rw [Nat.succ_mul, Nat.mul_succ]
          omega
        have hlost' : Lost T k₀ k₀ (m.first g .finish) := hlost.mono (by omega)
        exact hlost' status m₁ hdrive
  | some p =>
    obtain ⟨status, s'⟩ := p
    obtain ⟨k, rfl⟩ : ∃ i, k = i + 1 := ⟨k - 1, by omega⟩
    have hdeliver := h 0 k (Nat.zero_le _) (by omega) (m.first g .finish).machine .finish hm hs
    obtain ⟨m₁, hdrive, -⟩ := hdeliver.drive rfl (by omega) hX
    obtain ⟨m', hok, -⟩ := (run_eq_ok hg .finish).mpr ⟨m₁, hdrive, rfl, .refl _⟩
    have hrun := run_sound (Scope.history_continues hT) requirement_true (k + 1) g .finish hg
      .finish m trivial
    have hrestores := hrun.ok hok
    refine ⟨m', hok, hrestores.stays, ?_⟩
    -- The run is undone, so the outcome is the store that it began with.
    have hs' : s' = s := by
      cases X <;> cases hX <;> rfl
    rw [hs']
    have hlength := congrArg Trail.length hrestores.trail
    exact Setoid.trans (hrestores.scope.later.store_equiv hlength) hm

end Runs

/-! ### Candidates and choices -/

section Frames

variable (hT : T.GuardsInert) (w : World S) (hk : k₀ ≤ k) (hn : n ≤ k) {s : Store S}
  (hs : s.ChainsEnd) {o m : Machine S} {next : Continuation S} {i : Nat}

include hT hk hn hs

/-- A retry of a predicate tries the next candidate. -/
theorem Predicate.candidate_delivers {draw : Nat → Quiet S (Option (Program S (Goal S) .verdict))}
    {validate : Program S (Goal S) .verdict} (hvalidate : validate.Steady Goal.Steady)
    (hvalidate' : validate.Slotwise T) (hdraw : (draw i).Agrees T (draw i))
    (happly : ∀ p, (draw i).Gives T (some p) → p.Steady Goal.Steady ∧ p.Slotwise T)
    (hm : o.OnFrame s (.candidates draw i validate next) m) :
    DeliversAt T k₀ k 1 (n + 1 - k₀ * k₀) next (Predicate.candidate T w n draw validate s i) o
      (.candidates draw (i + 1) validate next) m := by
  have hvalue : ∀ {m : Machine S}, m.world.store ≈ s → Computes k₀ k n
      (fun j => quietly T j (draw i)) ((draw i).outcome T w n s) m :=
    fun hm => Quiet.computes hk hn hm hs hdraw w
  unfold Predicate.candidate
  cases hout : (draw i).outcome T w n s with
  | none =>
    rw [hout] at hvalue
    exact hm.of_retry hk fun m₁ _ hm₁ => follows_stopped (hvalue hm₁.store)
  | some p =>
    obtain ⟨candidate, s₁⟩ := p
    obtain ⟨hgives, rfl⟩ := Quiet.gives_of_outcome hout
    rw [hout] at hvalue
    cases candidate with
    | none =>
      refine hm.of_retry hk fun m₁ _ hm₁ => .of_value (hvalue hm₁.store) ?_
      intro m₂ hstays hm₂
      exact (hm₁.stays hstays hm₂).follows_exhausted
    | some apply =>
      obtain ⟨hsteady, hslot⟩ := happly apply hgives
      refine hm.of_retry hk fun m₁ hstays₁ hm₁ => .of_value (hvalue hm₁.store) ?_
      intro m₂ hstays₂ hm₂
      refine .of_ok (fun _ => updateAt_apply m₂ (hm₁.stays hstays₂ hm₂).frames rfl _) ?_
      -- the frame has moved on to the next candidate before this one is tried
      let fs : List (Frame S) :=
        ⟨.candidates draw (i + 1) validate next, o.engine.trail.length⟩ :: o.engine.frames
      have hstays := (hstays₁.trans hstays₂).withFrames fs
      refine .of_computes
        (Program.computes (m := m₂.withFrames fs) hk hn hm₂ hs hT hsteady hslot w) ?_
      intro applies s' m₃ _ hstays₃ hm₃
      have hs' := hstays₃.chainsEnd hm₂ hs hm₃
      cases applies with
      | false => exact (delivers_nil (hstays.trans hstays₃)).follows rfl
      | true =>
        refine .of_computes (Program.computes hk hn hm₃ hs' hT hvalidate hvalidate' w) ?_
        intro valid s'' m₄ _ hstays₄ hm₄
        exact (delivers_verdict ((hstays.trans hstays₃).trans hstays₄) hm₄ valid).follows rfl

omit hT hn hs in
/-- A level of a search is busy while a choice is made, and idle again before
the engine goes on. -/
theorem Machine.OnFrame.of_choice {handler : Quiet S (Program S (Goal S) .choices)}
    {make : Nat → Program S (Goal S) .attempt} {outcome : Option Bool} {s' : Store S} {J : Nat}
    {X : Solutions S} {o' : Machine S} (hm : o.OnFrame s (.search handler (some (make, i)) next) m)
    (h : ∀ m', (m.withFrames (⟨.search handler (some (make, i + 1)) next, o.engine.trail.length⟩ ::
        o.engine.frames)).Stays Scope.Continues m' → m'.world.store ≈ s' →
      X.Follows T k₀ k n J next id o' (fun _ => match outcome with
        | none => return .task (← exhausted)
        | some false => pure (.task .backtrack)
        | some true => pure (.task (.call (.search handler) next))) m')
    (hvalue : ∀ {m : Machine S}, m.world.store ≈ s →
      Computes k₀ k n (fun j => (make i).exec T j (run T j)) (some (outcome, s')) m) :
    X.Delivers T k₀ k (J + 1) next (n + 1 - k₀ * k₀) o' ⟨.retry, m⟩ := by
  refine hm.of_retry hk fun m₁ hstays₁ hm₁ => ?_
  refine .of_ok (fun _ => updateAt_apply m₁ hm₁.frames rfl _) ?_
  refine .of_value (hvalue (m := m₁.withFrames (_ :: _)) hm₁.store) fun m₂ hstays₂ hm₂ => ?_
  refine .of_ok (fun _ => updateAt_apply m₂ hstays₂.frames rfl _) ?_
  have hscope : m.scope.Continues m₂.scope := hstays₁.scope.trans hstays₂.scope
  have hfollows := h (m₂.withFrames (⟨.search handler (some (make, i + 1)) next,
    o.engine.trail.length⟩ :: o.engine.frames))
    ⟨rfl, hstays₂.answers.trans hstays₁.answers, hscope⟩ hm₂
  rcases outcome with _ | (_ | _) <;> exact hfollows

/-- A retry of a level of a search makes the next choice. -/
theorem Goal.choice_delivers {solve : Goal S → Store S → Solutions S}
    {handler : Quiet S (Program S (Goal S) .choices)} {make : Nat → Program S (Goal S) .attempt}
    {J : Nat} (hJ : J ≤ k) (hsteady : (make i).Steady Goal.Steady) (hslot : (make i).Slotwise T)
    (hrest : ∀ s', (make i).outcome T w n s = some (some true, s') →
      Enacts T n s' (solve (.search handler) s') J (.call (.search handler)))
    (hm : o.OnFrame s (.search handler (some (make, i)) next) m) :
    DeliversAt T k₀ k (J + 1) (n + 1 - k₀ * k₀) next (Goal.choice T w n solve handler make s i) o
      (.search handler (some (make, i + 1)) next) m := by
  have hvalue : ∀ {m : Machine S}, m.world.store ≈ s → Computes k₀ k n
      (fun j => (make i).exec T j (run T j)) ((make i).outcome T w n s) m :=
    fun hm => Program.computes hk hn hm hs hT hsteady hslot w
  unfold Goal.choice
  cases hout : (make i).outcome T w n s with
  | none =>
    rw [hout] at hvalue
    refine hm.of_retry hk fun m₁ _ hm₁ => ?_
    refine .of_ok (fun _ => updateAt_apply m₁ hm₁.frames rfl _) ?_
    exact follows_stopped (hvalue (m := m₁.withFrames _) hm₁.store)
  | some p =>
    obtain ⟨outcome, s'⟩ := p
    rw [hout] at hvalue
    cases outcome with
    | none =>
      refine hm.of_choice hk (fun m' hstays _ => ?_) hvalue
      have hframe : o.OnFrame m'.world.store
          (.search handler (some (make, i + 1)) next) m' :=
        ⟨hstays.frames, hstays.answers.trans hm.answers, hm.scope.trans hstays.scope,
          Setoid.refl _⟩
      exact hframe.follows_exhausted.mono (by omega)
    | some b =>
      cases b with
      | false =>
        refine hm.of_choice hk (fun m' hstays _ => ?_) hvalue
        exact ((delivers_nil hstays).mono (Nat.zero_le _) (Nat.le_refl _)).follows rfl
      | true =>
        refine hm.of_choice hk (fun m' hstays hm' => ?_) hvalue
        -- The choice was made, so the search goes on below it, in the store that the choice left.
        have hs' : s'.ChainsEnd := hstays.chainsEnd (m := m.withFrames _) hm.store hs hm'
        exact ((hrest s' hout k₀ k hk hJ m' next hm' hs').of_stays hstays).follows rfl

end Frames

/-! ### Goals -/

section Goals

variable (hT : T.GuardsInert) (w : World S) {s : Store S} {J : Nat}

/-- Calling a goal is a single step. -/
theorem enacts_call {g : Goal S} {X : Solutions S}
    (h : ∀ k₀ k, k₀ ≤ k → J ≤ k → ∀ (m : Machine S) next, m.world.store ≈ s → s.ChainsEnd →
      X.Follows T k₀ k n J next .task m (fun i => call T i (run T i) g next) m) :
    Enacts T (n + 1) s X (J + 1) (.call g) := by
  intro k₀ k hk hJ m next hm hs
  exact .of_follows hk (fun _ => rfl) (h k₀ k hk (by omega) m next hm hs)

theorem enacts_succeed : Enacts T (n + 1) s (one s) 1 (.call .succeed) := by
  refine enacts_call fun k₀ k _ _ m next hm _ => ?_
  refine .of_ok (fun _ => count_apply m .calls) ?_
  exact (delivers_one (stays_counted m .calls 1) hm).follows rfl

theorem enacts_fail : Enacts T (n + 1) s nil 1 (.call .fail) := by
  refine enacts_call fun k₀ k _ _ m next _ _ => ?_
  refine .of_ok (fun _ => count_apply m .calls) ?_
  exact (delivers_nil (stays_counted m .calls 1)).follows rfl

include hT

theorem exists_enacts_predicate {p : Predicate S (Goal S)} (hsteady : (Goal.call p).Steady)
    (hslot : (Goal.call p).Slotwise T) :
    ∃ J, Enacts T (n + 1) s (p.solutions T w n s) J (.call (.call p)) := by
  have hcode : ∀ {k₀ k : Nat} {m : Machine S} {s : Store S} {κ : Kind} {p : Program S (Goal S) κ},
      k₀ ≤ k → n ≤ k → m.world.store ≈ s → s.ChainsEnd → p.Steady Goal.Steady → p.Slotwise T →
      Computes k₀ k n (fun i => p.exec T i (run T i)) (p.outcome T w n s) m :=
    fun hk hn hm hs hp hp' => Program.computes hk hn hm hs hT hp hp' w
  cases hsteady with
  | @nondeterministic prepare validate hprepare hvalidate =>
    cases hslot with
    | nondeterministic hprepare' hbinds hvalidate' hdraw =>
      refine ⟨n * 2 + 1, enacts_call fun k₀ k hk hJ m next hm hs => ?_⟩
      have hn : n ≤ k := by omega
      refine .of_ok (fun _ => count_apply m .calls) (.of_ok (fun _ => trailLength_apply _) ?_)
      refine .of_computes (hcode (m := m.counted .calls 1) hk hn hm hs hprepare hprepare') ?_
      intro draw s' m' hout hstays hm'
      refine .of_ok (fun _ => push_apply m' _ _) (Delivers.follows ?_ rfl)
      -- what was prepared has bound nothing
      have hs' : m'.world.store ≈ s := Setoid.trans hm' (hbinds.outcome hout)
      have hframe := ((stays_counted m .calls 1).trans hstays).onFrame hs'
        (.candidates draw 0 validate next)
      have halternatives : ∀ answers i m₁, i < n →
          (m.withAnswers answers).OnFrame s (.candidates draw i validate next) m₁ →
          DeliversAt T k₀ k 1 (n + 1 - k₀ * k₀) next (Predicate.candidate T w n draw validate s i)
            (m.withAnswers answers) (.candidates draw (i + 1) validate next) m₁ := by
        intro answers i m₁ _ hm₁
        have hgives := Program.gives_of_outcome hout
        obtain ⟨hagrees, happly⟩ := hdraw draw hgives i
        refine Predicate.candidate_delivers hT w hk hn hs hvalidate hvalidate' hagrees ?_ hm₁
        exact fun p hp => ⟨hgives.steady hprepare i p hp.yields, happly p hp⟩
      exact delivers_alternatives hk hm halternatives n (Nat.zero_add n).le (Nat.sub_le _ _)
        (Nat.sub_le_sub_right (Nat.le_succ n) _) hframe
  | semideterministic hprepare hvalidate =>
    cases hslot with
    | semideterministic hprepare' hvalidate' =>
      refine ⟨n + 1, enacts_call fun k₀ k hk hn m next hm hs => ?_⟩
      refine .of_ok (fun _ => count_apply m .calls) (.of_ok (fun _ => trailLength_apply _) ?_)
      refine .of_ok (fun _ => push_apply _ _ _) ?_
      refine .of_computes (hcode (m := Machine.pushed _ _ _) hk hn hm hs hprepare hprepare') ?_
      intro _ s' m₁ _ hstays hm₁
      refine .of_ok (fun _ => retire_apply m₁ hstays.frames) ?_
      have hs' := hstays.chainsEnd (m := Machine.pushed _ _ _) hm hs hm₁
      refine .of_computes (hcode (m := Machine.retired _ _) hk hn hm₁ hs' hvalidate hvalidate') ?_
      intro valid s'' m₂ _ hstays' hm₂
      have hall := ((stays_counted m .calls 1).trans hstays.of_pushed).trans hstays'
      exact ((delivers_verdict hall hm₂ valid).mono (Nat.zero_le _) (Nat.le_refl _)).follows rfl
  | deterministic hprepare =>
    cases hslot with
    | deterministic hprepare' =>
      refine ⟨n + 1, enacts_call fun k₀ k hk hn m next hm hs => ?_⟩
      refine .of_ok (fun _ => count_apply m .calls) (.of_ok (fun _ => trailLength_apply _) ?_)
      refine .of_ok (fun _ => push_apply _ _ _) ?_
      refine .of_computes (hcode (m := Machine.pushed _ _ _) hk hn hm hs hprepare hprepare') ?_
      intro _ s' m₁ _ hstays hm₁
      refine .of_ok (fun _ => retire_apply m₁ hstays.frames) ?_
      have hall := (stays_counted m .calls 1).trans hstays.of_pushed
      exact ((delivers_one hall hm₁).mono (Nat.zero_le _) (Nat.le_refl _)).follows rfl

omit hT

variable {solve : Goal S → Store S → Solutions S}
  (ih : ∀ g s, g.Steady → g.Slotwise T → ∃ J, Enacts T n s (solve g s) J (.call g))

include ih

/-- Goals in sequence are called one from within the continuation of another. -/
theorem exists_enacts_chain {gs : List (Goal S)} (hsteady : ∀ g ∈ gs, g.Steady)
    (hslot : ∀ g ∈ gs, g.Slotwise T) (s : Store S) :
    ∃ J, Enacts T n s (Goal.chain solve gs s) J (.sequence gs) := by
  induction gs generalizing s with
  | nil =>
    refine ⟨0, fun k₀ k _ _ m next hm _ => ?_⟩
    exact delivers_one (stays_of_eq rfl rfl rfl rfl) hm
  | cons g rest ihrest =>
    rw [List.forall_mem_cons] at hsteady hslot
    obtain ⟨J, hJ⟩ := ih g s hsteady.1 hslot.1
    -- The last goal is called with the continuation itself.
    cases rest with
    | nil =>
      refine ⟨J, ?_⟩
      rw [Goal.chain_singleton]
      exact hJ
    | cons g' rest =>
      have hproceed : ∀ s', ∃ J', Enacts T n s' (Goal.chain solve (g' :: rest) s') J'
          fun next => .proceed (.sequence (g' :: rest) next) := by
        intro s'
        obtain ⟨J', hJ'⟩ := ihrest hsteady.2 hslot.2 s'
        exact ⟨J' + 1, hJ'.proceed fun _ _ _ => rfl⟩
      exact hJ.bind hproceed

/-- The branches of a disjunction are called one after the other. -/
theorem exists_delivers_branches {gs : List (Goal S)} (hsteady : ∀ g ∈ gs, g.Steady)
    (hslot : ∀ g ∈ gs, g.Slotwise T) (s : Store S) :
    ∃ J, ∀ k₀ k, k₀ ≤ k → J ≤ k → ∀ (o : Machine S) next m, o.world.store ≈ s → s.ChainsEnd →
      o.OnFrame s (.branches gs next) m →
      (concat (gs.map fun g => solve g s)).Delivers T k₀ k J next (n - k₀ * k₀) o ⟨.retry, m⟩ := by
  induction gs with
  | nil =>
    refine ⟨1, fun k₀ k hk _ o next m _ _ hm => ?_⟩
    have hnil : nil.Delivers T k₀ k 1 next (n + 1 - k₀ * k₀) o ⟨.retry, m⟩ :=
      hm.of_retry hk fun m' _ hm' => hm'.follows_exhausted
    exact hnil
  | cons g rest ihrest =>
    rw [List.forall_mem_cons] at hsteady hslot
    obtain ⟨J, hJ⟩ := ih g s hsteady.1 hslot.1
    obtain ⟨J', hJ'⟩ := ihrest hsteady.2 hslot.2
    refine ⟨J + 1 + (J' + 1), fun k₀ k hk hle o next m ho hs hm => ?_⟩
    -- The branches that are left stay on the frame while the first one is called.
    let fs : List (Frame S) := ⟨.branches rest next, o.engine.trail.length⟩ :: o.engine.frames
    have hfirst : (solve g s).Delivers T k₀ k (J + 1) next (n + 1 - k₀ * k₀) (m.withFrames fs)
        ⟨.retry, m⟩ := by
      refine hm.of_retry hk fun m' hstays hm' => ?_
      refine .of_ok (fun _ => updateAt_apply m' hm'.frames rfl _) (Delivers.follows ?_ rfl)
      have hcall := hJ k₀ k hk (by omega) (m'.withFrames fs) next hm'.store hs
      exact hcall.of_stays (hstays.withFrames fs)
    refine DeliversAt.append hk ho hm (hfirst.mono (Nat.le_refl _) (by omega)) fun m' hm' => ?_
    have hrest := hJ' k₀ k hk (by omega) (o.withAnswers m'.answers) next m' ho hs hm'
    exact hrest.mono (Nat.le_refl _) (Nat.sub_le _ _)

include hT

omit hT in
/-- A loop calls its body before it tests again. -/
theorem exists_enacts_loop {test : View → Quiet S Bool} {body : View → Quiet S (Goal S)}
    (hsteady : (Goal.loop test body).Steady) (hslot : (Goal.loop test body).Slotwise T)
    (s : Store S) :
    ∃ J, Enacts T (n + 1) s (Goal.solutionsStep T w n solve (.loop test body) s) J
      (.call (.loop test body)) := by
  have hagain : ∀ s', ∃ J, Enacts T n s' (solve (.loop test body) s') J
      fun next => .proceed (.call (.loop test body) next) := by
    intro s'
    obtain ⟨J, hJ⟩ := ih (.loop test body) s' hsteady hslot
    exact ⟨J + 1, hJ.proceed fun _ _ _ => rfl⟩
  cases hsteady with
  | loop hbody =>
  cases hslot with
  | loop htest hagrees hslot =>
  let view := (fresh w s).engine.view
  -- The body is known only at its round, so the number of steps goes by its outcome.
  have hround : ∃ J, ∀ g s', (body view).outcome T w n s = some (g, s') →
      Enacts T n s ((solve g s).bind (solve (.loop test body))) J
        fun next => .call g (.call (.loop test body) next) := by
    cases hout : (body view).outcome T w n s with
    | none => exact ⟨0, fun _ _ h => nomatch h⟩
    | some p =>
      obtain ⟨g, s'⟩ := p
      have hgives := (Quiet.gives_of_outcome hout).1
      obtain ⟨J, hJ⟩ := ih g s (hbody view g hgives.yields) (hslot view g hgives)
      obtain ⟨J', hJ'⟩ := hJ.bind hagain
      refine ⟨J', ?_⟩
      rintro _ _ ⟨⟩
      exact hJ'
  obtain ⟨J, hJ⟩ := hround
  refine ⟨n + J + 1, enacts_call fun k₀ k hk hle m next hm hs => ?_⟩
  have hn : n ≤ k := by omega
  refine .of_ok (fun _ => count_apply m .calls) (.of_ok (fun _ => enterStep_apply _) ?_)
  refine .of_ok (fun _ => get_apply _) ?_
  let m₁ := (m.counted .calls 1).stepped
  refine .of_computes (Quiet.computes (m := m₁) hk hn hm hs (htest view _) w) ?_
  intro more s₁ m₂ hout hstays₁ hm₂
  obtain ⟨-, rfl⟩ := Quiet.gives_of_outcome hout
  have hstays : m.Stays Scope.Continues m₂ :=
    (stays_of_eq (o := m) (m := m₁) rfl rfl rfl rfl).trans hstays₁
  cases more with
  | false => exact ((delivers_one hstays hm₂).mono (Nat.zero_le _) (Nat.le_refl _)).follows rfl
  | true =>
    refine .of_ok (fun _ => get_apply _) ?_
    refine .of_computes (Quiet.computes hk hn hm₂ hs (hagrees view _) w) ?_
    intro g s₂ m₃ hout' hstays₂ hm₃
    obtain ⟨-, rfl⟩ := Quiet.gives_of_outcome hout'
    have hcall := hJ g _ hout' k₀ k hk (by omega) m₃ next hm₃ hs
    refine Delivers.follows ?_ rfl
    exact (hcall.of_stays (hstays.trans hstays₂)).mono (Nat.le_add_left _ _) (Nat.le_refl _)

omit hT in
/-- How many steps the rest of a search takes depends on the choice made. -/
theorem exists_enacts_choices {handler : Quiet S (Program S (Goal S) .choices)}
    (hsteady : (Goal.search handler).Steady) (hslot : (Goal.search handler).Slotwise T)
    (make : Nat → Program S (Goal S) .attempt) (s : Store S) (N : Nat) :
    ∃ J, ∀ i < N, ∀ s', (make i).outcome T w n s = some (some true, s') →
      Enacts T n s' (solve (.search handler) s') J (.call (.search handler)) := by
  induction N with
  | zero => exact ⟨0, fun i hi => absurd hi (Nat.not_lt_zero i)⟩
  | succ N ihN =>
    obtain ⟨J, hJ⟩ := ihN
    have hlast : ∃ J', ∀ s', (make N).outcome T w n s = some (some true, s') →
        Enacts T n s' (solve (.search handler) s') J' (.call (.search handler)) := by
      cases hout : (make N).outcome T w n s with
      | none => exact ⟨0, fun _ h => nomatch h⟩
      | some p =>
        obtain ⟨J', hJ'⟩ := ih (.search handler) p.2 hsteady hslot
        refine ⟨J', ?_⟩
        rintro s' ⟨⟩
        exact hJ'
    obtain ⟨J', hJ'⟩ := hlast
    refine ⟨max J J', fun i hi s' hout => ?_⟩
    rcases Nat.lt_succ_iff_lt_or_eq.mp hi with h | rfl
    · exact (hJ i h s' hout).mono (Nat.le_max_left _ _)
    · exact (hJ' s' hout).mono (Nat.le_max_right _ _)

omit hT in
/-- There is one bound for all choices of a level, as what the level is and which choices
there are does not depend on the machine. -/
theorem exists_enacts_made {handler : Quiet S (Program S (Goal S) .choices)}
    (hsteady : (Goal.search handler).Steady) (hslot : (Goal.search handler).Slotwise T)
    (s : Store S) :
    ∃ J, ∀ level s₁ make s₂, handler.outcome T w n s = some (level, s₁) →
      level.outcome T w n s = some (some make, s₂) → ∀ i < n, ∀ s',
        (make i).outcome T w n s = some (some true, s') →
        Enacts T n s' (solve (.search handler) s') J (.call (.search handler)) := by
  by_cases h : ∃ level s₁ make s₂, handler.outcome T w n s = some (level, s₁) ∧
      level.outcome T w n s = some (some make, s₂)
  · obtain ⟨level, s₁, make, s₂, hlevel, hmade⟩ := h
    obtain ⟨J, hJ⟩ := exists_enacts_choices w ih hsteady hslot make s n
    refine ⟨J, fun level' _ make' _ hlevel' hmade' => ?_⟩
    rw [hlevel] at hlevel'
    cases hlevel'
    rw [hmade] at hmade'
    cases hmade'
    exact hJ
  · exact ⟨0, fun level s₁ make s₂ hlevel hmade => absurd ⟨level, s₁, make, s₂, hlevel, hmade⟩ h⟩

/-- A search calls itself after each choice. -/
theorem exists_enacts_search {handler : Quiet S (Program S (Goal S) .choices)}
    (hsteady : (Goal.search handler).Steady) (hslot : (Goal.search handler).Slotwise T)
    (s : Store S) :
    ∃ J, Enacts T (n + 1) s (Goal.solutionsStep T w n solve (.search handler) s) J
      (.call (.search handler)) := by
  obtain ⟨J, hJ⟩ := exists_enacts_made w ih hsteady hslot s
  cases hsteady with
  | search hlevels =>
  cases hslot with
  | search hagrees hslot =>
  refine ⟨n * (J + 1 + 1) + n + J + 1, enacts_call fun k₀ k hk hle m next hm hs => ?_⟩
  have hn : n ≤ k := by omega
  refine .of_ok (fun _ => count_apply m .calls) ?_
  refine .of_computes (Quiet.computes (m := m.counted .calls 1) hk hn hm hs hagrees w) ?_
  intro level s₁ m₁ hlevel hstays₁ hm₁
  obtain ⟨hgives, rfl⟩ := Quiet.gives_of_outcome hlevel
  obtain ⟨hslot, hbinds, hmakes⟩ := hslot level hgives
  have hsteady := hlevels level hgives.yields
  refine .of_ok (fun _ => pushHere_apply _ _) ?_
  let m₂ := m₁.pushed m₁.engine.trail.length (.search handler none next)
  refine .of_computes (Program.computes (m := m₂) hk hn hm₁ hs hT hsteady hslot w) ?_
  intro made s₂ m₃ hmade hstays₃ hm₃
  have hstays : m.Stays Scope.Continues m₁ := (stays_counted m .calls 1).trans hstays₁
  -- finding the choices has bound nothing
  have hm₃' : m₃.world.store ≈ s₁ := Setoid.trans hm₃ (hbinds.outcome hmade)
  cases made with
  | none =>
    refine .of_ok (fun _ => retire_apply m₃ hstays₃.frames) ?_
    have hall := hstays.trans hstays₃.of_pushed
    exact ((delivers_one hall hm₃').mono (Nat.zero_le _) (Nat.le_refl _)).follows rfl
  | some make =>
    have hdepth : m₃.engine.depth = m₁.engine.frames.length + 1 := by
      rw [Engine.depth, hstays₃.frames]
      rfl
    refine .of_ok (fun _ => depth_apply _)
      (.of_ok (fun _ => updateAt_apply m₃ hstays₃.frames hdepth _) (Delivers.follows ?_ rfl))
    let idle : Activation S := .search handler (some (make, 0)) next
    have hpushed : m₁.OnFrame s₁ (.search handler none next) m₃ :=
      (Stays.onFrame (stays_of_eq rfl rfl rfl rfl) hm₁ _).stays hstays₃ hm₃'
    have hframe : m₁.OnFrame s₁ idle
        (m₃.withFrames (⟨idle, m₁.engine.trail.length⟩ :: m₁.engine.frames)) :=
      ⟨rfl, hpushed.answers, hpushed.scope, hpushed.store⟩
    have halternatives : ∀ answers i m', i < n →
        (m₁.withAnswers answers).OnFrame s₁ (.search handler (some (make, i)) next) m' →
        DeliversAt T k₀ k (J + 1) (n + 1 - k₀ * k₀) next
          (Goal.choice T w n solve handler make s₁ i) (m₁.withAnswers answers)
          (.search handler (some (make, i + 1)) next) m' := by
      intro answers i m' hi hm'
      have hgives := Program.gives_of_outcome hmade
      exact Goal.choice_delivers hT w hk hn hs (by omega) (hgives.steady hsteady make rfl i)
        (hmakes make hgives i) (hJ level _ make _ hlevel hmade i hi) hm'
    have hall := delivers_alternatives hk hm₁ halternatives n (Nat.zero_add n).le (Nat.sub_le _ _)
      (Nat.sub_le_sub_right (Nat.le_succ n) _) hframe
    exact (hall.of_stays hstays).mono (by omega) (Nat.le_refl _)

omit hT in
/-- A goal that is called once delivers its first solution. -/
theorem exists_enacts_once {g : Goal S} (hsteady : g.Steady) (hslot : g.Slotwise T)
    (s : Store S) :
    ∃ J, Enacts T (n + 1) s (Goal.solutionsStep T w n solve (.once g) s) J (.call (.once g)) := by
  obtain ⟨J, hJ⟩ := ih g s hsteady hslot
  refine ⟨J + 2, enacts_call fun k₀ k hk hle m next hm hs => ?_⟩
  refine .of_ok (fun _ => count_apply m .calls) (.of_ok (fun _ => enterStep_apply _) ?_)
  refine .of_ok (fun _ => depth_apply _) (Delivers.follows ?_ rfl)
  let m' := (m.counted .calls 1).stepped
  have hstays : m.Stays Scope.Continues m' := stays_of_eq rfl rfl rfl rfl
  have hcall := hJ k₀ k hk (by omega) m' (.commit m'.engine.depth next) hm hs
  exact (hcall.first hk).of_stays hstays

/-- A goal that is only tried is run to its first solution, which is then given up. -/
theorem exists_enacts_notNot {g : Goal S} (hsteady : g.Steady) (hslot : g.Slotwise T)
    (s : Store S) :
    ∃ J, Enacts T (n + 1) s (Goal.solutionsStep T w n solve (.notNot g) s) J
      (.call (.notNot g)) := by
  obtain ⟨J, hJ⟩ := ih g s hsteady hslot
  refine ⟨J + 3 + 1, enacts_call fun k₀ k hk hle m next hm hs => ?_⟩
  refine .of_ok (fun _ => count_apply m .calls) (.of_ok (fun _ => pushHere_apply _ _) ?_)
  have hrun := Goal.run_computes (m := (m.counted .calls 1).pushed m.engine.trail.length .step)
    hT hsteady hJ hk hle hm hs
  have htest : (solve g s).test s =
      after ((solve g s).outcome s) fun status s => verdict (status = .success) s := by
    cases solve g s <;> rfl
  show Follows T k₀ k n (J + 3) next .task ((solve g s).test s) m _ _
  rw [htest]
  refine .of_computes hrun fun status s' m' _ hstays hm' => ?_
  refine .of_ok (fun _ => retire_apply m' hstays.frames) ?_
  have hall := (stays_counted m .calls 1).trans hstays.of_pushed
  exact ((delivers_verdict hall hm' _).mono (Nat.zero_le _) (Nat.le_refl _)).follows rfl

/-- Whatever a goal is, calling it delivers what its constructor makes of the solutions of
its parts. -/
theorem exists_enacts_step {g : Goal S} (hsteady : g.Steady) (hslot : g.Slotwise T)
    (s : Store S) :
    ∃ J, Enacts T (n + 1) s (Goal.solutionsStep T w n solve g s) J (.call g) := by
  cases g with
  | succeed => exact ⟨1, enacts_succeed⟩
  | fail => exact ⟨1, enacts_fail⟩
  | call p => exact exists_enacts_predicate hT w hsteady hslot
  | loop test body => exact exists_enacts_loop w ih hsteady hslot s
  | search handler => exact exists_enacts_search hT w ih hsteady hslot s
  | sequence gs =>
    cases hsteady with
    | sequence hsteady =>
    cases hslot with
    | sequence hslot =>
    obtain ⟨J, hJ⟩ := exists_enacts_chain ih hsteady hslot s
    refine ⟨J + 1, enacts_call fun k₀ k hk hle m next hm hs => ?_⟩
    refine .of_ok (fun _ => count_apply m .calls) (Delivers.follows ?_ rfl)
    exact (hJ k₀ k hk hle (m.counted .calls 1) next hm hs).of_stays (stays_counted m .calls 1)
  | disjunction gs =>
    cases hsteady with
    | disjunction hsteady =>
    cases hslot with
    | disjunction hslot =>
    obtain ⟨J, hJ⟩ := exists_delivers_branches ih hsteady hslot s
    refine ⟨J + 1, enacts_call fun k₀ k hk hle m next hm hs => ?_⟩
    refine .of_ok (fun _ => count_apply m .calls) (.of_ok (fun _ => pushHere_apply _ _) ?_)
    refine Delivers.follows ?_ rfl
    exact hJ k₀ k hk hle m next _ hm hs ((stays_counted m .calls 1).onFrame hm _)
  | once g =>
    cases hsteady with
    | once hsteady =>
    cases hslot with
    | once hslot => exact exists_enacts_once w ih hsteady hslot s
  | notNot g =>
    cases hsteady with
    | notNot hsteady =>
    cases hslot with
    | notNot hslot => exact exists_enacts_notNot hT w ih hsteady hslot s

omit ih

/-- Calling a goal delivers its solutions, from every machine with the same
slots. -/
theorem Goal.exists_enacts (n : Nat) {g : Goal S} (hsteady : g.Steady) (hslot : g.Slotwise T)
    (s : Store S) : ∃ J, Enacts T n s (g.solutions T w n s) J (.call g) := by
  induction n generalizing g s with
  | zero =>
    refine ⟨0, fun k₀ k _ _ m next _ _ => ?_⟩
    show Lost T k₀ (0 - k₀ * k₀) ⟨.call g next, m⟩
    rw [Nat.zero_sub]
    intro status m' h
    cases h
  | succ n ih => exact exists_enacts_step hT w (fun g s hg hg' => ih hg hg' s) hsteady hslot s

end Goals

end GoalSearch
