/-
Engines that deliver lists of solutions.

An engine delivers a list if it goes on with the continuation at each store of
the list in turn: it reaches the first one, and whenever it is sent back from
there it delivers the rest.  At the end of the list it goes back itself, from
the stack it started on; where the list breaks off it does not come back, not
within the steps that a shorter bound allows for.

* `Configuration.Reaches`, `Configuration.Lost` — steps, and runs without end;
* `Solutions.Delivers` — the engine delivers a list;
* `Delivers.append`, `Delivers.first`, `exists_bind` — lists that are made of
  others are delivered by delivering these.

Design notes: there are two bounds.  With the larger one, `k`, the engine takes
all the steps that it needs; how many these are is limited by `J` for each store,
whatever machine the engine starts from, since a nested run has to get through
with what `k` leaves it.  The smaller one, `k₀`, is the bound of a run that may
not get through, and counts only where a list breaks off.
-/
import GoalSearch.Proofs.Chains
import GoalSearch.Proofs.Fuel
import GoalSearch.Proofs.Once
import GoalSearch.Proofs.Solutions

namespace GoalSearch

open GoalSearch.Action

variable {S : Vocabulary} {T : Theory S} {k₀ k : Nat}

/-! ### Steps -/

namespace Configuration

variable (T k) in
/-- A number of steps of a run lead from one configuration to another. -/
inductive Reaches : Nat → Configuration S → Configuration S → Prop
  | refl (c : Configuration S) : Reaches 0 c c
  | head {j : Nat} {c c₁ c' : Configuration S} :
      Machine.step T k (Machine.run T k) c.task c.machine = .ok (.task c₁.task) c₁.machine →
      Reaches j c₁ c' → Reaches (j + 1) c c'

variable (T k₀) in
/-- A run does not end within a number of steps. -/
def Lost (L : Nat) (c : Configuration S) : Prop :=
  ∀ status m, Machine.drive T k₀ (Machine.run T k₀) c.task L c.machine ≠ .ok status m

variable {c c₁ c' : Configuration S} {j j' L L' : Nat}

theorem Reaches.single {t t' : Task S} {m m' : Machine S}
    (h : Machine.step T k (Machine.run T k) t m = .ok (.task t') m') :
    Reaches T k 1 ⟨t, m⟩ ⟨t', m'⟩ :=
  .head h (.refl _)

theorem Reaches.trans (h : Reaches T k j c c₁) (h' : Reaches T k j' c₁ c') :
    Reaches T k (j + j') c c' := by
  induction h with
  | refl => rwa [Nat.zero_add]
  | head hstep _ ih =>
    rw [Nat.succ_add]
    exact .head hstep (ih h')

theorem Reaches.drive (h : Reaches T k j c c') (n : Nat) :
    Machine.drive T k (Machine.run T k) c.task (j + n) c.machine =
      Machine.drive T k (Machine.run T k) c'.task n c'.machine := by
  induction h with
  | refl => rw [Nat.zero_add]
  | head hstep _ ih => rw [Nat.succ_add, Machine.drive_succ, hstep, ← ih]

theorem Lost.mono (h : Lost T k₀ L c) (hL : L' ≤ L) : Lost T k₀ L' c := by
  intro status m hdrive
  have hbelow := Machine.drive_below (T := T) (Nat.le_refl k₀)
    (Machine.run_below (T := T) (Nat.le_refl k₀)) c.task hL
  exact h status m (hbelow.ok hdrive)

/-- A run whose next step does not end does not end. -/
theorem lost_of_step
    (h : ∀ p m, Machine.step T k₀ (Machine.run T k₀) c.task c.machine ≠ .ok p m) (L : Nat) :
    Lost T k₀ L c := by
  intro status m hdrive
  cases L with
  | zero => cases hdrive
  | succ L =>
    rw [Machine.drive_succ] at hdrive
    cases hstep : Machine.step T k₀ (Machine.run T k₀) c.task c.machine with
    | ok p m' => exact h p m' hstep
    | error e m' =>
      rw [hstep] at hdrive
      cases hdrive

/-- A run is as lost as it is after any steps, on a smaller bound as well. -/
theorem Lost.of_reaches (hk : k₀ ≤ k) (h : Reaches T k j c c') (hlost : Lost T k₀ L c') :
    Lost T k₀ (L + j) c := by
  induction h with
  | refl => exact hlost
  | @head j c c₁ c' hstep _ ih =>
    intro status m hdrive
    rw [show L + (j + 1) = L + j + 1 by omega, Machine.drive_succ] at hdrive
    have hrun := Machine.run_below (T := T) hk
    rcases (Machine.step_below (T := T) hk hrun c.task).outcome c.machine with ⟨m', hm', -⟩ | heq
    · rw [hm'] at hdrive
      cases hdrive
    · rw [heq, hstep] at hdrive
      exact ih hlost status m hdrive

end Configuration

open GoalSearch.Configuration

/-! ### Machines on the way -/

namespace Machine

/-- What an engine may do on its way to a solution: it adds frames, and its
scope is a later one. -/
structure Leads (o m : Machine S) : Prop where
  frames : o.engine.frames <:+ m.engine.frames
  answers : m.answers = o.answers
  scope : o.scope.Continues m.scope

variable {o o' m m' : Machine S}

theorem Stays.leads (h : o.Stays Scope.Continues m) : o.Leads m :=
  ⟨h.frames ▸ List.suffix_refl _, h.answers, h.scope⟩

theorem Leads.trans (h : o.Leads o') (h' : o'.Leads m) : o.Leads m :=
  ⟨h.frames.trans h'.frames, h'.answers.trans h.answers, h.scope.trans h'.scope⟩

theorem Stays.trans (h : o.Stays Scope.Continues o') (h' : o'.Stays Scope.Continues m) :
    o.Stays Scope.Continues m :=
  ⟨h'.frames.trans h.frames, h'.answers.trans h.answers, h.scope.trans h'.scope⟩

theorem stays_of_eq (hframes : m.engine.frames = o.engine.frames)
    (htrail : m.engine.trail = o.engine.trail) (hanswers : m.answers = o.answers)
    (hstore : m.world.store = o.world.store) : o.Stays Scope.Continues m :=
  ⟨hframes, hanswers, Scope.continues_of_same htrail (Store.equiv_of_eq hstore)⟩

/-- The machine with other answers. -/
def withAnswers (m : Machine S) (answers : List S.Term) : Machine S :=
  { m with answers := answers }

theorem Stays.withAnswers (h : o.Stays Scope.Continues m) (answers : List S.Term) :
    (o.withAnswers answers).Stays Scope.Continues (m.withAnswers answers) :=
  ⟨h.frames, rfl, h.scope⟩

end Machine

open Machine

/-! ### Delivery -/

namespace Solutions

variable (T k₀ k) in
/-- From a configuration of a run that called a goal on the machine `o`, the
engine goes on with `next` at each store of a list in turn. -/
def Delivers (J : Nat) (next : Continuation S) :
    Solutions S → Nat → Machine S → Configuration S → Prop
  | nil, _, o, c => ∃ j m, j ≤ J ∧ c.Reaches T k j ⟨.backtrack, m⟩ ∧ o.Stays Scope.Continues m
  | stopped, L, _, c => c.Lost T k₀ L
  | cons s rest, L, o, c => ∃ j m, j ≤ J ∧ c.Reaches T k j ⟨.proceed next, m⟩ ∧
      o.Leads m ∧ m.world.store ≈ s ∧
      ∀ m', m'.engine.frames = m.engine.frames → m.scope.Continues m'.scope →
        Delivers J next rest (L - j) (o.withAnswers m'.answers) ⟨.backtrack, m'⟩

variable {J J' L L' : Nat} {next : Continuation S} {o o' m : Machine S} {c c' : Configuration S}
  {X Y : Solutions S}

theorem Delivers.mono (h : X.Delivers T k₀ k J next L o c) (hJ : J ≤ J') (hL : L' ≤ L) :
    X.Delivers T k₀ k J' next L' o c := by
  induction X generalizing L L' o c with
  | nil =>
    obtain ⟨j, m, hj, hreaches, hm⟩ := h
    exact ⟨j, m, by omega, hreaches, hm⟩
  | stopped => exact Lost.mono h hL
  | cons s rest ih =>
    obtain ⟨j, m, hj, hreaches, hm, hs, hrest⟩ := h
    refine ⟨j, m, by omega, hreaches, hm, hs, fun m' hframes hscope => ?_⟩
    exact ih (hrest m' hframes hscope) (by omega)

/-- A list that is delivered to a later machine on the same stack is delivered. -/
theorem Delivers.of_stays (ho : o.Stays Scope.Continues o')
    (h : X.Delivers T k₀ k J next L o' c) : X.Delivers T k₀ k J next L o c := by
  induction X generalizing L o o' c with
  | nil =>
    obtain ⟨j, m, hj, hreaches, hm⟩ := h
    exact ⟨j, m, hj, hreaches, ho.trans hm⟩
  | stopped => exact h
  | cons s rest ih =>
    obtain ⟨j, m, hj, hreaches, hm, hs, hrest⟩ := h
    refine ⟨j, m, hj, hreaches, ho.leads.trans hm, hs, fun m' hframes hscope => ?_⟩
    exact ih (ho.withAnswers _) (hrest m' hframes hscope)

/-- Steps before a delivery. -/
theorem Delivers.of_reaches (hk : k₀ ≤ k) {j : Nat} (hc : c.Reaches T k j c')
    (h : X.Delivers T k₀ k J next L o c') : X.Delivers T k₀ k (J + j) next (L + j) o c := by
  cases X with
  | nil =>
    obtain ⟨i, m, hi, hreaches, hm⟩ := h
    exact ⟨j + i, m, by omega, hc.trans hreaches, hm⟩
  | stopped => exact Lost.of_reaches hk hc h
  | cons s rest =>
    obtain ⟨i, m, hi, hreaches, hm, hs, hrest⟩ := h
    refine ⟨j + i, m, by omega, hc.trans hreaches, hm, hs, fun m' hframes hscope => ?_⟩
    exact (hrest m' hframes hscope).mono (by omega) (by omega)

theorem delivers_nil (h : o.Stays Scope.Continues m) :
    (nil : Solutions S).Delivers T k₀ k 0 next L o ⟨.backtrack, m⟩ :=
  ⟨0, m, Nat.le_refl _, .refl _, h⟩

theorem delivers_one (h : o.Stays Scope.Continues m) {s : Store S} (hs : m.world.store ≈ s) :
    (one s).Delivers T k₀ k 0 next L o ⟨.proceed next, m⟩ := by
  refine ⟨0, m, Nat.le_refl _, .refl _, h.leads, hs, fun m' hframes hscope => ?_⟩
  exact delivers_nil ⟨hframes.trans h.frames, rfl, h.scope.trans hscope⟩

theorem delivers_verdict (h : o.Stays Scope.Continues m) {s : Store S} (hs : m.world.store ≈ s)
    (b : Bool) : (verdict b s).Delivers T k₀ k 0 next L o ⟨.ofVerdict b next, m⟩ := by
  cases b with
  | true => exact delivers_one h hs
  | false => exact delivers_nil h

/-- One list after the other: when the first one ends, the engine goes back to
where it delivers the second one. -/
theorem Delivers.append (hk : k₀ ≤ k) (ho : o.Leads o')
    (hX : X.Delivers T k₀ k J next L o' c)
    (hY : ∀ m, m.engine.frames = o'.engine.frames → o'.scope.Continues m.scope →
      Y.Delivers T k₀ k J' next L (o.withAnswers m.answers) ⟨.backtrack, m⟩) :
    (X.append Y).Delivers T k₀ k (J + J') next L o c := by
  induction X generalizing L o o' c with
  | nil =>
    obtain ⟨j, m, hj, hreaches, hm⟩ := hX
    have h := (hY m hm.frames hm.scope).of_reaches hk hreaches
    rw [hm.answers.trans ho.answers] at h
    exact h.mono (by omega) (by omega)
  | stopped => exact hX
  | cons s rest ih =>
    obtain ⟨j, m, hj, hreaches, hm, hs, hrest⟩ := hX
    refine ⟨j, m, by omega, hreaches, ho.trans hm, hs, fun m' hframes hscope => ?_⟩
    -- What is delivered may change the answers, which the second list then starts from.
    have ho' : (o.withAnswers m'.answers).Leads (o'.withAnswers m'.answers) :=
      ⟨ho.frames, rfl, ho.scope⟩
    refine ih ho' (hrest m' hframes hscope) fun m'' hframes' hscope' => ?_
    exact (hY m'' hframes' hscope').mono (Nat.le_refl _) (by omega)

/-- The first solution is delivered by dropping the frames that were added on
the way to it. -/
theorem Delivers.first (hk : k₀ ≤ k)
    (h : X.Delivers T k₀ k J (.commit o.engine.depth next) L o c) :
    X.first.Delivers T k₀ k (J + 1) next L o c := by
  cases X with
  | nil =>
    obtain ⟨j, m, hj, hreaches, hm⟩ := h
    exact ⟨j, m, by omega, hreaches, hm⟩
  | stopped => exact h
  | cons s rest =>
    obtain ⟨j, m, hj, hreaches, hm, hs, -⟩ := h
    let m₁ := m.committed o.engine.depth
    have hstep : Reaches T k 1 ⟨.proceed (.commit o.engine.depth next), m⟩ ⟨.proceed next, m₁⟩ :=
      .single (bind_ok (commit_apply m _))
    have hframes : m₁.engine.frames = o.engine.frames := by
      rw [committed_frames, Engine.depth, Engine.depth]
      exact (List.suffix_iff_eq_drop.mp hm.frames).symm
    have hscope : m.scope.Continues m₁.scope :=
      Scope.continues_of_same rfl (Setoid.refl _)
    have hone : (one s).Delivers T k₀ k 0 next L o ⟨.proceed next, m₁⟩ :=
      delivers_one ⟨hframes, hm.answers, hm.scope.trans hscope⟩ hs
    exact (hone.of_reaches hk (hreaches.trans hstep)).mono (by omega) (by omega)

/-! ### Lists in sequence -/

variable (T) in
/-- Whatever the machine, as long as it has the slots `s`, the engine delivers a
list from the task `t`. -/
def Enacts (n : Nat) (s : Store S) (X : Solutions S) (J : Nat)
    (t : Continuation S → Task S) : Prop :=
  ∀ k₀ k, k₀ ≤ k → J ≤ k → ∀ (m : Machine S) next, m.world.store ≈ s → s.ChainsEnd →
    X.Delivers T k₀ k J next (n - k₀ * k₀) m ⟨t next, m⟩

variable {n : Nat} {s : Store S} {t t' : Continuation S → Task S}
  {wrap : Continuation S → Continuation S} {f : Store S → Solutions S}

theorem Enacts.mono (h : Enacts T n s X J t) (hJ : J ≤ J') : Enacts T n s X J' t :=
  fun k₀ k hk hJk m next hm hs => (h k₀ k hk (by omega) m next hm hs).mono hJ (Nat.le_refl _)

/-- What is enacted after a step that only looks at the continuation. -/
theorem Enacts.proceed (h : Enacts T n s X J t)
    (hstep : ∀ k next (m : Machine S), Machine.step T k (Machine.run T k) (.proceed (wrap next)) m =
      .ok (.task (t next)) m) : Enacts T n s X (J + 1) fun next => .proceed (wrap next) := by
  intro k₀ k hk hJ m next hm hs
  have hreaches := Reaches.single (hstep k next m)
  exact ((h k₀ k hk (by omega) m next hm hs).of_reaches hk hreaches).mono (Nat.le_refl _) (by omega)

/-- Going on from each store of a list in turn.  How many steps this takes
depends on the list. -/
theorem exists_bind (hf : ∀ s, ∃ J', Enacts T n s (f s) J' fun next => .proceed (wrap next))
    (X : Solutions S) (J : Nat) :
    ∃ J', ∀ k₀ k, k₀ ≤ k → J' ≤ k → ∀ L next o c, L ≤ n - k₀ * k₀ → o.world.store.ChainsEnd →
      X.Delivers T k₀ k J (wrap next) L o c → (X.bind f).Delivers T k₀ k J' next L o c := by
  induction X with
  | nil => exact ⟨J, fun _ _ _ _ _ _ _ _ _ _ h => h⟩
  | stopped => exact ⟨J, fun _ _ _ _ _ _ _ _ _ _ h => h⟩
  | cons s rest ih =>
    obtain ⟨J₁, h₁⟩ := hf s
    obtain ⟨J₂, h₂⟩ := ih
    refine ⟨J + (J₁ + J₂), ?_⟩
    intro k₀ k hk hJ L next o c hL ho hX
    obtain ⟨j, m, hj, hreaches, hm, hs, hrest⟩ := hX
    have hchains : s.ChainsEnd := (hm.scope.chainsEnd ho).congr hs
    have hfirst := h₁ k₀ k hk (by omega) m next hs hchains
    have hlist : ((f s).append (rest.bind f)).Delivers T k₀ k (J₁ + J₂) next (L - j) o
        ⟨.proceed (wrap next), m⟩ := by
      refine (hfirst.mono (Nat.le_refl _) (by omega)).append hk hm ?_
      intro m' hframes hscope
      exact h₂ k₀ k hk (by omega) _ next _ _ (by omega) ho (hrest m' hframes hscope)
    exact (hlist.of_reaches hk hreaches).mono (by omega) (by omega)

theorem Enacts.bind (h : Enacts T n s X J t)
    (hf : ∀ s, ∃ J', Enacts T n s (f s) J' fun next => .proceed (wrap next)) :
    ∃ J', Enacts T n s (X.bind f) J' fun next => t (wrap next) := by
  obtain ⟨J', h'⟩ := exists_bind hf X J
  refine ⟨max J J', fun k₀ k hk hJ m next hm hs => ?_⟩
  have hX := h k₀ k hk (by omega) m (wrap next) hm hs
  have hbind := h' k₀ k hk (by omega) _ next m _ (Nat.le_refl _) (hs.congr (Setoid.symm hm)) hX
  exact hbind.mono (by omega) (Nat.le_refl _)

end Solutions

/-! ### The alternatives of a frame -/

namespace Machine

/-- A frame for the activation `a` is on top of the stack of `o`, and the slots
are `s`. -/
structure OnFrame (o : Machine S) (s : Store S) (a : Activation S) (m : Machine S) : Prop where
  frames : m.engine.frames = ⟨a, o.engine.trail.length⟩ :: o.engine.frames
  answers : m.answers = o.answers
  scope : o.scope.Continues m.scope
  store : m.world.store ≈ s

variable {o m m' : Machine S} {s : Store S} {a a' : Activation S}

theorem OnFrame.of_eq (h : o.OnFrame s a m) (hframes : m'.engine.frames = m.engine.frames)
    (htrail : m'.engine.trail = m.engine.trail) (hanswers : m'.answers = m.answers)
    (hstore : m'.world.store = m.world.store) : o.OnFrame s a m' where
  frames := hframes.trans h.frames
  answers := hanswers.trans h.answers
  scope := h.scope.trans (Scope.continues_of_same htrail (Store.equiv_of_eq hstore))
  store := Setoid.trans (Store.equiv_of_eq hstore) h.store

theorem backtrack_apply {f : Frame S} {fs : List (Frame S)} (h : m.engine.frames = f :: fs) :
    backtrack m = .ok (.task .retry) (m.undone f.mark) := by
  rw [backtrack, bind_ok (get_apply m), h]
  exact bind_ok (undoTo_apply m f.mark)

theorem retry_apply {run : Runner S} (i : Nat) {mark : Nat} {fs : List (Frame S)}
    (h : m.engine.frames = ⟨a, mark⟩ :: fs) :
    retry T i run m = retryActivation T i run (fs.length + 1) a
      ((m.counted .retries 1).noted (.retried a.kind (fs.length + 1))) := by
  rw [retry, bind_ok (count_apply _ _), bind_ok (get_apply _), counted_frames, h]
  refine (bind_ok (trace_apply _ _)).trans ?_
  rw [Engine.depth, counted_frames, h]
  rfl

theorem reaches_retry {f : Frame S} {fs : List (Frame S)} (h : m.engine.frames = f :: fs) :
    Reaches T k 1 ⟨.backtrack, m⟩ ⟨.retry, m.undone f.mark⟩ :=
  .single (backtrack_apply h)

/-- Going back to a frame goes back to the slots at which it was pushed. -/
theorem OnFrame.of_undone (ho : o.world.store ≈ s)
    (hframes : m.engine.frames = ⟨a, o.engine.trail.length⟩ :: o.engine.frames)
    (hscope : o.scope.Continues m.scope) :
    (o.withAnswers m.answers).OnFrame s a (m.undone o.engine.trail.length) := by
  have hback : o.scope.Continues (m.undone o.engine.trail.length).scope :=
    hscope.backtrack (Nat.le_refl _)
  have hlength : (m.undone o.engine.trail.length).scope.trail.length = o.scope.trail.length := by
    have hle : o.engine.trail.length ≤ m.engine.trail.length := hscope.later.grows.length_le
    exact (length_undone m _).trans (Nat.min_eq_right hle)
  exact ⟨hframes, rfl, hback, Setoid.trans (hback.later.store_equiv hlength) ho⟩

end Machine

namespace Solutions

variable (T k₀ k) in
/-- A retry delivers an alternative, with the activation `a` on the frame from
then on.  Where there is none it removes the frame. -/
def DeliversAt (J L : Nat) (next : Continuation S) (alternative : Option (Solutions S))
    (o : Machine S) (a : Activation S) (m : Machine S) : Prop :=
  match alternative with
  | none => nil.Delivers T k₀ k J next L o ⟨.retry, m⟩
  | some X => X.Delivers T k₀ k J next L
      (m.withFrames (⟨a, o.engine.trail.length⟩ :: o.engine.frames)) ⟨.retry, m⟩

variable {o : Machine S} {s : Store S} {next : Continuation S} {J L L' : Nat} {a : Activation S}
  {m : Machine S} {X Y : Solutions S}

/-- An alternative, and what the frame delivers once the engine is back. -/
theorem DeliversAt.append {a' : Activation S} {J' : Nat} (hk : k₀ ≤ k) (ho : o.world.store ≈ s)
    (hm : o.OnFrame s a m) (hX : DeliversAt T k₀ k J L next (some X) o a' m)
    (hY : ∀ m', (o.withAnswers m'.answers).OnFrame s a' m' →
      Y.Delivers T k₀ k J' next (L - 1) (o.withAnswers m'.answers) ⟨.retry, m'⟩) :
    (X.append Y).Delivers T k₀ k (J + (J' + 1)) next L o ⟨.retry, m⟩ := by
  let o' := m.withFrames (⟨a', o.engine.trail.length⟩ :: o.engine.frames)
  have hleads : o.Leads o' := ⟨List.suffix_cons _ _, hm.answers, hm.scope⟩
  have hdelivers : X.Delivers T k₀ k J next L o' ⟨.retry, m⟩ := hX
  refine hdelivers.append hk hleads fun m' hframes hscope => ?_
  have hback := OnFrame.of_undone ho hframes (hm.scope.trans hscope)
  have hrest := (hY _ hback).of_reaches hk (reaches_retry hframes)
  exact hrest.mono (Nat.le_refl _) (by omega)

/-- The alternatives of a frame are delivered one after the other. -/
theorem delivers_alternatives (hk : k₀ ≤ k) (ho : o.world.store ≈ s) {act : Nat → Activation S}
    {f : Nat → Option (Solutions S)} {N : Nat}
    (h : ∀ answers i m, i < N → (o.withAnswers answers).OnFrame s (act i) m →
      DeliversAt T k₀ k J L' next (f i) (o.withAnswers answers) (act (i + 1)) m)
    (n : Nat) {answers : List S.Term} {i : Nat} (hN : i + n ≤ N) (hn : L ≤ n) (hL : L ≤ L')
    (hm : (o.withAnswers answers).OnFrame s (act i) m) :
    (alternatives f n i).Delivers T k₀ k (n * (J + 1)) next L (o.withAnswers answers)
      ⟨.retry, m⟩ := by
  induction n generalizing answers i L m with
  | zero =>
    obtain rfl : L = 0 := by omega
    intro status m' h
    cases h
  | succ n ih =>
    have hi := h answers i m (by omega) hm
    unfold alternatives
    rw [Nat.succ_mul]
    -- What the first alternative does not deliver is left to the others, on the same frame.
    cases hf : f i with
    | none =>
      rw [hf] at hi
      exact hi.mono (by omega) hL
    | some X =>
      rw [hf] at hi
      have hX : DeliversAt T k₀ k J L next (some X) (o.withAnswers answers) (act (i + 1)) m :=
        Delivers.mono hi (Nat.le_refl _) hL
      have hall := hX.append (o := o.withAnswers answers) hk ho hm fun m' hm' =>
        ih (L := L - 1) (by omega) (by omega) (by omega) hm'
      exact hall.mono (by omega) (Nat.le_refl _)

end Solutions

end GoalSearch
