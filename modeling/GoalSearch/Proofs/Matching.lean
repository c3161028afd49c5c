/-
Computations that do as much with enough fuel.

Two computations may do the same in different numbers of steps, so a bound that
one of them gets through with may be too small for the other.  What is compared
is then a computation with one bound and a computation with any bound: whatever
the first one does, the second one does as well if its bound is large enough.

* `Action.Ample` — computations, by their fuel, that get further with more of it;
* `Action.Matched` — what a computation ends with, stops with or has written when
  it runs out of fuel, another one does too with enough fuel;
* `Machine.Beside` — machines that differ in their stacks and counters only;
* `Machine.Apace` — what code leaves of machines beside each other.

Design notes: the order of the two fuels is what makes an induction on the steps
of the first computation possible while the second one takes more steps or less
at each of them.  A computation that runs out of fuel is compared by the rows
that it has written, which the second one may continue.
-/
import GoalSearch.Proofs.Abreast
import GoalSearch.Proofs.Chains
import GoalSearch.Proofs.Fuel

namespace GoalSearch

open GoalSearch.Action

variable {S : Vocabulary} {T : Theory S} {α β γ δ : Type}

/-! ### Enough fuel -/

namespace Action

variable {σ : Type} [Logged σ]

/-- Computations, by their fuel, that get further with more of it. -/
def Ample (y : Nat → Action σ α) : Prop := ∀ i j, i ≤ j → Below (y i) (y j)

theorem ample_const {x : Action σ α} (hx : x.Writes) : Ample fun _ => x :=
  fun _ _ _ => Below.refl hx

theorem Ample.bind {y : Nat → Action σ α} {g : Nat → α → Action σ β} (hy : Ample y)
    (hg : ∀ a, Ample fun n => g n a) : Ample fun n => y n >>= g n :=
  fun i j hij => Below.bind (hy i j hij) fun a => hg a i j hij

theorem Ample.writes {y : Nat → Action σ α} (hy : Ample y) (n : Nat) : (y n).Writes :=
  (hy n n (Nat.le_refl n)).writes

theorem Ample.ok {y : Nat → Action σ α} (hy : Ample y) {n j : Nat} (hn : n ≤ j) {s t : σ} {a : α}
    (h : y n s = .ok a t) : y j s = .ok a t :=
  (hy n j hn).ok h

theorem Ample.fault {y : Nat → Action σ α} (hy : Ample y) {n j : Nat} (hn : n ≤ j) {s t : σ}
    {f : Fault} (h : y n s = .error (.fault f) t) : y j s = .error (.fault f) t :=
  ((hy n j hn).outcome s).fault h

/-- Whatever `x` does from the state `s`, the computations `y` do from the state
`t` with enough fuel: they end, as `post` says, or stop for the same reason, as
`stop` says.  If `x` runs out of fuel, they write all that it has written. -/
structure Matched (x : Action σ α) (s : σ) (y : Nat → Action σ β) (t : σ)
    (post : α → σ → β → σ → Prop) (stop : σ → σ → Prop) : Prop where
  ok : ∀ {a s'}, x s = .ok a s' → ∃ n b t', y n t = .ok b t' ∧ post a s' b t'
  fault : ∀ {f s'}, x s = .error (.fault f) s' → ∃ n t', y n t = .error (.fault f) t' ∧ stop s' t'
  rows : ∀ {s'}, x s = .error .outOfFuel s' →
    ∃ n, ∀ j, n ≤ j → Logged.rows s' <:+ Logged.rows ((y j).last t)

section Matched

variable {x : Action σ α} {y : Nat → Action σ β} {s s' t t' : σ} {post : α → σ → β → σ → Prop}
  {stop : σ → σ → Prop}

theorem Matched.mono {post' : α → σ → β → σ → Prop} (h : Matched x s y t post stop)
    (hp : ∀ a s' n b t', x s = .ok a s' → y n t = .ok b t' → post a s' b t' → post' a s' b t') :
    Matched x s y t post' stop where
  ok hx := by
    obtain ⟨n, b, t', hy, hpost⟩ := h.ok hx
    exact ⟨n, b, t', hy, hp _ _ n b t' hx hy hpost⟩
  fault := h.fault
  rows := h.rows

theorem Matched.congr {x' : Action σ α} {y' : Nat → Action σ β} (h : Matched x s y t post stop)
    (hx : x' s' = x s) (hy : ∀ n, y' n t' = y n t) : Matched x' s' y' t' post stop := by
  obtain ⟨hok, hfault, hrows⟩ := h
  constructor
  · intro a u hu
    simpa only [hy] using hok (hx ▸ hu)
  · intro f u hu
    simpa only [hy] using hfault (hx ▸ hu)
  · intro u hu
    simpa only [last, hy] using hrows (hx ▸ hu)

theorem matched_pure {a : α} {b : β} (h : post a s b t) :
    Matched (pure a) s (fun _ => pure b) t post stop where
  ok hx := by
    cases hx
    exact ⟨0, b, t, rfl, h⟩
  fault hx := nomatch hx
  rows hx := nomatch hx

theorem Matched.bind {f : α → Action σ γ} {g : Nat → β → Action σ δ}
    {post' : γ → σ → δ → σ → Prop} (hy : Ample y) (hg : ∀ b, Ample fun n => g n b)
    (h : Matched x s y t post stop)
    (hf : ∀ a s' n b t', x s = .ok a s' → y n t = .ok b t' → post a s' b t' →
      Matched (f a) s' (fun n => g n b) t' post' stop) :
    Matched (x >>= f) s (fun n => y n >>= g n) t post' stop := by
  have hend : ∀ {n j b t'}, y n t = .ok b t' → n ≤ j → (y j >>= g j) t = g j b t' :=
    fun hyn hj => bind_ok (hy.ok hj hyn)
  constructor
  · intro c u hu
    obtain ⟨a, s', hx, hfa⟩ := bind_eq_ok.mp hu
    obtain ⟨n, b, t', hyn, hpost⟩ := h.ok hx
    obtain ⟨j, d, v, hgj, hpost'⟩ := (hf a s' n b t' hx hyn hpost).ok hfa
    -- Each part has a bound of its own, and more fuel does no harm to either.
    refine ⟨max n j, d, v, ?_, hpost'⟩
    exact (hend hyn (Nat.le_max_left n j)).trans ((hg b).ok (Nat.le_max_right n j) hgj)
  · intro e u hu
    rcases bind_eq_error.mp hu with hx | ⟨a, s', hx, hfa⟩
    · obtain ⟨n, v, hyn, hstop⟩ := h.fault hx
      exact ⟨n, v, bind_error hyn, hstop⟩
    · obtain ⟨n, b, t', hyn, hpost⟩ := h.ok hx
      obtain ⟨j, v, hgj, hstop⟩ := (hf a s' n b t' hx hyn hpost).fault hfa
      refine ⟨max n j, v, ?_, hstop⟩
      exact (hend hyn (Nat.le_max_left n j)).trans ((hg b).fault (Nat.le_max_right n j) hgj)
  · intro u hu
    rcases bind_eq_error.mp hu with hx | ⟨a, s', hx, hfa⟩
    · -- what comes after takes nothing back
      obtain ⟨n, hn⟩ := h.rows hx
      refine ⟨n, fun j hj => (hn j hj).trans ?_⟩
      cases hyj : y j t with
      | ok b v =>
        rw [last, hyj, last_bind_of_ok hyj]
        exact (hg b).writes j v
      | error e v => rw [last_bind_of_error hyj]
    · obtain ⟨n, b, t', hyn, hpost⟩ := h.ok hx
      obtain ⟨j, hj⟩ := (hf a s' n b t' hx hyn hpost).rows hfa
      refine ⟨max n j, fun i hi => ?_⟩
      rw [last_bind_of_ok (hy.ok (Nat.le_trans (Nat.le_max_left n j) hi) hyn)]
      exact hj i (Nat.le_trans (Nat.le_max_right n j) hi)

/-- Operations that cannot stop are done on both sides. -/
theorem Matched.of_ok {z : Nat → Action σ β} {f : α → Action σ γ} {g : Nat → β → Action σ δ}
    {post' : γ → σ → δ → σ → Prop} {a : α} {b : β} (hx : x s = .ok a s')
    (hz : ∀ n, z n t = .ok b t') (h : Matched (f a) s' (fun n => g n b) t' post' stop) :
    Matched (x >>= f) s (fun n => z n >>= g n) t post' stop :=
  h.congr (bind_ok hx) fun n => bind_ok (hz n)

/-- Operations that cannot stop are done on the left. -/
theorem Matched.of_ok_left {f : α → Action σ γ} {a : α} {post' : γ → σ → β → σ → Prop}
    (hx : x s = .ok a s') (h : Matched (f a) s' y t post' stop) :
    Matched (x >>= f) s y t post' stop :=
  h.congr (bind_ok hx) fun _ => rfl

/-- Operations that cannot stop are done on the right. -/
theorem Matched.of_ok_right {g : Nat → β → Action σ δ} {b : β} {post' : α → σ → δ → σ → Prop}
    (hy : ∀ n, y n t = .ok b t') (h : Matched x s (fun n => g n b) t' post' stop) :
    Matched x s (fun n => y n >>= g n) t post' stop :=
  h.congr rfl fun n => bind_ok (hy n)

/-- The left goes on where the right is done. -/
theorem Matched.bind_left {f : α → Action σ γ} {post' : γ → σ → β → σ → Prop} (hy : Ample y)
    (h : Matched x s y t post stop)
    (hf : ∀ a s' n b t', x s = .ok a s' → y n t = .ok b t' → post a s' b t' →
      Matched (f a) s' (fun _ => pure b) t' post' stop) :
    Matched (x >>= f) s y t post' stop := by
  have hbind := Matched.bind (g := fun _ b => pure b) hy (fun b => ample_const (writes_pure b)) h hf
  exact hbind.congr rfl fun n => (congrFun (bind_pure (y n)) t).symm

/-- The right goes on where the left is done. -/
theorem Matched.bind_right {g : Nat → β → Action σ δ} {post' : α → σ → δ → σ → Prop} (hy : Ample y)
    (hg : ∀ b, Ample fun n => g n b) (h : Matched x s y t post stop)
    (hf : ∀ a s' n b t', x s = .ok a s' → y n t = .ok b t' → post a s' b t' →
      Matched (pure a) s' (fun n => g n b) t' post' stop) :
    Matched x s (fun n => y n >>= g n) t post' stop := by
  have hbind := Matched.bind hy hg h hf
  exact hbind.congr (congrFun (bind_pure x) s).symm fun _ => rfl

/-- What runs out of fuel at once is matched. -/
theorem matched_outOfFuel (hy : Ample y) (h : Logged.rows s = Logged.rows t) :
    Matched (throw .outOfFuel : Action σ α) s y t post stop where
  ok hx := nomatch hx
  fault hx := nomatch hx
  rows hx := by
    cases hx
    exact ⟨0, fun j _ => h ▸ hy.writes j t⟩

/-- What gets no further than `x` is matched as well. -/
theorem Matched.left {x' : Action σ α} (hy : Ample y) (h : Matched x s y t post stop)
    (hx : NoFurther x' s' x s) (hpost : ∀ a u b v, post a u b v → Logged.rows u = Logged.rows v)
    (hstop : ∀ u v, stop u v → Logged.rows u = Logged.rows v) :
    Matched x' s' y t post stop := by
  have hend : ∃ n, ∀ j, n ≤ j → Logged.rows (x.last s) <:+ Logged.rows ((y j).last t) := by
    cases hxs : x s with
    | ok a u =>
      obtain ⟨n, b, v, hyn, hab⟩ := h.ok hxs
      refine ⟨n, fun j hj => ?_⟩
      rw [last, hxs, last, hy.ok hj hyn, hpost a u b v hab]
    | error e u =>
      rw [last, hxs]
      cases e with
      | fault f =>
        obtain ⟨n, v, hyn, huv⟩ := h.fault hxs
        refine ⟨n, fun j hj => ?_⟩
        rw [last, hy.fault hj hyn, hstop u v huv]
      | outOfFuel => exact h.rows hxs
  refine ⟨fun hx' => h.ok (hx.ok hx'), fun hx' => h.fault (hx.fault hx'), fun {u} hu => ?_⟩
  obtain ⟨n, hn⟩ := hend
  have hrows := hx.rows
  rw [last, hu] at hrows
  exact ⟨n, fun j hj => hrows.trans (hn j hj)⟩

/-- What computations do with enough fuel is done by all that get as far. -/
theorem Matched.right {y' : Nat → Action σ β} (i : Nat) (h : Matched x s y t post stop)
    (hy : ∀ n, NoFurther (y n) t (y' (n + i)) t') : Matched x s y' t' post stop where
  ok hx := by
    obtain ⟨n, b, v, hyn, hpost⟩ := h.ok hx
    exact ⟨n + i, b, v, (hy n).ok hyn, hpost⟩
  fault hx := by
    obtain ⟨n, v, hyn, hstop⟩ := h.fault hx
    exact ⟨n + i, v, (hy n).fault hyn, hstop⟩
  rows hx := by
    obtain ⟨n, hn⟩ := h.rows hx
    refine ⟨n + i, fun j hj => ?_⟩
    obtain ⟨j, rfl⟩ : ∃ l, j = l + i := ⟨j - i, by omega⟩
    exact (hn j (by omega)).trans (hy j).rows

/-- Computations that do the same with the same fuel. -/
theorem Matched.of_parallel (hy : Ample y) {n : Nat} (h : Parallel x s (y n) t post stop)
    (hstop : ∀ u v, stop u v → Logged.rows u = Logged.rows v) : Matched x s y t post stop := by
  unfold Parallel at h
  constructor
  · intro a u hx
    rw [hx] at h
    cases hyn : y n t with
    | ok b v =>
      rw [hyn] at h
      exact ⟨n, b, v, hyn, h⟩
    | error e v => exact (hyn ▸ h).elim
  · intro f u hx
    rw [hx] at h
    cases hyn : y n t with
    | ok b v => exact (hyn ▸ h).elim
    | error e v =>
      rw [hyn] at h
      obtain ⟨rfl, huv⟩ := h
      exact ⟨n, v, hyn, huv⟩
  · intro u hx
    rw [hx] at h
    cases hyn : y n t with
    | ok b v => exact (hyn ▸ h).elim
    | error e v =>
      rw [hyn] at h
      obtain ⟨rfl, huv⟩ := h
      -- More fuel takes no row back.
      refine ⟨n, fun j hj => ?_⟩
      have hrows := ((hy n j hj).outcome t).rows
      rwa [last, hyn, ← hstop u v huv] at hrows

/-- What comes after a round, given its verdict: the rounds that `j` allows. -/
def afterRound (round : Nat → Action σ (Option α)) (j : Nat) : Option α → Action σ α
  | some a => pure a
  | none => Action.rounds (round j) j

theorem Matched.rounds {round : Action σ (Option α)} {round' : Nat → Action σ (Option α)}
    (hy : Ample round') {P : σ → σ → Prop}
    (h : ∀ u v, P u v → Matched round u round' v (fun o u' o' v' => o = o' ∧ P u' v') stop)
    (hP : ∀ u v, P u v → Logged.rows u = Logged.rows v) (n : Nat) {s t : σ} (hst : P s t) :
    Matched (Action.rounds round n) s (fun j => Action.rounds (round' j) j) t
      (fun a u b v => a = b ∧ P u v) stop := by
  have hstart : Ample fun j => Action.rounds (round' j) j :=
    fun i j hij => Below.rounds (hy i j hij) hij
  induction n generalizing s t with
  | zero => exact matched_outOfFuel hstart (hP s t hst)
  | succ n ih =>
    have hnext : ∀ o, Ample fun j => afterRound round' j o := by
      rintro (_ | a)
      · exact hstart
      · exact ample_const (writes_pure a)
    have hround : Matched (Action.rounds round (n + 1)) s
        (fun j => round' j >>= afterRound round' j) t (fun a u b v => a = b ∧ P u v) stop := by
      refine Matched.bind hy hnext (h s t hst) ?_
      rintro o u j _ v - - ⟨rfl, huv⟩
      cases o with
      | some a => exact matched_pure ⟨rfl, huv⟩
      | none => exact ih huv
    -- one round less of fuel is left for the rounds that follow
    refine hround.right 1 fun j => (Below.bind (hy j (j + 1) (Nat.le_succ j)) ?_).outcome t
    rintro (_ | a)
    · exact Below.rounds (hy j (j + 1) (Nat.le_succ j)) (Nat.le_refl j)
    · exact below_pure a

end Matched

end Action

/-! ### Machines beside each other -/

/-- Views that agree in the length of the trail and in the settings. -/
structure View.Beside (v v' : View) : Prop where
  trail : v.trail = v'.trail
  config : v.config = v'.config

theorem Theory.guardsInert_of_false (T : Theory S) (h : False) : T.GuardsInert := h.elim

/-- Stores that may not differ in the room they have made are equal. -/
theorem Store.eq_of_room {s s' : Store S} (h : s = s' ∨ False ∧ s ≈ s' ∧ s.ChainsEnd) : s = s' :=
  h.resolve_right And.left

/-- The comparison of engines that may differ in their stacks and counters. -/
def Comparison.beside (T : Theory S) : Comparison T where
  exact := True
  counters _ _ := True
  empty := trivial
  add _ _ _ := trivial
  raise _ _ _ := trivial
  loose := False
  inert := T.guardsInert_of_false
  views := View.Beside
  seen h := ⟨(h trivial).2.1, (h trivial).2.2.1⟩
  stores := Eq
  room := @Store.eq_of_room S

/-- Worlds with the same slots, the same private state and the same rows, that
number the next structure alike, unless none is copied. -/
structure World.Beside (T : Theory S) (w w' : World S) : Prop where
  store : w.store = w'.store
  state : w.state = w'.state
  objects : w.nextObject = w'.nextObject ∨ ∀ label, T.copies label = false
  rows : w.rows = w'.rows

namespace World.Beside

variable {w w' w'' v v' : World S}

theorem refl (w : World S) : w.Beside T w := ⟨rfl, rfl, .inl rfl, rfl⟩

theorem symm (h : w.Beside T w') : w'.Beside T w :=
  ⟨h.store.symm, h.state.symm, h.objects.imp_left Eq.symm, h.rows.symm⟩

theorem trans (h : w.Beside T w') (h' : w'.Beside T w'') : w.Beside T w'' where
  store := h.store.trans h'.store
  state := h.state.trans h'.state
  objects := by
    rcases h.objects with heq | hcopies
    · rcases h'.objects with heq' | hcopies
      · exact .inl (heq.trans heq')
      · exact .inr hcopies
    · exact .inr hcopies
  rows := h.rows.trans h'.rows

theorem worlds (h : w.Beside T w') : (Comparison.beside T).Worlds w w' w w' :=
  ⟨.inl h.store, h.state, h.objects, .refl _ _⟩

theorem of_worlds (h : w.Beside T w') (hv : (Comparison.beside T).Worlds w w' v v') :
    v.Beside T v' := by
  refine ⟨?_, hv.state, hv.objects, hv.rows.eq h.rows⟩
  rcases hv.store with heq | ⟨hloose, -⟩
  · exact heq
  · exact hloose.elim

end World.Beside

namespace Machine

/-- Machines that differ in their stacks and counters only. -/
structure Beside (T : Theory S) (m m' : Machine S) : Prop where
  trail : m.engine.trail = m'.engine.trail
  config : m.engine.config = m'.engine.config
  world : m.world.Beside T m'.world
  answers : m.answers = m'.answers

namespace Beside

variable {m m' m'' : Machine S}

theorem refl (m : Machine S) : m.Beside T m := ⟨rfl, rfl, .refl _, rfl⟩

theorem symm (h : m.Beside T m') : m'.Beside T m :=
  ⟨h.trail.symm, h.config.symm, h.world.symm, h.answers.symm⟩

theorem trans (h : m.Beside T m') (h' : m'.Beside T m'') : m.Beside T m'' :=
  ⟨h.trail.trans h'.trail, h.config.trans h'.config, h.world.trans h'.world,
    h.answers.trans h'.answers⟩

theorem view (h : m.Beside T m') : m.engine.view.Beside m'.engine.view :=
  ⟨congrArg Trail.length h.trail, h.config⟩

theorem with_answers (h : m.Beside T m') (L : List S.Term) :
    Beside T { m with answers := L } { m' with answers := L } :=
  ⟨h.trail, h.config, h.world, rfl⟩

theorem with_world (h : m.Beside T m') {w w' : World S} (hw : w.Beside T w') :
    Beside T { m with world := w } { m' with world := w' } :=
  ⟨h.trail, h.config, hw, h.answers⟩

/-- Going back to the same mark on both sides. -/
theorem undone (h : m.Beside T m') (mark : Nat) : (m.undone mark).Beside T (m'.undone mark) := by
  have hback : m.engine.trail.backtrack mark m.world.store =
      m'.engine.trail.backtrack mark m'.world.store := by rw [h.trail, h.world.store]
  exact ⟨congrArg Prod.fst hback, h.config,
    ⟨congrArg Prod.snd hback, h.world.state, h.world.objects, h.world.rows⟩, h.answers⟩

end Beside

variable (m : Machine S)

theorem beside_counted (c : Counter) (n : Nat) : m.Beside T (m.counted c n) :=
  ⟨rfl, rfl, .refl _, rfl⟩

theorem beside_withFrames (fs : List (Frame S)) : m.Beside T (m.withFrames fs) :=
  ⟨rfl, rfl, .refl _, rfl⟩

theorem beside_noted {r : Record} (hr : r.row? = none) : m.Beside T (m.noted r) :=
  ⟨rfl, rfl, ⟨rfl, rfl, .inl rfl, (m.noted_output hr).rows.symm⟩, rfl⟩

theorem beside_logged {r : Record} (hr : r.row? = none) : m.Beside T (m.logged r) :=
  ⟨rfl, rfl, ⟨rfl, rfl, .inl rfl, (m.logged_output hr).rows.symm⟩, rfl⟩

/-- Records on both sides. -/
theorem Beside.logged {m m' : Machine S} (h : m.Beside T m') {r r' : Record} (hr : r.row? = none)
    (hr' : r'.row? = none) : (m.logged r).Beside T (m'.logged r') :=
  ((m.beside_logged hr).symm.trans h).trans (m'.beside_logged hr')

theorem beside_pushed (mark : Nat) (a : Activation S) : m.Beside T (m.pushed mark a) :=
  ⟨rfl, rfl, (m.beside_noted rfl).world, rfl⟩

theorem beside_retired (fs : List (Frame S)) : m.Beside T (m.retired fs) :=
  ⟨rfl, rfl, .refl _, rfl⟩

theorem beside_stepped : m.Beside T m.stepped :=
  (m.beside_pushed _ _).trans (beside_retired _ _)

theorem beside_committed (height : Nat) : m.Beside T (m.committed height) :=
  ⟨rfl, rfl, ((m.withFrames _).beside_noted rfl).world, rfl⟩

theorem beside_undone {mark : Nat} (h : m.engine.trail.length ≤ mark) :
    m.Beside T (m.undone mark) := by
  have hback := Trail.backtrack_of_length_le h m.world.store
  refine ⟨?_, rfl, ⟨?_, rfl, .inl rfl, rfl⟩, rfl⟩
  · exact (congrArg Prod.fst hback).symm
  · exact (congrArg Prod.snd hback).symm

/-- Going back twice is going back to the lower mark. -/
theorem beside_undone_undone {mark mark' : Nat} (h : mark' ≤ mark) :
    (m.undone mark').Beside T ((m.undone mark).undone mark') := by
  have hback := m.scope.backtracked_backtracked mark mark'
  rw [Nat.min_eq_right h] at hback
  refine ⟨?_, rfl, ⟨?_, rfl, .inl rfl, rfl⟩, rfl⟩
  · exact (congrArg (·.trail) hback).symm
  · exact (congrArg (·.world.store) hback).symm

theorem beside_popped (f : Frame S) (fs : List (Frame S)) :
    (m.undone f.mark).Beside T (m.popped f fs) := by
  have hnoted : m.Beside T ((m.withFrames fs).noted (.popped f.activation.kind (fs.length + 1))) :=
    (m.beside_withFrames fs).trans ((m.withFrames fs).beside_noted rfl)
  exact (hnoted.undone f.mark).trans (beside_counted _ _ _)

/-! ### Code on machines beside each other -/

/-- What code leaves of two machines beside each other: they are so still, on the
stacks that they had, and the trail is no shorter. -/
structure Apace (T : Theory S) (m m' m₁ m₁' : Machine S) : Prop where
  beside : m₁.Beside T m₁'
  frames : m₁.engine.frames = m.engine.frames
  frames' : m₁'.engine.frames = m'.engine.frames
  later : m.engine.trail.length ≤ m₁.engine.trail.length

/-- What is known of two machines when the code that runs on them stops. -/
abbrev Stopped (T : Theory S) (m m' : Machine S) : Prop := m.world.Beside T m'.world

/-- What code does on one machine, with values in `R`, code does on the other one
with enough fuel. -/
abbrev Mirrored (T : Theory S) (R : α → β → Prop) (x : Action (Machine S) α) (m : Machine S)
    (y : Nat → Action (Machine S) β) (m' : Machine S) : Prop :=
  Matched x m y m' (fun a m₁ b m₁' => R a b ∧ Apace T m m' m₁ m₁') (Stopped T)

variable {m m' m₁ m₁' m₂ m₂' : Machine S}

theorem Apace.refl (h : m.Beside T m') : Apace T m m' m m' := ⟨h, rfl, rfl, Nat.le_refl _⟩

theorem Apace.trans (h : Apace T m m' m₁ m₁') (h' : Apace T m₁ m₁' m₂ m₂') :
    Apace T m m' m₂ m₂' :=
  ⟨h'.beside, h'.frames.trans h.frames, h'.frames'.trans h.frames', h.later.trans h'.later⟩

theorem Stopped.rows (h : Stopped T m m') : Logged.rows m = Logged.rows m' :=
  World.Beside.rows h

theorem mirrored_pure {R : α → β → Prop} {a : α} {b : β} (h : m.Beside T m') (hab : R a b) :
    Mirrored T R (pure a) m (fun _ => pure b) m' :=
  matched_pure ⟨hab, .refl h⟩

theorem Mirrored.bind {R : α → β → Prop} {R' : γ → δ → Prop} {x : Action (Machine S) α}
    {y : Nat → Action (Machine S) β} {f : α → Action (Machine S) γ}
    {g : Nat → β → Action (Machine S) δ} (h : Mirrored T R x m y m') (hy : Ample y)
    (hg : ∀ b, Ample fun n => g n b)
    (hf : ∀ a b m₁ m₁', R a b → Apace T m m' m₁ m₁' →
      Mirrored T R' (f a) m₁ (fun n => g n b) m₁') :
    Mirrored T R' (x >>= f) m (fun n => y n >>= g n) m' := by
  refine Matched.bind hy hg h ?_
  rintro a m₁ n b m₁' - - ⟨hab, h₁⟩
  refine (hf a b m₁ m₁' hab h₁).mono ?_
  rintro c m₂ j d m₂' - - ⟨hcd, h₂⟩
  exact ⟨hcd, h₁.trans h₂⟩

theorem onWorld_mirrored {x : Nat → Action (World S) α} (hx : Ample x) {k : Nat}
    (hk : ∀ l r, Tandem ((Comparison.beside T).Worlds l r) ((Comparison.beside T).Worlds l r) (x k))
    (h : m.Beside T m') :
    Mirrored T Eq (onWorld (x k)) m (fun n => onWorld (x n)) m' := by
  have hample : Ample fun n => onWorld (x n) := fun i j hij => below_onWorld (hx i j hij)
  refine Matched.of_parallel (n := k) hample ?_ fun _ _ => Stopped.rows
  refine parallel_onPart (hk _ _ m.world m'.world h.world.worlds) ?_ ?_
  · rintro a w _ w' - ⟨rfl, hw⟩
    exact ⟨rfl, h.with_world (h.world.of_worlds hw), rfl, rfl, Nat.le_refl _⟩
  · exact fun w w' hw => h.world.of_worlds hw

theorem resolve_mirrored (k : Nat) (t : S.Term) (h : m.Beside T m') :
    Mirrored T Eq (onWorld (World.resolve T k t)) m (fun n => onWorld (World.resolve T n t)) m' :=
  onWorld_mirrored (fun _ _ hij => World.resolve_below hij t)
    (fun _ _ => Comparison.resolve_tandem k t) h

theorem answer_mirrored (k : Nat) (q : Ask S) (h : m.Beside T m') :
    Mirrored T Eq (onWorld (q.answer T k)) m (fun n => onWorld (q.answer T n)) m' := by
  by_cases hq : q = .store
  · subst hq
    refine Matched.congr (x := pure m.world.store) (y := fun _ => pure m'.world.store) ?_ rfl
      fun _ => rfl
    exact mirrored_pure h h.world.store
  · exact onWorld_mirrored (fun _ _ hij => Ask.answer_below hij q)
      (fun _ _ => Ask.answer_tandem hq) h

theorem unify_mirrored (k : Nat) (a b : S.Term) (h : m.Beside T m') :
    Mirrored T Eq (unify T k a b) m (fun n => unify T n a b) m' := by
  refine Matched.of_parallel (n := k) (fun _ _ hij => Machine.unify_below hij a b) ?_
    fun _ _ => Stopped.rows
  have hT : T.Heeds (Comparison.beside T).stores := T.heeds_of_eq fun _ _ h => h
  have hunify := Comparison.unify_tandem hT k m.scope m'.scope a b m.scope m'.scope
    ⟨.refl _ _, h.world.worlds⟩
  have hgrows := unify_grows (T := T) k a b m.scope trivial
  unfold Parallel at *
  rw [unify_apply, unify_apply]
  rw [ensures_iff] at hgrows
  cases hc : GoalSearch.unify T k a b m.scope <;>
    cases hc' : GoalSearch.unify T k a b m'.scope <;> rw [hc, hc'] at hunify
  · obtain ⟨rfl, htrail, hworld⟩ := hunify
    refine ⟨rfl, ⟨?_, h.config, h.world.of_worlds hworld, h.answers⟩, rfl, rfl, ?_⟩
    · exact congrArg Trail.mk (htrail.eq (congrArg Trail.entries h.trail))
    · exact (hgrows.1 _ _ hc).length_le
  · exact hunify
  · exact hunify
  · exact ⟨hunify.1, h.world.of_worlds hunify.2.world⟩

/-! ### Runs on machines beside each other -/

section Runs

variable {g g' : Goal S} {next : Continuation S} {k : Nat}
  (hrun : ∀ m m', m.Beside T m' → Mirrored T Eq (run T k g next) m (fun n => run T n g' next) m')

include hrun

theorem executeWith_mirrored (h : m.Beside T m') :
    Mirrored T Eq (executeWith (run T k) g next) m (fun n => executeWith (run T n) g' next) m' := by
  have hample : Ample fun n => run T n g' next := fun i j hij => run_below hij g' next
  refine Matched.of_ok (depth_apply m) (fun _ => depth_apply m') ?_
  refine Matched.of_ok (trailLength_apply m) (fun _ => trailLength_apply m') ?_
  refine Matched.of_ok (note_apply m _) (fun _ => note_apply m' _) ?_
  refine Matched.bind hample (fun status => ?_) (hrun _ _ (h.logged rfl rfl)) ?_
  · exact ample_const ((writes_note _).bind fun _ => writes_pure _)
  · rintro status m₁ n _ m₁' - - ⟨rfl, h₁⟩
    refine Matched.of_ok (note_apply m₁ _) (fun _ => note_apply m₁' _) (matched_pure ⟨rfl, ?_⟩)
    exact ⟨h₁.beside.logged rfl rfl, h₁.frames, h₁.frames', h₁.later⟩

theorem collecting_mirrored (h : m.Beside T m') :
    Mirrored T Eq (collecting (executeWith (run T k) g next)) m
      (fun n => collecting (executeWith (run T n) g' next)) m' := by
  have hample : Ample fun n => executeWith (run T n) g' next :=
    fun i j hij => executeWith_below (run_below hij) g' next
  refine Matched.of_ok (get_apply m) (fun _ => get_apply m') ?_
  refine Matched.of_ok (modify_apply _ m) (fun _ => modify_apply _ m') ?_
  refine Matched.bind hample (fun b => ?_) (executeWith_mirrored hrun (h.with_answers [])) ?_
  · exact ample_const (writes_of_ok fun m => ⟨_, _, modifyGet_apply _ m, List.suffix_refl _⟩)
  · rintro b m₁ n _ m₁' - - ⟨rfl, h₁⟩
    refine Matched.congr (x := pure m₁.answers.reverse) (s := { m₁ with answers := m.answers })
      (y := fun _ => pure m₁'.answers.reverse) (t := { m₁' with answers := m'.answers })
      (matched_pure ⟨?_, ?_, h₁.frames, h₁.frames', h₁.later⟩) rfl fun _ => rfl
    · rw [h₁.beside.answers]
    · rw [← h.answers]
      exact h₁.beside.with_answers _

omit hrun in
theorem findFirstWith_mirrored {t : S.Term}
    (hrun : ∀ m m', m.Beside T m' →
      Mirrored T Eq (run T k (.sequence [g]) (.collect t .finish)) m
        (fun n => run T n (.sequence [g']) (.collect t .finish)) m') (h : m.Beside T m') :
    Mirrored T Eq (findFirstWith (run T k) g t) m (fun n => findFirstWith (run T n) g' t) m' := by
  refine (collecting_mirrored hrun h).bind
    (fun i j hij => collecting_below (run_below hij) _ _)
    (fun _ => ample_const (writes_pure _)) ?_
  rintro L _ m₁ m₁' rfl h₁
  exact mirrored_pure h₁.beside rfl

end Runs

end Machine

end GoalSearch
