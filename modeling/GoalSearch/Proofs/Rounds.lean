/-
Rounds of a loop and levels of a search.

A loop may give one variable after the other a value, and so may a search.  Each
round of the loop binds the first variable that is not bound, and each level of the
search does, until all are bound; then the engine goes on.  Both enumerate what the
goals for the variables enumerate in sequence, though the rounds are called again
from a continuation, and the levels from the frame of the level before.

* `Factor.filling`, `Factor.deciding` — the loop and the search;
* `Factor.Rounds` — what the engine does in one round of either;
* `Factor.delivered_of_rounds` — the rounds deliver the stores of the product;
* `Factor.Rounds.path_nears` — where a run is, however often it went back between
  rounds;
* `Machine.rounds_enumerate_product` — findAll and execute, and the rounds on the
  stack at every answer.

Design notes: the rounds that lead to an answer are on the stack when the run arrives
at it, as each round is a frame that draws the values of its variable.  Frames know
the scope on which they were pushed (`Tiers`), so the bindings of the rounds below
are known whenever the run is back at a frame.
-/
import GoalSearch.Proofs.Product

namespace GoalSearch

open GoalSearch.Action GoalSearch.Configuration Machine Solutions

variable {S : Vocabulary} {T : Theory S} {k : Nat}

/-! ### Steps before a continuation -/

namespace Configuration

variable (T k) in
/-- A number of steps lead from one configuration to another, and arrive at `next`
with the last one at most. -/
inductive Passes (next : Continuation S) : Nat → Configuration S → Configuration S → Prop
  | refl (c : Configuration S) : Passes next 0 c c
  | head {j : Nat} {c c₁ c' : Configuration S} : c.task ≠ .proceed next →
      step T k (run T k) c.task c.machine = .ok (.task c₁.task) c₁.machine →
      Passes next j c₁ c' → Passes next (j + 1) c c'

variable {c c₁ c' : Configuration S} {j j' : Nat} {next : Continuation S}

theorem Passes.single {t t' : Task S} {m m' : Machine S} (ht : t ≠ .proceed next)
    (h : step T k (run T k) t m = .ok (.task t') m') : Passes T k next 1 ⟨t, m⟩ ⟨t', m'⟩ :=
  .head ht h (.refl _)

theorem Passes.trans (h : Passes T k next j c c₁) (h' : Passes T k next j' c₁ c') :
    Passes T k next (j + j') c c' := by
  induction h with
  | refl => rwa [Nat.zero_add]
  | head hne hstep _ ih =>
    rw [Nat.succ_add]
    exact .head hne hstep (ih h')

theorem Passes.reaches (h : Passes T k next j c c') : Reaches T k j c c' := by
  induction h with
  | refl c => exact .refl c
  | head _ hstep _ ih => exact .head hstep ih

end Configuration

/-- A path with some fuel is a path with more fuel. -/
theorem Path.mono {n n' : Nat} (hn : n ≤ n') {first : Configuration S}
    {cs : List (Configuration S)} (h : Path T n (run T n) first cs) :
    Path T n' (run T n') first cs := by
  induction h with
  | first => exact .first
  | step _ hstep ih =>
    exact .step ih ((step_below hn (run_below hn) _).ok hstep)

/-! ### Levels of a search -/

theorem Program.exec_withStore {fuel : Nat} {run : Runner S} {κ : Kind}
    (f : Store S → Program S (Goal S) κ) (m : Machine S) :
    (Program.withStore f).exec T fuel run m = (f m.world.store).exec T fuel run m :=
  bind_ok (a := m.world.store) rfl

namespace Machine

/-- What comes of a choice on the frame of a level, which is to call the search again. -/
def chosen (m : Machine S) (f : Frame S) (fs : List (Frame S)) (again : Task S) :
    Option Bool → EStateM.Result Stop (Machine S) (Progress S)
  | none => .ok (.task .backtrack) ((m.withFrames (f :: fs)).popped f fs)
  | some false => .ok (.task .backtrack) (m.withFrames (f :: fs))
  | some true => .ok (.task again) (m.withFrames (f :: fs))

/-- A retry of a level of a search makes the next choice, while the frame is without
choices. -/
theorem retryActivation_search {handler : Quiet S (Program S (Goal S) .choices)}
    {make : Nat → Program S (Goal S) .attempt} {i mark : Nat} {next : Continuation S}
    {fs : List (Frame S)} {m m₂ : Machine S} {r : Option Bool}
    (hm : m.engine.frames = ⟨.search handler (some (make, i)) next, mark⟩ :: fs)
    (hmade : (make i).exec T k (run T k)
      (m.withFrames (⟨.search handler none next, mark⟩ :: fs)) = .ok r m₂)
    (hframes : m₂.engine.frames = ⟨.search handler none next, mark⟩ :: fs) :
    retryActivation T k (run T k) (fs.length + 1) (.search handler (some (make, i)) next) m =
      chosen m₂ ⟨.search handler (some (make, i + 1)) next, mark⟩ fs
        (.call (.search handler) next) r := by
  refine (bind_ok (updateAt_apply m hm rfl _)).trans ((bind_ok hmade).trans ?_)
  refine (bind_ok (updateAt_apply m₂ hframes rfl _)).trans ?_
  cases r with
  | none =>
    let f : Frame S := ⟨.search handler (some (make, i + 1)) next, mark⟩
    have hlast : (m₂.withFrames (f :: fs)).engine.frames = f :: fs := rfl
    exact (bind_ok (exhausted_apply hlast)).trans rfl
  | some b => cases b <;> rfl

/-- The machine and what it does next after a level of a search has been called.  The
frame for the level is pushed, and removed at once if nothing is left to decide. -/
def levelled (m : Machine S) (level : Program S (Goal S) .choices) (next : Continuation S)
    (choices : Option (Nat → Program S (Goal S) .attempt)) :
    EStateM.Result Stop (Machine S) (Task S) :=
  let m₁ := (m.counted .calls 1).pushed m.engine.trail.length (.search (pure level) none next)
  match choices with
  | some make => .ok .retry (m₁.withFrames
    (⟨.search (pure level) (some (make, 0)) next, m.engine.trail.length⟩ :: m.engine.frames))
  | none => .ok (.proceed next) (m₁.retired m.engine.frames)

theorem call_search {fuel : Nat} {run : Runner S} {level : Program S (Goal S) .choices}
    {choices : Option (Nat → Program S (Goal S) .attempt)} {m : Machine S}
    (hmade : ∀ m₁ : Machine S, m₁.world.store = m.world.store →
      level.exec T fuel run m₁ = .ok choices m₁) (next : Continuation S) :
    call T fuel run (.search (pure level)) next m = levelled m level next choices := by
  let m₁ := (m.counted .calls 1).pushed m.engine.trail.length (.search (pure level) none next)
  have hlevel : quietly T fuel (pure level) (m.counted .calls 1) =
      .ok level (m.counted .calls 1) := rfl
  refine (bind_ok (count_apply m .calls)).trans ((bind_ok hlevel).trans ?_)
  refine (bind_ok (pushHere_apply _ _)).trans ((bind_ok (hmade m₁ rfl)).trans ?_)
  cases choices with
  | none => exact bind_ok (retire_apply m₁ rfl)
  | some make =>
    refine (bind_ok (depth_apply m₁)).trans ?_
    exact bind_ok (updateAt_apply m₁ rfl rfl _)

end Machine

/-! ### Loops and searches that bind one variable after the other -/

/-- The same trail and the same slots. -/
def Scope.Same (c d : Scope S) : Prop := d.trail = c.trail ∧ d.world.store = c.world.store

theorem Scope.Same.continues {c d : Scope S} (h : c.Same d) : c.Continues d :=
  continues_of_same h.1 (Store.equiv_of_eq h.2)

namespace Factor

theorem offered_of_free {f : Factor S} (h : f.committed = false) : f.offered = f.values := by
  rw [offered, h, if_neg (by simp)]

/-- The first factor whose variable is not bound. -/
def open? (fs : List (Factor S)) (s : Store S) : Option (Factor S) :=
  fs.find? fun f => s.isUnbound f.var

/-- The loop whose rounds run the goal of the first variable that is not bound, as
long as there is one. -/
def filling (fs : List (Factor S)) : Goal S :=
  .loop (fun _ => return (open? fs (← Quiet.store)).isSome) fun _ =>
    return ((open? fs (← Quiet.store)).map goal).getD .succeed

/-- The choice of the value at a position. -/
def choice (f : Factor S) (i : Nat) : Program S (Goal S) .attempt :=
  match f.values[i]? with
  | some value => .unify (.var f.var) value fun r => .attempt (some r)
  | none => .attempt none

/-- A level of a search finds the first variable that is not bound, and its values. -/
def level (fs : List (Factor S)) : Program S (Goal S) .choices :=
  .withStore fun s => .choices ((open? fs s).map choice)

/-- The search whose levels choose a value for the first variable that is not bound. -/
def deciding (fs : List (Factor S)) : Goal S := .search (pure (level fs))

/-- The variables `done` have been given values, the last one first, and those of
`rest` are open. -/
structure Partly (fs done rest : List (Factor S)) (s : Store S) : Prop where
  split : fs = done.reverse ++ rest
  filled : ∀ f ∈ done, s.isUnbound f.var = false
  opened : ∀ f ∈ rest, f.Open s

section Partly

variable {fs done rest : List (Factor S)} {f : Factor S} {s s' : Store S}

theorem partly_of_open (hopen : ∀ f ∈ fs, f.Open s) : Partly fs [] fs s :=
  ⟨rfl, by simp, hopen⟩

theorem Partly.open? (h : Partly fs done rest s) : open? fs s = rest.head? := by
  have hdone : done.reverse.find? (fun f => s.isUnbound f.var) = none := by
    rw [List.find?_eq_none]
    intro f hf
    simpa using h.filled f (List.mem_reverse.mp hf)
  rw [Factor.open?, h.split, List.find?_append, hdone, Option.none_or]
  cases rest with
  | nil => rfl
  | cons f rest => exact List.find?_cons_of_pos (h.opened f (by simp)).unbound

theorem Partly.congr (h : Partly fs done rest s) (hs : s ≈ s') : Partly fs done rest s' := by
  refine ⟨h.split, fun f hf => ?_, fun f hf => (h.opened f hf).congr hs⟩
  rw [← Store.isUnbound_congr hs]
  exact h.filled f hf

theorem Partly.mem (h : Partly fs done (f :: rest) s) : f ∈ fs := by
  rw [h.split]
  simp

/-- The first open variable is given a value. -/
theorem Partly.set (h : Partly fs done (f :: rest) s) (hvars : (fs.map var).Nodup)
    (value : S.Term) : Partly fs (f :: done) rest (s.set f.var (some value)) := by
  rw [h.split, List.map_append, List.nodup_append] at hvars
  obtain ⟨-, hrest, hapart⟩ := hvars
  rw [List.map_cons, List.nodup_cons] at hrest
  refine ⟨by rw [h.split]; simp, fun g hg => ?_, fun g hg => ?_⟩
  · rw [← Bool.not_eq_true, Store.isUnbound_eq_true, Store.isCell_set, Store.binding_set]
    rintro ⟨hcell, hbinding⟩
    by_cases hvar : f.var = g.var
    · rw [if_pos hvar] at hbinding
      cases hbinding
    · rw [if_neg hvar] at hbinding
      rcases List.mem_cons.mp hg with rfl | hg
      · exact hvar rfl
      · have hunbound := Store.isUnbound_eq_true.mpr ⟨hcell, hbinding⟩
        rw [h.filled g hg] at hunbound
        cases hunbound
  · refine (h.opened g (List.mem_cons_of_mem f hg)).set (fun hvar => hrest.1 ?_) _
    rw [hvar]
    exact List.mem_map_of_mem hg

end Partly

/-! ### One round -/

variable (T k) in
/-- What the engine does when it is to call `g` and then go on with `next`.  It pushes
a frame for the first open variable, which draws the values of that variable and leads
to `g` again by way of the task `again`; if all variables are bound it goes on. -/
structure Rounds (fs : List (Factor S)) (g : Goal S) (next : Continuation S)
    (act : Factor S → Nat → Activation S) (again : Task S) : Prop where
  finished : ∀ m : Machine S, open? fs m.world.store = none →
    ∃ m', Passes T k next 1 ⟨.call g next, m⟩ ⟨.proceed next, m'⟩ ∧ m.Stays Scope.Same m'
  begun : ∀ (m : Machine S) f, open? fs m.world.store = some f →
    ∃ j m', j ≤ 2 ∧ Passes T k next j ⟨.call g next, m⟩ ⟨.retry, m'⟩ ∧
      (m.withFrames (⟨act f 0, m.engine.trail.length⟩ :: m.engine.frames)).Stays Scope.Same m'
  draws : ∀ f ∈ fs, f.Draws T k (act f) again
  again : ∀ m : Machine S, ∃ j ≤ 1, Passes T k next j ⟨again, m⟩ ⟨.call g next, m⟩

theorem call_filling {fuel : Nat} {run : Runner S} (fs : List (Factor S)) (next : Continuation S)
    (m : Machine S) :
    call T fuel run (filling fs) next m =
      .ok (match open? fs m.world.store with
        | some f => .call f.goal (.call (filling fs) next)
        | none => .proceed next) (m.counted .calls 1).stepped := by
  refine (bind_ok (count_apply m .calls)).trans ((bind_ok (enterStep_apply _)).trans ?_)
  refine (bind_ok (get_apply _)).trans ?_
  let m' := (m.counted .calls 1).stepped
  have htest : quietly T fuel (return (open? fs (← Quiet.store)).isSome) m' =
      .ok (open? fs m.world.store).isSome m' := rfl
  have hbody : quietly T fuel
      (return ((open? fs (← Quiet.store)).map goal).getD (Goal.succeed (S := S))) m' =
        .ok (((open? fs m.world.store).map goal).getD .succeed) m' := rfl
  refine (bind_ok htest).trans ?_
  cases hopen : open? fs m.world.store with
  | none => rfl
  | some f =>
    rw [hopen] at hbody
    exact (bind_ok (get_apply _)).trans (bind_ok hbody)

/-- A round of the loop calls the goal of its variable, and comes back from there. -/
theorem rounds_filling {fs : List (Factor S)} (hfree : ∀ f ∈ fs, f.committed = false)
    (hvalues : ∀ f ∈ fs, ∀ v ∈ f.values, v.var? = none) (hk : 2 ≤ k) (next : Continuation S) :
    Rounds T k fs (filling fs) next
      (fun f i => .candidates f.draw i (.verdict true) (.call (filling fs) next))
      (.proceed (.call (filling fs) next)) where
  finished := by
    intro m hopen
    have hcall : call T k (run T k) _ next m = _ := call_filling fs next m
    rw [hopen] at hcall
    have hstep : step T k (run T k) (.call (filling fs) next) m =
        .ok (.task (.proceed next)) (m.counted .calls 1).stepped := bind_ok hcall
    exact ⟨_, .single (by simp) hstep, rfl, rfl, rfl, rfl⟩
  begun := by
    intro m f hopen
    have hcall : call T k (run T k) _ next m = _ := call_filling fs next m
    rw [hopen] at hcall
    let again : Continuation S := .call (filling fs) next
    let m₁ := (m.counted .calls 1).stepped
    let m₂ := (m₁.counted .calls 1).pushed m.engine.trail.length
      (.candidates f.draw 0 (.verdict true) again)
    have hround : step T k (run T k) (.call (filling fs) next) m =
        .ok (.task (.call f.goal again)) m₁ := bind_ok hcall
    have hgoal : f.goal = .memberOf (.var f.var) f.values := by
      rw [goal, hfree f (List.mem_of_find?_eq_some hopen), if_neg (by simp)]
    have hmember : step T k (run T k) (.call f.goal again) m₁ = .ok (.task .retry) m₂ := by
      rw [hgoal]
      exact bind_ok (f.call_memberOf again m₁)
    have hpasses : Passes T k next 1 ⟨.call f.goal again, m₁⟩ ⟨.retry, m₂⟩ :=
      .single (by simp) hmember
    have hframes : m₂.engine.frames = _ := pushed_frames _ _ _
    have htrail : m₂.engine.trail = m₁.engine.trail := rfl
    have hanswers : m₂.answers = m₁.answers := rfl
    have hstore : m₂.world.store = m₁.world.store := rfl
    have hwhole : Passes T k next 2 ⟨.call (filling fs) next, m⟩ ⟨.retry, m₂⟩ :=
      (Passes.single (by simp) hround).trans hpasses
    exact ⟨2, m₂, Nat.le_refl 2, hwhole, hframes, hanswers, htrail, hstore⟩
  draws := fun f hf => draws_candidates (hvalues f hf) hk _
  again := by
    intro m
    refine ⟨1, Nat.le_refl 1, .single ?_ rfl⟩
    intro h
    injection h with h
    -- A continuation is not part of itself, so calling the loop again is not the end.
    have hsize := congrArg sizeOf h
    simp only [Continuation.call.sizeOf_spec] at hsize
    omega

/-- A level of a search draws the values of its variable as choices. -/
theorem draws_choices {f : Factor S} (hvalues : ∀ v ∈ f.values, v.var? = none) (hk : 2 ≤ k)
    (handler : Quiet S (Program S (Goal S) .choices)) (next : Continuation S) :
    f.Draws T k (fun i => .search handler (some (f.choice, i)) next)
      (.call (.search handler) next) where
  value := by
    intro i mark fs value m hm hvalue hopen
    obtain ⟨n, rfl⟩ : ∃ n, k = n + 2 := ⟨k - 2, by omega⟩
    -- the frame is without choices while the value is tried
    let m₁ := m.withFrames (⟨.search handler none next, mark⟩ :: fs)
    have hopen' : f.Open m₁.world.store := hopen
    have hterm := hvalues value (List.mem_of_getElem? hvalue)
    let m₂ := m₁.bound f.var value
    have hstays : m₁.Stays Scope.Continues m₂ := hopen'.stays_bound hterm
    have hmade : (f.choice i).exec T (n + 2) (run T (n + 2)) m₁ = .ok (some true) m₂ := by
      rw [choice, hvalue]
      exact bind_ok (Machine.unify_of_unbound hopen'.unbound hopen'.unrestricted hterm n)
    exact ⟨_, retryActivation_search hm hmade hstays.frames, hstays.withFrames _, rfl⟩
  last := by
    intro i mark fs m hm hvalue
    let m₁ := m.withFrames (⟨.search handler none next, mark⟩ :: fs)
    have hmade : (f.choice i).exec T k (run T k) m₁ = .ok none m₁ := by
      rw [choice, hvalue]
      rfl
    exact retryActivation_search hm hmade rfl

theorem call_deciding {fuel : Nat} {run : Runner S} (fs : List (Factor S)) (next : Continuation S)
    (m : Machine S) :
    call T fuel run (deciding fs) next m =
      levelled m (level fs) next ((open? fs m.world.store).map choice) := by
  refine call_search (fun m₁ hm₁ => ?_) next
  rw [level, Program.exec_withStore, hm₁]
  rfl

/-- A level of the search makes its choices itself, and calls the search again. -/
theorem rounds_deciding {fs : List (Factor S)}
    (hvalues : ∀ f ∈ fs, ∀ v ∈ f.values, v.var? = none) (hk : 2 ≤ k) (next : Continuation S) :
    Rounds T k fs (deciding fs) next
      (fun f i => .search (pure (level fs)) (some (f.choice, i)) next)
      (.call (deciding fs) next) where
  finished := by
    intro m hopen
    have hcall : call T k (run T k) _ next m = _ := call_deciding fs next m
    rw [hopen] at hcall
    have hstep : step T k (run T k) (.call (deciding fs) next) m = _ := bind_ok hcall
    exact ⟨_, .single (by simp) hstep, rfl, rfl, rfl, rfl⟩
  begun := by
    intro m f hopen
    have hcall : call T k (run T k) _ next m = _ := call_deciding fs next m
    rw [hopen] at hcall
    have hstep : step T k (run T k) (.call (deciding fs) next) m = _ := bind_ok hcall
    exact ⟨1, _, by omega, .single (by simp) hstep, rfl, rfl, rfl, rfl⟩
  draws := fun f hf => draws_choices (hvalues f hf) hk (pure (level fs)) next
  again := fun m => ⟨0, Nat.zero_le 1, .refl _⟩

/-! ### What the rounds deliver -/

section Delivered

variable {fs rest : List (Factor S)} {g : Goal S}

/-- The rounds that are left deliver the stores of the product of the variables that
are left. -/
theorem exists_delivers_rounds (hfree : ∀ f ∈ fs, f.committed = false)
    (hvars : (fs.map var).Nodup) (rest : List (Factor S)) :
    ∃ J, ∀ {k next act again}, Rounds T k fs g next act again → ∀ done s (m : Machine S),
      m.world.store ≈ s → Partly fs done rest s →
      (ofList (stores rest s)).Delivers T 0 k J next 0 m ⟨.call g next, m⟩ := by
  induction rest with
  | nil =>
    refine ⟨1, fun {k next act again} hround done s m hm hpartly => ?_⟩
    have hnone := (hpartly.congr (Setoid.symm hm)).open?
    obtain ⟨m', hpasses, hstays⟩ := hround.finished m hnone
    have hone : (one s).Delivers T 0 k 0 next 0 m ⟨.proceed next, m'⟩ :=
      delivers_one ⟨hstays.frames, hstays.answers, hstays.scope.continues⟩
        (Setoid.trans (Store.equiv_of_eq hstays.scope.2) hm)
    exact (hone.of_reaches (Nat.zero_le k) hpasses.reaches).mono (Nat.le_refl _) (Nat.zero_le _)
  | cons f rest ih =>
    obtain ⟨J, hJ⟩ := ih
    refine ⟨f.values.length * (J + 1 + 2) + 1 + 2,
      fun {k next act again} hround done s m hm h => ?_⟩
    have hsome := (h.congr (Setoid.symm hm)).open?
    obtain ⟨j, m', hj, hpasses, hstays⟩ := hround.begun m f hsome
    have hframe : m.OnFrame s (act f 0) m' := ⟨hstays.frames, hstays.answers,
      hstays.scope.continues, Setoid.trans (Store.equiv_of_eq hstays.scope.2) hm⟩
    -- each value leads to the next round
    have hvalue : ∀ value ∈ f.values, ∀ m' : Machine S, m'.world.store ≈ s.set f.var (some value) →
        (ofList (stores rest (s.set f.var (some value)))).Delivers T 0 k (J + 1) next 0 m'
          ⟨again, m'⟩ := by
      intro value _ m' hm'
      obtain ⟨i, hi, hagain⟩ := hround.again m'
      have hrest := hJ hround (f :: done) _ m' hm' (h.set hvars value)
      exact (hrest.of_reaches (Nat.zero_le k) hagain.reaches).mono (by omega) (Nat.zero_le _)
    have hall :=
      (hround.draws f h.mem).delivers (h.opened f (by simp)) hvalue f.values rfl hm hframe
    rw [stores, offered_of_free (hfree f h.mem)]
    exact (hall.of_reaches (Nat.zero_le k) hpasses.reaches).mono (by omega) (Nat.zero_le _)

theorem delivered_of_rounds (hfree : ∀ f ∈ fs, f.committed = false) (hvars : (fs.map var).Nodup)
    {act : Continuation S → Factor S → Nat → Activation S} {again : Continuation S → Task S}
    (hround : ∀ k next, 2 ≤ k → Rounds T k fs g next (act next) (again next)) :
    Delivered T fs g := by
  obtain ⟨J, hJ⟩ := exists_delivers_rounds (T := T) (g := g) hfree hvars fs
  refine ⟨max J 2, fun k hk m s next hm hopen => ?_⟩
  have h := hJ (hround k next (by omega)) [] s m hm (partly_of_open hopen)
  exact Delivers.mono h (by omega) (Nat.le_refl _)

end Delivered

/-! ### The rounds on the stack -/

section Path

variable {fs : List (Factor S)} {act : Factor S → Nat → Activation S}

variable (fs act) in
/-- The frames of the rounds for `done`, newest first.  Each was pushed on a scope in
which its variable was the first open one, and has drawn a value since. -/
inductive Tiers : List (Factor S) → List (Factor S) → Scope S → List (Frame S) → Prop
  | base {rest : List (Factor S)} {c : Scope S} : Tiers [] rest c []
  | round {done rest : List (Factor S)} {f : Factor S} {c d : Scope S} {i : Nat}
      {upper : List (Frame S)} :
      Tiers done (f :: rest) c upper → Partly fs done (f :: rest) c.world.store →
      c.Extends d → 0 < i → Tiers (f :: done) rest d (⟨act f i, c.trail.length⟩ :: upper)

theorem Tiers.extends {done rest : List (Factor S)} {c d : Scope S} {upper : List (Frame S)}
    (h : Tiers fs act done rest c upper) (hd : c.Extends d) : Tiers fs act done rest d upper := by
  cases h with
  | base => exact .base
  | round htiers hpartly hc hi => exact .round htiers hpartly (hc.trans hd) hi

/-- There is one frame for each round. -/
theorem Tiers.forall₂ {done rest : List (Factor S)} {c : Scope S} {upper : List (Frame S)}
    (h : Tiers fs act done rest c upper) :
    List.Forall₂ (fun f frame => ∃ i, 0 < i ∧ frame.activation = act f i) done upper := by
  induction h with
  | base => exact .nil
  | round _ _ _ hi ih => exact .cons ⟨_, hi, rfl⟩ ih

variable (fs act) in
/-- Where a run of rounds above a base is between two rounds: it is about to draw a
value, at its own sentinel, through with all rounds, past `next`, or on its way back. -/
inductive Landmark (base : List (Frame S)) (next : Continuation S) : Configuration S → Prop
  | drawing {m : Machine S} {upper : List (Frame S)} {done rest : List (Factor S)} {f : Factor S}
      {i : Nat} : m.engine.frames = ⟨act f i, m.engine.trail.length⟩ :: (upper ++ base) →
      Tiers fs act done (f :: rest) m.scope upper → Partly fs done (f :: rest) m.world.store →
      Landmark base next ⟨.retry, m⟩
  | spent {m : Machine S} : m.engine.frames = base → Landmark base next ⟨.retry, m⟩
  | through {m : Machine S} {upper : List (Frame S)} {done : List (Factor S)} :
      m.engine.frames = upper ++ base → Tiers fs act done [] m.scope upper →
      Partly fs done [] m.world.store → Landmark base next ⟨.proceed next, m⟩
  | past {m : Machine S} {upper : List (Frame S)} {done rest : List (Factor S)}
      {last : Continuation S} : last = .finish ∨ last = .refuse → last ≠ next →
      m.engine.frames = upper ++ base → Tiers fs act done rest m.scope upper →
      Landmark base next ⟨.proceed last, m⟩
  | back {m : Machine S} {upper : List (Frame S)} {done rest : List (Factor S)} :
      m.engine.frames = upper ++ base → Tiers fs act done rest m.scope upper →
      Landmark base next ⟨.backtrack, m⟩

variable (T k fs act) in
/-- The run is on its way to a landmark, and arrives at `next` with the last step at
most. -/
def Nears (base : List (Frame S)) (next : Continuation S) (c : Configuration S) : Prop :=
  ∃ j c', Passes T k next j c c' ∧ Landmark fs act base next c'

theorem Landmark.nears {base : List (Frame S)} {next : Continuation S} {c : Configuration S}
    (h : Landmark fs act base next c) : Nears T k fs act base next c :=
  ⟨0, c, .refl c, h⟩

theorem Nears.of_passes {base : List (Frame S)} {next : Continuation S} {c c' : Configuration S}
    {j : Nat} (hc : Passes T k next j c c') (h : Nears T k fs act base next c') :
    Nears T k fs act base next c := by
  obtain ⟨j', c'', hc', hlandmark⟩ := h
  exact ⟨j + j', c'', hc.trans hc', hlandmark⟩

variable {g : Goal S} {next : Continuation S} {again : Task S} {base : List (Frame S)}

/-- The next round. -/
theorem Rounds.nears (h : Rounds T k fs g next act again) {m : Machine S}
    {upper : List (Frame S)} {done rest : List (Factor S)}
    (hframes : m.engine.frames = upper ++ base) (htiers : Tiers fs act done rest m.scope upper)
    (hpartly : Partly fs done rest m.world.store) :
    Nears T k fs act base next ⟨.call g next, m⟩ := by
  have hopen := hpartly.open?
  cases rest with
  | nil =>
    obtain ⟨m', hpasses, hstays⟩ := h.finished m hopen
    have hextends : m.scope.Extends m'.scope :=
      Scope.extends_of_same hstays.scope.1 (Store.equiv_of_eq hstays.scope.2)
    refine .of_passes hpasses (Landmark.nears ?_)
    refine .through (hstays.frames.trans hframes) (htiers.extends hextends) ?_
    exact hpartly.congr (Store.equiv_of_eq hstays.scope.2.symm)
  | cons f rest =>
    obtain ⟨j, m', -, hpasses, hstays⟩ := h.begun m f hopen
    have hextends : m.scope.Extends m'.scope :=
      Scope.extends_of_same hstays.scope.1 (Store.equiv_of_eq hstays.scope.2)
    have htrail : m'.engine.trail = m.engine.trail := hstays.scope.1
    refine .of_passes hpasses (Landmark.nears (.drawing (i := 0) ?_ (htiers.extends hextends) ?_))
    · rw [hstays.frames, htrail, ← hframes]
      rfl
    · exact hpartly.congr (Store.equiv_of_eq hstays.scope.2.symm)

variable {m m' : Machine S} {t : Task S} {mark : Nat} {upper below : List (Frame S)}
  {done rest : List (Factor S)}

/-- A frame draws the next value, or is removed. -/
theorem Rounds.nears_of_drawing (h : Rounds T k fs g next act again) (hvars : (fs.map var).Nodup)
    {f : Factor S} {i : Nat}
    (hframes : m.engine.frames = ⟨act f i, m.engine.trail.length⟩ :: (upper ++ base))
    (htiers : Tiers fs act done (f :: rest) m.scope upper)
    (hpartly : Partly fs done (f :: rest) m.world.store)
    (hstep : step T k (run T k) .retry m = .ok (.task t) m') :
    Nears T k fs act base next ⟨t, m'⟩ := by
  let m₁ := (m.counted .retries 1).noted (.retried (act f i).kind ((upper ++ base).length + 1))
  have hretry : retryActivation T k (run T k) ((upper ++ base).length + 1) (act f i) m₁ =
      .ok (.task t) m' := (retry_apply k hframes).symm.trans hstep
  have hextends : m.scope.Extends m₁.scope := Scope.extends_of_same rfl (Setoid.refl _)
  have hdraws := h.draws f hpartly.mem
  cases hvalue : f.values[i]? with
  | none =>
    have hlast := hdraws.last (m := m₁) hframes hvalue
    rw [hretry] at hlast
    cases hlast
    have hpopped : m.scope.Extends (m₁.popped ⟨act f i, m.engine.trail.length⟩
        (upper ++ base)).scope := Scope.Extends.backtrack
      (d := ((m₁.withFrames (upper ++ base)).noted _).scope)
      (Scope.extends_of_same rfl (Setoid.refl _)) (Nat.le_refl _)
    exact (Landmark.back rfl (htiers.extends hpopped)).nears
  | some value =>
    obtain ⟨m₂, hnext, hstays, hstore⟩ :=
      hdraws.value (m := m₁) hframes hvalue (hpartly.opened f (by simp))
    rw [hretry] at hnext
    cases hnext
    have hlater : m.scope.Extends m'.scope := hextends.trans hstays.scope.later
    have htiers' : Tiers fs act (f :: done) rest m'.scope
        (⟨act f (i + 1), m.engine.trail.length⟩ :: upper) :=
      .round htiers hpartly hlater (Nat.succ_pos i)
    have hpartly' : Partly fs (f :: done) rest m'.world.store := by
      rw [hstore]
      exact hpartly.set hvars value
    -- With the value bound the loop comes round again, one variable further.
    obtain ⟨j, -, hagain⟩ := h.again m'
    have hframes' : m'.engine.frames =
        (⟨act f (i + 1), m.engine.trail.length⟩ :: upper) ++ base := hstays.frames
    exact .of_passes hagain (h.nears hframes' htiers' hpartly')

/-- A run that goes back is at the newest round again, or at its sentinel. -/
theorem Tiers.nears_of_backtrack (htiers : Tiers fs act done rest m.scope upper)
    (hframes : m.engine.frames = upper ++ (⟨.sentinel, mark⟩ :: below))
    (hstep : step T k (run T k) .backtrack m = .ok (.task t) m') :
    Nears T k fs act (⟨.sentinel, mark⟩ :: below) next ⟨t, m'⟩ := by
  cases htiers with
  | base =>
    have hback := (backtrack_apply hframes).symm.trans hstep
    cases hback
    have hbase : (m.undone mark).engine.frames = ⟨.sentinel, mark⟩ :: below := hframes
    exact (Landmark.spent hbase).nears
  | @round done rest f c _ i upper htiers hpartly hc _ =>
    have hback := (backtrack_apply hframes).symm.trans hstep
    cases hback
    have hundone : c.Extends (m.undone c.trail.length).scope := hc.backtrack (Nat.le_refl _)
    have hlength : (m.undone c.trail.length).engine.trail.length = c.trail.length := by
      have hle := hc.grows.length_le
      exact (length_undone m _).trans (Nat.min_eq_right hle)
    have hframes' : (m.undone c.trail.length).engine.frames =
        ⟨act f i, (m.undone c.trail.length).engine.trail.length⟩ ::
          (upper ++ (⟨.sentinel, mark⟩ :: below)) := by
      rw [hlength]
      exact hframes
    have hopened := hpartly.congr (Setoid.symm (hundone.store_equiv hlength))
    exact Landmark.nears (.drawing hframes' (htiers.extends hundone) hopened)

/-- A landmark leads to the next one. -/
theorem Rounds.nears_of_landmark (h : Rounds T k fs g next act again)
    (hvars : (fs.map var).Nodup) (hnext : next.Entry) {c c' : Configuration S}
    (hc : Landmark fs act (⟨.sentinel, mark⟩ :: below) next c)
    (hstep : step T k (run T k) c.task c.machine = .ok (.task c'.task) c'.machine) :
    Nears T k fs act (⟨.sentinel, mark⟩ :: below) next c' := by
  cases hc with
  | drawing hframes htiers hpartly => exact h.nears_of_drawing hvars hframes htiers hpartly hstep
  | spent hframes => cases (retry_apply k hframes).symm.trans hstep
  | through hframes htiers hpartly =>
    cases hnext with
    | finish => cases hstep
    | first template =>
      obtain ⟨-, -, hstays, -, hsame⟩ := step_collect hstep
      obtain ⟨t, m'⟩ := c'
      cases hsame
      refine Landmark.nears (.past (.inl rfl) (by simp) ?_ (htiers.extends hstays.scope.later))
      exact hstays.frames.trans hframes
    | all template =>
      obtain ⟨-, -, hstays, -, hsame⟩ := step_collect hstep
      obtain ⟨t, m'⟩ := c'
      cases hsame
      refine Landmark.nears (.past (.inr rfl) (by simp) ?_ (htiers.extends hstays.scope.later))
      exact hstays.frames.trans hframes
  | @past m upper done rest last hlast _ hframes htiers =>
    rcases hlast with rfl | rfl
    · cases hstep
    · obtain ⟨t, m'⟩ := c'
      -- After an answer is kept, the run refuses it in order to look for the next one.
      have hback : step T k (run T k) (.proceed .refuse) m =
          .ok (.task .backtrack) (m.counted .calls 1) := bind_ok (count_apply m .calls)
      have hextends : m.scope.Extends (m.counted .calls 1).scope :=
        Scope.extends_of_same rfl (Setoid.refl _)
      have hlandmark : Landmark fs act (⟨.sentinel, mark⟩ :: below) next
          ⟨.backtrack, m.counted .calls 1⟩ := .back hframes (htiers.extends hextends)
      have hsame := hback.symm.trans hstep
      cases hsame
      exact hlandmark.nears
  | back hframes htiers => exact htiers.nears_of_backtrack hframes hstep

/-- A run of rounds nears a landmark in each of its configurations. -/
theorem Rounds.path_nears (h : Rounds T k fs g next act again) (hvars : (fs.map var).Nodup)
    (hnext : next.Entry) (hopen : ∀ f ∈ fs, f.Open m.world.store) {c : Configuration S}
    {past : List (Configuration S)}
    (hp : Path T k (run T k) (m.first (.sequence [g]) next) (c :: past)) :
    Nears T k fs act m.base next c := by
  generalize hcs : c :: past = cs at hp
  induction hp generalizing c past with
  | first =>
    cases hcs
    let m₁ := (m.first (.sequence [g]) next).machine
    have hcall : step T k (run T k) (.call (.sequence [g]) next) m₁ =
        .ok (.task (.call g next)) (m₁.counted .calls 1) := bind_ok (bind_ok (count_apply _ .calls))
    refine .of_passes (.single (by simp) hcall) ?_
    have hframes : (m₁.counted .calls 1).engine.frames = [] ++ m.base := rfl
    exact h.nears hframes .base (partly_of_open hopen)
  | @step c' c'' past' hp hstep ih =>
    obtain ⟨rfl, rfl⟩ := List.cons.inj hcs
    obtain ⟨j, landmark, hpasses, hlandmark⟩ := ih rfl
    -- Either a landmark is reached, and the next one is on its way, or it is one step nearer.
    cases hpasses with
    | refl => exact h.nears_of_landmark hvars hnext hlandmark hstep
    | @head j _ c₁ _ _ hstep₁ hrest =>
      have hsame := hstep₁.symm.trans hstep
      obtain ⟨t, m'⟩ := c
      obtain ⟨t₁, m₁⟩ := c₁
      cases hsame
      exact ⟨j, landmark, hrest, hlandmark⟩

/-- A run of rounds that is through with them has one round for each variable on its
stack, the last one on top. -/
theorem Rounds.path_through (h : Rounds T k fs g next act again) (hvars : (fs.map var).Nodup)
    (hnext : next.Entry) (hopen : ∀ f ∈ fs, f.Open m.world.store) {c : Configuration S}
    {past : List (Configuration S)}
    (hp : Path T k (run T k) (m.first (.sequence [g]) next) (c :: past))
    (hc : c.task = .proceed next) :
    ∃ rounds, c.frames = rounds ++ m.base ∧
      List.Forall₂ (fun f frame => ∃ i, 0 < i ∧ frame.activation = act f i) fs.reverse rounds := by
  obtain ⟨j, landmark, hpasses, hlandmark⟩ := h.path_nears hvars hnext hopen hp
  cases hpasses with
  | head hne _ _ => exact absurd hc hne
  | refl =>
    cases hlandmark with
    | drawing _ _ _ => cases hc
    | spent _ => cases hc
    | back _ _ => cases hc
    | past _ hne _ _ =>
      injection hc with hc
      exact absurd hc hne
    | @through m' upper done hframes htiers hpartly =>
      have hdone : fs.reverse = done := by
        rw [hpartly.split, List.append_nil, List.reverse_reverse]
      rw [hdone]
      exact ⟨upper, hframes, htiers.forall₂⟩

end Path

/-! ### What runs of rounds find -/

theorem steady_filling (fs : List (Factor S)) : (filling fs).Steady := by
  refine .loop fun v g h => ?_
  obtain ⟨s, -, h⟩ := Quiet.yields_bind h
  cases h
  cases open? fs s with
  | none => exact .succeed
  | some f => exact f.steady_goal

theorem steady_choice (f : Factor S) (i : Nat) : (f.choice i).Steady Goal.Steady := by
  rw [choice]
  cases f.values[i]? with
  | none => exact .attempt none
  | some value => exact .unify fun r => .attempt (some r)

theorem steady_deciding (fs : List (Factor S)) : (deciding fs).Steady := by
  refine .search fun p h => ?_
  cases h
  refine .ask fun s => .choices fun make hmake i => ?_
  obtain ⟨f, -, rfl⟩ := Option.map_eq_some_iff.mp hmake
  exact f.steady_choice i

variable (T) in
/-- The goal `g` enumerates what the goals for the variables enumerate in sequence, by
rounds whose frames are `act`: with the same answers in the same order, and without a
solution if and only if a variable has no value.  Whenever a run arrives at a solution
there is one frame for each variable on its stack, which has drawn a value, and no
other above the sentinel of the run. -/
structure Enumerates (fs : List (Factor S)) (m : Machine S) (g : Goal S)
    (act : Continuation S → Factor S → Nat → Activation S) : Prop where
  answers : ∃ k, ∀ n, k ≤ n → ∃ as m₁ m₂, as = (tuples (fs.map values)).map .list ∧
    findAll T n g (.list (fs.map fun f => .var f.var)) m = .ok as m₁ ∧
    findAll T n (.conjunct (fs.map goal)) (.list (fs.map fun f => .var f.var)) m = .ok as m₂
  verdict : ∃ k, ∀ n, k ≤ n → ∃ m', execute T n g m = .ok (fs.all fun f => !f.values.isEmpty) m'
  rounds : ∀ n next c past, next.Entry →
    Path T n (run T n) (m.searching.first (.sequence [g]) next) (c :: past) →
    c.task = .proceed next → ∃ rounds, c.frames = rounds ++ m.base ∧
      List.Forall₂ (fun f frame => ∃ i, 0 < i ∧ frame.activation = act next f i) fs.reverse rounds

theorem enumerates_of_rounds {fs : List (Factor S)} {m : Machine S} {g : Goal S}
    {act : Continuation S → Factor S → Nat → Activation S} {again : Continuation S → Task S}
    (hg : g.Steady) (hfree : ∀ f ∈ fs, f.committed = false) (hvars : (fs.map var).Nodup)
    (hvalues : ∀ f ∈ fs, ∀ value ∈ f.values, value.Ground) (hopen : ∀ f ∈ fs, f.Open m.world.store)
    (hround : ∀ k next, 2 ≤ k → Rounds T k fs g next (act next) (again next)) :
    Enumerates T fs m g act := by
  have hdelivered := delivered_of_rounds (T := T) hfree hvars hround
  have hoffered : fs.map offered = fs.map values :=
    List.map_congr_left fun f hf => offered_of_free (hfree f hf)
  refine ⟨?_, ?_, fun n next c past hnext hpath hc => ?_⟩
  · obtain ⟨k, hk⟩ := hdelivered.exists_findAll_tuples hg hvars hvalues hopen
    have hconjunct := delivered_conjunct (T := T) hvars fun f hf value hvalue =>
      (hvalues f hf value hvalue).var?_eq_none
    obtain ⟨k', hk'⟩ := hconjunct.exists_findAll_tuples (steady_conjunct fs) hvars hvalues hopen
    refine ⟨max k k', fun n hn => ?_⟩
    obtain ⟨m₁, hfind, -⟩ := hk n (Nat.le_trans (Nat.le_max_left _ _) hn)
    obtain ⟨m₂, hconjunct, -⟩ := hk' n (Nat.le_trans (Nat.le_max_right _ _) hn)
    rw [hoffered] at hfind hconjunct
    exact ⟨_, m₁, m₂, rfl, hfind, hconjunct⟩
  · obtain ⟨k, hk⟩ := hdelivered.exists_execute hg hopen
    refine ⟨k, fun n hn => ?_⟩
    obtain ⟨m', hexecute, -⟩ := hk n hn
    exact ⟨m', hexecute⟩
  · -- little fuel leads to no more configurations than enough of it
    have hpath' := hpath.mono (Nat.le_max_left n 2)
    exact (hround _ next (Nat.le_max_right n 2)).path_through hvars hnext
      (m := m.searching) hopen hpath' hc

end Factor

/-- The loop that binds the first open variable in each round, and the search that does
so on each level, enumerate what the goals for the variables enumerate in sequence, and
arrive at each solution with one round for each variable. -/
theorem Machine.rounds_enumerate_product (T : Theory S) {fs : List (Factor S)} {m : Machine S}
    (hfree : ∀ f ∈ fs, f.committed = false) (hvars : (fs.map Factor.var).Nodup)
    (hvalues : ∀ f ∈ fs, ∀ value ∈ f.values, value.Ground)
    (hopen : ∀ f ∈ fs, f.Open m.world.store) :
    Factor.Enumerates T fs m (Factor.filling fs) (fun next f i =>
        .candidates f.draw i (.verdict true) (.call (Factor.filling fs) next)) ∧
      Factor.Enumerates T fs m (Factor.deciding fs) fun next f i =>
        .search (pure (Factor.level fs)) (some (f.choice, i)) next := by
  have hvar : ∀ f ∈ fs, ∀ v ∈ f.values, v.var? = none := fun f hf value hvalue =>
    (hvalues f hf value hvalue).var?_eq_none
  constructor
  · exact Factor.enumerates_of_rounds (Factor.steady_filling fs) hfree hvars hvalues hopen
      fun k next hk => Factor.rounds_filling hfree hvar hk next
  · exact Factor.enumerates_of_rounds (Factor.steady_deciding fs) hfree hvars hvalues hopen
      fun k next hk => Factor.rounds_deciding hvar hk next

/-- Two variables; one value is offered twice, and one is a list. -/
def Bounds.entries : List (Factor Bounds.vocabulary) :=
  [⟨⟨1⟩, [.int 1, .int 1, .int 2], false⟩, ⟨⟨4⟩, [.list [.int 6], .atom "a"], false⟩]

/-- Loop, search and conjunction find six pairs in a machine that has been used before. -/
theorem Machine.rounds_enumerate_product_entries :
    (∀ f ∈ Bounds.entries, f.Open Bounds.used.world.store) ∧
      let t : Bounds.vocabulary.Term := .list [.var ⟨1⟩, .var ⟨4⟩]
      ∃ as k m₁ m₂ m₃, as.length = 6 ∧
        findAll Bounds.theory k (Factor.filling Bounds.entries) t Bounds.used = .ok as m₁ ∧
        findAll Bounds.theory k (Factor.deciding Bounds.entries) t Bounds.used = .ok as m₂ ∧
        findAll Bounds.theory k (.conjunct (Bounds.entries.map Factor.goal)) t Bounds.used =
          .ok as m₃ := by
  have hfree : ∀ f ∈ Bounds.entries, f.committed = false := by decide
  have hopen : ∀ f ∈ Bounds.entries, f.Open Bounds.used.world.store := by
    simp only [Bounds.entries, List.forall_mem_cons]
    exact ⟨⟨rfl, rfl⟩, ⟨rfl, rfl⟩, by simp⟩
  have hvalues : ∀ f ∈ Bounds.entries, ∀ value ∈ f.values, value.Ground := by
    simp only [Bounds.entries, List.forall_mem_cons]
    refine ⟨⟨.int 1, .int 1, .int 2, by simp⟩, ⟨.list ?_, .atom "a", by simp⟩, by simp⟩
    rw [List.forall_mem_cons]
    exact ⟨.int 6, by simp⟩
  obtain ⟨hfilling, hdeciding⟩ :=
    Machine.rounds_enumerate_product Bounds.theory hfree (by decide) hvalues hopen
  obtain ⟨k, hk⟩ := hfilling.answers
  obtain ⟨k', hk'⟩ := hdeciding.answers
  obtain ⟨as, m₁, m₃, has, hfill, hconjunct⟩ := hk (max k k') (Nat.le_max_left _ _)
  obtain ⟨as', m₂, -, has', hdecide, -⟩ := hk' (max k k') (Nat.le_max_right _ _)
  refine ⟨hopen, as, max k k', m₁, m₂, m₃, by rw [has]; rfl, hfill, ?_, hconjunct⟩
  rw [has, ← has']
  exact hdecide

end GoalSearch
