/-
What the code of an application leaves alone.

Code that an engine runs may unify and may start runs, but has no other way to
the stack, the trail or the slots.  As long as it does not put a new engine in
place of the one that runs it, and as long as the runs it starts clean up after
themselves, it leaves the stack and the answers as they are, and the trail only
grows.

* `Program.Steady`, `Goal.Steady` — code and goals that stay with their engine;
* `Machine.Stays` — what such code leaves alone;
* `Runner.Sound` — runs that clean up after themselves;
* `Program.exec_stays` — steady code over sound runs stays.

Design notes: steadiness is a property of trees, so it speaks about the
programs that a goal can come to run, and no run is needed to state it.  What
is required of the stack at the start of a run is a parameter: it only has to
last while the trail grows.
-/
import GoalSearch.Proofs.Frames

namespace GoalSearch

open GoalSearch.Action

variable {S : Vocabulary} {α β : Type}

/-! ### Code that stays with its engine -/

/-- The values with which code that only asks may end. -/
inductive Quiet.Yields : Quiet S α → α → Prop
  | done (a : α) : Yields (.done a) a
  | ask {q : Ask S} {next : q.Answer → Quiet S α} (x : q.Answer) {a : α} :
      Yields (next x) a → Yields (.ask q next) a

theorem Quiet.yields_of_exec {T : Theory S} {fuel : Nat} {x : Quiet S α} {w w' : World S} {a : α}
    (h : x.exec T fuel w = .ok a w') : x.Yields a := by
  induction x generalizing w with
  | done b =>
    cases h
    exact .done a
  | ask q next ih =>
    obtain ⟨y, w'', -, h⟩ := bind_eq_ok.mp h
    exact .ask y (ih y h)

theorem Quiet.yields_bind {x : Quiet S α} {f : α → Quiet S β} {b : β}
    (h : (x.bind f).Yields b) : ∃ a, x.Yields a ∧ (f a).Yields b := by
  induction x with
  | done a => exact ⟨a, .done a, h⟩
  | ask q next ih =>
    cases h with
    | ask y h =>
      obtain ⟨a, ha, hb⟩ := ih y h
      exact ⟨a, .ask y ha, hb⟩

/-- Programs that put no new engine in place of the one that runs them, and
whose goals are all in `P`. -/
inductive Program.Steady (P : Goal S → Prop) : {κ : Kind} → Program S (Goal S) κ → Prop
  | verdict (b : Bool) : Steady P (.verdict b)
  | attempt (r : Option Bool) : Steady P (.attempt r)
  | candidates {draw : Nat → Quiet S (Option (Program S (Goal S) .verdict))} :
      (∀ i p, (draw i).Yields (some p) → Steady P p) → Steady P (.candidates draw)
  | choices {make : Option (Nat → Program S (Goal S) .attempt)} :
      (∀ f, make = some f → ∀ i, Steady P (f i)) → Steady P (.choices make)
  | ask {κ : Kind} {q : Ask S} {next : q.Answer → Program S (Goal S) κ} :
      (∀ x, Steady P (next x)) → Steady P (.ask q next)
  | unify {κ : Kind} {a b : S.Term} {next : Bool → Program S (Goal S) κ} :
      (∀ r, Steady P (next r)) → Steady P (.unify a b next)
  | execute {κ : Kind} {g : Goal S} {next : Bool → Program S (Goal S) κ} :
      P g → (∀ r, Steady P (next r)) → Steady P (.execute g next)
  | findFirst {κ : Kind} {g : Goal S} {t : S.Term} {next : Option S.Term → Program S (Goal S) κ} :
      P g → (∀ r, Steady P (next r)) → Steady P (.findFirst g t next)
  | findAll {κ : Kind} {g : Goal S} {t : S.Term} {next : List S.Term → Program S (Goal S) κ} :
      P g → (∀ r, Steady P (next r)) → Steady P (.findAll g t next)
  | view {κ : Kind} {next : View → Program S (Goal S) κ} :
      (∀ v, Steady P (next v)) → Steady P (.view next)
  | resetStatistics {κ : Kind} {next : Program S (Goal S) κ} :
      Steady P next → Steady P (.resetStatistics next)
  | loop {κ : Kind} {round : Program S (Goal S) .attempt} {next : Bool → Program S (Goal S) κ} :
      Steady P round → (∀ r, Steady P (next r)) → Steady P (.loop round next)

/-- Goals that only run programs that put no new engine in place of the one
that runs them, and so do all goals that these programs run. -/
inductive Goal.Steady : Goal S → Prop
  | succeed : Steady .succeed
  | fail : Steady .fail
  | nondeterministic {prepare : Program S (Goal S) .candidates}
      {validate : Program S (Goal S) .verdict} :
      prepare.Steady Goal.Steady → validate.Steady Goal.Steady →
      Steady (.call (.nondeterministic prepare validate))
  | semideterministic {prepare validate : Program S (Goal S) .verdict} :
      prepare.Steady Goal.Steady → validate.Steady Goal.Steady →
      Steady (.call (.semideterministic prepare validate))
  | deterministic {prepare : Program S (Goal S) .verdict} :
      prepare.Steady Goal.Steady → Steady (.call (.deterministic prepare))
  | sequence {gs : List (Goal S)} : (∀ g ∈ gs, Steady g) → Steady (.sequence gs)
  | disjunction {gs : List (Goal S)} : (∀ g ∈ gs, Steady g) → Steady (.disjunction gs)
  | once {g : Goal S} : Steady g → Steady (.once g)
  | notNot {g : Goal S} : Steady g → Steady (.notNot g)
  | loop {test : View → Quiet S Bool} {body : View → Quiet S (Goal S)} :
      (∀ v g, (body v).Yields g → Steady g) → Steady (.loop test body)
  | search {handler : Quiet S (Program S (Goal S) .choices)} :
      (∀ p, handler.Yields p → p.Steady Goal.Steady) → Steady (.search handler)

theorem Goal.Steady.single {g : Goal S} (hg : g.Steady) : (Goal.sequence [g]).Steady :=
  .sequence (by simpa using hg)

/-- Values whose programs are steady. -/
def Program.Value.Steady : {κ : Kind} → Program.Value S (Goal S) κ → Prop
  | .verdict, _ => True
  | .attempt, _ => True
  | .candidates, draw => ∀ i p, (draw i).Yields (some p) → p.Steady Goal.Steady
  | .choices, make => ∀ f, make = some f → ∀ i, (f i).Steady Goal.Steady

/-- A steady program ends with steady programs. -/
theorem Program.Steady.value {T : Theory S} {fuel : Nat} {run : Runner S} {κ : Kind}
    {p : Program S (Goal S) κ} (hp : p.Steady Goal.Steady) {m m' : Machine S}
    {a : Program.Value S (Goal S) κ} (h : p.exec T fuel run m = .ok a m') :
    Program.Value.Steady a := by
  induction hp generalizing m with
  | verdict => trivial
  | attempt => trivial
  | candidates hdraw =>
    cases h
    exact hdraw
  | choices hmake =>
    cases h
    exact hmake
  | resetStatistics _ ih =>
    obtain ⟨_, _, -, h⟩ := bind_eq_ok.mp h
    exact ih h
  | view _ ih =>
    obtain ⟨_, _, -, h⟩ := bind_eq_ok.mp h
    exact ih _ h
  | ask _ ih | unify _ ih | execute _ _ ih | findFirst _ _ ih | findAll _ _ ih
  | loop _ _ _ ih =>
    obtain ⟨r, _, -, h⟩ := bind_eq_ok.mp h
    exact ih r h

/-- A step that unifies a target with the values drawn is steady. -/
theorem Goal.steady_member (target : S.Term) (draw : Nat → Quiet S (Option S.Term)) :
    (Goal.member target draw).Steady := by
  refine .nondeterministic (.candidates fun i p h => ?_) (.verdict true)
  obtain ⟨value, -, hp⟩ := Quiet.yields_bind h
  cases value with
  | none => nomatch hp
  | some value =>
    cases hp
    exact .unify fun r => .verdict r

theorem Goal.steady_memberOf (target : S.Term) (values : List S.Term) :
    (Goal.memberOf target values).Steady :=
  Goal.steady_member target _

/-! ### What stays -/

/-- What the code of an application leaves alone: the stack and the answers
stay, and the scope is a later one. -/
structure Machine.Stays (R : Scope S → Scope S → Prop) (m m' : Machine S) : Prop where
  frames : m'.engine.frames = m.engine.frames
  answers : m'.answers = m.answers
  scope : R m.scope m'.scope

/-- What a run leaves: the stack and the trail it found, and the answers as
well if it collects none. -/
structure Machine.Restores (R : Scope S → Scope S → Prop) (k : Continuation S)
    (m m' : Machine S) : Prop where
  frames : m'.engine.frames = m.engine.frames
  trail : m'.engine.trail = m.engine.trail
  answers : k = .finish → m'.answers = m.answers
  scope : R m.scope m'.scope

theorem Machine.Restores.stays {R : Scope S → Scope S → Prop} {m m' : Machine S}
    (h : m.Restores R .finish m') : m.Stays R m' :=
  ⟨h.frames, h.answers rfl, h.scope⟩

/-- The continuations with which runs are started. -/
inductive Continuation.Entry : Continuation S → Prop
  | finish : Entry .finish
  | first (template : S.Term) : Entry (.collect template .finish)
  | all (template : S.Term) : Entry (.collect template .refuse)

/-- A requirement on a stack and the length of the trail, at a machine. -/
def Machine.Meets (I : List (Frame S) → Nat → Prop) (m : Machine S) : Prop :=
  I m.engine.frames m.engine.trail.length

/-- Runs that restore what they found wherever a requirement is met. -/
def Runner.Sound (I : List (Frame S) → Nat → Prop) (R : Scope S → Scope S → Prop)
    (run : Runner S) : Prop :=
  ∀ g k, g.Steady → k.Entry →
    Keeps (Machine.Meets I) (Machine.Restores R k) Stop.Balanced (run g k)

section Stays

variable {T : Theory S} {R : Scope S → Scope S → Prop} (H : Scope.History T R)

include H

theorem Machine.stays_of_world {m : Machine S} {w : World S} (h : w.store = m.world.store) :
    m.Stays R { m with world := w } :=
  ⟨rfl, rfl, H.world m.scope w h⟩

theorem Machine.stays_of_scope_eq {m m' : Machine S}
    (hframes : m'.engine.frames = m.engine.frames) (hanswers : m'.answers = m.answers)
    (hscope : m'.scope = m.scope) : m.Stays R m' :=
  ⟨hframes, hanswers, by rw [hscope]; exact H.refl _⟩

variable {I : List (Frame S) → Nat → Prop}

/-- Code that only asks changes no slot. -/
theorem Machine.onWorld_stays {x : Action (World S) α}
    (hx : Keeps (fun _ => True) (fun w w' : World S => w'.store = w.store) Stop.Balanced x) :
    Keeps (Machine.Meets I) (Machine.Stays R) Stop.Balanced (Machine.onWorld x) := by
  intro m _
  rw [Machine.onWorld, ensures_onPart]
  exact (hx m.world trivial).mono fun _ w hw => Machine.stays_of_world H hw

theorem Machine.countBy_stays (c : Counter) (n : Nat) :
    Keeps (Machine.Meets I) (Machine.Stays R) Stop.Balanced (Machine.countBy (S := S) c n) := by
  intro m _
  rw [ensures_of_eq_ok (Machine.countBy_apply m c n)]
  exact Machine.stays_of_scope_eq H rfl rfl rfl

variable (hI : ∀ fs, Monotone (I fs))

include hI

theorem Machine.lasting_stays : Lasting (Machine.Meets I) (Machine.Stays R) where
  refl m := ⟨rfl, rfl, H.refl _⟩
  trans h h' := ⟨h'.frames.trans h.frames, h'.answers.trans h.answers, H.trans h.scope h'.scope⟩
  last {m m'} hm h := by
    rw [Machine.Meets, h.frames]
    exact hI _ (H.grows h.scope).length_le hm

theorem Machine.unify_stays (fuel : Nat) (a b : S.Term) :
    Keeps (Machine.Meets I) (Machine.Stays R) Stop.Balanced (Machine.unify T fuel a b) := by
  have h := Machine.lasting_stays H hI
  have hlength : Keeps (Machine.Meets I) (Machine.Stays R) Stop.Balanced
      (Machine.trailLength (S := S)) :=
    Keeps.bind h (Keeps.get h) fun _ => Keeps.pure h _
  refine Keeps.bind h hlength fun before => ?_
  refine Keeps.bind h ?_ fun unified => ?_
  · intro m _
    rw [Machine.onScope, ensures_onPart]
    exact (H.unify fuel a b m.scope trivial).mono fun _ _ hc => ⟨rfl, rfl, hc⟩
  · refine Keeps.bind h hlength fun after => ?_
    exact Keeps.bind h (Machine.countBy_stays H _ _) fun _ => Keeps.pure h _

omit hI

variable {run : Runner S} (hrun : run.Sound I R)

include hrun

/-- A run with what is noted about it restores as much as the run alone. -/
theorem Machine.executeWith_restores {g : Goal S} {k : Continuation S} (hg : g.Steady)
    (hk : k.Entry) :
    Keeps (Machine.Meets I) (Machine.Restores R k) Stop.Balanced
      (Machine.executeWith run g k) := by
  intro m hm
  unfold Machine.executeWith
  rw [ensures_bind_of_eq_ok (Machine.depth_apply m),
    ensures_bind_of_eq_ok (Machine.trailLength_apply m),
    ensures_bind_of_eq_ok (Machine.note_apply m _), ensures_bind]
  refine (hrun g k hg hk (m.logged _) hm).mono fun status m' h => ?_
  rw [ensures_bind_of_eq_ok (Machine.note_apply m' _), ensures_pure]
  refine ⟨h.frames, h.trail, h.answers, ?_⟩
  have hstart : R m.scope (m.logged (.runStarted m.engine.depth m.engine.trail.length)).scope :=
    H.of_eq (H.refl _) rfl rfl
  exact H.of_eq (H.trans hstart h.scope) rfl rfl

theorem Machine.collecting_restores {g : Goal S} {k : Continuation S} (hg : g.Steady)
    (hk : k.Entry) :
    Keeps (Machine.Meets I) (Machine.Restores R .finish) Stop.Balanced
      (Machine.collecting (Machine.executeWith run (.sequence [g]) k)) := by
  intro m hm
  unfold Machine.collecting
  rw [ensures_bind_of_eq_ok (get_apply m), ensures_bind_of_eq_ok (modify_apply _ m), ensures_bind]
  refine (Machine.executeWith_restores H hrun hg.single hk { m with answers := [] } hm).mono ?_
  intro _ m' h
  exact ⟨h.frames, h.trail, fun _ => rfl, h.scope⟩

theorem Machine.findFirstWith_restores {g : Goal S} (hg : g.Steady) (t : S.Term) :
    Keeps (Machine.Meets I) (Machine.Restores R .finish) Stop.Balanced
      (Machine.findFirstWith run g t) := by
  intro m hm
  unfold Machine.findFirstWith
  rw [ensures_bind]
  exact (Machine.collecting_restores H hrun hg (.first t) m hm).mono fun _ _ h => h

theorem Machine.findAllWith_restores {g : Goal S} (hg : g.Steady) (t : S.Term) :
    Keeps (Machine.Meets I) (Machine.Restores R .finish) Stop.Balanced
      (Machine.findAllWith run g t) :=
  Machine.collecting_restores H hrun hg (.all t)

include hI

/-- Steady code over sound runs leaves the stack and the answers alone. -/
theorem Program.exec_stays (fuel : Nat) {κ : Kind} {p : Program S (Goal S) κ}
    (hp : p.Steady Goal.Steady) :
    Keeps (Machine.Meets I) (Machine.Stays R) Stop.Balanced (p.exec T fuel run) := by
  have h := Machine.lasting_stays H hI
  induction hp with
  | verdict | attempt | candidates _ | choices _ => exact Keeps.pure h _
  | @ask _ q _ _ ih =>
    have hanswer : Keeps (fun _ => True) (fun w w' : World S => w'.store = w.store)
        Stop.Balanced (q.answer T fuel) :=
      Ask.answer_keeps_store (by simp [Stop.Balanced]) q
    exact Keeps.bind h (Machine.onWorld_stays H hanswer) ih
  | unify _ ih => exact Keeps.bind h (Machine.unify_stays H hI fuel _ _) ih
  | execute hg _ ih =>
    have hrestores := Machine.executeWith_restores H hrun hg .finish
    exact Keeps.bind h (hrestores.mono fun _ _ => Machine.Restores.stays) ih
  | @findFirst _ _ t _ hg _ ih =>
    have hrestores := Machine.findFirstWith_restores H hrun hg t
    exact Keeps.bind h (hrestores.mono fun _ _ => Machine.Restores.stays) ih
  | @findAll _ _ t _ hg _ ih =>
    have hrestores := Machine.findAllWith_restores H hrun hg t
    exact Keeps.bind h (hrestores.mono fun _ _ => Machine.Restores.stays) ih
  | view _ ih => exact Keeps.bind h (Keeps.get h) fun m => ih _
  | resetStatistics _ ih =>
    exact Keeps.bind h (fun m _ => Machine.stays_of_scope_eq H rfl rfl rfl) fun _ => ih
  | loop _ _ ihround ih =>
    exact Keeps.bind h (Keeps.rounds h (by simp [Stop.Balanced]) ihround fuel) ih

end Stays

end GoalSearch
