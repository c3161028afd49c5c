/-
Searches that end.

A run may come back to a frame again and again, and push new frames each time, so no
measure of the stack shows that it ends.  What ends is the call of a goal, if what
comes after a solution ends and what comes after the last failure does: whoever calls
a goal promises both, and a goal keeps the promise for its parts.

* `Machine.Finitary` — runs whose code returns, whose frames have finitely many
  alternatives, and whose loops and searches descend;
* `Configuration.Secured` — what is promised to a call;
* `Goal.Ends` — goals whose calls end if they are secured;
* `Machine.Finitary.ends` — all steady goals are such goals;
* `Path.finitary` — how a run that has ended is seen to branch finitely;
* `Machine.finitary_runs_return` — the three ways to run a goal return.

Design notes: the promise is about everything to which the engine may come back on
the stack of the call, so the alternatives left on the stack by a solution are part of
what is promised to the goals after it.  Alternatives are counted per frame while it
is on the stack, since code may offer others the next time.
-/
import GoalSearch.Proofs.Knots
import GoalSearch.Proofs.Rounds
import GoalSearch.Proofs.Turns

namespace GoalSearch

open GoalSearch.Action GoalSearch.Configuration

variable {S : Vocabulary} {T : Theory S}

/-! ### Finitely branching runs -/

/-- How many alternatives of a frame have been taken. -/
def Activation.taken : Activation S → Nat
  | .candidates _ drawn _ _ => drawn
  | .search _ (some (_, made)) _ => made
  | _ => 0

namespace Configuration

variable (T) in
/-- A call of a goal, some steps later and on the same stack or on top of it, is made
again with the same continuation, at `m'`. -/
def Recalls (g : Goal S) (next : Continuation S) (m m' : Machine S) : Prop :=
  ∃ c, Steps T ⟨.call g next, m⟩ c ∧ Upon T m.engine.frames c ⟨.call g next, m'⟩

end Configuration

variable (T) in
/-- A run that branches finitely, with the runs of double negations in it.  Code and
the copying of templates return; the alternatives taken of a frame, while it is on the
stack, are bounded; and for each call of a loop or a search there is a measure of the
slots that becomes smaller from each call to those made again on its way to success. -/
structure Machine.Finitary (first : Configuration S) : Prop where
  returns : ∀ c, Reached T first c → c.runsCode = true →
    ∃ n p m, step T n (run T n) c.task c.machine = .ok p m
  bounded : ∀ c f F, Reached T first c → c.task = .retry → c.frames = f :: F →
    ∃ N, ∀ c' f', Atop T F c c' → c'.task = .retry → c'.frames = f' :: F →
      f'.activation.taken ≤ N
  descends : ∀ g next m, g.repeats = true → Reached T first ⟨.call g next, m⟩ →
    ∃ μ : Store S → Nat, ∀ m₁ m₂, Upon T m.engine.frames ⟨.call g next, m⟩ ⟨.call g next, m₁⟩ →
      Recalls T g next m₁ m₂ → μ m₂.world.store < μ m₁.world.store

/-! ### What is promised to a call -/

namespace Configuration

variable {F F' : List (Frame S)} {c c' : Configuration S} {next : Continuation S}

variable (T) in
/-- Whenever the run goes back on the stack `F`, having stood on it all along, it ends. -/
def Back (F : List (Frame S)) (c : Configuration S) : Prop :=
  ∀ m, Upon T F c ⟨.backtrack, m⟩ → m.engine.frames = F → Halts T ⟨.backtrack, m⟩

variable (T) in
/-- The run ends whenever it goes back on the stack `F`, and whenever it arrives at
`next` on top of `F` and ends when it goes back from there. -/
structure Secured (next : Continuation S) (F : List (Frame S)) (c : Configuration S) : Prop where
  back : Back T F c
  onward : ∀ m, Upon T F c ⟨.proceed next, m⟩ → Back T m.engine.frames ⟨.proceed next, m⟩ →
    Halts T ⟨.proceed next, m⟩

theorem Back.later (h : Back T F c) (hc : Upon T F c c') : Back T F c' :=
  fun m hm => h m (hc.trans hm)

theorem Secured.later (h : Secured T next F c) (hc : Upon T F c c') : Secured T next F c' :=
  ⟨h.back.later hc, fun m hm => h.onward m (hc.trans hm)⟩

/-- What is promised on a stack is promised on a higher one, if the run ends when it
goes back on that one. -/
theorem Secured.upon (h : Secured T next F c) (hF : F <:+ F') (hback : Back T F' c) :
    Secured T next F' c :=
  ⟨hback, fun m hm => h.onward m (hm.mono fun _ => hF.trans)⟩

theorem Secured.proceed (h : Secured T next F c) {m : Machine S}
    (hm : Upon T F c ⟨.proceed next, m⟩) (hframes : m.engine.frames = F) :
    Halts T ⟨.proceed next, m⟩ := by
  refine h.onward m hm ?_
  rw [hframes]
  exact h.back.later hm

theorem Secured.ofVerdict (h : Secured T next F c) {b : Bool} {m : Machine S}
    (hm : Upon T F c ⟨.ofVerdict b next, m⟩) (hframes : m.engine.frames = F) :
    Halts T ⟨.ofVerdict b next, m⟩ := by
  cases b with
  | true => exact h.proceed hm hframes
  | false => exact h.back m hm hframes

end Configuration

variable (T) in
/-- In the run from `first`, a call of a goal ends if it is secured. -/
def Goal.Ends (first : Configuration S) (g : Goal S) : Prop :=
  ∀ next m, Reached T first ⟨.call g next, m⟩ →
    Secured T next m.engine.frames ⟨.call g next, m⟩ → Halts T ⟨.call g next, m⟩

namespace Machine

variable {first c : Configuration S} {F : List (Frame S)} {next : Continuation S} {m : Machine S}

section Finitary

variable (H : Finitary T first) (hfirst : first.Poised)

include H hfirst

/-- A run ends if it ends from wherever its next step turns to. -/
theorem Finitary.halts {t : Task S} (hc : Reached T first ⟨t, m⟩)
    (hnests : t.nests = false) (hframes : m.engine.frames = F)
    (h : ∀ t' m' F', Steps T ⟨t, m⟩ ⟨t', m'⟩ → m'.engine.frames = F' → t.Turns F t' F' →
      Halts T ⟨t', m'⟩) :
    Halts T ⟨t, m⟩ := by
  have hreturns : ∃ n p m', step T n (run T n) t m = .ok p m' := by
    cases hcode : Configuration.runsCode ⟨t, m⟩ with
    | true => exact H.returns _ hc hcode
    | false => exact ⟨0, exists_step T hcode hnests⟩
  obtain ⟨n, p, m', hstep⟩ := hreturns
  cases p with
  | ended status => exact halts_of_ended hstep
  | task t' =>
    have hsteps : Steps T ⟨t, m⟩ ⟨t', m'⟩ := ⟨n, hstep⟩
    have hturns := (hc.poised hfirst).turns hsteps
    rw [show Configuration.frames ⟨t, m⟩ = F from hframes] at hturns
    exact hsteps.halts (h t' m' _ hsteps rfl hturns)

/-- A run that goes back tries the next alternative of the frame on top. -/
theorem Finitary.back (hc : Reached T first c)
    (h : ∀ m, Upon T F c ⟨.retry, m⟩ → m.engine.frames = F → Halts T ⟨.retry, m⟩) :
    Back T F c := by
  intro m hm hframes
  refine H.halts hfirst (hm.reached hc) rfl hframes fun t m' F' hsteps hframes' hturns => ?_
  cases hturns with
  | back =>
    refine h m' (hm.tail hsteps ?_) hframes'
    exact hframes' ▸ List.suffix_refl F

/-- A frame that offers its alternatives one after the other, when the run ends after
each of them if it ends when it comes back for the next one. -/
theorem Finitary.halts_alternatives {f : Nat → Frame S} (hf : ∀ i, (f i).activation.taken = i)
    (hc : Reached T first ⟨.retry, m⟩) (hframes : m.engine.frames = f 0 :: F)
    (hback : Back T F ⟨.retry, m⟩)
    (h : ∀ i t m' F', m'.engine.frames = F' → Task.retry.Turns (f i :: F) t F' →
      (t = .backtrack ∧ F' = F) ∨
        (F' = f (i + 1) :: F ∧ (Upon T F ⟨.retry, m⟩ ⟨t, m'⟩ → Back T (f (i + 1) :: F) ⟨t, m'⟩ →
          Halts T ⟨t, m'⟩))) :
    Halts T ⟨.retry, m⟩ := by
  obtain ⟨N, hN⟩ := H.bounded _ _ F hc rfl hframes
  have hatop : ∀ {m' : Machine S} {i : Nat}, m'.engine.frames = f i :: F →
      F <:+ m'.engine.frames ∧ F.length < m'.engine.frames.length := by
    intro m' i hm'
    rw [hm']
    exact ⟨List.suffix_cons _ _, by simp⟩
  -- by the number of alternatives that are left
  have hall : ∀ d i m', N - i = d → Atop T F ⟨.retry, m⟩ ⟨.retry, m'⟩ →
      m'.engine.frames = f i :: F → Halts T ⟨.retry, m'⟩ := by
    intro d
    induction d using Nat.strong_induction_on with
    | _ d ih =>
    intro i m' hd hm' hframes'
    refine H.halts hfirst (hm'.reached hc) rfl hframes' fun t m'' F' hsteps hF' hturns => ?_
    have hupon : Upon T F ⟨.retry, m⟩ ⟨.retry, m'⟩ := hm'.mono fun _ hfs => hfs.1
    rcases h i t m'' F' hF' hturns with ⟨rfl, rfl⟩ | ⟨rfl, hend⟩
    · exact hback m'' (hupon.tail hsteps (hF' ▸ List.suffix_refl _)) hF'
    · have hc' : Atop T F ⟨.retry, m⟩ ⟨t, m''⟩ := hm'.tail hsteps (hatop hF')
      refine hend (hc'.mono fun _ hfs => hfs.1) ?_
      refine H.back hfirst (hc'.reached hc) fun m₃ hm₃ hframes₃ => ?_
      have hagain : Atop T F ⟨.retry, m⟩ ⟨.retry, m₃⟩ := hc'.trans hm₃.atop
      have hle := hN _ _ hagain rfl hframes₃
      rw [hf] at hle
      exact ih (N - (i + 1)) (by omega) (i + 1) m₃ rfl hagain hframes₃
  exact hall _ 0 m rfl (.refl (hatop hframes)) hframes

/-- The branches of a disjunction, called one after the other. -/
theorem Finitary.halts_branches {gs : List (Goal S)} (hgs : ∀ g ∈ gs, g.Ends T first)
    {mark : Nat} (hc : Reached T first ⟨.retry, m⟩)
    (hframes : m.engine.frames = ⟨.branches gs next, mark⟩ :: F)
    (hsecured : Secured T next F ⟨.retry, m⟩) : Halts T ⟨.retry, m⟩ := by
  induction gs generalizing m with
  | nil =>
    have hupon : F <:+ m.engine.frames := hframes ▸ List.suffix_cons _ _
    refine H.halts hfirst hc rfl hframes fun t m' F' hsteps hframes' hturns => ?_
    cases hturns with
    | exhausted =>
      exact hsecured.back m' (along_of_step hupon hsteps (hframes' ▸ List.suffix_refl _)) hframes'
  | cons g gs ih =>
    rw [List.forall_mem_cons] at hgs
    have hupon : F <:+ m.engine.frames := hframes ▸ List.suffix_cons _ _
    refine H.halts hfirst hc rfl hframes fun t m' F' hsteps hframes' hturns => ?_
    cases hturns with
    | exhausted =>
      exact hsecured.back m' (along_of_step hupon hsteps (hframes' ▸ List.suffix_refl _)) hframes'
    | branch =>
      have hsuffix : F <:+ m'.engine.frames := hframes' ▸ List.suffix_cons _ _
      have hcall := along_of_step hupon hsteps hsuffix
      refine hgs.1 next m' (hcall.reached hc) ?_
      rw [hframes']
      refine (hsecured.later hcall).upon (List.suffix_cons _ _) ?_
      -- Whatever the branch does, its end leads back to this frame, with fewer branches left.
      refine H.back hfirst (hcall.reached hc) fun m'' hm'' hframes'' => ?_
      have hagain := hcall.trans (hm''.mono fun _ => (List.suffix_cons _ _).trans)
      exact ih hgs.2 (hagain.reached hc) hframes'' (hsecured.later hagain)

/-- Goals in sequence. -/
theorem Finitary.halts_sequence {gs : List (Goal S)} (hgs : ∀ g ∈ gs, g.Ends T first)
    (hc : Reached T first ⟨.sequence gs next, m⟩)
    (hsecured : Secured T next m.engine.frames ⟨.sequence gs next, m⟩) :
    Halts T ⟨.sequence gs next, m⟩ := by
  induction gs generalizing m with
  | nil => exact hsecured.proceed (.refl (List.suffix_refl _)) rfl
  | cons g gs ih =>
    rw [List.forall_mem_cons] at hgs
    cases gs with
    | nil => exact hgs.1 next m hc hsecured
    | cons g' gs =>
      refine hgs.1 _ m hc ⟨hsecured.back, fun m' hm' hback => ?_⟩
      -- the first goal has a solution, and the others are called from there
      refine H.halts hfirst (hm'.reached hc) rfl rfl fun t m'' F' hsteps hframes hturns => ?_
      cases hturns with
      | rest =>
        have hsuffix : m.engine.frames <:+ m''.engine.frames := hframes ▸ hm'.last
        have hrest := hsteps.upon hframes (List.suffix_refl _)
        have hall := hm'.tail hsteps hsuffix
        refine ih hgs.2 (hall.reached hc) ((hsecured.later hall).upon hsuffix ?_)
        rw [hframes]
        exact hback.later hrest

omit hfirst in
/-- A loop or a search ends if each of its calls ends once those made again from it do. -/
theorem Finitary.halts_descent {g : Goal S} (hg : g.repeats = true)
    (h : ∀ next m, Reached T first ⟨.call g next, m⟩ →
      Secured T next m.engine.frames ⟨.call g next, m⟩ →
      (∀ m', Recalls T g next m m' → Secured T next m'.engine.frames ⟨.call g next, m'⟩ →
        Halts T ⟨.call g next, m'⟩) →
      Halts T ⟨.call g next, m⟩) :
    g.Ends T first := by
  intro next m hc hsecured
  obtain ⟨μ, hμ⟩ := H.descends g next m hg hc
  -- The induction is on the measure, over all calls that are made again from this one.
  have hall : ∀ v m', μ m'.world.store = v →
      Upon T m.engine.frames ⟨.call g next, m⟩ ⟨.call g next, m'⟩ →
      Secured T next m'.engine.frames ⟨.call g next, m'⟩ → Halts T ⟨.call g next, m'⟩ := by
    intro v
    induction v using Nat.strong_induction_on with
    | _ v ih =>
    intro m' hv hm' hsecured'
    refine h next m' (hm'.reached hc) hsecured' fun m'' hm'' hsecured'' => ?_
    have hlt := hμ m' m'' hm' hm''
    obtain ⟨c, hsteps, hupon⟩ := hm''
    have hbelow : ∀ fs, m'.engine.frames <:+ fs → m.engine.frames <:+ fs := fun _ => hm'.last.trans
    have hagain := (hm'.tail hsteps (hbelow _ hupon.start)).trans (hupon.mono hbelow)
    exact ih _ (hv ▸ hlt) m'' rfl hagain hsecured''
  exact hall _ m rfl (.refl (List.suffix_refl _)) hsecured

theorem Finitary.ends_predicate (p : Predicate S (Goal S)) : (Goal.call p).Ends T first := by
  intro next m hc hsecured
  refine H.halts hfirst hc rfl rfl fun t m' F' hsteps hframes hturns => ?_
  cases hturns with
  | verdict b => exact hsecured.ofVerdict (hsteps.upon hframes (List.suffix_refl _)) hframes
  | @candidates _ _ _ draw validate mark =>
    have hlater := hsteps.upon hframes (List.suffix_cons _ _)
    refine H.halts_alternatives hfirst (f := fun i => ⟨.candidates draw i validate next, mark⟩)
      (fun _ => rfl) (hlater.reached hc) hframes (hsecured.back.later hlater) ?_
    intro i t m'' F' hframes' hturns
    cases hturns with
    | exhausted => exact .inl ⟨rfl, rfl⟩
    | draw b =>
      refine .inr ⟨rfl, fun hnext hback => ?_⟩
      have hall := (hsecured.later (hlater.trans hnext)).upon (List.suffix_cons _ _) hback
      exact hall.ofVerdict (.refl (hframes' ▸ List.suffix_refl _)) hframes'

theorem Finitary.ends_search (handler : Quiet S (Program S (Goal S) .choices)) :
    (Goal.search handler).Ends T first := by
  refine H.halts_descent rfl fun next m hc hsecured hagain => ?_
  refine H.halts hfirst hc rfl rfl fun t m' F' hsteps hframes hturns => ?_
  cases hturns with
  | decided => exact hsecured.proceed (hsteps.upon hframes (List.suffix_refl _)) hframes
  | @level _ _ _ make mark =>
    have hlater := hsteps.upon hframes (List.suffix_cons _ _)
    refine H.halts_alternatives hfirst (f := fun i => ⟨.search handler (some (make, i)) next, mark⟩)
      (fun _ => rfl) (hlater.reached hc) hframes (hsecured.back.later hlater) ?_
    intro i t m'' F' hframes' hturns
    cases hturns with
    | exhausted => exact .inl ⟨rfl, rfl⟩
    | choice b =>
      refine .inr ⟨rfl, fun hnext hback => ?_⟩
      cases b with
      | false => exact hback m'' (.refl (hframes' ▸ List.suffix_refl _)) hframes'
      | true =>
        have hall := (hsecured.later (hlater.trans hnext)).upon (List.suffix_cons _ _) hback
        refine hagain m'' ⟨_, hsteps, hnext⟩ ?_
        rw [hframes']
        exact hall

theorem Finitary.ends_loop {test : View → Quiet S Bool} {body : View → Quiet S (Goal S)}
    (hbody : ∀ v g, (body v).Yields g → g.Ends T first) : (Goal.loop test body).Ends T first := by
  refine H.halts_descent rfl fun next m hc hsecured hagain => ?_
  refine H.halts hfirst hc rfl rfl fun t m' F' hsteps hframes hturns => ?_
  cases hturns with
  | finished => exact hsecured.proceed (hsteps.upon hframes (List.suffix_refl _)) hframes
  | @round _ _ _ _ v g hyields =>
    have hcall := hsteps.upon hframes (List.suffix_refl _)
    refine hbody v g hyields _ m' (hcall.reached hc) ?_
    rw [hframes]
    refine ⟨hsecured.back.later hcall, fun m'' hm'' hback => ?_⟩
    -- the body has a solution, and the loop is called again from there
    have hreached := hm''.reached (hcall.reached hc)
    refine H.halts hfirst hreached rfl rfl fun t m₃ F' hsteps' hframes' hturns => ?_
    cases hturns with
    | again =>
      have hsuffix : m.engine.frames <:+ m₃.engine.frames := hframes' ▸ hm''.last
      have hnext := hm''.tail hsteps' hsuffix
      have hrest := hsteps'.upon hframes' (List.suffix_refl _)
      refine hagain m₃ ⟨_, hsteps, hnext⟩ ?_
      refine (hsecured.later (hcall.trans hnext)).upon hsuffix ?_
      rw [hframes']
      exact hback.later hrest

theorem Finitary.ends_once {g : Goal S} (hg : g.Ends T first) : (Goal.once g).Ends T first := by
  intro next m hc hsecured
  refine H.halts hfirst hc rfl rfl fun t m' F' hsteps hframes hturns => ?_
  cases hturns with
  | once =>
    have hcall := hsteps.upon hframes (List.suffix_refl _)
    refine hg _ m' (hcall.reached hc) ?_
    rw [hframes]
    refine ⟨hsecured.back.later hcall, fun m'' hm'' _ => ?_⟩
    -- the alternatives of the solution are dropped, and the stack is that of the call
    have hreached := hm''.reached (hcall.reached hc)
    refine H.halts hfirst hreached rfl rfl fun t m₃ F' hsteps' hframes' hturns => ?_
    cases hturns with
    | commit =>
      have hdrop := (List.suffix_iff_eq_drop.mp hm''.last).symm
      have hsame : m₃.engine.frames = m.engine.frames := hframes'.trans hdrop
      have hsuffix : m.engine.frames <:+ m₃.engine.frames := hsame ▸ List.suffix_refl _
      exact hsecured.proceed (hcall.trans (hm''.tail hsteps' hsuffix)) hsame

/-- A run above a sentinel of its own ends if the call of its goal does. -/
theorem Finitary.halts_first {g : Goal S} (hg : g.Ends T first) {k : Continuation S}
    (hk : k.Entry) (hc : Reached T first (m.first g k)) : Halts T (m.first g k) := by
  have hback : Back T m.base (m.first g k) := by
    refine H.back hfirst hc fun m' _ hframes => ?_
    exact halts_of_ended (n := 0) (retry_apply (T := T) 0 hframes)
  refine hg k _ hc ⟨hback, fun m' hm' hgoesBack => ?_⟩
  have hreached := hm'.reached hc
  cases hk with
  | finish => exact halts_of_ended (n := 0) rfl
  | first t =>
    refine H.halts hfirst hreached rfl rfl fun t m'' F' _ _ hturns => ?_
    cases hturns with
    | collect => exact halts_of_ended (n := 0) rfl
  | all t =>
    refine H.halts hfirst hreached rfl rfl fun t m'' F' hsteps hframes hturns => ?_
    cases hturns with
    | collect =>
      have hkept := hsteps.upon hframes (List.suffix_refl _)
      refine H.halts hfirst (hkept.reached hreached) rfl hframes
        fun t m₃ F' hsteps' hframes' hturns => ?_
      cases hturns with
      | refuse =>
        have hupon' : m'.engine.frames <:+ m₃.engine.frames := hframes' ▸ List.suffix_refl _
        exact hgoesBack m₃ (hkept.tail hsteps' hupon') hframes'

theorem Finitary.ends_notNot {g : Goal S} (hsteady : g.Steady) (hg : g.Ends T first) :
    (Goal.notNot g).Ends T first := by
  intro next m hc hsecured
  obtain ⟨n, status, m', hdrive⟩ := H.halts_first hfirst hg .finish (.nested hc)
  obtain ⟨m'', hrun, -⟩ := run_of_drive hsteady .finish hdrive
  have hframes : m''.engine.frames = ⟨.step, m.engine.trail.length⟩ :: m.engine.frames :=
    (nested_frames hsteady _).ok hrun
  have hcall : call T (n + 1) (run T (n + 1)) (.notNot g) next m =
      .ok (.ofVerdict (status = .success) next) (m''.retired m.engine.frames) := by
    refine (bind_ok (count_apply _ _)).trans ((bind_ok (pushHere_apply _ _)).trans ?_)
    exact (bind_ok hrun).trans (bind_ok (retire_apply _ hframes))
  have hsteps : Steps T ⟨.call (.notNot g) next, m⟩
      ⟨.ofVerdict (status = .success) next, m''.retired m.engine.frames⟩ :=
    ⟨n + 1, bind_ok hcall⟩
  exact hsteps.halts (hsecured.ofVerdict (hsteps.upon rfl (List.suffix_refl _)) rfl)

theorem Finitary.ends_sequence {gs : List (Goal S)} (hgs : ∀ g ∈ gs, g.Ends T first) :
    (Goal.sequence gs).Ends T first := by
  intro next m hc hsecured
  refine H.halts hfirst hc rfl rfl fun t m' F' hsteps hframes hturns => ?_
  cases hturns with
  | sequence =>
    have hlater := hsteps.upon hframes (List.suffix_refl _)
    refine H.halts_sequence hfirst hgs (hlater.reached hc) ?_
    rw [hframes]
    exact hsecured.later hlater

theorem Finitary.ends_disjunction {gs : List (Goal S)} (hgs : ∀ g ∈ gs, g.Ends T first) :
    (Goal.disjunction gs).Ends T first := by
  intro next m hc hsecured
  refine H.halts hfirst hc rfl rfl fun t m' F' hsteps hframes hturns => ?_
  cases hturns with
  | disjunction =>
    have hlater := hsteps.upon hframes (List.suffix_cons _ _)
    exact H.halts_branches hfirst hgs (hlater.reached hc) hframes (hsecured.later hlater)

/-- The call of a steady goal ends if it is secured. -/
theorem Finitary.ends {g : Goal S} (hg : g.Steady) : g.Ends T first := by
  refine @Goal.Steady.rec S (fun g _ => g.Ends T first) (fun _ _ => True)
    ?succeed ?fail ?nondeterministic ?semideterministic ?deterministic ?sequence ?disjunction
    ?once ?notNot ?loop ?search ?verdict ?attempt ?candidates ?choices ?ask ?unify ?execute
    ?findFirst ?findAll ?view ?resetStatistics ?rounds g hg
  case succeed =>
    intro next m hc hsecured
    refine H.halts hfirst hc rfl rfl fun t m' F' hsteps hframes hturns => ?_
    cases hturns with
    | succeed => exact hsecured.proceed (hsteps.upon hframes (List.suffix_refl _)) hframes
  case fail =>
    intro next m hc hsecured
    refine H.halts hfirst hc rfl rfl fun t m' F' hsteps hframes hturns => ?_
    cases hturns with
    | fail => exact hsecured.back m' (hsteps.upon hframes (List.suffix_refl _)) hframes
  case nondeterministic => exact fun _ _ _ _ => H.ends_predicate hfirst _
  case semideterministic => exact fun _ _ _ _ => H.ends_predicate hfirst _
  case deterministic => exact fun _ _ => H.ends_predicate hfirst _
  case sequence => exact fun _ ih => H.ends_sequence hfirst ih
  case disjunction => exact fun _ ih => H.ends_disjunction hfirst ih
  case once => exact fun _ ih => H.ends_once hfirst ih
  case notNot => exact fun hg ih => H.ends_notNot hfirst hg ih
  case loop => exact fun _ ih => H.ends_loop hfirst ih
  case search => exact fun _ _ => H.ends_search hfirst _
  all_goals intros; trivial

end Finitary

/-- A run that branches finitely returns. -/
theorem Finitary.exists_run {g : Goal S} (hg : g.Steady) {k : Continuation S} (hk : k.Entry)
    (H : Finitary T (m.first g k)) : ∃ n status m', run T n g k m = .ok status m' := by
  have hfirst := poised_first T hg hk m
  obtain ⟨n, status, m₁, hdrive⟩ := H.halts_first hfirst (H.ends hfirst hg) hk .first
  obtain ⟨m', hrun, -⟩ := run_of_drive hg hk hdrive
  exact ⟨n + 1, status, m', hrun⟩

end Machine

/-! ### Runs that have ended -/

/-- The next step ends the run. -/
def Configuration.ends (T : Theory S) (n : Nat) (c : Configuration S) : Bool :=
  match Machine.step T n (Machine.run T n) c.task c.machine with
  | .ok (.ended _) _ => true
  | _ => false

theorem Configuration.ends_eq_true {n : Nat} {c : Configuration S} : c.ends T n = true ↔
    ∃ status m, Machine.step T n (Machine.run T n) c.task c.machine = .ok (.ended status) m := by
  unfold ends
  split
  · next status m hended => exact ⟨fun _ => ⟨status, m, hended⟩, fun _ => rfl⟩
  · next hne => exact ⟨nofun, fun ⟨status, m, hended⟩ => absurd hended (hne status m)⟩

/-- How many alternatives of the frame on top have been taken. -/
def Configuration.taken (c : Configuration S) : Nat :=
  c.frames.head?.elim 0 fun f => f.activation.taken

/-- The call of a loop or a search. -/
def Task.repeats : Task S → Bool
  | .call g _ => g.repeats
  | _ => false

namespace Path

variable {n : Nat} {first c d d' : Configuration S} {cs later earlier : List (Configuration S)}

theorem suffix (h : Path T n (Machine.run T n) first (later ++ d :: earlier)) :
    Path T n (Machine.run T n) first (d :: earlier) := by
  induction later with
  | nil => exact h
  | cons c later ih =>
    cases later with
    | nil =>
      cases h with
      | step h _ => exact h
    | cons c' later =>
      cases h with
      | step h _ => exact ih h

theorem steps (h : Path T n (Machine.run T n) first (later ++ d' :: d :: earlier)) :
    d.Steps T d' := by
  cases h.suffix with
  | step _ hstep => exact ⟨n, hstep⟩

theorem not_steps_of_ends (h : c.ends T n = true) : ¬ c.Steps T d := by
  rintro ⟨n', hstep⟩
  obtain ⟨status, m, hended⟩ := ends_eq_true.mp h
  have hsame := (step_mono (Nat.le_max_left n n') hended).symm.trans
    (step_mono (Nat.le_max_right n n') hstep)
  cases hsame

/-- In the path of a run that has ended, each configuration stands behind the one to
which its step leads. -/
theorem next (h : Path T n (Machine.run T n) first cs)
    (hends : cs.head?.any fun c => c.ends T n) (hcs : cs = later ++ d :: earlier)
    (hsteps : d.Steps T d') : ∃ later', later = later' ++ [d'] := by
  rcases List.eq_nil_or_concat later with rfl | ⟨later', x, rfl⟩
  · rw [hcs] at hends
    exact absurd hsteps (not_steps_of_ends hends)
  · rw [List.concat_eq_append, List.append_assoc] at hcs
    rw [hcs] at h
    cases hsteps.unique h.steps
    exact ⟨later', List.concat_eq_append⟩

theorem mem_later (h : Path T n (Machine.run T n) first cs)
    (hends : cs.head?.any fun c => c.ends T n) (hcs : cs = later ++ d :: earlier)
    (hsteps : Relation.TransGen (Steps T) d d') : d' ∈ later := by
  induction hsteps using Relation.TransGen.head_induction_on generalizing later earlier with
  | single hstep =>
    obtain ⟨later', rfl⟩ := h.next hends hcs hstep
    simp
  | @head d d₁ hstep _ ih =>
    obtain ⟨later', rfl⟩ := h.next hends hcs hstep
    have hcs' : cs = later' ++ d₁ :: (d :: earlier) := by simp [hcs]
    exact List.mem_append_left _ (ih hcs')

theorem first_mem (h : Path T n (Machine.run T n) first cs) : first ∈ cs := by
  induction h with
  | first => exact List.mem_singleton_self _
  | step _ _ ih => exact List.mem_cons_of_mem _ ih

/-- A run that has ended, in which no double negation is called, came to nothing but
what is on its path. -/
theorem mem_of_reached (h : Path T n (Machine.run T n) first cs)
    (hends : cs.head?.any fun c => c.ends T n) (hnests : ∀ c ∈ cs, c.task.nests = false)
    (hd : Reached T first d) : d ∈ cs := by
  induction hd with
  | first => exact h.first_mem
  | step _ hstep ih =>
    obtain ⟨later, earlier, rfl⟩ := List.append_of_mem ih
    exact List.mem_append_left _ (h.mem_later hends rfl (.single hstep))
  | nested _ ih =>
    have hcall := hnests _ ih
    cases hcall

/-- A run that has ended branches finitely, if on its path no double negation is called
and one measure becomes smaller with each call of a loop or a search. -/
theorem finitary (h : Path T n (Machine.run T n) first cs)
    (hends : cs.head?.any fun c => c.ends T n) {N : Nat}
    (hcs : ∀ c ∈ cs, c.task.nests = false ∧ c.taken ≤ N) (μ : Store S → Nat)
    (hμ : cs.Pairwise fun d c => c.task.repeats = true → d.task.repeats = true →
      μ d.machine.world.store < μ c.machine.world.store) :
    Machine.Finitary T first where
  returns := by
    intro c hc _
    -- All that is reached is on the path, and each of its configurations but the last has a step.
    obtain ⟨later, earlier, rfl⟩ := List.append_of_mem
      (h.mem_of_reached hends (fun c hc => (hcs c hc).1) hc)
    rcases List.eq_nil_or_concat later with rfl | ⟨later', x, rfl⟩
    · obtain ⟨status, m, hended⟩ := ends_eq_true.mp hends
      exact ⟨n, _, _, hended⟩
    · rw [List.concat_eq_append, List.append_assoc] at h
      obtain ⟨n, hn⟩ := h.steps
      exact ⟨n, _, _, hn⟩
  bounded := by
    intro c f F hc _ _
    refine ⟨N, fun c' f' hc' _ hframes => ?_⟩
    have hmem := h.mem_of_reached hends (fun c hc => (hcs c hc).1) (hc'.reached hc)
    have htaken := (hcs c' hmem).2
    rw [taken, hframes] at htaken
    exact htaken
  descends := by
    intro g next m hg hc
    refine ⟨μ, fun m₁ m₂ hm₁ hm₂ => ?_⟩
    obtain ⟨c, hstep, hupon⟩ := hm₂
    obtain ⟨later, earlier, rfl⟩ := List.append_of_mem
      (h.mem_of_reached hends (fun c hc => (hcs c hc).1) (hm₁.reached hc))
    have hmem := h.mem_later hends rfl (Relation.TransGen.head' hstep hupon.steps)
    exact (List.pairwise_append.mp hμ).2.2 _ hmem ⟨.call g next, m₁⟩ List.mem_cons_self hg hg

end Path

/-! ### The three ways to run a goal -/

/-- Runs that branch finitely return, with whatever fuel that is enough. -/
theorem Machine.finitary_runs_return {g : Goal S} (hg : g.Steady) (m : Machine S) :
    (Finitary T (m.executing.first g .finish) →
      ∃ k b m', ∀ n, k ≤ n → execute T n g m = .ok b m') ∧
    (∀ t, Finitary T (m.searching.first (.sequence [g]) (.collect t .finish)) →
      ∃ k r m', ∀ n, k ≤ n → findFirst T n g t m = .ok r m') ∧
    ∀ t, Finitary T (m.searching.first (.sequence [g]) (.collect t .refuse)) →
      ∃ k as m', ∀ n, k ≤ n → findAll T n g t m = .ok as m' := by
  refine ⟨fun H => ?_, fun t H => ?_, fun t H => ?_⟩
  · obtain ⟨k, status, m', hrun⟩ := H.exists_run hg .finish
    have hexecute : execute T k g m = .ok _ _ := executeWith_apply hrun
    exact ⟨k, _, _, fun n hn => (executeWith_below (run_below hn) g .finish).ok hexecute⟩
  · obtain ⟨k, status, m', hrun⟩ := H.exists_run hg.single (.first t)
    have hfind : findFirst T k g t m = .ok _ _ :=
      bind_ok (collecting_apply (m := m) (executeWith_apply hrun))
    exact ⟨k, _, _, fun n hn => (findFirstWith_below (run_below hn) g t).ok hfind⟩
  · obtain ⟨k, status, m', hrun⟩ := H.exists_run hg.single (.all t)
    have hfind : findAll T k g t m = .ok _ _ :=
      collecting_apply (m := m) (executeWith_apply hrun)
    exact ⟨k, _, _, fun n hn => (collecting_below (run_below hn) _ _).ok hfind⟩

/-- A loop that binds two variables and is left at its first solution, and a choice. -/
def Bounds.entered : Goal Bounds.vocabulary :=
  .sequence [.once (Factor.filling Bounds.entries),
    .disjunction [.memberOf (.var ⟨2⟩) [.int 4, .int 5], .succeed]]

theorem Bounds.entered_steady : Bounds.entered.Steady := by
  refine .sequence ?_
  simp only [List.forall_mem_cons]
  refine ⟨.once (Factor.steady_filling _), .disjunction ?_, by simp⟩
  simp only [List.forall_mem_cons]
  exact ⟨Goal.steady_memberOf _ _, .succeed, by simp⟩

/-- How many of the entries are not bound. -/
def Bounds.unbound (s : Store Bounds.vocabulary) : Nat :=
  Bounds.entries.countP fun f => s.isUnbound f.var

/-- What is to be seen on the path of a short run: it has ended, no double negation is
called, few alternatives are taken, and each call of a loop finds fewer variables that
are not bound. -/
def Bounds.Ends (first : Configuration Bounds.vocabulary) : Prop :=
  let cs := pathFrom Bounds.theory 9 (Machine.run Bounds.theory 9) first 60
  (cs.head?.any fun c => c.ends Bounds.theory 9) = true ∧
    (∀ c ∈ cs, c.task.nests = false ∧ c.taken ≤ 9) ∧
    cs.Pairwise fun d c => c.task.repeats = true → d.task.repeats = true →
      Bounds.unbound d.machine.world.store < Bounds.unbound c.machine.world.store

instance (first : Configuration Bounds.vocabulary) : Decidable (Bounds.Ends first) :=
  inferInstanceAs (Decidable (_ ∧ _ ∧ _))

theorem Bounds.Ends.finitary {first : Configuration Bounds.vocabulary} (h : Bounds.Ends first) :
    Machine.Finitary Bounds.theory first :=
  (path_pathFrom Bounds.theory 9 _ first 60).finitary h.1 h.2.1 Bounds.unbound h.2.2

/-- On a machine that has been used before, a run to the first solution returns, and so do
those for the templates of the first one and of all. -/
theorem Machine.finitary_runs_return_entered :
    let t : Bounds.vocabulary.Term := .list [.var ⟨1⟩, .var ⟨2⟩]
    ∃ k b r as m₁ m₂ m₃, execute Bounds.theory k Bounds.entered Bounds.used = .ok b m₁ ∧
      findFirst Bounds.theory k Bounds.entered t Bounds.used = .ok r m₂ ∧
      findAll Bounds.theory k Bounds.entered t Bounds.used = .ok as m₃ := by
  intro t
  obtain ⟨hexecute, hfirst, hall⟩ :=
    Machine.finitary_runs_return (T := Bounds.theory) Bounds.entered_steady Bounds.used
  obtain ⟨k, b, m₁, h₁⟩ := hexecute (Bounds.Ends.finitary (by decide +kernel))
  obtain ⟨k', r, m₂, h₂⟩ := hfirst t (Bounds.Ends.finitary (by decide +kernel))
  obtain ⟨k'', as, m₃, h₃⟩ := hall t (Bounds.Ends.finitary (by decide +kernel))
  exact ⟨k + k' + k'', b, r, as, m₁, m₂, m₃, h₁ _ (by omega), h₂ _ (by omega), h₃ _ (by omega)⟩

/-- A variable that is bound to a cell that holds it. -/
def Bounds.knotted : Machine Bounds.vocabulary :=
  ⟨.new .standard, ⟨⟨#[.fresh, ⟨.ordinary none, some (.var ⟨2⟩)⟩, ⟨.cell, some (.var ⟨1⟩)⟩]⟩, 0, (),
    []⟩, []⟩

/-- A run for answers does not return if it comes to a solution at which its template has
no copy. -/
theorem Machine.collecting_ne_of_steps {g : Goal S} (hg : g.Steady) {t : S.Term}
    {m m' : Machine S} {next : Continuation S} (hnext : (Continuation.collect t next).Entry)
    (hsteps : Relation.ReflTransGen (Steps T)
      (m.searching.first (.sequence [g]) (.collect t next)) ⟨.proceed (.collect t next), m'⟩)
    (h : ∀ n, ¬ T.Copied n t m'.world.store) (n : Nat) (as : List S.Term) (m'' : Machine S) :
    collecting (executeWith (run T n) (.sequence [g]) (.collect t next)) m ≠ .ok as m'' := by
  intro hok
  have hhalts : Halts T (m.searching.first (.sequence [g]) (.collect t next)) := by
    cases n with
    | zero => cases hok
    | succ n =>
      obtain ⟨status, m₁, hdrive, -⟩ := (collecting_eq_ok hg hnext).mp ⟨m'', hok, .refl _⟩
      exact ⟨n, status, m₁, hdrive⟩
  obtain ⟨k, status, m₂, hdrive⟩ := hhalts.of_steps hsteps
  obtain ⟨-, a, m₃, -, hproceed, -⟩ := drive_collected hdrive
  have hcopied := copied_of_collect hproceed
  exact h k hcopied

theorem Machine.collecting_ne_of_not_copied {t : S.Term} {m : Machine S}
    (h : ∀ n, ¬ T.Copied n t m.world.store) {next : Continuation S}
    (hnext : (Continuation.collect t next).Entry) (n : Nat) (as : List S.Term) (m' : Machine S) :
    collecting (executeWith (run T n) (.sequence [.succeed]) (.collect t next)) m ≠ .ok as m' := by
  have hsequence : Steps T (m.searching.first (.sequence [.succeed]) (.collect t next)) _ :=
    steps_single _
  exact collecting_ne_of_steps .succeed hnext (.head hsequence (.single steps_succeed)) h n as m'

/-- A run whose code returns and that calls no goal twice does not return if its code
puts a new engine in place of one with a trail.  A run for answers does not return if
its template has no copy, though there is no code in it. -/
theorem Machine.renewals_and_knots_never_return :
    (Finitary Bounds.theory (Bounds.used.executing.first Bounds.renewal .finish) ∧
        ∀ n b m, execute Bounds.theory n Bounds.renewal Bounds.used ≠ .ok b m) ∧
      (∀ n r m, findFirst Bounds.theory n .succeed (.var ⟨1⟩) Bounds.knotted ≠ .ok r m) ∧
      ∀ n as m, findAll Bounds.theory n .succeed (.var ⟨1⟩) Bounds.knotted ≠ .ok as m := by
  have hcopied := (Bounds.theory.endless_of_knot (s := Bounds.knotted.world.store) (v := ⟨1⟩)
    (w := ⟨2⟩) rfl (Term.var?_eq_some.mp (by decide +kernel)) rfl rfl).1
  have hstops : stop? (execute Bounds.theory 9 Bounds.renewal) Bounds.used =
      some (.fault .unbalancedTrail) := by
    decide +kernel
  obtain ⟨m₀, hm₀⟩ := stop?_eq_some.mp hstops
  refine ⟨⟨Bounds.Ends.finitary (by decide +kernel), fun n b m hok => ?_⟩,
    fun n r m hok => ?_, fun n => collecting_ne_of_not_copied hcopied (.all _) n⟩
  · have hbelow : ∀ {i}, i ≤ max n 9 → Below (execute Bounds.theory i Bounds.renewal)
        (execute Bounds.theory (max n 9) Bounds.renewal) := fun hi =>
      executeWith_below (run_below hi) _ _
    have hsame := ((hbelow (Nat.le_max_left n 9)).ok hok).symm.trans
      (((hbelow (Nat.le_max_right n 9)).outcome _).fault hm₀)
    cases hsame
  · obtain ⟨as, m', hcollecting, -⟩ := bind_eq_ok.mp hok
    exact collecting_ne_of_not_copied hcopied (.first _) n as m' hcollecting

end GoalSearch
