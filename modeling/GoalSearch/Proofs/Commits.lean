/-
What the counter of commits counts.

A commit drops all frames above a height at once: none if nothing was left open inside,
and as many as there are open alternatives otherwise.  The counter of commits goes up by
one each time, whatever is dropped.  So it is the number of commits, and makes up for
the frames that are neither popped nor retired only if the commits have dropped one
frame each on average.

* `Goal.Accountable.steady` — code that leaves the counters alone is steady;
* `Machine.Commits` — the number of commits since a start, and the number of frames that
  they have dropped;
* `Machine.History.commits` — the counter is the number of commits;
* `Machine.commits_counted` — the counters of a new engine after any number of runs.
-/
import GoalSearch.Proofs.Ledger

namespace GoalSearch

open GoalSearch.Action

variable {S : Vocabulary} {T : Theory S}

/-! ### Accountable code is steady -/

/-- Accountable programs put no new engine in place of the one that runs them. -/
theorem Program.Accountable.steady {P Q : Goal S → Prop} (hPQ : ∀ g, P g → Q g) {κ : Kind}
    {p : Program S (Goal S) κ} (hp : p.Accountable P) : p.Steady Q := by
  induction hp with
  | verdict b => exact .verdict b
  | attempt r => exact .attempt r
  | candidates _ ih => exact .candidates ih
  | choices _ ih => exact .choices ih
  | ask _ ih => exact .ask ih
  | unify _ ih => exact .unify ih
  | execute hg _ ih => exact .execute (hPQ _ hg) ih
  | findFirst hg _ ih => exact .findFirst (hPQ _ hg) ih
  | findAll hg _ ih => exact .findAll (hPQ _ hg) ih
  | view _ ih => exact .view ih
  | loop _ _ ihround ih => exact .loop ihround ih

theorem Goal.Accountable.steady {g : Goal S} (hg : g.Accountable) : g.Steady := by
  refine @Goal.Accountable.rec S (fun g _ => g.Steady) (fun p _ => p.Steady Goal.Steady)
    ?succeed ?fail ?nondeterministic ?semideterministic ?deterministic ?sequence ?disjunction
    ?once ?notNot ?loop ?search ?verdict ?attempt ?candidates ?choices ?ask ?unify ?execute
    ?findFirst ?findAll ?view ?rounds g hg
  case succeed => exact .succeed
  case fail => exact .fail
  case nondeterministic => exact fun _ _ => .nondeterministic
  case semideterministic => exact fun _ _ => .semideterministic
  case deterministic => exact fun _ => .deterministic
  case sequence => exact fun _ => .sequence
  case disjunction => exact fun _ => .disjunction
  case once => exact fun _ => .once
  case notNot => exact fun _ => .notNot
  case loop => exact fun _ => .loop
  case search => exact fun _ => .search
  case verdict => exact .verdict
  case attempt => exact .attempt
  case candidates => exact fun _ => .candidates
  case choices => exact fun _ => .choices
  case ask => exact fun _ => .ask
  case unify => exact fun _ => .unify
  case execute => exact fun _ _ => .execute
  case findFirst => exact fun _ _ => .findFirst
  case findAll => exact fun _ _ => .findAll
  case view => exact fun _ => .view
  case rounds => exact fun _ _ => .loop

namespace Machine

variable {start m m' : Machine S} {past : List (Machine S)} {dropped removed : Nat}

/-! ### Commits, and what they drop -/

/-- The number of commits on the way from a start, and the number of frames that they
have dropped together. -/
inductive Commits (T : Theory S) (start : Machine S) : Nat → Nat → Machine S → Prop
  | start : Commits T start 0 0 start
  | commit {commits dropped : Nat} {m : Machine S} (height : Nat) :
      Commits T start commits dropped m →
      Commits T start (commits + 1) (dropped + (m.engine.depth - height)) (m.committed height)
  | move {commits dropped : Nat} {m m' : Machine S} :
      Commits T start commits dropped m → Moves T m 0 m' → (∀ height, m' ≠ m.committed height) →
      Commits T start commits dropped m'

/-- A move is a commit, or it drops nothing and leaves the counter of commits alone. -/
theorem Moves.commits (h : m.engine.config.statistics = true) (hmove : Moves T m removed m') :
    (∃ height, m' = m.committed height ∧ removed = m.engine.depth - height) ∨
      (removed = 0 ∧
        m'.engine.statistics.count .commits = m.engine.statistics.count .commits) := by
  cases hmove with
  | push mark a => exact .inr ⟨rfl, count_pushed m h mark a _⟩
  | @pop f fs => exact .inr ⟨rfl, count_popped m h f fs _⟩
  | @retire f fs => exact .inr ⟨rfl, count_retired m h fs _⟩
  | commit height => exact .inl ⟨height, rfl, rfl⟩
  | undo mark => exact .inr ⟨rfl, count_undone m h mark _⟩
  | unify hunify => exact .inr ⟨rfl, (unify_counts h hunify).2.2 _⟩
  | aside haside => exact .inr ⟨rfl, haside.counters _ (by simp) (by simp)⟩

/-- The counter of commits goes up by one with each commit, whatever it drops. -/
theorem History.commits (h : History T start past dropped m)
    (hon : start.engine.config.statistics = true) :
    ∃ commits, Commits T start commits dropped m ∧
      m.engine.statistics.count .commits = start.engine.statistics.count .commits + commits := by
  induction h with
  | start => exact ⟨0, .start, rfl⟩
  | @move _ _ _ m m' h hmove ih =>
    obtain ⟨commits, hcommits, hcount⟩ := ih
    have hstatistics : m.engine.config.statistics = true := by rw [h.config, hon]
    have hcommitted := fun height => count_committed m hstatistics height .commits
    rcases hmove.commits hstatistics with ⟨height, rfl, rfl⟩ | ⟨rfl, hsame⟩
    · refine ⟨commits + 1, .commit height hcommits, ?_⟩
      rw [hcommitted, if_pos rfl, hcount]
      omega
    · refine ⟨commits, .move hcommits hmove fun height heq => ?_, by rw [hsame, hcount]⟩
      -- a commit would have been counted
      have hcounted := hcommitted height
      rw [← heq, if_pos rfl] at hcounted
      omega

/-! ### The counters after runs -/

/-- An application works with a new engine that keeps counters, and neither clears them
nor puts another engine in its place.  After any number of runs, the frames that were
pushed are those that were popped, those that were retired, and those that commits have
dropped; the counter of commits is the number of commits.  So it accounts for the
missing frames if and only if there are as many of them as there were commits. -/
theorem commits_counted (T : Theory S) (n : Nat) {config : Config}
    (hstart : start.engine = .new config) (hconfig : config.statistics = true) {κ : Kind}
    {p : Program S (Goal S) κ} (hp : p.Accountable Goal.Accountable)
    {a : Program.Value S (Goal S) κ} (h : p.exec T n (run T n) start = .ok a m) :
    ∃ commits dropped, Commits T start commits dropped m ∧ m.engine.frames = [] ∧
      m.engine.statistics.count .commits = commits ∧
      m.engine.statistics.count .framesPushed = m.engine.statistics.count .framesPopped +
        m.engine.statistics.count .framesRetired + dropped ∧
      (m.engine.statistics.count .framesPushed = m.engine.statistics.count .framesPopped +
        m.engine.statistics.count .framesRetired + m.engine.statistics.count .commits ↔
          dropped = commits) := by
  have hcharts := exec_charts_of_new (T := T) (n := n) hstart hp
  rw [Leaves, h] at hcharts
  obtain ⟨past, dropped, hhistory⟩ := History.start.later hcharts.1
  obtain ⟨commits, hcommits, hcount⟩ := hhistory.commits (by rw [hstart]; exact hconfig)
  have hstays := Program.exec_stays (Scope.history_grows T) requirement_true.mono
    (run_sound (Scope.history_grows T) requirement_true n) n
    (hp.steady fun _ hg => hg.steady) start trivial
  have hframes : m.engine.frames = [] := by
    rw [(hstays.ok h).frames, hstart]
    rfl
  -- A new engine starts with nothing on the stack and with counters at zero.
  have hnone : start.engine.statistics.count .commits = 0 := by
    rw [hstart]
    rfl
  have hbalanced := (hhistory.balanced hstart hconfig).frames
  rw [Engine.depth, hframes, List.length_nil, Nat.add_zero] at hbalanced
  rw [hnone, Nat.zero_add] at hcount
  exact ⟨commits, dropped, hcommits, hframes, hcount, hbalanced, by omega⟩

/-- Three commits dropped two frames each. -/
theorem commits_counted_audit :
    Commits Bounds.theory Bounds.fresh 3 6 Bounds.audited ∧ Bounds.audited.engine.frames = [] := by
  let audit : Action (Machine Bounds.vocabulary) Bool :=
    Bounds.audit.exec Bounds.theory 60 (run Bounds.theory 60)
  have hresult : result? audit Bounds.fresh = some true := by decide +kernel
  obtain ⟨m, hm⟩ := result?_eq_some.mp hresult
  have hend : m = Bounds.audited := by
    show m = audit.last Bounds.fresh
    rw [last, hm]
  have hstart : Bounds.fresh.engine = .new .standard := rfl
  obtain ⟨commits, dropped, hcommits, hframes, hcount, hpushed, -⟩ :=
    commits_counted Bounds.theory 60 hstart rfl Bounds.audit_accountable hm
  rw [hend] at hcommits hframes hcount hpushed
  have hthree : Bounds.audited.engine.statistics.count .commits = 3 := by decide +kernel
  have hsix : Bounds.audited.engine.statistics.count .framesPushed =
      Bounds.audited.engine.statistics.count .framesPopped +
        Bounds.audited.engine.statistics.count .framesRetired + 6 := by decide +kernel
  -- The counters leave no other numbers.
  obtain rfl : commits = 3 := by omega
  obtain rfl : dropped = 6 := by omega
  exact ⟨hcommits, hframes⟩

end Machine

/-- The machine after a run of a goal by a new engine. -/
def Bounds.ended (g : Goal Bounds.vocabulary) : Machine Bounds.vocabulary :=
  (Machine.execute Bounds.theory 30 g).last Bounds.fresh

/-- A goal that leaves two alternatives open, committed to its first solution. -/
def Bounds.pruned : Goal Bounds.vocabulary :=
  .once (.sequence [.memberOf (.var ⟨1⟩) [.int 1, .int 2], .memberOf (.var ⟨2⟩) [.int 1, .int 2]])

/-- A commit drops no frame where nothing was left open, and two frames where there are
two open alternatives, and counts as one both times.  The counter of commits makes up
for the frames that are neither popped nor retired neither here nor there. -/
theorem Machine.commits_miscounted :
    (result? (execute Bounds.theory 30 (.once .succeed)) Bounds.fresh = some true ∧
      (Bounds.ended (.once .succeed)).engine.statistics.count .framesPushed = 2 ∧
      (Bounds.ended (.once .succeed)).engine.statistics.count .framesPopped = 1 ∧
      (Bounds.ended (.once .succeed)).engine.statistics.count .framesRetired = 1 ∧
      (Bounds.ended (.once .succeed)).engine.statistics.count .commits = 1) ∧
    result? (execute Bounds.theory 30 Bounds.pruned) Bounds.fresh = some true ∧
      (Bounds.ended Bounds.pruned).engine.statistics.count .framesPushed = 4 ∧
      (Bounds.ended Bounds.pruned).engine.statistics.count .framesPopped = 1 ∧
      (Bounds.ended Bounds.pruned).engine.statistics.count .framesRetired = 1 ∧
      (Bounds.ended Bounds.pruned).engine.statistics.count .commits = 1 := by
  decide +kernel

end GoalSearch
