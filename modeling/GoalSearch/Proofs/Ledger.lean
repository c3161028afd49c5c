/-
What the counters of an engine account for.

All that an engine does to its stack and its trail is a sequence of moves: frames
are pushed, popped, retired and committed away, bindings are undone, terms are
unified, and everything in between leaves depth, trail and the counters of frames
and bindings alone.  Every move keeps the books balanced, so they are balanced after
any sequence of moves from a new engine, and whatever an application makes the engine
do is such a sequence.

* `Program.Accountable`, `Goal.Accountable` — code that neither clears the counters
  nor puts a new engine in place of the one that runs it;
* `Machine.Moves`, `Machine.History` — single moves, and all machines since a start;
* `Machine.Balanced`, `Machine.History.balanced` — bindings and frames are accounted
  for, and the deepest stack is the deepest of the history;
* `Machine.exec_charts` — what programs do is a sequence of moves;
* `Machine.counters_account` — the counters of a new engine account for everything
  that programs make it do, also where they stop.

Design notes: a stop keeps the state in which it happened.  Code that never goes on
from some point runs out of fuel there, so a statement about stops for all programs
and goals is one about every point at which an application has control.  A unification
that stops is the exception: its bindings are counted at its end.
-/
import GoalSearch.Proofs.Balance
import GoalSearch.Proofs.Rows

namespace GoalSearch

open GoalSearch.Action

variable {S : Vocabulary} {T : Theory S} {α β : Type}

/-! ### Computations and the states in which they stop -/

namespace Action

variable {σ : Type}

/-- A computation that ends does so as `post` says, and one that stops does so in a
state that `halt` allows. -/
def Leaves (x : Action σ α) (s : σ) (post : α → σ → Prop) (halt : σ → Prop) : Prop :=
  match x s with
  | .ok a t => post a t
  | .error _ t => halt t

variable {x : Action σ α} {f : α → Action σ β} {s t : σ} {a : α} {post post' : α → σ → Prop}
  {halt halt' : σ → Prop}

theorem Leaves.mono (h : Leaves x s post halt) (hpost : ∀ a t, post a t → post' a t)
    (hhalt : ∀ t, halt t → halt' t) : Leaves x s post' halt' := by
  unfold Leaves at h ⊢
  cases hx : x s with
  | ok a t =>
    rw [hx] at h
    exact hpost a t h
  | error e t =>
    rw [hx] at h
    exact hhalt t h

theorem leaves_of_eq_ok (hx : x s = .ok a t) : Leaves x s post halt ↔ post a t := by
  rw [Leaves, hx]

theorem leaves_bind {post : β → σ → Prop} :
    Leaves (x >>= f) s post halt ↔ Leaves x s (fun a t => Leaves (f a) t post halt) halt := by
  simp only [Leaves, bind_apply]
  cases x s <;> rfl

theorem leaves_onPart {τ : Type} {part : σ → τ} {update : τ → σ → σ} {x : Action τ α}
    {s : σ} (h : ∀ a t, x (part s) = .ok a t → post a (update t s))
    (hhalt : ∀ e t, x (part s) = .error e t → halt (update t s)) :
    Leaves (onPart part update x) s post halt := by
  rw [Leaves, onPart]
  cases hx : x (part s) with
  | ok a t => exact h a t hx
  | error e t => exact hhalt e t hx

end Action

/-! ### Code that leaves the counters alone -/

/-- Programs that neither clear the counters nor put a new engine in place of the one
that runs them, and whose goals are all in `P`. -/
inductive Program.Accountable (P : Goal S → Prop) : {κ : Kind} → Program S (Goal S) κ → Prop
  | verdict (b : Bool) : Accountable P (.verdict b)
  | attempt (r : Option Bool) : Accountable P (.attempt r)
  | candidates {draw : Nat → Quiet S (Option (Program S (Goal S) .verdict))} :
      (∀ i p, (draw i).Yields (some p) → Accountable P p) → Accountable P (.candidates draw)
  | choices {make : Option (Nat → Program S (Goal S) .attempt)} :
      (∀ f, make = some f → ∀ i, Accountable P (f i)) → Accountable P (.choices make)
  | ask {κ : Kind} {q : Ask S} {next : q.Answer → Program S (Goal S) κ} :
      (∀ x, Accountable P (next x)) → Accountable P (.ask q next)
  | unify {κ : Kind} {a b : S.Term} {next : Bool → Program S (Goal S) κ} :
      (∀ r, Accountable P (next r)) → Accountable P (.unify a b next)
  | execute {κ : Kind} {g : Goal S} {next : Bool → Program S (Goal S) κ} :
      P g → (∀ r, Accountable P (next r)) → Accountable P (.execute g next)
  | findFirst {κ : Kind} {g : Goal S} {t : S.Term} {next : Option S.Term → Program S (Goal S) κ} :
      P g → (∀ r, Accountable P (next r)) → Accountable P (.findFirst g t next)
  | findAll {κ : Kind} {g : Goal S} {t : S.Term} {next : List S.Term → Program S (Goal S) κ} :
      P g → (∀ r, Accountable P (next r)) → Accountable P (.findAll g t next)
  | view {κ : Kind} {next : View → Program S (Goal S) κ} :
      (∀ v, Accountable P (next v)) → Accountable P (.view next)
  | loop {κ : Kind} {round : Program S (Goal S) .attempt} {next : Bool → Program S (Goal S) κ} :
      Accountable P round → (∀ r, Accountable P (next r)) → Accountable P (.loop round next)

/-- Goals that only run programs that neither clear the counters nor put a new engine
in place of the one that runs them, and so do all goals that these programs run. -/
inductive Goal.Accountable : Goal S → Prop
  | succeed : Accountable .succeed
  | fail : Accountable .fail
  | nondeterministic {prepare : Program S (Goal S) .candidates}
      {validate : Program S (Goal S) .verdict} :
      prepare.Accountable Goal.Accountable → validate.Accountable Goal.Accountable →
      Accountable (.call (.nondeterministic prepare validate))
  | semideterministic {prepare validate : Program S (Goal S) .verdict} :
      prepare.Accountable Goal.Accountable → validate.Accountable Goal.Accountable →
      Accountable (.call (.semideterministic prepare validate))
  | deterministic {prepare : Program S (Goal S) .verdict} :
      prepare.Accountable Goal.Accountable → Accountable (.call (.deterministic prepare))
  | sequence {gs : List (Goal S)} : (∀ g ∈ gs, Accountable g) → Accountable (.sequence gs)
  | disjunction {gs : List (Goal S)} : (∀ g ∈ gs, Accountable g) → Accountable (.disjunction gs)
  | once {g : Goal S} : Accountable g → Accountable (.once g)
  | notNot {g : Goal S} : Accountable g → Accountable (.notNot g)
  | loop {test : View → Quiet S Bool} {body : View → Quiet S (Goal S)} :
      (∀ v g, (body v).Yields g → Accountable g) → Accountable (.loop test body)
  | search {handler : Quiet S (Program S (Goal S) .choices)} :
      (∀ p, handler.Yields p → p.Accountable Goal.Accountable) → Accountable (.search handler)

/-- Values whose programs are accountable. -/
def Program.Value.Accountable : {κ : Kind} → Program.Value S (Goal S) κ → Prop
  | .verdict, _ => True
  | .attempt, _ => True
  | .candidates, draw => ∀ i p, (draw i).Yields (some p) → p.Accountable Goal.Accountable
  | .choices, make => ∀ f, make = some f → ∀ i, (f i).Accountable Goal.Accountable

/-- Continuations whose goals are accountable. -/
def Continuation.Accountable : Continuation S → Prop
  | .finish => True
  | .sequence rest next => (∀ g ∈ rest, g.Accountable) ∧ next.Accountable
  | .call g next => g.Accountable ∧ next.Accountable
  | .commit _ next => next.Accountable
  | .collect _ next => next.Accountable
  | .refuse => True

/-- Activations whose goals and programs are accountable. -/
def Activation.Accountable : Activation S → Prop
  | .sentinel => True
  | .step => True
  | .candidates draw _ validate next =>
    (∀ i p, (draw i).Yields (some p) → p.Accountable Goal.Accountable) ∧
      validate.Accountable Goal.Accountable ∧ next.Accountable
  | .branches rest next => (∀ g ∈ rest, g.Accountable) ∧ next.Accountable
  | .search handler choices next =>
    (∀ p, handler.Yields p → p.Accountable Goal.Accountable) ∧
      (∀ make made, choices = some (make, made) → ∀ i, (make i).Accountable Goal.Accountable) ∧
      next.Accountable

/-- Tasks whose goals are accountable. -/
def Task.Accountable : Task S → Prop
  | .call g next => g.Accountable ∧ next.Accountable
  | .proceed next => next.Accountable
  | .retry => True
  | .backtrack => True

/-- Outcomes of a step after which the task is accountable. -/
def Progress.Accountable : Progress S → Prop
  | .task t => t.Accountable
  | .ended _ => True

theorem Task.accountable_sequence {rest : List (Goal S)} {next : Continuation S}
    (hrest : ∀ g ∈ rest, g.Accountable) (hnext : next.Accountable) :
    (Task.sequence rest next).Accountable := by
  match rest with
  | [] => exact hnext
  | [g] => exact ⟨hrest g (by simp), hnext⟩
  | g :: g' :: rest =>
    exact ⟨hrest g (by simp), fun x hx => hrest x (List.mem_cons_of_mem _ hx), hnext⟩

theorem Task.accountable_ofVerdict {b : Bool} {next : Continuation S} (hnext : next.Accountable) :
    (Task.ofVerdict b next).Accountable := by
  cases b with
  | true => exact hnext
  | false => trivial

namespace Machine

/-! ### Moves -/

/-- Two machines of the same depth, with the same trail and the same counters, calls
and retries aside. -/
structure Aside (m m' : Machine S) : Prop where
  config : m'.engine.config = m.engine.config
  depth : m'.engine.depth = m.engine.depth
  trail : m'.engine.trail = m.engine.trail
  counters : ∀ c, c ≠ .calls → c ≠ .retries →
    m'.engine.statistics.count c = m.engine.statistics.count c

/-- What an engine does to its stack, its trail and its counters, and the number of
frames that a commit drops. -/
inductive Moves (T : Theory S) : Machine S → Nat → Machine S → Prop
  | push (m : Machine S) (mark : Nat) (a : Activation S) : Moves T m 0 (m.pushed mark a)
  | pop {m : Machine S} {f : Frame S} {fs : List (Frame S)} :
      m.engine.frames = f :: fs → Moves T m 0 (m.popped f fs)
  | retire {m : Machine S} {f : Frame S} {fs : List (Frame S)} :
      m.engine.frames = f :: fs → Moves T m 0 (m.retired fs)
  | commit (m : Machine S) (height : Nat) :
      Moves T m (m.engine.depth - height) (m.committed height)
  | undo (m : Machine S) (mark : Nat) : Moves T m 0 (m.undone mark)
  | unify {m m' : Machine S} {fuel : Nat} {a b : S.Term} {r : Bool} :
      Machine.unify T fuel a b m = .ok r m' → Moves T m 0 m'
  | aside {m m' : Machine S} : m.Aside m' → Moves T m 0 m'

/-- All machines that an engine went through since a start, newest first, and the number
of frames that commits have dropped since then. -/
inductive History (T : Theory S) (start : Machine S) : List (Machine S) → Nat → Machine S → Prop
  | start : History T start [start] 0 start
  | move {past : List (Machine S)} {dropped removed : Nat} {m m' : Machine S} :
      History T start past dropped m → Moves T m removed m' →
      History T start (m' :: past) (dropped + removed) m'

/-- The books of an engine: bindings are undone or on the trail, frames are popped,
retired, dropped by commits or on the stack, and the deepest stack is the deepest of
all machines in `past`. -/
structure Balanced (past : List (Machine S)) (dropped : Nat) (m : Machine S) : Prop where
  bindings : m.engine.statistics.count .bindings =
    m.engine.statistics.count .bindingsUndone + m.engine.trail.length
  frames : m.engine.statistics.count .framesPushed =
    m.engine.statistics.count .framesPopped + m.engine.statistics.count .framesRetired +
      dropped + m.engine.depth
  deepest : (∀ m' ∈ past, m'.engine.depth ≤ m.engine.statistics.count .maxDepth) ∧
    ∃ m' ∈ past, m'.engine.depth = m.engine.statistics.count .maxDepth

/-! ### Every move keeps the books -/

section Counts

variable (m : Machine S)

theorem count_counted (h : m.engine.config.statistics = true) (c k : Counter) (n : Nat) :
    (m.counted c n).engine.statistics.count k =
      m.engine.statistics.count k + if c = k then n else 0 := by
  simp only [counted, h, Bool.true_and, bne_iff_ne, ne_eq, ite_not]
  split
  · next hn => simp [hn]
  · by_cases hc : c = k
    · subst hc
      simp [Tally.count, Tally.get?_add]
    · simp [Tally.count, Tally.get?_add, hc]

theorem count_measured (h : m.engine.config.statistics = true) (k : Counter) :
    m.measured.engine.statistics.count k =
      if k = .maxDepth then max (m.engine.statistics.count .maxDepth) m.engine.depth
      else m.engine.statistics.count k := by
  simp only [measured, h, if_true]
  by_cases hk : k = .maxDepth
  · subst hk
    simp [Tally.count, Tally.get?_raise]
  · simp [Tally.count, Tally.get?_raise, hk, Ne.symm hk]

theorem count_pushed (h : m.engine.config.statistics = true) (mark : Nat) (a : Activation S)
    (k : Counter) :
    (m.pushed mark a).engine.statistics.count k =
      if k = .maxDepth then max (m.engine.statistics.count .maxDepth) (m.engine.depth + 1)
      else m.engine.statistics.count k + if .framesPushed = k then 1 else 0 := by
  have hpushed := count_counted
    ((m.noted (.pushed a.kind (m.engine.depth + 1))).withFrames (⟨a, mark⟩ :: m.engine.frames)) h
    .framesPushed
  rw [pushed, count_measured _ (by exact h), hpushed, hpushed]
  rfl

theorem count_undone (h : m.engine.config.statistics = true) (mark : Nat) (k : Counter) :
    (m.undone mark).engine.statistics.count k =
      m.engine.statistics.count k +
        if .bindingsUndone = k then m.engine.trail.length - mark else 0 :=
  count_counted (m.withScope (m.scope.backtracked mark)) h _ _ _

theorem count_popped (h : m.engine.config.statistics = true) (f : Frame S)
    (fs : List (Frame S)) (k : Counter) :
    (m.popped f fs).engine.statistics.count k =
      m.engine.statistics.count k +
        (if .bindingsUndone = k then m.engine.trail.length - f.mark else 0) +
        if .framesPopped = k then 1 else 0 := by
  have hundone := count_undone
    ((m.withFrames fs).noted (.popped f.activation.kind (fs.length + 1))) h f.mark
  rw [popped, count_counted _ (by exact h), hundone]
  rfl

theorem count_retired (h : m.engine.config.statistics = true) (fs : List (Frame S))
    (k : Counter) :
    (m.retired fs).engine.statistics.count k =
      m.engine.statistics.count k + if .framesRetired = k then 1 else 0 :=
  count_counted (m.withFrames fs) h _ _ _

theorem count_committed (h : m.engine.config.statistics = true) (height : Nat) (k : Counter) :
    (m.committed height).engine.statistics.count k =
      m.engine.statistics.count k + if .commits = k then 1 else 0 :=
  count_counted ((m.withFrames _).noted (.committed (m.engine.depth - height) height)) h _ _ _

end Counts

variable {start m m' : Machine S} {past : List (Machine S)} {dropped removed : Nat}

/-- The settings stay what they are. -/
theorem Moves.config (h : Moves T m removed m') : m'.engine.config = m.engine.config := by
  cases h with
  | unify h =>
    rw [unify_apply] at h
    split at h
    · cases h
      rfl
    · cases h
  | aside h => exact h.config
  | _ => rfl

/-- What a unification leaves: the stack, and a longer trail whose new entries are
counted. -/
theorem unify_counts (h : m.engine.config.statistics = true) {fuel : Nat} {a b : S.Term} {r : Bool}
    (hm : Machine.unify T fuel a b m = .ok r m') :
    m'.engine.frames = m.engine.frames ∧
      m.engine.trail.length ≤ m'.engine.trail.length ∧
      ∀ k, m'.engine.statistics.count k = m.engine.statistics.count k +
        if .bindings = k then m'.engine.trail.length - m.engine.trail.length else 0 := by
  rw [unify_apply] at hm
  split at hm
  · next r c hc =>
    cases hm
    have hgrows := (unify_grows T fuel a b m.scope trivial).ok hc
    exact ⟨rfl, hgrows.length_le, fun k => count_counted (m.withScope c) h _ _ _⟩
  · cases hm

theorem Balanced.deepest_of_le (hb : Balanced past dropped m)
    (hcount : m'.engine.statistics.count .maxDepth = m.engine.statistics.count .maxDepth)
    (hdepth : m'.engine.depth ≤ m.engine.depth) (hm : m ∈ past) :
    (∀ x ∈ m' :: past, x.engine.depth ≤ m'.engine.statistics.count .maxDepth) ∧
      ∃ x ∈ m' :: past, x.engine.depth = m'.engine.statistics.count .maxDepth := by
  obtain ⟨hle, x, hx, heq⟩ := hb.deepest
  rw [hcount, List.forall_mem_cons]
  exact ⟨⟨Nat.le_trans hdepth (hle m hm), hle⟩, x, List.mem_cons_of_mem _ hx, heq⟩

section Balanced

variable (h : m.engine.config.statistics = true) (hb : Balanced past dropped m)

include h hb

theorem Balanced.pushed (mark : Nat) (a : Activation S) :
    Balanced (m.pushed mark a :: past) dropped (m.pushed mark a) := by
  have hframes := hb.frames
  obtain ⟨hle, x, hx, heq⟩ := hb.deepest
  refine ⟨?_, ?_, ?_⟩
  · rw [count_pushed m h, count_pushed m h]
    exact hb.bindings
  · rw [count_pushed m h, count_pushed m h, count_pushed m h]
    show _ + 1 = _ + 0 + (_ + 0) + dropped + (m.engine.depth + 1)
    omega
  · rw [count_pushed m h, if_pos rfl, List.forall_mem_cons]
    refine ⟨⟨Nat.le_max_right _ _, fun y hy => Nat.le_trans (hle y hy) (Nat.le_max_left _ _)⟩, ?_⟩
    rcases Nat.le_total (m.engine.statistics.count .maxDepth) (m.engine.depth + 1) with hd | hd
    · exact ⟨_, List.mem_cons_self, by rw [Nat.max_eq_right hd]; rfl⟩
    · exact ⟨x, List.mem_cons_of_mem _ hx, by rw [Nat.max_eq_left hd, heq]⟩

variable (hm : m ∈ past)

include hm

theorem Balanced.popped {f : Frame S} {fs : List (Frame S)} (hfs : m.engine.frames = f :: fs) :
    Balanced (m.popped f fs :: past) dropped (m.popped f fs) := by
  have hbindings := hb.bindings
  have hframes := hb.frames
  have hdepth : m.engine.depth = fs.length + 1 := by rw [Engine.depth, hfs]; rfl
  refine ⟨?_, ?_, hb.deepest_of_le (count_popped m h f fs .maxDepth) ?_ hm⟩
  · rw [count_popped m h, count_popped m h, length_popped m f fs]
    show _ + 0 + 0 = _ + (m.engine.trail.length - f.mark) + 0 + _
    omega
  · rw [count_popped m h, count_popped m h, count_popped m h]
    show _ + 0 + 0 = _ + 0 + 1 + (_ + 0 + 0) + dropped + fs.length
    omega
  · show fs.length ≤ _
    omega

theorem Balanced.retired {f : Frame S} {fs : List (Frame S)} (hfs : m.engine.frames = f :: fs) :
    Balanced (m.retired fs :: past) dropped (m.retired fs) := by
  have hframes := hb.frames
  have hdepth : m.engine.depth = fs.length + 1 := by rw [Engine.depth, hfs]; rfl
  refine ⟨?_, ?_, hb.deepest_of_le (count_retired m h fs .maxDepth) ?_ hm⟩
  · rw [count_retired m h, count_retired m h]
    exact hb.bindings
  · rw [count_retired m h, count_retired m h, count_retired m h]
    show _ + 0 = _ + 0 + (_ + 1) + dropped + fs.length
    omega
  · show fs.length ≤ _
    omega

/-- The frames that a commit drops are accounted for apart. -/
theorem Balanced.committed (height : Nat) :
    Balanced (m.committed height :: past) (dropped + (m.engine.depth - height))
      (m.committed height) := by
  have hframes := hb.frames
  have hdepth : (m.committed height).engine.depth =
      m.engine.depth - (m.engine.depth - height) := by
    rw [Engine.depth, committed_frames, List.length_drop]
    rfl
  refine ⟨?_, ?_, hb.deepest_of_le (count_committed m h height .maxDepth) (by omega) hm⟩
  · rw [count_committed m h, count_committed m h]
    exact hb.bindings
  · rw [count_committed m h, count_committed m h, count_committed m h, hdepth]
    show _ + 0 = _ + 0 + (_ + 0) + _ + _
    omega

theorem Balanced.undone (mark : Nat) :
    Balanced (m.undone mark :: past) dropped (m.undone mark) := by
  have hbindings := hb.bindings
  refine ⟨?_, ?_, hb.deepest_of_le (count_undone m h mark .maxDepth) (Nat.le_refl _) hm⟩
  · rw [count_undone m h, count_undone m h, length_undone]
    show _ + 0 = _ + (m.engine.trail.length - mark) + _
    omega
  · rw [count_undone m h, count_undone m h, count_undone m h]
    exact hb.frames

theorem Balanced.unify {fuel : Nat} {a b : S.Term} {r : Bool}
    (hunify : Machine.unify T fuel a b m = .ok r m') : Balanced (m' :: past) dropped m' := by
  have hbindings := hb.bindings
  obtain ⟨hstack, hlength, hcount⟩ := unify_counts h hunify
  have hdepth : m'.engine.depth = m.engine.depth := by rw [Engine.depth, hstack]; rfl
  refine ⟨?_, ?_, hb.deepest_of_le (hcount .maxDepth) (Nat.le_of_eq hdepth) hm⟩
  · rw [hcount, hcount]
    show _ + (m'.engine.trail.length - m.engine.trail.length) = _ + 0 + _
    omega
  · rw [hcount, hcount, hcount, hdepth]
    exact hb.frames

omit h in
theorem Balanced.aside (haside : m.Aside m') : Balanced (m' :: past) dropped m' := by
  have hcount := haside.counters
  refine ⟨?_, ?_, hb.deepest_of_le (hcount _ (by simp) (by simp)) (Nat.le_of_eq haside.depth) hm⟩
  · rw [hcount _ (by simp) (by simp), hcount _ (by simp) (by simp), haside.trail]
    exact hb.bindings
  · rw [hcount _ (by simp) (by simp), hcount _ (by simp) (by simp),
      hcount _ (by simp) (by simp), haside.depth]
    exact hb.frames

/-- Every move keeps the books balanced. -/
theorem Balanced.moves (hmove : Moves T m removed m') :
    Balanced (m' :: past) (dropped + removed) m' := by
  cases hmove with
  | push mark a => exact hb.pushed h mark a
  | pop hfs => exact hb.popped h hm hfs
  | retire hfs => exact hb.retired h hm hfs
  | commit height => exact hb.committed h hm height
  | undo mark => exact hb.undone h hm mark
  | unify hunify => exact hb.unify h hm hunify
  | aside haside => exact hb.aside hm haside

end Balanced

theorem History.mem (h : History T start past dropped m) : m ∈ past := by
  cases h with
  | start => exact List.mem_singleton_self _
  | move => exact List.mem_cons_self

theorem History.config (h : History T start past dropped m) :
    m.engine.config = start.engine.config := by
  induction h with
  | start => rfl
  | move _ hmove ih => rw [hmove.config, ih]

/-- The books of a new engine stay balanced, whatever it does. -/
theorem History.balanced (h : History T start past dropped m) {config : Config}
    (hstart : start.engine = .new config) (hconfig : config.statistics = true) :
    Balanced past dropped m := by
  induction h with
  | start =>
    refine ⟨?_, ?_, ?_⟩
    · rw [hstart]
      rfl
    · rw [hstart]
      rfl
    · refine ⟨?_, start, List.mem_singleton_self _, ?_⟩
      · simp [hstart, Engine.new, Engine.depth]
      · rw [hstart]
        rfl
  | @move _ _ _ m _ h hmove ih =>
    have hon : m.engine.config.statistics = true := by rw [h.config, hstart]; exact hconfig
    exact ih.moves hon h.mem hmove

/-! ### Computations that are sequences of moves -/

/-- A later machine: moves lead to it. -/
def Later (T : Theory S) : Machine S → Machine S → Prop :=
  Relation.ReflTransGen fun m m' => ∃ removed, Moves T m removed m'

/-- A unification from `m` stopped at `m'`. -/
def Interrupted (T : Theory S) (m m' : Machine S) : Prop :=
  ∃ fuel a b e, Machine.unify T fuel a b m = .error e m'

/-- A machine at which a computation stops: a later one, or one in the middle of a
unification that a later one began. -/
def CutShort (T : Theory S) (m m' : Machine S) : Prop :=
  ∃ last, m.Later T last ∧ (m' = last ∨ Interrupted T last m')

/-- Machines on whose stack all goals and programs are accountable. -/
def Accountable (m : Machine S) : Prop := ∀ f ∈ m.engine.frames, f.activation.Accountable

/-- From every machine with an accountable stack, a computation is a sequence of moves
that keeps the stack accountable, and ends with a value in `Q` if it ends. -/
def Charts (T : Theory S) (Q : α → Prop) (x : Action (Machine S) α) : Prop :=
  ∀ m, m.Accountable →
    Leaves x m (fun a m' => m.Later T m' ∧ m'.Accountable ∧ Q a) (CutShort T m)

theorem History.later (h : History T start past dropped m) (hm : m.Later T m') :
    ∃ past' dropped', History T start past' dropped' m' := by
  induction hm with
  | refl => exact ⟨past, dropped, h⟩
  | tail _ hmove ih =>
    obtain ⟨past', dropped', h'⟩ := ih
    obtain ⟨removed, hmove⟩ := hmove
    exact ⟨_, _, h'.move hmove⟩

theorem Moves.later (h : Moves T m removed m') : m.Later T m' := .single ⟨removed, h⟩

theorem Aside.later (h : m.Aside m') : m.Later T m' := (Moves.aside h).later

theorem CutShort.head (h : m.Later T m') {m'' : Machine S} (h' : CutShort T m' m'') :
    CutShort T m m'' := by
  obtain ⟨last, hlast, hhalt⟩ := h'
  exact ⟨last, h.trans hlast, hhalt⟩

theorem Later.cutShort (h : m.Later T m') : CutShort T m m' := ⟨m', h, .inl rfl⟩

section Charts

variable {Q : α → Prop} {Q' : β → Prop}

theorem Charts.mono {Q₁ : α → Prop} {x : Action (Machine S) α} (hx : Charts T Q x)
    (hQ : ∀ a, Q a → Q₁ a) : Charts T Q₁ x :=
  fun m hm => (hx m hm).mono (fun a _ h => ⟨h.1, h.2.1, hQ a h.2.2⟩) fun _ h => h

theorem Charts.pure {a : α} (ha : Q a) : Charts T Q (Pure.pure a : Action (Machine S) α) :=
  fun _ hm => ⟨.refl, hm, ha⟩

theorem Charts.throw (e : Stop) : Charts T Q (MonadExcept.throw e : Action (Machine S) α) :=
  fun _ _ => Later.cutShort .refl

theorem Charts.bind {x : Action (Machine S) α} {f : α → Action (Machine S) β}
    (hx : Charts T Q x) (hf : ∀ a, Q a → Charts T Q' (f a)) : Charts T Q' (x >>= f) := by
  intro m hm
  rw [leaves_bind]
  refine (hx m hm).mono ?_ fun _ h => h
  rintro a m' ⟨hlater, hm', ha⟩
  exact (hf a ha m' hm').mono (fun b m'' h => ⟨hlater.trans h.1, h.2⟩) fun _ h => h.head hlater

theorem Charts.rounds {round : Action (Machine S) (Option α)}
    (hround : Charts T (fun _ => True) round) :
    ∀ n, Charts T (fun _ => True) (Action.rounds round n)
  | 0 => Charts.throw _
  | n + 1 => by
    refine Charts.bind hround fun o _ => ?_
    cases o with
    | some a => exact Charts.pure trivial
    | none => exact Charts.rounds hround n

/-- A computation that only looks at the machine. -/
theorem charts_of_reads {x : Action (Machine S) α} (h : ∀ m, ∃ a, x m = .ok a m ∧ Q a) :
    Charts T Q x := by
  intro m hm
  obtain ⟨a, ha, hQ⟩ := h m
  exact (leaves_of_eq_ok ha).mpr ⟨.refl, hm, hQ⟩

/-- A computation that is one move. -/
theorem charts_of_move {x : Action (Machine S) α} (h : ∀ m, m.Accountable →
    ∃ a m' removed, x m = .ok a m' ∧ Moves T m removed m' ∧ m'.Accountable ∧ Q a) :
    Charts T Q x := by
  intro m hm
  obtain ⟨a, m', removed, hx, hmove, hm', ha⟩ := h m hm
  exact (leaves_of_eq_ok hx).mpr ⟨hmove.later, hm', ha⟩

end Charts

/-! ### The operations of an engine -/

theorem Accountable.subset (hm : m.Accountable)
    (h : ∀ f ∈ m'.engine.frames, f ∈ m.engine.frames) : m'.Accountable :=
  fun f hf => hm f (h f hf)

theorem charts_depth : Charts T (fun _ => True) (depth (S := S)) :=
  charts_of_reads fun m => ⟨_, depth_apply m, trivial⟩

theorem charts_trailLength : Charts T (fun _ => True) (trailLength (S := S)) :=
  charts_of_reads fun m => ⟨_, trailLength_apply m, trivial⟩

theorem charts_get : Charts T (fun _ => True) (get : Action (Machine S) (Machine S)) :=
  charts_of_reads fun m => ⟨_, get_apply m, trivial⟩

/-- Calls and retries are not among the counters of frames and bindings. -/
theorem charts_count {c : Counter} (hc : c = .calls ∨ c = .retries) :
    Charts T (fun _ => True) (count (S := S) c) := by
  refine charts_of_move fun m hm => ⟨_, _, 0, count_apply m c, .aside ?_, hm, trivial⟩
  refine ⟨rfl, rfl, rfl, fun k hcalls hretries => ?_⟩
  have hne : c ≠ k := by
    rintro rfl
    exact hc.elim hcalls hretries
  show (if _ then m.engine.statistics.add c 1 else m.engine.statistics).count k = _
  split
  · simp [Tally.count, Tally.get?_add, hne]
  · rfl

/-- What happens in the world, and to the answers, is aside. -/
theorem aside_of_engine_eq (h : m'.engine = m.engine) : m.Aside m' := by
  refine ⟨?_, ?_, ?_, fun c _ _ => ?_⟩ <;> rw [h]

theorem charts_onWorld {Q : α → Prop} {x : Action (World S) α}
    (hx : ∀ w a w', x w = .ok a w' → Q a) : Charts T Q (onWorld x) := by
  intro m hm
  refine leaves_onPart (fun a w h => ⟨?_, hm, hx _ _ _ h⟩) fun e w _ => ?_
  · exact Aside.later (aside_of_engine_eq rfl)
  · exact Later.cutShort (Aside.later (aside_of_engine_eq rfl))

theorem charts_modify {f : Machine S → Machine S} (hf : ∀ m, (f m).engine = m.engine) :
    Charts T (fun _ => True) (modify f) := by
  refine charts_of_move fun m hm => ⟨_, _, 0, modify_apply f m, .aside ?_, ?_, trivial⟩
  · exact aside_of_engine_eq (hf m)
  · exact hm.subset fun g hg => by rwa [hf] at hg

theorem charts_trace (r : Record) : Charts T (fun _ => True) (trace (S := S) r) :=
  charts_of_move fun m hm =>
    ⟨_, _, 0, trace_apply m r, .aside (aside_of_engine_eq rfl), hm, trivial⟩

theorem charts_push (mark : Nat) {a : Activation S} (ha : a.Accountable) :
    Charts T (fun _ => True) (push mark a) := by
  refine charts_of_move fun m hm => ⟨_, _, 0, push_apply m mark a, .push m mark a, ?_, trivial⟩
  exact List.forall_mem_cons.mpr ⟨ha, hm⟩

theorem charts_pushHere {a : Activation S} (ha : a.Accountable) :
    Charts T (fun _ => True) (pushHere a) :=
  Charts.bind charts_trailLength fun mark _ => charts_push mark ha

theorem charts_pop : Charts T (fun _ => True) (pop (S := S)) := by
  intro m hm
  cases hfs : m.engine.frames with
  | nil => exact (leaves_of_eq_ok (pop_of_nil m hfs)).mpr ⟨.refl, hm, trivial⟩
  | cons f fs =>
    refine (leaves_of_eq_ok (pop_apply m hfs)).mpr ⟨(Moves.pop hfs).later, ?_, trivial⟩
    exact hm.subset fun g hg => by rw [hfs]; exact List.mem_cons_of_mem f hg

theorem charts_retire : Charts T (fun _ => True) (retire (S := S)) := by
  intro m hm
  cases hfs : m.engine.frames with
  | nil => exact (leaves_of_eq_ok (retire_of_nil m hfs)).mpr ⟨.refl, hm, trivial⟩
  | cons f fs =>
    refine (leaves_of_eq_ok (retire_apply m hfs)).mpr ⟨(Moves.retire hfs).later, ?_, trivial⟩
    exact hm.subset fun g hg => by rw [hfs]; exact List.mem_cons_of_mem f hg

theorem charts_enterStep : Charts T (fun _ => True) (enterStep (S := S)) :=
  Charts.bind (charts_pushHere trivial) fun _ _ => charts_retire

theorem charts_commit (height : Nat) : Charts T (fun _ => True) (commit (S := S) height) :=
  charts_of_move fun m hm => ⟨_, _, _, commit_apply m height, .commit m height,
    hm.subset fun _ hg => List.mem_of_mem_drop hg, trivial⟩

theorem charts_undoTo (mark : Nat) : Charts T (fun _ => True) (undoTo (S := S) mark) :=
  charts_of_move fun m hm => ⟨_, _, _, undoTo_apply m mark, .undo m mark, hm, trivial⟩

theorem charts_popMany (n : Nat) : Charts T (fun _ => True) (popMany (S := S) n) := by
  induction n with
  | zero => exact Charts.pure trivial
  | succ n ih => exact Charts.bind charts_pop fun _ _ => ih

theorem charts_unwind (height : Nat) : Charts T (fun _ => True) (unwind (S := S) height) :=
  Charts.bind charts_depth fun _ _ => charts_popMany _

/-- Changing the activation of a frame is aside. -/
theorem charts_updateAt (height : Nat) {f : Activation S → Activation S}
    (hf : ∀ a, a.Accountable → (f a).Accountable) :
    Charts T (fun _ => True) (updateAt height f) := by
  refine charts_of_move fun m hm => ⟨_, _, 0, modifyEngine_apply m _, .aside ?_, ?_, trivial⟩
  · refine ⟨?_, ?_, ?_, fun c _ _ => ?_⟩
    · dsimp only
      split <;> rfl
    · dsimp only
      split
      · exact List.length_modify ..
      · rfl
    · dsimp only
      split <;> rfl
    · dsimp only
      split <;> rfl
  · intro g hg
    dsimp only at hg
    split at hg
    · obtain ⟨i, hi, rfl⟩ := List.mem_iff_getElem.mp hg
      rw [List.getElem_modify]
      split
      · exact hf _ (hm _ (List.getElem_mem _))
      · exact hm _ (List.getElem_mem _)
    · exact hm g hg

theorem charts_unify (fuel : Nat) (a b : S.Term) :
    Charts T (fun _ => True) (Machine.unify T fuel a b) := by
  intro m hm
  unfold Leaves
  cases h : Machine.unify T fuel a b m with
  | error e m' => exact ⟨m, .refl, .inr ⟨fuel, a, b, e, h⟩⟩
  | ok r m' =>
    refine ⟨(Moves.unify h).later, ?_, trivial⟩
    rw [unify_apply] at h
    split at h
    · cases h
      exact hm
    · cases h

theorem charts_quietly (fuel : Nat) (x : Quiet S α) :
    Charts T x.Yields (quietly T fuel x) :=
  charts_onWorld fun _ _ _ h => Quiet.yields_of_exec h

/-! ### Programs and runs -/

/-- Runs of accountable goals that are sequences of moves. -/
def RunsChart (T : Theory S) (run : Runner S) : Prop :=
  ∀ g k, g.Accountable → k.Accountable → Charts T (fun _ => True) (run g k)

section Runs

variable {fuel : Nat} {run : Runner S} (hrun : RunsChart T run)

include hrun

theorem charts_executeWith {g : Goal S} {k : Continuation S} (hg : g.Accountable)
    (hk : k.Accountable) : Charts T (fun _ => True) (executeWith run g k) := by
  refine Charts.bind charts_depth fun _ _ => ?_
  refine Charts.bind charts_trailLength fun _ _ => ?_
  refine Charts.bind (charts_onWorld fun _ _ _ _ => trivial) fun _ _ => ?_
  refine Charts.bind (hrun g k hg hk) fun _ _ => ?_
  exact Charts.bind (charts_onWorld fun _ _ _ _ => trivial) fun _ _ => Charts.pure trivial

theorem charts_collecting {g : Goal S} {k : Continuation S} (hg : g.Accountable)
    (hk : k.Accountable) :
    Charts T (fun _ => True) (collecting (executeWith run (.sequence [g]) k)) := by
  refine Charts.bind charts_get fun m _ => ?_
  refine Charts.bind (charts_modify fun _ => rfl) fun _ _ => ?_
  refine Charts.bind (charts_executeWith hrun (.sequence (by simpa using hg)) hk) fun _ _ => ?_
  refine charts_of_move fun m hm => ⟨_, _, 0, modifyGet_apply _ m, .aside ?_, hm, trivial⟩
  exact aside_of_engine_eq rfl

/-- What accountable programs do is a sequence of moves. -/
theorem exec_charts {κ : Kind} {p : Program S (Goal S) κ} (hp : p.Accountable Goal.Accountable) :
    Charts T Program.Value.Accountable (p.exec T fuel run) := by
  induction hp with
  | verdict => exact Charts.pure trivial
  | attempt => exact Charts.pure trivial
  | candidates hdraw => exact Charts.pure hdraw
  | choices hmake => exact Charts.pure hmake
  | ask _ ih => exact Charts.bind (charts_onWorld fun _ _ _ _ => trivial) fun x _ => ih x
  | unify _ ih => exact Charts.bind (charts_unify fuel _ _) fun r _ => ih r
  | execute hg _ ih => exact Charts.bind (charts_executeWith hrun hg trivial) fun r _ => ih r
  | findFirst hg _ ih =>
    refine Charts.bind (Q := fun _ => True) ?_ fun r _ => ih r
    exact Charts.bind (charts_collecting hrun hg trivial) fun _ _ => Charts.pure trivial
  | findAll hg _ ih => exact Charts.bind (charts_collecting hrun hg trivial) fun r _ => ih r
  | view _ ih => exact Charts.bind charts_get fun _ _ => ih _
  | loop _ _ ihround ih =>
    have hround : Charts T (fun _ => True) _ := ihround.mono fun _ _ => trivial
    exact Charts.bind (Charts.rounds hround fuel) fun r _ => ih r

theorem callPredicate_charts {p : Predicate S (Goal S)} (hp : (Goal.call p).Accountable)
    {next : Continuation S} (hnext : next.Accountable) :
    Charts T Task.Accountable (callPredicate T fuel run p next) := by
  refine Charts.bind charts_trailLength fun mark _ => ?_
  cases hp with
  | nondeterministic hprepare hvalidate =>
    refine Charts.bind (exec_charts hrun hprepare) fun draw hdraw => ?_
    refine Charts.bind (charts_push mark ?_) fun _ _ => Charts.pure trivial
    exact ⟨hdraw, hvalidate, hnext⟩
  | semideterministic hprepare hvalidate =>
    refine Charts.bind (charts_push mark trivial) fun _ _ => ?_
    refine Charts.bind (exec_charts hrun hprepare) fun _ _ => ?_
    refine Charts.bind charts_retire fun _ _ => ?_
    refine Charts.bind (exec_charts hrun hvalidate) fun _ _ => ?_
    exact Charts.pure (Task.accountable_ofVerdict hnext)
  | deterministic hprepare =>
    refine Charts.bind (charts_push mark trivial) fun _ _ => ?_
    refine Charts.bind (exec_charts hrun hprepare) fun _ _ => ?_
    exact Charts.bind charts_retire fun _ _ => Charts.pure hnext

theorem call_charts {g : Goal S} (hg : g.Accountable) {next : Continuation S}
    (hnext : next.Accountable) : Charts T Task.Accountable (call T fuel run g next) := by
  refine Charts.bind (charts_count (.inl rfl)) fun _ _ => ?_
  cases hg with
  | succeed => exact Charts.pure hnext
  | fail => exact Charts.pure trivial
  | nondeterministic hp hv => exact callPredicate_charts hrun (.nondeterministic hp hv) hnext
  | semideterministic hp hv => exact callPredicate_charts hrun (.semideterministic hp hv) hnext
  | deterministic hp => exact callPredicate_charts hrun (.deterministic hp) hnext
  | sequence hgs => exact Charts.pure (Task.accountable_sequence hgs hnext)
  | disjunction hgs =>
    refine Charts.bind (charts_pushHere ?_) fun _ _ => Charts.pure trivial
    exact ⟨hgs, hnext⟩
  | once hg =>
    refine Charts.bind charts_enterStep fun _ _ => ?_
    exact Charts.bind charts_depth fun _ _ => Charts.pure ⟨hg, hnext⟩
  | notNot hg =>
    refine Charts.bind (charts_pushHere trivial) fun _ _ => ?_
    refine Charts.bind (hrun _ _ hg trivial) fun _ _ => ?_
    exact Charts.bind charts_retire fun _ _ => Charts.pure (Task.accountable_ofVerdict hnext)
  | loop hbody =>
    refine Charts.bind charts_enterStep fun _ _ => ?_
    refine Charts.bind charts_get fun _ _ => ?_
    refine Charts.bind (charts_quietly fuel _) fun b _ => ?_
    cases b with
    | false => exact Charts.pure hnext
    | true =>
      refine Charts.bind charts_get fun _ _ => ?_
      refine Charts.bind (charts_quietly fuel _) fun g hg => ?_
      exact Charts.pure ⟨hbody _ g hg, .loop hbody, hnext⟩
  | search hhandler =>
    refine Charts.bind (charts_quietly fuel _) fun level hlevel => ?_
    refine Charts.bind (charts_pushHere ?_) fun _ _ => ?_
    · exact ⟨hhandler, by simp, hnext⟩
    · refine Charts.bind (exec_charts hrun (hhandler level hlevel)) fun made hmade => ?_
      cases made with
      | none => exact Charts.bind charts_retire fun _ _ => Charts.pure hnext
      | some make =>
        refine Charts.bind charts_depth fun _ _ => ?_
        refine Charts.bind (charts_updateAt _ fun a ha => ?_) fun _ _ => Charts.pure trivial
        -- Whatever frame is at that height by now, it stays accountable.
        cases a with
        | search handler choices next =>
          refine ⟨ha.1, ?_, ha.2.2⟩
          rintro _ _ heq
          cases heq
          exact hmade make rfl
        | _ => exact ha

theorem retryActivation_charts {a : Activation S} (ha : a.Accountable) (height : Nat) :
    Charts T Progress.Accountable (retryActivation T fuel run height a) := by
  -- Frames of all kinds end in the same way.
  have hgiveUp : Charts T Progress.Accountable
      (do return .task (← exhausted (S := S)) : Action (Machine S) (Progress S)) :=
    Charts.bind (Q := fun t => t = .backtrack)
      (Charts.bind charts_pop fun _ _ => Charts.pure rfl)
      fun t ht => Charts.pure (by rw [ht]; trivial)
  unfold retryActivation
  split
  · exact Charts.pure trivial
  · exact hgiveUp
  · next draw drawn validate next =>
    refine Charts.bind (charts_quietly fuel _) fun candidate hcandidate => ?_
    cases candidate with
    | none => exact hgiveUp
    | some candidate =>
      refine Charts.bind (charts_updateAt _ fun _ _ => ha) fun _ _ => ?_
      refine Charts.bind (exec_charts hrun (ha.1 _ _ hcandidate)) fun applies _ => ?_
      split
      · refine Charts.bind (exec_charts hrun ha.2.1) fun valid _ => ?_
        exact Charts.pure (Task.accountable_ofVerdict ha.2.2)
      · exact Charts.pure trivial
  · exact hgiveUp
  · next branch rest next =>
    obtain ⟨hbranch, hrest⟩ := List.forall_mem_cons.mp ha.1
    refine Charts.bind (charts_updateAt _ fun _ _ => ⟨hrest, ha.2⟩) fun _ _ => ?_
    exact Charts.pure ⟨hbranch, ha.2⟩
  · exact hgiveUp
  · next handler make made next =>
    obtain ⟨hhandler, hmake, hnext⟩ := ha
    refine Charts.bind (charts_updateAt _ fun _ _ => ⟨hhandler, by simp, hnext⟩) fun _ _ => ?_
    refine Charts.bind (exec_charts hrun (hmake make made rfl made)) fun outcome _ => ?_
    refine Charts.bind (charts_updateAt _ fun a ha => ?_) fun _ _ => ?_
    · cases a with
      | search handler choices next =>
        refine ⟨ha.1, ?_, ha.2.2⟩
        rintro _ _ heq
        cases heq
        exact hmake make made rfl
      | _ => exact ha
    · split
      · exact hgiveUp
      · exact Charts.pure trivial
      · exact Charts.pure ⟨.search hhandler, hnext⟩

theorem retry_charts : Charts T Progress.Accountable (retry T fuel run) := by
  refine Charts.bind (charts_count (.inr rfl)) fun _ _ => ?_
  intro m hm
  rw [leaves_bind, leaves_of_eq_ok (get_apply m)]
  dsimp only
  cases hfs : m.engine.frames with
  | nil => exact Charts.pure (T := T) trivial m hm
  | cons f fs =>
    have ha : f.activation.Accountable := hm f (by rw [hfs]; exact List.mem_cons_self)
    exact Charts.bind (charts_trace _) (fun _ _ => retryActivation_charts hrun ha _) m hm

omit hrun in
theorem proceed_charts {next : Continuation S} (hnext : next.Accountable) :
    Charts T Progress.Accountable (proceed T fuel next) := by
  cases next with
  | finish => exact Charts.pure trivial
  | sequence rest next => exact Charts.pure (Task.accountable_sequence hnext.1 hnext.2)
  | call g next => exact Charts.pure hnext
  | commit height next => exact Charts.bind (charts_commit height) fun _ _ => Charts.pure hnext
  | collect template next =>
    refine Charts.bind (charts_count (.inl rfl)) fun _ _ => ?_
    refine Charts.bind (charts_pushHere trivial) fun _ _ => ?_
    refine Charts.bind (Q := fun _ => True) (charts_onWorld fun _ _ _ _ => trivial) fun _ _ => ?_
    refine Charts.bind (charts_modify fun _ => rfl) fun _ _ => ?_
    exact Charts.bind charts_retire fun _ _ => Charts.pure hnext
  | refuse =>
    refine Charts.bind (charts_count (.inl rfl)) fun _ _ => ?_
    exact Charts.pure trivial

omit hrun in
theorem backtrack_charts : Charts T Progress.Accountable (backtrack (S := S)) := by
  refine Charts.bind charts_get fun m _ => ?_
  split
  · exact Charts.pure trivial
  · refine Charts.bind (charts_undoTo _) fun _ _ => ?_
    exact Charts.pure trivial

theorem step_charts {t : Task S} (ht : t.Accountable) :
    Charts T Progress.Accountable (step T fuel run t) := by
  cases t with
  | call g next => exact Charts.bind (call_charts hrun ht.1 ht.2) fun t ht => Charts.pure ht
  | proceed next => exact proceed_charts ht
  | retry => exact retry_charts hrun
  | backtrack => exact backtrack_charts

theorem drive_charts {t : Task S} (ht : t.Accountable) (n : Nat) :
    Charts T (fun _ => True) (drive T fuel run t n) := by
  induction n generalizing t with
  | zero => exact Charts.throw _
  | succ n ih =>
    intro m hm
    have hsteps : Charts T Progress.Accountable (step T fuel run t) := step_charts hrun ht
    have hstep := hsteps m hm
    unfold Leaves at hstep ⊢
    rw [drive_succ]
    cases h : step T fuel run t m with
    | error e m' =>
      rw [h] at hstep
      exact hstep
    | ok p m' =>
      rw [h] at hstep
      obtain ⟨hlater, hm', hp⟩ := hstep
      cases p with
      | ended status => exact ⟨hlater, hm', trivial⟩
      | task t' =>
        -- The ledger of the rest continues that of the first step.
        exact (ih hp m' hm').mono (fun _ _ h => ⟨hlater.trans h.1, h.2⟩) fun _ h => h.head hlater

theorem runWith_charts {g : Goal S} {k : Continuation S} (hg : g.Accountable)
    (hk : k.Accountable) : Charts T (fun _ => True) (runWith T fuel run g k) := by
  refine Charts.bind charts_depth fun base _ => ?_
  refine Charts.bind charts_trailLength fun mark _ => ?_
  refine Charts.bind (charts_push mark trivial) fun _ _ => ?_
  refine Charts.bind (drive_charts hrun (t := .call g k) ⟨hg, hk⟩ fuel) fun status _ => ?_
  refine Charts.bind (charts_unwind base) fun _ _ => ?_
  refine Charts.bind charts_trailLength fun length _ => ?_
  split
  · exact Charts.pure trivial
  · exact Charts.throw _

end Runs

theorem run_charts (n : Nat) : RunsChart T (run T n) := by
  induction n with
  | zero => exact fun _ _ _ _ => Charts.throw _
  | succ n ih => exact fun _ _ hg hk => runWith_charts ih hg hk

/-- What an accountable program does with a new engine is a sequence of moves. -/
theorem exec_charts_of_new {n : Nat} {start : Machine S} {config : Config}
    (hstart : start.engine = .new config) {κ : Kind} {p : Program S (Goal S) κ}
    (hp : p.Accountable Goal.Accountable) :
    Leaves (p.exec T n (run T n)) start
      (fun a m => start.Later T m ∧ m.Accountable ∧ Program.Value.Accountable a)
      (CutShort T start) := by
  refine exec_charts (run_charts n) hp start fun f hf => ?_
  rw [hstart] at hf
  cases hf

/-- An application works with a new engine that keeps counters, and neither clears them
nor puts another engine in its place.  Where it ends, and where it stops outside a
unification, bindings and frames are accounted for, and the deepest stack that was
counted is the deepest there was.  All that happened in between is a sequence of moves
after each of which the same holds. -/
theorem counters_account (T : Theory S) (n : Nat) {start : Machine S} {config : Config}
    (hstart : start.engine = .new config) (hconfig : config.statistics = true) {κ : Kind}
    {p : Program S (Goal S) κ} (hp : p.Accountable Goal.Accountable) :
    (∀ a m, p.exec T n (run T n) start = .ok a m →
        ∃ past dropped, History T start past dropped m) ∧
      (∀ e m, p.exec T n (run T n) start = .error e m →
        ∃ past dropped last, History T start past dropped last ∧
          (m = last ∨ Interrupted T last m)) ∧
      ∀ past dropped m, History T start past dropped m → Balanced past dropped m := by
  have hcharts := exec_charts_of_new (T := T) (n := n) hstart hp
  unfold Leaves at hcharts
  refine ⟨fun a m hm => ?_, fun e m hm => ?_, fun _ _ _ h => h.balanced hstart hconfig⟩
  · rw [hm] at hcharts
    exact History.start.later hcharts.1
  · rw [hm] at hcharts
    obtain ⟨last, hlast, hhalt⟩ := hcharts
    obtain ⟨past, dropped, h⟩ := History.start.later hlast
    exact ⟨past, dropped, last, h, hhalt⟩

end Machine

/-- A step that unifies a target with one of the values in a list is accountable. -/
theorem Goal.accountable_memberOf (target : S.Term) (values : List S.Term) :
    (Goal.memberOf target values).Accountable := by
  refine .nondeterministic (.candidates fun i p h => ?_) (.verdict true)
  obtain ⟨value, -, hp⟩ := Quiet.yields_bind h
  cases value with
  | none => nomatch hp
  | some value =>
    cases hp
    exact .unify fun r => .verdict r

/-- A machine with a new engine that keeps counters. -/
def Bounds.fresh : Machine Bounds.vocabulary := ⟨.new .standard, .start (), []⟩

/-- A program that binds a variable and then has the sample goal solved in all ways. -/
def Bounds.audit : Program Bounds.vocabulary (Goal Bounds.vocabulary) .verdict :=
  .unify (.var ⟨4⟩) (.int 7) fun _ =>
    .findAll Bounds.sample (.list [.var ⟨1⟩, .var ⟨2⟩]) fun answers => .verdict (answers.length = 1)

theorem Bounds.audit_accountable : Bounds.audit.Accountable Goal.Accountable := by
  refine .unify fun _ => .findAll (.sequence ?_) fun _ => .verdict _
  simp only [List.forall_mem_cons]
  refine ⟨Goal.accountable_memberOf _ _, .once (.disjunction ?_),
    .notNot (Goal.accountable_memberOf _ _), .semideterministic (.verdict true) ?_, by simp⟩
  · simp only [List.forall_mem_cons]
    exact ⟨.fail, Goal.accountable_memberOf _ _, by simp⟩
  · exact .execute (Goal.accountable_memberOf _ _) fun b => .verdict _

/-- The machine at the end of the program. -/
def Bounds.audited : Machine Bounds.vocabulary :=
  (Bounds.audit.exec Bounds.theory 60 (Machine.run Bounds.theory 60)).last Bounds.fresh

/-- Three commits dropped two frames each, one binding is left on the trail, and the stack
was never deeper than the counter says. -/
theorem Machine.counters_account_audit : ∃ past,
    History Bounds.theory Bounds.fresh past 6 Bounds.audited ∧
      Bounds.audited.engine.statistics.count .bindings =
        Bounds.audited.engine.statistics.count .bindingsUndone + 1 ∧
      (∀ m ∈ past, m.engine.depth ≤ 5) ∧ ∃ m ∈ past, m.engine.depth = 5 := by
  have hstart : Bounds.fresh.engine = .new .standard := rfl
  have haccount := counters_account Bounds.theory 60 hstart rfl Bounds.audit_accountable
  let audit : Action (Machine Bounds.vocabulary) Bool :=
    Bounds.audit.exec Bounds.theory 60 (Machine.run Bounds.theory 60)
  have hresult : result? audit Bounds.fresh = some true := by decide +kernel
  obtain ⟨m, hm⟩ := result?_eq_some.mp hresult
  have hend : m = Bounds.audited := by
    show m = audit.last Bounds.fresh
    rw [last, hm]
  obtain ⟨past, dropped, hhistory⟩ := haccount.1 true m hm
  rw [hend] at hhistory
  have hbalanced := haccount.2.2 past dropped _ hhistory
  have hcounts : Bounds.audited.engine.statistics.count .framesPushed =
      Bounds.audited.engine.statistics.count .framesPopped +
        Bounds.audited.engine.statistics.count .framesRetired + 6 +
        Bounds.audited.engine.depth := by decide +kernel
  -- The counters leave no other number of dropped frames.
  have hdropped : dropped = 6 := by
    have := hbalanced.frames
    omega
  subst hdropped
  have htrail : Bounds.audited.engine.trail.length = 1 := by decide +kernel
  have hdeepest : Bounds.audited.engine.statistics.count .maxDepth = 5 := by decide +kernel
  have hbindings := hbalanced.bindings
  rw [htrail] at hbindings
  have hdepths := hbalanced.deepest
  rw [hdeepest] at hdepths
  exact ⟨past, hhistory, hbindings, hdepths⟩

end GoalSearch
