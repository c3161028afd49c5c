/-
Values that are drawn one at a time.

A variable takes the values of a sequence in turn until a test holds of one.  The
sequence may be endless: a value is pulled when the frame on which it waits is tried
again, and not before.  Once a solution is committed to, this frame is gone, and with
it whatever was not pulled.

* `Sequence`, `Sequence.pulled` — values, and what pulling them leaves behind;
* `Sequence.Begins` — code that draws these values up to a position, and anything later;
* `Goal.seek` — draws values for a variable until a test holds of one;
* `Sequence.Awaits`, `Sequence.Found` — the machine before a value is pulled and after it;
* `Sequence.exists_awaits`, `Sequence.exists_found` — the loop over the values that fail
  the test, and the first one that passes it;
* `Machine.draws_lazily` — findFirst, and findAll after a commit;
* `Machine.renewals_and_knots_after_commit` — why what comes after the commit has to leave
  its engine in place, and templates need copies.

Design notes: the code that draws the values is on the stack and nowhere else.  What is
around the stack is the same for all code that begins alike, so the machines of the
loop are given with a stack that is put in afterwards, and the machine on which a
committed solution goes on depends neither on later draws nor on what comes next.
-/
import GoalSearch.Proofs.Product
import GoalSearch.Proofs.Termination

namespace GoalSearch

open GoalSearch.Action GoalSearch.Configuration Machine

variable {S : Vocabulary} {T : Theory S} {α β : Type}

/-! ### Sequences -/

/-- Values one after the other, and what pulling each of them does to the private
state. -/
structure Sequence (S : Vocabulary) where
  /-- The value at a position. -/
  values : Nat → S.Term
  /-- The private state after the value at a position was pulled. -/
  note : Nat → S.State → S.State

/-- The private state after a number of values were pulled, in their order. -/
def Sequence.pulled (q : Sequence S) : Nat → S.State → S.State
  | 0, state => state
  | n + 1, state => q.note n (q.pulled n state)

variable (T) in
/-- Up to the position `k`, to draw is to pull the value of the sequence.  Later draws
may do anything. -/
def Sequence.Begins (q : Sequence S) (k : Nat) (draw : Nat → Quiet S (Option S.Term)) : Prop :=
  ∀ i ≤ k, ∀ n w, (draw i).exec T n w =
    .ok (some (q.values i)) { w with state := q.note i w.state }

namespace Goal

/-- Tests the value of a variable. -/
def check (v : Var) (p : S.Term → Bool) : Goal S :=
  .test (.withStore fun s => .verdict (p (s.deref (.var v))))

/-- Draws values for a variable until a test holds of one. -/
def seek (v : Var) (draw : Nat → Quiet S (Option S.Term)) (p : S.Term → Bool) : Goal S :=
  .conjunct [.member (.var v) draw, .check v p]

theorem steady_seek (v : Var) (draw : Nat → Quiet S (Option S.Term)) (p : S.Term → Bool) :
    (seek v draw p).Steady := by
  refine .sequence ?_
  simp only [List.forall_mem_cons]
  exact ⟨steady_member _ draw, .semideterministic (.verdict true) (.ask fun _ => .verdict _),
    by simp⟩

end Goal

theorem Quiet.exec_bind (x : Quiet S α) (f : α → Quiet S β) (n : Nat) (w : World S) :
    (x.bind f).exec T n w = (x.exec T n >>= fun a => (f a).exec T n) w := by
  induction x generalizing w with
  | done a => rfl
  | ask q next ih =>
    show (q.answer T n >>= fun r => ((next r).bind f).exec T n) w =
      ((q.answer T n >>= fun r => (next r).exec T n) >>= fun a => (f a).exec T n) w
    simp only [bind_apply]
    cases q.answer T n w with
    | ok r w' => exact (ih r w').trans (bind_apply _ _ _)
    | error e w' => rfl

/-! ### Single steps -/

namespace Machine

variable {m : Machine S} {next : Continuation S}

/-- The stack with the frame on which values wait on top, once `i` of them were pulled. -/
def seeking (o : Machine S) (v : Var) (draw : Nat → Quiet S (Option S.Term))
    (p : S.Term → Bool) (next : Continuation S) (i : Nat) : List (Frame S) :=
  ⟨.candidates (Goal.candidate (.var v) draw) i (.verdict true) (.sequence [.check v p] next),
    o.engine.trail.length⟩ :: o.engine.frames

/-- Pushing and retiring a step sees of the stack only how high it is. -/
theorem stepped_withFrames {fs : List (Frame S)} (h : fs.length = m.engine.frames.length) :
    (m.withFrames fs).stepped = m.stepped.withFrames fs := by
  have hdepth : (m.withFrames fs).engine.depth = m.engine.depth := h
  simp only [stepped, pushed, retired, measured, hdepth]
  simp only [withFrames, noted, counted, Engine.depth, List.length_cons, h]
  rfl

/-- A template with a copy that has no new structures is kept as this copy. -/
theorem steps_collected {t a : S.Term}
    (ht : ∃ n, ∀ i, (T.resolve? m.world.store n t).run i = some (a, i))
    (next : Continuation S) :
    Steps T ⟨.proceed (.collect t next), m⟩
      ⟨.proceed next, m.collected a m.world.nextObject⟩ := by
  obtain ⟨n, hn⟩ := ht
  exact ⟨n, proceed_collect (hn _)⟩

/-- What a commit leaves does not depend on the frame that it drops. -/
theorem steps_commit (f : Frame S) (fs : List (Frame S)) :
    Steps T ⟨.proceed (.commit fs.length next), m.withFrames (f :: fs)⟩
      ⟨.proceed next, ((m.withFrames fs).noted (.committed 1 fs.length)).counted .commits 1⟩ := by
  have hdropped : (m.withFrames (f :: fs)).engine.depth - fs.length = 1 := by
    show fs.length + 1 - fs.length = 1
    omega
  have hcommit := commit_apply (m.withFrames (f :: fs)) fs.length
  rw [committed, hdropped] at hcommit
  exact ⟨0, bind_ok hcommit⟩

/-- A test consults the value of its variable, and leaves no frame. -/
theorem steps_check (v : Var) (p : S.Term → Bool) :
    Steps T ⟨.call (.check v p) next, m⟩
      ⟨.ofVerdict (p (m.world.store.deref (.var v))) next, (m.counted .calls 1).stepped⟩ := by
  have hcall : call T 0 (run T 0) (.check v p) next m =
      .ok (.ofVerdict (p (m.world.store.deref (.var v))) next) (m.counted .calls 1).stepped := by
    refine (bind_ok (count_apply m .calls)).trans ((bind_ok (trailLength_apply _)).trans ?_)
    refine (bind_ok (push_apply _ _ _)).trans ((bind_ok rfl).trans ?_)
    exact (bind_ok (retire_apply _ rfl)).trans rfl
  exact ⟨0, bind_ok hcall⟩

/-- A call of a step that draws values pushes the frame on which they wait. -/
theorem steps_member (v : Var) (draw : Nat → Quiet S (Option S.Term)) :
    Steps T ⟨.call (.member (.var v) draw) next, m⟩
      ⟨.retry, (m.counted .calls 1).pushed m.engine.trail.length
        (.candidates (Goal.candidate (.var v) draw) 0 (.verdict true) next)⟩ := by
  exact ⟨0, bind_ok (call_member (T := T) (.var v) draw next m)⟩

end Machine

/-! ### The loop over the values -/

namespace Sequence

variable {q : Sequence S} {v : Var} {p : S.Term → Bool} {o m : Machine S} {i k : Nat}

/-- The machine after the value at a position was pulled on a retry, and the variable
has taken it. -/
def drawn (q : Sequence S) (v : Var) (height i : Nat) (m : Machine S) : Machine S :=
  let retried := (m.counted .retries 1).noted (.retried .predicate height)
  { retried with world.state := q.note i retried.world.state }.bound v (q.values i)

/-- A retry pulls one value. -/
theorem steps_drawn {draw : Nat → Quiet S (Option S.Term)} {next : Continuation S}
    (hdraw : q.Begins T k draw) (hi : i ≤ k) (hvalue : (q.values i).var? = none)
    (hframes : m.engine.frames = o.seeking v draw p next i)
    (hunbound : m.world.store.isUnbound v = true) (hfree : m.world.store.isRestricted v = false) :
    Steps T ⟨.retry, m⟩ ⟨.proceed (.sequence [.check v p] next),
      (q.drawn v (o.engine.frames.length + 1) i m).withFrames
        (o.seeking v draw p next (i + 1))⟩ := by
  let m₁ := (m.counted .retries 1).noted (.retried .predicate (o.engine.frames.length + 1))
  let m₂ : Machine S := { m₁ with world.state := q.note i m₁.world.state }
  have hpull : quietly T 2 (Goal.candidate (.var v) draw i) m₁ =
      .ok (some (.unifies (.var v) (q.values i))) m₂ := by
    rw [quietly, onWorld, onPart, Goal.candidate, Quiet.exec_bind, bind_ok (hdraw i hi 2 _)]
    rfl
  refine ⟨2, ?_⟩
  show retry T 2 (run T 2) m = _
  rw [retry_apply 2 hframes]
  exact retryActivation_of_drawn (n := 0) hpull hframes hunbound hfree hvalue

/-- On the stack of `o` and one frame more, the value at position `i` is pulled next. -/
structure Awaits (q : Sequence S) (o : Machine S) (i : Nat) (m : Machine S) : Prop where
  height : m.engine.frames.length = o.engine.frames.length + 1
  trail : m.engine.trail.entries = o.engine.trail.entries
  store : m.world.store ≈ o.world.store
  state : m.world.state = q.pulled i o.world.state
  answers : m.answers = o.answers

/-- The variable has taken the value at position `i`, and nothing else is bound since
`o`.  Values were pulled up to this one. -/
structure Found (q : Sequence S) (v : Var) (i : Nat) (o m : Machine S) : Prop where
  trail : m.engine.trail.entries = ⟨v, none⟩ :: o.engine.trail.entries
  store : m.world.store ≈ o.world.store.set v (some (q.values i))
  state : m.world.state = q.pulled (i + 1) o.world.state
  answers : m.answers = o.answers

theorem Found.binding (h : q.Found v i o m) : m.world.store.binding v = some (q.values i) := by
  rw [Store.binding_congr h.store, Store.binding_set, if_pos rfl]

variable (hunbound : o.world.store.isUnbound v = true)

include hunbound

theorem Found.isCell (h : q.Found v i o m) : m.world.store.isCell v = false := by
  rw [Store.isCell_congr h.store, Store.isCell_set]
  exact (Store.isUnbound_eq_true.mp hunbound).1

/-- What pulling a value leads to. -/
theorem Awaits.drawn (h : q.Awaits o i m) (height : Nat) :
    q.Found v i o (q.drawn v height i m) where
  trail := by
    have hempty : m.world.store.binding v = none := by
      rw [Store.binding_congr h.store]
      exact (Store.isUnbound_eq_true.mp hunbound).2
    show ⟨v, m.world.store.binding v⟩ :: m.engine.trail.entries = _
    rw [hempty, h.trail]
  store := Store.set_congr h.store v _
  state := by
    show q.note i m.world.state = q.note i (q.pulled i o.world.state)
    rw [h.state]
  answers := h.answers

/-- A value that fails is taken back, and the next one is pulled. -/
theorem Found.undone (h : q.Found v i o m)
    (hheight : m.engine.frames.length = o.engine.frames.length + 1) :
    q.Awaits o (i + 1) (m.undone o.engine.trail.length) := by
  -- one slot was saved, and it was empty, so going back restores the store
  have hextends : o.scope.Extends m.scope := by
    refine ⟨[⟨v, none⟩], h.trail, ?_⟩
    have hempty := (Store.isUnbound_eq_true.mp hunbound).2
    refine Setoid.trans (Store.set_congr h.store v none) ?_
    refine Setoid.trans (Store.set_set _ _ _ _) ?_
    rw [← hempty]
    exact Store.set_binding _ _
  have hback := hextends.backtrack (Nat.le_refl _)
  have hlength : (m.undone o.engine.trail.length).engine.trail.length =
      o.engine.trail.length := by
    rw [length_undone]
    exact Nat.min_eq_right hextends.grows.length_le
  exact ⟨hheight, hback.grows.entries_eq hlength, hback.store_equiv hlength, h.state, h.answers⟩

variable (hfree : o.world.store.isRestricted v = false)
  (hvalues : ∀ i ≤ k, (q.values i).var? = none)

include hfree hvalues

/-- The value at a position is pulled and tested. -/
theorem Awaits.exists_tested (h : q.Awaits o i m) (hi : i ≤ k) :
    ∃ m', q.Found v i o m' ∧ m'.engine.frames.length = o.engine.frames.length + 1 ∧
      ∀ draw next, q.Begins T k draw →
        Relation.ReflTransGen (Steps T)
          ⟨.retry, m.withFrames (o.seeking v draw p next i)⟩
          ⟨.ofVerdict (p (q.values i)) next, m'.withFrames (o.seeking v draw p next (i + 1))⟩ := by
  let m₁ := q.drawn v (o.engine.frames.length + 1) i m
  have hfound : q.Found v i o m₁ := h.drawn hunbound _
  refine ⟨(m₁.counted .calls 1).stepped, ⟨hfound.trail, hfound.store, hfound.state,
    hfound.answers⟩, h.height, fun draw next hdraw => ?_⟩
  let fs := o.seeking v draw p next (i + 1)
  have hdrawn : Steps T ⟨.retry, m.withFrames (o.seeking v draw p next i)⟩
      ⟨.proceed (.sequence [.check v p] next), m₁.withFrames fs⟩ := by
    refine steps_drawn hdraw hi (hvalues i hi) rfl ?_ ?_
    · exact (Store.isUnbound_congr h.store v).trans hunbound
    · exact (Store.isRestricted_congr h.store v).trans hfree
  have hcheck : Steps T ⟨.call (.check v p) next, m₁.withFrames fs⟩
      ⟨.ofVerdict (p (q.values i)) next, (m₁.counted .calls 1).stepped.withFrames fs⟩ := by
    have hvalue : m₁.world.store.deref (.var v) = q.values i :=
      Store.deref_of_binding (hfound.isCell hunbound) hfound.binding (hvalues i hi)
    have hheight : fs.length = (m₁.counted .calls 1).engine.frames.length := h.height.symm
    rw [← hvalue, ← stepped_withFrames hheight]
    exact steps_check v p
  exact .head hdrawn (.head (steps_rest _) (.single hcheck))

/-- As long as the values fail the test, the run comes to the next one. -/
theorem exists_awaits (hfails : ∀ i < k, p (q.values i) = false) (hi : i ≤ k) :
    ∃ m, q.Awaits o i m ∧ ∀ draw next, q.Begins T k draw →
      Relation.ReflTransGen (Steps T) ⟨.call (.seek v draw p) next, o⟩
        ⟨.retry, m.withFrames (o.seeking v draw p next i)⟩ := by
  -- on `i`, as the loop goes, with what was pulled so far and a store as at the start
  induction i with
  | zero =>
    -- any frame of this kind will do, as another stack is put in
    let hollow : Activation S := .candidates (fun _ => .done none) 0 (.verdict true) .finish
    refine ⟨((o.counted .calls 1).counted .calls 1).pushed o.engine.trail.length hollow,
      ⟨rfl, rfl, Setoid.refl _, rfl, rfl⟩, fun draw next _ => ?_⟩
    exact .head (steps_sequence _ _ _) (.single (steps_member v draw))
  | succ i ih =>
    obtain ⟨m, hawaits, hreaches⟩ := ih (by omega)
    obtain ⟨m', hfound, hheight, htested⟩ :=
      hawaits.exists_tested (T := T) (p := p) hunbound hfree hvalues (by omega)
    refine ⟨m'.undone o.engine.trail.length, hfound.undone hunbound hheight,
      fun draw next hdraw => (hreaches draw next hdraw).trans ?_⟩
    have hfailed := htested draw next hdraw
    rw [hfails i (by omega)] at hfailed
    have hback : Steps T ⟨.backtrack, m'.withFrames (o.seeking v draw p next (i + 1))⟩ _ :=
      steps_back rfl
    exact hfailed.tail hback

/-- The first value of which the test holds is found. -/
theorem exists_found (hfails : ∀ i < k, p (q.values i) = false) (hholds : p (q.values k) = true) :
    ∃ m, q.Found v k o m ∧ ∀ draw next, q.Begins T k draw →
      Relation.ReflTransGen (Steps T) ⟨.call (.seek v draw p) next, o⟩
        ⟨.proceed next, m.withFrames (o.seeking v draw p next (k + 1))⟩ := by
  obtain ⟨m, hawaits, hreaches⟩ :=
    exists_awaits (T := T) (o := o) hunbound hfree hvalues hfails (Nat.le_refl k)
  obtain ⟨m', hfound, -, htested⟩ :=
    hawaits.exists_tested (T := T) (p := p) hunbound hfree hvalues (Nat.le_refl k)
  refine ⟨m', hfound, fun draw next hdraw => (hreaches draw next hdraw).trans ?_⟩
  have hlast := htested draw next hdraw
  rw [hholds] at hlast
  exact hlast

/-- Once it is committed to, the stack is what it was, and nothing is left of the
sequence. -/
theorem exists_committed (hfails : ∀ i < k, p (q.values i) = false)
    (hholds : p (q.values k) = true) :
    ∃ e, q.Found v k o e ∧ e.engine.frames = o.engine.frames ∧
      ∀ draw next, q.Begins T k draw →
        Relation.ReflTransGen (Steps T) ⟨.call (.once (.seek v draw p)) next, o⟩
          ⟨.proceed next, e⟩ := by
  -- the call of `once` has pushed and retired a step before its goal is called
  let o' := (o.counted .calls 1).stepped
  obtain ⟨m, hfound, hreaches⟩ :=
    exists_found (T := T) (o := o') hunbound hfree hvalues hfails hholds
  refine ⟨((m.withFrames o.engine.frames).noted (.committed 1 o.engine.frames.length)).counted
    .commits 1, ⟨hfound.trail, hfound.store, hfound.state, hfound.answers⟩, rfl,
    fun draw next hdraw => ?_⟩
  exact .head (steps_once _) ((hreaches draw _ hdraw).tail (steps_commit _ _))

/-- What comes after the commit is called on the stack of the run, whatever it is and
whatever would be drawn later. -/
theorem exists_continued (hfails : ∀ i < k, p (q.values i) = false)
    (hholds : p (q.values k) = true) :
    ∃ e, q.Found v k o e ∧ e.engine.frames = o.base ∧ ∀ draw g next, q.Begins T k draw →
      Relation.ReflTransGen (Steps T)
        (o.first (.sequence [.conjunct [.once (.seek v draw p), g]]) next) ⟨.call g next, e⟩ := by
  let o' := ((o.pushed o.engine.trail.length .sentinel).counted .calls 1).counted .calls 1
  obtain ⟨e, hfound, hframes, hreaches⟩ :=
    exists_committed (T := T) (o := o') hunbound hfree hvalues hfails hholds
  refine ⟨e, ⟨hfound.trail, hfound.store, hfound.state, hfound.answers⟩, hframes,
    fun draw g next hdraw => ?_⟩
  refine .head (steps_single _) (.head (steps_sequence _ _ _) ?_)
  exact (hreaches draw _ hdraw).tail (steps_rest g)

end Sequence

/-! ### Runs for answers -/

namespace Machine

/-- A run for answers returns those that are collected when its steps come to an end. -/
theorem exists_collecting {g : Goal S} {next : Continuation S} {m e : Machine S} {status : Status}
    (hg : g.Steady) (hnext : next.Entry)
    (h : (m.searching.first (.sequence [g]) next).EndsWith T status e) :
    ∃ N m', e.world.SameOutput m'.world ∧ ∀ n, N ≤ n →
      collecting (executeWith (run T n) (.sequence [g]) next) m = .ok e.answers.reverse m' := by
  obtain ⟨n, hdrive⟩ := h
  obtain ⟨m', hok, hm'⟩ := (collecting_eq_ok hg hnext).mpr ⟨status, e, hdrive, rfl, .refl _⟩
  exact ⟨n + 1, m', hm', fun n' hn' => (collecting_below (run_below hn') _ _).ok hok⟩

/-- A run for the first value of which a test holds collects it, and ends. -/
theorem endsWith_seek {q : Sequence S} {v : Var} {p : S.Term → Bool} {k : Nat} {m : Machine S}
    (hunbound : m.world.store.isUnbound v = true) (hfree : m.world.store.isRestricted v = false)
    (hground : ∀ i ≤ k, (q.values i).Ground) (hfails : ∀ i < k, p (q.values i) = false)
    (hholds : p (q.values k) = true) {draw : Nat → Quiet S (Option S.Term)}
    (hdraw : q.Begins T k draw) :
    ∃ e, EndsWith T (m.searching.first (.sequence [.seek v draw p]) (.collect (.var v) .finish))
        .success e ∧ e.answers = [q.values k] ∧
      e.world.state = q.pulled (k + 1) m.world.state := by
  let o := (m.searching.pushed m.engine.trail.length .sentinel).counted .calls 1
  obtain ⟨e, hfound, hreaches⟩ := Sequence.exists_found (T := T) (o := o) hunbound hfree
    (fun i hi => (hground i hi).var?_eq_none) hfails hholds
  let e' := e.withFrames (o.seeking v draw p (.collect (.var v) .finish) (k + 1))
  -- The value is ground, so its copy is the value itself.
  have hcopy : ∃ n, ∀ i, (T.resolve? e'.world.store n (.var v)).run i =
      some (q.values k, i) := by
    have hvalue := hground k (Nat.le_refl k)
    obtain ⟨n, hn⟩ := T.exists_resolve?_self (q.values k)
    refine ⟨n, fun i => ?_⟩
    rw [show e'.world.store = e.world.store from rfl,
      Theory.resolve?_of_binding (hfound.isCell (o := o) hunbound) hfound.binding hvalue]
    exact hn _ (hvalue.settled _) i
  let done := e'.collected (q.values k) e'.world.nextObject
  have hdone : EndsWith T ⟨.proceed .finish, done⟩ .success done := ⟨1, rfl⟩
  refine ⟨done, ?_, ?_, hfound.state⟩
  · have hfinds := (hreaches draw (.collect (.var v) .finish) hdraw).tail (steps_collected hcopy _)
    exact .of_steps (.head (steps_single _) hfinds) hdone
  · show q.values k :: e.answers = _
    rw [hfound.answers]
    rfl

end Machine

/-- Values are drawn one at a time.  A run for the first value of which a test holds
pulls the values up to this one, in their order, and no other.  If it is committed to, the
goal after it is called once, on a machine that is the same whatever would be drawn
later: the variable has taken this value, the same values were pulled, and only the
sentinel of the run is on the stack.  The run for all answers returns if the run from
there comes to an end, with its answers and its private state. -/
theorem Machine.draws_lazily {q : Sequence S} {v : Var} {p : S.Term → Bool} {k : Nat}
    {m : Machine S} (hunbound : m.world.store.isUnbound v = true)
    (hfree : m.world.store.isRestricted v = false) (hground : ∀ i ≤ k, (q.values i).Ground)
    (hfails : ∀ i < k, p (q.values i) = false) (hholds : p (q.values k) = true) :
    (∀ draw, q.Begins T k draw → ∃ N m', m'.world.state = q.pulled (k + 1) m.world.state ∧
      ∀ n, N ≤ n → findFirst T n (.seek v draw p) (.var v) m = .ok (some (q.values k)) m') ∧
    ∃ e, q.Found v k m.searching e ∧ e.engine.frames = m.base ∧
      ∀ draw g t, q.Begins T k draw →
        Relation.ReflTransGen (Steps T)
            (m.searching.first (.sequence [.conjunct [.once (.seek v draw p), g]])
              (.collect t .refuse))
            ⟨.call g (.collect t .refuse), e⟩ ∧
          (g.Steady → ∀ status e', EndsWith T ⟨.call g (.collect t .refuse), e⟩ status e' →
            ∃ N m', e'.world.SameOutput m'.world ∧ ∀ n, N ≤ n →
              findAll T n (.conjunct [.once (.seek v draw p), g]) t m =
                .ok e'.answers.reverse m') := by
  constructor
  · intro draw hdraw
    obtain ⟨e, hends, hanswers, hstate⟩ :=
      endsWith_seek hunbound hfree hground hfails hholds hdraw
    obtain ⟨N, m', hm', hcollecting⟩ :=
      exists_collecting (Goal.steady_seek v draw p) (.first _) hends
    refine ⟨N, m', hm'.state.trans hstate, fun n hn => ?_⟩
    have hfind := bind_ok (f := fun as => pure as.head?) (hcollecting n hn)
    rw [hanswers] at hfind
    exact hfind
  -- the machine after the commit is chosen before the code that draws and the goal are
  · obtain ⟨e, hfound, hframes, hreaches⟩ := Sequence.exists_continued (T := T) (o := m.searching)
      hunbound hfree (fun i hi => (hground i hi).var?_eq_none) hfails hholds
    refine ⟨e, hfound, hframes, fun draw g t hdraw => ⟨hreaches draw g _ hdraw, ?_⟩⟩
    intro hg status e' hends
    have hsteady : (Goal.conjunct [.once (.seek v draw p), g]).Steady := by
      refine .sequence ?_
      simp only [List.forall_mem_cons]
      exact ⟨.once (Goal.steady_seek v draw p), hg, by simp⟩
    exact exists_collecting hsteady (.all t) (.of_steps (hreaches draw g _ hdraw) hends)

/-! ### A sample -/

namespace Machine

variable {m : Machine S} {mark : Nat} {fs : List (Frame S)}
  (hframes : m.engine.frames = ⟨.sentinel, mark⟩ :: fs)

include hframes

/-- A run that goes back to its sentinel ends. -/
theorem exists_exit :
    ∃ m', EndsWith T ⟨.backtrack, m⟩ .exit m' ∧ m'.answers = m.answers ∧
      m'.world.state = m.world.state := by
  have hretry : step T 0 (run T 0) .retry (m.undone mark) = .ok (.ended .exit) _ :=
    retry_apply (T := T) 0 (m := m.undone mark) hframes
  exact ⟨_, (steps_back hframes).endsWith ⟨1, drive_of_ended (step_mono (Nat.zero_le 1) hretry) 0⟩,
    rfl, rfl⟩

theorem exists_exit_of_fail (next : Continuation S) :
    ∃ m', EndsWith T ⟨.call .fail next, m⟩ .exit m' ∧ m'.answers = m.answers ∧
      m'.world.state = m.world.state := by
  obtain ⟨m', hends, hm'⟩ := exists_exit (T := T) (m := m.counted .calls 1) hframes
  exact ⟨m', steps_fail.endsWith hends, hm'⟩

theorem exists_exit_of_succeed {t a : S.Term}
    (ht : ∃ n, ∀ i, (T.resolve? m.world.store n t).run i = some (a, i)) :
    ∃ m', EndsWith T ⟨.call .succeed (.collect t .refuse), m⟩ .exit m' ∧
      m'.answers = a :: m.answers ∧ m'.world.state = m.world.state := by
  let m₁ := m.counted .calls 1
  let m₂ := m₁.collected a m.world.nextObject
  have hframes' : (m₂.counted .calls 1).engine.frames = ⟨.sentinel, mark⟩ :: fs := by
    rw [counted_frames, collected_frames, counted_frames, hframes]
  obtain ⟨m', hends, hm'⟩ := exists_exit (T := T) hframes'
  have hcollected : Steps T ⟨.proceed (.collect t .refuse), m₁⟩ ⟨.proceed .refuse, m₂⟩ :=
    steps_collected (m := m₁) ht .refuse
  exact ⟨m', steps_succeed.endsWith (hcollected.endsWith (steps_refuse.endsWith hends)), hm'⟩

end Machine

/-- The vocabulary without structures and guards, with a private state that lists
positions. -/
abbrev Squares.vocabulary : Vocabulary := ⟨Empty, Empty, List Nat⟩

/-- The theory of variables that take every value. -/
def Squares.theory : Theory Squares.vocabulary where
  unifyWith label := nomatch label
  copies label := nomatch label
  render label := nomatch label
  admits guard := nomatch guard

/-- The squares.  Their positions are listed as they are pulled. -/
def Squares.sequence : Sequence Squares.vocabulary :=
  ⟨fun i => .int (i * i), fun i state => state ++ [i]⟩

/-- Code that draws the squares without end. -/
def Squares.draw (i : Nat) : Quiet Squares.vocabulary (Option Squares.vocabulary.Term) :=
  .ask .state fun (state : List Nat) =>
    .ask (.put (state ++ [i])) fun _ => .done (some (.int (i * i)))

/-- Whether a term is an integer greater than five. -/
def Squares.large : Squares.vocabulary.Term → Bool
  | .int n => 5 < n
  | _ => false

/-- A machine with a frame and a saved slot that belong to no run. -/
def Squares.used : Machine Squares.vocabulary :=
  ⟨⟨.standard, ⟨[⟨⟨3⟩, none⟩]⟩, [⟨.step, 1⟩], .empty⟩, .start [], []⟩

/-- The first square greater than five is nine.  Four squares are pulled to find it,
whether the goal after it succeeds or fails. -/
theorem Machine.draws_lazily_squares :
    let seek := Goal.seek ⟨1⟩ Squares.draw Squares.large
    ∃ n m₁ m₂ m₃,
      findFirst Squares.theory n seek (.var ⟨1⟩) Squares.used = .ok (some (.int 9)) m₁ ∧
      findAll Squares.theory n (.conjunct [.once seek, .succeed]) (.int 0) Squares.used =
        .ok [.int 0] m₂ ∧
      findAll Squares.theory n (.conjunct [.once seek, .fail]) (.int 0) Squares.used = .ok [] m₃ ∧
      m₁.world.state = [0, 1, 2, 3] ∧ m₂.world.state = [0, 1, 2, 3] ∧
      m₃.world.state = [0, 1, 2, 3] := by
  intro seek
  -- The code and the sequence are the same here at every position.
  have hbegins : Squares.sequence.Begins Squares.theory 3 Squares.draw := fun _ _ _ _ => rfl
  obtain ⟨hfirst, e, hfound, hframes, hall⟩ := Machine.draws_lazily (T := Squares.theory)
    (q := Squares.sequence) (v := ⟨1⟩) (p := Squares.large) (k := 3) (m := Squares.used)
    (by decide +kernel) (by decide +kernel) (fun i _ => .int _) (by decide) (by decide)
  have hcopy : ∃ n, ∀ i, (Squares.theory.resolve? e.world.store n (.int 0)).run i =
      some (.int 0, i) := by
    obtain ⟨n, hn⟩ := Squares.theory.exists_resolve?_self (.int 0)
    exact ⟨n, hn _ (.int 0)⟩
  obtain ⟨N₁, m₁, hm₁, hfinds⟩ := hfirst Squares.draw hbegins
  obtain ⟨e₂, hends₂, hanswers₂, hstate₂⟩ := exists_exit_of_succeed hframes hcopy
  obtain ⟨N₂, m₂, hm₂, hsucceeds⟩ :=
    (hall Squares.draw .succeed (.int 0) hbegins).2 .succeed .exit e₂ hends₂
  obtain ⟨e₃, hends₃, hanswers₃, hstate₃⟩ :=
    exists_exit_of_fail (T := Squares.theory) hframes (.collect (.int 0) .refuse)
  obtain ⟨N₃, m₃, hm₃, hfails⟩ :=
    (hall Squares.draw .fail (.int 0) hbegins).2 .fail .exit e₃ hends₃
  have hanswers : e.answers = [] := hfound.answers
  have hpulled : e.world.state = [0, 1, 2, 3] := hfound.state
  rw [hanswers₂, hanswers] at hsucceeds
  rw [hanswers₃, hanswers] at hfails
  -- One bound serves all three runs.
  exact ⟨N₁ + N₂ + N₃, m₁, m₂, m₃, hfinds _ (by omega), hsucceeds _ (by omega),
    hfails _ (by omega), hm₁, hm₂.state.trans (hstate₂.trans hpulled),
    hm₃.state.trans (hstate₃.trans hpulled)⟩

/-- The integers from zero on, which leave no trace when they are pulled. -/
def Bounds.naturals : Sequence Bounds.vocabulary := ⟨fun i => .int i, fun _ state => state⟩

/-- Code that draws these integers. -/
def Bounds.draw (i : Nat) : Quiet Bounds.vocabulary (Option Bounds.vocabulary.Term) :=
  .done (some (.int i))

/-- Whether a term is a positive integer. -/
def Bounds.positive : Bounds.vocabulary.Term → Bool
  | .int n => 0 < n
  | _ => false

/-- A goal after the commit that puts a new engine in place of one with a trail comes to
an end, but the run for all answers does not return.  Nor does it if the goal succeeds at
once and the template has no copy. -/
theorem Machine.renewals_and_knots_after_commit :
    let renewing := Goal.conjunct [.once (.seek ⟨1⟩ Bounds.draw Bounds.positive), Bounds.renewal]
    let knotting := Goal.conjunct [.once (.seek ⟨3⟩ Bounds.draw Bounds.positive), .succeed]
    (∃ e, EndsWith Bounds.theory
        (Bounds.used.searching.first (.sequence [renewing]) (.collect (.int 0) .refuse)) .exit e) ∧
      (∀ n as m, findAll Bounds.theory n renewing (.int 0) Bounds.used ≠ .ok as m) ∧
      ∀ n as m, findAll Bounds.theory n knotting (.var ⟨1⟩) Bounds.knotted ≠ .ok as m := by
  intro renewing knotting
  refine ⟨?_, ?_, ?_⟩
  · have hends : result? (drive Bounds.theory 30 (run Bounds.theory 30)
        (.call (.sequence [renewing]) (.collect (.int 0) .refuse)) 30)
        (Bounds.used.searching.first (.sequence [renewing])
          (.collect (.int 0) .refuse)).machine = some .exit := by
      decide +kernel
    obtain ⟨e, he⟩ := result?_eq_some.mp hends
    exact ⟨e, 30, he⟩
  · have hstops : stop? (findAll Bounds.theory 30 renewing (.int 0)) Bounds.used =
        some (.fault .unbalancedTrail) := by
      decide +kernel
    obtain ⟨m, hm⟩ := stop?_eq_some.mp hstops
    exact fun n => Below.ne_ok_of_fault (x := fun n => findAll Bounds.theory n renewing (.int 0))
      (fun _ _ hij => collecting_below (run_below hij) _ _) hm n
  · have hbegins : Bounds.naturals.Begins Bounds.theory 1 Bounds.draw := fun _ _ _ _ => rfl
    obtain ⟨e, hfound, -, hsteps⟩ := Sequence.exists_continued (T := Bounds.theory)
      (q := Bounds.naturals) (v := ⟨3⟩) (p := Bounds.positive) (k := 1)
      (o := Bounds.knotted.searching) rfl rfl (fun _ _ => rfl) (by decide) (by decide)
    -- the value of another variable unties nothing
    have hcells : ∀ v, e.world.store.isCell v = Bounds.knotted.world.store.isCell v := by
      intro v
      rw [Store.isCell_congr hfound.store, Store.isCell_set]
      rfl
    have hbindings : ∀ v, v ≠ ⟨3⟩ →
        e.world.store.binding v = Bounds.knotted.world.store.binding v := by
      intro v hv
      rw [Store.binding_congr hfound.store, Store.binding_set, if_neg (Ne.symm hv)]
      rfl
    have hcell : e.world.store.isCell ⟨2⟩ = true := hcells ⟨2⟩
    have hderef : e.world.store.deref (.var ⟨1⟩) = .var ⟨2⟩ := by
      refine Store.deref_of_step? (hcells ⟨1⟩) (hbindings ⟨1⟩ (by decide)) ?_
      rw [Store.step?, hcell]
      rfl
    have hendless := Bounds.theory.endless_of_knot (hcells ⟨1⟩) hderef hcell
      (hbindings ⟨2⟩ (by decide))
    have hsteady : knotting.Steady := by
      refine .sequence ?_
      simp only [List.forall_mem_cons]
      exact ⟨.once (Goal.steady_seek _ _ _), .succeed, by simp⟩
    exact collecting_ne_of_steps hsteady (.all _)
      ((hsteps Bounds.draw .succeed _ hbegins).tail steps_succeed) hendless.1

end GoalSearch
