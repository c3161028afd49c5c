/-
The trace of the frames.

With tracing on, an engine records each frame that it pushes, retries or pops and each
commit.  Retired frames leave no record, and neither do the single frames that a commit
drops, so the depth may jump from one record to the next.  Still the records can be read
without the stack: the last push at a depth tells which frame is there whenever a later
record is about this depth, and a commit tells how many frames there were above it.

* `Record.lastPushed` — the kind of frame that was pushed last at a depth;
* `Record.Tells` — what a record about frames says of the stacks before and after it;
* `Machine.Acts.log` — every act writes one record about frames, or none;
* `Machine.Emits`, `Machine.Traced` — sequences of acts, and of uses of an engine, with the
  records they have written;
* `Machine.Emits.labelled` — every frame on the stack was the last to be pushed at its height;
* `Machine.Emits.moment` — the moment at which a record was written;
* `Machine.trace_wellFormed` — the records of a new engine are well formed.

Design notes: between two uses the world may change in every way, so other engines may write
to the same log; only what this engine has written is kept here.  Nothing is assumed about
programs: they may start the engine afresh in the middle of a run, or stop there.
-/
import GoalSearch.Proofs.Chronicle

namespace GoalSearch

open GoalSearch.Action

variable {S : Vocabulary} {T : Theory S}

/-! ### Reading records -/

namespace Record

/-- The kind of frame that was pushed last at a depth, by records, newest first. -/
def lastPushed (d : Nat) : List Record → Option FrameKind
  | [] => none
  | .pushed k d' :: rs => if d' = d then some k else lastPushed d rs
  | _ :: rs => lastPushed d rs

/-- The kinds of frames on a stack, top first, are those pushed last at their heights. -/
def Labelled (rs : List Record) : List FrameKind → Prop
  | [] => True
  | k :: ks => lastPushed (ks.length + 1) rs = some k ∧ Labelled rs ks

variable {r : Record} {rs newer : List Record} {k : FrameKind} {ks ks' : List FrameKind} {d : Nat}

/-- A record that is not about a push does not change which one was last. -/
theorem lastPushed_cons (hr : ∀ k d, r ≠ .pushed k d) (d : Nat) (rs : List Record) :
    lastPushed d (r :: rs) = lastPushed d rs := by
  cases r with
  | pushed k d => exact absurd rfl (hr k d)
  | _ => rfl

theorem Labelled.suffix (h : Labelled rs ks) (hks : ks' <:+ ks) : Labelled rs ks' := by
  induction ks with
  | nil =>
    rw [List.suffix_nil.mp hks]
    trivial
  | cons k ks ih =>
    rcases List.suffix_cons_iff.mp hks with rfl | hks
    · exact h
    · exact ih h.2 hks

theorem Labelled.cons (h : Labelled rs ks) (hr : ∀ k d, r ≠ .pushed k d) :
    Labelled (r :: rs) ks := by
  induction ks with
  | nil => trivial
  | cons k ks ih => exact ⟨(lastPushed_cons hr _ rs).trans h.1, ih h.2⟩

theorem Labelled.append (h : Labelled rs ks) (hnewer : ∀ r ∈ newer, r.isFrame = false) :
    Labelled (newer ++ rs) ks := by
  induction newer with
  | nil => exact h
  | cons r newer ih =>
    obtain ⟨hr, hnewer⟩ := List.forall_mem_cons.mp hnewer
    refine (ih hnewer).cons fun k d heq => ?_
    rw [heq] at hr
    cases hr

/-- A push above the stack says nothing about the frames below. -/
theorem Labelled.cons_pushed (h : Labelled rs ks) (hd : ks.length < d) :
    Labelled (.pushed k d :: rs) ks := by
  induction ks with
  | nil => trivial
  | cons k' ks ih =>
    rw [List.length_cons] at hd
    refine ⟨?_, ih h.2 (by omega)⟩
    rw [lastPushed, if_neg (by omega)]
    exact h.1

theorem Labelled.push (h : Labelled rs ks) (k : FrameKind) :
    Labelled (.pushed k (ks.length + 1) :: rs) (k :: ks) :=
  ⟨if_pos rfl, h.cons_pushed (Nat.lt_succ_self _)⟩

end Record

/-- The kinds of the frames on a stack, top first. -/
def kinds (F : List (Frame S)) : List FrameKind := F.map (·.activation.kind)

/-- The frames above a height, counted from the bottom of the stack. -/
def above (height : Nat) (F : List (Frame S)) : List (Frame S) := F.reverse.drop height

theorem length_above (height : Nat) (F : List (Frame S)) :
    (above height F).length = F.length - height := by
  rw [above, List.length_drop, List.length_reverse]

/-! ### Every act and its record -/

/-- What a record about frames says of the machines before and after it. -/
def Record.Tells (m m' : Machine S) : Record → Prop
  | .pushed k d => d = m.engine.depth + 1 ∧ kinds m'.engine.frames = k :: kinds m.engine.frames
  | .retried k d => d = m.engine.depth ∧ k ≠ .step ∧
      (kinds m.engine.frames).head? = some k ∧ m'.engine.frames = m.engine.frames
  | .popped k d => d = m.engine.depth ∧ k ≠ .step ∧
      (kinds m.engine.frames).head? = some k ∧ m'.engine.frames = m.engine.frames.tail
  | .committed n d => n = (above d m.engine.frames).length ∧ m' = m.committed d
  | _ => False

namespace Machine

variable {start m m' : Machine S} {rs rs' : List Record}

theorem Acts.config (h : Acts T m m') : m'.engine.config = m.engine.config := by
  cases h with
  | unify fuel a b => exact (unify_last T fuel a b m).2.2
  | apart h => exact h.config
  | _ => rfl

theorem noted_log (m : Machine S) (hon : m.engine.config.tracing = true) (r : Record) :
    (m.noted r).world.log = r :: m.world.log :=
  if_pos hon

/-- A commit records how many frames are above the height to which it drops the stack. -/
theorem committed_log (m : Machine S) (hon : m.engine.config.tracing = true) (height : Nat) :
    (m.committed height).world.log =
      .committed (above height m.engine.frames).length height :: m.world.log := by
  rw [length_above]
  exact noted_log (m.withFrames _) hon _

/-- With tracing on, an act writes one record about frames, which tells what has happened;
or it writes none, and nothing is on the stack that was not there before. -/
theorem Acts.log (h : Acts T m m') (hon : m.engine.config.tracing = true) :
    (∃ r, m'.world.log = r :: m.world.log ∧ r.Tells m m') ∨
      (Record.Adds m.world.log m'.world.log ∧
        kinds m'.engine.frames <:+ kinds m.engine.frames) := by
  cases h with
  | push mark a => exact .inl ⟨_, noted_log m hon _, rfl, rfl⟩
  | @retry f fs hframes hkind =>
    refine .inl ⟨_, noted_log m hon _, rfl, hkind, ?_, rfl⟩
    rw [hframes]
    rfl
  | @pop f fs hframes hkind =>
    refine .inl ⟨_, noted_log (m.withFrames fs) hon _, ?_, hkind, ?_, ?_⟩
    · rw [Engine.depth, hframes]
      rfl
    · rw [hframes]
      rfl
    · rw [hframes]
      rfl
  | @retire f fs hframes =>
    refine .inr ⟨.refl _, ?_⟩
    rw [hframes]
    exact List.suffix_cons _ _
  | commit height => exact .inl ⟨_, committed_log m hon height, rfl, rfl⟩
  | undo mark => exact .inr ⟨.refl _, List.suffix_refl _⟩
  | unify fuel a b =>
    -- Guards may write records of their own, but none about frames.
    obtain ⟨hscope, hframes, -⟩ := unify_last T fuel a b m
    refine .inr ⟨?_, by rw [hframes]⟩
    have hlog := unify_tracks (Scope.tracks_log T) fuel a b m.scope
    rw [← hscope] at hlog
    exact hlog
  | renew => exact .inr ⟨.refl _, List.nil_suffix⟩
  | apart h => exact .inr ⟨h.world.log, by rw [kinds, h.kinds, kinds]⟩

/-! ### Sequences of acts and the records they write -/

/-- Sequences of acts, with the records that they write, newest first.  In between, the world
and the answers may change in every way. -/
inductive Emits (T : Theory S) (start : Machine S) : List Record → Machine S → Prop
  | start : Emits T start [] start
  | act {rs newer : List Record} {m m' : Machine S} :
      Emits T start rs m → Acts T m m' → m'.world.log = newer ++ m.world.log →
      Emits T start (newer ++ rs) m'
  | meanwhile {rs : List Record} {m : Machine S} (world : World S) (answers : List S.Term) :
      Emits T start rs m → Emits T start rs { m with world, answers }

theorem Emits.config (h : Emits T start rs m) : m.engine.config = start.engine.config := by
  induction h with
  | start => rfl
  | act _ hact _ ih => rw [hact.config, ih]
  | meanwhile _ _ _ ih => exact ih

/-- A sequence of acts writes records, and takes none back. -/
theorem Emits.acted (h : Emits T start rs m) (hacted : m.Acted T m')
    (hon : start.engine.config.tracing = true) :
    ∃ newer, m'.world.log = newer ++ m.world.log ∧ Emits T start (newer ++ rs) m' := by
  induction hacted with
  | refl => exact ⟨[], rfl, h⟩
  | @tail m₁ m₂ _ hact ih =>
    obtain ⟨newer, hlog, hemits⟩ := ih
    have hon₁ : m₁.engine.config.tracing = true := by rw [hemits.config, hon]
    have hgrows : ∃ newest, m₂.world.log = newest ++ m₁.world.log := by
      rcases hact.log hon₁ with ⟨r, hr, -⟩ | ⟨⟨newest, hnewest, -⟩, -⟩
      · exact ⟨[r], hr⟩
      · exact ⟨newest, hnewest⟩
    obtain ⟨newest, hnewest⟩ := hgrows
    refine ⟨newest ++ newer, ?_, ?_⟩
    · rw [hnewest, hlog, List.append_assoc]
    · rw [List.append_assoc]
      exact .act hemits hact hnewest

/-- Every frame on the stack was the last to be pushed at its height. -/
theorem Emits.labelled (h : Emits T start rs m) (hstart : start.engine.frames = [])
    (hon : start.engine.config.tracing = true) : Record.Labelled rs (kinds m.engine.frames) := by
  induction h with
  | start =>
    rw [hstart]
    trivial
  | @act rs newer m m' hemits hact hlog ih =>
    have hon' : m.engine.config.tracing = true := by rw [hemits.config, hon]
    rcases hact.log hon' with ⟨r, hr, htells⟩ | ⟨⟨added, hadded, hplain⟩, hkinds⟩
    · -- one record was written, and what it tells says which frames are on the stack now
      obtain rfl : newer = [r] := List.append_cancel_right (hlog.symm.trans hr)
      rw [List.singleton_append]
      cases r with
      | pushed k d =>
        obtain ⟨rfl, hkinds⟩ := htells
        rw [hkinds]
        have hlength : (kinds m.engine.frames).length = m.engine.depth := List.length_map _
        rw [← hlength]
        exact ih.push k
      | retried k d =>
        rw [htells.2.2.2]
        exact ih.cons (by simp)
      | popped k d =>
        rw [htells.2.2.2]
        -- The frames that are left were pushed before, and popping pushes none.
        have hsuffix : kinds m.engine.frames.tail <:+ kinds m.engine.frames := by
          rw [kinds, List.map_tail]
          exact List.tail_suffix _
        exact (ih.suffix hsuffix).cons (by simp)
      | committed n d =>
        obtain ⟨-, rfl⟩ := htells
        have hsuffix : kinds (m.committed d).engine.frames <:+ kinds m.engine.frames := by
          rw [committed_frames, kinds, List.map_drop]
          exact List.drop_suffix _ _
        exact (ih.suffix hsuffix).cons (by simp)
      | said | runStarted | runFinished | refused => exact htells.elim
    · obtain rfl : newer = added := List.append_cancel_right (hlog.symm.trans hadded)
      exact (ih.suffix hkinds).append hplain
  | meanwhile _ _ _ ih => exact ih

/-- Every record about frames was written by one act; the records before it had been
written by then, and those after it were written since. -/
theorem Emits.moment (h : Emits T start rs m) (hon : start.engine.config.tracing = true)
    {newer older : List Record} {r : Record} (hsplit : rs = newer ++ r :: older)
    (hr : r.isFrame = true) :
    ∃ m₁ m₂, Emits T start older m₁ ∧ r.Tells m₁ m₂ ∧ Emits T m₂ newer m := by
  induction h generalizing newer with
  | start => simp at hsplit
  | @act rs written m m' hemits hact hlog ih =>
    have hon' : m.engine.config.tracing = true := by rw [hemits.config, hon]
    have hlater : ∀ newer', rs = newer' ++ r :: older → newer = written ++ newer' →
        ∃ m₁ m₂, Emits T start older m₁ ∧ r.Tells m₁ m₂ ∧ Emits T m₂ newer m' := by
      rintro newer' hrs rfl
      obtain ⟨m₁, m₂, hbefore, htells, hafter⟩ := ih hrs
      exact ⟨m₁, m₂, hbefore, htells, .act hafter hact hlog⟩
    rcases hact.log hon' with ⟨r', hr', htells⟩ | ⟨⟨added, hadded, hplain⟩, -⟩
    · obtain rfl : written = [r'] := List.append_cancel_right (hlog.symm.trans hr')
      cases newer with
      | nil =>
        cases hsplit
        exact ⟨m, m', hemits, htells, .start⟩
      | cons x newer =>
        cases hsplit
        exact hlater newer rfl rfl
    · obtain rfl : written = added := List.append_cancel_right (hlog.symm.trans hadded)
      rcases List.append_eq_append_iff.mp hsplit with ⟨newer', rfl, hrs⟩ | ⟨rest, hwritten, hrest⟩
      · exact hlater newer' hrs rfl
      · cases rest with
        | nil => exact hlater [] hrest.symm (by simpa using hwritten.symm)
        | cons x rest =>
          -- a record about frames would be among those that the act has added
          cases hrest
          have hx := hplain r (by rw [hwritten]; simp)
          rw [hx] at hr
          cases hr
  | meanwhile world answers _ ih =>
    obtain ⟨m₁, m₂, hbefore, htells, hafter⟩ := ih hsplit
    exact ⟨m₁, m₂, hbefore, htells, .meanwhile world answers hafter⟩

/-! ### Everything that is done with an engine -/

/-- The uses of an engine, one after the other, with the records that they write, newest
first.  A use may end or stop; in between, the world may change in every way. -/
inductive Traced (T : Theory S) (start : Machine S) : List Record → Machine S → Prop
  | start : Traced T start [] start
  | use {rs newer : List Record} {m : Machine S} {κ : Kind} (n : Nat)
      (p : Program S (Goal S) κ) :
      Traced T start rs m →
      ((p.exec T n (run T n)).last m).world.log = newer ++ m.world.log →
      Traced T start (newer ++ rs) ((p.exec T n (run T n)).last m)
  | meanwhile {rs : List Record} {m : Machine S} (world : World S) (answers : List S.Term) :
      Traced T start rs m → Traced T start rs { m with world, answers }

/-- A use of an engine is a sequence of acts. -/
theorem Traced.emits (h : Traced T start rs m) (hon : start.engine.config.tracing = true) :
    Emits T start rs m := by
  induction h with
  | start => exact .start
  | use n p _ hlog ih =>
    obtain ⟨newer', hlog', hemits⟩ := ih.acted (exec_acted T n p _) hon
    rw [List.append_cancel_right (hlog.symm.trans hlog')]
    exact hemits
  | meanwhile world answers _ ih => exact .meanwhile world answers ih

/-- Records that can be read without the stack.  A record of a frame that is retried or popped
names the kind of the frame that was pushed last at its depth, and this is no step.  A record
of a commit tells how many frames were above the depth to which it committed, when the records
before it had been written, and the others were written from there on. -/
structure WellFormed (T : Theory S) (start : Machine S) (rs : List Record) (m : Machine S) :
    Prop where
  labels : ∀ newer older k d,
    rs = newer ++ .retried k d :: older ∨ rs = newer ++ .popped k d :: older →
      Record.lastPushed d older = some k ∧ k ≠ .step
  commits : ∀ newer older n d, rs = newer ++ .committed n d :: older →
    ∃ m₁, Emits T start older m₁ ∧ n = (above d m₁.engine.frames).length ∧
      Emits T (m₁.committed d) newer m

/-- The frame at the top of a stack is the one that was pushed last at this depth. -/
theorem Emits.lastPushed_top (h : Emits T start rs m) (hstart : start.engine.frames = [])
    (hon : start.engine.config.tracing = true) {k : FrameKind}
    (htop : (kinds m.engine.frames).head? = some k) :
    Record.lastPushed m.engine.depth rs = some k := by
  have hlabelled := h.labelled hstart hon
  obtain ⟨ks, hks⟩ := List.head?_eq_some_iff.mp htop
  have hdepth : m.engine.depth = ks.length + 1 := by
    have hlength : (kinds m.engine.frames).length = m.engine.depth := List.length_map _
    rw [← hlength, hks, List.length_cons]
  rw [hks] at hlabelled
  rw [hdepth]
  exact hlabelled.1

/-- Whatever programs have made a new engine do, with tracing on, the records it has written
are well formed.  All that a program writes is added to the log, and what a commit writes is
the number of frames above its height on the stack to which it is applied. -/
theorem trace_wellFormed {config : Config} (hstart : start.engine = .new config)
    (hon : config.tracing = true) (h : Traced T start rs m) :
    WellFormed T start rs m ∧
      (∀ (n : Nat) {κ : Kind} (p : Program S (Goal S) κ), ∃ newer,
        ((p.exec T n (run T n)).last m).world.log = newer ++ m.world.log) ∧
      ∀ (d : Nat) (m : Machine S), m.engine.config.tracing = true → ∃ m',
        commit d m = .ok () m' ∧ above d m'.engine.frames = [] ∧
          m'.world.log = .committed (above d m.engine.frames).length d :: m.world.log := by
  have hframes : start.engine.frames = [] := by
    rw [hstart]
    rfl
  have htracing : start.engine.config.tracing = true := by
    rw [hstart]
    exact hon
  have hemits := h.emits htracing
  refine ⟨⟨?_, ?_⟩, fun n κ p => ?_, fun d m' htraced => ?_⟩
  · rintro newer older k d (hsplit | hsplit)
    · -- At the moment of the record, the frame it names was on top.
      obtain ⟨m₁, m₂, hbefore, ⟨rfl, hkind, htop, -⟩, -⟩ := hemits.moment htracing hsplit rfl
      exact ⟨hbefore.lastPushed_top hframes htracing htop, hkind⟩
    · obtain ⟨m₁, m₂, hbefore, ⟨rfl, hkind, htop, -⟩, -⟩ := hemits.moment htracing hsplit rfl
      exact ⟨hbefore.lastPushed_top hframes htracing htop, hkind⟩
  · intro newer older n d hsplit
    obtain ⟨m₁, m₂, hbefore, ⟨hcount, rfl⟩, hafter⟩ := hemits.moment htracing hsplit rfl
    exact ⟨m₁, hbefore, hcount, hafter⟩
  · obtain ⟨newer, hlog, -⟩ := hemits.acted (exec_acted T n p m) htracing
    exact ⟨newer, hlog⟩
  · refine ⟨_, commit_apply m' d, ?_, committed_log m' htraced d⟩
    rw [← List.length_eq_zero_iff, length_above, committed_frames, List.length_drop, Engine.depth]
    omega

end Machine

/-- A machine with a new engine that records its frames. -/
def Bounds.watched : Machine Bounds.vocabulary := ⟨.new ⟨true, true⟩, .start (), []⟩

/-- The program is run twice on one engine, while another one writes to the log in between.
The engine commits and pops frames, and its records are well formed. -/
theorem Machine.trace_wellFormed_audit : ∃ rs m,
    Traced Bounds.theory Bounds.watched rs m ∧ .committed 2 2 ∈ rs ∧
      .popped .predicate 2 ∈ rs ∧ WellFormed Bounds.theory Bounds.watched rs m := by
  have hcommitted : Record.committed 2 2 ∈ ((Bounds.audit.exec Bounds.theory 60
      (run Bounds.theory 60)).last Bounds.watched).world.log := by
    decide +kernel
  have hpopped : Record.popped .predicate 2 ∈ ((Bounds.audit.exec Bounds.theory 60
      (run Bounds.theory 60)).last Bounds.watched).world.log := by
    decide +kernel
  have hstart : Traced Bounds.theory Bounds.watched [] Bounds.watched := .start
  obtain ⟨newer, hnewer⟩ := (trace_wellFormed rfl rfl hstart).2.1 60 Bounds.audit
  have hfirst := hstart.use 60 Bounds.audit hnewer
  -- the log was empty at the start, so all of it was written in the first use
  rw [show Bounds.watched.world.log = [] from rfl] at hnewer
  rw [hnewer] at hcommitted hpopped
  generalize (Bounds.audit.exec Bounds.theory 60 (run Bounds.theory 60)).last Bounds.watched = m
    at hfirst
  have hother := hfirst.meanwhile { m.world with log := .said "other" :: m.world.log } []
  obtain ⟨newest, hnewest⟩ := (trace_wellFormed rfl rfl hother).2.1 60 Bounds.audit
  have hsecond := hother.use 60 Bounds.audit hnewest
  exact ⟨_, _, hsecond, List.mem_append_right _ hcommitted, List.mem_append_right _ hpopped,
    (trace_wellFormed rfl rfl hsecond).1⟩

end GoalSearch
