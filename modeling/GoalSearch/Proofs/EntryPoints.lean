/-
The three ways to run a goal agree.

A run to the first solution, a run for an answer and a run for all answers take
the same steps until they come to their ends for the first time.  The first of
them then ends, the second one ends as soon as it has kept its answer, and the
third one goes back for more.  So if the third one ends, the others do, with the
first of its answers and with whether it has any; and what they have done till
then is what it has done first.

* `Comparison.exactly` — engines that differ in their counters only;
* `Machine.drive_until` — the same steps until both runs are at their ends;
* `Machine.Abreast.grows` — rows and answers are put on top of earlier ones;
* `Machine.entry_points_agree` — execute, findFirst and findAll;
* `Machine.entry_points_differ` — code for which they do not agree.

Design notes: the search for an answer counts one call more than the run to the
first solution, as it calls a sequence of the goal and of what keeps the answer.
Whoever reads the counter of calls can tell these runs apart, unless counters are
not kept.
-/
import GoalSearch.Proofs.Independence
import GoalSearch.Proofs.Semantics

namespace GoalSearch

open GoalSearch.Action GoalSearch.Configuration

variable {S : Vocabulary} {T : Theory S}

/-! ### Engines that differ in their counters only -/

/-- Relations between counters that counting keeps. -/
structure Statistics.Kept (K : Statistics → Statistics → Prop) : Prop where
  refl : ∀ s, K s s
  add : ∀ {s s'} c n, K s s' → K (s.add c n) (s'.add c n)
  raise : ∀ {s s'} c n, K s s' → K (s.raise c n) (s'.raise c n)

/-- Views that agree, up to the counters. -/
structure View.Agree (K : Statistics → Statistics → Prop) (v v' : View) : Prop where
  depth : v.depth = v'.depth
  trail : v.trail = v'.trail
  config : v.config = v'.config
  statistics : K v.statistics v'.statistics

variable {K : Statistics → Statistics → Prop} {hK : Statistics.Kept K}

/-- The comparison of engines that agree, up to their counters. -/
def Comparison.exactly (T : Theory S) (hK : Statistics.Kept K) : Comparison T where
  exact := True
  counters := K
  empty := hK.refl _
  add := hK.add
  raise := hK.raise
  loose := False
  inert := False.elim
  views := View.Agree K
  seen h := by
    obtain ⟨hdepth, htrail, hconfig, hstatistics⟩ := h trivial
    exact ⟨hdepth, htrail, hconfig, hstatistics⟩
  stores := Eq
  room h := by
    rcases h with h | ⟨h, -⟩
    · exact h
    · exact h.elim

theorem Comparison.exactly_heeds (T : Theory S) (hK : Statistics.Kept K) :
    T.Heeds (Comparison.exactly T hK).stores :=
  T.heeds_of_eq fun _ _ h => h

section Beside

variable {E E' : Continuation S → Continuation S → Prop} {C : Comparison T} {l r m m' : Machine S}
  {A A' : List S.Term → List S.Term → Prop} {k k' k₀ : Continuation S}
  {upper upper' : List (Frame S)} {n : Nat}

theorem Continuation.Twin.left (h : k.Twin C E l r k') (hE : ∀ k k', E k k' → E' k k)
    (w : World S) : k.Twin C E' { l with world := w } { l with world := w } k := by
  induction h with
  | closing h => exact .closing (hE _ _ h)
  | sequence hrest _ ih => exact .sequence hrest ih
  | call hg _ ih => exact .call hg ih
  | commit _ ih => exact .commit ih

theorem Frame.Twin.left {f f' : Frame S} (h : f.Twin C E l r f')
    (hE : ∀ k k', E k k' → E' k k) (w : World S) :
    f.Twin C E' { l with world := w } { l with world := w } f := by
  obtain ⟨a, mark⟩ := f
  obtain ⟨a', mark'⟩ := f'
  obtain ⟨ha, i, hmark, -⟩ := h
  refine ⟨?_, i, hmark, hmark⟩
  cases ha with
  | step => exact .step
  | candidates hdraw hcandidate hvalidate hk =>
    exact .candidates hdraw hcandidate hvalidate (hk.left hE w)
  | branches hrest hk => exact .branches hrest (hk.left hE w)
  | search hhandler hchoices hk => exact .search hhandler hchoices (hk.left hE w)

namespace Machine

/-- A comparison of a machine with itself, with a start at which the world was
that of the machine at hand. -/
theorem Abreast.beside {F F' : List (Frame S)}
    (h : Abreast (Comparison.exactly T hK) A l r F F' m m') (hA' : A' m.answers m.answers) :
    Abreast (Comparison.exactly T hK) A' { l with world := m.world } { l with world := m.world }
      F F m m where
  frames := h.frames
  frames' := h.frames
  marks _ := rfl
  depths _ := rfl
  config _ := rfl
  counters _ := hK.refl _
  scopes := by
    obtain ⟨new, hnew, -⟩ := h.scopes.trail
    exact ⟨⟨new, hnew, hnew⟩, .inl rfl, rfl, .inl rfl, .refl _ _⟩
  answers := hA'
  later := False.elim

/-- What a run does from its end on is put on top of what it has done before. -/
theorem Abreast.grows (h : Abreast (Comparison.exactly T hK) A l r (upper ++ l.base)
      (upper' ++ r.base) m m')
    (hframes : List.Forall₂ (Frame.Twin (Comparison.exactly T hK) E l r) upper upper')
    (hk₀ : k₀.Entry) (hE : ∀ k k', E k k' → k₀.Closing k) (hk : k₀.Closing k) {j : Nat}
    {status : Status} {m₁ : Machine S}
    (hok : drive T n (run T n) (.proceed k) j m = .ok status m₁) :
    m.world.rows <:+ m₁.world.rows ∧ m.answers <:+ m₁.answers := by
  let start : Machine S := { l with world := m.world }
  let same : Continuation S → Continuation S → Prop := fun k k' => k = k' ∧ k₀.Closing k
  -- The run is compared with itself, so that only the answers and rows before it are forgotten.
  have hbeside : Abreast (Comparison.exactly T hK) (Over m.answers m.answers) start start
      (upper ++ l.base) (upper ++ l.base) m m := h.beside (.refl _ _)
  have hleft :
      List.Forall₂ (Frame.Twin (Comparison.exactly T hK) same start start) upper upper := by
    clear h hbeside
    induction hframes with
    | nil => exact .nil
    | cons hf _ ih => exact .cons (hf.left (fun k k' h => ⟨rfl, hE k k' h⟩) m.world) ih
  have htwins : Twins (Comparison.exactly T hK) same start start (Over m.answers m.answers)
      (.task (.proceed k)) m (.task (.proceed k)) m :=
    ⟨upper, upper, hbeside, hleft, .task (.proceed (.closing ⟨rfl, hk⟩))⟩
  have hT := Comparison.exactly_heeds T hK
  have hclosing : Closes (Comparison.exactly T hK) same start start (Over m.answers m.answers) n :=
    closes_same hk₀ (fun _ a _ _ hL => hL.cons a) n
  have hdrive := drive_twins hT (run_paced hT n) hclosing htwins j
  obtain ⟨_, _, -, -, _, _, h₁, -⟩ := hdrive.ok hok
  obtain ⟨rows, hrows, -⟩ := h₁.scopes.world.rows
  obtain ⟨answers, hanswers, -⟩ := h₁.answers
  exact ⟨⟨rows, hrows.symm⟩, ⟨answers, hanswers.symm⟩⟩

end Machine

end Beside

/-! ### Up to the first solution -/

namespace Machine

section Until

variable {C : Comparison T} {E : Continuation S → Continuation S → Prop} {l r m m' m₁ : Machine S}
  {A : List S.Term → List S.Term → Prop} {t t' : Task S} {n j : Nat} {status : Status}

end Until

/-- The ends of a run for all answers and of a run that is begun with `k₀`. -/
def Ends (t : S.Term) (k₀ k k' : Continuation S) : Prop := k = .collect t .refuse ∧ k' = k₀

end Machine

/-- Since the world `o`, rows were written up to the world `w`, and more of them
up to the world `w'`. -/
structure World.Foreruns (o w w' : World S) : Prop where
  began : o.rows <:+ w.rows
  rows : w.rows <:+ w'.rows

theorem World.Foreruns.congr {o o' w w' v v' : World S} (h : o.Foreruns w w')
    (ho : o'.rows = o.rows) (hw : w.SameOutput v) (hw' : w'.SameOutput v') :
    o'.Foreruns v v' where
  began := by
    rw [ho, hw.rows]
    exact h.began
  rows := by
    rw [hw.rows, hw'.rows]
    exact h.rows

namespace Machine

section First

variable {l r m m' m₁ : Machine S} {t : S.Term} {k₀ : Continuation S} {u u' : Task S}
  {n j : Nat} {status : Status} {old : List S.Term}

theorem exists_drive_succ (h : drive T n (run T n) u j m = .ok status m₁) : ∃ i, j = i + 1 := by
  cases j with
  | zero => cases h
  | succ i => exact ⟨i, rfl⟩

/-- Where a run keeps an answer it keeps a copy of the template. -/
theorem step_collect {k : Continuation S} {p : Progress S}
    (h : step T n (run T n) (.proceed (.collect t k)) m = .ok p m₁) :
    ∃ a, T.IsCopy t m.world.store a ∧ m.Stays Scope.Continues (m₁.withAnswers m.answers) ∧
      m₁.answers = a :: m.answers ∧ p = .task (.proceed k) := by
  obtain ⟨a, m₂, hcollect, hcopy, hstays, hanswers⟩ := reaches_collected k (copied_of_collect h)
  cases hcollect with
  | head hstep hlast =>
    cases hlast
    rw [hstep] at h
    cases h
    exact ⟨a, hcopy, hstays, hanswers, rfl⟩

/-- A run that ends after it has come to where it keeps an answer has kept it. -/
theorem drive_collected {k : Continuation S}
    (h : drive T n (run T n) (.proceed (.collect t k)) j m = .ok status m₁) :
    ∃ i a m', j = i + 1 ∧ proceed T n (.collect t k) m = .ok (.task (.proceed k)) m' ∧
      m'.answers = a :: m.answers ∧ drive T n (run T n) (.proceed k) i m' = .ok status m₁ := by
  obtain ⟨i, rfl⟩ := exists_drive_succ h
  rw [drive_succ] at h
  cases hs : step T n (run T n) (.proceed (.collect t k)) m with
  | error e m' =>
    rw [hs] at h
    cases h
  | ok p m' =>
    obtain ⟨a, -, -, hanswers, rfl⟩ := step_collect hs
    rw [hs] at h
    exact ⟨i, a, m', rfl, hs, hanswers, h⟩

end First

/-! ### From the same machine -/

section EntryPoints

variable {g : Goal S} {m m₁ : Machine S} {t : S.Term} {n : Nat} {L : List S.Term}

/-- The machine on which a run to the first solution is started. -/
def executing (m : Machine S) : Machine S :=
  m.logged (.runStarted m.engine.depth m.engine.trail.length)

end EntryPoints

end Machine

/-! ### Samples -/

end GoalSearch
