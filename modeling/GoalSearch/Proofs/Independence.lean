/-
Runs depend on the slots only.

What a run does depends on its goal, on the slots and on the private state of
the application, and on nothing else of the engine: neither on what is on its
stack and its trail, nor on its counters, nor on its settings.  A run nested in
a step, a run of a fresh engine, a second run after a first one, and runs with
or without counters and recorded frames all do the same.

* `Machine.Interchangeable` — machines that differ in what must not matter;
* `Machine.AgreeSince` — the same rows written since, and the same state;
* `Machine.runs_depend_on_slots` — execute, findFirst and findAll do the same on
  interchangeable machines;
* `Machine.RolledBack.interchangeable` — a machine after a run is as good as it
  was before;
* `Machine.renewal_depends_on_trail` — why code that puts a new engine in place
  of its own is left out.

Design notes: the private state is of any type and changes with every call that
an application wants to remember, and the log takes its rows in order; so
applications that write down which of their code is called, and at which slots,
write down the same on both machines.  Objects are told apart by numbers handed
out one after the other, so if structures are copied both machines must go on
with the same number.
-/
import GoalSearch.Proofs.Twins

namespace GoalSearch

open GoalSearch.Action

variable {S : Vocabulary} {T : Theory S}

/-- The comparison of engines that may differ in everything, for code that sees
nothing of its engine. -/
def Comparison.blind (T : Theory S) (loose : Prop) (inert : loose → T.GuardsInert) :
    Comparison T where
  exact := False
  counters _ _ := True
  empty := trivial
  add _ _ _ := trivial
  raise _ _ _ := trivial
  loose := loose
  inert := inert
  views _ _ := True
  seen _ := trivial
  stores s s' := s ≈ s'
  room h := by
    rcases h with rfl | ⟨-, h, -⟩
    · exact Setoid.refl _
    · exact h

namespace Machine

/-- Machines that differ in what must not matter to a run: the slots and the
private state are the same, and so is the number of the next structure, unless
none is copied.  Where the stores have not made the same room, guards bind
nothing and chains of bindings end. -/
structure Interchangeable (T : Theory S) (l r : Machine S) : Prop where
  slots : l.world.store ≈ r.world.store
  state : l.world.state = r.world.state
  objects : l.world.nextObject = r.world.nextObject ∨ ∀ label, T.copies label = false
  room : l.world.store = r.world.store ∨ T.GuardsInert ∧ l.world.store.ChainsEnd

/-- The slots and the private state of two machines are the same, and the same
rows were written since `l` and `r`. -/
structure AgreeSince (l r m m' : Machine S) : Prop where
  slots : m.world.store ≈ m'.world.store
  state : m.world.state = m'.world.state
  rows : Over l.world.rows r.world.rows m.world.rows m'.world.rows

/-- A computation does the same on two machines: it ends with the same value or
stops for the same reason, after it has written the same rows, with the same
private state and the same slots. -/
structure DoesSame {α : Type} (x : Action (Machine S) α) (l r : Machine S) : Prop where
  parallel : Parallel x l x r (fun a m b m' => a = b ∧ l.AgreeSince r m m') (l.AgreeSince r)

/-- If a computation that does the same ends on one machine, it ends on the other
one with the same value. -/
theorem DoesSame.ok {α : Type} {x : Action (Machine S) α} {l r m : Machine S} {a : α}
    (h : DoesSame x l r) (hx : x l = .ok a m) : ∃ m', x r = .ok a m' ∧ l.AgreeSince r m m' := by
  obtain ⟨_, m', hok, rfl, hagree⟩ := h.parallel.ok hx
  exact ⟨m', hok, hagree⟩

theorem Halted.agreeSince {C : Comparison T} {l r m m' : Machine S} (h : Halted C l r m m') :
    l.AgreeSince r m m' :=
  ⟨h.store.equiv, h.state, h.rows⟩

theorem Interchangeable.abreast {l r : Machine S} (h : l.Interchangeable T r) :
    ∃ loose inert, Abreast (Comparison.blind T loose inert) (fun _ _ => True) l r
      l.engine.frames r.engine.frames l r := by
  have hinert : l.world.store ≠ r.world.store → T.GuardsInert := fun hne =>
    (h.room.resolve_left hne).1
  refine ⟨_, hinert, rfl, rfl, False.elim, False.elim, False.elim, False.elim, ?_, trivial, ?_⟩
  · refine ⟨.refl _ _, ?_, h.state, h.objects, .refl _ _⟩
    by_cases heq : l.world.store = r.world.store
    · exact .inl heq
    · exact .inr ⟨heq, h.slots, (h.room.resolve_left heq).2⟩
  · intro hne
    exact ⟨(h.room.resolve_left hne).2, Scope.continues_of_same rfl (Setoid.refl _)⟩

theorem Interchangeable.doesSame {l r : Machine S} (h : l.Interchangeable T r) {α : Type}
    {x : Action (Machine S) α}
    (hx : ∀ loose inert, Paced (Comparison.blind T loose inert) (fun _ _ => True) l r
      l.engine.frames r.engine.frames x) : DoesSame x l r := by
  obtain ⟨loose, inert, habreast⟩ := h.abreast
  refine ⟨((hx loose inert l r habreast).stops fun _ _ h' => Halted.agreeSince h').mono ?_⟩
  rintro a m _ m' - - ⟨rfl, h'⟩
  exact ⟨rfl, h'.halted.agreeSince⟩

/-- Whatever is on their stacks and trails, however much they have counted and
whatever their settings are, two engines that run the same goal at the same
slots and with the same private state of the application end with the same
value, and so do they write the same rows in the same order and leave the same
state, if the code that runs sees nothing of its engine and keeps it. -/
theorem runs_depend_on_slots (hT : T.Heeds fun s s' => s ≈ s') {g : Goal S}
    (hg : g.Heeds (fun _ _ => True) fun s s' => s ≈ s') {l r : Machine S}
    (h : l.Interchangeable T r) (n : Nat) (t : S.Term) :
    DoesSame (execute T n g) l r ∧ DoesSame (findFirst T n g t) l r ∧
      DoesSame (findAll T n g t) l r := by
  have hrun : ∀ loose inert, (run T n).Paced (Comparison.blind T loose inert) :=
    fun loose inert => run_paced hT n
  refine ⟨h.doesSame fun loose inert => ?_, h.doesSame fun loose inert => ?_,
    h.doesSame fun loose inert => ?_⟩
  · exact executeWith_paced (hrun loose inert) hg
  · exact findFirstWith_paced (hrun loose inert) hg t
  · exact findAllWith_paced (hrun loose inert) hg t

/-- After a run that leaves the private state and hands out no number for a
structure, the machine is as good as before, so a second run does the same. -/
theorem RolledBack.interchangeable {m m' : Machine S} (h : m.RolledBack m') (hT : T.GuardsInert)
    (hends : m.world.store.ChainsEnd) (hstate : m'.world.state = m.world.state)
    (hobjects : m'.world.nextObject = m.world.nextObject ∨ ∀ label, T.copies label = false) :
    m.Interchangeable T m' where
  slots v := (h.slots v).symm
  state := hstate.symm
  objects := hobjects.imp Eq.symm id
  room := .inr ⟨hT, hends⟩

end Machine

/-! ### Samples -/

/-- A step that unifies a target with values of a list sees nothing of its
engine. -/
theorem Goal.heeds_memberOf (V : View → View → Prop) (Q : Store S → Store S → Prop)
    (target : S.Term) (values : List S.Term) : (Goal.memberOf target values).Heeds V Q := by
  refine .nondeterministic (.candidates (fun i => ?_) fun i p h => ?_) (.verdict true)
  · show Quiet.Heeds Q ((Quiet.done values[i]?).bind _)
    cases values[i]? with
    | none => exact .done _
    | some value => exact .done _
  · obtain ⟨value, -, hp⟩ := Quiet.yields_bind h
    cases value with
    | none => nomatch hp
    | some value =>
      cases hp
      exact .unify fun r => .verdict r

/-- A goal that writes down every value it tries, and keeps those that a nested
run admits. -/
def Bounds.recorder : Goal Bounds.vocabulary :=
  .sequence [.memberOf (.var ⟨1⟩) [.int 1, .int 2, .int 3],
    .test (.ask (.display (.var ⟨1⟩)) fun (text : String) => .ask (.say text) fun _ =>
      .execute (.memberOf (.var ⟨1⟩) [.int 3, .int 2]) .verdict)]

/-- A machine with other settings than `Bounds.used`, and with nothing on its
stack and its trail. -/
def Bounds.unused : Machine Bounds.vocabulary :=
  ⟨.new ⟨false, true⟩, .start (), []⟩

theorem Bounds.unused_interchangeable :
    Bounds.unused.Interchangeable Bounds.theory Bounds.used :=
  ⟨Setoid.refl _, rfl, .inl rfl, .inl rfl⟩

theorem Bounds.heeds (Q : Store Bounds.vocabulary → Store Bounds.vocabulary → Prop) :
    Bounds.theory.Heeds Q where
  unifyWith label := nomatch label
  admits bounds value := by
    cases value with
    | int n => exact .done _
    | _ => exact .done _

theorem Bounds.recorder_heeds (V : View → View → Prop)
    (Q : Store Bounds.vocabulary → Store Bounds.vocabulary → Prop) :
    Bounds.recorder.Heeds V Q := by
  refine .sequence ?_
  simp only [List.forall_mem_cons]
  refine ⟨Goal.heeds_memberOf V Q _ _, .semideterministic (.verdict true) ?_, by simp⟩
  refine .ask (by simp) fun text => .ask (by simp) fun _ => ?_
  exact .execute (Goal.heeds_memberOf V Q _ _) .verdict

/-- All answers of the goal that writes rows, on two machines that have nothing
but their worlds in common. -/
theorem Machine.runs_depend_on_slots_recorder :
    ∃ answers m m', findAll Bounds.theory 40 Bounds.recorder (.var ⟨1⟩) Bounds.unused =
        .ok answers m ∧
      findAll Bounds.theory 40 Bounds.recorder (.var ⟨1⟩) Bounds.used = .ok answers m' ∧
      answers.length = 2 ∧ Bounds.unused.AgreeSince Bounds.used m m' := by
  have hlength : (result? (findAll Bounds.theory 40 Bounds.recorder (.var ⟨1⟩))
      Bounds.unused).map List.length = some 2 := by
    decide +kernel
  obtain ⟨answers, hanswers, hlength⟩ := Option.map_eq_some_iff.mp hlength
  obtain ⟨m, hm⟩ := result?_eq_some.mp hanswers
  obtain ⟨-, -, hall⟩ := Machine.runs_depend_on_slots (Bounds.heeds _) (Bounds.recorder_heeds _ _)
    Bounds.unused_interchangeable 40 (.var ⟨1⟩)
  obtain ⟨m', hm', hagree⟩ := hall.ok hm
  exact ⟨answers, m, m', hm, hm', hlength, hagree⟩

/-- A goal that puts a new engine in place of the one that runs it. -/
def Bounds.renewal : Goal Bounds.vocabulary := .perform (.renew (.verdict true))

/-- The new engine has an empty trail, so its run is balanced only where the old
one had an empty trail as well. -/
theorem Machine.renewal_depends_on_trail :
    Bounds.unused.Interchangeable Bounds.theory Bounds.used ∧
      result? (execute Bounds.theory 9 Bounds.renewal) Bounds.unused = some true ∧
      (∃ m, execute Bounds.theory 9 Bounds.renewal Bounds.used =
        .error (.fault .unbalancedTrail) m) ∧
      ¬ DoesSame (execute Bounds.theory 9 Bounds.renewal) Bounds.unused Bounds.used := by
  have hends : result? (execute Bounds.theory 9 Bounds.renewal) Bounds.unused = some true := by
    decide +kernel
  have hstops : stop? (execute Bounds.theory 9 Bounds.renewal) Bounds.used =
      some (.fault .unbalancedTrail) := by
    decide +kernel
  replace hstops := stop?_eq_some.mp hstops
  refine ⟨Bounds.unused_interchangeable, hends, hstops, fun hsame => ?_⟩
  obtain ⟨m, hm⟩ := result?_eq_some.mp hends
  obtain ⟨m', hm'⟩ := hstops
  obtain ⟨_, hok, -⟩ := hsame.ok hm
  rw [hm'] at hok
  cases hok

end GoalSearch
