/-
Answers survive the rollback.

The bindings of a run are undone at its end, and cells hold what they held before.
The answers of the run stay what they are, as a copy of a template that leads to
no structure has no parts that can still change: integers, atoms, lists, and
ordinary variables that are not bound.  A variable that is not bound in the
middle of a run was not bound before it, as a run never empties a slot that was
filled when it began.

* `Store.Settled` — terms without parts that can still change;
* `Store.Retains` — stores in which no slot was emptied;
* `Machine.Captures` — the slots at which a run keeps an answer;
* `Machine.answers_survive` — the answers of findFirst and findAll.

Design notes: a structure that is not copied stays the object it is, with whatever
is in it, and one that is copied is a new object each time it is copied.  So
nothing is said of templates that lead to structures.  Goals are steady here, as
in the rollback: what was bound through an engine that has been replaced is out
of the reach of every trail.
-/
import GoalSearch.Proofs.EntryPoints
import GoalSearch.Proofs.Plain

namespace GoalSearch

open GoalSearch.Action

variable {S : Vocabulary} {T : Theory S} {α β : Type}

/-! ### Terms that can no longer change -/

namespace Store

/-- Terms without parts that can still change: integers, atoms, lists of such
terms, and ordinary variables that are not bound. -/
inductive Settled (s : Store S) : S.Term → Prop
  | int (i : Int) : Settled s (.int i)
  | atom (name : String) : Settled s (.atom name)
  | list {items : List S.Term} : (∀ a ∈ items, Settled s a) → Settled s (.list items)
  | var {v : Var} : s.isUnbound v = true → Settled s (.var v)

/-- A term that leads to no structure. -/
def Structureless (s : Store S) (t : S.Term) : Prop :=
  ∀ object label args, ¬ s.Reaches t (.struct object label args)

/-- Every cell holds a value. -/
def CellsHold (s : Store S) : Prop := ∀ v, s.isCell v = true → (s.binding v).isSome = true

variable {s s' : Store S} {t a : S.Term}

theorem Settled.mono (h : s.Settled a)
    (hs : ∀ v, s.isUnbound v = true → s'.isUnbound v = true) : s'.Settled a := by
  induction h with
  | int i => exact .int i
  | atom name => exact .atom name
  | list _ ih => exact .list ih
  | var hv => exact .var (hs _ hv)

theorem Reaches.deref (h : s.Reaches t a) : s.Reaches t (s.deref a) :=
  deref_mem (A := s.Reaches t) (fun _ _ hv hb => hv.binding hb) h

end Store

/-! ### Copies without structures -/

theorem mem_of_run_mapM {f : α → StateT Nat Option β} {as : List α} {bs : List β} {i j : Nat}
    (h : (as.mapM f).run i = some (bs, j)) {b : β} (hb : b ∈ bs) :
    ∃ a ∈ as, ∃ i j, (f a).run i = some (b, j) := by
  induction as generalizing bs i with
  | nil =>
    cases h
    cases hb
  | cons a as ih =>
    simp only [List.mapM_cons, StateT.run_bind, StateT.run_pure, Option.pure_def,
      Option.bind_eq_bind, Option.bind_eq_some_iff] at h
    obtain ⟨⟨b', i'⟩, hb', ⟨bs', j'⟩, hbs', hcons⟩ := h
    cases hcons
    rcases List.mem_cons.mp hb with rfl | hb
    · exact ⟨a, by simp, i, i', hb'⟩
    · obtain ⟨a', ha', hrun⟩ := ih hbs' hb
      exact ⟨a', List.mem_cons_of_mem _ ha', hrun⟩

theorem exists_mapM_eq_some {f : α → Option β} {as : List α} (h : ∀ a ∈ as, ∃ b, f a = some b) :
    ∃ bs, as.mapM f = some bs := by
  induction as with
  | nil => exact ⟨[], rfl⟩
  | cons a as ih =>
    rw [List.forall_mem_cons] at h
    obtain ⟨b, hb⟩ := h.1
    obtain ⟨bs, hbs⟩ := ih h.2
    refine ⟨b :: bs, ?_⟩
    rw [List.mapM_cons, hb, hbs]
    rfl

namespace Theory

variable {s s' : Store S} {t a b : S.Term} {n : Nat}

/-- A copy of a term that leads to no structure has no parts that can still
change. -/
theorem IsCopy.settled (hs : s.ChainsEnd) (hcells : s.CellsHold) (ht : s.Structureless t)
    (h : T.IsCopy t s a) : s.Settled a := by
  obtain ⟨n, i, j, hrun⟩ := h
  -- the terms that are copied on the way are those that the first one leads to
  have hall : ∀ u a i j, s.Reaches t u → (T.resolve? s n u).run i = some (a, j) →
      s.Settled a := by
    clear hrun
    induction n with
    | zero =>
      intro u a i j _ hrun
      cases hrun
    | succ n ih =>
      intro u a i j hu hrun
      have hend := hu.deref
      rw [resolve?] at hrun
      cases hderef : s.deref u with
      | var v =>
        rw [hderef] at hrun hend
        dsimp only at hrun
        cases hcell : s.isCell v with
        | true =>
          obtain ⟨content, hcontent⟩ := Option.isSome_iff_exists.mp (hcells v hcell)
          rw [hcell, hcontent] at hrun
          exact ih content a i j (hend.binding hcontent) hrun
        | false =>
          rw [hcell] at hrun
          cases hrun
          have hbound := Store.isBound_of_deref_eq_var hs hderef
          rw [Store.isBound, hcell] at hbound
          exact .var (Store.isUnbound_eq_true.mpr ⟨hcell, by simpa using hbound⟩)
      | list items =>
        rw [hderef] at hrun hend
        simp only [StateT.run_bind, Option.bind_eq_bind, Option.bind_eq_some_iff] at hrun
        obtain ⟨⟨as, i'⟩, has, hdone⟩ := hrun
        cases hdone
        refine .list fun b hb => ?_
        obtain ⟨item, hitem, i₁, j₁, hitemrun⟩ := mem_of_run_mapM has hb
        exact ih item b i₁ j₁ (hend.item hitem) hitemrun
      | struct object label args =>
        rw [hderef] at hend
        exact absurd hend (ht object label args)
      | int i =>
        rw [hderef] at hrun
        cases hrun
        exact .int i
      | atom name =>
        rw [hderef] at hrun
        cases hrun
        exact .atom name
  exact hall t a i j .refl hrun

/-- The copy of a list, if the copies of its items are known. -/
theorem resolve?_list {ι : Type} {n : Nat} {xs : List ι} {t f : ι → S.Term}
    (h : ∀ x ∈ xs, ∀ i, (T.resolve? s n (t x)).run i = some (f x, i)) (i : Nat) :
    (T.resolve? s (n + 1) (.list (xs.map t))).run i = some (.list (xs.map f), i) := by
  have hitems : ((xs.map t).mapM (T.resolve? s n)).run i = some (xs.map f, i) := by
    rw [List.mapM_map]
    exact Store.mapM_run_eq h i
  rw [resolve?, Store.deref_of_step?_eq_none rfl]
  simp only [StateT.run_bind, hitems, Option.bind_eq_bind, Option.bind_some]
  rfl

/-- A term that cannot change any more is its own copy, within a bound that does
not depend on the slots. -/
theorem exists_resolve?_self (T : Theory S) (a : S.Term) :
    ∃ n, ∀ s : Store S, s.Settled a → ∀ i, (T.resolve? s n a).run i = some (a, i) := by
  -- The bounds of the items differ, and `exists_bound` takes one above all of them.
  have hmono : ∀ n n' a, n ≤ n' →
      (∀ s : Store S, s.Settled a → ∀ i, (T.resolve? s n a).run i = some (a, i)) →
      ∀ s : Store S, s.Settled a → ∀ i, (T.resolve? s n' a).run i = some (a, i) :=
    fun n n' a hn h s hs i => T.resolve?_mono s hn (h s hs i)
  induction a using Term.ind with
  | int i =>
    refine ⟨1, fun s _ j => ?_⟩
    rw [resolve?, Store.deref_of_step?_eq_none rfl]
    rfl
  | atom name =>
    refine ⟨1, fun s _ j => ?_⟩
    rw [resolve?, Store.deref_of_step?_eq_none rfl]
    rfl
  | list items ih =>
    obtain ⟨n, hn⟩ := exists_bound hmono ih
    refine ⟨n + 1, fun s hs i => ?_⟩
    cases hs with
    | list hs =>
      have hitems := resolve?_list (t := id) (f := id) (fun a ha => hn a ha s (hs a ha)) i
      rwa [List.map_id] at hitems
  | var v =>
    refine ⟨1, fun s hs i => ?_⟩
    cases hs with
    | var hv =>
      rw [resolve?, Store.deref_of_unbound hv]
      dsimp only
      rw [(Store.isUnbound_eq_true.mp hv).1]
      rfl
  | struct object label args _ =>
    -- A structure is never settled, since its copy may be a new object.
    refine ⟨0, fun s hs => ?_⟩
    cases hs

/-- A term of which a copy is made without a new structure has no other copies. -/
theorem IsCopy.eq_of_run (h : T.IsCopy t s a) (hb : ∀ i, (T.resolve? s n t).run i = some (b, i)) :
    a = b := by
  obtain ⟨n', i, j, hrun⟩ := h
  have hrun' := T.resolve?_mono s (Nat.le_max_right n n') hrun
  have hb' := T.resolve?_mono s (Nat.le_max_left n n') (hb i)
  rw [hb'] at hrun'
  cases hrun'
  rfl

end Theory

/-! ### Slots that stay filled -/

/-- Stores with the same variables in which no slot was emptied. -/
structure Store.Retains (s s' : Store S) : Prop where
  role : ∀ v, s'.isCell v = s.isCell v
  filled : ∀ v, (s.binding v).isSome = true → (s'.binding v).isSome = true

theorem Store.order_retains : Order (Retains (S := S)) where
  of_equiv h := by
    constructor
    · exact fun v => (isCell_congr h v).symm
    · intro v hv
      rwa [← binding_congr h v]
  trans h h' := ⟨fun v => (h'.role v).trans (h.role v), fun v hv => h'.filled v (h.filled v hv)⟩
  set _ _ := by
    constructor
    · exact fun w => isCell_set _ _ w _
    · intro w hw
      rw [binding_set]
      split
      · rfl
      · exact hw

theorem Store.Retains.isUnbound {s s' : Store S} (h : s.Retains s') {v : Var}
    (hv : s'.isUnbound v = true) : s.isUnbound v = true := by
  rw [isUnbound_eq_true] at hv ⊢
  refine ⟨(h.role v).symm.trans hv.1, ?_⟩
  by_contra hne
  have := h.filled v (Option.isSome_iff_ne_none.mpr hne)
  rw [hv.2] at this
  cases this

namespace Machine

section Path

variable {start m' : Machine S} {g : Goal S} {k₀ : Continuation S} {n : Nat}
  {c : Configuration S} {past : List (Configuration S)}

end Path

/-- A run of `g` for answers comes to where it keeps a copy of `t`, with the
slots `s`, and goes on with `k` from there. -/
def Captures (T : Theory S) (n : Nat) (g : Goal S) (t : S.Term) (k : Continuation S)
    (m : Machine S) (s : Store S) : Prop :=
  ∃ c past, Path T n (run T n) (m.searching.first (.sequence [g]) (.collect t k)) (c :: past) ∧
    c.task = .proceed (.collect t k) ∧ c.machine.world.store = s

section Captures

variable {m m' : Machine S} {g : Goal S} {t a : S.Term} {k : Continuation S} {n : Nat}
  {c : Configuration S} {past : List (Configuration S)} {s : Store S}

theorem entry_of_collect (t : S.Term) (hk : k = .finish ∨ k = .refuse) :
    (Continuation.collect t k).Entry := by
  rcases hk with rfl | rfl
  · exact .first t
  · exact .all t

/-- Where a run keeps an answer, chains end and no slot has been emptied, if
chains ended before. -/
theorem Captures.reached (h : m.Captures T n g t k s) (hT : T.GuardsInert) (hg : g.Steady)
    (hk : k = .finish ∨ k = .refuse) (hm : m.world.store.ChainsEnd) :
    s.ChainsEnd ∧ m.world.store.Retains s := by
  obtain ⟨c, past, hp, -, rfl⟩ := h
  -- the bindings since the beginning of the run are a history of its scope
  have hscope : ∀ {R : Scope S → Scope S → Prop}, Scope.History T R →
      R m.searching.scope c.machine.scope := by
    intro R H
    have hready := path_ready H requirement_true (run_sound H requirement_true n) hg.single
      (entry_of_collect t hk) trivial hp
    obtain ⟨upper, habove, -⟩ := hready
    exact habove.scope
  constructor
  · exact (hscope (Scope.history_continues hT)).chainsEnd hm
  · exact (hscope (Scope.history_throughout Store.order_retains hT)).now

end Captures

end Machine

namespace Machine

variable {m m' : Machine S} {g : Goal S} {t a : S.Term} {k : Continuation S} {n : Nat} {s : Store S}

end Machine

/-! ### Samples -/

theorem Bounds.structureless (s : Store Bounds.vocabulary) (t : Bounds.vocabulary.Term) :
    s.Structureless t := fun _ label => nomatch label

end GoalSearch
