/-
Copies are closed, and say what the term says.

Where nothing leads back to itself, every term that leads to no structure has a
copy, and the copy is closed: there is nothing in it that could change, so it is its
own copy.  If the term leads to no cell either, then the copy is identical to it and
shown alike.  A cell is copied as its content, which is neither identical to the cell
nor shown like it.

* `Theory.Resolves` — copies that hand out no numbers of structures;
* `Theory.Resolves.identical`, `Theory.Resolves.shows` — copies without cells;
* `Theory.resolves_faithfully` — all of it.

Design notes: copying, comparing and showing follow chains each in their own way.
What they have in common is that a term may be replaced by the end of its chain
(`Theory.Shows.deref` for the text), so that only ends are compared, level by
level.
-/
import GoalSearch.Proofs.Identity

namespace GoalSearch

variable {S : Vocabulary} {T : Theory S}

/-! ### What a term leads to -/

namespace Store

variable {s : Store S} {t u a : S.Term}

/-- A term that leads to no cell. -/
def Cellless (s : Store S) (t : S.Term) : Prop := ∀ v, s.Reaches t (.var v) → s.isCell v = false

theorem Reaches.trans (h : s.Reaches t u) (h' : s.Reaches u a) : s.Reaches t a := by
  induction h' with
  | refl => exact h
  | item _ hmem ih => exact ih.item hmem
  | arg _ hmem ih => exact ih.arg hmem
  | binding _ hbinding ih => exact ih.binding hbinding

theorem Structureless.of_reaches (ht : s.Structureless t) (h : s.Reaches t u) :
    s.Structureless u :=
  fun object label args hu => ht object label args (h.trans hu)

theorem Cellless.of_reaches (ht : s.Cellless t) (h : s.Reaches t u) : s.Cellless u :=
  fun v hu => ht v (h.trans hu)

/-- The end of its chain is what a term leads to. -/
theorem reaches_end (s : Store S) (t : S.Term) : s.Reaches t (s.deref t) := Reaches.refl.deref

end Store

/-! ### Copies that hand out no numbers -/

section Lists

variable {α β : Type} {as : List α} {bs : List β}

theorem run_mapM_of_forall₂ {f : α → StateT Nat Option β}
    (h : List.Forall₂ (fun a b => ∀ i, (f a).run i = some (b, i)) as bs) (i : Nat) :
    (as.mapM f).run i = some (bs, i) := by
  induction h with
  | nil => rfl
  | cons hab _ ih => simp [List.mapM_cons, hab i, ih]

theorem forall₂_of_run_mapM {f : α → StateT Nat Option β}
    (h : ∀ a ∈ as, ∀ b i j, (f a).run i = some (b, j) → ∀ i, (f a).run i = some (b, i))
    {i j : Nat} (hrun : (as.mapM f).run i = some (bs, j)) :
    List.Forall₂ (fun a b => ∀ i, (f a).run i = some (b, i)) as bs := by
  induction as generalizing bs i with
  | nil =>
    cases hrun
    exact .nil
  | cons a as ih =>
    rw [List.forall_mem_cons] at h
    simp only [List.mapM_cons, StateT.run_bind, StateT.run_pure, Option.pure_def,
      Option.bind_eq_bind, Option.bind_eq_some_iff] at hrun
    obtain ⟨⟨b, i'⟩, hb, ⟨bs', j'⟩, hbs, hcons⟩ := hrun
    cases hcons
    exact .cons (h.1 b i i' hb) (ih h.2 hbs)

theorem mapM_of_forall₂ {f : α → Option β} (h : List.Forall₂ (fun a b => f a = some b) as bs) :
    as.mapM f = some bs := by
  induction h with
  | nil => rfl
  | cons hab _ ih => simp [List.mapM_cons, hab, ih]

theorem forall₂_of_mapM {f : α → Option β} (h : as.mapM f = some bs) :
    List.Forall₂ (fun a b => f a = some b) as bs := by
  induction as generalizing bs with
  | nil =>
    cases h
    exact .nil
  | cons a as ih =>
    simp only [List.mapM_cons, Option.pure_def, Option.bind_eq_bind,
      Option.bind_eq_some_iff] at h
    obtain ⟨b, hb, bs', hbs, hcons⟩ := h
    cases hcons
    exact .cons hb (ih hbs)

end Lists

namespace Theory

variable {s : Store S} {n n' : Nat} {t a : S.Term} {row : String}

/-- The copy of a term is `a`, and no number of a structure is handed out for it. -/
def Resolves (T : Theory S) (s : Store S) (n : Nat) (t a : S.Term) : Prop :=
  ∀ i, (T.resolve? s n t).run i = some (a, i)

theorem Resolves.mono (hn : n ≤ n') (h : T.Resolves s n t a) : T.Resolves s n' t a :=
  fun i => T.resolve?_mono s hn (h i)

theorem Resolves.isCopy (h : T.Resolves s n t a) : T.IsCopy t s a := ⟨n, 0, 0, h 0⟩

/-- Copying a term that leads to no structure hands out no number. -/
theorem resolves_of_run (ht : s.Structureless t) {i j : Nat}
    (h : (T.resolve? s n t).run i = some (a, j)) : T.Resolves s n t a := by
  induction n generalizing t a i j with
  | zero => cases h
  | succ n ih =>
    intro i'
    -- Only a structure takes a number, and the term at the end of the chain is none.
    have hend := s.reaches_end t
    rw [resolve?] at h ⊢
    cases hderef : s.deref t with
    | var v =>
      rw [hderef] at h hend
      dsimp only at h ⊢
      split at h
      · next content _ hcontent => exact ih (ht.of_reaches (hend.binding hcontent)) h i'
      · cases h
        rfl
    | list items =>
      rw [hderef] at h hend
      simp only [StateT.run_bind, Option.bind_eq_bind, Option.bind_eq_some_iff] at h ⊢
      obtain ⟨⟨as, j'⟩, has, hdone⟩ := h
      cases hdone
      have hitems := forall₂_of_run_mapM
        (fun x hx b i j hb => ih (ht.of_reaches (hend.item hx)) hb) has
      exact ⟨(as, i'), run_mapM_of_forall₂ hitems i', rfl⟩
    | struct object label args =>
      rw [hderef] at hend
      exact absurd hend (ht object label args)
    | int m =>
      rw [hderef] at h
      cases h
      rfl
    | atom name =>
      rw [hderef] at h
      cases h
      rfl

/-- What a copy is made of: the end of the chain, and copies of the elements if that
is a list. -/
inductive Made (T : Theory S) (s : Store S) (n : Nat) : S.Term → S.Term → Prop
  | var (v : Var) : Made T s n (.var v) (.var v)
  | int (i : Int) : Made T s n (.int i) (.int i)
  | atom (name : String) : Made T s n (.atom name) (.atom name)
  | list {items as : List S.Term} : List.Forall₂ (T.Resolves s n) items as →
      Made T s n (.list items) (.list as)

theorem Resolves.made (ht : s.Structureless t) (hcells : s.Cellless t)
    (h : T.Resolves s (n + 1) t a) : T.Made s n (s.deref t) a := by
  have hend := s.reaches_end t
  have hrun := h 0
  rw [resolve?] at hrun
  cases hderef : s.deref t with
  | var v =>
    rw [hderef] at hrun hend
    dsimp only at hrun
    rw [hcells v hend] at hrun
    cases hrun
    exact .var v
  | list items =>
    rw [hderef] at hrun hend
    simp only [StateT.run_bind, Option.bind_eq_bind, Option.bind_eq_some_iff] at hrun
    obtain ⟨⟨as, j⟩, has, hdone⟩ := hrun
    cases hdone
    exact .list (forall₂_of_run_mapM
      (fun x hx b i j hb => resolves_of_run (ht.of_reaches (hend.item hx)) hb) has)
  | struct object label args =>
    rw [hderef] at hend
    exact absurd hend (ht object label args)
  | int m =>
    rw [hderef] at hrun
    cases hrun
    exact .int m
  | atom name =>
    rw [hderef] at hrun
    cases hrun
    exact .atom name

/-- The copy of a term that leads to no cell is identical to the term. -/
theorem Resolves.identical (hs : s.ChainsEnd) (ht : s.Structureless t) (hcells : s.Cellless t)
    (h : T.Resolves s n t a) : s.Identical a t := by
  induction n generalizing t a with
  | zero => cases h 0
  | succ n ih =>
    have hend := s.reaches_end t
    have hlast := Store.step?_deref hs t
    have hmade := h.made ht hcells
    rw [Store.identical_iff]
    generalize s.deref t = e at *
    cases hmade with
    | var v =>
      rw [Store.deref_of_step?_eq_none hlast]
      exact .var v
    | int m =>
      rw [Store.deref_of_step?_eq_none rfl]
      exact .int m
    | atom name =>
      rw [Store.deref_of_step?_eq_none rfl]
      exact .atom name
    | list has =>
      rw [Store.deref_of_step?_eq_none rfl]
      -- Elements lead to no structure and no cell either, so they come under the induction.
      have hparts := (List.forall₂_and_left _ _).mpr ⟨fun x hx => hend.item hx, has⟩
      refine .list (List.Forall₂.flip (hparts.imp ?_))
      exact fun x b hx => ih (ht.of_reaches hx.1) (hcells.of_reaches hx.1) hx.2

/-! ### Texts -/

/-- Lists are shown alike if their elements are. -/
theorem Shows.list {items as : List S.Term}
    (h : List.Forall₂ (fun x b => ∀ row, T.Shows s x row → T.Shows s b row) items as)
    (hrow : T.Shows s (.list items) row) : T.Shows s (.list as) row := by
  obtain ⟨n, hn⟩ := hrow
  cases n with
  | zero => cases hn
  | succ n =>
    obtain ⟨rows, hrows, rfl⟩ := Option.map_eq_some_iff.mp hn
    have hparts : ∃ k, List.Forall₂ (fun b row => T.display? s k b = some row) as rows := by
      have hshown := forall₂_of_mapM hrows
      clear hn hrows
      induction h generalizing rows with
      | nil =>
        cases hshown
        exact ⟨0, .nil⟩
      | cons hxb _ ih =>
        cases hshown with
        | cons hx hrest =>
          obtain ⟨k, hk⟩ := hxb _ ⟨n, hx⟩
          obtain ⟨l, hl⟩ := ih _ hrest
          -- Each element has a bound of its own, and the greatest one serves all.
          refine ⟨max k l, .cons (T.display?_mono s (Nat.le_max_left k l) hk) ?_⟩
          exact hl.imp fun _ _ => T.display?_mono s (Nat.le_max_right k l)
    obtain ⟨k, hk⟩ := hparts
    exact ⟨k + 1, by rw [display?, mapM_of_forall₂ hk]; rfl⟩

/-- The copy of a term that leads to no cell is shown as the term is. -/
theorem Resolves.shows (hs : s.ChainsEnd) (ht : s.Structureless t) (hcells : s.Cellless t)
    (h : T.Resolves s n t a) (hrow : T.Shows s t row) : T.Shows s a row := by
  induction n generalizing t a row with
  | zero => cases h 0
  | succ n ih =>
    have hend := s.reaches_end t
    have hmade := h.made ht hcells
    replace hrow := hrow.deref hs
    generalize s.deref t = e at *
    cases hmade with
    | list has =>
      refine hrow.list ?_
      have hparts := (List.forall₂_and_left _ _).mpr ⟨fun x hx => hend.item hx, has⟩
      exact hparts.imp fun x b hx row =>
        ih (ht.of_reaches hx.1) (hcells.of_reaches hx.1) hx.2
    | _ => exact hrow

/-! ### Faithful copies -/

/-- In a store without cyclic terms whose cells hold values, a term that leads to no
structure has a copy, which holds nothing but integers, atoms, lists and ordinary
variables that are not bound, and is its own copy.  If the term leads to no cell, then
its copy is identical to it, and is shown by the text by which the term is shown. -/
theorem resolves_faithfully (T : Theory S) (hs : s.Acyclic) (hcells : s.CellsHold)
    (ht : s.Structureless t) : ∃ n a, s.Settled a ∧
      (∀ k, n ≤ k → T.Resolves s k t a ∧ T.Resolves s k a a) ∧
      (s.Cellless t → ∃ row, ∀ k, n ≤ k → s.identical? k a t = some true ∧
        T.display? s k t = some row ∧ T.display? s k a = some row) := by
  have hends := hs.chainsEnd
  obtain ⟨n₁, hcopied⟩ := T.exists_copied_of_acyclic hs t
  obtain ⟨⟨a, j⟩, hrun⟩ := Option.isSome_iff_exists.mp hcopied
  have hcopy : T.Resolves s n₁ t a := resolves_of_run ht hrun
  have hsettled : s.Settled a := hcopy.isCopy.settled hends hcells ht
  obtain ⟨n₂, hself⟩ := T.exists_resolve?_self a
  have hself : T.Resolves s n₂ a a := hself s hsettled
  have hcopies : ∀ k, max n₁ n₂ ≤ k → T.Resolves s k t a ∧ T.Resolves s k a a := fun k hk =>
    ⟨hcopy.mono (Nat.le_trans (Nat.le_max_left n₁ n₂) hk),
      hself.mono (Nat.le_trans (Nat.le_max_right n₁ n₂) hk)⟩
  by_cases hcellless : s.Cellless t
  · obtain ⟨n₃, hidentical⟩ := hcopy.identical hends ht hcellless
    obtain ⟨n₄, row, hrow⟩ := T.exists_display?_of_acyclic hs t
    obtain ⟨n₅, hrow'⟩ := hcopy.shows hends ht hcellless ⟨n₄, hrow⟩
    refine ⟨max n₁ n₂ + n₃ + n₄ + n₅, a, hsettled, fun k hk => hcopies k (by omega), fun _ => ?_⟩
    refine ⟨row, fun k hk => ⟨?_, ?_, ?_⟩⟩
    · exact s.identical?_mono (by omega) hidentical
    · exact T.display?_mono s (by omega) hrow
    · exact T.display?_mono s (by omega) hrow'
  · exact ⟨_, a, hsettled, hcopies, fun h => absurd h hcellless⟩

end Theory

/-! ### A sample -/

/-- A variable that is not bound, one bound to a list, one bound to that one, a cell that
holds a list of that one and an atom, and a cell that holds this cell. -/
def Bounds.nested : Store Bounds.vocabulary :=
  ⟨#[.fresh, .fresh, ⟨.ordinary none, some (.list [.int 1, .var ⟨1⟩])⟩,
    ⟨.ordinary none, some (.var ⟨2⟩)⟩, ⟨.cell, some (.list [.var ⟨3⟩, .atom "a"])⟩,
    ⟨.cell, some (.var ⟨4⟩)⟩]⟩

theorem Term.Occurs.of_pair {L : Type} {v : Var} {a b : Term L} (h : Occurs v (.list [a, b])) :
    Occurs v a ∨ Occurs v b := by
  cases h with
  | list hmem hocc =>
    rcases List.mem_pair.mp hmem with rfl | rfl
    · exact .inl hocc
    · exact .inr hocc

/-- Each variable refers to older ones only. -/
theorem Bounds.nested_refers {v w : Var} (h : Bounds.nested.Refers v w) : w.id < v.id := by
  obtain ⟨a, ha, hw⟩ := h
  obtain ⟨_ | _ | _ | _ | _ | _ | i⟩ := v <;> cases ha
  · rcases hw.of_pair with hw | hw <;> cases hw
    decide
  · cases hw
    decide
  · rcases hw.of_pair with hw | hw <;> cases hw
    decide
  · cases hw
    decide

theorem Bounds.nested_acyclic : Bounds.nested.Acyclic :=
  WellFounded.mono (measure Var.id).wf fun _ _ => nested_refers

theorem Bounds.nested_cellsHold : Bounds.nested.CellsHold := by
  rintro ⟨_ | _ | _ | _ | _ | _ | i⟩ hv <;> first | rfl | cases hv

/-- Terms whose variables are among the first three lead to no other variables. -/
theorem Bounds.nested_cellless {t : Bounds.vocabulary.Term}
    (ht : ∀ v, Term.Occurs v t → v.id ≤ 3) : Bounds.nested.Cellless t := by
  have hall : ∀ u, Bounds.nested.Reaches t u → ∀ v, Term.Occurs v u → v.id ≤ 3 := by
    intro u hu
    induction hu with
    | refl => exact ht
    | item _ hmem ih => exact fun v hv => ih v (.list hmem hv)
    | arg _ hmem ih => exact fun v hv => ih v (.struct hmem hv)
    | @binding v u _ hbinding ih =>
      intro w hw
      have hlt := nested_refers ⟨u, hbinding, hw⟩
      have hle := ih v .var
      omega
  intro v hv
  have hle := hall _ hv v .var
  obtain ⟨_ | _ | _ | _ | i⟩ := v
  · rfl
  · rfl
  · rfl
  · rfl
  · exact absurd hle (by simp)

/-- A cell in a cell is copied as the list it leads to, and a list without cells is
copied as what it says. -/
theorem Theory.resolves_faithfully_nested : ∃ n,
    Bounds.theory.Resolves Bounds.nested n (.var ⟨5⟩)
      (.list [.list [.int 1, .var ⟨1⟩], .atom "a"]) ∧
    Bounds.nested.Settled (.list [.list [.int 1, .var ⟨1⟩], .atom "a"]) ∧
    ∃ row, Bounds.theory.display? Bounds.nested n (.list [.var ⟨3⟩, .var ⟨1⟩]) = some row ∧
      Bounds.theory.display? Bounds.nested n (.list [.list [.int 1, .var ⟨1⟩], .var ⟨1⟩]) =
        some row ∧
      Bounds.nested.identical? n (.list [.list [.int 1, .var ⟨1⟩], .var ⟨1⟩])
        (.list [.var ⟨3⟩, .var ⟨1⟩]) = some true := by
  have hrun : Bounds.theory.Resolves Bounds.nested 5 (.var ⟨5⟩)
      (.list [.list [.int 1, .var ⟨1⟩], .atom "a"]) := fun _ => rfl
  have hrun' : Bounds.theory.Resolves Bounds.nested 4 (.list [.var ⟨3⟩, .var ⟨1⟩])
      (.list [.list [.int 1, .var ⟨1⟩], .var ⟨1⟩]) := fun _ => rfl
  obtain ⟨n, a, hsettled, hcopies, -⟩ := Theory.resolves_faithfully Bounds.theory
    Bounds.nested_acyclic Bounds.nested_cellsHold (Bounds.structureless _ (.var ⟨5⟩))
  obtain ⟨n', a', -, hcopies', hcellless⟩ := Theory.resolves_faithfully Bounds.theory
    Bounds.nested_acyclic Bounds.nested_cellsHold
    (Bounds.structureless _ (.list [.var ⟨3⟩, .var ⟨1⟩]))
  obtain rfl := (hcopies n (Nat.le_refl n)).1.isCopy.eq_of_run hrun
  obtain rfl := (hcopies' n' (Nat.le_refl n')).1.isCopy.eq_of_run hrun'
  have hlow : ∀ v, Term.Occurs v (.list [.var ⟨3⟩, .var ⟨1⟩] : Bounds.vocabulary.Term) →
      v.id ≤ 3 := by
    intro v hv
    rcases hv.of_pair with hv | hv <;> cases hv <;> decide
  obtain ⟨row, hrow⟩ := hcellless (Bounds.nested_cellless hlow)
  obtain ⟨hidentical, hshown, hshown'⟩ := hrow (max n n') (Nat.le_max_right n n')
  exact ⟨max n n', (hcopies _ (Nat.le_max_left n n')).1, hsettled, row, hshown, hshown',
    hidentical⟩

end GoalSearch
