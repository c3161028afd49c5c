/-
Restricted variables that stand for integers.

A puzzle decides integers.  Each of its variables has a guard that accepts some of
the integers, and holds an integer if it holds anything.  What is known of such
variables is a set of assignments: a variable that holds an integer stands for it,
and one that is not bound stands for any of those it accepts.

* `Store.Ranged` — variables of this kind;
* `Store.accepts`, `Store.Fits` — what a variable can still stand for, and the
  assignments that a store allows;
* `Store.Fills` — what deductions do to a store;
* `Machine.exists_unify_ranged` — unifying a variable with an integer asks whether it
  accepts it, and keeps the assignments in which the variable stands for it;
* `Action.exists_rounds` — rounds that get somewhere end.

Design notes: a unification is an exact test here, since a guard that accepts an integer
does so each time and binds nothing.  Nothing is assumed about guards of other
variables.
-/
import GoalSearch.Proofs.Rounds
import GoalSearch.Puzzle.DigitSum

namespace GoalSearch

open GoalSearch.Action Machine

variable {S : Vocabulary} {T : Theory S} {D : Var → Int → Bool}

/-! ### Variables over integers -/

namespace Store

variable (T D) in
/-- Of the integers the guards of these variables accept those in `D`, and nothing else
than an integer is bound to them. -/
structure Ranged (vs : List Var) (s : Store S) : Prop where
  guarded : ∀ v ∈ vs, ∃ g, s.guard? v = some g ∧ ∀ n, T.admits g (.int n) = .done (D v n)
  held : ∀ v ∈ vs, ∀ t, s.binding v = some t → ∃ n, t = .int n

variable (D) in
/-- Whether a variable can still stand for an integer. -/
def accepts (s : Store S) (v : Var) (n : Int) : Bool :=
  match s.int? (.var v) with
  | some held => held = n
  | none => D v n

variable (D) in
/-- An assignment that a store allows. -/
def Fits (vs : List Var) (s : Store S) (σ : Var → Int) : Prop :=
  ∀ v ∈ vs, s.accepts D v (σ v) = true

variable (D) in
/-- Gives a variable an integer that it accepts, if it is not bound. -/
def take (s : Store S) (v : Var) (n : Int) : Store S :=
  if s.isUnbound v && D v n then s.set v (some (.int n)) else s

variable (D) in
/-- Some of the variables `vs` have been given integers that they accept, and cells
among `ws` other values. -/
structure Fills (vs ws : List Var) (s s' : Store S) : Prop where
  filled : ∀ v ∈ vs, s'.get v = s.get v ∨ s.isUnbound v = true ∧
    ∃ n, D v n = true ∧ s'.get v = { s.get v with value := some (.int n) }
  cells : ∀ w ∈ ws, (s'.get w).role = (s.get w).role
  beside : ∀ v, v ∉ vs → v ∉ ws → s'.get v = s.get v

section Ranged

variable {s s' s₁ : Store S} {vs ws : List Var} {v w : Var} {n i : Int} {σ : Var → Int}

theorem Ranged.isCell (h : s.Ranged T D vs) (hv : v ∈ vs) : s.isCell v = false := by
  obtain ⟨g, hg, -⟩ := h.guarded v hv
  exact isCell_of_isRestricted (isRestricted_of_guard? hg)

theorem Ranged.int?_eq_some (h : s.Ranged T D vs) (hv : v ∈ vs) :
    s.int? (.var v) = some n ↔ s.binding v = some (.int n) := by
  have hcell := h.isCell hv
  cases hbinding : s.binding v with
  | none =>
    rw [int?, deref_of_unbound (isUnbound_eq_true.mpr ⟨hcell, hbinding⟩)]
    simp
  | some t =>
    obtain ⟨n', rfl⟩ := h.held v hv t hbinding
    rw [int?, deref_of_binding hcell hbinding rfl]
    simp

theorem Ranged.int?_eq_none (h : s.Ranged T D vs) (hv : v ∈ vs) :
    s.int? (.var v) = none ↔ s.isUnbound v = true := by
  rw [isUnbound_eq_true, Option.eq_none_iff_forall_ne_some]
  constructor
  · intro hnone
    refine ⟨h.isCell hv, ?_⟩
    by_contra hne
    obtain ⟨t, ht⟩ := Option.ne_none_iff_exists'.mp hne
    obtain ⟨n, rfl⟩ := h.held v hv t ht
    exact hnone n ((h.int?_eq_some hv).mpr ht)
  · rintro ⟨-, hbinding⟩ n hn
    rw [(h.int?_eq_some hv).mp hn] at hbinding
    cases hbinding

theorem Ranged.isUnbound_eq_false (h : s.Ranged T D vs) (hv : v ∈ vs)
    (hn : s.int? (.var v) = some n) : s.isUnbound v = false := by
  rw [← Bool.not_eq_true, ← h.int?_eq_none hv, hn]
  simp

theorem Ranged.congr (h : s.Ranged T D vs) (hs : s ≈ s') : s'.Ranged T D vs where
  guarded v hv := by
    rw [← guard?_congr hs]
    exact h.guarded v hv
  held v hv := by
    rw [← binding_congr hs]
    exact h.held v hv

theorem Ranged.int?_congr (h : s.Ranged T D vs) (hs : s ≈ s') (hv : v ∈ vs) :
    s'.int? (.var v) = s.int? (.var v) := by
  refine Option.ext fun n => ?_
  rw [(h.congr hs).int?_eq_some hv, h.int?_eq_some hv, binding_congr hs]

theorem Ranged.fits_congr (h : s.Ranged T D vs) (hs : s ≈ s') :
    s'.Fits D vs σ ↔ s.Fits D vs σ := by
  refine forall₂_congr fun v hv => ?_
  rw [accepts, accepts, h.int?_congr hs hv]

/-- Integers may be put into these variables, and anything into others. -/
theorem Ranged.set (h : s.Ranged T D vs) {t : S.Term} (ht : w ∈ vs → ∃ n, t = .int n) :
    (s.set w (some t)).Ranged T D vs where
  guarded v hv := by
    rw [guard?_set]
    exact h.guarded v hv
  held v hv u hu := by
    rw [binding_set] at hu
    split at hu
    · next heq =>
      cases hu
      exact ht (heq ▸ hv)
    · exact h.held v hv u hu

theorem Ranged.int?_set_self (h : s.Ranged T D vs) (hv : v ∈ vs) (n : Int) :
    (s.set v (some (.int n))).int? (.var v) = some n := by
  rw [(h.set fun _ => ⟨n, rfl⟩).int?_eq_some hv, binding_set, if_pos rfl]

theorem Ranged.int?_set_of_ne (h : s.Ranged T D vs) (hv : v ∈ vs) {t : S.Term}
    (ht : w ∈ vs → ∃ n, t = .int n) (hne : w ≠ v) :
    (s.set w (some t)).int? (.var v) = s.int? (.var v) := by
  refine Option.ext fun n => ?_
  rw [(h.set ht).int?_eq_some hv, h.int?_eq_some hv, binding_set, if_neg hne]

theorem Fits.int?_eq (hσ : s.Fits D vs σ) (hv : v ∈ vs) (hn : s.int? (.var v) = some n) :
    σ v = n := by
  have h := hσ v hv
  rw [accepts, hn] at h
  exact (of_decide_eq_true h).symm

/-- A variable that is given an integer accepts this one only. -/
theorem Ranged.accepts_set (h : s.Ranged T D vs) (hv : v ∈ vs) (hopen : s.isUnbound w = true)
    (hi : D w i = true) :
    (s.set w (some (.int i))).accepts D v n = true ↔
      s.accepts D v n = true ∧ (w = v → n = i) := by
  by_cases hvw : w = v
  · subst hvw
    rw [accepts, accepts, h.int?_set_self hv, (h.int?_eq_none hv).mpr hopen]
    simp only [decide_eq_true_eq, forall_const]
    constructor
    · rintro rfl
      exact ⟨hi, rfl⟩
    · exact fun hn => hn.2.symm
  · rw [accepts, accepts, h.int?_set_of_ne hv (fun _ => ⟨i, rfl⟩) hvw]
    simp [hvw]

/-- The assignments that are left when a variable is given an integer. -/
theorem Ranged.fits_set (h : s.Ranged T D vs) (hw : w ∈ vs) (hopen : s.isUnbound w = true)
    (hi : D w i = true) :
    (s.set w (some (.int i))).Fits D vs σ ↔ s.Fits D vs σ ∧ σ w = i := by
  constructor
  · intro hσ
    refine ⟨fun v hv => ((h.accepts_set hv hopen hi).mp (hσ v hv)).1, ?_⟩
    exact ((h.accepts_set hw hopen hi).mp (hσ w hw)).2 rfl
  · rintro ⟨hσ, rfl⟩ v hv
    exact (h.accepts_set hv hopen hi).mpr ⟨hσ v hv, fun heq => by rw [heq]⟩

/-- Other variables do not count. -/
theorem Ranged.fits_set_of_not_mem (h : s.Ranged T D vs) (hw : w ∉ vs) (t : S.Term) :
    (s.set w (some t)).Fits D vs σ ↔ s.Fits D vs σ := by
  refine forall₂_congr fun v hv => ?_
  have hne : w ≠ v := fun heq => hw (heq ▸ hv)
  rw [accepts, accepts, h.int?_set_of_ne hv (fun h => absurd h hw) hne]

/-! ### Deductions -/

theorem fills_refl (s : Store S) : s.Fills D vs ws s :=
  ⟨fun _ _ => .inl rfl, fun _ _ => rfl, fun _ _ _ => rfl⟩

theorem Fills.trans (h : s.Fills D vs ws s₁) (h' : s₁.Fills D vs ws s') :
    s.Fills D vs ws s' where
  filled v hv := by
    rcases h.filled v hv with hsame | ⟨hopen, n, hn, hset⟩
    · rcases h'.filled v hv with hsame' | ⟨hopen, n, hn, hset⟩
      · exact .inl (hsame'.trans hsame)
      · refine .inr ⟨?_, n, hn, by rw [hset, hsame]⟩
        rwa [isUnbound, isCell, binding, hsame] at hopen
    · rcases h'.filled v hv with hsame' | ⟨hopen', -, -, -⟩
      · exact .inr ⟨hopen, n, hn, hsame'.trans hset⟩
      · -- what has been given an integer is not open any more
        have hnone := (isUnbound_eq_true.mp hopen').2
        rw [binding, hset] at hnone
        cases hnone
  cells w hw := (h'.cells w hw).trans (h.cells w hw)
  beside v hv hw := (h'.beside v hv hw).trans (h.beside v hv hw)

theorem Fills.ranged (h : s.Fills D vs ws s') (hs : s.Ranged T D vs) : s'.Ranged T D vs where
  guarded v hv := by
    have hguard : s'.guard? v = s.guard? v := by
      rcases h.filled v hv with hsame | ⟨-, n, -, hset⟩
      · rw [guard?, guard?, hsame]
      · rw [guard?, guard?, hset]
    rw [hguard]
    exact hs.guarded v hv
  held v hv t ht := by
    rcases h.filled v hv with hsame | ⟨-, n, -, hset⟩
    · rw [binding, hsame] at ht
      exact hs.held v hv t ht
    · rw [binding, hset] at ht
      exact ⟨n, (Option.some.inj ht).symm⟩

theorem Fills.congr (h : s.Fills D vs ws s₁) (hs : s₁ ≈ s') : s.Fills D vs ws s' where
  filled v hv := by
    rw [← hs v]
    exact h.filled v hv
  cells w hw := by
    rw [← hs w]
    exact h.cells w hw
  beside v hv hw := (hs v).symm.trans (h.beside v hv hw)

/-- Cells that may change may as well stay as they are. -/
theorem Fills.weaken (h : s.Fills D vs [] s') (ws : List Var) : s.Fills D vs ws s' where
  filled := h.filled
  cells w _ := by
    by_cases hw : w ∈ vs
    · rcases h.filled w hw with hsame | ⟨-, n, -, hset⟩
      · rw [hsame]
      · rw [hset]
    · rw [h.beside w hw (by simp)]
  beside v hv _ := h.beside v hv (by simp)

/-- Integers stay where they are. -/
theorem Fills.int? (h : s.Fills D vs ws s') (hs : s.Ranged T D vs) (hv : v ∈ vs)
    (hn : s.int? (.var v) = some n) : s'.int? (.var v) = some n := by
  rw [(h.ranged hs).int?_eq_some hv, binding]
  rw [hs.int?_eq_some hv, binding] at hn
  rcases h.filled v hv with hsame | ⟨hopen, -⟩
  · rw [hsame, hn]
  · rw [← binding, (isUnbound_eq_true.mp hopen).2] at hn
    cases hn

/-- Integers come from the store, or the variable accepts them. -/
theorem Fills.of_int? (h : s.Fills D vs ws s') (hs : s.Ranged T D vs) (hv : v ∈ vs)
    (hn : s'.int? (.var v) = some n) : s.int? (.var v) = some n ∨ D v n = true := by
  rw [(h.ranged hs).int?_eq_some hv, binding] at hn
  rcases h.filled v hv with hsame | ⟨-, n', hn', hset⟩
  · left
    rwa [hs.int?_eq_some hv, binding, ← hsame]
  · right
    rw [hset] at hn
    cases hn
    exact hn'

/-- Deductions leave no assignments that there were not before. -/
theorem Fills.fits (h : s.Fills D vs ws s') (hs : s.Ranged T D vs) (hσ : s'.Fits D vs σ) :
    s.Fits D vs σ := by
  intro v hv
  rw [accepts]
  cases hn : s.int? (.var v) with
  | some n => simpa using (hσ.int?_eq hv (h.int? hs hv hn)).symm
  | none =>
    have hvalue := hσ v hv
    rw [accepts] at hvalue
    cases hn' : s'.int? (.var v) with
    | none =>
      rw [hn'] at hvalue
      exact hvalue
    | some n' =>
      rw [hn'] at hvalue
      rcases h.of_int? hs hv hn' with hold | hnew
      · rw [hn] at hold
        cases hold
      · rw [← of_decide_eq_true hvalue]
        exact hnew

theorem Ranged.isUnbound_of_fills (h : s.Ranged T D vs) (hfills : s.Fills D vs ws s')
    (hv : v ∈ vs) (hopen : s'.isUnbound v = true) : s.isUnbound v = true := by
  rw [← h.int?_eq_none hv]
  rw [← (hfills.ranged h).int?_eq_none hv] at hopen
  by_contra hne
  obtain ⟨n, hn⟩ := Option.ne_none_iff_exists'.mp hne
  rw [hfills.int? h hv hn] at hopen
  cases hopen

/-- Some of the variables are left open, and fewer than before if one of them is not. -/
theorem Fills.countP_le (h : s.Fills D vs ws s') (hs : s.Ranged T D vs) :
    vs.countP s'.isUnbound ≤ vs.countP s.isUnbound :=
  List.countP_mono_left fun _ hv hopen => hs.isUnbound_of_fills h hv hopen

theorem Fills.countP_lt (h : s.Fills D vs ws s') (hs : s.Ranged T D vs) (hv : v ∈ vs)
    (hopen : s.isUnbound v = true) (hclosed : s'.isUnbound v = false) :
    vs.countP s'.isUnbound < vs.countP s.isUnbound := by
  obtain ⟨us, us', rfl⟩ := List.append_of_mem hv
  have hmono : ∀ us'' : List Var, (∀ u ∈ us'', u ∈ us ++ v :: us') →
      us''.countP s'.isUnbound ≤ us''.countP s.isUnbound := fun us'' hsub =>
    List.countP_mono_left fun u hu hopen => hs.isUnbound_of_fills h (hsub u hu) hopen
  have hleft := hmono us fun u hu => by simp [hu]
  have hright := hmono us' fun u hu => by simp [hu]
  rw [List.countP_append, List.countP_append, List.countP_cons, List.countP_cons, hopen, hclosed]
  simp
  omega

/-! ### Taking an integer -/

theorem fills_take (hv : v ∈ vs) (n : Int) : s.Fills D vs ws (s.take D v n) := by
  rw [take]
  split
  · next htaken =>
    rw [Bool.and_eq_true] at htaken
    refine ⟨fun u _ => ?_, fun u _ => ?_, fun u hu _ => ?_⟩
    · by_cases huv : v = u
      · subst huv
        exact .inr ⟨htaken.1, n, htaken.2, by rw [get_set, if_pos rfl]⟩
      · exact .inl (by rw [get_set, if_neg huv])
    · rw [get_set]
      split
      · next huv => rw [huv]
      · rfl
    · have huv : v ≠ u := fun heq => hu (heq ▸ hv)
      rw [get_set, if_neg huv]
  · exact fills_refl s

/-- A variable that takes an integer holds it. -/
theorem Ranged.int?_take (h : s.Ranged T D vs) (hv : v ∈ vs) (haccepts : s.accepts D v n = true) :
    (s.take D v n).int? (.var v) = some n := by
  rw [accepts] at haccepts
  rw [take]
  cases hn : s.int? (.var v) with
  | some n' =>
    rw [hn] at haccepts
    rw [h.isUnbound_eq_false hv hn, Bool.false_and, if_neg (by simp), hn,
      of_decide_eq_true haccepts]
  | none =>
    rw [hn] at haccepts
    rw [(h.int?_eq_none hv).mp hn, Bool.true_and, if_pos haccepts]
    exact h.int?_set_self hv n

/-- The assignments that are left when a variable takes an integer. -/
theorem Ranged.fits_take (h : s.Ranged T D vs) (hv : v ∈ vs)
    (haccepts : s.accepts D v n = true) :
    (s.take D v n).Fits D vs σ ↔ s.Fits D vs σ ∧ σ v = n := by
  rw [take]
  split
  · next htaken =>
    rw [Bool.and_eq_true] at htaken
    exact h.fits_set hv htaken.1 htaken.2
  · refine (and_iff_left_of_imp fun hσ => ?_).symm
    rw [accepts] at haccepts
    cases hn : s.int? (.var v) with
    | some n' =>
      rw [hn] at haccepts
      rw [hσ.int?_eq hv hn, of_decide_eq_true haccepts]
    | none =>
      rw [hn] at haccepts
      have hopen := (h.int?_eq_none hv).mp hn
      simp_all

/-- An integer is not taken where the variable holds it already. -/
theorem take_of_not_isUnbound (hv : s.isUnbound v = false) : s.take D v n = s := by
  rw [take, hv, Bool.false_and, if_neg (by simp)]

/-! ### Reading integers -/

/-- The integer that a variable holds, and zero if it holds none. -/
def reading (s : Store S) (v : Var) : Int := (s.int? (.var v)).getD 0

theorem reading_of_binding (hcell : s.isCell v = false) (hn : s.binding v = some (.int n)) :
    s.reading v = n := by
  rw [reading, int?, deref_of_binding hcell hn rfl]
  rfl

/-- A variable that is not open holds what is read off it. -/
theorem Ranged.int?_eq_reading (h : s.Ranged T D vs) (hv : v ∈ vs)
    (hclosed : s.isUnbound v = false) : s.int? (.var v) = some (s.reading v) := by
  cases hn : s.int? (.var v) with
  | none =>
    rw [(h.int?_eq_none hv).mp hn] at hclosed
    cases hclosed
  | some n => rw [reading, hn, Option.getD_some]

theorem Ranged.fits_reading (h : s.Ranged T D vs) (hclosed : ∀ v ∈ vs, s.isUnbound v = false) :
    s.Fits D vs s.reading := by
  intro v hv
  rw [accepts, h.int?_eq_reading hv (hclosed v hv)]
  simp

/-- With no variable open there is one assignment left. -/
theorem Fits.map_eq_reading (hσ : s.Fits D vs σ) (h : s.Ranged T D vs)
    (hclosed : ∀ v ∈ vs, s.isUnbound v = false) : vs.map σ = vs.map s.reading :=
  List.map_congr_left fun v hv => hσ.int?_eq hv (h.int?_eq_reading hv (hclosed v hv))

end Ranged

end Store

/-- Variables that hold integers are copied as these integers. -/
theorem Theory.resolve?_ints {s : Store S} {vs : List Var} {σ : Var → Int}
    (h : ∀ v ∈ vs, s.isCell v = false ∧ s.binding v = some (.int (σ v))) (i : Nat) :
    (T.resolve? s 2 (.list (vs.map .var))).run i =
      some (.list (vs.map fun v => .int (σ v)), i) := by
  refine resolve?_list (fun v hv i => ?_) i
  obtain ⟨hcell, hbinding⟩ := h v hv
  rw [resolve?_of_binding hcell hbinding (.int _), resolve?, Store.deref_of_step?_eq_none rfl]
  rfl

/-! ### Unification with an integer -/

section Unify

variable {m : Machine S} {vs : List Var} {v w : Var}

/-- Unifying a variable with an integer asks whether it can still stand for it, and gives
it the integer if so. -/
theorem Machine.exists_unify_ranged (h : m.world.store.Ranged T D vs) (hv : v ∈ vs) (i : Int)
    (n : Nat) :
    ∃ m', Machine.unify T (n + 2) (.var v) (.int i) m =
        .ok (m.world.store.accepts D v i) m' ∧
      m.Stays Scope.Continues m' ∧ m'.world.store = m.world.store.take D v i := by
  have hcell := h.isCell hv
  rw [Machine.unify_apply]
  cases hn : m.world.store.int? (.var v) with
  | some j =>
    -- the variable holds an integer, which is compared
    have hbinding := (h.int?_eq_some hv).mp hn
    have hvar := Store.deref_of_binding hcell hbinding rfl
    have hint : ∀ j, m.world.store.deref (.int j) = .int j := fun _ =>
      Store.deref_of_var?_eq_none rfl
    have hunify : GoalSearch.unify T (n + 2) (.var v) (.int i) m.scope =
        .ok (decide (j = i)) m.scope := by
      rw [GoalSearch.unify, unifyStep, bind_ok (Scope.store_apply _)]
      dsimp only [scope]
      rw [hvar, hint i, Store.identical?, hint j, hint i]
      by_cases hji : j = i
      · subst hji
        simp only [decide_true]
        rfl
      · simp only [hji, decide_false]
        rfl
    rw [hunify, Store.accepts, hn, Store.take_of_not_isUnbound (h.isUnbound_eq_false hv hn)]
    exact ⟨_, rfl, stays_of_eq rfl rfl rfl rfl, rfl⟩
  | none =>
    have hopen := (h.int?_eq_none hv).mp hn
    have hfree := Store.isBound_of_isUnbound hopen
    obtain ⟨g, hg, hdone⟩ := h.guarded v hv
    have hunify := unify_of_guard (T := T) (c := m.scope) hfree rfl
      (.inr ⟨g, hg, hdone i⟩) n
    rw [hunify, Store.accepts, hn, Store.take, hopen, Bool.true_and]
    cases hi : D v i with
    | false => exact ⟨_, rfl, stays_of_eq rfl rfl rfl rfl, rfl⟩
    | true =>
      have hapart : (m.scope.world.store.deref (.int i)).var? ≠ some v := by
        rw [Store.deref_of_var?_eq_none rfl]
        simp [Term.var?]
      exact ⟨_, rfl, ⟨rfl, rfl, Scope.continues_bound hfree hapart⟩, rfl⟩

/-- A cell takes every term that is no variable. -/
theorem Machine.exists_unify_cell (hw : m.world.store.isCell w = true) {value : S.Term}
    (hvalue : value.var? = none) (n : Nat) :
    ∃ m', Machine.unify T (n + 2) (.var w) value m = .ok true m' ∧
      m.Stays Scope.Continues m' ∧ m'.world.store = m.world.store.set w (some value) := by
  have hfree : m.world.store.isBound w = false := by
    rw [Store.isBound, hw]
    rfl
  have hguard : m.world.store.guard? w = none := Store.guard?_of_isCell hw
  have hapart : (m.scope.world.store.deref value).var? ≠ some w := by
    rw [Store.deref_of_var?_eq_none hvalue, hvalue]
    simp
  rw [Machine.unify_apply, unify_of_guard (T := T) (c := m.scope) hfree hvalue
    (.inl ⟨hguard, rfl⟩) n]
  exact ⟨_, rfl, ⟨rfl, rfl, Scope.continues_bound hfree hapart⟩, rfl⟩

end Unify

/-! ### Programs that deduce -/

section Deduce

variable {k : Nat} {run : Runner S} {m m' : Machine S} {vs : List Var} {b : Bool} {κ : Kind}

theorem Program.bind_exec {α : Type} {μ : Kind} {x : Action (Machine S) α}
    {next : α → Program S (Goal S) κ} {f : Program.Value S (Goal S) κ → Program S (Goal S) μ}
    (h : ∀ a, ((next a).bind f).exec T k run =
      (next a).exec T k run >>= fun b => (f b).exec T k run) :
    (x >>= fun a => ((next a).bind f).exec T k run) =
      (x >>= fun a => (next a).exec T k run) >>= fun b => (f b).exec T k run := by
  rw [bind_assoc]
  exact bind_congr h

theorem Program.exec_bind {κ μ : Kind} : ∀ (p : Program S (Goal S) κ)
    (f : Program.Value S (Goal S) κ → Program S (Goal S) μ),
    (p.bind f).exec T k run = p.exec T k run >>= fun a => (f a).exec T k run
  | .verdict _, _ => (pure_bind _ _).symm
  | .attempt _, _ => (pure_bind _ _).symm
  | .candidates _, _ => (pure_bind _ _).symm
  | .choices _, _ => (pure_bind _ _).symm
  | .ask _ next, f => bind_exec fun x => exec_bind (next x) f
  | .unify _ _ next, f => bind_exec fun r => exec_bind (next r) f
  | .execute _ next, f => bind_exec fun r => exec_bind (next r) f
  | .findFirst _ _ next, f => bind_exec fun r => exec_bind (next r) f
  | .findAll _ _ next, f => bind_exec fun r => exec_bind (next r) f
  | .view next, f => bind_exec fun (m : Machine S) => exec_bind (next m.engine.view) f
  | .resetStatistics next, f => bind_exec fun _ => exec_bind next f
  | .renew next, f => bind_exec fun _ => exec_bind next f
  | .loop _ next, f => bind_exec fun r => exec_bind (next r) f

theorem Program.exec_bind_of_ok {μ : Kind} {p : Program S (Goal S) κ}
    {a : Program.Value S (Goal S) κ} (h : p.exec T k run m = .ok a m')
    (f : Program.Value S (Goal S) κ → Program S (Goal S) μ) :
    (p.bind f).exec T k run m = (f a).exec T k run m' := by
  rw [Program.exec_bind, bind_ok h]

theorem Program.exec_unifies (t u : S.Term) :
    (Program.unifies t u : Program S (Goal S) .verdict).exec T k run = Machine.unify T k t u :=
  bind_pure _

theorem Program.exec_andThen {p q : Program S (Goal S) .verdict}
    (h : p.exec T k run m = .ok b m') :
    (p.andThen q).exec T k run m = if b then q.exec T k run m' else .ok false m' := by
  refine (Program.exec_bind_of_ok h _).trans ?_
  cases b <;> rfl

theorem DigitSum.exec_orFail {p : Program S (Goal S) .verdict}
    {next : Program S (Goal S) .attempt} (h : p.exec T k run m = .ok b m') :
    (DigitSum.orFail p next).exec T k run m =
      if b then next.exec T k run m' else .ok (some false) m' := by
  refine (Program.exec_bind_of_ok h _).trans ?_
  cases b <;> rfl

section Steady

variable {P : Goal S → Prop} {p q : Program S (Goal S) .verdict}

theorem Program.Steady.bind {μ : Kind} {p : Program S (Goal S) κ}
    {f : Program.Value S (Goal S) κ → Program S (Goal S) μ} (hp : p.Steady P)
    (hf : ∀ a, (f a).Steady P) : (p.bind f).Steady P := by
  induction hp with
  | verdict | attempt | candidates | choices => exact hf _
  | ask _ ih => exact .ask fun x => ih x hf
  | unify _ ih => exact .unify fun r => ih r hf
  | execute hg _ ih => exact .execute hg fun r => ih r hf
  | findFirst hg _ ih => exact .findFirst hg fun r => ih r hf
  | findAll hg _ ih => exact .findAll hg fun r => ih r hf
  | view _ ih => exact .view fun v => ih v hf
  | resetStatistics _ ih => exact .resetStatistics (ih hf)
  | loop hround _ _ ih => exact .loop hround fun r => ih r hf

theorem Program.Steady.unifies (t u : S.Term) :
    (Program.unifies t u : Program S (Goal S) .verdict).Steady P :=
  .unify fun r => .verdict r

theorem Program.Steady.andThen (hp : p.Steady P) (hq : q.Steady P) : (p.andThen q).Steady P := by
  refine hp.bind fun (b : Bool) => ?_
  cases b with
  | false => exact .verdict false
  | true => exact hq

theorem DigitSum.steady_orFail {next : Program S (Goal S) .attempt} (hp : p.Steady P)
    (hnext : next.Steady P) : (DigitSum.orFail p next).Steady P := by
  refine hp.bind fun (b : Bool) => ?_
  cases b with
  | false => exact .attempt _
  | true => exact hnext

end Steady

variable (D) in
/-- Some of the variables `vs` were to take integers.  If all of them could, what is left
are the assignments in which they stand for them; if not, there were no such assignments. -/
structure Machine.Takes (vs : List Var) (es : List (Var × Int)) (m : Machine S) (b : Bool)
    (m' : Machine S) : Prop where
  stays : m.Stays Scope.Continues m'
  fills : m.world.store.Fills D vs [] m'.world.store
  kept : b = true → ∀ σ, m'.world.store.Fits D vs σ ↔
    m.world.store.Fits D vs σ ∧ ∀ e ∈ es, σ e.1 = e.2
  refused : b = false → ∀ σ, m.world.store.Fits D vs σ → ∃ e ∈ es, σ e.1 ≠ e.2
  holds : b = true → ∀ e ∈ es, m'.world.store.int? (.var e.1) = some e.2
  same : (∀ e ∈ es, m.world.store.isUnbound e.1 = false) → m'.world.store = m.world.store

/-- A variable takes an integer if it can still stand for it. -/
theorem Machine.exists_takes (run : Runner S) (hk : 2 ≤ k)
    (hm : m.world.store.Ranged T D vs) {v : Var}
    (hv : v ∈ vs) (i : Int) :
    ∃ b m', (Program.unifies (.var v) (.int i) : Program S (Goal S) .verdict).exec T k run m =
        .ok b m' ∧ m.Takes D vs [(v, i)] b m' := by
  obtain ⟨n, rfl⟩ : ∃ n, k = n + 2 := ⟨k - 2, by omega⟩
  obtain ⟨m', hunify, hstays, hstore⟩ := exists_unify_ranged hm hv i n
  rw [Program.exec_unifies]
  refine ⟨_, m', hunify, hstays, ?_, fun haccepts σ => ?_, fun hrefuses σ hσ => ?_,
    fun haccepts => ?_, fun hclosed => ?_⟩
  · rw [hstore]
    exact Store.fills_take hv i
  · rw [hstore, hm.fits_take hv haccepts]
    simp
  · refine ⟨(v, i), by simp, fun heq => ?_⟩
    have haccepts := hσ v hv
    rw [show σ v = i from heq, hrefuses] at haccepts
    cases haccepts
  · rw [hstore]
    simpa using hm.int?_take hv haccepts
  · rw [hstore]
    exact Store.take_of_not_isUnbound (hclosed (v, i) (by simp))

/-- One variable after the other takes an integer. -/
theorem Machine.Takes.trans {m₁ : Machine S} {es es' : List (Var × Int)}
    (h : m.Takes D vs es true m₁) (h' : m₁.Takes D vs es' b m')
    (hm : m.world.store.Ranged T D vs) (hes : ∀ e ∈ es, e.1 ∈ vs) :
    m.Takes D vs (es ++ es') b m' where
  stays := h.stays.trans h'.stays
  fills := h.fills.trans h'.fills
  kept hb σ := by
    rw [h'.kept hb, h.kept rfl, List.forall_mem_append]
    exact and_assoc
  refused hb σ hσ := by
    by_cases hfirst : ∀ e ∈ es, σ e.1 = e.2
    · obtain ⟨e, he, hne⟩ := h'.refused hb σ ((h.kept rfl σ).mpr ⟨hσ, hfirst⟩)
      exact ⟨e, List.mem_append_right es he, hne⟩
    · obtain ⟨e, he⟩ := not_forall.mp hfirst
      obtain ⟨he, hne⟩ := Classical.not_imp.mp he
      exact ⟨e, List.mem_append_left es' he, hne⟩
  holds hb e he := by
    have hm₁ := h.fills.ranged hm
    rcases List.mem_append.mp he with he | he
    · exact h'.fills.int? hm₁ (hes e he) (h.holds rfl e he)
    · exact h'.holds hb e he
  same hclosed := by
    rw [List.forall_mem_append] at hclosed
    have hfirst := h.same hclosed.1
    rw [h'.same (by rw [hfirst]; exact hclosed.2), hfirst]

/-- What one variable refuses cannot be made up for by others. -/
theorem Machine.Takes.append {es : List (Var × Int)} (h : m.Takes D vs es false m')
    (es' : List (Var × Int)) : m.Takes D vs (es ++ es') false m' where
  stays := h.stays
  fills := h.fills
  kept hb := nomatch hb
  refused _ σ hσ := by
    obtain ⟨e, he, hne⟩ := h.refused rfl σ hσ
    exact ⟨e, List.mem_append_left es' he, hne⟩
  holds hb := nomatch hb
  same hclosed := h.same fun e he => hclosed e (List.mem_append_left es' he)

/-- Programs in which variables take integers, one after the other. -/
theorem Machine.exists_takes_andThen {p q : Program S (Goal S) .verdict}
    {es es' : List (Var × Int)} (hm : m.world.store.Ranged T D vs) (hes : ∀ e ∈ es, e.1 ∈ vs)
    (hp : ∃ b m', p.exec T k run m = .ok b m' ∧ m.Takes D vs es b m')
    (hq : ∀ m₁ : Machine S, m₁.world.store.Ranged T D vs →
      ∃ b m', q.exec T k run m₁ = .ok b m' ∧ m₁.Takes D vs es' b m') :
    ∃ b m', (p.andThen q).exec T k run m = .ok b m' ∧ m.Takes D vs (es ++ es') b m' := by
  obtain ⟨b, m₁, hfirst, htakes⟩ := hp
  rw [Program.exec_andThen hfirst]
  cases b with
  | false => exact ⟨false, m₁, rfl, htakes.append es'⟩
  | true =>
    obtain ⟨b, m', hsecond, htakes'⟩ := hq m₁ (htakes.fills.ranged hm)
    exact ⟨b, m', hsecond, htakes.trans htakes' hm hes⟩

/-- Rounds of which each one without verdict makes something smaller come to a verdict. -/
theorem Action.exists_rounds {σ α : Type} {x : Action σ (Option α)} {I : σ → Prop}
    {f : σ → Nat} {R : σ → σ → Prop} {Q : α → σ → σ → Prop}
    (hround : ∀ s, I s → ∃ r t, x s = .ok r t ∧
      match r with
      | some a => Q a s t
      | none => I t ∧ f t < f s ∧ R s t)
    (hQ : ∀ a s t u, R s t → Q a t u → Q a s u) {n : Nat} {s : σ} (hs : I s) (hn : f s < n) :
    ∃ a t, rounds x n s = .ok a t ∧ Q a s t := by
  induction n generalizing s with
  | zero => omega
  | succ n ih =>
    obtain ⟨r, t, hexec, hr⟩ := hround s hs
    rw [rounds]
    cases r with
    | some a => exact ⟨a, t, bind_ok hexec, hr⟩
    | none =>
      obtain ⟨ht, hsmaller, hstep⟩ := hr
      obtain ⟨a, u, hrest, hu⟩ := ih ht (by omega)
      exact ⟨a, u, (bind_ok hexec).trans hrest, hQ a s t u hstep hu⟩

end Deduce

/-! ### Sums -/

/-- A sum of which some parts are known, and the others are open. -/
theorem total_map_eq {α : Type} {f : α → Int} {known : α → Option Int} {opened : α → Bool}
    {as : List α} (h : ∀ a ∈ as, known a = some (f a) ∧ opened a = false ∨
      known a = none ∧ opened a = true) :
    total (as.map f) = total (as.filterMap known) + total ((as.filter opened).map f) := by
  induction as with
  | nil => rfl
  | cons a as ih =>
    rw [List.forall_mem_cons] at h
    have hrest := ih h.2
    rcases h.1 with ⟨hknown, hopened⟩ | ⟨hknown, hopened⟩
    · rw [List.filterMap_cons_some hknown, List.filter_cons_of_neg (by simp [hopened])]
      rw [List.map_cons, total, total, hrest]
      omega
    · rw [List.filterMap_cons_none hknown, List.filter_cons_of_pos hopened]
      rw [List.map_cons, List.map_cons, total, total, hrest]
      omega

end GoalSearch
