/-
Copies of templates.

What a template stands for depends on the slots only, except for the numbers of
the structures that are copied, which are handed out one after the other.

* `Theory.IsCopy` — a term is a copy of a template;
* `Theory.Copied` — a template has a copy;
* `Theory.resolve?_congr` — stores with the same slots have the same copies;
* `Theory.resolve?_isSome` — whether there is a copy does not depend on the
  numbers that are handed out.
-/
import GoalSearch.Proofs.Fuel
import GoalSearch.Proofs.Slots

namespace GoalSearch

variable {S : Vocabulary} {α β : Type}

/-- The term `a` is a copy of the template `t`, with the slots `s`. -/
def Theory.IsCopy (T : Theory S) (t : S.Term) (s : Store S) (a : S.Term) : Prop :=
  ∃ n i j, (T.resolve? s n t).run i = some (a, j)

/-- The template `t` has a copy within a bound, with the slots `s`. -/
def Theory.Copied (T : Theory S) (n : Nat) (t : S.Term) (s : Store S) : Prop :=
  ((T.resolve? s n t).run 0).isSome

/-- What holds of each element within some bound holds of all within one bound. -/
theorem exists_bound {P : Nat → α → Prop} (hP : ∀ n n' a, n ≤ n' → P n a → P n' a) {as : List α}
    (h : ∀ a ∈ as, ∃ n, P n a) : ∃ n, ∀ a ∈ as, P n a := by
  induction as with
  | nil => exact ⟨0, by simp⟩
  | cons a as ih =>
    rw [List.forall_mem_cons] at h
    obtain ⟨n, hn⟩ := h.1
    obtain ⟨n', hn'⟩ := ih h.2
    refine ⟨max n n', ?_⟩
    rw [List.forall_mem_cons]
    constructor
    · exact hP _ _ _ (Nat.le_max_left n n') hn
    · exact fun b hb => hP _ _ _ (Nat.le_max_right n n') (hn' b hb)

theorem isSome_run_bind {x : StateT Nat Option α} {f : α → StateT Nat Option β}
    (hx : ∀ i j, (x.run i).isSome = (x.run j).isSome) {b : Bool}
    (hf : ∀ a i, ((f a).run i).isSome = b) (i j : Nat) :
    ((x >>= f).run i).isSome = ((x >>= f).run j).isSome := by
  have hbind : ∀ i, ((x >>= f).run i).isSome = ((x.run i).isSome && b) := by
    intro i
    rw [StateT.run_bind]
    cases x.run i with
    | none => rfl
    | some p => simpa using hf p.1 p.2
  rw [hbind, hbind, hx i j]

theorem isSome_run_mapM {f : α → StateT Nat Option β} {as : List α}
    (h : ∀ a ∈ as, ∀ i j, ((f a).run i).isSome = ((f a).run j).isSome) (i j : Nat) :
    ((as.mapM f).run i).isSome = ((as.mapM f).run j).isSome := by
  induction as generalizing i j with
  | nil => rfl
  | cons a as ih =>
    have hrest := ih fun a ha => h a (List.mem_cons_of_mem _ ha)
    rw [List.mapM_cons]
    refine isSome_run_bind (h a (by simp)) (b := ((as.mapM f).run 0).isSome) (fun b i => ?_) i j
    rw [← hrest i 0, StateT.run_bind]
    cases (as.mapM f).run i <;> rfl

namespace Theory

variable (T : Theory S) {s s' : Store S}

theorem resolve?_congr (hs : s.ChainsEnd) (h : s ≈ s') (n : Nat) :
    T.resolve? s n = T.resolve? s' n := by
  induction n with
  | zero => rfl
  | succ n ih =>
    funext t
    rw [resolve?, resolve?, Store.deref_congr hs h, ih]
    split
    · rw [Store.isCell_congr h, Store.binding_congr h]
    · rfl
    · rfl
    · rfl

theorem resolve?_isSome (s : Store S) (n : Nat) (t : S.Term) (i j : Nat) :
    ((T.resolve? s n t).run i).isSome = ((T.resolve? s n t).run j).isSome := by
  induction n generalizing t i j with
  | zero => rfl
  | succ n ih =>
    rw [resolve?]
    split
    · split
      · exact ih _ i j
      · rfl
    · next items _ =>
      exact isSome_run_bind (isSome_run_mapM fun a _ => ih a) (b := true) (fun _ _ => rfl) i j
    · next object label args _ =>
      split
      · exact isSome_run_bind (isSome_run_mapM fun a _ => ih a) (b := true) (fun _ _ => rfl) i j
      · rfl
    · rfl

variable {T} {t a : S.Term} {n n' : Nat}

theorem IsCopy.congr (hs : s.ChainsEnd) (h : s ≈ s') (ha : T.IsCopy t s a) : T.IsCopy t s' a := by
  obtain ⟨n, i, j, hrun⟩ := ha
  rw [T.resolve?_congr hs h] at hrun
  exact ⟨n, i, j, hrun⟩

theorem Copied.congr (hs : s.ChainsEnd) (h : s ≈ s') (hcopied : T.Copied n t s) :
    T.Copied n t s' := by
  rwa [Copied, T.resolve?_congr hs h] at hcopied

theorem Copied.mono (hn : n ≤ n') (h : T.Copied n t s) : T.Copied n' t s := by
  obtain ⟨r, hr⟩ := Option.isSome_iff_exists.mp h
  exact Option.isSome_iff_exists.mpr ⟨r, T.resolve?_mono s hn hr⟩

theorem IsCopy.copied (h : T.IsCopy t s a) : ∃ n, T.Copied n t s := by
  obtain ⟨n, i, j, hrun⟩ := h
  refine ⟨n, ?_⟩
  rw [Copied, T.resolve?_isSome s n t 0 i, hrun]
  rfl

end Theory

end GoalSearch
