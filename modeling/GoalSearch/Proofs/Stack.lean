/-
The stack of a run, from its sentinel to the top.

A run works above a base: its sentinel, and whatever was on the stack before.
Above the base, the marks of the frames rise from the mark of the run to the
length of the trail, and every continuation on the stack fits the frames below
it: each height to which it commits lies between the base and its frame.

* `Rising` — marks that rise;
* `Continuation.Fits`, `Activation.Fits`, `Stack.Fits` — continuations that
  commit to frames below them;
* `Continuation.Fits.on_top` — what fits a stack fits all stacks on top of it.

Design notes: `own next F` says which stacks a commit may go back to, given what
comes after it.  For the balance of the trail it is enough that the base is
below `F`; other properties of commits are had by saying more.  Steps and levels
of a search that are still looking for their choices are on the stack in the
middle of a step only, so no frame between two steps is one of these.
-/
import GoalSearch.Proofs.Hosts

namespace GoalSearch

open GoalSearch.Action

variable {S : Vocabulary} {α : Type}

/-! ### Rising marks -/

/-- The marks on a stack, from the bottom to the top, rise from `lo` to `n`. -/
def Rising (lo : Nat) : List (Frame S) → Nat → Prop
  | [], n => lo ≤ n
  | f :: fs, n => f.mark ≤ n ∧ Rising lo fs f.mark

theorem Rising.mono {lo : Nat} {fs : List (Frame S)} {n n' : Nat} (h : Rising lo fs n)
    (hn : n ≤ n') : Rising lo fs n' := by
  cases fs with
  | nil => exact Nat.le_trans h hn
  | cons f fs => exact ⟨Nat.le_trans h.1 hn, h.2⟩

theorem Rising.lo_le {lo : Nat} {fs : List (Frame S)} {n : Nat} (h : Rising lo fs n) :
    lo ≤ n := by
  induction fs generalizing n with
  | nil => exact h
  | cons f fs ih => exact Nat.le_trans (ih h.2) h.1

theorem Rising.drop {lo : Nat} {fs : List (Frame S)} {n : Nat} (h : Rising lo fs n) (i : Nat) :
    Rising lo (fs.drop i) n := by
  induction fs generalizing i n with
  | nil => simpa using h
  | cons f fs ih =>
    cases i with
    | zero => exact h
    | succ i => exact (ih h.2 i).mono h.1

theorem Rising.append {lo mid : Nat} {fs gs : List (Frame S)} {n : Nat} (h : Rising mid fs n)
    (hg : Rising lo gs mid) : Rising lo (fs ++ gs) n := by
  induction fs generalizing n with
  | nil => exact hg.mono h
  | cons f fs ih => exact ⟨h.1, ih h.2⟩

section Fits

/-- The stacks to which a `once` may go back, by what comes after it. -/
abbrev Owner (S : Vocabulary) : Type := Continuation S → List (Frame S) → Prop

/-- A continuation whose goals are steady, and whose commits go back to owned
stacks below `F`.  Only a loud one collects answers or refuses them. -/
def Continuation.Fits (own : Owner S) (loud : Prop) : Continuation S → List (Frame S) → Prop
  | .finish, _ => True
  | .sequence rest next, F => (∀ g ∈ rest, g.Steady) ∧ next.Fits own loud F
  | .call g next, F => g.Steady ∧ next.Fits own loud F
  | .commit height next, F => height ≤ F.length ∧ own next (F.drop (F.length - height)) ∧
      next.Fits own loud (F.drop (F.length - height))
  | .collect _ next, F => loud ∧ next.Fits own loud F
  | .refuse, _ => loud

/-- An activation that fits the frames `F` below it, between two steps. -/
def Activation.Fits (own : Owner S) (loud : Prop) : Activation S → List (Frame S) → Prop
  | .sentinel, _ => False
  | .step, _ => False
  | .candidates draw _ validate next, F =>
    (∀ i p, (draw i).Yields (some p) → p.Steady Goal.Steady) ∧ validate.Steady Goal.Steady ∧
      next.Fits own loud F
  | .branches rest next, F => (∀ g ∈ rest, g.Steady) ∧ next.Fits own loud F
  | .search handler choices next, F =>
    (∀ p, handler.Yields p → p.Steady Goal.Steady) ∧
      (∃ make made, choices = some (make, made) ∧ ∀ i, (make i).Steady Goal.Steady) ∧
      next.Fits own loud F

/-- A stack on which every frame fits the frames below it, down to `base`. -/
def Stack.Fits (own : Owner S) (loud : Prop) (base : List (Frame S)) : List (Frame S) → Prop
  | [] => True
  | f :: fs => f.activation.Fits own loud (fs ++ base) ∧ Stack.Fits own loud base fs

/-- A task that fits the stack `F`. -/
def Task.Fits (own : Owner S) (loud : Prop) : Task S → List (Frame S) → Prop
  | .call g next, F => g.Steady ∧ next.Fits own loud F
  | .proceed next, F => next.Fits own loud F
  | .retry, _ => True
  | .backtrack, _ => True

/-- The outcome of a step that fits the stack `F`. -/
def Progress.Fits (own : Owner S) (loud : Prop) : Progress S → List (Frame S) → Prop
  | .task t, F => t.Fits own loud F
  | .ended _, _ => True

variable {own own' : Owner S} {loud : Prop} {k : Continuation S} {F F' base : List (Frame S)}

/-- What fits a stack fits all stacks on top of it. -/
theorem Continuation.Fits.on_top (h : k.Fits own loud F) (hF : F <:+ F') :
    k.Fits own loud F' := by
  induction k with
  | finish => trivial
  | sequence rest next ih => exact ⟨h.1, ih h.2⟩
  | call g next ih => exact ⟨h.1, ih h.2⟩
  | commit height next ih =>
    obtain ⟨upper, rfl⟩ := hF
    have hdrop : (upper ++ F).drop ((upper ++ F).length - height) =
        F.drop (F.length - height) := by
      have hh := h.1
      rw [show (upper ++ F).length - height = upper.length + (F.length - height) by
        rw [List.length_append]; omega, List.drop_append]
      simp
    refine ⟨Nat.le_trans h.1 (by simp), ?_, ?_⟩
    · rw [hdrop]
      exact h.2.1
    · rw [hdrop]
      exact h.2.2
  | collect template next ih => exact ⟨h.1, ih h.2⟩
  | refuse => exact h

theorem Continuation.Fits.mono (hown : ∀ next F, own next F → own' next F)
    (h : k.Fits own loud F) : k.Fits own' loud F := by
  induction k generalizing F with
  | finish => trivial
  | sequence rest next ih => exact ⟨h.1, ih h.2⟩
  | call g next ih => exact ⟨h.1, ih h.2⟩
  | commit height next ih => exact ⟨h.1, hown _ _ h.2.1, ih h.2.2⟩
  | collect template next ih => exact ⟨h.1, ih h.2⟩
  | refuse => exact h

theorem Continuation.Entry.fits (hk : k.Entry) : k.Fits own (k ≠ .finish) F := by
  cases hk with
  | finish => trivial
  | first template => exact ⟨by simp, trivial⟩
  | all template => exact ⟨by simp, by simp [Continuation.Fits]⟩

theorem Activation.Fits.mono {a : Activation S} (hown : ∀ next F, own next F → own' next F)
    (h : a.Fits own loud F) : a.Fits own' loud F := by
  cases a with
  | sentinel => exact h
  | step => exact h
  | candidates draw drawn validate next => exact ⟨h.1, h.2.1, h.2.2.mono hown⟩
  | branches rest next => exact ⟨h.1, h.2.mono hown⟩
  | search handler choices next => exact ⟨h.1, h.2.1, h.2.2.mono hown⟩

theorem Stack.Fits.mono {upper : List (Frame S)} (hown : ∀ next F, own next F → own' next F)
    (h : Stack.Fits own loud base upper) : Stack.Fits own' loud base upper := by
  induction upper with
  | nil => trivial
  | cons f fs ih => exact ⟨h.1.mono hown, ih h.2⟩

theorem Stack.Fits.drop {upper : List (Frame S)} (h : Stack.Fits own loud base upper) (i : Nat) :
    Stack.Fits own loud base (upper.drop i) := by
  induction upper generalizing i with
  | nil => simpa using h
  | cons f fs ih =>
    cases i with
    | zero => exact h
    | succ i => exact ih h.2 i

theorem Task.Fits.mono {t : Task S} (hown : ∀ next F, own next F → own' next F)
    (h : t.Fits own loud F) : t.Fits own' loud F := by
  cases t with
  | call g next => exact ⟨h.1, h.2.mono hown⟩
  | proceed next => exact Continuation.Fits.mono hown h
  | retry => trivial
  | backtrack => trivial

/-- The commits of a continuation go back to stacks below it, and what comes
after them is a part of it. -/
theorem Continuation.Fits.parts (h : k.Fits own loud F) :
    k.Fits (fun next F' => own next F' ∧ F' <:+ F ∧ sizeOf next < sizeOf k) loud F := by
  induction k generalizing F with
  | finish => trivial
  | sequence rest next ih =>
    refine ⟨h.1, (ih h.2).mono fun next' F' hown => ⟨hown.1, hown.2.1, ?_⟩⟩
    simp only [sequence.sizeOf_spec]
    omega
  | call g next ih =>
    refine ⟨h.1, (ih h.2).mono fun next' F' hown => ⟨hown.1, hown.2.1, ?_⟩⟩
    simp only [call.sizeOf_spec]
    omega
  | commit height next ih =>
    -- The frames that a commit leaves are below those it is made on.
    have hdrop := List.drop_suffix (F.length - height) F
    refine ⟨h.1, ⟨h.2.1, hdrop, ?_⟩, (ih h.2.2).mono fun next' F' hown =>
      ⟨hown.1, hown.2.1.trans hdrop, ?_⟩⟩
    · simp only [commit.sizeOf_spec]
      omega
    · simp only [commit.sizeOf_spec]
      omega
  | collect template next ih =>
    refine ⟨h.1, (ih h.2).mono fun next' F' hown => ⟨hown.1, hown.2.1, ?_⟩⟩
    simp only [collect.sizeOf_spec]
    omega
  | refuse => exact h

theorem Activation.Fits.parts {a : Activation S} (h : a.Fits own loud F) :
    a.Fits (fun next F' => own next F' ∧ F' <:+ F) loud F := by
  have hparts : ∀ {next : Continuation S}, next.Fits own loud F →
      next.Fits (fun next F' => own next F' ∧ F' <:+ F) loud F :=
    fun hnext => hnext.parts.mono fun _ _ hown => ⟨hown.1, hown.2.1⟩
  cases a with
  | sentinel => exact h
  | step => exact h
  | candidates draw drawn validate next => exact ⟨h.1, h.2.1, hparts h.2.2⟩
  | branches rest next => exact ⟨h.1, hparts h.2⟩
  | search handler choices next => exact ⟨h.1, h.2.1, hparts h.2.2⟩

/-- The commits on a stack go back to lower stacks. -/
theorem Stack.Fits.parts {upper : List (Frame S)} (h : Stack.Fits own loud base upper) :
    Stack.Fits (fun next F' => own next F' ∧ F' <:+ upper ++ base ∧
      F'.length < (upper ++ base).length) loud base upper := by
  induction upper with
  | nil => trivial
  | cons f fs ih =>
    have htail : fs ++ base <:+ f :: fs ++ base := List.suffix_cons _ _
    refine ⟨h.1.parts.mono fun next F' hown => ⟨hown.1, hown.2.trans htail, ?_⟩,
      (ih h.2).mono fun next F' hown => ⟨hown.1, hown.2.1.trans htail, ?_⟩⟩
    · have := hown.2.length_le
      simp only [List.cons_append, List.length_cons]
      omega
    · have := hown.2.2
      simp only [List.cons_append, List.length_cons]
      omega

theorem Task.Fits.parts {t : Task S} (h : t.Fits own loud F) :
    t.Fits (fun next F' => own next F' ∧ F' <:+ F) loud F := by
  have hparts : ∀ {next : Continuation S}, next.Fits own loud F →
      next.Fits (fun next F' => own next F' ∧ F' <:+ F) loud F :=
    fun hnext => hnext.parts.mono fun _ _ hown => ⟨hown.1, hown.2.1⟩
  cases t with
  | call g next => exact ⟨h.1, hparts h.2⟩
  | proceed next => exact hparts h
  | retry => trivial
  | backtrack => trivial

theorem Task.fits_sequence {rest : List (Goal S)} {next : Continuation S}
    (hrest : ∀ g ∈ rest, g.Steady) (h : next.Fits own loud F) :
    (Task.sequence rest next).Fits own loud F := by
  match rest with
  | [] => exact h
  | [g] => exact ⟨hrest g (by simp), h⟩
  | g :: g' :: rest =>
    exact ⟨hrest g (by simp), fun x hx => hrest x (List.mem_cons_of_mem _ hx), h⟩

theorem Task.fits_ofVerdict {b : Bool} {next : Continuation S} (h : next.Fits own loud F) :
    (Task.ofVerdict b next).Fits own loud F := by
  cases b with
  | true => exact h
  | false => trivial

end Fits

end GoalSearch
