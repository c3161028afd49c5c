/-
How far a list of solutions is known.

A greater bound never changes the list of solutions of a goal.  It only makes
the list go on where it broke off before.

* `Solutions.Begins` — lists that agree up to where the first one breaks off;
* `Goal.solutions_begins` — solutions within a smaller and a greater bound;
* `Solutions.first?`, `Solutions.all?` — what is known of a list.
-/
import GoalSearch.Proofs.Fuel
import GoalSearch.Proofs.Solutions

namespace GoalSearch

open GoalSearch.Action

variable {S : Vocabulary} {α : Type}

/-! ### Lists that go on -/

namespace Solutions

/-- The second list goes on where the first one breaks off. -/
inductive Begins : Solutions S → Solutions S → Prop
  | nil : Begins nil nil
  | stopped (Y : Solutions S) : Begins stopped Y
  | cons (s : Store S) {X Y : Solutions S} : Begins X Y → Begins (cons s X) (cons s Y)

/-- The same for lists that may be missing: what breaks off at once may turn out
to be missing. -/
inductive Begins? : Option (Solutions S) → Option (Solutions S) → Prop
  | none : Begins? none none
  | stopped (Y : Option (Solutions S)) : Begins? (some stopped) Y
  | some {X Y : Solutions S} : Begins X Y → Begins? (some X) (some Y)

variable {X X' Y Y' : Solutions S}

theorem Begins.refl (X : Solutions S) : X.Begins X := by
  induction X with
  | nil => exact .nil
  | stopped => exact .stopped _
  | cons s rest ih => exact .cons s ih

theorem Begins.append (h : X.Begins Y) (h' : X'.Begins Y') :
    (X.append X').Begins (Y.append Y') := by
  induction h with
  | nil => exact h'
  | stopped => exact .stopped _
  | cons s _ ih => exact .cons s ih

theorem Begins.bind {f f' : Store S → Solutions S} (h : X.Begins Y)
    (hf : ∀ s, (f s).Begins (f' s)) : (X.bind f).Begins (Y.bind f') := by
  induction h with
  | nil => exact .nil
  | stopped => exact .stopped _
  | cons s _ ih => exact (hf s).append ih

theorem Begins.first (h : X.Begins Y) : X.first.Begins Y.first := by
  cases h with
  | nil => exact .nil
  | stopped => exact .stopped _
  | cons s _ => exact .cons s .nil

theorem Begins.test (s : Store S) (h : X.Begins Y) : (X.test s).Begins (Y.test s) := by
  cases h with
  | nil => exact .nil
  | stopped => exact .stopped _
  | cons => exact .cons s .nil

theorem begins_concat {f f' : α → Solutions S} (h : ∀ a, (f a).Begins (f' a)) (as : List α) :
    (concat (as.map f)).Begins (concat (as.map f')) := by
  induction as with
  | nil => exact .nil
  | cons a as ih => exact (h a).append ih

theorem begins_alternatives {f f' : Nat → Option (Solutions S)} (h : ∀ i, Begins? (f i) (f' i))
    {n n' : Nat} (hn : n ≤ n') (i : Nat) :
    (alternatives f n i).Begins (alternatives f' n' i) := by
  induction n generalizing n' i with
  | zero => exact .stopped _
  | succ n ih =>
    obtain ⟨n', rfl⟩ : ∃ m, n' = m + 1 := ⟨n' - 1, by omega⟩
    have hrest : (alternatives f n (i + 1)).Begins (alternatives f' n' (i + 1)) :=
      ih (by omega) (i + 1)
    have hi := h i
    rw [alternatives, alternatives]
    generalize f i = o at hi
    generalize f' i = o' at hi
    -- The lists agree up to where the first alternative is known.
    cases hi with
    | none => exact .nil
    | stopped => exact .stopped _
    | some hX => exact hX.append hrest

theorem begins_after {o o' : Option (α × Store S)} {f f' : α → Store S → Solutions S}
    (ho : ∀ p, o = some p → o' = some p) (hf : ∀ a s, (f a s).Begins (f' a s)) :
    (after o f).Begins (after o' f') := by
  cases o with
  | none => exact .stopped _
  | some p =>
    rw [ho p rfl]
    exact hf p.1 p.2

/-- All stores, if they are known. -/
def all? : Solutions S → Option (List (Store S))
  | nil => some []
  | stopped => none
  | cons s rest => rest.all?.map (s :: ·)

end Solutions

open Solutions

/-! ### Greater bounds -/

section Bound

variable (T : Theory S) (w : World S) {n n' : Nat} (hn : n ≤ n')

include hn

theorem Program.outcome_mono {κ : Kind} (p : Program S (Goal S) κ) (s : Store S)
    (r : Program.Value S (Goal S) κ × Store S) (h : p.outcome T w n s = some r) :
    p.outcome T w n' s = some r := by
  unfold Program.outcome at h ⊢
  split at h
  · next a m hexec =>
    rw [(Program.exec_below hn (Machine.run_below hn) p).ok hexec]
    exact h
  · cases h

theorem Quiet.outcome_mono (x : Quiet S α) (s : Store S) (r : α × Store S)
    (h : x.outcome T w n s = some r) : x.outcome T w n' s = some r := by
  unfold Quiet.outcome at h ⊢
  obtain ⟨a, ha, hr⟩ := Option.map_eq_some_iff.mp h
  obtain ⟨w', hexec⟩ := result?_eq_some.mp ha
  rw [result?_eq_some.mpr ⟨w', (Quiet.exec_below hn x).ok hexec⟩]
  exact congrArg some hr

theorem Predicate.candidate_begins (draw : Nat → Quiet S (Option (Program S (Goal S) .verdict)))
    (validate : Program S (Goal S) .verdict) (s : Store S) (i : Nat) :
    Begins? (candidate T w n draw validate s i) (candidate T w n' draw validate s i) := by
  unfold candidate
  cases h : (draw i).outcome T w n s with
  | none => exact .stopped _
  | some r =>
    rw [(draw i).outcome_mono T w hn s r h]
    obtain ⟨_ | apply, s'⟩ := r
    · exact .none
    · refine .some (begins_after (apply.outcome_mono T w hn s) fun applies s' => ?_)
      split
      · exact begins_after (validate.outcome_mono T w hn s') fun _ _ => .refl _
      · exact .nil

theorem Predicate.solutions_begins (p : Predicate S (Goal S)) (s : Store S) :
    (p.solutions T w n s).Begins (p.solutions T w n' s) := by
  cases p with
  | nondeterministic prepare validate =>
    refine begins_after (prepare.outcome_mono T w hn s) fun draw _ => ?_
    exact begins_alternatives (candidate_begins T w hn draw validate s) hn 0
  | semideterministic prepare validate =>
    refine begins_after (prepare.outcome_mono T w hn s) fun _ s' => ?_
    exact begins_after (validate.outcome_mono T w hn s') fun _ _ => .refl _
  | deterministic prepare =>
    exact begins_after (prepare.outcome_mono T w hn s) fun _ _ => .refl _

namespace Goal

variable {solve solve' : Goal S → Store S → Solutions S}
  (hsolve : ∀ g s, (solve g s).Begins (solve' g s))

include hsolve

omit hn in
theorem chain_begins (gs : List (Goal S)) (s : Store S) :
    (chain solve gs s).Begins (chain solve' gs s) := by
  induction gs generalizing s with
  | nil => exact .refl _
  | cons g rest ih => exact (hsolve g s).bind ih

theorem choice_begins (handler : Quiet S (Program S (Goal S) .choices))
    (make : Nat → Program S (Goal S) .attempt) (s : Store S) (i : Nat) :
    Begins? (choice T w n solve handler make s i) (choice T w n' solve' handler make s i) := by
  unfold choice
  cases h : (make i).outcome T w n s with
  | none => exact .stopped _
  | some r =>
    rw [(make i).outcome_mono T w hn s r h]
    obtain ⟨_ | b, s'⟩ := r
    · exact .none
    · refine .some ?_
      cases b with
      | true => exact hsolve _ _
      | false => exact .nil

theorem solutionsStep_begins (g : Goal S) (s : Store S) :
    (solutionsStep T w n solve g s).Begins (solutionsStep T w n' solve' g s) := by
  cases g with
  | succeed => exact .refl _
  | fail => exact .refl _
  | call p => exact p.solutions_begins T w hn s
  | sequence gs => exact chain_begins hsolve gs s
  | disjunction gs => exact begins_concat (fun g => hsolve g s) gs
  | once g => exact (hsolve g s).first
  | notNot g => exact (hsolve g s).test s
  | loop test body =>
    refine begins_after (Quiet.outcome_mono T w hn _ s) fun more _ => ?_
    cases more with
    | true =>
      refine begins_after (Quiet.outcome_mono T w hn _ s) fun g _ => ?_
      exact (hsolve g s).bind (hsolve _)
    | false => exact .refl _
  | search handler =>
    refine begins_after (handler.outcome_mono T w hn s) fun level _ => ?_
    refine begins_after (level.outcome_mono T w hn s) fun made _ => ?_
    cases made with
    | none => exact .refl _
    | some make => exact begins_alternatives (choice_begins T w hn hsolve handler make s) hn 0

omit hsolve hn in
/-- The list of solutions goes on where it breaks off within a smaller bound. -/
theorem solutions_begins (hn : n ≤ n') (g : Goal S) (s : Store S) :
    (g.solutions T w n s).Begins (g.solutions T w n' s) := by
  induction n generalizing n' g s with
  | zero => exact .stopped _
  | succ n ih =>
    obtain ⟨n', rfl⟩ : ∃ m, n' = m + 1 := ⟨n' - 1, by omega⟩
    have hle : n ≤ n' := by omega
    exact solutionsStep_begins T w hle (ih hle) g s

end Goal

end Bound

end GoalSearch
