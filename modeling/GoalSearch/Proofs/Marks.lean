/-
Going back to a mark.

A trail may be used in every way there is: terms are unified on it, with or
without success, slots are saved that do not change, and part of what was done
is undone.  As long as it never gets shorter than it once was, going back to
this length gives the slots of that moment.

* `Scope.Use` — what is done with a trail in one go;
* `Scope.Use.extends` — whatever is done leads back, unless it goes back further;
* `Scope.Since` — all that was done since a trail had the length of a mark;
* `Scope.backtrack_of_since` — going back to the mark restores all slots.

Design notes: a unification in which a variable refuses its value, or which
fails after some bindings, is a use like any other, and its bindings stay.  One
that stops is no use, as nothing is done after it.
-/
import GoalSearch.Proofs.Rollback

namespace GoalSearch

open GoalSearch.Action

variable {S : Vocabulary} {T : Theory S}

namespace Scope

variable {c d : Scope S}

variable (T) in
/-- What is done with a trail in one go. -/
inductive Use : Scope S → Scope S → Prop
  /-- Two terms are unified, which may fail. -/
  | unify {c d : Scope S} {n : Nat} {a b : S.Term} {r : Bool} :
    GoalSearch.unify T n a b c = .ok r d → Use c d
  /-- A slot is saved. -/
  | record {c d : Scope S} (v : Var) : Scope.record v c = .ok () d → Use c d
  /-- The slots saved since a mark are restored. -/
  | backtrack {c d : Scope S} {mark k : Nat} : Scope.backtrack mark c = .ok k d → Use c d
  /-- The private state and the log change, and structures are made. -/
  | other {c : Scope S} (w : World S) : w.store = c.world.store → Use c { c with world := w }

/-! ### One use -/

theorem backtrack_apply (mark : Nat) (c : Scope S) :
    backtrack mark c = .ok (c.trail.length - mark) (c.backtracked mark) := rfl

/-- A slot that was saved and has not changed is restored to what it is. -/
theorem extends_record (c : Scope S) (v : Var) :
    c.Extends { c with trail := c.trail.record c.world.store v } :=
  extends_record_set c v (c.world.store.binding v) (Setoid.symm (Store.set_binding _ _))

/-- Whatever is done with a trail leads back to where it began, unless it goes
back beyond that. -/
theorem Use.extends (hT : T.GuardsInert) (h : Use T c d) {base : Scope S} (hc : base.Extends c)
    (hd : base.trail.length ≤ d.trail.length) : base.Extends d := by
  cases h with
  | unify hunify => exact hc.trans ((unify_extends hT _ _ _ c trivial).ok hunify)
  | record v hrecord =>
    rw [record_apply] at hrecord
    cases hrecord
    exact hc.trans (extends_record c v)
  | @backtrack _ mark k hback =>
    rw [backtrack_apply] at hback
    cases hback
    rw [length_backtracked] at hd
    exact hc.backtrack (Nat.le_trans hd (Nat.min_le_right _ _))
  | other w hw => exact hc.trans (extends_of_store_eq c w hw)

/-! ### All that was done since -/

variable (T) in
/-- What leads from `c` to `d` without ever making the trail shorter than it was
at `c`. -/
def Since (c d : Scope S) : Prop :=
  Relation.ReflTransGen (fun x y => Use T x y ∧ c.trail.length ≤ y.trail.length) c d

theorem Since.extends (hT : T.GuardsInert) (h : Since T c d) : c.Extends d := by
  induction h with
  | refl => exact Extends.refl c
  | tail _ hstep ih => exact hstep.1.extends hT ih hstep.2

/-- Whatever was done since the trail had the length of a mark, going back to the
mark leaves the entries of that moment, gives every slot what it held then, and
counts the entries it has removed. -/
theorem backtrack_of_since (hT : T.GuardsInert) (h : Since T c d) :
    ∃ removed e, backtrack c.trail.length d = .ok (List.length removed) e ∧
      d.trail.entries = removed ++ e.trail.entries ∧ e.trail = c.trail ∧
      ∀ v, e.world.store.get v = c.world.store.get v := by
  have hextends := h.extends hT
  obtain ⟨removed, hentries⟩ := hextends.grows
  have hentries := hentries.symm
  have hcount : d.trail.length = removed.length + c.trail.length := by
    simp [Trail.length, hentries]
  have hback := hextends.backtrack (Nat.le_refl _)
  have hlength : (d.backtracked c.trail.length).trail.length = c.trail.length := by
    rw [length_backtracked, hcount]
    omega
  have hsame := hback.grows.entries_eq hlength
  refine ⟨removed, d.backtracked c.trail.length, ?_, ?_, ?_, hback.store_equiv hlength⟩
  · rw [backtrack_apply, hcount, Nat.add_sub_cancel]
  · rw [hsame, hentries]
  · cases hd : (d.backtracked c.trail.length).trail
    rw [hd] at hsame
    exact congrArg Trail.mk hsame

/-! ### A history that is computed -/

/-- The scope after a unification, if it does not stop. -/
def unified (T : Theory S) (n : Nat) (d : Scope S) (a b : S.Term) : Scope S :=
  match GoalSearch.unify T n a b d with
  | .ok _ e => e
  | .error _ _ => d

theorem Since.grown (h : Since T c d) : c.trail.length ≤ d.trail.length := by
  induction h with
  | refl => exact Nat.le_refl _
  | tail _ hstep _ => exact hstep.2

theorem Since.unified (h : Since T c d) (n : Nat) (a b : S.Term) :
    Since T c (d.unified T n a b) := by
  rw [Scope.unified]
  cases hd : GoalSearch.unify T n a b d with
  | ok r e =>
    have hgrows := (unify_grows T n a b d trivial).ok hd
    exact h.tail ⟨.unify hd, Nat.le_trans h.grown hgrows.length_le⟩
  | error s e => exact h

theorem Since.recorded (h : Since T c d) (v : Var) :
    Since T c { d with trail := d.trail.record d.world.store v } :=
  h.tail ⟨.record v (record_apply v d), Nat.le_succ_of_le h.grown⟩

theorem Since.backtracked (h : Since T c d) {mark : Nat} (hm : c.trail.length ≤ mark) :
    Since T c (d.backtracked mark) := by
  refine h.tail ⟨.backtrack (backtrack_apply mark d), ?_⟩
  rw [length_backtracked]
  exact Nat.le_min.mpr ⟨h.grown, hm⟩

end Scope

/-- An unrestricted variable, a cell that holds zero, and a variable that takes
the integers from one to three. -/
def Bounds.variables : Store Bounds.vocabulary :=
  ⟨#[.fresh, .fresh, ⟨.cell, some (.int 0)⟩, ⟨.ordinary (some (1, 3)), none⟩]⟩

/-- A scope with these variables, in which another one is bound. -/
def Bounds.scope : Scope Bounds.vocabulary :=
  Scope.unified Bounds.theory 3 ⟨.empty, ⟨Bounds.variables, 0, (), []⟩⟩ (.var ⟨4⟩) (.int 9)

/-- A slot is saved for nothing, the cell is given a value, and two lists are unified
in vain after their first elements were.  All but the saved slot is undone, and the
cell is given two values in turn. -/
theorem Scope.backtrack_of_since_sample : ∃ d : Scope Bounds.vocabulary,
    Since Bounds.theory Bounds.scope d ∧ d.trail.length = 4 ∧
      (d.world.store.number? (.var ⟨2⟩)) = some 6 ∧
      ∃ removed e, backtrack Bounds.scope.trail.length d = .ok (List.length removed) e ∧
        d.trail.entries = removed ++ e.trail.entries ∧ e.trail = Bounds.scope.trail ∧
        ∀ v, e.world.store.get v = Bounds.scope.world.store.get v := by
  let x : Bounds.vocabulary.Term := .var ⟨1⟩
  let cell : Bounds.vocabulary.Term := .var ⟨2⟩
  let small : Bounds.vocabulary.Term := .var ⟨3⟩
  have h₀ : Since Bounds.theory Bounds.scope Bounds.scope := .refl
  have h₁ := h₀.recorded ⟨3⟩
  have h₂ := (h₁.unified 3 cell (.int 5)).unified 3 (.list [x, small]) (.list [.int 7, .int 8])
  have h₃ := h₂.backtracked (show Bounds.scope.trail.length ≤ 2 by decide +kernel)
  have h₄ := (h₃.unified 3 cell (.int 5)).unified 3 cell (.int 6)
  exact ⟨_, h₄, by decide +kernel, by decide +kernel, backtrack_of_since Bounds.guardsInert h₄⟩

end GoalSearch
