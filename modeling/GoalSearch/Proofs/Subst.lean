/-
Terms under substitutions, and the substitutions that a store allows.

A substitution gives every variable a finite term.  It solves a store if it
gives every bound variable what it gives the term the variable is bound to, so
the solutions of a store are its extensions by finite terms.  A store without
cyclic terms has a solution that gives unbound variables themselves: what a
variable stands for now.

* `Term.subst`, `Store.Solves` — substitutions, and solutions of a store;
* `Store.Acyclic` — stores without cyclic terms;
* `Store.Acyclic.set` — a binding whose value cannot reach its variable closes no
  cycle;
* `Store.Acyclic.value`, `Store.Acyclic.solves_value` — what every variable
  stands for, which solves the store.

Design notes: a cycle may lead through cells and through the arguments of
structures, so `Refers` looks into every slot and every subterm.  Sizes of
substituted terms bound how deep an algorithm can go.
-/
import GoalSearch.Proofs.Slots

namespace GoalSearch

/-! ### Substitution -/

namespace Term

variable {L : Type}

theorem ind {P : Term L → Prop} (var : ∀ v, P (.var v)) (int : ∀ n, P (.int n))
    (atom : ∀ name, P (.atom name))
    (list : ∀ items, (∀ t ∈ items, P t) → P (.list items))
    (struct : ∀ object label args, (∀ t ∈ args, P t) → P (.struct object label args)) :
    ∀ t, P t
  | .var v => var v
  | .int n => int n
  | .atom name => atom name
  | .list items => list items fun t _ => ind var int atom list struct t
  | .struct object label args => struct object label args fun t _ =>
      ind var int atom list struct t

mutual

/-- Replaces every variable of a term. -/
def subst (σ : Var → Term L) : Term L → Term L
  | .var v => σ v
  | .int n => .int n
  | .atom name => .atom name
  | .list items => .list (substs σ items)
  | .struct object label args => .struct object label (substs σ args)

/-- Replaces every variable of some terms. -/
def substs (σ : Var → Term L) : List (Term L) → List (Term L)
  | [] => []
  | t :: ts => t.subst σ :: substs σ ts

end

theorem substs_eq_map (σ : Var → Term L) (ts : List (Term L)) : substs σ ts = ts.map (subst σ) := by
  induction ts with
  | nil => rfl
  | cons t ts ih => rw [substs, ih, List.map_cons]

@[simp] theorem subst_var (σ : Var → Term L) (v : Var) : (var v).subst σ = σ v := rfl

@[simp] theorem subst_int (σ : Var → Term L) (n : Int) : (int n : Term L).subst σ = .int n := rfl

@[simp] theorem subst_atom (σ : Var → Term L) (name : String) :
    (atom name : Term L).subst σ = .atom name := rfl

@[simp] theorem subst_list (σ : Var → Term L) (items : List (Term L)) :
    (list items).subst σ = .list (items.map (subst σ)) := by
  rw [subst, substs_eq_map]

@[simp] theorem subst_struct (σ : Var → Term L) (object : Nat) (label : L)
    (args : List (Term L)) :
    (struct object label args).subst σ = .struct object label (args.map (subst σ)) := by
  rw [subst, substs_eq_map]

/-- A variable occurs in a term. -/
inductive Occurs (v : Var) : Term L → Prop
  | var : Occurs v (.var v)
  | list {items : List (Term L)} {t : Term L} : t ∈ items → Occurs v t → Occurs v (.list items)
  | struct {object : Nat} {label : L} {args : List (Term L)} {t : Term L} :
      t ∈ args → Occurs v t → Occurs v (.struct object label args)

/-- Only the variables that occur in a term matter. -/
theorem subst_congr {σ τ : Var → Term L} {t : Term L} (h : ∀ v, Occurs v t → σ v = τ v) :
    t.subst σ = t.subst τ := by
  induction t using ind with
  | var v => exact h v .var
  | int n => rfl
  | atom name => rfl
  | list items ih =>
    rw [subst_list, subst_list]
    rw [List.map_congr_left fun t ht => ih t ht fun v hv => h v (.list ht hv)]
  | struct object label args ih =>
    rw [subst_struct, subst_struct,
      List.map_congr_left fun t ht => ih t ht fun v hv => h v (.struct ht hv)]

theorem sizeOf_pos (t : Term L) : 0 < sizeOf t := by
  cases t <;>
    simp only [var.sizeOf_spec, int.sizeOf_spec, atom.sizeOf_spec, list.sizeOf_spec,
      struct.sizeOf_spec] <;>
    omega

theorem sizeOf_subst_lt {σ : Var → Term L} {items : List (Term L)} {t : Term L} (h : t ∈ items) :
    sizeOf (t.subst σ) < sizeOf ((list items).subst σ) := by
  have hlt := List.sizeOf_lt_of_mem (List.mem_map_of_mem (f := subst σ) h)
  rw [subst_list, list.sizeOf_spec]
  omega

theorem sizeOf_subst_le_of_occurs {σ : Var → Term L} {v : Var} {t : Term L} (h : Occurs v t) :
    sizeOf (σ v) ≤ sizeOf (t.subst σ) := by
  induction h with
  | var => exact Nat.le_refl _
  | list ht _ ih => exact Nat.le_trans ih (Nat.le_of_lt (sizeOf_subst_lt ht))
  | struct ht _ ih =>
    have hlt := List.sizeOf_lt_of_mem (List.mem_map_of_mem (f := subst σ) ht)
    rw [subst_struct, struct.sizeOf_spec]
    omega

/-- A variable that occurs in a term without being the term gets less than the
term. -/
theorem sizeOf_subst_lt_of_occurs {σ : Var → Term L} {v : Var} {t : Term L} (h : Occurs v t)
    (hne : t ≠ .var v) : sizeOf (σ v) < sizeOf (t.subst σ) := by
  cases h with
  | var => exact absurd rfl hne
  | list ht hv =>
    exact Nat.lt_of_le_of_lt (sizeOf_subst_le_of_occurs hv) (sizeOf_subst_lt ht)
  | struct ht hv =>
    have hlt := List.sizeOf_lt_of_mem (List.mem_map_of_mem (f := subst σ) ht)
    have hle := sizeOf_subst_le_of_occurs (σ := σ) hv
    rw [subst_struct, struct.sizeOf_spec]
    omega

end Term

variable {S : Vocabulary}

namespace Store

variable {s : Store S}

/-! ### Solutions of a store -/

/-- A substitution solves a store if it gives every bound variable what it gives
the term that the variable is bound to. -/
def Solves (s : Store S) (σ : Var → S.Term) : Prop :=
  ∀ v a, s.isCell v = false → s.binding v = some a → σ v = a.subst σ

theorem Solves.follow {σ : Var → S.Term} (h : s.Solves σ) (n : Nat) (t : S.Term) :
    (s.follow n t).subst σ = t.subst σ := by
  induction n generalizing t with
  | zero => rfl
  | succ n ih =>
    cases hstep : s.step? t with
    | none => rw [follow_of_step?_eq_none hstep]
    | some a =>
      obtain ⟨v, rfl, hcell, hbinding⟩ := step?_eq_some.mp hstep
      rw [follow_of_step?_eq_some hstep, ih, Term.subst_var, h v a hcell hbinding]

theorem Solves.deref {σ : Var → S.Term} (h : s.Solves σ) (t : S.Term) :
    (s.deref t).subst σ = t.subst σ :=
  h.follow _ t

/-- Filling an empty slot adds one equation. -/
theorem solves_set {v : Var} (hcell : s.isCell v = false) (hv : s.binding v = none) (a : S.Term)
    (σ : Var → S.Term) :
    (s.set v (some a)).Solves σ ↔ s.Solves σ ∧ σ v = a.subst σ := by
  constructor
  · intro h
    refine ⟨fun w b hw hb => h w b (by rw [isCell_set, hw]) ?_,
      h v a (by rw [isCell_set, hcell]) (by rw [binding_set, if_pos rfl])⟩
    have hne : v ≠ w := by
      rintro rfl
      rw [hv] at hb
      cases hb
    rw [binding_set, if_neg hne, hb]
  · rintro ⟨h, ha⟩ w b hw hb
    rw [isCell_set] at hw
    rw [binding_set] at hb
    by_cases hvw : v = w
    · subst hvw
      rw [if_pos rfl] at hb
      cases hb
      exact ha
    · rw [if_neg hvw] at hb
      exact h w b hw hb

/-! ### Stores without cyclic terms -/

/-- The slot of one variable mentions another one. -/
def Refers (s : Store S) (v w : Var) : Prop := ∃ a, s.binding v = some a ∧ Term.Occurs w a

/-- No term leads back to itself through the slots of its variables. -/
def Acyclic (s : Store S) : Prop := WellFounded fun w v => s.Refers v w

theorem Acyclic.chainsEnd (hs : s.Acyclic) : s.ChainsEnd := by
  have hvar : ∀ v, Acc (fun b a => s.step? a = some b) (.var v) := by
    intro v
    induction v using hs.induction with
    | _ v ih =>
      refine Acc.intro _ fun b hb => ?_
      obtain ⟨w, hw, -, hbinding⟩ := step?_eq_some.mp hb
      cases hw
      cases b with
      | var w => exact ih w ⟨_, hbinding, .var⟩
      | _ => exact Acc.intro _ fun a ha => by simp [step?] at ha
  refine ⟨fun t => ?_⟩
  cases t with
  | var v => exact hvar v
  | _ => exact Acc.intro _ fun a ha => by simp [step?] at ha

theorem get_empty (v : Var) : (empty : Store S).get v = .fresh := by
  obtain ⟨i⟩ := v
  cases i with
  | zero => rfl
  | succ i => rfl

theorem acyclic_empty : (empty : Store S).Acyclic := by
  refine ⟨fun v => Acc.intro v ?_⟩
  rintro w ⟨a, ha, -⟩
  rw [binding, get_empty] at ha
  cases ha

/-- A value that does not lead to a variable may be put into its slot. -/
theorem Acyclic.set (hs : s.Acyclic) {v : Var} {a : S.Term}
    (ha : ∀ w, Term.Occurs w a → ¬ Relation.ReflTransGen s.Refers w v) :
    (s.set v (some a)).Acyclic := by
  have hrefers : ∀ x y, (s.set v (some a)).Refers x y →
      s.Refers x y ∨ x = v ∧ Term.Occurs y a := by
    rintro x y ⟨b, hb, hy⟩
    rw [binding_set] at hb
    by_cases hvx : v = x
    · rw [if_pos hvx] at hb
      cases hb
      exact .inr ⟨hvx.symm, hy⟩
    · rw [if_neg hvx] at hb
      exact .inl ⟨b, hb, hy⟩
  refine wellFounded_of_new_pairs hs v (fun x y h => (hrefers x y h).imp id And.left) ?_
  intro y hy hreach
  have hback : Relation.ReflTransGen s.Refers y v := Relation.reflTransGen_swap.mp hreach
  rcases hrefers v y hy with hold | ⟨-, hocc⟩
  · -- the pair is an old one, so the way back closes an old cycle
    have hcycle : Relation.TransGen s.Refers v v := .head' hold hback
    exact hs.transGen.irrefl.irrefl v (Relation.transGen_swap.mp hcycle)
  · exact ha y hocc hback

open Classical in
/-- What every variable stands for: the term it is bound to, with every variable
replaced by what that stands for.  Unbound variables and cells stand for
themselves. -/
noncomputable def Acyclic.value (hs : s.Acyclic) : Var → S.Term :=
  hs.fix fun v value =>
    match s.step? (.var v) with
    | none => .var v
    | some a => a.subst fun w => if h : s.Refers v w then value w h else .var w

theorem Acyclic.value_of_step?_eq_none (hs : s.Acyclic) {v : Var} (h : s.step? (.var v) = none) :
    hs.value v = .var v := by
  refine (WellFounded.fix_eq hs _ v).trans ?_
  rw [h]

open Classical in
theorem Acyclic.solves_value (hs : s.Acyclic) : s.Solves hs.value := by
  intro v a hcell hbinding
  have hstep : s.step? (.var v) = some a := step?_eq_some.mpr ⟨v, rfl, hcell, hbinding⟩
  have heq : hs.value v =
      a.subst fun w => if _ : s.Refers v w then hs.value w else .var w := by
    refine (WellFounded.fix_eq hs _ v).trans ?_
    rw [hstep]
    rfl
  rw [heq]
  exact Term.subst_congr fun w hw => dif_pos ⟨a, hbinding, hw⟩

end Store

end GoalSearch
