/-
Variables and terms.

A term is a variable, an integer, an atom, a list of terms or a structure.
Variables are names: what a variable is bound to is the business of a store
(`GoalSearch.Store`), and a term never changes.

Main definitions:

* `Var` — a variable, known by its identifier;
* `Term` — terms over a type of structure labels.

Design notes: a structure carries the number of the object it is, besides its
label and arguments.  Two structures are the same term only if they are the
same object, however alike they look, so equality of terms needs no equality
on labels.
-/

namespace GoalSearch

/-- A variable, known by its identifier; identifiers are handed out in the
order of creation, so they also compare variables by age. -/
structure Var where
  /-- The number of the variable, counted from one. -/
  id : Nat
deriving DecidableEq, Repr, Inhabited

instance : Ord Var := ⟨fun v w => compare v.id w.id⟩

/-- Terms whose structures are labelled by `L`. -/
inductive Term (L : Type) : Type
  /-- A variable or an updatable cell. -/
  | var (v : Var)
  /-- An integer. -/
  | int (n : Int)
  /-- A symbol that stands for itself. -/
  | atom (name : String)
  /-- A list of terms. -/
  | list (items : List (Term L))
  /-- A structure: the object it is, its label, and its arguments. -/
  | struct (object : Nat) (label : L) (args : List (Term L))

namespace Term

variable {L : Type}

instance : Inhabited (Term L) := ⟨.int 0⟩

/-- The variable that a term is, if it is one. -/
def var? : Term L → Option Var
  | .var v => some v
  | _ => none

@[simp] theorem var?_eq_some {t : Term L} {v : Var} : t.var? = some v ↔ t = .var v := by
  cases t <;> simp [var?]

/-- The term inside `n` one-element lists. -/
def nest : Nat → Term L → Term L
  | 0, t => t
  | n + 1, t => .list [nest n t]

/-- The integers `lo, lo + 1, ..., hi`, none when `hi < lo`. -/
def range (lo hi : Int) : List (Term L) :=
  (List.range (hi - lo + 1).toNat).map fun (i : Nat) => .int (lo + i)

end Term

end GoalSearch
