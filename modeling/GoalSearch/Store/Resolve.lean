/-
Resolved copies of terms.

A resolved copy holds what a term stands for now, and keeps holding it when
bindings are undone or cells are overwritten: every bound variable is replaced
by its value and every cell by a copy of its content.  Unbound variables stay.

Main definitions:

* `Theory.resolve?` — the resolved copy, within a bound on the nesting.

Design notes: a copied structure is a new object, so copying hands out object
numbers.  A structure that is not copied stays the object it is.
-/
import GoalSearch.Theory

namespace GoalSearch

variable {S : Vocabulary}

/-- Hands out the next object number. -/
def freshObject : StateT Nat Option Nat := fun n => some (n, n + 1)

/-- The resolved copy of a term, and the next object number, if fuel allows. -/
def Theory.resolve? (T : Theory S) (s : Store S) : Nat → S.Term → StateT Nat Option S.Term
  | 0, _ => failure
  | n + 1, t =>
    match s.deref t with
    | .var v =>
      match s.isCell v, s.binding v with
      | true, some content => resolve? T s n content
      | _, _ => pure (.var v)
    | .list items => do
      let items ← items.mapM (resolve? T s n)
      pure (.list items)
    | .struct object label args =>
      if T.copies label then do
        let args ← args.mapM (resolve? T s n)
        let object ← freshObject
        pure (.struct object label args)
      else
        pure (.struct object label args)
    | t => pure t

end GoalSearch
