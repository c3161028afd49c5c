/-
Identity of terms in a store.

Two terms are identical if they dereference to the same variable, to equal
integers or atoms, to lists with identical elements, or to the same structure.
Nothing is bound to find out.

Main definitions:

* `Store.identical?` — identity, within a bound on the nesting of lists.

Design notes: bindings can close a cycle through a list, and then two different
cycles are compared forever.  The fuel bounds the nesting, and nothing is
answered when it runs out.
-/
import GoalSearch.Store

namespace GoalSearch

/-- Whether a test holds of all pairs of elements at the same places; the first
pair without a positive answer decides. -/
def allPairs? {α β : Type} (test : α → β → Option Bool) : List α → List β → Option Bool
  | a :: as, b :: bs =>
    match test a b with
    | some true => allPairs? test as bs
    | answer => answer
  | _, _ => some true

namespace Store

variable {S : Vocabulary}

/-- Whether two terms are identical, if fuel allows to tell. -/
def identical? (s : Store S) : Nat → S.Term → S.Term → Option Bool
  | 0, _, _ => none
  | n + 1, a, b =>
    match s.deref a, s.deref b with
    | .var v, .var w => some (v = w)
    | .int m, .int n => some (m = n)
    | .atom a, .atom b => some (a = b)
    | .list as, .list bs =>
      if as.length = bs.length then allPairs? (identical? s n) as bs else some false
    | .struct i _ _, .struct j _ _ => some (i = j)
    | _, _ => some false

@[simp] theorem identical?_zero (s : Store S) (a b : S.Term) : s.identical? 0 a b = none := rfl

end Store

end GoalSearch
