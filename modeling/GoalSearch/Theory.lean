/-
Application code, and what an application says about its structures.

The engine is generic in the code that an application brings along.  Such code
is given here as trees: a node asks a question or performs an operation, and
its branches are the code that goes on with the answer.  Which operations a
piece of code may use is then a matter of its type.

Main definitions:

* `Ask`, `Ask.Answer` — questions that change no binding, and their answers;
* `Quiet` — code that only asks;
* `Hook` — code that asks and unifies, with a verdict;
* `Theory` — the behaviour of structures and guards.

Design notes: the private state of an application and its rows in the log are
reached through questions too, but the log cannot be read.  Showing a term and
comparing two terms are questions because they need not end on cyclic terms.
-/
import GoalSearch.Store

namespace GoalSearch

variable {S : Vocabulary} {α β : Type}

/-- Questions that change no binding. -/
inductive Ask (S : Vocabulary) : Type
  /-- What are the slots? -/
  | store
  /-- What is the private state? -/
  | state
  /-- Replace the private state. -/
  | put (s : S.State)
  /-- Write a row. -/
  | say (row : String)
  /-- How is a term shown? -/
  | display (t : S.Term)
  /-- Are two terms identical? -/
  | identical (a b : S.Term)

/-- The answers to a question. -/
def Ask.Answer : Ask S → Type
  | .store => Store S
  | .state => S.State
  | .put _ => Unit
  | .say _ => Unit
  | .display _ => String
  | .identical _ _ => Bool

/-- Code that only asks. -/
inductive Quiet (S : Vocabulary) (α : Type) : Type
  /-- Ends with a value. -/
  | done (a : α)
  /-- Asks, and goes on with the answer. -/
  | ask (q : Ask S) (next : q.Answer → Quiet S α)

namespace Quiet

/-- Goes on with the value of a piece of code. -/
def bind : Quiet S α → (α → Quiet S β) → Quiet S β
  | done a, f => f a
  | ask q next, f => ask q fun x => (next x).bind f

instance : Monad (Quiet S) where
  pure := done
  bind := bind

/-- The slots. -/
def store : Quiet S (Store S) := ask .store done

/-- The private state. -/
def state : Quiet S S.State := ask .state done

/-- Replaces the private state. -/
def put (s : S.State) : Quiet S Unit := ask (.put s) done

/-- Writes a row. -/
def say (row : String) : Quiet S Unit := ask (.say row) done

/-- The text of a term. -/
def display (t : S.Term) : Quiet S String := ask (.display t) done

/-- Whether two terms are identical. -/
def identical (a b : S.Term) : Quiet S Bool := ask (.identical a b) done

/-- Whether a test holds of some element; the first success ends it. -/
def any (test : α → Quiet S Bool) : List α → Quiet S Bool
  | [] => pure false
  | a :: as => do if ← test a then pure true else any test as

end Quiet

/-- Code that asks and unifies, and ends with a verdict. -/
inductive Hook (S : Vocabulary) : Type
  /-- Ends with a verdict. -/
  | done (b : Bool)
  /-- Asks, and goes on with the answer. -/
  | ask (q : Ask S) (next : q.Answer → Hook S)
  /-- Unifies two terms, and goes on with the outcome. -/
  | unify (a b : S.Term) (next : Bool → Hook S)

namespace Hook

/-- Goes on with the value of code that only asks. -/
def quietly : Quiet S α → (α → Hook S) → Hook S
  | .done a, f => f a
  | .ask q next, f => ask q fun x => quietly (next x) f

/-- Goes on with the verdict of a piece of code. -/
def bind : Hook S → (Bool → Hook S) → Hook S
  | done b, f => f b
  | ask q next, f => ask q fun x => (next x).bind f
  | unify a b next, f => unify a b fun r => (next r).bind f

/-- Unifies terms pairwise from the left; the first failure ends it, and so
do lists of different lengths, before anything is unified. -/
def unifyLists (as bs : List S.Term) : Hook S :=
  if as.length = bs.length then go as bs else done false
where
  /-- Unifies the terms at the same places. -/
  go : List S.Term → List S.Term → Hook S
    | a :: as, b :: bs => unify a b fun r => if r then go as bs else done false
    | _, _ => done true

end Hook

/-- What an application says about its structures and guards. -/
structure Theory (S : Vocabulary) where
  /-- Unifies a structure, given by label and arguments, with a dereferenced
  term. -/
  unifyWith : S.Label → List S.Term → S.Term → Hook S
  /-- Whether a resolved copy of a structure with this label is a new
  structure with resolved arguments, and not the structure itself. -/
  copies : S.Label → Bool
  /-- The text of a structure, given its label and the texts of its
  arguments. -/
  render : S.Label → List String → String
  /-- Whether a guard admits a value. -/
  admits : S.Guard → S.Term → Hook S

end GoalSearch
