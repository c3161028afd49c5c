/-
Computations with a state that can stop.

An action reads and changes a state and ends in one of three ways: with a
value, with a fault, or out of fuel.  Faults are broken invariants and end
everything; a failed unification or an exhausted search is a value.

Main definitions:

* `Refusal` — why a variable does not take a value;
* `Fault`, `Stop` — how a computation ends without a value;
* `Action` — computations over a state;
* `Action.onPart` — a computation over a part of the state;
* `ampleFuel` — a bound for computations that are known to end.

Design notes: fuel is a resource bound and never an answer, so running out of
it is kept apart from every fault.  The state at a stop is kept, since what was
logged up to then can still be read.
-/
import GoalSearch.Text

namespace GoalSearch

/-- Reasons for which a variable does not take a value. -/
inductive Refusal
  /-- An ordinary variable is bound a second time without backtracking. -/
  | alreadyBound (v : Var)
  /-- The value dereferences back to the variable. -/
  | cycle (v : Var)
  /-- The guard of the variable does not admit the value. -/
  | rejected (v : Var)
deriving DecidableEq, Repr

namespace Refusal

/-- The text of a refusal. -/
def message : Refusal → String
  | alreadyBound v => "variable " ++ v.name ++ " is already bound"
  | cycle v => "binding " ++ v.name ++ " would create a cycle"
  | rejected v => "variable " ++ v.name ++ " rejected the value"

/-- Whether a refusal shows broken accounting of bindings, rather than an
ordinary failure to unify. -/
def isViolation : Refusal → Bool
  | rejected _ => false
  | _ => true

end Refusal

/-- Broken invariants. -/
inductive Fault
  /-- A binding that the accounting of the trail should have excluded. -/
  | violation (r : Refusal)
  /-- A run that did not leave the trail as long as it found it. -/
  | unbalancedTrail
deriving DecidableEq, Repr

/-- The text of a fault. -/
def Fault.message : Fault → String
  | violation r => "invariant violation: " ++ r.message
  | unbalancedTrail => "trail out of balance after run"

/-- How a computation ends without a value. -/
inductive Stop
  /-- An invariant is broken. -/
  | fault (f : Fault)
  /-- The bound on the computation is used up. -/
  | outOfFuel
deriving DecidableEq, Repr

/-- Computations over a state `σ` with values in `α`. -/
abbrev Action (σ α : Type) : Type := EStateM Stop σ α

/-- A bound on the length of computations that is out of reach of any that
ends in practice. -/
def ampleFuel : Nat := 1000000000000000000

namespace Action

variable {σ τ α β : Type}

/-- The value of an option; nothing means that fuel ran out. -/
def ofOption : Option α → Action σ α
  | some a => pure a
  | none => throw .outOfFuel

/-- Runs a computation on a part of the state. -/
def onPart (part : σ → τ) (update : τ → σ → σ) (x : Action τ α) : Action σ α := fun s =>
  match x (part s) with
  | .ok a t => .ok a (update t s)
  | .error e t => .error e (update t s)

/-- Whether a test holds of all pairs of elements at the same places; the
first failure ends it. -/
def allPairs (test : α → β → Action σ Bool) : List α → List β → Action σ Bool
  | a :: as, b :: bs => do
    if ← test a b then allPairs test as bs else pure false
  | _, _ => pure true

/-- Repeats a round until it gives a verdict, at most `n` times. -/
def rounds (round : Action σ (Option α)) : Nat → Action σ α
  | 0 => throw .outOfFuel
  | n + 1 => do
    match ← round with
    | some a => pure a
    | none => rounds round n

end Action

end GoalSearch
