/-
Code that an engine runs on behalf of an application.

A program may do everything that the engine offers: ask, unify, run goals to
their first or to all solutions, look at the depth of the stack, the length of
the trail and the counters, and start the engine afresh.  It ends with a value
of the kind that is expected of it.

Main definitions:

* `Config`, `View` — the settings of an engine, and what code sees of it;
* `Program`, `Program.Value` — programs and their values, by kind;
* `Program.bind`, `Program.quietly`, `Program.all` — programs in sequence.

Design notes: goals are a parameter of programs, as goals contain programs in
turn.  Programs are indexed by a small type of kinds, and not by the type of
their values, since a program with candidates yields further programs.
Candidates and choices are given by their position, so there may be endlessly
many, and which of them were drawn is up to the engine.  Unbounded repetition
is an operation of its own: `loop` repeats a round until it gives a verdict.
-/
import GoalSearch.Tally
import GoalSearch.Theory

namespace GoalSearch

/-- The settings of an engine. -/
structure Config where
  /-- Whether counters are kept. -/
  statistics : Bool
  /-- Whether frames are recorded in the log. -/
  tracing : Bool
deriving DecidableEq, Repr

/-- The settings unless others are asked for. -/
def Config.standard : Config := ⟨true, false⟩

/-- What code sees of the engine that runs it. -/
structure View where
  /-- The number of frames on the stack. -/
  depth : Nat
  /-- The length of the trail. -/
  trail : Nat
  /-- The counters. -/
  statistics : Statistics
  /-- The settings. -/
  config : Config

/-- The kinds of values with which programs end. -/
inductive Kind
  /-- A verdict. -/
  | verdict
  /-- A verdict, or none. -/
  | attempt
  /-- The candidates of a predicate. -/
  | candidates
  /-- The choices at one level of a search, or none if nothing is left to
  decide. -/
  | choices

/-- Programs over goals in `G`, by the kind of their values. -/
inductive Program (S : Vocabulary) (G : Type) : Kind → Type
  /-- Ends with a verdict. -/
  | verdict (b : Bool) : Program S G .verdict
  /-- Ends with a verdict or without one. -/
  | attempt (r : Option Bool) : Program S G .attempt
  /-- Ends with candidates; a candidate is drawn by its position, and is a
  program that tries it. -/
  | candidates (draw : Nat → Quiet S (Option (Program S G .verdict))) : Program S G .candidates
  /-- Ends with choices; a choice is made by its position, and one without
  verdict says that the choices are exhausted. -/
  | choices (make : Option (Nat → Program S G .attempt)) : Program S G .choices
  /-- Asks, and goes on with the answer. -/
  | ask {κ : Kind} (q : Ask S) (next : q.Answer → Program S G κ) : Program S G κ
  /-- Unifies two terms, and goes on with the outcome. -/
  | unify {κ : Kind} (a b : S.Term) (next : Bool → Program S G κ) : Program S G κ
  /-- Runs a goal, and goes on with whether it has a solution. -/
  | execute {κ : Kind} (goal : G) (next : Bool → Program S G κ) : Program S G κ
  /-- Runs a goal, and goes on with the template at its first solution. -/
  | findFirst {κ : Kind} (goal : G) (template : S.Term) (next : Option S.Term → Program S G κ) :
      Program S G κ
  /-- Runs a goal, and goes on with the template at all its solutions. -/
  | findAll {κ : Kind} (goal : G) (template : S.Term) (next : List S.Term → Program S G κ) :
      Program S G κ
  /-- Looks at the engine. -/
  | view {κ : Kind} (next : View → Program S G κ) : Program S G κ
  /-- Clears the counters. -/
  | resetStatistics {κ : Kind} (next : Program S G κ) : Program S G κ
  /-- Puts a new engine with the same settings in place of the running one. -/
  | renew {κ : Kind} (next : Program S G κ) : Program S G κ
  /-- Repeats a round until it gives a verdict, and goes on with it. -/
  | loop {κ : Kind} (round : Program S G .attempt) (next : Bool → Program S G κ) : Program S G κ

namespace Program

variable {S : Vocabulary} {G : Type} {α : Type}

/-- The values of a kind. -/
def Value (S : Vocabulary) (G : Type) : Kind → Type
  | .verdict => Bool
  | .attempt => Option Bool
  | .candidates => Nat → Quiet S (Option (Program S G .verdict))
  | .choices => Option (Nat → Program S G .attempt)

/-- Goes on with the value of a program. -/
def bind {κ μ : Kind} : Program S G κ → (Value S G κ → Program S G μ) → Program S G μ
  | verdict b, f => f b
  | attempt r, f => f r
  | candidates draw, f => f draw
  | choices make, f => f make
  | ask q next, f => ask q fun x => (next x).bind f
  | unify a b next, f => unify a b fun r => (next r).bind f
  | execute g next, f => execute g fun r => (next r).bind f
  | findFirst g t next, f => findFirst g t fun r => (next r).bind f
  | findAll g t next, f => findAll g t fun r => (next r).bind f
  | view next, f => view fun v => (next v).bind f
  | resetStatistics next, f => resetStatistics (next.bind f)
  | renew next, f => renew (next.bind f)
  | loop round next, f => loop round fun r => (next r).bind f

/-- Goes on with the value of code that only asks. -/
def quietly {κ : Kind} : Quiet S α → (α → Program S G κ) → Program S G κ
  | .done a, f => f a
  | .ask q next, f => ask q fun x => quietly (next x) f

/-- Asks for the slots, and goes on with them. -/
def withStore {κ : Kind} (f : Store S → Program S G κ) : Program S G κ := quietly Quiet.store f

/-- Runs a program, and another one if the first succeeds. -/
def andThen (p q : Program S G .verdict) : Program S G .verdict :=
  p.bind fun (b : Bool) => if b then q else verdict false

/-- Runs programs in order up to the first that fails. -/
def all (ps : List (Program S G .verdict)) : Program S G .verdict :=
  ps.foldr andThen (verdict true)

/-- Unifies two terms, with the outcome as the verdict. -/
def unifies (a b : S.Term) : Program S G .verdict := unify a b verdict

/-- The candidates that unify a target with the values drawn. -/
def bindings (target : S.Term) (draw : Nat → Quiet S (Option S.Term)) :
    Program S G .candidates :=
  candidates fun i => do
    match ← draw i with
    | some value => pure (some (unifies target value))
    | none => pure none

end Program

end GoalSearch
