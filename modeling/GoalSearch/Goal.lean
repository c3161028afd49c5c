/-
Goals: immutable descriptions of searches.

A goal says what is to be solved, and nothing of what comes after it, so the
same goal may stand in several places.

Main definitions:

* `Predicate` — a step of a search, in one of three tiers of determinism;
* `Goal` — goals and the ways to combine them;
* `Goal.conjunct` — goals in sequence, collapsed when there are fewer than two;
* `Goal.shape` — the combinators a goal is made of.

Design notes: the tests of a loop read the engine but cannot use it, and the
handler of a search is made without it.  Both are therefore code that only
asks, a loop's given a view of the engine.
-/
import GoalSearch.Program

namespace GoalSearch

/-- A step of a search over goals in `G`. -/
inductive Predicate (S : Vocabulary) (G : Type) : Type
  /-- Tries its candidates one by one; a candidate that applies is validated. -/
  | nondeterministic (prepare : Program S G .candidates) (validate : Program S G .verdict)
  /-- Succeeds at most once, if it validates. -/
  | semideterministic (prepare validate : Program S G .verdict)
  /-- Succeeds exactly once. -/
  | deterministic (prepare : Program S G .verdict)

/-- What can be called. -/
inductive Goal (S : Vocabulary) : Type
  /-- Succeeds at once. -/
  | succeed
  /-- Never succeeds. -/
  | fail
  /-- A step. -/
  | call (p : Predicate S (Goal S))
  /-- All goals, from left to right. -/
  | sequence (goals : List (Goal S))
  /-- Any of the goals, tried from left to right. -/
  | disjunction (branches : List (Goal S))
  /-- The first solution only. -/
  | once (goal : Goal S)
  /-- Succeeds if the goal has a solution, and keeps none of its bindings. -/
  | notNot (goal : Goal S)
  /-- While a test holds, a body, made anew for every round. -/
  | loop (test : View → Quiet S Bool) (body : View → Quiet S (Goal S))
  /-- Decides one thing after the other.  Each level makes a handler, which
  finds what to decide and its choices, or that nothing is left to decide. -/
  | search (handler : Quiet S (Program S (Goal S) .choices))

/-- The combinators of which a goal is made. -/
inductive Shape
  | succeed
  | fail
  | call
  | sequence (parts : List Shape)
  | disjunction (parts : List Shape)
  | once (part : Shape)
  | notNot (part : Shape)
  | loop
  | search

namespace Goal

variable {S : Vocabulary}

/-- Goals that run one after the other. -/
def conjunct : List (Goal S) → Goal S
  | [] => succeed
  | [g] => g
  | gs => sequence gs

mutual

/-- The combinators of which a goal is made. -/
def shape : Goal S → Shape
  | succeed => .succeed
  | fail => .fail
  | call _ => .call
  | sequence gs => .sequence (shapes gs)
  | disjunction gs => .disjunction (shapes gs)
  | once g => .once g.shape
  | notNot g => .notNot g.shape
  | loop _ _ => .loop
  | search _ => .search

/-- The combinators of which goals are made. -/
def shapes : List (Goal S) → List Shape
  | [] => []
  | g :: gs => g.shape :: shapes gs

end

theorem shapes_eq_map (gs : List (Goal S)) : shapes gs = gs.map shape := by
  induction gs with
  | nil => rfl
  | cons g gs ih => simp [shapes, ih]

/-- The predicate without candidates. -/
def nothing : Goal S :=
  call (.nondeterministic (.candidates fun _ => pure none) (.verdict true))

/-- A step that unifies a target with one of the values drawn. -/
def member (target : S.Term) (draw : Nat → Quiet S (Option S.Term)) : Goal S :=
  call (.nondeterministic (.bindings target draw) (.verdict true))

/-- A step that unifies a target with one of the values in a list. -/
def memberOf (target : S.Term) (values : List S.Term) : Goal S :=
  member target fun i => pure values[i]?

/-- A step that succeeds at most once, if a program does. -/
def test (validate : Program S (Goal S) .verdict) : Goal S :=
  call (.semideterministic (.verdict true) validate)

/-- A step that runs a program and succeeds whatever its verdict. -/
def perform (prepare : Program S (Goal S) .verdict) : Goal S :=
  call (.deterministic prepare)

end Goal

end GoalSearch
