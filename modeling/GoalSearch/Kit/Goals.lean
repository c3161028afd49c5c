/-
Predicates, loops and searches given as data.

Main definitions:

* `Kit.Values` — values listed, or counted from a start in steps;
* `Kit.Step` — predicates of every tier of determinism;
* `Kit.Loop` — loops with a test and a body;
* `Kit.Labelling` — searches that give variables their values in order.

Design notes: each of these turns into a goal by `goal`.  What they write into
the log is part of their description, so the log shows how often and in which
order an engine uses the pieces of a predicate.
-/
import GoalSearch.Kit.Act
import GoalSearch.Kit.Vocabulary

namespace GoalSearch.Kit

/-- Goals over the vocabulary of this kit. -/
abbrev Goal : Type := GoalSearch.Goal vocabulary

/-- Acts over the vocabulary of this kit. -/
abbrev Act : Type := GoalSearch.Act vocabulary

/-- Values that are drawn one by one. -/
inductive Values
  /-- The values of a list. -/
  | listed (terms : List Term)
  /-- The integers from a start on, in steps, without end. -/
  | counted (start step : Int)

/-- The value at a position. -/
def Values.at : Values → Nat → Option Term
  | listed terms, i => terms[i]?
  | counted start step, i => some (.int (start + i * step))

/-- A goal that unifies a target with one of the values. -/
def member (target : Term) (values : Values) : Goal :=
  GoalSearch.Goal.member target fun i => pure (values.at i)

/-- Writes a row if rows are asked for. -/
def note (logged : Bool) (row : String) : Quiet vocabulary Unit :=
  if logged then Quiet.say row else pure ()

/-- Writes a row that ends with a term if rows are asked for. -/
def noteTerm (logged : Bool) (start : String) (t : Term) : Quiet vocabulary Unit :=
  if logged then do Quiet.say (start ++ (← Quiet.display t)) else pure ()

/-- What a nondeterministic step tries. -/
inductive Options
  /-- Nothing. -/
  | nothing
  /-- To unify a target with one of the values. -/
  | bindings (target : Term) (values : Values)
  /-- One of several acts. -/
  | acts (choices : List Act)

/-- The candidate at a position, logged when it is drawn. -/
def Options.draw (logged : Bool) : Options → Nat → Quiet vocabulary (Option Act)
  | nothing, _ => pure none
  | bindings target values, i => do
    match values.at i with
    | some value => do
      noteTerm logged "pull " value
      pure (some (Program.unifies target value))
    | none => pure none
  | acts choices, i => do
    match choices[i]? with
    | some act => do
      note logged s!"pull #{i}"
      pure (some act)
    | none => pure none

/-- The tiers of determinism. -/
inductive Tier
  | nondeterministic
  | semideterministic
  | deterministic
deriving DecidableEq, Repr

/-- A predicate made of acts. -/
structure Step where
  /-- How many solutions it may have. -/
  tier : Tier
  /-- Runs when the predicate is called. -/
  prepare : Act
  /-- What is tried. -/
  options : Options
  /-- Whether candidates are logged when they are drawn. -/
  logged : Bool
  /-- Runs after a candidate was applied. -/
  validate : Act

/-- The goal that calls a predicate. -/
def Step.goal (s : Step) : Goal :=
  .call <| match s.tier with
    | .nondeterministic =>
      .nondeterministic (s.prepare.bind fun _ => .candidates (s.options.draw s.logged)) s.validate
    | .semideterministic => .semideterministic s.prepare s.validate
    | .deterministic => .deterministic s.prepare

/-- Tests before every round of a loop. -/
inductive Condition
  /-- Some of the terms is an unbound variable. -/
  | anyVar (terms : List Term)
  /-- A term is a number less than a bound. -/
  | less (t : Term) (bound : Int)
  /-- The loop was tested fewer times than a bound so far. -/
  | times (counter : Nat) (bound : Int)
  /-- The stack is lower than a bound. -/
  | depthBelow (bound : Int)
  /-- The trail is shorter than a bound. -/
  | trailBelow (bound : Int)

/-- Tests a condition. -/
def Condition.holds (v : View) : Condition → Quiet vocabulary Bool
  | anyVar terms => return terms.any (← Quiet.store).isVar
  | less t bound => do
    match (← Quiet.store).number? t with
    | some n => pure (n < bound)
    | none => pure false
  | times counter bound => return ((← tick counter) : Int) < bound
  | depthBelow bound => pure ((v.depth : Int) < bound)
  | trailBelow bound => pure ((v.trail : Int) < bound)

/-- The entry of the first term that is an unbound variable. -/
def firstOpen (s : Store vocabulary) (entries : List (Term × List Term)) :
    Option (Term × List Term) :=
  entries.find? fun entry => s.isVar entry.1

/-- What the rounds of a loop run. -/
inductive Body
  /-- Gives the first unbound variable one of its values. -/
  | fill (entries : List (Term × List Term))
  /-- One of several goals, in turn. -/
  | cycle (goals : List Goal)

/-- The body of round `n`. -/
def Body.make (n : Nat) : Body → Quiet vocabulary Goal
  | fill entries => do
    match firstOpen (← Quiet.store) entries with
    | some (t, values) => pure (.memberOf t values)
    | none => pure .succeed
  | cycle goals => pure (goals[n % goals.length]?.getD .succeed)

/-- A loop. -/
structure Loop where
  /-- Holds as long as there is another round. -/
  condition : Condition
  /-- What is run in each round. -/
  body : Body
  /-- Counts the bodies made. -/
  counter : Nat
  /-- Whether tests and bodies are logged. -/
  logged : Bool

/-- The goal that runs a loop. -/
def Loop.goal (l : Loop) : Goal :=
  .loop
    (fun v => do
      let b ← l.condition.holds v
      note l.logged ("continue " ++ Text.ofBool b)
      pure b)
    (fun _ => do
      let n ← tick l.counter
      note l.logged s!"body {n}"
      l.body.make n)

/-- A search that gives variables their values, the first unbound variable
first. -/
structure Labelling where
  /-- The variables and their values. -/
  entries : List (Term × List Term)
  /-- Runs before something is chosen to be decided. -/
  prepare : Act
  /-- Runs after each choice, and has to succeed. -/
  check : Act
  /-- Whether handlers and choices are logged. -/
  logged : Bool

/-- The choice of the value at a position. -/
def Labelling.choose (l : Labelling) (target : Term) (values : List Term) (i : Nat) :
    Program vocabulary Goal .attempt :=
  match values[i]? with
  | some value =>
    Program.quietly (noteTerm l.logged "choose " value) fun _ =>
      ((Program.unifies target value).andThen l.check).bind fun (b : Bool) => .attempt (some b)
  | none => Program.quietly (note l.logged "choose exhausted") fun _ => .attempt none

/-- One level of a search. -/
def Labelling.level (l : Labelling) : Program vocabulary Goal .choices :=
  l.prepare.bind fun _ =>
    Program.withStore fun s =>
      match firstOpen s l.entries with
      | some (t, values) =>
        Program.quietly (noteTerm l.logged "generate " t) fun _ =>
          .choices (some (l.choose t values))
      | none => Program.quietly (note l.logged "generate none") fun _ => .choices none

/-- The goal that runs a search. -/
def Labelling.goal (l : Labelling) : Goal :=
  .search do
    note l.logged "handler"
    pure l.level

end GoalSearch.Kit
