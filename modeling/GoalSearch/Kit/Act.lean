/-
Small programs from which predicates are made.

Main definitions:

* `Act.isVar`, `Act.identical`, `Act.less`, `Act.distinct`, `Act.linear` —
  tests and deductions on terms;
* `Act.increment` — gives a cell another number;
* `Act.negate`, `Act.untilStable` — acts made of acts;
* `Act.say`, `Act.sayState` — rows for the log;
* `Act.execute`, `Act.findFirst`, `Act.findAll` — runs of goals.

Design notes: the acts work over every vocabulary.  Numbers are read with
`Store.number?`, so cells count as what they hold.
-/
import GoalSearch.Goal

namespace GoalSearch

/-- Programs that end with a verdict. -/
abbrev Act (S : Vocabulary) : Type := Program S (Goal S) .verdict

/-- Whether an integer has a place in 64 bits with a sign. -/
def representable (n : Int) : Bool := -9223372036854775808 ≤ n ∧ n ≤ 9223372036854775807

namespace Act

variable {S : Vocabulary}

/-- Whether a term is an unbound variable. -/
def isVar (t : S.Term) : Act S :=
  Program.withStore fun s => .verdict (s.isVar t)

/-- Whether two terms are identical. -/
def identical (a b : S.Term) : Act S :=
  .ask (.identical a b) fun (r : Bool) => .verdict r

/-- Whether both terms are numbers and the first is less than the second. -/
def less (a b : S.Term) : Act S :=
  Program.withStore fun s =>
    match s.number? a, s.number? b with
    | some m, some n => .verdict (m < n)
    | _, _ => .verdict false

/-- Whether those of the terms that are numbers are all different. -/
def distinct (terms : List S.Term) : Act S :=
  Program.withStore fun s => .verdict (decide (terms.filterMap s.number?).Nodup)

/-- The sum of the numbers among terms, each with its factor. -/
def weightedSum (s : Store S) (terms : List (Int × S.Term)) : Int :=
  total (terms.filterMap fun (k, t) => (s.number? t).map fun n => k * n)

/-- Whether terms with factors add up to a total.  If all but one of them are
numbers, the last one has to be the number that is missing; as long as more are
not, nothing is said. -/
def linear (terms : List (Int × S.Term)) (sum : Int) : Act S :=
  Program.withStore fun s =>
    let rest := sum - weightedSum s terms
    match terms.filter fun (_, t) => (s.number? t).isNone with
    | [] => .verdict (rest = 0)
    | [(k, t)] =>
      if s.isVar t ∧ k ≠ 0 ∧ k ∣ rest ∧ representable (rest / k) then
        Program.unifies t (.int (rest / k))
      else .verdict false
    | _ => .verdict true

/-- Unifies a term that is a number with this number plus `k`. -/
def increment (t : S.Term) (k : Int) : Act S :=
  Program.withStore fun s =>
    match s.number? t with
    | some n =>
      if representable (n + k) then Program.unifies t (.int (n + k)) else .verdict false
    | none => .verdict false

/-- Turns a verdict round; bindings stay. -/
def negate (p : Act S) : Act S :=
  p.bind fun (b : Bool) => .verdict !b

/-- Repeats an act until a round leaves the trail as long as it was, or
fails. -/
def untilStable (p : Act S) : Act S :=
  .loop
    (.view fun before =>
      p.bind fun (b : Bool) =>
        if b then
          .view fun after => .attempt (if after.trail = before.trail then some true else none)
        else .attempt (some false))
    .verdict

/-- Writes a list of terms as a row. -/
def say (terms : List S.Term) : Act S :=
  Program.quietly (do Quiet.say (← Quiet.display (.list terms))) fun _ => .verdict true

/-- Writes the height of the stack and the length of the trail as a row. -/
def sayState : Act S :=
  .view fun v =>
    let d := v.depth
    let n := v.trail
    Program.quietly (Quiet.say s!"depth {d} trail {n}") fun _ => .verdict true

/-- Whether a goal has a solution. -/
def execute (goal : Goal S) : Act S := Program.execute goal .verdict

/-- Unifies a target with the template at the first solution of a goal. -/
def findFirst (goal : Goal S) (template target : S.Term) : Act S :=
  Program.findFirst goal template fun
    | some answer => Program.unifies target answer
    | none => .verdict false

/-- Unifies a target with the list of the template at all solutions of a
goal. -/
def findAll (goal : Goal S) (template target : S.Term) : Act S :=
  Program.findAll goal template fun answers => Program.unifies target (.list answers)

/-- Clears the counters of the engine. -/
def resetStatistics : Act S := Program.resetStatistics (.verdict true)

/-- Puts a new engine in place of the running one. -/
def renew : Act S := Program.renew (.verdict true)

end Act

end GoalSearch
