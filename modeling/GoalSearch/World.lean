/-
What is shared by everything that runs: slots, private state and log.

Several trails and several engines may work on the same variables.  What they
share is a world; what each of them owns is its trail and its stack.

Main definitions:

* `World`, `World.start` — the shared part, and how it begins;
* `World.newVar`, `World.newStructure` — new variables and structures;
* `Ask.answer`, `Quiet.exec` — answers to questions, and code that only asks.
-/
import GoalSearch.Record
import GoalSearch.Store.Display
import GoalSearch.Store.Identity
import GoalSearch.Store.Resolve

namespace GoalSearch

/-- What everything that runs shares. -/
structure World (S : Vocabulary) where
  /-- The slots of the variables. -/
  store : Store S
  /-- The number that the next structure gets. -/
  nextObject : Nat
  /-- The private state of the application. -/
  state : S.State
  /-- The log, newest record first. -/
  log : List Record

namespace World

variable {S : Vocabulary}

/-- A world without variables and structures, and with an empty log. -/
def start (state : S.State) : World S := ⟨.empty, 0, state, []⟩

/-- Adds a record to the log. -/
def note (r : Record) : Action (World S) Unit :=
  modify fun w => { w with log := r :: w.log }

/-- Makes a variable. -/
def newVar (role : Role S.Guard) (value : Option S.Term) : Action (World S) Var :=
  modifyGet fun w =>
    let (v, store) := w.store.new role value
    (v, { w with store })

/-- Makes a structure. -/
def newStructure (label : S.Label) (args : List S.Term) : Action (World S) S.Term :=
  modifyGet fun w =>
    (.struct w.nextObject label args, { w with nextObject := w.nextObject + 1 })

/-- The resolved copy of a term. -/
def resolve (T : Theory S) (fuel : Nat) (t : S.Term) : Action (World S) S.Term := do
  let w ← get
  let (copy, nextObject) ← Action.ofOption ((T.resolve? w.store fuel t).run w.nextObject)
  set { w with nextObject }
  pure copy

end World

variable {S : Vocabulary} {α : Type}

/-- Answers a question. -/
def Ask.answer (T : Theory S) (fuel : Nat) : (q : Ask S) → Action (World S) q.Answer
  | .store => return (← get).store
  | .state => return (← get).state
  | .put s => modify fun w => { w with state := s }
  | .say row => World.note (.said row)
  | .display t => do Action.ofOption (T.display? (← get).store fuel t)
  | .identical a b => do Action.ofOption ((← get).store.identical? fuel a b)

/-- Runs code that only asks. -/
def Quiet.exec (T : Theory S) (fuel : Nat) : Quiet S α → Action (World S) α
  | .done a => pure a
  | .ask q next => do (next (← q.answer T fuel)).exec T fuel

end GoalSearch
