/-
A ready-made vocabulary: structures and guards given as data.

Main definitions:

* `Kit.Label` — four kinds of structures, and how each of them unifies;
* `Kit.Check`, `Kit.Guard` — tests of values, and guards made of them;
* `Kit.vocabulary`, `Kit.theory` — both together.

Design notes: whatever has to remember how often it was used owns a counter in
the private state.  Counters are never turned back by a search.
-/
import GoalSearch.Goal
import GoalSearch.Text

namespace GoalSearch.Kit

/-- Labels of structures. -/
inductive Label
  /-- A named compound; unifies with compounds of the same name and number of
  arguments. -/
  | compound (name : String)
  /-- A sequence that unifies with lists from their last element on. -/
  | reversed
  /-- The integers that leave a remainder on division by a modulus. -/
  | residue (modulus remainder : Int)
  /-- A term that stands for its only argument. -/
  | wrapped
deriving DecidableEq, Repr

/-- Terms with these structures. -/
abbrev Term : Type := GoalSearch.Term Label

/-- The forms of terms. -/
inductive Form
  | int
  | atom
  | list
  | struct
  | var
  | cell
deriving DecidableEq, Repr

/-- One answer of a scripted check, after a unification if there is one. -/
structure Reply where
  /-- The answer. -/
  verdict : Bool
  /-- The terms to unify first. -/
  unified : Option (Term × Term)

/-- Tests of a value. -/
inductive Check
  /-- An integer within bounds. -/
  | range (lo hi : Int)
  /-- A term identical to one of the given. -/
  | oneOf (terms : List Term)
  /-- A term of a form, as it is given and not as what it stands for. -/
  | form (f : Form)
  /-- A value that another check does not admit. -/
  | not (c : Check)
  /-- Answers in order, one per use; admits everything when they are used up. -/
  | script (counter : Nat) (replies : List Reply)

/-- A check, with the name under which its uses are logged, if they are. -/
structure Guard where
  /-- The name in the log. -/
  logged : Option String
  /-- What is admitted. -/
  check : Check

/-- The vocabulary of this kit; its private state counts uses. -/
abbrev vocabulary : Vocabulary := ⟨Label, Guard, Tally Nat⟩

/-- The number of earlier uses of a counter, which counts this one. -/
def tick (counter : Nat) : Quiet vocabulary Nat := do
  let counts ← Quiet.state
  Quiet.put (counts.add counter 1)
  pure (counts.count counter)

/-- Unifies a structure with a term. -/
def Label.unifyWith (label : Label) (args : List Term) (other : Term) : Hook vocabulary :=
  match label, other with
  | .compound name, .struct _ (.compound name') args' =>
    if name = name' then Hook.unifyLists args args' else .done false
  | .reversed, .list items => Hook.unifyLists args items.reverse
  | .reversed, .struct _ .reversed args' => Hook.unifyLists args args'
  | .residue m r, .int n => .done (n % m = r)
  | .wrapped, _ =>
    match args with
    | [t] => .unify t other .done
    | _ => .done false
  | _, _ => .done false

/-- Whether copies of a structure are resolved. -/
def Label.copies : Label → Bool
  | .compound _ | .reversed => true
  | .residue _ _ | .wrapped => false

/-- The text of a structure. -/
def Label.render (label : Label) (args : List String) : String :=
  match label with
  | .compound name => name ++ "(" ++ ",".intercalate args ++ ")"
  | .reversed => "rev(" ++ ",".intercalate args ++ ")"
  | .residue m r => s!"mod({m},{r})"
  | .wrapped => "opt(" ++ ",".intercalate args ++ ")"

/-- The form of a term. -/
def Form.of (s : Store vocabulary) : Term → Form
  | .int _ => int
  | .atom _ => atom
  | .list _ => list
  | .struct .. => struct
  | .var v => if s.isCell v then cell else var

/-- Tests a value. -/
def Check.consult (value : Term) : Check → Hook vocabulary
  | range lo hi =>
    match value with
    | .int n => .done (lo ≤ n ∧ n ≤ hi)
    | _ => .done false
  | oneOf terms => Hook.quietly (Quiet.any (Quiet.identical value) terms) .done
  | form f => Hook.quietly Quiet.store fun s => .done (Form.of s value = f)
  | not c => (c.consult value).bind fun b => .done !b
  | script counter replies =>
    Hook.quietly (tick counter) fun n =>
      match replies[n]? with
      | none => .done true
      | some ⟨b, none⟩ => .done b
      | some ⟨b, some (t, u)⟩ => .unify t u fun _ => .done b

/-- Tests a value and logs the use. -/
def Guard.consult (g : Guard) (value : Term) : Hook vocabulary :=
  match g.logged with
  | none => g.check.consult value
  | some name =>
    (g.check.consult value).bind fun b =>
      Hook.quietly
        (do
          let shown ← Quiet.display value
          Quiet.say ("guard " ++ name ++ " " ++ shown ++ " " ++ Text.ofBool b))
        fun _ => .done b

/-- The behaviour of the structures and guards of this kit. -/
def theory : Theory vocabulary where
  unifyWith := Label.unifyWith
  copies := Label.copies
  render := Label.render
  admits := Guard.consult

end GoalSearch.Kit
