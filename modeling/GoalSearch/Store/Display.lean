/-
The text of terms.

Terms are shown in two ways.  The display form shows what a term stands for:
bound variables as their values, cells by their content.  The structural form
names every constructor, keeps variables as they are, and opens only cells.

Main definitions:

* `Theory.display?` — the display form, within a bound on the nesting;
* `Theory.debug?`, `Theory.debugVar?` — the structural form of terms and of
  variables;
* `Theory.debugTrail?` — the structural form of a trail, oldest entry first.
-/
import GoalSearch.Text
import GoalSearch.Theory
import GoalSearch.Trail

namespace GoalSearch

/-- Texts between square brackets, separated by commas. -/
def Text.bracketed (items : List String) : String :=
  "[" ++ ", ".intercalate items ++ "]"

namespace Theory

variable {S : Vocabulary}

/-- The display form of a term, if fuel allows. -/
def display? (T : Theory S) (s : Store S) : Nat → S.Term → Option String
  | 0, _ => none
  | n + 1, t =>
    match t with
    | .int i => some (toString i)
    | .atom name => some name
    | .list items => (items.mapM (display? T s n)).map Text.bracketed
    | .struct _ label args => (args.mapM (display? T s n)).map (T.render label)
    | .var v =>
      if s.isCell v then
        match s.binding v with
        | some content => (display? T s n content).map fun text => "Cell(" ++ text ++ ")"
        | none => some "Cell()"
      else
        match s.deref t with
        | .var w => if s.isCell w then display? T s n (.var w) else some w.name
        | value => display? T s n value

/-- The structural form of a variable, given the form of a cell's content. -/
def debugVarWith (s : Store S) (inner : S.Term → Option String) (v : Var) : Option String :=
  if s.isCell v then
    match s.binding v with
    | some content =>
      (inner content).map fun text => "Cell(" ++ v.name ++ ", Some(" ++ text ++ "))"
    | none => some ("Cell(" ++ v.name ++ ", None)")
  else
    some ("Var(" ++ v.name ++ ")")

/-- The structural form of a term, if fuel allows. -/
def debug? (T : Theory S) (s : Store S) : Nat → S.Term → Option String
  | 0, _ => none
  | n + 1, t =>
    match t with
    | .var v => (debugVarWith s (debug? T s n) v).map fun text => "Var(" ++ text ++ ")"
    | .int i => some ("Int(" ++ toString i ++ ")")
    | .atom name => some ("Atom(" ++ Text.quote name ++ ")")
    | .list items =>
      (items.mapM (debug? T s n)).map fun texts => "List(" ++ Text.bracketed texts ++ ")"
    | .struct .. => (display? T s n t).map fun text => "Structure(" ++ text ++ ")"

/-- The structural form of a variable, if fuel allows. -/
def debugVar? (T : Theory S) (s : Store S) (n : Nat) (v : Var) : Option String :=
  debugVarWith s (T.debug? s n) v

/-- The structural form of a saved slot, if fuel allows. -/
def debugSaved? (T : Theory S) (s : Store S) (n : Nat) (e : Saved S) : Option String := do
  let var ← T.debugVar? s n e.var
  let previous ←
    match e.previous with
    | none => some "None"
    | some t => (T.debug? s n t).map fun text => "Some(" ++ text ++ ")"
  some ("TrailEntry \x7b variable: " ++ var ++ ", previous: " ++ previous ++ " \x7d")

/-- The structural form of a trail, oldest entry first, if fuel allows. -/
def debugTrail? (T : Theory S) (s : Store S) (n : Nat) (t : Trail S) : Option String := do
  let entries ← t.entries.reverse.mapM (T.debugSaved? s n)
  some ("Trail \x7b entries: " ++ Text.bracketed entries ++ " \x7d")

end Theory

end GoalSearch
