/-
Unification over a store with a trail.

Two terms are dereferenced and then made equal: identical ends need nothing, a
variable or cell is bound to the other side, lists are unified element by
element, and a structure decides for itself.  Bindings are recorded on the
trail before they are made.  A failure leaves the bindings made so far; whoever
called goes back on the trail.  There is no occurs check.

Main definitions:

* `Scope` — a trail and the world it belongs to;
* `Scope.admits` — consults the guard of a variable;
* `Scope.assign`, `Scope.bind` — bind one variable;
* `unifyStep`, `unify` — one level of unification, and all of it.

Design notes: `unifyStep` takes the unification of smaller terms as an
argument, and `unify` closes the loop on fuel, so a property kept by one level
is kept by all of them.  A guard is code that may unify terms as well; it does
so on a trail of its own.  It is consulted twice for every binding, before the
slot is recorded and right before it is filled, and everything that the first
consultation established is checked again by `assign`.
-/
import GoalSearch.World

namespace GoalSearch

/-- A trail and the world whose slots it has saved. -/
structure Scope (S : Vocabulary) where
  /-- The saved slots. -/
  trail : Trail S
  /-- The slots, the private state and the log. -/
  world : World S

variable {S : Vocabulary} {α : Type}

/-- Unification of two terms, as a computation. -/
abbrev Unifier (S : Vocabulary) : Type := S.Term → S.Term → Action (Scope S) Bool

namespace Scope

/-- Runs a computation on the world. -/
def onWorld (x : Action (World S) α) : Action (Scope S) α :=
  Action.onPart world (fun w c => { c with world := w }) x

/-- The slots. -/
def store : Action (Scope S) (Store S) := return (← get).world.store

/-- Saves the slot of a variable. -/
def record (v : Var) : Action (Scope S) Unit :=
  modify fun c => { c with trail := c.trail.record c.world.store v }

/-- Restores slots until the trail is no longer than `mark`; the number of
restored slots. -/
def backtrack (mark : Nat) : Action (Scope S) Nat :=
  modifyGet fun c =>
    let (trail, store) := c.trail.backtrack mark c.world.store
    (c.trail.length - mark, { trail, world := { c.world with store } })

/-- Runs a computation on an empty trail, and puts the old one back. -/
def aside (x : Action (Scope S) α) : Action (Scope S) α :=
  Action.onPart (fun c => { c with trail := .empty }) (fun c old => { c with trail := old.trail }) x

end Scope

/-- Runs a hook, given how it unifies. -/
def Hook.exec (T : Theory S) (fuel : Nat) (unify : Unifier S) : Hook S → Action (Scope S) Bool
  | .done b => pure b
  | .ask q next => do (next (← Scope.onWorld (q.answer T fuel))).exec T fuel unify
  | .unify a b next => do (next (← unify a b)).exec T fuel unify

namespace Scope

variable (T : Theory S) (fuel : Nat) (unify : Unifier S)

/-- Whether the guard of a variable, if there is one, admits a value. -/
def admits (v : Var) (value : S.Term) : Action (Scope S) Bool := do
  match (← store).guard? v with
  | none => pure true
  | some guard => aside ((T.admits guard value).exec T fuel unify)

/-- Fills the slot of a variable, or says why it does not take the value. -/
def assign (v : Var) (value : S.Term) : Action (Scope S) (Option Refusal) := do
  let s ← store
  if s.isBound v then pure (some (.alreadyBound v))
  else if (s.deref value).var? = some v then pure (some (.cycle v))
  else if ← admits T fuel unify v value then do
    -- whatever the guard did in the meantime, the slot is filled now
    modify fun c => { c with world.store := c.world.store.set v (some value) }
    pure none
  else pure (some (.rejected v))

/-- Records and binds a variable.  A guard that refuses makes this fail; a
broken invariant stops everything. -/
def bind (v : Var) (value : S.Term) : Action (Scope S) Bool := do
  if ← admits T fuel unify v value then do
    record v
    match ← assign T fuel unify v value with
    | none => pure true
    | some r =>
      if r.isViolation then throw (.fault (.violation r))
      else do
        onWorld (World.note (.refused r))
        pure false
  else pure false

end Scope

/-- One level of unification, given how smaller terms are unified.  Of two
unbound variables the left one is bound, unless only the left one is
restricted. -/
def unifyStep (T : Theory S) (fuel : Nat) (unify : Unifier S) : Unifier S := fun t u => do
  let s ← Scope.store
  -- only the ends of the two chains matter from here on
  let a := s.deref t
  let b := s.deref u
  if ← Action.ofOption (s.identical? fuel a b) then pure true
  else
    match a, b with
    | .var v, .var w =>
      -- a restricted variable is not bound to one that takes everything
      if s.isUnbound v && s.isUnbound w && s.isRestricted v && !s.isRestricted w then
        Scope.bind T fuel unify w a
      else
        Scope.bind T fuel unify v b
    | .var v, _ => Scope.bind T fuel unify v b
    | _, .var w => Scope.bind T fuel unify w a
    | .list as, .list bs =>
      if as.length = bs.length then Action.allPairs unify as bs else pure false
    | .struct _ label args, _ => (T.unifyWith label args b).exec T fuel unify
    | _, .struct _ label args => (T.unifyWith label args a).exec T fuel unify
    | _, _ => pure false

/-- Unifies two terms, recording every binding on the trail. -/
def unify (T : Theory S) : Nat → Unifier S
  | 0 => fun _ _ => throw .outOfFuel
  | n + 1 => unifyStep T n (unify T n)

end GoalSearch
