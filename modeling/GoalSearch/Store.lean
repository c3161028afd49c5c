/-
The store: what every variable is bound to.

Each variable owns one slot.  An ordinary variable starts with an empty slot
and may carry a guard that restricts the values it accepts; a cell starts with
a value and is meant to be overwritten.  Reading follows the slots of ordinary
variables and stops at a cell.

Main definitions:

* `Vocabulary` — the types that an application brings along;
* `Store`, `Store.get`, `Store.set`, `Store.new` — slots and their variables;
* `Store.deref` — the end of a chain of bindings.

Main statements:

* `Store.get_set` — writing a slot changes this slot and no other;
* `Store.deref_of_unbound`, `Store.deref_of_cell` — where a chain ends.

Design notes: a store answers for every variable.  One it has never made reads
as an unbound ordinary variable, and writing it makes room for it, so the laws
of `get` and `set` have no side conditions.  Identifiers start at one: position
zero is taken when the store is made and never handed out.  `deref` walks at
most as many steps as there are slots, which is enough for every chain that
ends at all, as no slot is met twice on such a chain.
-/
import GoalSearch.Term

namespace GoalSearch

/-- What an application adds to the engine: labels for its structures, guards
for its variables, and private state for its predicates. -/
structure Vocabulary where
  /-- Labels of structures. -/
  Label : Type
  /-- Descriptions of the guards of restricted variables. -/
  Guard : Type
  /-- State that the application keeps between its calls. -/
  State : Type

/-- Terms of a vocabulary. -/
abbrev Vocabulary.Term (S : Vocabulary) : Type := GoalSearch.Term S.Label

/-- How a variable behaves. -/
inductive Role (G : Type) : Type
  /-- Bound at most once; accepts what its guard, if it has one, admits. -/
  | ordinary (guard : Option G)
  /-- Always holds a value, and may be given another. -/
  | cell

/-- The slot of a variable. -/
structure Slot (S : Vocabulary) where
  /-- How the variable behaves. -/
  role : Role S.Guard
  /-- What the variable is bound to. -/
  value : Option S.Term

/-- The slot of an unrestricted variable that is not bound. -/
def Slot.fresh {S : Vocabulary} : Slot S := ⟨.ordinary none, none⟩

instance {S : Vocabulary} : Inhabited (Slot S) := ⟨.fresh⟩

/-- The slots of all variables, by identifier. -/
structure Store (S : Vocabulary) where
  /-- Slot `i` belongs to the variable with identifier `i`. -/
  slots : Array (Slot S)

/-- The sum of integers. -/
def total : List Int → Int
  | [] => 0
  | n :: ns => n + total ns

namespace Store

variable {S : Vocabulary}

/-- The store without variables; position zero is never handed out. -/
def empty : Store S := ⟨#[.fresh]⟩

/-- The slot of a variable. -/
def get (s : Store S) (v : Var) : Slot S := s.slots.getD v.id .fresh

/-- The value in the slot of a variable, without following it. -/
def binding (s : Store S) (v : Var) : Option S.Term := (s.get v).value

/-- The slots with room for position `i`. -/
def reserve (slots : Array (Slot S)) (i : Nat) : Array (Slot S) :=
  slots ++ Array.replicate (i + 1 - slots.size) .fresh

/-- Puts a value into the slot of a variable, or empties it. -/
def set (s : Store S) (v : Var) (value : Option S.Term) : Store S :=
  ⟨(reserve s.slots v.id).modify v.id fun slot => { slot with value }⟩

/-- The variable that the next call of `new` makes. -/
def next (s : Store S) : Var := ⟨s.slots.size⟩

/-- Makes a variable. -/
def new (s : Store S) (role : Role S.Guard) (value : Option S.Term) : Var × Store S :=
  (s.next, ⟨s.slots.push ⟨role, value⟩⟩)

theorem getD_reserve (slots : Array (Slot S)) (i j : Nat) :
    (reserve slots i).getD j .fresh = slots.getD j .fresh := by
  simp only [reserve, Array.getD_eq_getD_getElem?, Array.getElem?_append,
    Array.getElem?_replicate]
  split
  · rfl
  · rename_i h
    rw [Array.getElem?_eq_none (by omega)]
    split <;> rfl

theorem get_set (s : Store S) (v w : Var) (value : Option S.Term) :
    (s.set v value).get w = if v = w then { s.get v with value } else s.get w := by
  have h : v.id < (reserve s.slots v.id).size := by simp [reserve]; omega
  have hr := getD_reserve s.slots v.id
  simp only [get, set, ← hr, Array.getD_eq_getD_getElem?, Array.getElem?_modify]
  by_cases hvw : v = w
  · subst hvw
    simp [h]
  · have : v.id ≠ w.id := fun e => hvw (by cases v; cases w; simp_all)
    simp [this, hvw]

theorem binding_set (s : Store S) (v w : Var) (value : Option S.Term) :
    (s.set v value).binding w = if v = w then value else s.binding w := by
  simp only [binding, get_set]
  split <;> rfl

theorem get_new (s : Store S) (role : Role S.Guard) (value : Option S.Term) (w : Var) :
    (s.new role value).2.get w = if s.next = w then ⟨role, value⟩ else s.get w := by
  obtain ⟨i⟩ := w
  simp only [get, new, next, Array.getD_eq_getD_getElem?, Array.getElem?_push, Var.mk.injEq]
  by_cases h : i = s.slots.size
  · simp [h]
  · simp [h, Ne.symm h]

/-- The guard of a variable, if it has one. -/
def guard? (s : Store S) (v : Var) : Option S.Guard :=
  match (s.get v).role with
  | .ordinary guard => guard
  | .cell => none

/-- Whether a guard restricts the variable. -/
def isRestricted (s : Store S) (v : Var) : Bool := (s.guard? v).isSome

/-- Whether the variable is a cell. -/
def isCell (s : Store S) (v : Var) : Bool :=
  match (s.get v).role with
  | .ordinary _ => false
  | .cell => true

/-- Whether the variable is ordinary and its slot is empty. -/
def isUnbound (s : Store S) (v : Var) : Bool :=
  !s.isCell v && (s.binding v).isNone

/-- Whether the variable is ordinary and its slot is filled. -/
def isBound (s : Store S) (v : Var) : Bool :=
  !s.isCell v && (s.binding v).isSome

/-- The term one binding further, if the term is a bound ordinary variable. -/
def step? (s : Store S) : S.Term → Option S.Term
  | .var v => if s.isCell v then none else s.binding v
  | _ => none

/-- The term at most `n` bindings further. -/
def follow (s : Store S) : Nat → S.Term → S.Term
  | 0, t => t
  | n + 1, t =>
    match s.step? t with
    | some u => follow s n u
    | none => t

/-- The end of the chain of bindings that starts at a term: an unbound
variable, the first cell on the way, or a term that is no variable. -/
def deref (s : Store S) (t : S.Term) : S.Term := s.follow s.slots.size t

theorem follow_of_step?_eq_none {s : Store S} {t : S.Term} (h : s.step? t = none) (n : Nat) :
    s.follow n t = t := by
  cases n <;> simp [follow, h]

theorem deref_of_unbound {s : Store S} {v : Var} (h : s.isUnbound v = true) :
    s.deref (.var v) = .var v := by
  simp only [isUnbound, Bool.and_eq_true, Bool.not_eq_true', Option.isNone_iff_eq_none] at h
  exact follow_of_step?_eq_none (by simp [step?, h]) _

theorem deref_of_cell {s : Store S} {v : Var} (h : s.isCell v = true) :
    s.deref (.var v) = .var v :=
  follow_of_step?_eq_none (by simp [step?, h]) _

/-- Whether a term dereferences to an unbound ordinary variable. -/
def isVar (s : Store S) (t : S.Term) : Bool :=
  match s.deref t with
  | .var v => s.isUnbound v
  | _ => false

/-- The integer that a term dereferences to. -/
def int? (s : Store S) (t : S.Term) : Option Int :=
  match s.deref t with
  | .int n => some n
  | _ => none

/-- The elements of the list that a term dereferences to. -/
def list? (s : Store S) (t : S.Term) : Option (List S.Term) :=
  match s.deref t with
  | .list items => some items
  | _ => none

/-- The integer that a term stands for: the one it dereferences to, or the
one in the cell that it dereferences to. -/
def number? (s : Store S) (t : S.Term) : Option Int :=
  match s.deref t with
  | .int n => some n
  | .var v => if s.isCell v then (s.binding v).bind s.int? else none
  | _ => none

end Store

end GoalSearch
