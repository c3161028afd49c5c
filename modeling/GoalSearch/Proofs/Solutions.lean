/-
The solutions of a goal, as a list of stores.

A goal stands for the list of stores in which it succeeds, in the order of a
depth-first search from left to right.  The list is made without an engine:
there is no stack, no trail and no continuation, and nothing is undone.  Only
the code of an application is run, each piece on an engine of its own.

* `Solutions` — lists of stores that may break off;
* `Program.outcome`, `Quiet.outcome` — code run on its own;
* `Goal.solutions` — the solutions of a goal from a store;
* `Goal.Slotwise` — goals whose code depends on the slots of variables only.

Design notes: a list may be endless, and code need not end, so the list is made
within a bound.  Where the bound is used up, and where a piece of code stops,
the list breaks off, which is not the same as its end.
-/
import GoalSearch.Engine.Run
import GoalSearch.Proofs.Action
import GoalSearch.Proofs.Slots

namespace GoalSearch

variable {S : Vocabulary} {α : Type}

/-! ### Lists that may break off -/

/-- Stores in order, up to the end or to where nothing more is known. -/
inductive Solutions (S : Vocabulary) : Type
  /-- There are no more. -/
  | nil
  /-- It is not known whether there are more. -/
  | stopped
  /-- A store, and those after it. -/
  | cons (s : Store S) (rest : Solutions S)

namespace Solutions

def one (s : Store S) : Solutions S := cons s nil

/-- First the one, then the other. -/
def append : Solutions S → Solutions S → Solutions S
  | nil, Y => Y
  | stopped, _ => stopped
  | cons s rest, Y => cons s (rest.append Y)

/-- Goes on from each store in turn. -/
def bind : Solutions S → (Store S → Solutions S) → Solutions S
  | nil, _ => nil
  | stopped, _ => stopped
  | cons s rest, f => (f s).append (rest.bind f)

/-- No more than the first store. -/
def first : Solutions S → Solutions S
  | nil => nil
  | stopped => stopped
  | cons s _ => one s

/-- The store `s` if there is any store at all. -/
def test (s : Store S) : Solutions S → Solutions S
  | nil => nil
  | stopped => stopped
  | cons _ _ => one s

/-- The store `s` if a verdict is positive. -/
def verdict (b : Bool) (s : Store S) : Solutions S := if b then one s else nil

/-- One list after the other. -/
def concat (Xs : List (Solutions S)) : Solutions S := Xs.foldr append nil

/-- The lists at positions `i`, `i + 1` and so on up to the first position
without one, but no more than `n` of them. -/
def alternatives (f : Nat → Option (Solutions S)) : Nat → Nat → Solutions S
  | 0, _ => stopped
  | n + 1, i =>
    match f i with
    | none => nil
    | some X => X.append (alternatives f n (i + 1))

/-- Goes on with the outcome of code, if it has one. -/
def after (outcome : Option (α × Store S)) (f : α → Store S → Solutions S) : Solutions S :=
  match outcome with
  | none => stopped
  | some (a, s) => f a s

end Solutions

/-! ### Code on its own -/

section Outcome

variable (T : Theory S) (w : World S) (n : Nat)

/-- An engine on which nothing has happened, in a world with the slots `s`. -/
def Machine.fresh (s : Store S) : Machine S := ⟨.new .standard, { w with store := s }, []⟩

/-- The value of a program that is run from the slots `s`, and the slots at its
end, unless it stops. -/
def Program.outcome {κ : Kind} (p : Program S (Goal S) κ) (s : Store S) :
    Option (Program.Value S (Goal S) κ × Store S) :=
  match p.exec T n (Machine.run T n) (Machine.fresh w s) with
  | .ok a m => some (a, m.world.store)
  | .error _ _ => none

/-- The value of code that asks about the slots `s`, unless it stops. -/
def Quiet.outcome (x : Quiet S α) (s : Store S) : Option (α × Store S) :=
  ((x.exec T n).result? { w with store := s }).map fun a => (a, s)

end Outcome

/-! ### The solutions of a goal -/

section Solve

variable (T : Theory S) (w : World S) (n : Nat)

/-- What the candidate at position `i` gives, if there is one. -/
def Predicate.candidate (draw : Nat → Quiet S (Option (Program S (Goal S) .verdict)))
    (validate : Program S (Goal S) .verdict) (s : Store S) (i : Nat) : Option (Solutions S) :=
  match (draw i).outcome T w n s with
  | none => some .stopped
  | some (none, _) => none
  | some (some apply, _) =>
    some (.after (apply.outcome T w n s) fun (applies : Bool) s' =>
      if applies then .after (validate.outcome T w n s') .verdict else .nil)

/-- The solutions of a step from a store.  All candidates are tried from the
same slots. -/
def Predicate.solutions (p : Predicate S (Goal S)) (s : Store S) : Solutions S :=
  match p with
  | .nondeterministic prepare validate =>
    .after (prepare.outcome T w n s) fun draw _ =>
      .alternatives (Predicate.candidate T w n draw validate s) n 0
  | .semideterministic prepare validate =>
    .after (prepare.outcome T w n s) fun _ s' => .after (validate.outcome T w n s') .verdict
  | .deterministic prepare => .after (prepare.outcome T w n s) fun _ s' => .one s'

variable (solve : Goal S → Store S → Solutions S)

namespace Goal

/-- The solutions of goals in sequence, depth first and from left to right. -/
def chain : List (Goal S) → Store S → Solutions S
  | [], s => .one s
  | g :: rest, s => (solve g s).bind (chain rest)

@[simp] theorem chain_singleton (g : Goal S) (s : Store S) : chain solve [g] s = solve g s := by
  have hone : ∀ X : Solutions S, X.bind (chain solve []) = X := by
    intro X
    induction X with
    | nil => rfl
    | stopped => rfl
    | cons s rest ih => rw [Solutions.bind, ih]; rfl
  exact hone (solve g s)

/-- What the choice at position `i` gives, if there is one: the solutions of
the rest of the search. -/
def choice (handler : Quiet S (Program S (Goal S) .choices))
    (make : Nat → Program S (Goal S) .attempt) (s : Store S) (i : Nat) : Option (Solutions S) :=
  match (make i).outcome T w n s with
  | none => some .stopped
  | some (none, _) => none
  | some (some b, s') => some (if b then solve (.search handler) s' else .nil)

/-- The solutions of a goal, given those of the goals it is made of. -/
def solutionsStep (g : Goal S) (s : Store S) : Solutions S :=
  match g with
  | .succeed => .one s
  | .fail => .nil
  | .call p => p.solutions T w n s
  | .sequence gs => chain solve gs s
  | .disjunction gs => .concat (gs.map fun g => solve g s)
  | .once g => (solve g s).first
  | .notNot g => (solve g s).test s
  | .loop test body =>
    -- what is asked of the engine is asked of one on which nothing has happened
    let view := (Machine.fresh w s).engine.view
    .after ((test view).outcome T w n s) fun more _ =>
      if more then
        .after ((body view).outcome T w n s) fun g _ => (solve g s).bind (solve (.loop test body))
      else .one s
  | .search handler =>
    .after (handler.outcome T w n s) fun level _ =>
      .after (level.outcome T w n s) fun made _ =>
        match made with
        | none => .one s
        | some make => .alternatives (choice T w n solve handler make s) n 0

/-- The solutions of a goal from a store, within a bound. -/
def solutions : Nat → Goal S → Store S → Solutions S
  | 0, _, _ => .stopped
  | n + 1, g, s => solutionsStep T w n (solutions n) g s

end Goal

end Solve

/-! ### Code that depends on the slots only -/

section Slotwise

variable (T : Theory S)

/-- Worlds with the same slots, and without closed chains of bindings. -/
def World.Alike (w w' : World S) : Prop := w.store ≈ w'.store ∧ w.store.ChainsEnd

/-- Whatever the engine and its world, the end of a program depends on the slots
only. -/
def Program.Slotwise {κ : Kind} (p : Program S (Goal S) κ) : Prop :=
  ∀ n (m m' : Machine S), m.world.Alike m'.world →
    Action.SameEnd (fun m m' => m.world.store ≈ m'.world.store)
      (p.exec T n (Machine.run T n) m) (p.exec T n (Machine.run T n) m')

/-- A program that ends leaves all slots as they were. -/
def Program.BindsNothing {κ : Kind} (p : Program S (Goal S) κ) : Prop :=
  ∀ n m a m', p.exec T n (Machine.run T n) m = .ok a m' → m'.world.store ≈ m.world.store

/-- The values with which a program ends. -/
def Program.Gives {κ : Kind} (p : Program S (Goal S) κ) (a : Program.Value S (Goal S) κ) : Prop :=
  ∃ n m m', p.exec T n (Machine.run T n) m = .ok a m'

/-- Two pieces of code have the same value wherever the slots are the same. -/
def Quiet.Agrees (x y : Quiet S α) : Prop :=
  ∀ n w w', World.Alike w w' → (x.exec T n).result? w = (y.exec T n).result? w'

/-- The values with which code that asks ends. -/
def Quiet.Gives (x : Quiet S α) (a : α) : Prop := ∃ n w w', x.exec T n w = .ok a w'

variable {T} {w : World S} {n : Nat} {s s' : Store S}

theorem Program.gives_of_outcome {κ : Kind} {p : Program S (Goal S) κ}
    {a : Program.Value S (Goal S) κ} (h : p.outcome T w n s = some (a, s')) : p.Gives T a := by
  unfold Program.outcome at h
  split at h
  · next b m hexec =>
    cases h
    exact ⟨n, _, m, hexec⟩
  · cases h

theorem Program.BindsNothing.outcome {κ : Kind} {p : Program S (Goal S) κ}
    {a : Program.Value S (Goal S) κ} (hp : p.BindsNothing T)
    (h : p.outcome T w n s = some (a, s')) : s' ≈ s := by
  unfold Program.outcome at h
  split at h
  · next b m hexec =>
    cases h
    exact hp n _ _ m hexec
  · cases h

theorem Quiet.gives_of_outcome {x : Quiet S α} {a : α} (h : x.outcome T w n s = some (a, s')) :
    x.Gives T a ∧ s' = s := by
  unfold Quiet.outcome at h
  obtain ⟨b, hb, hpair⟩ := Option.map_eq_some_iff.mp h
  cases hpair
  obtain ⟨w', hexec⟩ := Action.result?_eq_some.mp hb
  exact ⟨⟨n, _, w', hexec⟩, rfl⟩

variable (T)

/-- Goals whose code depends on the slots only, and where what comes before the
candidates of a predicate, or before the choices of a search, binds nothing. -/
inductive Goal.Slotwise : Goal S → Prop
  | succeed : Slotwise .succeed
  | fail : Slotwise .fail
  | nondeterministic {prepare : Program S (Goal S) .candidates}
      {validate : Program S (Goal S) .verdict} :
      prepare.Slotwise T → prepare.BindsNothing T → validate.Slotwise T →
      (∀ draw : Nat → Quiet S (Option (Program S (Goal S) .verdict)), prepare.Gives T draw →
        ∀ i, (draw i).Agrees T (draw i) ∧ ∀ p, (draw i).Gives T (some p) → p.Slotwise T) →
      Slotwise (.call (.nondeterministic prepare validate))
  | semideterministic {prepare validate : Program S (Goal S) .verdict} :
      prepare.Slotwise T → validate.Slotwise T →
      Slotwise (.call (.semideterministic prepare validate))
  | deterministic {prepare : Program S (Goal S) .verdict} :
      prepare.Slotwise T → Slotwise (.call (.deterministic prepare))
  | sequence {gs : List (Goal S)} : (∀ g ∈ gs, Slotwise g) → Slotwise (.sequence gs)
  | disjunction {gs : List (Goal S)} : (∀ g ∈ gs, Slotwise g) → Slotwise (.disjunction gs)
  | once {g : Goal S} : Slotwise g → Slotwise (.once g)
  | notNot {g : Goal S} : Slotwise g → Slotwise (.notNot g)
  | loop {test : View → Quiet S Bool} {body : View → Quiet S (Goal S)} :
      (∀ v v', (test v).Agrees T (test v')) → (∀ v v', (body v).Agrees T (body v')) →
      (∀ v g, (body v).Gives T g → Slotwise g) → Slotwise (.loop test body)
  | search {handler : Quiet S (Program S (Goal S) .choices)} :
      handler.Agrees T handler →
      (∀ level, handler.Gives T level → level.Slotwise T ∧ level.BindsNothing T ∧
        ∀ make : Nat → Program S (Goal S) .attempt, level.Gives T (some make) →
          ∀ i, (make i).Slotwise T) →
      Slotwise (.search handler)

end Slotwise

end GoalSearch
