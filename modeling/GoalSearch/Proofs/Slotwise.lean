/-
Code that reads no more than the slots.

Code may see more of its engine than what the variables are bound to: how much
room the store has made, the private state, the depth of the stack.  Code that
looks at nothing of the kind ends alike wherever the slots are the same, and so
does unification with such hooks.

* `unify_slotwise` — unification depends on the slots only;
* `Program.ReadsSlots.slotwise`, `Quiet.ReadsSlots.agrees` — so does code that
  asks about slots, unifies and repeats itself;
* `Goal.slotwise_memberOf` — steps that try the values of a list.

Design notes: a program may still ask for the store itself, if what it does next
is the same for stores with the same slots.  Programs that look at the engine or
run goals are left out, as runs within equal fuel need not end alike.
-/
import GoalSearch.Proofs.Chains
import GoalSearch.Proofs.Hosts
import GoalSearch.Proofs.Solutions

namespace GoalSearch

open GoalSearch.Action

variable {S : Vocabulary} {α : Type}

/-! ### Reading stores with the same slots -/

section Read

variable {s s' : Store S}

theorem Store.isUnbound_congr (h : s ≈ s') (v : Var) : s.isUnbound v = s'.isUnbound v := by
  rw [isUnbound, isUnbound, isCell_congr h, binding_congr h]

theorem Store.isRestricted_congr (h : s ≈ s') (v : Var) : s.isRestricted v = s'.isRestricted v := by
  rw [isRestricted, isRestricted, guard?_congr h]

theorem Store.isVar_congr (hs : s.ChainsEnd) (h : s ≈ s') : s.isVar = s'.isVar := by
  funext t
  rw [isVar, isVar, deref_congr hs h, funext (isUnbound_congr h)]

theorem Store.int?_congr (hs : s.ChainsEnd) (h : s ≈ s') : s.int? = s'.int? := by
  funext t
  rw [int?, int?, deref_congr hs h]

theorem Store.list?_congr (hs : s.ChainsEnd) (h : s ≈ s') : s.list? = s'.list? := by
  funext t
  rw [list?, list?, deref_congr hs h]

theorem Store.identical?_congr (hs : s.ChainsEnd) (h : s ≈ s') (n : Nat) :
    s.identical? n = s'.identical? n := by
  induction n with
  | zero => rfl
  | succ n ih =>
    funext a b
    rw [identical?, identical?, deref_congr hs h a, deref_congr hs h b, ih]

theorem Theory.display?_congr (T : Theory S) (hs : s.ChainsEnd) (h : s ≈ s') (n : Nat) :
    T.display? s n = T.display? s' n := by
  induction n with
  | zero => rfl
  | succ n ih =>
    funext t
    simp only [display?, ih, Store.isCell_congr h, Store.binding_congr h, Store.deref_congr hs h]

end Read

/-! ### Code that asks -/

/-- Questions that are answered from the slots. -/
def Ask.ReadsSlots : Ask S → Prop
  | .store => False
  | .state => False
  | _ => True

/-- Code that asks about the slots only. -/
inductive Quiet.ReadsSlots : Quiet S α → Prop
  | done (a : α) : ReadsSlots (.done a)
  | ask {q : Ask S} {next : q.Answer → Quiet S α} :
      q.ReadsSlots → (∀ x, ReadsSlots (next x)) → ReadsSlots (.ask q next)
  | store {next : Store S → Quiet S α} :
      (∀ s s', s ≈ s' → s.ChainsEnd → next s = next s') → (∀ s, ReadsSlots (next s)) →
      ReadsSlots (.ask .store next)

section Ask

variable (T : Theory S) (n : Nat)

theorem Ask.ReadsSlots.endsAlike {q : Ask S} (hq : q.ReadsSlots) :
    EndsAlike World.Alike (q.answer T n) := by
  intro w w' h
  cases q with
  | store => exact hq.elim
  | state => exact hq.elim
  | put | say => exact ⟨rfl, h⟩
  | display t =>
    show SameEnd _ (ofOption (T.display? w.store n t) w) (ofOption (T.display? w'.store n t) w')
    rw [Theory.display?_congr T h.2 h.1]
    exact EndsAlike.ofOption _ w w' h
  | identical a b =>
    show SameEnd _ (ofOption (w.store.identical? n a b) w) (ofOption (w'.store.identical? n a b) w')
    rw [Store.identical?_congr h.2 h.1]
    exact EndsAlike.ofOption _ w w' h

theorem Quiet.ReadsSlots.endsAlike {x : Quiet S α} (hx : x.ReadsSlots) :
    EndsAlike World.Alike (x.exec T n) := by
  induction hx with
  | done a => exact EndsAlike.pure a
  | ask hq _ ih => exact EndsAlike.bind (hq.endsAlike T n) ih
  | @store next heq _ ih =>
    intro w w' h
    show SameEnd _ ((next w.store).exec T n w) ((next w'.store).exec T n w')
    rw [heq _ _ h.1 h.2]
    exact ih _ w w' h

theorem Quiet.ReadsSlots.agrees {x : Quiet S α} (hx : x.ReadsSlots) : x.Agrees T x := by
  intro n w w' h
  have hend := hx.endsAlike T n w w' h
  unfold result?
  cases hw : x.exec T n w <;> cases hw' : x.exec T n w' <;> rw [hw, hw'] at hend
  · exact congrArg some hend.1
  · exact False.elim hend
  · exact False.elim hend

end Ask

/-! ### Unification -/

/-- Hooks that read no more than the slots. -/
inductive Hook.ReadsSlots : Hook S → Prop
  | done (b : Bool) : ReadsSlots (.done b)
  | ask {q : Ask S} {next : q.Answer → Hook S} :
      q.ReadsSlots → (∀ x, ReadsSlots (next x)) → ReadsSlots (.ask q next)
  | store {next : Store S → Hook S} :
      (∀ s s', s ≈ s' → s.ChainsEnd → next s = next s') → (∀ s, ReadsSlots (next s)) →
      ReadsSlots (.ask .store next)
  | unify {a b : S.Term} {next : Bool → Hook S} :
      (∀ r, ReadsSlots (next r)) → ReadsSlots (.unify a b next)

/-- Structures and guards that read no more than the slots. -/
structure Theory.ReadsSlots (T : Theory S) : Prop where
  unifyWith : ∀ label args t, (T.unifyWith label args t).ReadsSlots
  admits : ∀ guard value, (T.admits guard value).ReadsSlots

/-- Scopes whose worlds are alike. -/
def Scope.Alike (c d : Scope S) : Prop := c.world.Alike d.world

/-- Unification that ends alike in scopes that are alike. -/
def Unifier.Slotwise (unify : Unifier S) : Prop := ∀ a b, EndsAlike Scope.Alike (unify a b)

section Unify

variable {T : Theory S} {n : Nat}

theorem Scope.onWorld_endsAlike {x : Action (World S) α} (hx : EndsAlike World.Alike x) :
    EndsAlike Scope.Alike (Scope.onWorld x) :=
  fun c d h => sameEnd_onPart (hx c.world d.world h) fun _ _ h' => h'

theorem Hook.ReadsSlots.endsAlike {unify : Unifier S} (hu : unify.Slotwise) {k : Hook S}
    (hk : k.ReadsSlots) : EndsAlike Scope.Alike (k.exec T n unify) := by
  induction hk with
  | done b => exact EndsAlike.pure b
  | ask hq _ ih => exact EndsAlike.bind (Scope.onWorld_endsAlike (hq.endsAlike T n)) ih
  | @store next heq _ ih =>
    intro c d h
    show SameEnd _ ((next c.world.store).exec T n unify c) ((next d.world.store).exec T n unify d)
    rw [heq _ _ h.1 h.2]
    exact ih _ c d h
  | unify _ ih => exact EndsAlike.bind (hu _ _) ih

variable (hT : T.GuardsInert) (hread : T.ReadsSlots) (hu : Unifier.Slotwise (unify T n)) (v : Var)
  (value : S.Term)

section Bind

include hread hu

theorem Scope.admits_endsAlike : EndsAlike Scope.Alike (admits T n (unify T n) v value) := by
  intro c d h
  rw [admits, bind_ok (store_apply c), bind_ok (store_apply d), Store.guard?_congr h.1]
  cases d.world.store.guard? v with
  | none => exact ⟨rfl, h⟩
  | some guard =>
    have hk := (hread.admits guard value).endsAlike (T := T) (n := n) hu
    have hend := hk { c with trail := .empty } { d with trail := .empty } h
    exact sameEnd_onPart hend fun _ _ h' => h'

include hT

theorem Scope.assign_endsAlike : EndsAlike Scope.Alike (assign T n (unify T n) v value) := by
  intro c d h
  rw [assign, bind_ok (store_apply c), bind_ok (store_apply d), ← Store.isBound_congr h.1,
    ← Store.deref_congr h.2 h.1]
  split
  · exact ⟨rfl, h⟩
  · next hunbound =>
    split
    · exact ⟨rfl, h⟩
    · next hcycle =>
      refine (admits_endsAlike hread hu v value c d h).bind fun b c' d' hc' h' => ?_
      split
      · -- the guard bound nothing, so what was checked before it holds of the slot now filled
        have hinert := (admits_inert hT n v value c trivial).ok hc'
        have hset := h.2.set (by simpa using hunbound) hcycle
        refine ⟨rfl, Store.set_congr h'.1 v _, ?_⟩
        exact hset.congr (Store.set_congr (Setoid.symm hinert.2) v _)
      · exact ⟨rfl, h'⟩

theorem Scope.bind_endsAlike : EndsAlike Scope.Alike (bind T n (unify T n) v value) := by
  refine EndsAlike.bind (admits_endsAlike hread hu v value) fun b => ?_
  split
  · refine EndsAlike.bind (fun c d h => ⟨rfl, h⟩) fun _ => ?_
    refine EndsAlike.bind (assign_endsAlike hT hread hu v value) fun r => ?_
    split
    · exact EndsAlike.pure _
    · split
      · exact EndsAlike.throw _
      · exact fun c d h => ⟨rfl, h⟩
  · exact EndsAlike.pure _

theorem unifyStep_slotwise : Unifier.Slotwise (unifyStep T n (unify T n)) := by
  have hbind := Scope.bind_endsAlike hT hread hu
  intro a b c d h
  rw [unifyStep, bind_ok (Scope.store_apply c), bind_ok (Scope.store_apply d)]
  simp only [Store.deref_congr h.2 h.1, Store.identical?_congr h.2 h.1, Store.isUnbound_congr h.1,
    Store.isRestricted_congr h.1]
  refine EndsAlike.bind (EndsAlike.ofOption _) (fun same => ?_) c d h
  split
  · exact EndsAlike.pure _
  · split
    · split
      · exact hbind _ _
      · exact hbind _ _
    · exact hbind _ _
    · exact hbind _ _
    · split
      · exact EndsAlike.allPairs hu _ _
      · exact EndsAlike.pure _
    · exact (hread.unifyWith _ _ _).endsAlike hu
    · exact (hread.unifyWith _ _ _).endsAlike hu
    · exact EndsAlike.pure _

end Bind

include hT hread

/-- Unification depends on the slots only. -/
theorem unify_slotwise (n : Nat) : Unifier.Slotwise (unify T n) := by
  induction n with
  | zero => exact fun _ _ => EndsAlike.throw _
  | succ n ih => exact unifyStep_slotwise hT hread ih

end Unify

/-! ### Programs -/

/-- Programs that read no more than the slots, and run no goals. -/
inductive Program.ReadsSlots : {κ : Kind} → Program S (Goal S) κ → Prop
  | verdict (b : Bool) : ReadsSlots (.verdict b)
  | attempt (r : Option Bool) : ReadsSlots (.attempt r)
  | candidates (draw : Nat → Quiet S (Option (Program S (Goal S) .verdict))) :
      ReadsSlots (.candidates draw)
  | choices (make : Option (Nat → Program S (Goal S) .attempt)) : ReadsSlots (.choices make)
  | ask {κ : Kind} {q : Ask S} {next : q.Answer → Program S (Goal S) κ} :
      q.ReadsSlots → (∀ x, ReadsSlots (next x)) → ReadsSlots (.ask q next)
  | store {κ : Kind} {next : Store S → Program S (Goal S) κ} :
      (∀ s s', s ≈ s' → s.ChainsEnd → next s = next s') → (∀ s, ReadsSlots (next s)) →
      ReadsSlots (.ask .store next)
  | unify {κ : Kind} {a b : S.Term} {next : Bool → Program S (Goal S) κ} :
      (∀ r, ReadsSlots (next r)) → ReadsSlots (.unify a b next)
  | resetStatistics {κ : Kind} {next : Program S (Goal S) κ} :
      ReadsSlots next → ReadsSlots (.resetStatistics next)
  | renew {κ : Kind} {next : Program S (Goal S) κ} : ReadsSlots next → ReadsSlots (.renew next)
  | loop {κ : Kind} {round : Program S (Goal S) .attempt} {next : Bool → Program S (Goal S) κ} :
      ReadsSlots round → (∀ r, ReadsSlots (next r)) → ReadsSlots (.loop round next)

theorem Program.ReadsSlots.bind {κ μ : Kind} {p : Program S (Goal S) κ}
    {f : Program.Value S (Goal S) κ → Program S (Goal S) μ} (hp : p.ReadsSlots)
    (hf : ∀ a, (f a).ReadsSlots) : (p.bind f).ReadsSlots := by
  induction hp with
  | verdict | attempt | candidates | choices => exact hf _
  | ask hq _ ih => exact .ask hq fun x => ih x hf
  | store heq _ ih =>
    exact .store (fun s s' h hs => by rw [heq s s' h hs]) fun s => ih s hf
  | unify _ ih => exact .unify fun r => ih r hf
  | resetStatistics _ ih => exact .resetStatistics (ih hf)
  | renew _ ih => exact .renew (ih hf)
  | loop hround _ _ ih => exact .loop hround fun r => ih r hf

theorem Program.ReadsSlots.unifies (t u : S.Term) :
    (Program.unifies t u : Program S (Goal S) .verdict).ReadsSlots :=
  .unify fun r => .verdict r

theorem Program.ReadsSlots.andThen {p q : Program S (Goal S) .verdict} (hp : p.ReadsSlots)
    (hq : q.ReadsSlots) : (p.andThen q).ReadsSlots := by
  refine hp.bind fun (b : Bool) => ?_
  cases b with
  | false => exact .verdict false
  | true => exact hq

/-- Machines whose worlds are alike. -/
def Machine.Alike (m m' : Machine S) : Prop := m.world.Alike m'.world

section Program

variable {T : Theory S}

theorem Machine.onWorld_endsAlike {x : Action (World S) α} (hx : EndsAlike World.Alike x) :
    EndsAlike Machine.Alike (Machine.onWorld x) :=
  fun m m' h => sameEnd_onPart (hx m.world m'.world h) fun _ _ h' => h'

theorem Machine.modifyEngine_endsAlike (f : Engine S → Engine S) :
    EndsAlike Machine.Alike (Machine.modifyEngine f) :=
  fun _ _ h => ⟨rfl, h⟩

variable (hT : T.GuardsInert) (hread : T.ReadsSlots)

include hT hread

theorem Machine.unify_endsAlike (n : Nat) (a b : S.Term) :
    EndsAlike Machine.Alike (Machine.unify T n a b) := by
  intro m m' h
  rw [Machine.unify, bind_ok (trailLength_apply m), bind_ok (trailLength_apply m')]
  have hscope : SameEnd Machine.Alike (onScope (GoalSearch.unify T n a b) m)
      (onScope (GoalSearch.unify T n a b) m') :=
    sameEnd_onPart (unify_slotwise hT hread n a b m.scope m'.scope h) fun _ _ h' => h'
  -- the numbers of bindings may differ, but nothing except the counters depends on them
  exact hscope.bind fun r m₁ m₁' _ h' => ⟨rfl, h'⟩

theorem Program.ReadsSlots.endsAlike (n : Nat) (run : Runner S) {κ : Kind}
    {p : Program S (Goal S) κ} (hp : p.ReadsSlots) :
    EndsAlike Machine.Alike (p.exec T n run) := by
  induction hp with
  | verdict | attempt | candidates | choices => exact EndsAlike.pure _
  | ask hq _ ih => exact EndsAlike.bind (Machine.onWorld_endsAlike (hq.endsAlike T n)) ih
  | @store _ next heq _ ih =>
    intro m m' h
    show SameEnd _ ((next m.world.store).exec T n run m) ((next m'.world.store).exec T n run m')
    rw [heq _ _ h.1 h.2]
    exact ih _ m m' h
  | unify _ ih => exact EndsAlike.bind (Machine.unify_endsAlike hT hread n _ _) ih
  | resetStatistics _ ih | renew _ ih =>
    exact EndsAlike.bind (Machine.modifyEngine_endsAlike _) fun _ => ih
  | loop _ _ ihround ih => exact EndsAlike.bind (EndsAlike.rounds ihround n) ih

/-- Code that reads no more than the slots depends on nothing else. -/
theorem Program.ReadsSlots.slotwise {κ : Kind} {p : Program S (Goal S) κ} (hp : p.ReadsSlots) :
    p.Slotwise T :=
  fun n m m' h => (hp.endsAlike hT hread n _ m m' h).mono fun _ _ h' => h'.1

end Program

/-! ### Steps that try values -/

section Member

variable {T : Theory S} (hT : T.GuardsInert) (hread : T.ReadsSlots)

theorem Quiet.ReadsSlots.bind {β : Type} {x : Quiet S α} {f : α → Quiet S β} (hx : x.ReadsSlots)
    (hf : ∀ a, (f a).ReadsSlots) : (x.bind f).ReadsSlots := by
  induction hx with
  | done a => exact hf a
  | ask hq _ ih => exact .ask hq ih
  | store heq _ ih => exact .store (fun s s' h hs => by rw [heq s s' h hs]) ih

include hT hread

end Member

theorem Bounds.readsSlots : Bounds.theory.ReadsSlots where
  unifyWith label := nomatch label
  admits bounds value := by
    cases value with
    | int n => exact .done _
    | _ => exact .done _

end GoalSearch
