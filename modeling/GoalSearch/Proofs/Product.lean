/-
Enumerating a product.

Goals in sequence that draw the values of different variables enumerate the
product of these values: the first variable takes its first value, and keeps it
while the others go through all of theirs.  A goal that commits to its first
solution draws one value only.

* `tuples` — the product of lists, in lexicographic order of positions;
* `Factor` — a variable, its values, and whether its goal commits;
* `Factor.stores` — the stores of the product, one for each tuple;
* `Factor.Delivered` — calling a goal delivers these stores;
* `Machine.enumerates_product` — findAll and execute.

Design notes: nothing is assumed about guards or about the rest of the store.  No
guard is consulted when an unrestricted variable is bound, and a variable that
holds a ground term is dereferenced in one step, however much room the store has
made.
-/
import GoalSearch.Proofs.Answers
import GoalSearch.Proofs.Binding
import GoalSearch.Proofs.Mgu
import GoalSearch.Proofs.Semantics

namespace GoalSearch

open GoalSearch.Action GoalSearch.Configuration Machine Solutions

variable {S : Vocabulary} {T : Theory S} {k : Nat}

/-! ### Tuples -/

/-- Terms without variables and structures. -/
inductive Term.Ground {L : Type} : Term L → Prop
  | int (n : Int) : Ground (.int n)
  | atom (name : String) : Ground (.atom name)
  | list {items : List (Term L)} : (∀ t ∈ items, Ground t) → Ground (.list items)

theorem Term.Ground.settled {t : S.Term} (h : t.Ground) (s : Store S) : s.Settled t := by
  induction h with
  | int n => exact .int n
  | atom name => exact .atom name
  | list _ ih => exact .list ih

theorem Term.Ground.var?_eq_none {t : S.Term} (h : t.Ground) : t.var? = none := by
  cases h <;> rfl

/-- One element of each list, in lexicographic order of positions. -/
def tuples {α : Type} : List (List α) → List (List α)
  | [] => [[]]
  | xs :: rest => xs.flatMap fun x => (tuples rest).map (x :: ·)

/-- A variable, the values that are drawn for it, and whether the goal that draws
them commits to its first solution. -/
structure Factor (S : Vocabulary) where
  /-- The variable. -/
  var : Var
  /-- The values that are drawn. -/
  values : List S.Term
  /-- Whether the goal commits to its first solution. -/
  committed : Bool

namespace Factor

/-- The goal that draws the values. -/
def goal (f : Factor S) : Goal S :=
  let g := Goal.memberOf (.var f.var) f.values
  if f.committed then .once g else g

/-- The values that the variable takes. -/
def offered (f : Factor S) : List S.Term :=
  if f.committed then f.values.take 1 else f.values

/-- The variable is unrestricted and not bound. -/
structure Open (f : Factor S) (s : Store S) : Prop where
  unbound : s.isUnbound f.var = true
  unrestricted : s.isRestricted f.var = false

/-- The stores in which each variable has taken a value, in the order of the
tuples. -/
def stores : List (Factor S) → Store S → List (Store S)
  | [], s => [s]
  | f :: fs, s => f.offered.flatMap fun value => stores fs (s.set f.var (some value))

variable {f : Factor S} {fs : List (Factor S)} {s s' : Store S}

theorem mem_values_of_offered {value : S.Term} (h : value ∈ f.offered) : value ∈ f.values := by
  rw [offered] at h
  split at h
  · exact List.mem_of_mem_take h
  · exact h

theorem offered_eq_nil_iff : f.offered = [] ↔ f.values = [] := by
  rw [offered]
  split
  · simp
  · rfl

theorem Open.congr (h : f.Open s) (hs : s ≈ s') : f.Open s' := by
  refine ⟨?_, ?_⟩
  · rw [← Store.isUnbound_congr hs]
    exact h.unbound
  · rw [← Store.isRestricted_congr hs]
    exact h.unrestricted

/-- A variable stays open when another one is bound. -/
theorem Open.set (h : f.Open s) {v : Var} (hv : v ≠ f.var) (value : Option S.Term) :
    f.Open (s.set v value) := by
  have hget : (s.set v value).get f.var = s.get f.var := by rw [Store.get_set, if_neg hv]
  refine ⟨?_, ?_⟩
  · rw [Store.isUnbound, Store.isCell, Store.binding, hget]
    exact h.unbound
  · rw [Store.isRestricted, Store.guard?, hget]
    exact h.unrestricted

/-- Variables of other factors keep their slots. -/
theorem get_of_mem_stores {v : Var} (hv : v ∉ fs.map var) (hs' : s' ∈ stores fs s) :
    s'.get v = s.get v := by
  induction fs generalizing s with
  | nil =>
    rw [stores, List.mem_singleton] at hs'
    rw [hs']
  | cons f fs ih =>
    rw [List.map_cons, List.mem_cons, not_or] at hv
    obtain ⟨value, -, hs'⟩ := List.mem_flatMap.mp hs'
    rw [ih hv.2 hs', Store.get_set, if_neg (Ne.symm hv.1)]

theorem isCell_of_mem_stores (hs' : s' ∈ stores fs s) (v : Var) : s'.isCell v = s.isCell v := by
  induction fs generalizing s with
  | nil =>
    rw [stores, List.mem_singleton] at hs'
    rw [hs']
  | cons f fs ih =>
    obtain ⟨value, -, hs'⟩ := List.mem_flatMap.mp hs'
    rw [ih hs', Store.isCell_set]

/-- In the stores of the product the variables hold the tuples. -/
theorem bindings_stores (hvars : (fs.map var).Nodup) (s : Store S) :
    (stores fs s).map (fun s' => fs.map fun f => s'.binding f.var) =
      (tuples (fs.map offered)).map (List.map some) := by
  induction fs generalizing s with
  | nil => rfl
  | cons f fs ih =>
    rw [List.map_cons, List.nodup_cons] at hvars
    rw [stores, List.map_cons, tuples, List.map_flatMap, List.map_flatMap]
    refine congrArg (f.offered.flatMap ·) (funext fun value => ?_)
    -- The variables are distinct, so the factors after this one leave its variable alone.
    have hhead : ∀ s' ∈ stores fs (s.set f.var (some value)),
        s'.binding f.var = some value := by
      intro s' hs'
      rw [Store.binding, get_of_mem_stores hvars.1 hs', ← Store.binding, Store.binding_set,
        if_pos rfl]
    calc (stores fs (s.set f.var (some value))).map
          (fun s' => (f :: fs).map fun f => s'.binding f.var)
        = (stores fs (s.set f.var (some value))).map
            (fun s' => some value :: fs.map fun f => s'.binding f.var) := by
          refine List.map_congr_left fun s' hs' => ?_
          rw [List.map_cons, hhead s' hs']
      _ = ((stores fs (s.set f.var (some value))).map
            fun s' => fs.map fun f => s'.binding f.var).map (some value :: ·) := by
          rw [List.map_map]
          rfl
      _ = ((tuples (fs.map offered)).map (value :: ·)).map (List.map some) := by
          rw [ih hvars.2, List.map_map, List.map_map]
          rfl

/-- In the stores of the product each variable holds one of its values. -/
theorem exists_binding_of_mem_stores (hvars : (fs.map var).Nodup) (hs' : s' ∈ stores fs s)
    (hf : f ∈ fs) : ∃ value ∈ f.values, s'.binding f.var = some value := by
  induction fs generalizing s with
  | nil => cases hf
  | cons f' fs ih =>
    rw [List.map_cons, List.nodup_cons] at hvars
    obtain ⟨value, hvalue, hs'⟩ := List.mem_flatMap.mp hs'
    rcases List.mem_cons.mp hf with rfl | hf
    · refine ⟨value, mem_values_of_offered hvalue, ?_⟩
      rw [Store.binding, get_of_mem_stores hvars.1 hs', ← Store.binding, Store.binding_set,
        if_pos rfl]
    · exact ih hvars.2 hs' hf

theorem stores_eq_nil_iff : stores fs s = [] ↔ ∃ f ∈ fs, f.values = [] := by
  induction fs generalizing s with
  | nil => simp [stores]
  | cons f fs ih =>
    rw [stores, List.flatMap_eq_nil_iff, List.exists_mem_cons_iff, ← offered_eq_nil_iff]
    simp only [ih]
    cases hoffered : f.offered with
    | nil => simp
    | cons value values =>
      constructor
      · exact fun h => .inr (h value (by simp))
      · rintro (h | h)
        · cases h
        · exact fun _ _ => h

/-- What the variables hold, as a list. -/
def held (fs : List (Factor S)) (s : Store S) : S.Term :=
  .list (fs.map fun f => (s.binding f.var).getD default)

theorem held_stores (hvars : (fs.map var).Nodup) (s : Store S) :
    (stores fs s).map (held fs) = (tuples (fs.map offered)).map .list := by
  have h := congrArg (List.map fun values => Term.list (values.map (Option.getD · default)))
    (bindings_stores hvars s)
  simp only [List.map_map, Function.comp_def, Option.getD_some, List.map_id'] at h
  exact h

end Factor

/-! ### Copies of tuples -/

theorem Theory.resolve?_of_deref_eq {s : Store S} {t u : S.Term} (h : s.deref t = s.deref u)
    (n : Nat) : T.resolve? s n t = T.resolve? s n u := by
  cases n with
  | zero => rfl
  | succ n => rw [resolve?, resolve?, h]

/-- A variable that holds a ground term is copied as that term. -/
theorem Theory.resolve?_of_binding {s : Store S} {v : Var} {value : S.Term}
    (hcell : s.isCell v = false) (hbinding : s.binding v = some value) (hvalue : value.Ground)
    (n : Nat) : T.resolve? s n (.var v) = T.resolve? s n value := by
  refine resolve?_of_deref_eq ?_ n
  rw [Store.deref_of_binding hcell hbinding hvalue.var?_eq_none,
    Store.deref_of_var?_eq_none hvalue.var?_eq_none]

namespace Factor

variable {f : Factor S} {fs : List (Factor S)} {s s' : Store S}

variable (T) in
/-- Where each variable holds one of its values, the copy of the variables is what
they hold. -/
theorem exists_resolves (fs : List (Factor S)) (hvalues : ∀ f ∈ fs, ∀ v ∈ f.values, v.Ground) :
    ∃ n, ∀ s : Store S, (∀ f ∈ fs, s.isCell f.var = false ∧
        ∃ value ∈ f.values, s.binding f.var = some value) →
      ∀ i, (T.resolve? s n (.list (fs.map fun f => .var f.var))).run i = some (held fs s, i) := by
  have hmono : ∀ n n' a, n ≤ n' →
      (∀ s : Store S, s.Settled a → ∀ i, (T.resolve? s n a).run i = some (a, i)) →
      ∀ s : Store S, s.Settled a → ∀ i, (T.resolve? s n' a).run i = some (a, i) :=
    fun n n' a hn h s hs i => T.resolve?_mono s hn (h s hs i)
  have hself : ∀ a ∈ fs.flatMap values, ∃ n, ∀ s : Store S, s.Settled a →
      ∀ i, (T.resolve? s n a).run i = some (a, i) := fun a _ => T.exists_resolve?_self a
  obtain ⟨n, hn⟩ := exists_bound hmono hself
  refine ⟨n + 1, fun s hs i => ?_⟩
  have hitem : ∀ f ∈ fs, ∀ i, (T.resolve? s n (.var f.var)).run i =
      some ((s.binding f.var).getD default, i) := by
    intro f hf i
    obtain ⟨hcell, value, hvalue, hbinding⟩ := hs f hf
    have hground := hvalues f hf value hvalue
    rw [Theory.resolve?_of_binding hcell hbinding hground, hbinding]
    exact hn value (List.mem_flatMap.mpr ⟨f, hf, hvalue⟩) s (hground.settled s) i
  exact Theory.resolve?_list hitem i

end Factor

/-! ### Lists of stores -/

namespace Solutions

/-- The given stores, and no more. -/
def ofList : List (Store S) → Solutions S
  | [] => nil
  | s :: xs => cons s (ofList xs)

theorem ofList_append (xs ys : List (Store S)) :
    ofList (xs ++ ys) = (ofList xs).append (ofList ys) := by
  induction xs with
  | nil => rfl
  | cons s xs ih => exact congrArg (cons s) ih

theorem first_ofList (xs : List (Store S)) : (ofList xs).first = ofList (xs.take 1) := by
  cases xs <;> rfl

theorem all?_ofList (xs : List (Store S)) : (ofList xs).all? = some xs := by
  induction xs with
  | nil => rfl
  | cons s xs ih => rw [ofList, all?, ih]; rfl

theorem outcome_ofList (xs : List (Store S)) (s : Store S) :
    (ofList xs).outcome s = some (if xs = [] then .exit else .success, s) := by
  cases xs <;> rfl

/-- The alternatives of a frame that goes through a list. -/
theorem alternatives_eq_ofList {α : Type} {X : α → List (Store S)} {as : List α} {n i : Nat}
    (hi : i ≤ as.length) (hn : as.length < i + n) :
    alternatives (fun i => (as[i]?).map fun a => ofList (X a)) n i =
      ofList ((as.drop i).flatMap X) := by
  induction n generalizing i with
  | zero => omega
  | succ n ih =>
    rw [alternatives]
    -- The frame finds no value behind the last one, and stops there.
    by_cases hlast : i = as.length
    · subst hlast
      simp only [List.getElem?_eq_none (Nat.le_refl _), Option.map_none, List.drop_length]
      rfl
    · have hlt : i < as.length := by omega
      rw [List.drop_eq_getElem_cons hlt, List.flatMap_cons, ofList_append,
        ← ih (i := i + 1) (by omega) (by omega)]
      simp only [List.getElem?_eq_getElem hlt, Option.map_some]

/-- Going on from each store of a finite list in turn. -/
theorem Delivers.flatMap {xs : List (Store S)} {f : Store S → List (Store S)} {J J' : Nat}
    {next next' : Continuation S} {o : Machine S} {c : Configuration S}
    (h : (ofList xs).Delivers T 0 k J next' 0 o c)
    (hf : ∀ s ∈ xs, ∀ m : Machine S, m.world.store ≈ s →
      (ofList (f s)).Delivers T 0 k J' next 0 m ⟨.proceed next', m⟩) :
    (ofList (xs.flatMap f)).Delivers T 0 k (xs.length * (J + J') + J) next 0 o c := by
  induction xs generalizing o c with
  | nil => exact Delivers.mono h (by omega) (Nat.le_refl _)
  | cons s xs ih =>
    rw [List.forall_mem_cons] at hf
    obtain ⟨j, m, hj, hreaches, hm, hs, hrest⟩ := h
    have hfirst := hf.1 m hs
    -- From where the first store is delivered, its own list comes first and the others after it.
    have hlist : (ofList (f s ++ xs.flatMap f)).Delivers T 0 k
        (J' + (xs.length * (J + J') + J)) next 0 o ⟨.proceed next', m⟩ := by
      rw [ofList_append]
      refine hfirst.append (Nat.zero_le k) hm fun m' hframes hscope => ?_
      exact ih (Delivers.mono (hrest m' hframes hscope) (Nat.le_refl _) (Nat.zero_le _)) hf.2
    refine (hlist.of_reaches (Nat.zero_le k) hreaches).mono ?_ (Nat.zero_le _)
    rw [List.length_cons, Nat.succ_mul]
    omega

end Solutions

/-! ### Drawing values -/

/-- Filling the slot of a variable that is not bound leads to a scope that can go
back. -/
theorem Scope.continues_bound {c : Scope S} {v : Var} {value : S.Term}
    (hv : c.world.store.isBound v = false) (hvalue : (c.world.store.deref value).var? ≠ some v) :
    c.Continues (c.bound v value) := by
  rw [continues_iff_throughout]
  have hextends : c.Extends (c.bound v value) :=
    extends_record_set c v (some value) (Setoid.refl _)
  exact hextends.throughout Store.order_chainsEnd (Nat.le_refl _)
    (Store.order_chainsEnd.set hv hvalue)

section Draw

variable {f : Factor S} {s : Store S} {m : Machine S} {value : S.Term} {next : Continuation S}

/-- The machine after giving a variable a value. -/
def Machine.bound (m : Machine S) (v : Var) (value : S.Term) : Machine S :=
  (m.withScope (m.scope.bound v value)).counted .bindings
    ((m.scope.bound v value).trail.length - m.engine.trail.length)

/-- A variable that is not bound takes a term that is no variable if its guard, if there is
one, says so, and nothing has changed otherwise. -/
theorem unify_of_guard {c : Scope S} {v : Var} {b : Bool}
    (hfree : c.world.store.isBound v = false) (hvalue : value.var? = none)
    (hguard : c.world.store.guard? v = none ∧ b = true ∨
      ∃ g, c.world.store.guard? v = some g ∧ T.admits g value = .done b) (n : Nat) :
    GoalSearch.unify T (n + 2) (.var v) value c = .ok b (if b then c.bound v value else c) := by
  have hderef : c.world.store.deref value = value := Store.deref_of_var?_eq_none hvalue
  have hapart : c.world.store.Apart v value :=
    ⟨hfree, Store.step?_of_var?_eq_none hvalue, fun heq => by rw [heq] at hvalue; cases hvalue⟩
  -- Both consultations are about the same value, and their answer goes by it alone.
  have hadmits : ∀ d : Scope S, d.world.store = c.world.store →
      Scope.admits T (n + 1) (GoalSearch.unify T (n + 1)) v value d = .ok b d := by
    intro d hd
    rw [Scope.admits, bind_ok (Scope.store_apply d), hd]
    rcases hguard with ⟨hnone, rfl⟩ | ⟨g, hg, hdone⟩
    · rw [hnone]
      rfl
    · rw [hg]
      show Scope.aside ((T.admits g value).exec T (n + 1) _) d = _
      rw [hdone]
      rfl
  have hbind : Scope.bind T (n + 1) (GoalSearch.unify T (n + 1)) v value c =
      .ok b (if b then c.bound v value else c) := by
    cases b with
    | false => exact Scope.bind_refused (hadmits c rfl)
    | true => exact Scope.bind_admitted (hadmits c rfl) hapart.checks (hadmits (c.saved v) rfl)
  have hvar : c.world.store.deref (.var v) = .var v :=
    Store.deref_of_step?_eq_none (Store.step?_of_not_isBound hfree)
  rw [GoalSearch.unify, unifyStep, bind_ok (Scope.store_apply c), hvar, hderef]
  rw [(hapart.identical? n).1, ofOption, bind_ok (pure_apply false c), if_neg (by simp)]
  cases value with
  | var w => cases hvalue
  | _ => exact hbind

/-- An unrestricted variable that is not bound takes a term that is no variable, whatever
the guards of others do. -/
theorem Machine.unify_of_unbound {v : Var} (hunbound : m.world.store.isUnbound v = true)
    (hfree : m.world.store.isRestricted v = false) (hvalue : value.var? = none) (n : Nat) :
    Machine.unify T (n + 2) (.var v) value m = .ok true (m.bound v value) := by
  have hguard : m.world.store.guard? v = none := by
    simpa [Store.isRestricted] using hfree
  have hunify := unify_of_guard (T := T) (c := m.scope) (Store.isBound_of_isUnbound hunbound)
    hvalue (.inl ⟨hguard, rfl⟩) n
  rw [Machine.unify_apply, hunify]
  rfl

/-- The variable of a factor can be given a term that is no variable, and be freed again. -/
theorem Factor.Open.stays_bound (h : f.Open m.world.store) (hvalue : value.var? = none) :
    m.Stays Scope.Continues (m.bound f.var value) := by
  have hbound := Store.isBound_of_isUnbound h.unbound
  have hapart : (m.world.store.deref value).var? ≠ some f.var := by
    rw [Store.deref_of_var?_eq_none hvalue, hvalue]
    simp
  exact ⟨rfl, rfl, Scope.continues_bound hbound hapart⟩

/-- The candidate that gives a term the value drawn at a position. -/
def Goal.candidate (target : S.Term) (draw : Nat → Quiet S (Option S.Term)) (i : Nat) :
    Quiet S (Option (Program S (Goal S) .verdict)) :=
  (draw i).bind fun
    | some value => .done (some (.unifies target value))
    | none => .done none

/-- A call of a step that draws values pushes the frame on which they wait. -/
theorem Machine.call_member {fuel : Nat} {run : Runner S} (target : S.Term)
    (draw : Nat → Quiet S (Option S.Term)) (next : Continuation S) (m : Machine S) :
    call T fuel run (.member target draw) next m =
      .ok .retry ((m.counted .calls 1).pushed m.engine.trail.length
        (.candidates (Goal.candidate target draw) 0 (.verdict true) next)) := by
  refine (bind_ok (count_apply m .calls)).trans ((bind_ok (trailLength_apply _)).trans ?_)
  exact (bind_ok (a := Goal.candidate target draw) rfl).trans (bind_ok (push_apply _ _ _))

/-- A retry that draws a value tries it on the frame for the next one. -/
theorem Machine.retryActivation_of_drawn
    {draw : Nat → Quiet S (Option (Program S (Goal S) .verdict))} {i mark : Nat}
    {fs : List (Frame S)} {m₁ : Machine S} {v : Var} {n : Nat}
    (hdraw : quietly T (n + 2) (draw i) m = .ok (some (.unifies (.var v) value)) m₁)
    (hframes : m₁.engine.frames = ⟨.candidates draw i (.verdict true) next, mark⟩ :: fs)
    (hunbound : m₁.world.store.isUnbound v = true)
    (hfree : m₁.world.store.isRestricted v = false) (hvalue : value.var? = none) :
    retryActivation T (n + 2) (run T (n + 2)) (fs.length + 1)
        (.candidates draw i (.verdict true) next) m =
      .ok (.task (.proceed next))
        ((m₁.withFrames (⟨.candidates draw (i + 1) (.verdict true) next, mark⟩ :: fs)).bound
          v value) := by
  let m₂ := m₁.withFrames (⟨.candidates draw (i + 1) (.verdict true) next, mark⟩ :: fs)
  have hunify := unify_of_unbound (T := T) (m := m₂) hunbound hfree hvalue n
  rw [retryActivation, bind_ok hdraw]
  refine (bind_ok (updateAt_apply m₁ hframes rfl _)).trans ?_
  exact (bind_ok (bind_ok hunify)).trans rfl

/-- The candidates that draw the values of a factor. -/
def Factor.draw (f : Factor S) (i : Nat) : Quiet S (Option (Program S (Goal S) .verdict)) :=
  pure ((f.values[i]?).map fun value => .unifies (.var f.var) value)

theorem Factor.candidate_eq_draw (f : Factor S) :
    Goal.candidate (.var f.var) (fun i => pure f.values[i]?) = f.draw := by
  funext i
  show Quiet.bind (.done f.values[i]?) _ = f.draw i
  cases hvalue : f.values[i]? with
  | none => simp only [draw, hvalue]; rfl
  | some value => simp only [draw, hvalue]; rfl

theorem Factor.call_memberOf {fuel : Nat} {run : Runner S} (f : Factor S) (next : Continuation S)
    (m : Machine S) :
    call T fuel run (.memberOf (.var f.var) f.values) next m =
      .ok .retry ((m.counted .calls 1).pushed m.engine.trail.length
        (.candidates f.draw 0 (.verdict true) next)) := by
  rw [← f.candidate_eq_draw]
  exact Machine.call_member _ _ next m

variable (T k f) in
/-- A retry of a frame for `act i` gives the variable of a factor the value at
position `i`, and goes on with `t`.  Where there is no value it removes the frame. -/
structure Factor.Draws (act : Nat → Activation S) (t : Task S) : Prop where
  value : ∀ {i mark : Nat} {fs : List (Frame S)} {value : S.Term} {m : Machine S},
    m.engine.frames = ⟨act i, mark⟩ :: fs → f.values[i]? = some value → f.Open m.world.store →
    ∃ m', retryActivation T k (run T k) (fs.length + 1) (act i) m = .ok (.task t) m' ∧
      (m.withFrames (⟨act (i + 1), mark⟩ :: fs)).Stays Scope.Continues m' ∧
      m'.world.store = m.world.store.set f.var (some value)
  last : ∀ {i mark : Nat} {fs : List (Frame S)} {m : Machine S},
    m.engine.frames = ⟨act i, mark⟩ :: fs → f.values[i]? = none →
    retryActivation T k (run T k) (fs.length + 1) (act i) m =
      .ok (.task .backtrack) (m.popped ⟨act i, mark⟩ fs)

theorem Factor.draws_candidates (hvalues : ∀ v ∈ f.values, v.var? = none) (hk : 2 ≤ k)
    (next : Continuation S) :
    f.Draws T k (.candidates f.draw · (.verdict true) next) (.proceed next) where
  value := by
    intro i mark fs value m hm hvalue hopen
    obtain ⟨n, rfl⟩ : ∃ n, k = n + 2 := ⟨k - 2, by omega⟩
    have hdraw : quietly T (n + 2) (f.draw i) m = .ok (some (.unifies (.var f.var) value)) m := by
      rw [draw, hvalue]
      rfl
    -- the frame has moved on before the value is tried
    let fs' : List (Frame S) := ⟨.candidates f.draw (i + 1) (.verdict true) next, mark⟩ :: fs
    have hopen' : f.Open (m.withFrames fs').world.store := hopen
    have hterm := hvalues value (List.mem_of_getElem? hvalue)
    exact ⟨_, Machine.retryActivation_of_drawn hdraw hm hopen.unbound hopen.unrestricted hterm,
      hopen'.stays_bound hterm, rfl⟩
  last := by
    intro i mark fs m hm hvalue
    have hdraw : quietly T k (f.draw i) m = .ok none m := by
      rw [draw, hvalue]
      rfl
    rw [retryActivation, bind_ok hdraw]
    exact bind_ok (exhausted_apply hm)

/-- A frame that draws the values of a factor delivers what the engine delivers from
each value. -/
theorem Factor.Draws.delivers {act : Nat → Activation S} {t : Task S} (h : f.Draws T k act t)
    (hopen : f.Open s) {J : Nat} {X : S.Term → List (Store S)}
    (hX : ∀ value ∈ f.values, ∀ m' : Machine S, m'.world.store ≈ s.set f.var (some value) →
      (ofList (X value)).Delivers T 0 k J next 0 m' ⟨t, m'⟩)
    (rest : List S.Term) {i : Nat} (hrest : f.values.drop i = rest) {o : Machine S}
    (ho : o.world.store ≈ s) (hm : o.OnFrame s (act i) m) :
    (ofList (rest.flatMap X)).Delivers T 0 k (rest.length * (J + 2) + 1) next 0 o ⟨.retry, m⟩ := by
  induction rest generalizing i o m with
  | nil =>
    have hnone : f.values[i]? = none := by
      rw [List.getElem?_eq_none_iff]
      exact List.drop_eq_nil_iff.mp hrest
    have hretry : nil.Delivers T 0 k 1 next 1 o ⟨.retry, m⟩ := by
      refine hm.of_retry (Nat.zero_le k) fun m' _ hm' => ?_
      exact .inl ⟨_, _, _, h.last hm'.frames hnone, rfl, delivers_nil hm'.popped⟩
    exact Delivers.mono hretry (by omega) (Nat.zero_le _)
  | cons value rest ih =>
    have hsome : f.values[i]? = some value := by
      rw [← List.head?_drop, hrest]
      rfl
    let fs : List (Frame S) := ⟨act (i + 1), o.engine.trail.length⟩ :: o.engine.frames
    have hretry : (ofList (X value)).Delivers T 0 k (J + 1) next 1 (m.withFrames fs)
        ⟨.retry, m⟩ := by
      -- The retry takes the slots back to `s`, and the next value is bound there.
      refine hm.of_retry (Nat.zero_le k) fun m' hstays hm' => ?_
      obtain ⟨m₁, hexec, hstays₁, hstore⟩ :=
        h.value hm'.frames hsome (hopen.congr (Setoid.symm hm'.store))
      refine .inl ⟨_, _, m₁, hexec, rfl, ?_⟩
      refine Delivers.of_stays ((hstays.withFrames fs).trans hstays₁) ?_
      refine hX value (List.mem_of_getElem? hsome) m₁ ?_
      rw [hstore]
      exact Store.set_congr hm'.store _ _
    have hfirst : DeliversAt T 0 k (J + 1) 0 next (some (ofList (X value))) o (act (i + 1)) m :=
      Delivers.mono hretry (Nat.le_refl _) (Nat.zero_le _)
    have hall := hfirst.append (Nat.zero_le k) ho hm fun m' hm' =>
      ih (by rw [← List.drop_drop, hrest]; rfl) ho hm'
    rw [List.flatMap_cons, ofList_append]
    refine Delivers.mono hall ?_ (Nat.le_refl _)
    rw [List.length_cons, Nat.succ_mul]
    omega

/-- Calling the goal of a factor delivers the stores in which the variable has
taken the values that are offered. -/
theorem Factor.Open.delivers_goal (hopen : f.Open s) (hvalues : ∀ v ∈ f.values, v.var? = none)
    (hk : 2 ≤ k) (hm : m.world.store ≈ s) (next : Continuation S) :
    (ofList (f.offered.map fun value => s.set f.var (some value))).Delivers T 0 k
      (f.values.length * 2 + 4) next 0 m ⟨.call f.goal next, m⟩ := by
  have hmember : ∀ (m : Machine S) next, m.world.store ≈ s →
      (ofList (f.values.map fun value => s.set f.var (some value))).Delivers T 0 k
        (f.values.length * 2 + 2) next 0 m ⟨.call (.memberOf (.var f.var) f.values) next, m⟩ := by
    intro m next hm
    have hframe := (stays_counted m .calls 1).onFrame hm (.candidates f.draw 0 (.verdict true) next)
    have hone : ∀ value ∈ f.values, ∀ m' : Machine S, m'.world.store ≈ s.set f.var (some value) →
        (ofList [s.set f.var (some value)]).Delivers T 0 k 0 next 0 m' ⟨.proceed next, m'⟩ :=
      fun _ _ _ hm' => delivers_one (stays_of_eq rfl rfl rfl rfl) hm'
    have hrest := (draws_candidates hvalues hk next).delivers hopen hone f.values rfl hm hframe
    rw [← List.map_eq_flatMap] at hrest
    exact (hrest.of_reaches (Nat.zero_le k) (.single (bind_ok (f.call_memberOf next m)))).mono
      (by omega) (Nat.zero_le _)
  cases hcommitted : f.committed with
  | false =>
    have h := hmember m next hm
    rw [Factor.goal, Factor.offered, hcommitted, if_neg (by simp), if_neg (by simp)]
    exact Delivers.mono h (by omega) (Nat.le_refl _)
  | true =>
    let m' := (m.counted .calls 1).stepped
    have hstep : step T k (run T k) (.call (.once (.memberOf (.var f.var) f.values)) next) m =
        .ok (.task (.call (.memberOf (.var f.var) f.values) (.commit m'.engine.depth next)))
          m' := by
      refine bind_ok ((bind_ok (count_apply m .calls)).trans ?_)
      exact (bind_ok (enterStep_apply _)).trans (bind_ok (depth_apply _))
    have hstays : m.Stays Scope.Continues m' := stays_of_eq rfl rfl rfl rfl
    -- The commit keeps the first store that is delivered, and drops the frame with the others.
    have h := ((hmember m' (.commit m'.engine.depth next) hm).first (Nat.zero_le k)).of_stays hstays
    rw [first_ofList, ← List.map_take] at h
    rw [Factor.goal, Factor.offered, hcommitted, if_pos rfl, if_pos rfl]
    exact (h.of_reaches (Nat.zero_le k) (.single hstep)).mono (by omega) (Nat.zero_le _)

end Draw

namespace Factor

variable {fs : List (Factor S)} {next : Continuation S}

/-- Goals of different factors in sequence deliver the stores of their product. -/
theorem exists_delivers_sequence (hvars : (fs.map var).Nodup)
    (hvalues : ∀ f ∈ fs, ∀ v ∈ f.values, v.var? = none) :
    ∃ J, ∀ k, J ≤ k → ∀ (m : Machine S) s next, m.world.store ≈ s → (∀ f ∈ fs, f.Open s) →
      (ofList (stores fs s)).Delivers T 0 k J next 0 m ⟨.sequence (fs.map goal) next, m⟩ := by
  induction fs with
  | nil => exact ⟨0, fun k _ m s next hm _ => delivers_one (stays_of_eq rfl rfl rfl rfl) hm⟩
  | cons f fs ih =>
    rw [List.map_cons, List.nodup_cons] at hvars
    rw [List.forall_mem_cons] at hvalues
    obtain ⟨J, hJ⟩ := ih hvars.2 hvalues.2
    let J₁ := f.values.length * 2 + 4
    refine ⟨f.offered.length * (J₁ + (J + 1)) + J₁ + J, fun k hk m s next hm hopen => ?_⟩
    rw [List.forall_mem_cons] at hopen
    have hk₂ : 2 ≤ k := by omega
    have hstores : stores (f :: fs) s =
        (f.offered.map fun value => s.set f.var (some value)).flatMap (stores fs) := by
      rw [stores, List.flatMap_map]
    cases fs with
    | nil =>
      have hgoal := hopen.1.delivers_goal (T := T) hvalues.1 hk₂ hm next
      have hlist : stores [f] s = f.offered.map fun value => s.set f.var (some value) := by
        rw [hstores]
        exact List.flatMap_singleton' _
      rw [hlist]
      exact Delivers.mono hgoal (by omega) (Nat.le_refl _)
    | cons f' fs =>
      let rest : Continuation S := .sequence ((f' :: fs).map goal) next
      have hgoal := hopen.1.delivers_goal (T := T) hvalues.1 hk₂ hm rest
      -- whatever the first variable has taken, the others go through all their values
      have hrest : ∀ s' ∈ f.offered.map fun value => s.set f.var (some value),
          ∀ m' : Machine S, m'.world.store ≈ s' →
          (ofList (stores (f' :: fs) s')).Delivers T 0 k (J + 1) next 0 m' ⟨.proceed rest, m'⟩ := by
        intro s' hs' m' hm'
        obtain ⟨value, -, rfl⟩ := List.mem_map.mp hs'
        have hopen' : ∀ g ∈ f' :: fs, g.Open (s.set f.var (some value)) := by
          intro g hg
          refine (hopen.2 g hg).set (fun heq => hvars.1 ?_) _
          rw [heq]
          exact List.mem_map_of_mem hg
        have hothers := hJ k (by omega) m' _ next hm' hopen'
        have hstep : step T k (run T k) (.proceed rest) m' =
            .ok (.task (.sequence ((f' :: fs).map goal) next)) m' := rfl
        exact (hothers.of_reaches (Nat.zero_le k) (.single hstep)).mono (Nat.le_refl _)
          (Nat.zero_le _)
      have hall := hgoal.flatMap hrest
      rw [List.length_map] at hall
      rw [hstores]
      exact Delivers.mono hall (Nat.le_add_right _ _) (Nat.le_refl _)

variable (T fs) in
/-- Calling a goal delivers the stores of the product, whatever comes after it. -/
def Delivered (g : Goal S) : Prop :=
  ∃ J, ∀ k, J ≤ k → ∀ (m : Machine S) s next, m.world.store ≈ s → (∀ f ∈ fs, f.Open s) →
    (ofList (stores fs s)).Delivers T 0 k J next 0 m ⟨.call g next, m⟩

/-- The conjunction of these goals delivers them as well, from within a sequence
of its own. -/
theorem delivered_conjunct (hvars : (fs.map var).Nodup)
    (hvalues : ∀ f ∈ fs, ∀ v ∈ f.values, v.var? = none) :
    Delivered T fs (.conjunct (fs.map goal)) := by
  obtain ⟨J, hJ⟩ := exists_delivers_sequence (T := T) hvars hvalues
  refine ⟨J + 1, fun k hk m s next hm hopen => ?_⟩
  have hsequence := hJ k (by omega) (m.counted .calls 1) s next hm hopen
  have hcounted := Delivers.of_stays (stays_counted m .calls 1) hsequence
  cases fs with
  | nil =>
    have hstep : step T k (run T k) (.call .succeed next) m =
        .ok (.task (.proceed next)) (m.counted .calls 1) := bind_ok (bind_ok (count_apply m .calls))
    exact (hcounted.of_reaches (Nat.zero_le k) (.single hstep)).mono (Nat.le_refl _)
      (Nat.zero_le _)
  | cons f fs =>
    cases fs with
    | nil => exact Delivers.mono (hJ k (by omega) m s next hm hopen) (Nat.le_succ J) (Nat.le_refl _)
    | cons f' fs =>
      have hstep : step T k (run T k) (.call (.sequence ((f :: f' :: fs).map goal)) next) m =
          .ok (.task (.sequence ((f :: f' :: fs).map goal) next)) (m.counted .calls 1) :=
        bind_ok (bind_ok (count_apply m .calls))
      exact (hcounted.of_reaches (Nat.zero_le k) (.single hstep)).mono (Nat.le_refl _)
        (Nat.zero_le _)

end Factor

/-! ### What runs find -/

namespace Factor

variable {fs : List (Factor S)}

theorem steady_goal (f : Factor S) : f.goal.Steady := by
  rw [goal]
  split
  · exact .once (Goal.steady_memberOf _ _)
  · exact Goal.steady_memberOf _ _

theorem steady_conjunct (fs : List (Factor S)) : (Goal.conjunct (fs.map goal)).Steady := by
  have hall : ∀ g ∈ fs.map goal, g.Steady := by
    intro g hg
    obtain ⟨f, -, rfl⟩ := List.mem_map.mp hg
    exact f.steady_goal
  cases fs with
  | nil => exact .succeed
  | cons f fs =>
    cases fs with
    | nil => exact f.steady_goal
    | cons f' fs => exact .sequence hall

end Factor

/-- If the copy of a template is known, it is kept as an answer. -/
theorem Machine.reaches_copied {m : Machine S} {t a : S.Term} {n k : Nat} (hn : n ≤ k)
    (ha : ∀ i, (T.resolve? m.world.store n t).run i = some (a, i)) (next : Continuation S) :
    ∃ m', Reaches T k 1 ⟨.proceed (.collect t next), m⟩ ⟨.proceed next, m'⟩ ∧
      m.Stays Scope.Continues (m'.withAnswers m.answers) ∧ m'.answers = a :: m.answers := by
  have hcopied : T.Copied k t m.world.store := by
    refine Theory.Copied.mono hn ?_
    rw [Theory.Copied, ha 0]
    rfl
  obtain ⟨b, m', hcollect, hcopy, hstays, hanswers⟩ := reaches_collected next hcopied
  rw [hcopy.eq_of_run ha] at hanswers
  exact ⟨m', hcollect, hstays, hanswers⟩

variable (T) in
/-- Calling a goal where the slots are `s` delivers these stores, whatever comes after
it. -/
def Goal.Lists (g : Goal S) (s : Store S) (xs : List (Store S)) : Prop :=
  ∃ J, ∀ k, J ≤ k → ∀ (m : Machine S) next, m.world.store ≈ s →
    (ofList xs).Delivers T 0 k J next 0 m ⟨.call g next, m⟩

namespace Goal.Lists

variable {m : Machine S} {g : Goal S} {t : S.Term} {xs : List (Store S)}

/-- If the copy of the template is known at each store that is delivered, a run for all
answers finds these copies, and is rolled back. -/
theorem exists_findAll (h : g.Lists T m.world.store xs) (hg : g.Steady) {f : Store S → S.Term}
    {N : Nat} (hf : ∀ s ∈ xs, ∀ s', s' ≈ s → ∀ i, (T.resolve? s' N t).run i = some (f s, i)) :
    ∃ k, ∀ n, k ≤ n → ∃ m', findAll T n g t m = .ok (xs.map f) m' ∧ m.RolledBack m' := by
  obtain ⟨J, hJ⟩ := h
  refine ⟨N + (xs.length * (J + 1 + 2) + (J + 1)) + 2 + 1, fun n hn => ?_⟩
  obtain ⟨k, rfl⟩ : ∃ k, n = k + 1 := ⟨n - 1, by omega⟩
  let c := m.searching.first (.sequence [g]) (.collect t .refuse)
  have hdeliver : (ofList xs).Delivers T 0 k (J + 1) (.collect t .refuse) 0 c.machine c := by
    have hstep : step T k (run T k) (.call (.sequence [g]) (.collect t .refuse)) c.machine =
        .ok (.task (.call g (.collect t .refuse))) (c.machine.counted .calls 1) :=
      bind_ok (bind_ok (count_apply _ .calls))
    have hcall := hJ k (by omega) (c.machine.counted .calls 1) (.collect t .refuse)
      (Setoid.refl _)
    have hcounted := Delivers.of_stays (stays_counted c.machine .calls 1) hcall
    exact (hcounted.of_reaches (Nat.zero_le k) (.single hstep)).mono (Nat.le_refl _)
      (Nat.zero_le _)
  have hkeep : ∀ s ∈ xs, ∀ m' : Machine S, c.machine.scope.Continues m'.scope →
      m'.world.store ≈ s →
      ∃ a m'', Reaches T k 1 ⟨.proceed (.collect t .refuse), m'⟩ ⟨.proceed .refuse, m''⟩ ∧
        a = f s ∧ m'.Stays Scope.Continues (m''.withAnswers m'.answers) ∧
        m''.answers = a :: m'.answers := by
    intro s hs m' _ hm'
    obtain ⟨m'', hcollect, hstays, hanswers⟩ :=
      reaches_copied (show N ≤ k by omega) (hf s hs _ hm') .refuse
    exact ⟨f s, m'', hcollect, rfl, hstays, hanswers⟩
  obtain ⟨as, j, m₁, has, hreaches, hj, hanswers, hstays⟩ :=
    hdeliver.collects (all?_ofList xs) hkeep
  -- The answers are copies of the template, and which copies they are is known.
  have has' : as = xs.map f := by
    rw [← List.forall₂_eq_eq_eq]
    exact List.forall₂_map_right_iff.mpr has.flip
  obtain ⟨l, rfl⟩ : ∃ l, k = j + (l + 2) := ⟨k - j - 2, by omega⟩
  obtain ⟨m₂, hm₂, hlast⟩ := drive_exhausted (T := T) (k := j + (l + 2)) (m := m₁) l hstays.frames
  have hdrive := (hreaches.drive (l + 2)).trans hm₂
  -- What the run delivers is undone before it ends, so nothing but the answers is left.
  have hlater : m.searching.scope.Extends m₂.scope := by
    have hstart : m.searching.scope.Extends c.machine.scope :=
      Scope.extends_of_same rfl (Setoid.refl _)
    have hundone : c.machine.scope.Continues (m₁.undone m.searching.engine.trail.length).scope :=
      hstays.scope.backtrack (Nat.le_refl _)
    exact hstart.trans (hundone.trans hlast.scope).later
  obtain ⟨m₃, hrun, hanswers₃, hback⟩ := run_of_drive_rolled_back hg.single (.all t) hdrive hlater
  have hfind := collecting_apply (m := m) (executeWith_apply hrun)
  have hreverse : m₃.answers.reverse = xs.map f := by
    rw [hanswers₃, hlast.answers, ← has']
    show m₁.answers.reverse = as
    rw [hanswers]
    exact (congrArg List.reverse (List.append_nil _)).trans (List.reverse_reverse as)
  exact ⟨_, hfind.trans (congrArg (EStateM.Result.ok · _) hreverse), hback.frames, hback.trail,
    hback.slots⟩

/-- A run to the first solution finds out whether there is a store, and is rolled back. -/
theorem exists_execute (h : g.Lists T m.world.store xs) (hg : g.Steady) :
    ∃ k, ∀ n, k ≤ n → ∃ m', execute T n g m = .ok (!xs.isEmpty) m' ∧ m.RolledBack m' := by
  obtain ⟨J, hJ⟩ := h
  refine ⟨J + 2 + 1, fun n hn => ?_⟩
  obtain ⟨k, rfl⟩ : ∃ k, n = k + 1 := ⟨n - 1, by omega⟩
  let m₀ := m.logged (.runStarted m.engine.depth m.engine.trail.length)
  let c := m₀.first g .finish
  have hdeliver := hJ k (by omega) c.machine .finish (Setoid.refl _)
  obtain ⟨m₁, hdrive, hscope⟩ := hdeliver.drive rfl (by omega) (outcome_ofList _ m.world.store)
  have hlater : m₀.scope.Extends m₁.scope := by
    have hstart : m₀.scope.Extends c.machine.scope := Scope.extends_of_same rfl (Setoid.refl _)
    exact hstart.trans hscope.later
  obtain ⟨m₂, hrun, -, hback⟩ := run_of_drive_rolled_back hg .finish hdrive hlater
  have hexecute := executeWith_apply (m := m) hrun
  have hverdict : decide ((if xs = [] then Status.exit else .success) = .success) =
      !xs.isEmpty := by
    cases xs <;> rfl
  rw [hverdict] at hexecute
  exact ⟨_, hexecute, hback.frames, hback.trail, hback.slots⟩

end Goal.Lists

namespace Factor

variable {fs : List (Factor S)} {m : Machine S} {g : Goal S}

theorem Delivered.lists (h : Delivered T fs g) {s : Store S} (hopen : ∀ f ∈ fs, f.Open s) :
    g.Lists T s (stores fs s) := by
  obtain ⟨J, hJ⟩ := h
  exact ⟨J, fun k hk m next hm => hJ k hk m s next hm hopen⟩

/-- A run for all answers, the variables being the template, collects the tuples. -/
theorem Delivered.exists_findAll_tuples (h : Delivered T fs g) (hg : g.Steady)
    (hvars : (fs.map var).Nodup) (hvalues : ∀ f ∈ fs, ∀ value ∈ f.values, value.Ground)
    (hopen : ∀ f ∈ fs, f.Open m.world.store) :
    ∃ k, ∀ n, k ≤ n → ∃ m', findAll T n g (.list (fs.map fun f => .var f.var)) m =
      .ok ((tuples (fs.map offered)).map .list) m' ∧ m.RolledBack m' := by
  obtain ⟨N, hN⟩ := exists_resolves T fs hvalues
  have hcopies : ∀ s ∈ stores fs m.world.store, ∀ s', s' ≈ s → ∀ i,
      (T.resolve? s' N (.list (fs.map fun f => .var f.var))).run i = some (held fs s, i) := by
    intro s hs s' hs' i
    have hheld : held fs s' = held fs s := by simp only [held, Store.binding_congr hs']
    rw [← hheld]
    refine hN s' (fun f hf => ?_) i
    rw [Store.isCell_congr hs', Store.binding_congr hs', isCell_of_mem_stores hs]
    exact ⟨(Store.isUnbound_eq_true.mp (hopen f hf).unbound).1,
      exists_binding_of_mem_stores hvars hs hf⟩
  rw [← held_stores hvars m.world.store]
  exact (h.lists hopen).exists_findAll hg hcopies

/-- A run to the first solution finds out whether there is a tuple, and is rolled
back. -/
theorem Delivered.exists_execute (h : Delivered T fs g) (hg : g.Steady)
    (hopen : ∀ f ∈ fs, f.Open m.world.store) :
    ∃ k, ∀ n, k ≤ n → ∃ m', execute T n g m = .ok (fs.all fun f => !f.values.isEmpty) m' ∧
      m.RolledBack m' := by
  have hverdict : (!(stores fs m.world.store).isEmpty) = fs.all fun f => !f.values.isEmpty := by
    rw [Bool.eq_iff_iff, List.all_eq_true, Bool.not_eq_true', ← Bool.not_eq_true,
      List.isEmpty_iff, stores_eq_nil_iff]
    simp
  rw [← hverdict]
  exact (h.lists hopen).exists_execute hg

end Factor

/-- The conjunction of goals that draw ground values for different open variables
finds the tuples of these values, in lexicographic order and as often as they
occur; a goal that commits to its first solution offers its first value only.  It
has a solution if and only if each goal has a value to offer.  Both runs leave the
stack, the trail and all slots as they were, and the variables open. -/
theorem Machine.enumerates_product (T : Theory S) {fs : List (Factor S)} {m : Machine S}
    (hvars : (fs.map Factor.var).Nodup) (hvalues : ∀ f ∈ fs, ∀ value ∈ f.values, value.Ground)
    (hopen : ∀ f ∈ fs, f.Open m.world.store) :
    ∃ k, ∀ n, k ≤ n →
      (∃ m', findAll T n (.conjunct (fs.map Factor.goal)) (.list (fs.map fun f => .var f.var)) m =
          .ok ((tuples (fs.map Factor.offered)).map .list) m' ∧
        m.RolledBack m' ∧ ∀ f ∈ fs, f.Open m'.world.store) ∧
      ∃ m', execute T n (.conjunct (fs.map Factor.goal)) m =
          .ok (fs.all fun f => !f.values.isEmpty) m' ∧
        m.RolledBack m' ∧ ∀ f ∈ fs, f.Open m'.world.store := by
  have hreopen : ∀ {m' : Machine S}, m.RolledBack m' → ∀ f ∈ fs, f.Open m'.world.store :=
    fun hback f hf => (hopen f hf).congr fun v => (hback.slots v).symm
  have hdelivered := Factor.delivered_conjunct (T := T) hvars fun f hf value hvalue =>
    (hvalues f hf value hvalue).var?_eq_none
  have hsteady := Factor.steady_conjunct fs
  obtain ⟨k, hk⟩ := hdelivered.exists_findAll_tuples hsteady hvars hvalues hopen
  obtain ⟨k', hk'⟩ := hdelivered.exists_execute hsteady hopen
  refine ⟨max k k', fun n hn => ⟨?_, ?_⟩⟩
  · obtain ⟨m', hfind, hback⟩ := hk n (Nat.le_trans (Nat.le_max_left _ _) hn)
    exact ⟨m', hfind, hback, hreopen hback⟩
  · obtain ⟨m', hexecute, hback⟩ := hk' n (Nat.le_trans (Nat.le_max_right _ _) hn)
    exact ⟨m', hexecute, hback, hreopen hback⟩

/-- Three variables: one value is offered twice, one goal commits, and one value is
a list. -/
def Bounds.factors : List (Factor Bounds.vocabulary) :=
  [⟨⟨1⟩, [.int 1, .int 1, .int 2], false⟩, ⟨⟨2⟩, [.int 4, .int 5], true⟩,
    ⟨⟨4⟩, [.list [.int 6], .atom "a"], false⟩]

/-- Six tuples are found in a machine that has been used before. -/
theorem Machine.enumerates_product_factors :
    (∀ f ∈ Bounds.factors, f.Open Bounds.used.world.store) ∧
      ∃ k m', findAll Bounds.theory k (.conjunct (Bounds.factors.map Factor.goal))
          (.list (Bounds.factors.map fun f => .var f.var)) Bounds.used =
        .ok [.list [.int 1, .int 4, .list [.int 6]], .list [.int 1, .int 4, .atom "a"],
          .list [.int 1, .int 4, .list [.int 6]], .list [.int 1, .int 4, .atom "a"],
          .list [.int 2, .int 4, .list [.int 6]], .list [.int 2, .int 4, .atom "a"]] m' ∧
        Bounds.used.RolledBack m' := by
  have hopen : ∀ f ∈ Bounds.factors, f.Open Bounds.used.world.store := by
    intro f hf
    simp only [Bounds.factors, List.mem_cons, List.not_mem_nil, or_false] at hf
    rcases hf with rfl | rfl | rfl
    · exact ⟨rfl, rfl⟩
    · exact ⟨rfl, rfl⟩
    · exact ⟨rfl, rfl⟩
  have hvalues : ∀ f ∈ Bounds.factors, ∀ value ∈ f.values, value.Ground := by
    simp only [Bounds.factors, List.forall_mem_cons]
    refine ⟨⟨.int 1, .int 1, .int 2, by simp⟩, ⟨.int 4, .int 5, by simp⟩,
      ⟨.list ?_, .atom "a", by simp⟩, by simp⟩
    rw [List.forall_mem_cons]
    exact ⟨.int 6, by simp⟩
  obtain ⟨k, hk⟩ := Machine.enumerates_product Bounds.theory (by decide) hvalues hopen
  obtain ⟨⟨m', hfind, hback, -⟩, -⟩ := hk k (Nat.le_refl k)
  exact ⟨hopen, k, m', hfind, hback⟩

end GoalSearch
