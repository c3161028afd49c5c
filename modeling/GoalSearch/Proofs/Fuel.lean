/-
Fuel is a bound and never an answer.

Everything that takes fuel ends with the same outcome if it is given more,
unless it ran out of fuel before.  In that case it goes on with more fuel from
what it has written so far.

* `Action.Writes` — a computation takes no row back that was written before;
* `Action.Below` — a computation that does the same as another one, or runs out
  of fuel before it has written more;
* `Store.identical?_mono`, `Theory.resolve?_mono`, `Theory.display?_mono` —
  answers persist as fuel grows;
* `unify_below`, `Program.exec_below`, `Machine.run_below` — outcomes persist as
  fuel grows.

Design notes: a step of a run is monotone in the runs nested in it as well, so
`Machine.run_below` is an induction on fuel with the runner as what grows.  That
a computation takes no row back is a part of being above another one, since a
sequence that runs out of fuel in its first part is compared with all that the
second part writes.
-/
import GoalSearch.Proofs.Hosts
import GoalSearch.Proofs.Rows

namespace GoalSearch

variable {S : Vocabulary} {α β : Type}

/-! ### Answers -/

theorem allPairs?_mono {f g : α → β → Option Bool}
    (h : ∀ a b r, f a b = some r → g a b = some r) :
    ∀ {as : List α} {bs : List β} {r : Bool},
      allPairs? f as bs = some r → allPairs? g as bs = some r
  | [], _, _, hr => by simpa [allPairs?] using hr
  | _ :: _, [], _, hr => by simpa [allPairs?] using hr
  | a :: as, b :: bs, r, hr => by
    rw [allPairs?] at hr ⊢
    cases hab : f a b with
    | none => rw [hab] at hr; cases hr
    | some x =>
      rw [hab] at hr
      rw [h a b x hab]
      cases x with
      | true => exact allPairs?_mono h hr
      | false => exact hr

theorem Store.identical?_mono (s : Store S) {n n' : Nat} (hn : n ≤ n') {a b : S.Term} {r : Bool}
    (h : s.identical? n a b = some r) : s.identical? n' a b = some r := by
  induction n generalizing n' a b r with
  | zero => cases h
  | succ n ih =>
    obtain ⟨n', rfl⟩ : ∃ m, n' = m + 1 := ⟨n' - 1, by omega⟩
    rw [identical?] at h ⊢
    generalize s.deref a = a' at *
    generalize s.deref b = b' at *
    cases a' with
    | list as =>
      cases b' with
      | list bs =>
        dsimp only at h ⊢
        split at h
        · next hlength =>
          rw [if_pos hlength]
          exact allPairs?_mono (fun _ _ _ => ih (by omega)) h
        · next hlength =>
          rw [if_neg hlength]
          exact h
      | _ => exact h
    | _ => cases b' <;> exact h

theorem mapM_option_mono {f g : α → Option β} {as : List α} {bs : List β}
    (h : ∀ a b, f a = some b → g a = some b) (hbs : as.mapM f = some bs) :
    as.mapM g = some bs := by
  induction as generalizing bs with
  | nil => simpa using hbs
  | cons a as ih =>
    simp only [List.mapM_cons, Option.pure_def, Option.bind_eq_bind,
      Option.bind_eq_some_iff] at hbs ⊢
    obtain ⟨b, hb, bs', hbs', hcons⟩ := hbs
    exact ⟨b, h a b hb, bs', ih hbs', hcons⟩

theorem mapM_stateT_mono {f g : α → StateT Nat Option β} {as : List α} {i : Nat}
    {r : List β × Nat} (h : ∀ a i r, (f a).run i = some r → (g a).run i = some r)
    (hr : (as.mapM f).run i = some r) : (as.mapM g).run i = some r := by
  induction as generalizing i r with
  | nil => simpa using hr
  | cons a as ih =>
    simp only [List.mapM_cons, StateT.run_bind, StateT.run_pure, Option.pure_def,
      Option.bind_eq_bind, Option.bind_eq_some_iff] at hr ⊢
    obtain ⟨b, hb, bs, hbs, hcons⟩ := hr
    exact ⟨b, h a i b hb, bs, ih hbs, hcons⟩

theorem Theory.resolve?_mono (T : Theory S) (s : Store S) {n n' : Nat} (hn : n ≤ n')
    {t : S.Term} {i : Nat} {r : S.Term × Nat} (h : (T.resolve? s n t).run i = some r) :
    (T.resolve? s n' t).run i = some r := by
  induction n generalizing n' t i r with
  | zero => cases h
  | succ n ih =>
    obtain ⟨n', rfl⟩ : ∃ m, n' = m + 1 := ⟨n' - 1, by omega⟩
    have hmap : ∀ {items : List S.Term} {i : Nat} {r : List S.Term × Nat},
        (items.mapM (T.resolve? s n)).run i = some r →
          (items.mapM (T.resolve? s n')).run i = some r :=
      mapM_stateT_mono fun _ _ _ => ih (by omega)
    rw [resolve?] at h ⊢
    generalize s.deref t = t' at *
    cases t' with
    | var v =>
      dsimp only at h ⊢
      split at h
      · exact ih (by omega) h
      · exact h
    | list items =>
      simp only [StateT.run_bind, Option.bind_eq_bind, Option.bind_eq_some_iff] at h ⊢
      obtain ⟨rs, hrs, hdone⟩ := h
      exact ⟨rs, hmap hrs, hdone⟩
    | struct object label args =>
      dsimp only at h ⊢
      split at h
      · next hcopies =>
        rw [if_pos hcopies]
        simp only [StateT.run_bind, Option.bind_eq_bind, Option.bind_eq_some_iff] at h ⊢
        obtain ⟨rs, hrs, hdone⟩ := h
        exact ⟨rs, hmap hrs, hdone⟩
      · next hcopies =>
        rw [if_neg hcopies]
        exact h
    | int i => exact h
    | atom name => exact h

theorem Theory.display?_mono (T : Theory S) (s : Store S) {n n' : Nat} (hn : n ≤ n')
    {t : S.Term} {r : String} (h : T.display? s n t = some r) : T.display? s n' t = some r := by
  induction n generalizing n' t r with
  | zero => cases h
  | succ n ih =>
    obtain ⟨n', rfl⟩ : ∃ m, n' = m + 1 := ⟨n' - 1, by omega⟩
    have hmap : ∀ {items : List S.Term} {rs : List String},
        items.mapM (T.display? s n) = some rs → items.mapM (T.display? s n') = some rs :=
      mapM_option_mono fun _ _ => ih (by omega)
    unfold display? at h ⊢
    cases t with
    | int i => exact h
    | atom name => exact h
    | list items =>
      simp only [Option.map_eq_some_iff] at h ⊢
      obtain ⟨rs, hrs, hdone⟩ := h
      exact ⟨rs, hmap hrs, hdone⟩
    | struct object label args =>
      simp only [Option.map_eq_some_iff] at h ⊢
      obtain ⟨rs, hrs, hdone⟩ := h
      exact ⟨rs, hmap hrs, hdone⟩
    | var v =>
      dsimp only at h ⊢
      -- A cell shows its content in brackets; any other variable shows the end of its chain, unless
      -- that is a cell.
      split at h
      · next hcell =>
        rw [if_pos hcell]
        split at h
        · next content hcontent =>
          simp only [Option.map_eq_some_iff] at h ⊢
          obtain ⟨rs, hrs, hdone⟩ := h
          exact ⟨rs, ih (by omega) hrs, hdone⟩
        · exact h
      · next hcell =>
        rw [if_neg hcell]
        split at h
        · next w hw =>
          split at h
          · next hcell' =>
            rw [if_pos hcell']
            exact ih (by omega) h
          · next hcell' =>
            rw [if_neg hcell']
            exact h
        · exact ih (by omega) h

/-! ### Outcomes -/

namespace Action

variable {σ τ : Type} [Logged σ] [Logged τ]

/-- From the states `s` and `t`, `x` does what `y` does or runs out of fuel, with
no row that `y` does not write as well. -/
def NoFurther (x : Action σ α) (s : σ) (y : Action σ α) (t : σ) : Prop :=
  (∃ u, x s = .error .outOfFuel u ∧ Logged.rows u <:+ Logged.rows (y.last t)) ∨ x s = y t

section NoFurther

variable {x y : Action σ α} {s t : σ}

theorem NoFurther.ok (h : NoFurther x s y t) {u : σ} {a : α} (hx : x s = .ok a u) :
    y t = .ok a u := by
  rcases h with ⟨u', hu, -⟩ | heq
  · rw [hx] at hu
    cases hu
  · rw [← heq, hx]

theorem NoFurther.fault (h : NoFurther x s y t) {u : σ} {f : Fault}
    (hx : x s = .error (.fault f) u) : y t = .error (.fault f) u := by
  rcases h with ⟨u', hu, -⟩ | heq
  · rw [hx] at hu
    cases hu
  · rw [← heq, hx]

theorem NoFurther.rows (h : NoFurther x s y t) :
    Logged.rows (x.last s) <:+ Logged.rows (y.last t) := by
  rcases h with ⟨u, hu, hrows⟩ | heq
  · rwa [last, hu]
  · rw [last, heq, last]

theorem NoFurther.congr (h : NoFurther x s y t) {y' : Action σ α} {t' : σ} (hy : y' t' = y t) :
    NoFurther x s y' t' := by
  rwa [NoFurther, last, hy]

end NoFurther

/-- From every state `x` gets no further than `y`, which takes no row back. -/
structure Below (x y : Action σ α) : Prop where
  outcome : ∀ s, NoFurther x s y s
  writes : y.Writes

variable {x x' : Action σ α} {f f' : α → Action σ β}

theorem Below.refl (hx : x.Writes) : Below x x := ⟨fun _ => .inr rfl, hx⟩

theorem below_pure (a : α) : Below (pure a : Action σ α) (pure a) := Below.refl (writes_pure a)

theorem below_outOfFuel (hx : x.Writes) : Below (throw .outOfFuel) x :=
  ⟨fun s => .inl ⟨s, rfl, hx s⟩, hx⟩

theorem Below.ok (h : Below x x') {s t : σ} {a : α} (hx : x s = .ok a t) : x' s = .ok a t :=
  (h.outcome s).ok hx

/-- Whatever the bounds, a computation that ends has the same value. -/
theorem Below.value_eq {x : Nat → Action σ α} (h : ∀ i j, i ≤ j → Below (x i) (x j)) {i j : Nat}
    {s t t' : σ} {a b : α} (ha : x i s = .ok a t) (hb : x j s = .ok b t') : a = b := by
  have ha' := (h i _ (Nat.le_max_left i j)).ok ha
  have hb' := (h j _ (Nat.le_max_right i j)).ok hb
  rw [ha'] at hb'
  cases hb'
  rfl

/-- A computation that stops for a fault within some bound ends within none. -/
theorem Below.ne_ok_of_fault {x : Nat → Action σ α} (h : ∀ i j, i ≤ j → Below (x i) (x j))
    {i : Nat} {s t : σ} {f : Fault} (hi : x i s = .error (.fault f) t) (j : Nat) (a : α) (u : σ) :
    x j s ≠ .ok a u := by
  intro hj
  have hfault := ((h i _ (Nat.le_max_left i j)).outcome s).fault hi
  have hok := (h j _ (Nat.le_max_right i j)).ok hj
  rw [hfault] at hok
  cases hok

theorem Below.bind (hx : Below x x') (hf : ∀ a, Below (f a) (f' a)) :
    Below (x >>= f) (x' >>= f') := by
  refine ⟨fun s => ?_, hx.writes.bind fun a => (hf a).writes⟩
  rcases hx.outcome s with ⟨t, ht, hrows⟩ | heq
  · refine .inl ⟨t, bind_error ht, ?_⟩
    cases hxs : x' s with
    | ok a t' =>
      rw [last_bind_of_ok hxs]
      rw [last, hxs] at hrows
      exact hrows.trans ((hf a).writes t')
    | error e t' => rwa [last_bind_of_error hxs]
  · unfold NoFurther
    cases hxs : x s with
    | ok a t =>
      rw [bind_ok hxs, bind_ok (heq ▸ hxs), last_bind_of_ok (heq ▸ hxs)]
      exact (hf a).outcome t
    | error e t =>
      rw [bind_error hxs, bind_error (heq ▸ hxs)]
      exact .inr rfl

theorem below_bind (hx : x.Writes) (hf : ∀ a, Below (f a) (f' a)) :
    Below (x >>= f) (x >>= f') :=
  Below.bind (Below.refl hx) hf

theorem below_ofOption {o o' : Option α} (h : ∀ a, o = some a → o' = some a) :
    Below (ofOption o : Action σ α) (ofOption o') := by
  cases o with
  | none => exact below_outOfFuel (writes_ofOption o')
  | some a =>
    rw [h a rfl]
    exact below_pure a

theorem Below.onPart {part : σ → τ} {update : τ → σ → σ} {y y' : Action τ α} (h : Below y y')
    (hpart : ∀ s, Logged.rows (part s) = Logged.rows s)
    (hupdate : ∀ t s, Logged.rows (update t s) = Logged.rows t) :
    Below (onPart part update y) (onPart part update y') := by
  refine ⟨fun s => ?_, h.writes.onPart hpart hupdate⟩
  rw [NoFurther, rows_last_onPart y' hupdate]
  simp only [Action.onPart]
  rcases h.outcome (part s) with ⟨t, ht, hrows⟩ | heq
  · rw [ht]
    exact .inl ⟨_, rfl, by rwa [hupdate]⟩
  · rw [heq]
    exact .inr rfl

theorem Below.allPairs {test test' : α → β → Action σ Bool}
    (h : ∀ a b, Below (test a b) (test' a b)) :
    ∀ as bs, Below (allPairs test as bs) (allPairs test' as bs)
  | a :: as, b :: bs => by
    refine Below.bind (h a b) fun r => ?_
    cases r with
    | true => exact Below.allPairs h as bs
    | false => exact below_pure _
  | [], _ => below_pure _
  | _ :: _, [] => below_pure _

theorem Below.rounds {round round' : Action σ (Option α)} (h : Below round round') :
    ∀ {n n' : Nat}, n ≤ n' → Below (rounds round n) (rounds round' n')
  | 0, _, _ => below_outOfFuel (writes_rounds h.writes _)
  | n + 1, 0, hn => absurd hn (Nat.not_succ_le_zero n)
  | n + 1, n' + 1, hn => by
    refine Below.bind h fun o => ?_
    cases o with
    | some a => exact below_pure _
    | none => exact Below.rounds h (Nat.le_of_succ_le_succ hn)

end Action

open GoalSearch.Action Machine

/-! ### Code -/

theorem Scope.below_onWorld {x x' : Action (World S) α} (h : Below x x') :
    Below (Scope.onWorld x) (Scope.onWorld x') :=
  h.onPart (fun _ => rfl) fun _ _ => rfl

theorem Machine.below_onWorld {x x' : Action (World S) α} (h : Below x x') :
    Below (onWorld x) (onWorld x') :=
  h.onPart (fun _ => rfl) fun _ _ => rfl

section Below

variable {T : Theory S} {fuel fuel' : Nat} (hfuel : fuel ≤ fuel')

include hfuel

theorem Ask.answer_below (q : Ask S) : Below (q.answer T fuel) (q.answer T fuel') := by
  cases q with
  | display t =>
    exact below_bind writes_get fun w =>
      below_ofOption fun _ => Theory.display?_mono T w.store hfuel
  | identical a b =>
    exact below_bind writes_get fun w => below_ofOption fun _ => w.store.identical?_mono hfuel
  | say row => exact Below.refl (World.writes_note _)
  | put s => exact Below.refl (writes_of_ok fun w => ⟨(), _, rfl, List.suffix_refl _⟩)
  | store | state => exact below_bind writes_get fun w => below_pure _

theorem Quiet.exec_below (x : Quiet S α) : Below (x.exec T fuel) (x.exec T fuel') := by
  induction x with
  | done a => exact below_pure a
  | ask q next ih => exact Below.bind (Ask.answer_below hfuel q) ih

theorem World.resolve_below (t : S.Term) :
    Below (World.resolve T fuel t) (World.resolve T fuel' t) := by
  refine ⟨fun w => ?_, World.writes_resolve fuel' t⟩
  rw [NoFurther, World.resolve_apply, World.resolve_apply]
  cases h : (T.resolve? w.store fuel t).run w.nextObject with
  | none => exact .inl ⟨w, rfl, World.writes_resolve fuel' t w⟩
  | some r => rw [T.resolve?_mono w.store hfuel h]; exact .inr rfl

section Unify

variable {unify unify' : Unifier S} (hunify : ∀ a b, Below (unify a b) (unify' a b))

include hunify

theorem Hook.exec_below (k : Hook S) :
    Below (k.exec T fuel unify) (k.exec T fuel' unify') := by
  induction k with
  | done b => exact below_pure b
  | ask q next ih => exact Below.bind (Scope.below_onWorld (Ask.answer_below hfuel q)) ih
  | unify a b next ih => exact Below.bind (hunify a b) ih

theorem Scope.admits_below (v : Var) (value : S.Term) :
    Below (Scope.admits T fuel unify v value) (Scope.admits T fuel' unify' v value) := by
  refine below_bind Scope.writes_store fun s => ?_
  cases s.guard? v with
  | none => exact below_pure true
  | some guard =>
    exact (Hook.exec_below hfuel hunify _).onPart (fun _ => rfl) fun _ _ => rfl

theorem Scope.assign_below (v : Var) (value : S.Term) :
    Below (Scope.assign T fuel unify v value) (Scope.assign T fuel' unify' v value) := by
  refine below_bind Scope.writes_store fun s => ?_
  split
  · exact below_pure _
  · split
    · exact below_pure _
    · refine Below.bind (Scope.admits_below hfuel hunify v value) fun b => ?_
      cases b with
      | true => exact below_bind (writes_of_ok fun c => ⟨(), _, rfl, List.suffix_refl _⟩) fun _ =>
          below_pure none
      | false => exact below_pure _

theorem Scope.bind_below (v : Var) (value : S.Term) :
    Below (Scope.bind T fuel unify v value) (Scope.bind T fuel' unify' v value) := by
  refine Below.bind (Scope.admits_below hfuel hunify v value) fun b => ?_
  cases b with
  | true =>
    refine below_bind (writes_of_ok fun c => ⟨(), _, rfl, List.suffix_refl _⟩) fun _ => ?_
    refine Below.bind (Scope.assign_below hfuel hunify v value) fun refusal => ?_
    cases refusal with
    | none => exact below_pure true
    | some r =>
      dsimp only
      split
      · exact Below.refl (writes_throw _)
      · exact Below.bind (Scope.below_onWorld (Below.refl (World.writes_note _))) fun _ =>
          below_pure false
  | false => exact below_pure false

theorem unifyStep_below (a b : S.Term) :
    Below (unifyStep T fuel unify a b) (unifyStep T fuel' unify' a b) := by
  refine below_bind Scope.writes_store fun s => ?_
  refine Below.bind (below_ofOption fun _ => s.identical?_mono hfuel) fun r => ?_
  have hbind := Scope.bind_below (T := T) hfuel hunify
  split
  · exact below_pure true
  · split
    · split
      · exact hbind _ _
      · exact hbind _ _
    · exact hbind _ _
    · exact hbind _ _
    · split
      · exact Below.allPairs hunify _ _
      · exact below_pure false
    · exact Hook.exec_below hfuel hunify _
    · exact Hook.exec_below hfuel hunify _
    · exact below_pure false

end Unify

omit hfuel in
theorem writes_unify (n : Nat) (a b : S.Term) : (unify T n a b).Writes := by
  induction n generalizing a b with
  | zero => exact writes_throw _
  | succ n ih => exact (unifyStep_below (Nat.le_refl n) (fun a b => Below.refl (ih a b)) a b).writes

omit hfuel in
/-- More fuel never changes the outcome of a unification. -/
theorem unify_below {n n' : Nat} (hn : n ≤ n') (a b : S.Term) :
    Below (unify T n a b) (unify T n' a b) := by
  induction n generalizing n' a b with
  | zero => exact below_outOfFuel (writes_unify n' a b)
  | succ n ih =>
    obtain ⟨n', rfl⟩ : ∃ m, n' = m + 1 := ⟨n' - 1, by omega⟩
    have hle : n ≤ n' := by omega
    exact unifyStep_below hle (ih hle) a b

/-! ### Runs -/

section Run

variable {run run' : Runner S} (hrun : ∀ g k, Below (run g k) (run' g k))

theorem Machine.unify_below (a b : S.Term) :
    Below (Machine.unify T fuel a b) (Machine.unify T fuel' a b) := by
  refine below_bind writes_trailLength fun before => ?_
  refine Below.bind ((GoalSearch.unify_below hfuel a b).onPart (fun _ => rfl) fun _ _ => rfl) ?_
  intro r
  refine Below.refl ?_
  exact writes_trailLength.bind fun _ => (writes_countBy _ _).bind fun _ => writes_pure _

theorem Machine.quietly_below (x : Quiet S α) :
    Below (Machine.quietly T fuel x) (Machine.quietly T fuel' x) :=
  below_onWorld (Quiet.exec_below hfuel x)

include hrun

omit hfuel in
theorem Machine.executeWith_below (g : Goal S) (k : Continuation S) :
    Below (Machine.executeWith run g k) (Machine.executeWith run' g k) := by
  refine below_bind writes_depth fun depth => below_bind writes_trailLength fun length => ?_
  refine below_bind (writes_note _) fun _ => Below.bind (hrun g k) fun _ => ?_
  exact below_bind (writes_note _) fun _ => below_pure _

omit hfuel in
theorem Machine.collecting_below (g : Goal S) (k : Continuation S) :
    Below (Machine.collecting (Machine.executeWith run g k))
      (Machine.collecting (Machine.executeWith run' g k)) := by
  refine below_bind writes_get fun m => ?_
  refine below_bind (writes_of_ok fun m => ⟨_, _, modify_apply _ m, List.suffix_refl _⟩) fun _ => ?_
  refine Below.bind (Machine.executeWith_below hrun g k) fun _ => ?_
  exact Below.refl (writes_of_ok fun m => ⟨_, _, modifyGet_apply _ m, List.suffix_refl _⟩)

omit hfuel in
theorem Machine.findFirstWith_below (g : Goal S) (t : S.Term) :
    Below (Machine.findFirstWith run g t) (Machine.findFirstWith run' g t) :=
  Below.bind (Machine.collecting_below hrun _ _) fun _ => below_pure _

theorem Program.exec_below {κ : Kind} :
    ∀ p : Program S (Goal S) κ, Below (p.exec T fuel run) (p.exec T fuel' run')
  | .verdict _ => below_pure _
  | .attempt _ => below_pure _
  | .candidates _ => below_pure _
  | .choices _ => below_pure _
  | .ask q next =>
    Below.bind (below_onWorld (Ask.answer_below hfuel q)) fun x => exec_below (next x)
  | .unify a b next => Below.bind (Machine.unify_below hfuel a b) fun r => exec_below (next r)
  | .execute g next =>
    Below.bind (Machine.executeWith_below hrun g _) fun r => exec_below (next r)
  | .findFirst _ _ next =>
    Below.bind (Machine.findFirstWith_below hrun _ _) fun r => exec_below (next r)
  | .findAll _ _ next =>
    Below.bind (Machine.collecting_below hrun _ _) fun r => exec_below (next r)
  | .view next => below_bind writes_get fun m => exec_below (next m.engine.view)
  | .resetStatistics next => below_bind (writes_modifyEngine _) fun _ => exec_below next
  | .renew next => below_bind (writes_modifyEngine _) fun _ => exec_below next
  | .loop round next =>
    Below.bind (Below.rounds (exec_below round) hfuel) fun r => exec_below (next r)

namespace Machine

theorem callPredicate_below (p : Predicate S (Goal S)) (next : Continuation S) :
    Below (callPredicate T fuel run p next) (callPredicate T fuel' run' p next) := by
  have hexec : ∀ {κ : Kind} (p : Program S (Goal S) κ), Below (p.exec T fuel run) _ :=
    fun p => Program.exec_below hfuel hrun p
  refine below_bind writes_trailLength fun mark => ?_
  cases p with
  | nondeterministic prepare validate =>
    refine Below.bind (hexec _) fun _ => below_bind (writes_push _ _) fun _ => below_pure _
  | semideterministic prepare validate =>
    refine below_bind (writes_push _ _) fun _ => Below.bind (hexec _) fun _ => ?_
    exact below_bind writes_retire fun _ => Below.bind (hexec _) fun _ => below_pure _
  | deterministic prepare =>
    refine below_bind (writes_push _ _) fun _ => Below.bind (hexec _) fun _ => ?_
    exact below_bind writes_retire fun _ => below_pure _

theorem call_below (g : Goal S) (next : Continuation S) :
    Below (call T fuel run g next) (call T fuel' run' g next) := by
  refine below_bind (writes_countBy _ _) fun _ => ?_
  cases g with
  | succeed | fail | sequence gs => exact below_pure _
  | call p => exact callPredicate_below hfuel hrun p next
  | disjunction gs => exact below_bind (writes_pushHere _) fun _ => below_pure _
  | once g =>
    exact below_bind writes_enterStep fun _ => below_bind writes_depth fun _ => below_pure _
  | notNot g =>
    refine below_bind (writes_pushHere _) fun _ => Below.bind (hrun g _) fun _ => ?_
    exact below_bind writes_retire fun _ => below_pure _
  | loop test body =>
    refine below_bind writes_enterStep fun _ => below_bind writes_get fun m => ?_
    refine Below.bind (quietly_below hfuel _) fun b => ?_
    cases b with
    | true =>
      refine below_bind writes_get fun m => ?_
      exact Below.bind (quietly_below hfuel _) fun _ => below_pure _
    | false => exact below_pure _
  | search handler =>
    refine Below.bind (quietly_below hfuel _) fun level =>
      below_bind (writes_pushHere _) fun _ => ?_
    refine Below.bind (Program.exec_below hfuel hrun level) fun (make : Option _) => ?_
    cases make with
    | none => exact below_bind writes_retire fun _ => below_pure _
    | some make =>
      exact below_bind writes_depth fun _ => below_bind (writes_updateAt _ _) fun _ => below_pure _

theorem retryActivation_below (height : Nat) (a : Activation S) :
    Below (retryActivation T fuel run height a) (retryActivation T fuel' run' height a) := by
  have hexec : ∀ {κ : Kind} (p : Program S (Goal S) κ), Below (p.exec T fuel run) _ :=
    fun p => Program.exec_below hfuel hrun p
  have hexhausted : Below (exhausted (S := S) >>= fun t => pure (Progress.task t)) _ :=
    below_bind writes_exhausted fun _ => below_pure _
  cases a with
  | sentinel => exact below_pure _
  | step => exact hexhausted
  | candidates draw drawn validate next =>
    refine Below.bind (quietly_below hfuel _) fun candidate => ?_
    cases candidate with
    | none => exact hexhausted
    | some candidate =>
      refine below_bind (writes_updateAt _ _) fun _ =>
        Below.bind (hexec candidate) fun applies => ?_
      cases applies with
      | true => exact Below.bind (hexec validate) fun _ => below_pure _
      | false => exact below_pure _
  | branches rest next =>
    cases rest with
    | nil => exact hexhausted
    | cons branch rest => exact below_bind (writes_updateAt _ _) fun _ => below_pure _
  | search handler choices next =>
    rcases choices with _ | ⟨make, made⟩
    · exact hexhausted
    · refine below_bind (writes_updateAt _ _) fun _ =>
        Below.bind (hexec _) fun (b : Option Bool) => ?_
      refine below_bind (writes_updateAt _ _) fun _ => ?_
      rcases b with _ | b
      · exact hexhausted
      · cases b <;> exact below_pure _

/-- More fuel, and runs with more fuel, never change what a step does. -/
theorem step_below (t : Task S) : Below (step T fuel run t) (step T fuel' run' t) := by
  cases t with
  | call g next => exact Below.bind (call_below hfuel hrun g next) fun _ => below_pure _
  | proceed next =>
    cases next with
    | finish | sequence | call => exact below_pure _
    | commit height next => exact below_bind (writes_commit _) fun _ => below_pure _
    | collect template next =>
      refine below_bind (writes_countBy _ _) fun _ => below_bind (writes_pushHere _) fun _ => ?_
      refine Below.bind (below_onWorld (World.resolve_below hfuel template)) fun _ => ?_
      refine below_bind (writes_of_ok fun m => ⟨_, _, modify_apply _ m, List.suffix_refl _⟩) ?_
      exact fun _ => below_bind writes_retire fun _ => below_pure _
    | refuse => exact below_bind (writes_countBy _ _) fun _ => below_pure _
  | retry =>
    refine below_bind (writes_countBy _ _) fun _ => below_bind writes_get fun m => ?_
    dsimp only
    split
    · exact below_pure _
    · exact below_bind (writes_trace rfl) fun _ => retryActivation_below hfuel hrun _ _
  | backtrack =>
    refine below_bind writes_get fun m => ?_
    dsimp only
    split
    · exact below_bind (writes_pure _) fun _ => below_pure _
    · exact below_bind (writes_undoTo _) fun _ => below_pure _

omit hfuel hrun in
theorem writes_drive (hrun : ∀ g k, (run g k).Writes) (t : Task S) (n : Nat) :
    (drive T fuel run t n).Writes := by
  induction n generalizing t with
  | zero => exact writes_throw _
  | succ n ih =>
    intro m
    have hbelow := step_below (T := T) (Nat.le_refl fuel) (fun g k => Below.refl (hrun g k)) t
    have hstep := hbelow.writes m
    rw [last] at hstep ⊢
    rw [drive_succ]
    cases hs : step T fuel run t m with
    | error e m' => rwa [hs] at hstep
    | ok p m' =>
      rw [hs] at hstep
      cases p with
      | task t' => exact hstep.trans (ih t' m')
      | ended status => exact hstep

theorem drive_below (t : Task S) {n n' : Nat} (hn : n ≤ n') :
    Below (drive T fuel run t n) (drive T fuel' run' t n') := by
  have hwrites : ∀ t n, (drive T fuel' run' t n).Writes := writes_drive fun g k => (hrun g k).writes
  refine ⟨fun m => ?_, hwrites t n'⟩
  induction n generalizing n' t m with
  | zero => exact .inl ⟨m, rfl, hwrites t n' m⟩
  | succ n ih =>
    obtain ⟨n', rfl⟩ : ∃ m, n' = m + 1 := ⟨n' - 1, by omega⟩
    rw [NoFurther, last, drive_succ, drive_succ]
    rcases (step_below (T := T) hfuel hrun t).outcome m with ⟨m', hm', hrows⟩ | heq
    · rw [hm']
      refine .inl ⟨m', rfl, ?_⟩
      -- the step that is completed writes at least as much, and so does all that follows
      rw [last] at hrows
      cases hs : step T fuel' run' t m with
      | error e m₁ => rwa [hs] at hrows
      | ok p m₁ =>
        rw [hs] at hrows
        cases p with
        | task t' => exact hrows.trans (hwrites t' n' m₁)
        | ended status => exact hrows
    · rw [heq]
      cases step T fuel' run' t m with
      | error e m' => exact .inr rfl
      | ok p m' =>
        cases p with
        | task t' => exact ih t' (by omega) m'
        | ended status => exact .inr rfl

theorem runWith_below (g : Goal S) (k : Continuation S) :
    Below (runWith T fuel run g k) (runWith T fuel' run' g k) := by
  refine below_bind writes_depth fun base => below_bind writes_trailLength fun mark => ?_
  refine below_bind (writes_push _ _) fun _ => ?_
  refine Below.bind (drive_below hfuel hrun _ hfuel) fun status => ?_
  refine below_bind (writes_unwind _) fun _ => below_bind writes_trailLength fun n => ?_
  refine Below.refl ?_
  split
  · exact writes_pure _
  · exact writes_throw _

end Machine

omit hfuel hrun in
theorem Machine.writes_run (n : Nat) (g : Goal S) (k : Continuation S) :
    (Machine.run T n g k).Writes := by
  induction n generalizing g k with
  | zero => exact writes_throw _
  | succ n ih => exact (runWith_below (Nat.le_refl n) (fun g k => Below.refl (ih g k)) g k).writes

omit hfuel hrun in
/-- More fuel never changes the outcome of a run. -/
theorem Machine.run_below {n n' : Nat} (hn : n ≤ n') (g : Goal S) (k : Continuation S) :
    Below (Machine.run T n g k) (Machine.run T n' g k) := by
  induction n generalizing n' g k with
  | zero => exact below_outOfFuel (writes_run n' g k)
  | succ n ih =>
    obtain ⟨n', rfl⟩ : ∃ m, n' = m + 1 := ⟨n' - 1, by omega⟩
    have hle : n ≤ n' := by omega
    exact runWith_below hle (ih hle) g k

end Run

end Below

end GoalSearch
