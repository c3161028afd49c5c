/-
Two computations in lockstep.

The same code may run twice, on machines that differ in what the code cannot
see.  Both computations then end with the same value or stop for the same
reason, and what they have written to the log since they began is the same.

* `Action.Parallel` — two computations that end or stop together;
* `Over` — lists that grew by the same elements;
* `Comparison` — what two runs that are compared may differ in;
* `Quiet.Heeds`, `Hook.Heeds`, `Theory.Heeds` — code that sees nothing else;
* `Comparison.unify_tandem` — unification in lockstep.

Design notes: the trails and the logs of the two sides need not have anything in
common, so they are compared with what they were at some start: `Over` says that
the same was put on top of both.  Slots may be alike without the stores having
made the same room.  Dereferencing cannot tell such stores apart as long as
chains end, and for this guards must bind nothing; neither is asked for where
the stores are equal.
-/
import GoalSearch.Proofs.Copies
import GoalSearch.Proofs.Slotwise

namespace GoalSearch

open GoalSearch.Action

variable {S : Vocabulary} {T : Theory S} {α β : Type}

/-! ### Computations that end or stop together -/

namespace Action

variable {σ τ γ δ : Type}

/-- Both computations end, with values and in states as `post` says, or both
stop, for the same reason and in states as `stop` says. -/
def Parallel (x : Action σ α) (s : σ) (y : Action τ β) (t : τ) (post : α → σ → β → τ → Prop)
    (stop : σ → τ → Prop) : Prop :=
  match x s, y t with
  | .ok a s', .ok b t' => post a s' b t'
  | .error e s', .error e' t' => e = e' ∧ stop s' t'
  | _, _ => False

section Parallel

variable {x : Action σ α} {y : Action τ β} {s s' : σ} {t t' : τ} {post : α → σ → β → τ → Prop}
  {stop : σ → τ → Prop}

theorem Parallel.mono {post' : α → σ → β → τ → Prop} (h : Parallel x s y t post stop)
    (hp : ∀ a s' b t', x s = .ok a s' → y t = .ok b t' → post a s' b t' → post' a s' b t') :
    Parallel x s y t post' stop := by
  unfold Parallel at *
  cases hx : x s <;> cases hy : y t <;> rw [hx, hy] at h
  · exact hp _ _ _ _ hx hy h
  · exact h
  · exact h
  · exact h

theorem Parallel.stops {stop' : σ → τ → Prop} (h : Parallel x s y t post stop)
    (hs : ∀ s' t', stop s' t' → stop' s' t') : Parallel x s y t post stop' := by
  unfold Parallel at *
  cases hx : x s <;> cases hy : y t <;> rw [hx, hy] at h
  · exact h
  · exact h
  · exact h
  · exact ⟨h.1, hs _ _ h.2⟩

/-- If one side ends, so does the other one. -/
theorem Parallel.ok {a : α} (h : Parallel x s y t post stop) (hx : x s = .ok a s') :
    ∃ b t', y t = .ok b t' ∧ post a s' b t' := by
  unfold Parallel at h
  rw [hx] at h
  cases hy : y t <;> rw [hy] at h
  · exact ⟨_, _, rfl, h⟩
  · exact h.elim

theorem Parallel.bind {f : α → Action σ γ} {g : β → Action τ δ} {post' : γ → σ → δ → τ → Prop}
    (h : Parallel x s y t post stop)
    (hf : ∀ a s' b t', x s = .ok a s' → y t = .ok b t' → post a s' b t' →
      Parallel (f a) s' (g b) t' post' stop) :
    Parallel (x >>= f) s (y >>= g) t post' stop := by
  unfold Parallel at *
  rw [bind_apply, bind_apply]
  cases hx : x s <;> cases hy : y t <;> rw [hx, hy] at h
  · exact hf _ _ _ _ hx hy h
  · exact False.elim h
  · exact False.elim h
  · exact h

theorem parallel_bind_of_ok {f : α → Action σ γ} {g : β → Action τ δ}
    {post' : γ → σ → δ → τ → Prop} {a : α} {b : β} (hx : x s = .ok a s') (hy : y t = .ok b t') :
    Parallel (x >>= f) s (y >>= g) t post' stop ↔ Parallel (f a) s' (g b) t' post' stop := by
  rw [Parallel, Parallel, bind_ok hx, bind_ok hy]

@[simp] theorem parallel_pure {a : α} {b : β} :
    Parallel (pure a) s (pure b) t post stop ↔ post a s b t := .rfl

theorem parallel_throw {e : Stop} (h : stop s t) :
    Parallel (throw e : Action σ α) s (throw e : Action τ β) t post stop :=
  ⟨rfl, h⟩

theorem parallel_onPart {σ' τ' : Type} {part : σ' → σ} {update : σ → σ' → σ'} {part' : τ' → τ}
    {update' : τ → τ' → τ'} {u : σ'} {v : τ'} {post' : α → σ' → β → τ' → Prop}
    {stop' : σ' → τ' → Prop} (h : Parallel x (part u) y (part' v) post stop)
    (hp : ∀ a s' b t', x (part u) = .ok a s' → post a s' b t' →
      post' a (update s' u) b (update' t' v))
    (hs : ∀ s' t', stop s' t' → stop' (update s' u) (update' t' v)) :
    Parallel (onPart part update x) u (onPart part' update' y) v post' stop' := by
  unfold Parallel at *
  rw [onPart, onPart]
  cases hx : x (part u) <;> cases hy : y (part' v) <;> rw [hx, hy] at h
  · exact hp _ _ _ _ hx h
  · exact h
  · exact h
  · exact ⟨h.1, hs _ _ h.2⟩

end Parallel

/-- The same code on both sides: from states in `P` it ends with the same value
in states in `P`, or stops in states in `Q`. -/
def Tandem (P Q : σ → σ → Prop) (x : Action σ α) : Prop :=
  ∀ s t, P s t → Parallel x s x t (fun a s' b t' => a = b ∧ P s' t') Q

section Tandem

variable {P Q : σ → σ → Prop} (hQ : ∀ s t, P s t → Q s t)

theorem Tandem.pure (a : α) : Tandem P Q (Pure.pure a : Action σ α) := fun _ _ h => ⟨rfl, h⟩

theorem Tandem.bind {x : Action σ α} {f : α → Action σ β} (hx : Tandem P Q x)
    (hf : ∀ a, Tandem P Q (f a)) : Tandem P Q (x >>= f) := by
  intro s t h
  refine (hx s t h).bind ?_
  rintro a s' _ t' - - ⟨rfl, h'⟩
  exact hf a s' t' h'

include hQ

theorem Tandem.throw (e : Stop) : Tandem P Q (MonadExcept.throw e : Action σ α) :=
  fun s t h => parallel_throw (hQ s t h)

theorem Tandem.ofOption (o : Option α) : Tandem P Q (ofOption o : Action σ α) := by
  cases o with
  | none => exact Tandem.throw hQ _
  | some a => exact Tandem.pure a

omit hQ

theorem Tandem.allPairs {test : α → β → Action σ Bool} (ht : ∀ a b, Tandem P Q (test a b)) :
    ∀ as bs, Tandem P Q (allPairs test as bs)
  | a :: as, b :: bs => by
    refine Tandem.bind (ht a b) fun r => ?_
    cases r with
    | true => exact Tandem.allPairs ht as bs
    | false => exact Tandem.pure _
  | [], _ => Tandem.pure _
  | _ :: _, [] => Tandem.pure _

theorem Tandem.rounds (hQ : ∀ s t, P s t → Q s t) {round : Action σ (Option α)}
    (hr : Tandem P Q round) : ∀ n, Tandem P Q (rounds round n)
  | 0 => Tandem.throw hQ _
  | n + 1 => by
    refine Tandem.bind hr fun o => ?_
    cases o with
    | some a => exact Tandem.pure a
    | none => exact Tandem.rounds hQ hr n

end Tandem

end Action

/-! ### Lists that grew by the same elements -/

/-- Two lists have the same elements on top of where they began. -/
def Over (base base' l l' : List α) : Prop := ∃ new, l = new ++ base ∧ l' = new ++ base'

section Over

variable {base base' l l' k k' : List α}

theorem Over.refl (l l' : List α) : Over l l' l l' := ⟨[], rfl, rfl⟩

theorem Over.cons (h : Over base base' l l') (a : α) : Over base base' (a :: l) (a :: l') := by
  obtain ⟨new, rfl, rfl⟩ := h
  exact ⟨a :: new, rfl, rfl⟩

theorem Over.trans (h : Over base base' l l') (h' : Over l l' k k') : Over base base' k k' := by
  obtain ⟨new, rfl, rfl⟩ := h
  obtain ⟨new', rfl, rfl⟩ := h'
  exact ⟨new' ++ new, by simp, by simp⟩

theorem Over.eq (h : Over base base' l l') (hbase : base = base') : l = l' := by
  obtain ⟨new, rfl, rfl⟩ := h
  rw [hbase]

theorem Over.length_add (h : Over base base' l l') :
    l.length + base'.length = l'.length + base.length := by
  obtain ⟨new, rfl, rfl⟩ := h
  simp only [List.length_append]
  omega

end Over

/-! ### What is compared -/

/-- What two runs that are compared may differ in, and what the code that runs
must therefore not tell apart. -/
structure Comparison (T : Theory S) where
  /-- Whether the engines agree in what code sees of them, up to the counters. -/
  exact : Prop
  /-- How the counters are related if the rest agrees. -/
  counters : Statistics → Statistics → Prop
  empty : counters .empty .empty
  add : ∀ {s s'} c n, counters s s' → counters (s.add c n) (s'.add c n)
  raise : ∀ {s s'} c n, counters s s' → counters (s.raise c n) (s'.raise c n)
  /-- Whether the stores may differ in the room they have made. -/
  loose : Prop
  inert : loose → T.GuardsInert
  /-- Views that code does not tell apart. -/
  views : View → View → Prop
  seen : ∀ {v v' : View}, (exact → v.depth = v'.depth ∧ v.trail = v'.trail ∧
    v.config = v'.config ∧ counters v.statistics v'.statistics) → views v v'
  /-- Stores that code does not tell apart. -/
  stores : Store S → Store S → Prop
  room : ∀ {s s' : Store S}, s = s' ∨ loose ∧ s ≈ s' ∧ s.ChainsEnd → stores s s'

namespace Comparison

variable (C : Comparison T)

/-- Stores that are not told apart. -/
def SameStore (s s' : Store S) : Prop := s = s' ∨ C.loose ∧ s ≈ s' ∧ s.ChainsEnd

/-- Worlds that are not told apart, after the same rows were written since the
worlds `l` and `r`. -/
structure Worlds (l r w w' : World S) : Prop where
  store : C.SameStore w.store w'.store
  state : w.state = w'.state
  objects : w.nextObject = w'.nextObject ∨ ∀ label, T.copies label = false
  rows : Over l.rows r.rows w.rows w'.rows

/-- Scopes that are not told apart, after the same slots were saved and the same
rows were written since the scopes `l` and `r`. -/
structure Scopes (l r c d : Scope S) : Prop where
  trail : Over l.trail.entries r.trail.entries c.trail.entries d.trail.entries
  world : C.Worlds l.world r.world c.world d.world

variable {C} {s s' : Store S}

theorem SameStore.equiv (h : C.SameStore s s') : s ≈ s' := by
  rcases h with rfl | ⟨-, h, -⟩
  · exact Setoid.refl _
  · exact h

theorem SameStore.binding (h : C.SameStore s s') (v : Var) : s.binding v = s'.binding v :=
  Store.binding_congr h.equiv v

theorem SameStore.deref (h : C.SameStore s s') (t : S.Term) : s.deref t = s'.deref t := by
  rcases h with rfl | ⟨-, h, hs⟩
  · rfl
  · exact Store.deref_congr hs h t

theorem SameStore.identical? (h : C.SameStore s s') (n : Nat) :
    s.identical? n = s'.identical? n := by
  rcases h with rfl | ⟨-, h, hs⟩
  · rfl
  · exact Store.identical?_congr hs h n

theorem SameStore.display? (h : C.SameStore s s') (n : Nat) : T.display? s n = T.display? s' n := by
  rcases h with rfl | ⟨-, h, hs⟩
  · rfl
  · exact T.display?_congr hs h n

theorem SameStore.resolve? (h : C.SameStore s s') (n : Nat) : T.resolve? s n = T.resolve? s' n := by
  rcases h with rfl | ⟨-, h, hs⟩
  · rfl
  · exact T.resolve?_congr hs h n

end Comparison

/-! ### Code that asks -/

/-- Code that asks for the store only where all stores in `Q` lead on alike. -/
inductive Quiet.Heeds (Q : Store S → Store S → Prop) : Quiet S α → Prop
  | done (a : α) : Heeds Q (.done a)
  | ask {q : Ask S} {next : q.Answer → Quiet S α} :
      q ≠ .store → (∀ x, Heeds Q (next x)) → Heeds Q (.ask q next)
  | store {next : Store S → Quiet S α} :
      (∀ s s', Q s s' → next s = next s') → (∀ s, Heeds Q (next s)) → Heeds Q (.ask .store next)

/-- Hooks that ask for the store only where all stores in `Q` lead on alike. -/
inductive Hook.Heeds (Q : Store S → Store S → Prop) : Hook S → Prop
  | done (b : Bool) : Heeds Q (.done b)
  | ask {q : Ask S} {next : q.Answer → Hook S} :
      q ≠ .store → (∀ x, Heeds Q (next x)) → Heeds Q (.ask q next)
  | store {next : Store S → Hook S} :
      (∀ s s', Q s s' → next s = next s') → (∀ s, Heeds Q (next s)) → Heeds Q (.ask .store next)
  | unify {a b : S.Term} {next : Bool → Hook S} :
      (∀ r, Heeds Q (next r)) → Heeds Q (.unify a b next)

/-- Structures and guards that ask for the store only where all stores in `Q`
lead on alike. -/
structure Theory.Heeds (T : Theory S) (Q : Store S → Store S → Prop) : Prop where
  unifyWith : ∀ label args t, (T.unifyWith label args t).Heeds Q
  admits : ∀ guard value, (T.admits guard value).Heeds Q

section Ask

variable {C : Comparison T} {l r w w' : World S} {n : Nat}

namespace Comparison.Worlds

theorem noted (h : C.Worlds l r w w') {e e' : Record} (he : e.row? = e'.row?) :
    C.Worlds l r { w with log := e :: w.log } { w' with log := e' :: w'.log } where
  store := h.store
  state := h.state
  objects := h.objects
  rows := by
    simp only [World.rows, List.filterMap_cons, ← he]
    cases e.row? with
    | none => exact h.rows
    | some row => exact h.rows.cons row

/-- Records of the engine are not compared. -/
theorem with_log (h : C.Worlds l r w w') {log log' : List Record}
    (hlog : log.filterMap Record.row? = w.rows) (hlog' : log'.filterMap Record.row? = w'.rows) :
    C.Worlds l r { w with log := log } { w' with log := log' } where
  store := h.store
  state := h.state
  objects := h.objects
  rows := by
    show Over _ _ (log.filterMap Record.row?) (log'.filterMap Record.row?)
    rw [hlog, hlog']
    exact h.rows

theorem with_store (h : C.Worlds l r w w') {s s' : Store S} (hs : C.SameStore s s') :
    C.Worlds l r { w with store := s } { w' with store := s' } :=
  ⟨hs, h.state, h.objects, h.rows⟩

end Comparison.Worlds

theorem Ask.answer_tandem {q : Ask S} (hq : q ≠ .store) :
    Tandem (C.Worlds l r) (C.Worlds l r) (q.answer T n) := by
  intro w w' h
  cases q with
  | store => exact absurd rfl hq
  | state => exact ⟨h.state, h⟩
  | put s => exact ⟨rfl, h.store, rfl, h.objects, h.rows⟩
  | say row => exact ⟨rfl, h.noted rfl⟩
  | display t =>
    show Parallel (ofOption (T.display? w.store n t)) w (ofOption (T.display? w'.store n t)) w' _ _
    rw [h.store.display?]
    exact Tandem.ofOption (fun _ _ h => h) _ w w' h
  | identical a b =>
    show Parallel (ofOption (w.store.identical? n a b)) w (ofOption (w'.store.identical? n a b)) w'
      _ _
    rw [h.store.identical?]
    exact Tandem.ofOption (fun _ _ h => h) _ w w' h

theorem Quiet.Heeds.tandem {x : Quiet S α} (hx : x.Heeds C.stores) :
    Tandem (C.Worlds l r) (C.Worlds l r) (x.exec T n) := by
  induction hx with
  | done a => exact Tandem.pure a
  | ask hq _ ih => exact Tandem.bind (Ask.answer_tandem hq) ih
  | @store next heq _ ih =>
    intro w w' h
    show Parallel ((next w.store).exec T n) w ((next w'.store).exec T n) w' _ _
    rw [heq _ _ (C.room h.store)]
    exact ih _ w w' h

end Ask

/-! ### Copies -/

/-- Where no structure is copied, the next object number plays no part. -/
theorem Theory.resolve?_run (T : Theory S) (hT : ∀ label, T.copies label = false) (s : Store S)
    (n : Nat) (t : S.Term) :
    ∃ o : Option S.Term, ∀ i, (T.resolve? s n t).run i = o.map fun a => (a, i) := by
  induction n generalizing t with
  | zero => exact ⟨none, fun _ => rfl⟩
  | succ n ih =>
    rw [Theory.resolve?]
    split
    · split
      · exact ih _
      · exact ⟨some _, fun _ => rfl⟩
    · next items _ =>
      have hitems : ∃ o : Option (List S.Term), ∀ i,
          (items.mapM (T.resolve? s n)).run i = o.map fun a => (a, i) := by
        clear * - ih
        induction items with
        | nil => exact ⟨some [], fun _ => rfl⟩
        | cons a as ihas =>
          obtain ⟨o, ho⟩ := ih a
          obtain ⟨os, hos⟩ := ihas
          -- The numbers are handed through from item to item, and none is taken.
          refine ⟨o.bind fun a => os.map fun as => a :: as, fun i => ?_⟩
          rw [List.mapM_cons, StateT.run_bind, ho]
          cases o with
          | none => rfl
          | some a =>
            show ((as.mapM (T.resolve? s n) >>= fun as => pure (a :: as)).run i) = _
            rw [StateT.run_bind, hos]
            cases os <;> rfl
      obtain ⟨o, ho⟩ := hitems
      refine ⟨o.map .list, fun i => ?_⟩
      rw [StateT.run_bind, ho]
      cases o <;> rfl
    · rw [if_neg (by simp [hT])]
      exact ⟨some _, fun _ => rfl⟩
    · exact ⟨some _, fun _ => rfl⟩

theorem Comparison.resolve_tandem {C : Comparison T} {l r : World S} (n : Nat) (t : S.Term) :
    Tandem (C.Worlds l r) (C.Worlds l r) (World.resolve T n t) := by
  intro w w' h
  rw [World.resolve, parallel_bind_of_ok (get_apply w) (get_apply w'), ← h.store.resolve?]
  have hset : ∀ o : Option (S.Term × Nat), (∀ p, o = some p →
      C.Worlds l r { w with nextObject := p.2 } { w' with nextObject := p.2 }) →
      Parallel (ofOption o >>= fun p => set { w with nextObject := p.2 } >>= fun _ => pure p.1) w
        (ofOption o >>= fun p => set { w' with nextObject := p.2 } >>= fun _ => pure p.1) w'
        (fun a w b w' => a = b ∧ C.Worlds l r w w') (C.Worlds l r) := by
    intro o ho
    cases o with
    | none => exact ⟨rfl, h⟩
    | some p => exact ⟨rfl, ho p rfl⟩
  rcases h.objects with hnext | hT
  · rw [← hnext]
    exact hset _ fun p _ => ⟨h.store, h.state, .inl rfl, h.rows⟩
  · obtain ⟨o, ho⟩ := T.resolve?_run hT w.store n t
    rw [ho, ho]
    cases o with
    | none => exact ⟨rfl, h⟩
    | some a => exact ⟨rfl, h.store, h.state, .inr hT, h.rows⟩

/-! ### Unification -/

namespace Comparison

variable {C : Comparison T} {l r c d : Scope S} {n : Nat}

theorem Scopes.onWorld {x : Action (World S) α}
    (hx : Tandem (C.Worlds l.world r.world) (C.Worlds l.world r.world) x) :
    Tandem (C.Scopes l r) (C.Scopes l r) (Scope.onWorld x) := by
  intro c d h
  refine parallel_onPart (hx c.world d.world h.world) ?_ ?_
  · rintro a w b w' - ⟨rfl, h'⟩
    exact ⟨rfl, h.trail, h'⟩
  · exact fun w w' h' => ⟨h.trail, h'⟩

/-- Unification that is in lockstep. -/
def Unifies (C : Comparison T) (unify : Unifier S) : Prop :=
  ∀ l r a b, Tandem (C.Scopes l r) (C.Scopes l r) (unify a b)

theorem Unifies.hook {unify : Unifier S} (hu : C.Unifies unify) {k : Hook S}
    (hk : k.Heeds C.stores) : Tandem (C.Scopes l r) (C.Scopes l r) (k.exec T n unify) := by
  induction hk with
  | done b => exact Tandem.pure b
  | ask hq _ ih => exact Tandem.bind (Scopes.onWorld (Ask.answer_tandem hq)) ih
  | @store next heq _ ih =>
    intro c d h
    show Parallel ((next c.world.store).exec T n unify) c ((next d.world.store).exec T n unify) d
      _ _
    rw [heq _ _ (C.room h.world.store)]
    exact ih _ c d h
  | unify _ ih => exact Tandem.bind (hu l r _ _) ih

section Bind

variable (hT : T.Heeds C.stores) (hu : C.Unifies (unify T n)) (v : Var) (value : S.Term)

include hT hu

theorem admits_tandem :
    Tandem (C.Scopes l r) (C.Scopes l r) (Scope.admits T n (unify T n) v value) := by
  intro c d h
  rw [Scope.admits, parallel_bind_of_ok (Scope.store_apply c) (Scope.store_apply d),
    Store.guard?_congr h.world.store.equiv]
  cases d.world.store.guard? v with
  | none => exact ⟨rfl, h⟩
  | some guard =>
    -- the guard works on a trail of its own, which is put away again
    have hk := hu.hook (l := ⟨.empty, l.world⟩) (r := ⟨.empty, r.world⟩) (n := n)
      (hT.admits guard value) ⟨.empty, c.world⟩ ⟨.empty, d.world⟩ ⟨.refl _ _, h.world⟩
    refine parallel_onPart hk ?_ ?_
    · rintro a c' b d' - ⟨rfl, h'⟩
      exact ⟨rfl, h.trail, h'.world⟩
    · exact fun c' d' h' => ⟨h.trail, h'.world⟩

theorem assign_tandem :
    Tandem (C.Scopes l r) (C.Scopes l r) (Scope.assign T n (unify T n) v value) := by
  intro c d h
  rw [Scope.assign, parallel_bind_of_ok (Scope.store_apply c) (Scope.store_apply d),
    ← Store.isBound_congr h.world.store.equiv, ← h.world.store.deref]
  split
  · exact ⟨rfl, h⟩
  · next hunbound =>
    split
    · exact ⟨rfl, h⟩
    · next hcycle =>
      refine (admits_tandem hT hu v value c d h).bind ?_
      rintro b c' _ d' hc' - ⟨rfl, h'⟩
      cases b with
      | false => exact ⟨rfl, h'⟩
      | true =>
        refine ⟨rfl, h'.trail, h'.world.with_store ?_⟩
        rcases h'.world.store with heq | ⟨hloose, hequiv, hends'⟩
        · exact .inl (by rw [heq])
        · -- the guard bound nothing, so what was checked before still holds
          have hinert := (Scope.admits_inert (C.inert hloose) n v value c trivial).ok hc'
          have hends : c.world.store.ChainsEnd := hends'.congr hinert.2
          refine .inr ⟨hloose, Store.set_congr hequiv v _, ?_⟩
          refine (hends.set (by simpa using hunbound) hcycle).congr ?_
          exact Store.set_congr (Setoid.symm hinert.2) v _

theorem bind_tandem :
    Tandem (C.Scopes l r) (C.Scopes l r) (Scope.bind T n (unify T n) v value) := by
  refine Tandem.bind (admits_tandem hT hu v value) fun b => ?_
  cases b with
  | false => exact Tandem.pure _
  | true =>
    have hrecord : Tandem (C.Scopes l r) (C.Scopes l r) (Scope.record v) := by
      intro c d h
      refine ⟨rfl, ?_, h.world⟩
      show Over _ _ (Saved.mk v (c.world.store.binding v) :: _) (Saved.mk v _ :: _)
      rw [h.world.store.binding]
      exact h.trail.cons _
    refine Tandem.bind hrecord fun _ => ?_
    refine Tandem.bind (assign_tandem hT hu v value) fun refusal => ?_
    cases refusal with
    | none => exact Tandem.pure _
    | some e =>
      dsimp only
      split
      · exact Tandem.throw (fun _ _ h => h) _
      · refine Tandem.bind (Scopes.onWorld fun w w' h => ⟨rfl, h.noted rfl⟩) fun _ => ?_
        exact Tandem.pure _

theorem unifyStep_tandem : C.Unifies (unifyStep T n (unify T n)) := by
  have hbind := fun l r v value => bind_tandem (l := l) (r := r) hT hu v value
  intro l r a b c d h
  have hstore := h.world.store
  rw [unifyStep, parallel_bind_of_ok (Scope.store_apply c) (Scope.store_apply d)]
  simp only [← hstore.deref, ← hstore.identical?, ← Store.isUnbound_congr hstore.equiv,
    ← Store.isRestricted_congr hstore.equiv]
  refine Tandem.bind (Tandem.ofOption (fun _ _ h => h) _) (fun same => ?_) c d h
  split
  · exact Tandem.pure _
  · split
    · split
      · exact hbind _ _ _ _
      · exact hbind _ _ _ _
    · exact hbind _ _ _ _
    · exact hbind _ _ _ _
    · split
      · exact Tandem.allPairs (hu l r) _ _
      · exact Tandem.pure _
    · exact hu.hook (hT.unifyWith _ _ _)
    · exact hu.hook (hT.unifyWith _ _ _)
    · exact Tandem.pure _

omit hu in
/-- Unification in scopes that are not told apart. -/
theorem unify_tandem (n : Nat) : C.Unifies (unify T n) := by
  induction n with
  | zero => exact fun _ _ _ _ => Tandem.throw (fun _ _ h => h) _
  | succ n ih => exact unifyStep_tandem hT ih

end Bind

end Comparison

end GoalSearch
