/-
What computations ensure.

A computation from a given state either ends with a value in some state or
stops.  `Ensures` says what holds then; `Keeps` says that a relation holds
between the states before and after, from every state with some property.

* `Action.ensures_bind` — a sequence ensures what its second part ensures from
  where the first one ends;
* `Action.Keeps.bind`, `Action.Keeps.allPairs`, `Action.Keeps.rounds` — a
  transitive relation along which the property lasts is kept by sequences,
  tests of pairs and repetition.

Design notes: `Keeps` takes the reasons for a stop as a parameter, so that one
proof shows both what a computation leaves alone and why it cannot stop.
-/
import GoalSearch.Action

namespace GoalSearch.Action

variable {σ τ α β : Type}

/-! ### One computation at one state -/

theorem bind_apply (x : Action σ α) (f : α → Action σ β) (s : σ) :
    (x >>= f) s = match x s with
      | .ok a t => f a t
      | .error e t => .error e t := by
  show EStateM.bind x f s = _
  unfold EStateM.bind
  cases x s <;> rfl

theorem bind_ok {x : Action σ α} {f : α → Action σ β} {s t : σ} {a : α} (h : x s = .ok a t) :
    (x >>= f) s = f a t := by
  rw [bind_apply, h]

theorem bind_error {x : Action σ α} {f : α → Action σ β} {s t : σ} {e : Stop}
    (h : x s = .error e t) : (x >>= f) s = .error e t := by
  rw [bind_apply, h]

theorem bind_eq_ok {x : Action σ α} {f : α → Action σ β} {s u : σ} {b : β} :
    (x >>= f) s = .ok b u ↔ ∃ a t, x s = .ok a t ∧ f a t = .ok b u := by
  rw [bind_apply]
  cases h : x s with
  | ok a t =>
    constructor
    · intro h
      exact ⟨a, t, rfl, h⟩
    · rintro ⟨a', t', ht, h⟩
      cases ht
      exact h
  | error e t => simp

theorem bind_eq_error {x : Action σ α} {f : α → Action σ β} {s u : σ} {e : Stop} :
    (x >>= f) s = .error e u ↔
      x s = .error e u ∨ ∃ a t, x s = .ok a t ∧ f a t = .error e u := by
  rw [bind_apply]
  cases h : x s with
  | ok a t =>
    constructor
    · exact fun h => .inr ⟨a, t, rfl, h⟩
    · rintro (h | ⟨a', t', ht, h⟩)
      · cases h
      · cases ht
        exact h
  | error e' t => simp

theorem pure_apply (a : α) (s : σ) : (pure a : Action σ α) s = .ok a s := rfl

theorem get_apply (s : σ) : (get : Action σ σ) s = .ok s s := rfl

theorem modify_apply (f : σ → σ) (s : σ) : (modify f : Action σ PUnit) s = .ok () (f s) := rfl

theorem modifyGet_apply (f : σ → α × σ) (s : σ) :
    (modifyGet f : Action σ α) s = .ok (f s).1 (f s).2 := rfl

/-- The value with which a computation ends, if it does. -/
def result? (x : Action σ α) (s : σ) : Option α :=
  match x s with
  | .ok a _ => some a
  | .error _ _ => none

theorem result?_eq_some {x : Action σ α} {s : σ} {a : α} :
    x.result? s = some a ↔ ∃ t, x s = .ok a t := by
  unfold result?
  cases x s with
  | ok b t => simp
  | error e t => simp

/-- The reason for which a computation stops, if it does. -/
def stop? (x : Action σ α) (s : σ) : Option Stop :=
  match x s with
  | .ok _ _ => none
  | .error e _ => some e

theorem stop?_eq_some {x : Action σ α} {s : σ} {e : Stop} :
    x.stop? s = some e ↔ ∃ t, x s = .error e t := by
  unfold stop?
  cases x s with
  | ok b t => simp
  | error e t => simp

/-- A computation that ends does so as `post` says, and one that stops does so
for a reason that `stop` allows. -/
def Ensures (x : Action σ α) (s : σ) (post : α → σ → Prop) (stop : Stop → Prop) : Prop :=
  match x s with
  | .ok a t => post a t
  | .error e _ => stop e

variable {post post' : α → σ → Prop} {stop : Stop → Prop}

theorem Ensures.ok {x : Action σ α} {s t : σ} {a : α} (h : Ensures x s post stop)
    (hx : x s = .ok a t) : post a t := by
  rw [Ensures, hx] at h
  exact h

theorem Ensures.error {x : Action σ α} {s t : σ} {e : Stop} (h : Ensures x s post stop)
    (hx : x s = .error e t) : stop e := by
  rw [Ensures, hx] at h
  exact h

theorem ensures_iff {x : Action σ α} {s : σ} :
    Ensures x s post stop ↔
      (∀ a t, x s = .ok a t → post a t) ∧ ∀ e t, x s = .error e t → stop e := by
  unfold Ensures
  cases x s with
  | ok a t => simp
  | error e t => simp

theorem Ensures.mono {x : Action σ α} {s : σ} (h : Ensures x s post stop)
    (hp : ∀ a t, post a t → post' a t) : Ensures x s post' stop := by
  rw [ensures_iff] at h ⊢
  exact ⟨fun a t hx => hp a t (h.1 a t hx), h.2⟩

theorem Ensures.weaken {stop' : Stop → Prop} {x : Action σ α} {s : σ} (h : Ensures x s post stop)
    (hs : ∀ e, stop e → stop' e) : Ensures x s post stop' := by
  rw [ensures_iff] at h ⊢
  exact ⟨h.1, fun e t hx => hs e (h.2 e t hx)⟩

theorem Ensures.and {x : Action σ α} {s : σ} (h : Ensures x s post stop)
    (h' : Ensures x s post' fun _ => True) :
    Ensures x s (fun a t => post a t ∧ post' a t) stop := by
  rw [ensures_iff] at h h' ⊢
  exact ⟨fun a t hx => ⟨h.1 a t hx, h'.1 a t hx⟩, h.2⟩

theorem ensures_of_eq_ok {x : Action σ α} {s t : σ} {a : α} (hx : x s = .ok a t) :
    Ensures x s post stop ↔ post a t := by
  rw [Ensures, hx]

theorem ensures_bind {x : Action σ α} {f : α → Action σ β} {s : σ} {post : β → σ → Prop} :
    Ensures (x >>= f) s post stop ↔
      Ensures x s (fun a t => Ensures (f a) t post stop) stop := by
  simp only [Ensures, bind_apply]
  cases x s <;> rfl

/-- Sequences agree where their first parts do, and their second parts from where these end. -/
theorem bind_eq_bind {x y : Action σ α} {f g : α → Action σ β} {s : σ} {stop : Stop → Prop}
    (hxy : x s = y s) (hy : Ensures y s post stop) (hf : ∀ a t, post a t → f a t = g a t) :
    (x >>= f) s = (y >>= g) s := by
  rw [bind_apply, bind_apply, hxy]
  cases h : y s with
  | ok a t => exact hf a t (hy.ok h)
  | error e t => rfl

theorem ensures_bind_of_eq_ok {x : Action σ α} {f : α → Action σ β} {s t : σ} {a : α}
    {post : β → σ → Prop} (hx : x s = .ok a t) :
    Ensures (x >>= f) s post stop ↔ Ensures (f a) t post stop := by
  rw [ensures_bind, ensures_of_eq_ok hx]

@[simp] theorem ensures_pure {a : α} {s : σ} : Ensures (pure a) s post stop ↔ post a s := .rfl

@[simp] theorem ensures_throw {e : Stop} {s : σ} :
    Ensures (throw e : Action σ α) s post stop ↔ stop e := .rfl

theorem ensures_ofOption {o : Option α} {s : σ} (he : stop .outOfFuel) :
    Ensures (ofOption o) s post stop ↔ ∀ a, o = some a → post a s := by
  cases o with
  | none => simp [ofOption, he]
  | some a => simp [ofOption]

theorem ensures_onPart {part : σ → τ} {update : τ → σ → σ} {x : Action τ α} {s : σ} :
    Ensures (onPart part update x) s post stop ↔
      Ensures x (part s) (fun a t => post a (update t s)) stop := by
  simp only [Ensures, onPart]
  cases x (part s) <;> rfl

/-! ### One computation at two states -/

/-- Two computations end with the same value and in related states, or they both
stop. -/
def SameEnd (Q : σ → τ → Prop) : EStateM.Result Stop σ α → EStateM.Result Stop τ α → Prop
  | .ok a s, .ok b t => a = b ∧ Q s t
  | .error _ _, .error _ _ => True
  | _, _ => False

section SameEnd

variable {Q : σ → τ → Prop} {s : σ} {t : τ}

theorem SameEnd.mono {Q' : σ → τ → Prop} {r : EStateM.Result Stop σ α}
    {r' : EStateM.Result Stop τ α} (h : SameEnd Q r r') (hQ : ∀ s t, Q s t → Q' s t) :
    SameEnd Q' r r' := by
  cases r <;> cases r'
  · exact ⟨h.1, hQ _ _ h.2⟩
  · exact h
  · exact h
  · exact h

theorem SameEnd.bind {Q' : σ → τ → Prop} {x : Action σ α} {y : Action τ α} {f : α → Action σ β}
    {g : α → Action τ β} (h : SameEnd Q (x s) (y t))
    (hf : ∀ a s' t', x s = .ok a s' → Q s' t' → SameEnd Q' (f a s') (g a t')) :
    SameEnd Q' ((x >>= f) s) ((y >>= g) t) := by
  rw [bind_apply, bind_apply]
  cases hx : x s <;> cases hy : y t <;> rw [hx, hy] at h
  · obtain ⟨rfl, hQ⟩ := h
    exact hf _ _ _ hx hQ
  · exact False.elim h
  · exact False.elim h
  · trivial

theorem sameEnd_onPart {σ' τ' : Type} {Q' : σ' → τ' → Prop} {part : σ' → σ} {update : σ → σ' → σ'}
    {part' : τ' → τ} {update' : τ → τ' → τ'} {x : Action σ α} {y : Action τ α} {s : σ'} {t : τ'}
    (h : SameEnd Q (x (part s)) (y (part' t)))
    (hQ : ∀ a b, Q a b → Q' (update a s) (update' b t)) :
    SameEnd Q' (onPart part update x s) (onPart part' update' y t) := by
  rw [onPart, onPart]
  cases hx : x (part s) <;> cases hy : y (part' t) <;> rw [hx, hy] at h
  · exact ⟨h.1, hQ _ _ h.2⟩
  · exact h
  · exact h
  · exact h

end SameEnd

/-- A computation that ends alike from states that are alike. -/
def EndsAlike (Q : σ → σ → Prop) (x : Action σ α) : Prop := ∀ s t, Q s t → SameEnd Q (x s) (x t)

section EndsAlike

variable {Q : σ → σ → Prop}

theorem EndsAlike.pure (a : α) : EndsAlike Q (Pure.pure a : Action σ α) :=
  fun _ _ h => ⟨rfl, h⟩

theorem EndsAlike.throw (e : Stop) : EndsAlike Q (MonadExcept.throw e : Action σ α) :=
  fun _ _ _ => trivial

theorem EndsAlike.ofOption (o : Option α) : EndsAlike Q (ofOption o : Action σ α) := by
  cases o with
  | none => exact EndsAlike.throw _
  | some a => exact EndsAlike.pure a

theorem EndsAlike.bind {x : Action σ α} {f : α → Action σ β} (hx : EndsAlike Q x)
    (hf : ∀ a, EndsAlike Q (f a)) : EndsAlike Q (x >>= f) :=
  fun s t h => (hx s t h).bind fun a s' t' _ h' => hf a s' t' h'

theorem EndsAlike.allPairs {test : α → β → Action σ Bool} (ht : ∀ a b, EndsAlike Q (test a b)) :
    ∀ as bs, EndsAlike Q (allPairs test as bs)
  | a :: as, b :: bs => by
    refine EndsAlike.bind (ht a b) fun r => ?_
    cases r with
    | true => exact EndsAlike.allPairs ht as bs
    | false => exact EndsAlike.pure _
  | [], _ => EndsAlike.pure _
  | _ :: _, [] => EndsAlike.pure _

theorem EndsAlike.rounds {round : Action σ (Option α)} (hr : EndsAlike Q round) :
    ∀ n, EndsAlike Q (rounds round n)
  | 0 => EndsAlike.throw _
  | n + 1 => by
    refine EndsAlike.bind hr fun o => ?_
    cases o with
    | some a => exact EndsAlike.pure a
    | none => exact EndsAlike.rounds hr n

end EndsAlike

/-! ### Relations that computations keep -/

/-- A relation between earlier and later states, along which a property of
states lasts. -/
structure Lasting (I : σ → Prop) (R : σ → σ → Prop) : Prop where
  refl : ∀ s, R s s
  trans : ∀ {s t u}, R s t → R t u → R s u
  last : ∀ {s t}, I s → R s t → I t

/-- From every state with the property `I`, a computation that ends does so in
a related state, and one that stops does so for an allowed reason. -/
def Keeps (I : σ → Prop) (R : σ → σ → Prop) (stop : Stop → Prop) (x : Action σ α) : Prop :=
  ∀ s, I s → Ensures x s (fun _ t => R s t) stop

variable {I : σ → Prop} {R R' : σ → σ → Prop}

theorem Keeps.mono {x : Action σ α} (h : Keeps I R stop x) (hR : ∀ s t, R s t → R' s t) :
    Keeps I R' stop x :=
  fun s hs => (h s hs).mono fun _ t => hR s t

theorem Keeps.pure (h : Lasting I R) (a : α) : Keeps I R stop (Pure.pure a : Action σ α) :=
  fun s _ => h.refl s

theorem Keeps.throw {e : Stop} (he : stop e) :
    Keeps I R stop (MonadExcept.throw e : Action σ α) :=
  fun _ _ => he

theorem Keeps.ofOption (h : Lasting I R) (he : stop .outOfFuel) (o : Option α) :
    Keeps I R stop (ofOption o) := by
  intro s _
  rw [ensures_ofOption he]
  exact fun _ _ => h.refl s

theorem Keeps.get (h : Lasting I R) : Keeps I R stop (MonadState.get : Action σ σ) :=
  fun s _ => h.refl s

theorem Keeps.bind (h : Lasting I R) {x : Action σ α} {f : α → Action σ β}
    (hx : Keeps I R stop x) (hf : ∀ a, Keeps I R stop (f a)) : Keeps I R stop (x >>= f) := by
  intro s hs
  rw [ensures_bind]
  refine (hx s hs).mono fun a t hst => ?_
  exact (hf a t (h.last hs hst)).mono fun _ u htu => h.trans hst htu

theorem Keeps.allPairs (h : Lasting I R) {test : α → β → Action σ Bool}
    (ht : ∀ a b, Keeps I R stop (test a b)) :
    ∀ as bs, Keeps I R stop (allPairs test as bs)
  | a :: as, b :: bs => by
    refine Keeps.bind h (ht a b) fun r => ?_
    cases r with
    | true => exact Keeps.allPairs h ht as bs
    | false => exact Keeps.pure h _
  | [], _ => Keeps.pure h _
  | _ :: _, [] => Keeps.pure h _

theorem Keeps.rounds (h : Lasting I R) (he : stop .outOfFuel)
    {round : Action σ (Option α)} (hx : Keeps I R stop round) :
    ∀ n, Keeps I R stop (rounds round n)
  | 0 => Keeps.throw he
  | n + 1 => by
    refine Keeps.bind h hx fun o => ?_
    cases o with
    | some a => exact Keeps.pure h a
    | none => exact Keeps.rounds h he hx n

end GoalSearch.Action
