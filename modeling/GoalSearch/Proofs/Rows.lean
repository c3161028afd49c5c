/-
Rows are never taken back.

The log of a world only grows, so what an application has written is there
however a computation ends, and also when it stops.

* `Logged` — states on which rows are written;
* `Action.Writes` — computations that take no row back;
* `Machine.writes_push` and its like — the operations of an engine.

Design notes: the rows are the only part of a state that is compared between a
computation that has stopped and one that goes on, since the private state and
the slots change back and forth.
-/
import GoalSearch.Proofs.Frames

namespace GoalSearch

open GoalSearch.Action

variable {S : Vocabulary} {α β : Type}

/-- States with rows that an application has written, newest first. -/
class Logged (σ : Type) where
  /-- The rows, newest first. -/
  rows : σ → List String

instance : Logged (World S) := ⟨World.rows⟩

instance : Logged (Scope S) := ⟨fun c => c.world.rows⟩

instance : Logged (Machine S) := ⟨fun m => m.world.rows⟩

namespace Action

variable {σ τ : Type} [Logged σ] [Logged τ]

/-- The state in which a computation ends or stops. -/
def last (x : Action σ α) (s : σ) : σ :=
  match x s with
  | .ok _ t => t
  | .error _ t => t

/-- A computation takes no row back. -/
def Writes (x : Action σ α) : Prop := ∀ s, Logged.rows s <:+ Logged.rows (x.last s)

omit [Logged σ] in
theorem last_bind_of_ok {x : Action σ α} {f : α → Action σ β} {s t : σ} {a : α}
    (h : x s = .ok a t) : (x >>= f).last s = (f a).last t := by
  rw [last, bind_ok h, last]

omit [Logged σ] in
theorem last_bind_of_error {x : Action σ α} {f : α → Action σ β} {s t : σ} {e : Stop}
    (h : x s = .error e t) : (x >>= f).last s = x.last s := by
  rw [last, bind_error h, last, h]

theorem writes_of_ok {x : Action σ α}
    (h : ∀ s, ∃ a t, x s = .ok a t ∧ Logged.rows s <:+ Logged.rows t) : x.Writes := by
  intro s
  obtain ⟨a, t, hx, hrows⟩ := h s
  rwa [last, hx]

theorem writes_pure (a : α) : (pure a : Action σ α).Writes := fun _ => List.suffix_refl _

theorem writes_throw (e : Stop) : (throw e : Action σ α).Writes := fun _ => List.suffix_refl _

theorem writes_get : (get : Action σ σ).Writes := fun _ => List.suffix_refl _

theorem Writes.bind {x : Action σ α} {f : α → Action σ β} (hx : x.Writes)
    (hf : ∀ a, (f a).Writes) : (x >>= f).Writes := by
  intro s
  have hs := hx s
  cases h : x s with
  | ok a t =>
    rw [last_bind_of_ok h]
    rw [last, h] at hs
    exact hs.trans (hf a t)
  | error e t => rwa [last_bind_of_error h]

theorem writes_ofOption (o : Option α) : (ofOption o : Action σ α).Writes := by
  cases o with
  | none => exact writes_throw _
  | some a => exact writes_pure a

theorem writes_rounds {round : Action σ (Option α)} (h : round.Writes) :
    ∀ n, (rounds round n).Writes
  | 0 => writes_throw _
  | n + 1 => by
    refine h.bind fun o => ?_
    cases o with
    | some a => exact writes_pure a
    | none => exact writes_rounds h n

theorem rows_last_onPart {part : σ → τ} {update : τ → σ → σ} (y : Action τ α)
    (hupdate : ∀ t s, Logged.rows (update t s) = Logged.rows t) (s : σ) :
    Logged.rows ((onPart part update y).last s) = Logged.rows (y.last (part s)) := by
  rw [last, onPart, last]
  cases y (part s) <;> exact hupdate _ _

theorem Writes.onPart {part : σ → τ} {update : τ → σ → σ} {y : Action τ α} (h : y.Writes)
    (hpart : ∀ s, Logged.rows (part s) = Logged.rows s)
    (hupdate : ∀ t s, Logged.rows (update t s) = Logged.rows t) :
    (onPart part update y).Writes := by
  intro s
  rw [rows_last_onPart y hupdate, ← hpart]
  exact h (part s)

end Action

/-! ### Operations on worlds and scopes -/

variable {T : Theory S}

theorem World.writes_note (r : Record) : (World.note (S := S) r).Writes := by
  refine writes_of_ok fun w => ⟨(), _, rfl, ?_⟩
  show w.log.filterMap Record.row? <:+ (r :: w.log).filterMap Record.row?
  rw [List.filterMap_cons]
  split
  · exact List.suffix_refl _
  · exact List.suffix_cons _ _

theorem World.resolve_apply (n : Nat) (t : S.Term) (w : World S) :
    World.resolve T n t w =
      match (T.resolve? w.store n t).run w.nextObject with
      | none => .error .outOfFuel w
      | some (copy, nextObject) => .ok copy { w with nextObject } := by
  rw [World.resolve, bind_ok (get_apply w)]
  cases (T.resolve? w.store n t).run w.nextObject <;> rfl

theorem World.writes_resolve (n : Nat) (t : S.Term) : (World.resolve T n t).Writes := by
  intro w
  rw [last, World.resolve_apply]
  cases (T.resolve? w.store n t).run w.nextObject <;> exact List.suffix_refl _

theorem Scope.writes_store : (Scope.store (S := S)).Writes :=
  writes_of_ok fun c => ⟨_, c, rfl, List.suffix_refl _⟩

/-! ### Operations on machines -/

namespace Machine

theorem writes_note (r : Record) : (onWorld (World.note (S := S) r)).Writes :=
  (World.writes_note r).onPart (fun _ => rfl) fun _ _ => rfl

/-- An operation that writes no row. -/
theorem writes_of_rows {x : Action (Machine S) α} {f : Machine S → Machine S}
    (h : ∀ m, ∃ a, x m = .ok a (f m)) (hrows : ∀ m, (f m).world.rows = m.world.rows) :
    x.Writes := by
  refine writes_of_ok fun m => ?_
  obtain ⟨a, hx⟩ := h m
  refine ⟨a, f m, hx, ?_⟩
  show m.world.rows <:+ (f m).world.rows
  rw [hrows]

theorem writes_depth : (depth (S := S)).Writes :=
  writes_of_rows (fun m => ⟨_, depth_apply m⟩) fun _ => rfl

theorem writes_trailLength : (trailLength (S := S)).Writes :=
  writes_of_rows (fun m => ⟨_, trailLength_apply m⟩) fun _ => rfl

theorem writes_modifyEngine (f : Engine S → Engine S) : (modifyEngine f).Writes :=
  writes_of_rows (fun m => ⟨_, modifyEngine_apply m f⟩) fun _ => rfl

theorem writes_countBy (c : Counter) (n : Nat) : (countBy (S := S) c n).Writes :=
  writes_of_rows (fun m => ⟨_, countBy_apply m c n⟩) fun _ => rfl

theorem writes_push (mark : Nat) (a : Activation S) : (push mark a).Writes :=
  writes_of_rows (fun m => ⟨_, push_apply m mark a⟩) fun m => (m.noted_output rfl).rows

theorem writes_pushHere (a : Activation S) : (pushHere a).Writes :=
  writes_of_rows (fun m => ⟨_, pushHere_apply m a⟩) fun m => (m.noted_output rfl).rows

theorem writes_trace {r : Record} (hr : r.row? = none) : (trace (S := S) r).Writes :=
  writes_of_rows (fun m => ⟨_, trace_apply m r⟩) fun m => (m.noted_output hr).rows

theorem writes_enterStep : (enterStep (S := S)).Writes :=
  writes_of_rows (fun m => ⟨_, enterStep_apply m⟩) fun m => (m.noted_output rfl).rows

theorem writes_commit (height : Nat) : (commit (S := S) height).Writes :=
  writes_of_rows (fun m => ⟨_, commit_apply m height⟩) fun m => (m.noted_output rfl).rows

theorem writes_undoTo (mark : Nat) : (undoTo (S := S) mark).Writes :=
  writes_of_rows (fun m => ⟨_, undoTo_apply m mark⟩) fun _ => rfl

theorem writes_updateAt (height : Nat) (f : Activation S → Activation S) :
    (updateAt height f).Writes :=
  writes_modifyEngine _

theorem writes_dropTop : (dropTop (S := S)).Writes := by
  refine writes_of_ok fun m => ?_
  rw [dropTop, modifyGet_apply]
  cases m.engine.frames <;> exact ⟨_, _, rfl, List.suffix_refl _⟩

theorem writes_retire : (retire (S := S)).Writes := by
  refine writes_dropTop.bind fun f => ?_
  cases f with
  | none => exact writes_pure _
  | some f => exact writes_countBy _ _

theorem writes_pop : (pop (S := S)).Writes := by
  refine writes_dropTop.bind fun f => ?_
  cases f with
  | none => exact writes_pure _
  | some f =>
    refine writes_depth.bind fun depth => ?_
    exact (writes_trace rfl).bind fun _ => (writes_undoTo _).bind fun _ => writes_countBy _ _

theorem writes_unwind (height : Nat) : (unwind (S := S) height).Writes := by
  have hpops : ∀ i, (popMany (S := S) i).Writes := by
    intro i
    induction i with
    | zero => exact writes_pure _
    | succ i ih => exact writes_pop.bind fun _ => ih
  exact writes_depth.bind fun _ => hpops _

theorem writes_exhausted : (exhausted (S := S)).Writes := writes_pop.bind fun _ => writes_pure _

end Machine

end GoalSearch
