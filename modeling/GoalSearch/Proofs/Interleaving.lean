/-
Trails and engines that share variables.

Any number of trails and engines may bind the same variables, in any order, and
each of them may go back whenever it likes.  A unification fills only slots that
are empty and cells, so what a trail saves of an ordinary variable is an empty
slot.  Putting this back opens a chain and never closes one, whatever the others
have done in the meantime.

* `unifyStep_of_takes` — what a unification binds while chains end;
* `unify_safe` — while chains end, a unification closes none and breaks no
  invariant;
* `Session.Step`, `Session.Reachable` — what trails and engines do in turn;
* `Session.Step.sound` — every step keeps that chains end;
* `Session.Reachable.secure` — no unification of a reachable session stops
  because a variable is already bound or a cycle would be closed, and
  dereferencing ends at a term that is not bound.

Design notes: a list that contains a variable bound to this list is no chain, as
a chain stops at every term that is no variable.  So nothing is said about
cyclic terms, and nothing excludes them.  An engine that runs a goal unifies and
goes back on its own trail, so a run is a sequence of steps as well.
-/
import GoalSearch.Proofs.Frames
import GoalSearch.Proofs.Levels
import GoalSearch.Proofs.Subst
import Mathlib.Logic.Function.Basic

namespace GoalSearch

open GoalSearch.Action

variable {S : Vocabulary} {T : Theory S}

/-- Every stop but those that report a binding against the accounting of the
trail. -/
def Stop.Harmless (e : Stop) : Prop := ∀ r, e ≠ .fault (.violation r)

/-- What a trail has saved of ordinary variables is empty slots. -/
def Trail.SavesEmpty (t : Trail S) (s : Store S) : Prop :=
  ∀ e ∈ t.entries, s.isCell e.var = false → e.previous = none

theorem Trail.SavesEmpty.mono {t : Trail S} {s s' : Store S} (h : t.SavesEmpty s)
    (hs : ∀ v, s'.isCell v = false → s.isCell v = false) : t.SavesEmpty s' :=
  fun e he hcell => h e he (hs e.var hcell)

theorem Trail.savesEmpty_empty (s : Store S) : (empty : Trail S).SavesEmpty s := by
  intro e he
  cases he

/-! ### Unification while chains end -/

namespace Scope

/-- What a unification keeps: the roles of the variables, and, while chains end,
that they do and that nothing but empty slots is saved of ordinary variables. -/
structure Safe (c d : Scope S) : Prop where
  roles : ∀ v, d.world.store.isCell v = c.world.store.isCell v
  chains : c.world.store.ChainsEnd → d.world.store.ChainsEnd
  saved : c.world.store.ChainsEnd → c.trail.SavesEmpty c.world.store →
    d.trail.SavesEmpty d.world.store

variable {c d e : Scope S}

theorem safe_of_same (htrail : d.trail = c.trail) (hstore : d.world.store ≈ c.world.store) :
    c.Safe d where
  roles := Store.isCell_congr hstore
  chains h := h.congr (Setoid.symm hstore)
  saved _ h := by
    rw [htrail]
    refine h.mono fun v hv => ?_
    rwa [← Store.isCell_congr hstore]

theorem Safe.trans (h : c.Safe d) (h' : d.Safe e) : c.Safe e where
  roles v := (h'.roles v).trans (h.roles v)
  chains hc := h'.chains (h.chains hc)
  saved hc hs := h'.saved (h.chains hc) (h.saved hc hs)

theorem lasting_safe : Lasting (fun c : Scope S => c.world.store.ChainsEnd) Safe :=
  ⟨fun _ => safe_of_same rfl (Setoid.refl _), Safe.trans, fun hc h => h.chains hc⟩

theorem safe_of_world (c : Scope S) (w : World S) (h : w.store = c.world.store) :
    c.Safe { c with world := w } :=
  safe_of_same rfl (Store.equiv_of_eq h)

end Scope

/-- A unification that keeps chains ended and breaks no invariant. -/
def Unifier.Safe (unify : Unifier S) : Prop :=
  ∀ a b, Keeps (fun c : Scope S => c.world.store.ChainsEnd) Scope.Safe Stop.Harmless (unify a b)

/-! ### What a unification binds -/

/-- What a unification binds while chains end: a variable that is not bound, to a
value that does not lead back to it.  A restricted variable is bound to an
ordinary one only if that is restricted as well. -/
structure Store.Takes (s : Store S) (v : Var) (value : S.Term) : Prop where
  free : s.isBound v = false
  apart : (s.deref value).var? ≠ some v
  alike : ∀ w, s.isRestricted v = true → value = .var w →
    s.isCell w = true ∨ s.isRestricted w = true

section Binds

variable {R : Scope S → Scope S → Prop} {stop : Stop → Prop} {n : Nat} {unify : Unifier S}

/-- The ends of two chains are bound only if they are not identical, and then
neither end leads back to the other. -/
theorem unifyStep_of_takes (h : Lasting (fun c : Scope S => c.world.store.ChainsEnd) R)
    (he : stop .outOfFuel) (hworld : ∀ c w, w.store = c.world.store → R c { c with world := w })
    (hu : ∀ a b, Keeps (fun c : Scope S => c.world.store.ChainsEnd) R stop (unify a b))
    (hbind : ∀ c v value, c.world.store.ChainsEnd → c.world.store.Takes v value →
      Ensures (Scope.bind T n unify v value) c (fun _ d => R c d) stop) (t u : S.Term) :
    Keeps (fun c : Scope S => c.world.store.ChainsEnd) R stop (unifyStep T n unify t u) := by
  intro c hc
  have ha := Store.step?_deref hc t
  have hb := Store.step?_deref hc u
  have havar := fun v (hv : c.world.store.deref t = .var v) => Store.isBound_of_deref_eq_var hc hv
  have hbvar := fun v (hv : c.world.store.deref u = .var v) => Store.isBound_of_deref_eq_var hc hv
  have hstep := unifyStep_spec T n unify c t u
  rw [Ensures]
  generalize c.world.store.deref t = a at *
  generalize c.world.store.deref u = b at *
  generalize unifyStep T n unify t u c = result at *
  cases hstep with
  | outOfFuel _ => exact he
  | same _ => exact h.refl c
  | differ hid hdiffer =>
    cases hdiffer with
    | left v hav hfavours =>
      subst hav
      refine hbind c v b hc ⟨havar v rfl, fun hcycle => ?_, fun w hv hbw => ?_⟩
      · rw [Store.deref_of_step?_eq_none hb, Term.var?_eq_some] at hcycle
        rw [hcycle] at hid
        exact Store.identical?_self ha (by simp) n hid
      · -- the right variable would have been favoured
        by_contra hne
        rw [not_or, Bool.not_eq_true, Bool.not_eq_true] at hne
        have hvfree := Store.isUnbound_of_not_isBound (Store.isCell_of_isRestricted hv)
          (havar v rfl)
        have hwfree := Store.isUnbound_of_not_isBound hne.1 (hbvar w hbw)
        have hkept := hfavours w hbw
        simp [Store.favours, hvfree, hwfree, hv, hne.2] at hkept
    | right w hbw hfavours =>
      subst hbw
      refine hbind c w a hc ⟨hbvar w rfl, fun hcycle => ?_, fun v hw hav => ?_⟩
      · rw [Store.deref_of_step?_eq_none ha, Term.var?_eq_some] at hcycle
        rw [hcycle] at hid
        exact Store.identical?_self hb (by simp) n hid
      · -- a variable is favoured only if it is not restricted
        have hgiven := hfavours v hav
        simp [Store.favours, hw] at hgiven
    | lists as bs _ _ _ => exact Keeps.allPairs h hu as bs c hc
    | structLeft object label args _ => exact Hook.exec_keeps h he hworld hu _ c hc
    | structRight object label args _ => exact Hook.exec_keeps h he hworld hu _ c hc
    | clash _ => exact h.refl c

end Binds

section Unify

variable (hT : T.GuardsInert) {n : Nat} (hu : Unifier.Safe (GoalSearch.unify T n))

include hu

theorem Hook.exec_safe (k : Hook S) :
    Keeps (fun c : Scope S => c.world.store.ChainsEnd) Scope.Safe Stop.Harmless
      (k.exec T n (GoalSearch.unify T n)) :=
  Hook.exec_keeps Scope.lasting_safe (by simp [Stop.Harmless]) Scope.safe_of_world hu k

include hT

/-- Consulting a guard changes nothing and breaks no invariant. -/
theorem Scope.admits_safe {c : Scope S} (hc : c.world.store.ChainsEnd) (v : Var)
    (value : S.Term) :
    Ensures (admits T n (unify T n) v value) c
      (fun _ d => d.trail = c.trail ∧ d.world.store ≈ c.world.store) Stop.Harmless := by
  have hinert := admits_inert hT n v value c trivial
  rw [ensures_iff] at hinert ⊢
  refine ⟨hinert.1, fun e d hd => ?_⟩
  rw [admits, bind_ok (store_apply c)] at hd
  cases hguard : c.world.store.guard? v with
  | none =>
    rw [hguard] at hd
    cases hd
  | some guard =>
    rw [hguard] at hd
    have haside : Ensures (aside ((T.admits guard value).exec T n (unify T n))) c
        (fun _ _ => True) Stop.Harmless := by
      rw [aside, ensures_onPart]
      exact (Hook.exec_safe hu _ { c with trail := .empty } hc).mono fun _ _ _ => trivial
    exact haside.error hd

variable {v : Var} {value : S.Term}

/-- A variable that is not bound takes a value that does not lead back to it,
unless its guard refuses the value. -/
theorem Scope.assign_safe {c : Scope S} (hc : c.world.store.ChainsEnd)
    (hv : c.world.store.isBound v = false) (hvalue : (c.world.store.deref value).var? ≠ some v) :
    Ensures (assign T n (unify T n) v value) c
      (fun r d => d.trail = c.trail ∧
        ((r = none ∧ d.world.store ≈ c.world.store.set v (some value)) ∨
          (r = some (.rejected v) ∧ d.world.store ≈ c.world.store))) Stop.Harmless := by
  rw [assign, ensures_bind_of_eq_ok (store_apply c), if_neg (by simp [hv]), if_neg hvalue,
    ensures_bind]
  refine (admits_safe hT hu hc v value).mono ?_
  rintro b d ⟨htrail, hstore⟩
  cases b with
  | true => exact ⟨htrail, .inl ⟨rfl, Store.set_congr hstore v _⟩⟩
  | false => exact ⟨htrail, .inr ⟨rfl, hstore⟩⟩

theorem Scope.bind_safe {c : Scope S} (hc : c.world.store.ChainsEnd)
    (hv : c.world.store.isBound v = false) (hvalue : (c.world.store.deref value).var? ≠ some v) :
    Ensures (bind T n (unify T n) v value) c (fun _ d => c.Safe d) Stop.Harmless := by
  rw [bind, ensures_bind]
  refine (admits_safe hT hu hc v value).mono ?_
  rintro b d ⟨htrail, hstore⟩
  have hcd : c.Safe d := safe_of_same htrail hstore
  cases b with
  | false => exact hcd
  | true =>
    rw [if_pos rfl, ensures_bind_of_eq_ok (record_apply v d), ensures_bind]
    have hd : d.world.store.ChainsEnd := hcd.chains hc
    have hunbound : d.world.store.isBound v = false := by rwa [Store.isBound_congr hstore]
    have hcycle : (d.world.store.deref value).var? ≠ some v := by
      rwa [Store.deref_congr hd hstore]
    refine (assign_safe (c := { d with trail := d.trail.record d.world.store v }) hT hu hd
      hunbound hcycle).mono ?_
    rintro r e ⟨hetrail, hr⟩
    -- what was saved of an ordinary variable is the empty slot that is filled now
    have hsaved : (d.trail.record d.world.store v).SavesEmpty d.world.store ∨
        ¬ d.trail.SavesEmpty d.world.store := by
      by_cases hempty : d.trail.SavesEmpty d.world.store
      · refine .inl fun entry hentry hcell => ?_
        rcases List.mem_cons.mp hentry with rfl | hmem
        · exact Store.binding_of_not_isBound hcell hunbound
        · exact hempty entry hmem hcell
      · exact .inr hempty
    have hkept : ∀ e' : Scope S, e'.trail = d.trail.record d.world.store v →
        (∀ w, e'.world.store.isCell w = d.world.store.isCell w) →
        e'.world.store.ChainsEnd → d.Safe e' := by
      intro e' hetrail' hroles hends
      refine ⟨hroles, fun _ => hends, fun _ hempty => ?_⟩
      rw [hetrail']
      refine (hsaved.resolve_right (not_not_intro hempty)).mono fun w hw => ?_
      rwa [← hroles]
    rcases hr with ⟨rfl, hset⟩ | ⟨rfl, hsame⟩
    · refine hcd.trans (hkept e hetrail (fun w => ?_) ?_)
      · rw [Store.isCell_congr hset, Store.isCell_set]
      · exact (hd.set hunbound hcycle).congr (Setoid.symm hset)
    · refine hcd.trans (hkept _ hetrail (Store.isCell_congr hsame) ?_)
      exact hd.congr (Setoid.symm hsame)

omit hu in
/-- While chains end, a unification closes none and breaks no invariant. -/
theorem unify_safe (n : Nat) : Unifier.Safe (unify T n) := by
  induction n with
  | zero => exact fun _ _ => Keeps.throw (by simp [Stop.Harmless])
  | succ n ih =>
    exact unifyStep_of_takes Scope.lasting_safe (by simp [Stop.Harmless]) Scope.safe_of_world ih
      fun c v value hc htakes => Scope.bind_safe hT ih hc htakes.free htakes.apart

end Unify

/-! ### Going back -/

/-- Emptying slots of ordinary variables and overwriting cells closes no chain. -/
theorem Trail.SavesEmpty.chainsEnd_restore {es : List (Saved S)} {s : Store S}
    (h : (Trail.mk es).SavesEmpty s) (hs : s.ChainsEnd) : (Trail.restore es s).ChainsEnd := by
  induction es generalizing s with
  | nil => exact hs
  | cons e es ih =>
    have hset : (s.set e.var e.previous).ChainsEnd := by
      -- Putting an entry back adds no step: the slot becomes empty, or it is that of a cell.
      refine WellFounded.mono hs fun b a hab => ?_
      obtain ⟨w, rfl, hcell, hbinding⟩ := Store.step?_eq_some.mp hab
      rw [Store.isCell_set] at hcell
      rw [Store.binding_set] at hbinding
      by_cases hw : e.var = w
      · rw [if_pos hw, h e (by simp) (hw ▸ hcell)] at hbinding
        cases hbinding
      · rw [if_neg hw] at hbinding
        exact Store.step?_eq_some.mpr ⟨w, rfl, hcell, hbinding⟩
    refine ih (fun e' he' hcell => h e' (List.mem_cons_of_mem _ he') ?_) hset
    rwa [Store.isCell_set] at hcell

theorem Trail.isCell_restore (es : List (Saved S)) (s : Store S) (v : Var) :
    (restore es s).isCell v = s.isCell v := by
  induction es generalizing s with
  | nil => rfl
  | cons e es ih => rw [restore_cons, ih, Store.isCell_set]

/-- Going back on any trail that has saved empty slots only is safe. -/
theorem Scope.safe_backtracked {c : Scope S} (h : c.trail.SavesEmpty c.world.store)
    (mark : Nat) : c.Safe (c.backtracked mark) := by
  rw [backtracked, Trail.backtrack_eq]
  refine ⟨fun v => Trail.isCell_restore _ _ v, fun hc => ?_, fun _ _ => ?_⟩
  · have htake : (Trail.mk (c.trail.entries.take (c.trail.length - mark))).SavesEmpty
        c.world.store := fun e he => h e (List.mem_of_mem_take he)
    exact htake.chainsEnd_restore hc
  · intro e he hcell
    rw [Trail.isCell_restore] at hcell
    exact h e (List.mem_of_mem_drop he) hcell

/-! ### Bindings among variables -/

/-- The slot of the ordinary variable `v` holds the variable `w`. -/
def Store.Links (s : Store S) (v w : Var) : Prop :=
  s.isCell v = false ∧ s.binding v = some (.var w)

/-- Where chains end, no variable leads back to itself. -/
theorem Store.ChainsEnd.links_acyclic {s : Store S} (hs : s.ChainsEnd) (v : Var) :
    ¬ Relation.TransGen s.Links v v := by
  intro hcycle
  have hstep : ∀ a b, s.Links a b → s.step? (.var a) = some (.var b) :=
    fun a b hab => Store.step?_eq_some.mpr ⟨a, rfl, hab⟩
  have hchain : Relation.TransGen (fun x y => s.step? x = some y) (.var v) (.var v) :=
    hcycle.lift Term.var hstep
  exact hs.transGen.irrefl.irrefl _ (Relation.transGen_swap.mp hchain)

/-! ### Unification by an engine -/

section Machine

variable {n : Nat} {a b : S.Term} {m m' : Machine S}

/-- An engine that unifies does to its trail and the slots what the unification
does. -/
theorem Machine.unify_scope {r : Bool} (h : Machine.unify T n a b m = .ok r m') :
    GoalSearch.unify T n a b m.scope = .ok r m'.scope := by
  rw [Machine.unify_apply] at h
  cases hc : GoalSearch.unify T n a b m.scope with
  | ok r' c =>
    rw [hc] at h
    cases h
    rfl
  | error e c =>
    rw [hc] at h
    cases h

/-- An engine that unifies stops only if the unification does. -/
theorem Machine.unify_scope_error {e : Stop} (h : Machine.unify T n a b m = .error e m') :
    ∃ c, GoalSearch.unify T n a b m.scope = .error e c := by
  rw [Machine.unify_apply] at h
  cases hc : GoalSearch.unify T n a b m.scope with
  | ok r c =>
    rw [hc] at h
    cases h
  | error e' c =>
    rw [hc] at h
    cases h
    exact ⟨c, rfl⟩

end Machine

/-! ### Sessions -/

/-- Trails and engines that work on the same variables. -/
structure Session (S : Vocabulary) (ι κ : Type) where
  /-- The slots, the private state and the log. -/
  world : World S
  /-- The trails. -/
  trails : ι → Trail S
  /-- The engines. -/
  engines : κ → Engine S

namespace Session

variable {ι κ : Type} [DecidableEq ι] [DecidableEq κ] {s s' : Session S ι κ}

/-- The scope of a trail. -/
def scope (s : Session S ι κ) (i : ι) : Scope S := ⟨s.trails i, s.world⟩

/-- The machine of an engine. -/
def machine (s : Session S ι κ) (j : κ) (answers : List S.Term) : Machine S :=
  ⟨s.engines j, s.world, answers⟩

/-- The session after a trail was used. -/
def afterTrail (s : Session S ι κ) (i : ι) (c : Scope S) : Session S ι κ :=
  { s with world := c.world, trails := Function.update s.trails i c.trail }

/-- The session after an engine was used. -/
def afterEngine (s : Session S ι κ) (j : κ) (m : Machine S) : Session S ι κ :=
  { s with world := m.world, engines := Function.update s.engines j m.engine }

variable (T) in
/-- What trails and engines do in turn.  A unification may succeed or fail; it
makes no step if it stops. -/
inductive Step : Session S ι κ → Session S ι κ → Prop
  /-- Two terms are unified on a trail. -/
  | unify {s : Session S ι κ} {n : Nat} {a b : S.Term} {r : Bool} {c : Scope S} (i : ι) :
      GoalSearch.unify T n a b (s.scope i) = .ok r c → Step s (s.afterTrail i c)
  /-- An engine unifies two terms. -/
  | engineUnify {s : Session S ι κ} {n : Nat} {a b : S.Term} {r : Bool} {answers : List S.Term}
      {m : Machine S} (j : κ) :
      Machine.unify T n a b (s.machine j answers) = .ok r m → Step s (s.afterEngine j m)
  /-- A trail goes back. -/
  | backtrack {s : Session S ι κ} (i : ι) (mark : Nat) :
      Step s (s.afterTrail i ((s.scope i).backtracked mark))
  /-- An engine goes back. -/
  | engineBacktrack {s : Session S ι κ} (j : κ) (answers : List S.Term) (mark : Nat) :
      Step s (s.afterEngine j ((s.machine j answers).undone mark))
  /-- A trail is replaced by a copy of another one. -/
  | copy {s : Session S ι κ} (i i' : ι) : Step s (s.afterTrail i (s.scope i'))
  /-- A trail is replaced by a copy of the trail of an engine. -/
  | engineCopy {s : Session S ι κ} (i : ι) (j : κ) :
      Step s (s.afterTrail i (s.machine j []).scope)
  /-- An ordinary variable is made. -/
  | newVariable {s : Session S ι κ} (guard : Option S.Guard) :
      Step s { s with world.store := (s.world.store.new (.ordinary guard) none).2 }
  /-- A cell is made. -/
  | newCell {s : Session S ι κ} (value : S.Term) :
      Step s { s with world.store := (s.world.store.new .cell (some value)).2 }
  /-- Something happens that changes no slot, and no trail but for those that
  are put away for new ones. -/
  | other {s s' : Session S ι κ} :
      s'.world.store = s.world.store →
      (∀ i, s'.trails i = s.trails i ∨ s'.trails i = .empty) →
      (∀ j, (s'.engines j).trail = (s.engines j).trail ∨ (s'.engines j).trail = .empty) →
      Step s s'

/-- Sessions in which no ordinary variable is bound and nothing is saved. -/
structure Fresh (s : Session S ι κ) : Prop where
  unbound : ∀ v, s.world.store.isBound v = false
  trails : ∀ i, s.trails i = .empty
  engines : ∀ j, (s.engines j).trail = .empty

variable (T) in
/-- Sessions to which steps lead from a fresh one. -/
def Reachable (s : Session S ι κ) : Prop :=
  ∃ s₀ : Session S ι κ, s₀.Fresh ∧ Relation.ReflTransGen (Step T) s₀ s

/-- Sessions in which chains end and only empty slots of ordinary variables are
saved. -/
structure Sound (s : Session S ι κ) : Prop where
  chains : s.world.store.ChainsEnd
  trails : ∀ i, (s.trails i).SavesEmpty s.world.store
  engines : ∀ j, (s.engines j).trail.SavesEmpty s.world.store

omit [DecidableEq ι] [DecidableEq κ] in
theorem Fresh.sound (h : s.Fresh) : s.Sound where
  chains := Store.chainsEnd_of_not_isBound h.unbound
  trails i := by
    rw [h.trails]
    exact Trail.savesEmpty_empty _
  engines j := by
    rw [h.engines]
    exact Trail.savesEmpty_empty _

omit [DecidableEq κ] in
theorem Sound.afterTrail (h : s.Sound) (i : ι) {c : Scope S} (hc : (s.scope i).Safe c) :
    (s.afterTrail i c).Sound where
  chains := hc.chains h.chains
  trails i' := by
    by_cases hi : i' = i
    · subst hi
      simp only [Session.afterTrail, Function.update_self]
      exact hc.saved h.chains (h.trails i')
    · simp only [Session.afterTrail, Function.update_of_ne hi]
      exact (h.trails i').mono fun v hv => (hc.roles v).symm.trans hv
  engines j := (h.engines j).mono fun v hv => (hc.roles v).symm.trans hv

omit [DecidableEq ι] in
theorem Sound.afterEngine (h : s.Sound) (j : κ) {answers : List S.Term} {m : Machine S}
    (hm : (s.machine j answers).scope.Safe m.scope) : (s.afterEngine j m).Sound where
  chains := hm.chains h.chains
  trails i := (h.trails i).mono fun v hv => (hm.roles v).symm.trans hv
  engines j' := by
    by_cases hj : j' = j
    · subst hj
      simp only [Session.afterEngine, Function.update_self]
      exact hm.saved h.chains (h.engines j')
    · simp only [Session.afterEngine, Function.update_of_ne hj]
      exact (h.engines j').mono fun v hv => (hm.roles v).symm.trans hv

omit [DecidableEq κ] in
theorem Sound.copied (h : s.Sound) (i : ι) {t : Trail S} (ht : t.SavesEmpty s.world.store) :
    (s.afterTrail i ⟨t, s.world⟩).Sound where
  chains := h.chains
  trails i' := by
    by_cases hi : i' = i
    · subst hi
      simp only [Session.afterTrail, Function.update_self]
      exact ht
    · simp only [Session.afterTrail, Function.update_of_ne hi]
      exact h.trails i'
  engines := h.engines

omit [DecidableEq ι] [DecidableEq κ] in
/-- A new variable is bound to nothing, and whatever is bound to it leads no
further. -/
theorem Sound.created (h : s.Sound) {role : Role S.Guard} {value : Option S.Term}
    (hrole : ∀ guard, role = .ordinary guard → value = none) :
    Sound { s with world.store := (s.world.store.new role value).2 } := by
  let store := (s.world.store.new role value).2
  have hnext : s.world.store.get s.world.store.next = .fresh := by
    rw [Store.get, Array.getD_eq_getD_getElem?, Store.next, Array.getElem?_eq_none (Nat.le_refl _)]
    rfl
  have hroles : ∀ v, store.isCell v = false → s.world.store.isCell v = false := by
    intro v hv
    by_cases hw : s.world.store.next = v
    · rw [← hw, Store.isCell, hnext]
      rfl
    · rwa [Store.isCell, Store.get_new, if_neg hw] at hv
  refine ⟨?_, fun i => (h.trails i).mono hroles, fun j => (h.engines j).mono hroles⟩
  refine WellFounded.mono h.chains fun b a hab => ?_
  obtain ⟨v, rfl, hcell, hbinding⟩ := Store.step?_eq_some.mp hab
  -- The new variable is the end of its chain; the steps of the others are those they had.
  by_cases hw : s.world.store.next = v
  · rw [Store.isCell, Store.get_new, if_pos hw] at hcell
    rw [Store.binding, Store.get_new, if_pos hw] at hbinding
    cases role with
    | cell => cases hcell
    | ordinary guard =>
      rw [hrole guard rfl] at hbinding
      cases hbinding
  · refine Store.step?_eq_some.mpr ⟨v, rfl, hroles v hcell, ?_⟩
    rwa [Store.binding, Store.get_new, if_neg hw] at hbinding

variable (hT : T.GuardsInert)

include hT

theorem Step.sound (h : Step T s s') (hs : s.Sound) : s'.Sound := by
  cases h with
  | @unify n a b r c i hc =>
    exact hs.afterTrail i ((unify_safe hT n a b _ hs.chains).ok hc)
  | @engineUnify n a b r answers m j hm =>
    exact hs.afterEngine j ((unify_safe hT n a b _ hs.chains).ok (Machine.unify_scope hm))
  | backtrack i mark => exact hs.afterTrail i (Scope.safe_backtracked (hs.trails i) mark)
  | engineBacktrack j answers mark =>
    exact hs.afterEngine j (Scope.safe_backtracked (c := (s.machine j answers).scope)
      (hs.engines j) mark)
  | copy i i' => exact hs.copied i (hs.trails i')
  | engineCopy i j => exact hs.copied i (hs.engines j)
  | newVariable guard => exact hs.created fun _ _ => rfl
  | newCell value => exact hs.created fun _ h => nomatch h
  | other hstore htrails hengines =>
    have hkept : ∀ t t' : Trail S, t.SavesEmpty s.world.store → t' = t ∨ t' = .empty →
        t'.SavesEmpty s'.world.store := by
      rintro t t' ht (rfl | rfl)
      · rw [hstore]
        exact ht
      · exact Trail.savesEmpty_empty _
    refine ⟨hstore ▸ hs.chains, fun i => ?_, fun j => ?_⟩
    · exact hkept _ _ (hs.trails i) (htrails i)
    · exact hkept _ _ (hs.engines j) (hengines j)

theorem Reachable.sound (h : s.Reachable T) : s.Sound := by
  obtain ⟨s₀, hfresh, hsteps⟩ := h
  induction hsteps with
  | refl => exact hfresh.sound
  | tail _ hstep ih => exact hstep.sound hT ih

omit hT

variable (T s) in
/-- What holds of a session between two steps: no unification that could come
next breaks an invariant, bindings of ordinary variables to variables form no
cycle, and dereferencing ends, at nothing that is bound. -/
structure Secure : Prop where
  unify : ∀ i n a b r c,
    GoalSearch.unify T n a b (s.scope i) ≠ .error (.fault (.violation r)) c
  engineUnify : ∀ j answers n a b r m,
    Machine.unify T n a b (s.machine j answers) ≠ .error (.fault (.violation r)) m
  acyclic : ∀ v, ¬ Relation.TransGen s.world.store.Links v v
  ends : ∀ t, ∃ k, s.world.store.step? (s.world.store.follow k t) = none ∧
    s.world.store.deref t = s.world.store.follow k t
  unbound : ∀ t v, s.world.store.deref t = .var v → s.world.store.isBound v = false
  idempotent : ∀ t, s.world.store.deref (s.world.store.deref t) = s.world.store.deref t

include hT

/-- Whatever trails and engines have done in turn, unification breaks no
invariant and chains end. -/
theorem Reachable.secure (h : s.Reachable T) : s.Secure T := by
  have hs := h.sound hT
  refine ⟨?_, ?_, ?_, ?_, ?_, ?_⟩
  · intro i n a b r c hc
    exact (unify_safe hT n a b (s.scope i) hs.chains).error hc r rfl
  · intro j answers n a b r m hm
    obtain ⟨c, hc⟩ := Machine.unify_scope_error hm
    exact (unify_safe hT n a b (s.machine j answers).scope hs.chains).error hc r rfl
  · exact hs.chains.links_acyclic
  · exact fun t => ⟨_, Store.step?_deref hs.chains t, rfl⟩
  · exact fun t v hv => Store.isBound_of_deref_eq_var hs.chains hv
  · exact fun t => Store.deref_of_step?_eq_none (Store.step?_deref hs.chains t)

omit hT

/-! ### Sessions that are computed -/

/-- The session after a unification on a trail, if it does not stop. -/
def unified (T : Theory S) (n : Nat) (s : Session S ι κ) (i : ι) (a b : S.Term) :
    Session S ι κ :=
  match GoalSearch.unify T n a b (s.scope i) with
  | .ok _ c => s.afterTrail i c
  | .error _ _ => s

theorem Reachable.step (h : s.Reachable T) (hstep : Step T s s') : s'.Reachable T := by
  obtain ⟨s₀, hfresh, hsteps⟩ := h
  exact ⟨s₀, hfresh, hsteps.tail hstep⟩

theorem Reachable.unified (h : s.Reachable T) (n : Nat) (i : ι) (a b : S.Term) :
    (s.unified T n i a b).Reachable T := by
  rw [Session.unified]
  cases hc : GoalSearch.unify T n a b (s.scope i) with
  | ok r c => exact h.step (.unify i hc)
  | error e c => exact h

end Session

/-- Two trails and no variable that is bound. -/
def Bounds.session : Session Bounds.vocabulary Bool Unit :=
  ⟨World.start (), fun _ => .empty, fun _ => .new .standard⟩

theorem Bounds.session_reachable : Bounds.session.Reachable Bounds.theory := by
  refine ⟨Bounds.session, ⟨fun v => ?_, fun _ => rfl, fun _ => rfl⟩, .refl⟩
  show Store.empty.isBound v = false
  rw [Store.isBound, Store.binding, Store.get_empty]
  exact Bool.and_false _

/-- The first trail closes a cyclic list and binds a variable to another one; the
second is made a copy of it.  The first goes back, binds the other way round, and
then the copy goes back as well. -/
theorem Session.secure_copied : ∃ s : Session Bounds.vocabulary Bool Unit,
    (s.world.store.list? (.var ⟨1⟩)).map (List.map Term.var?) = some [some ⟨1⟩] ∧
      (s.world.store.binding ⟨3⟩).bind Term.var? = some ⟨2⟩ ∧ s.Secure Bounds.theory := by
  let x : Bounds.vocabulary.Term := .var ⟨1⟩
  let y : Bounds.vocabulary.Term := .var ⟨2⟩
  let z : Bounds.vocabulary.Term := .var ⟨3⟩
  have h₁ := Bounds.session_reachable.unified 3 true x (.list [x])
  have h₂ := (h₁.unified 3 true y z).step (.copy false true)
  have h₃ := (h₂.step (.backtrack true 1)).unified 3 true z y
  have h₄ := h₃.step (.backtrack false 1)
  exact ⟨_, by decide +kernel, by decide +kernel, h₄.secure Bounds.guardsInert⟩

end GoalSearch
