/-
What restricted variables hold.

The guard of a variable is consulted about the term that is put into its slot.
If this is another variable, the value arrives later, and then only the guard of
that variable is consulted.  So a restricted variable stands for a value that the
last guard on its way has admitted, and for none that a guard has not seen.

* `Theory.GuardsDecide` — guards that are functions of the term given to them;
* `Store.Guarded` — every guard has admitted what the slot of its variable holds,
  and this is no unrestricted variable that could be bound to anything;
* `Session.Reachable.guarded` — this holds whatever trails and engines do in turn;
* `Store.Vouched` — the restricted variables from one to the value it stands for;
* `Session.Reachable.vouched` — every value that a restricted variable stands for
  has been admitted by the guards on the way to it;
* `Session.alias_passes_guard` — a guard may refuse the value its variable stands
  for.

Design notes: a guard that admits no restricted variable is the last one on every
way from its variable, so it admits the value.
-/
import GoalSearch.Proofs.Interleaving

namespace GoalSearch

open GoalSearch.Action

variable {S : Vocabulary} {T : Theory S} {f : S.Guard → S.Term → Bool}

/-- The guards of variables bind nothing, and whether they admit a term is a
function of this term. -/
def Theory.GuardsDecide (T : Theory S) (f : S.Guard → S.Term → Bool) : Prop :=
  ∀ g value n c b d, (T.admits g value).exec T n (unify T n) c = .ok b d →
    b = f g value ∧ d.world.store ≈ c.world.store

theorem Theory.GuardsDecide.inert (hT : T.GuardsDecide f) : T.GuardsInert :=
  fun g value n c b d h => (hT g value n c b d h).2

/-! ### Guarded stores -/

/-- Every guard admits what the slot of its variable holds, and a restricted
variable is not bound to an unrestricted one. -/
def Store.Guarded (f : S.Guard → S.Term → Bool) (s : Store S) : Prop :=
  ∀ v g t, s.guard? v = some g → s.binding v = some t →
    f g t = true ∧ ∀ w, t = .var w → s.isCell w = true ∨ s.isRestricted w = true

namespace Store

variable {s s' : Store S} {v : Var} {value : S.Term}

theorem isRestricted_set (s : Store S) (v w : Var) (value : Option S.Term) :
    (s.set v value).isRestricted w = s.isRestricted w := by
  rw [isRestricted, isRestricted, guard?_set]

theorem isRestricted_of_guard? {g : S.Guard} (h : s.guard? v = some g) :
    s.isRestricted v = true := by
  rw [isRestricted, h]
  rfl

theorem Guarded.congr (h : s.Guarded f) (hs : s ≈ s') : s'.Guarded f := by
  intro v g t hguard hbinding
  rw [← guard?_congr hs] at hguard
  rw [← binding_congr hs] at hbinding
  obtain ⟨hadmits, halike⟩ := h v g t hguard hbinding
  refine ⟨hadmits, fun w hw => ?_⟩
  rw [← isCell_congr hs, isRestricted, ← guard?_congr hs]
  exact halike w hw

/-- A slot may be filled with what its guard admits. -/
theorem Guarded.set (h : s.Guarded f) (hv : s.Takes v value)
    (hadmits : ∀ g, s.guard? v = some g → f g value = true) :
    (s.set v (some value)).Guarded f := by
  intro w g t hguard hbinding
  rw [guard?_set] at hguard
  rw [binding_set] at hbinding
  simp only [isCell_set, isRestricted_set]
  by_cases hw : v = w
  · subst hw
    rw [if_pos rfl, Option.some_inj] at hbinding
    subst hbinding
    exact ⟨hadmits g hguard, fun u hu => hv.alike u (isRestricted_of_guard? hguard) hu⟩
  · rw [if_neg hw] at hbinding
    exact h w g t hguard hbinding

/-- Emptying slots of ordinary variables and overwriting cells asks no guard. -/
theorem Guarded.restore (h : s.Guarded f) {es : List (Saved S)}
    (hes : (Trail.mk es).SavesEmpty s) : (Trail.restore es s).Guarded f := by
  induction es generalizing s with
  | nil => exact h
  | cons e es ih =>
    have hset : (s.set e.var e.previous).Guarded f := by
      intro w g t hguard hbinding
      rw [guard?_set] at hguard
      rw [binding_set] at hbinding
      simp only [isCell_set, isRestricted_set]
      by_cases hw : e.var = w
      · -- A restricted variable is no cell, so the entry empties it.
        have hcell := isCell_of_isRestricted (isRestricted_of_guard? hguard)
        rw [if_pos hw, hes e (by simp) (hw ▸ hcell)] at hbinding
        cases hbinding
      · rw [if_neg hw] at hbinding
        exact h w g t hguard hbinding
    refine ih hset fun e' he' hcell => hes e' (List.mem_cons_of_mem _ he') ?_
    rwa [isCell_set] at hcell

/-- A new variable holds nothing that a guard would have to admit, and nothing
that was guarded changes. -/
theorem Guarded.new (h : s.Guarded f) {role : Role S.Guard} {value : Option S.Term}
    (hrole : ∀ guard, role = .ordinary guard → value = none) : (s.new role value).2.Guarded f := by
  have hkept : ∀ w, s.isCell w = true ∨ s.isRestricted w = true →
      (s.new role value).2.get w = s.get w := by
    intro w hw
    rw [get_new, if_neg]
    rintro rfl
    -- the next variable is not made yet, and reads as an unrestricted one
    have hnext : s.get s.next = .fresh := by
      rw [get, Array.getD_eq_getD_getElem?, next, Array.getElem?_eq_none (Nat.le_refl _)]
      rfl
    simp [isCell, isRestricted, guard?, hnext, Slot.fresh] at hw
  intro v g t hguard hbinding
  rw [guard?, get_new] at hguard
  rw [binding, get_new] at hbinding
  by_cases hv : s.next = v
  · rw [if_pos hv] at hguard hbinding
    cases role with
    | cell => cases hguard
    | ordinary guard =>
      rw [hrole guard rfl] at hbinding
      cases hbinding
  · rw [if_neg hv] at hguard hbinding
    obtain ⟨hadmits, halike⟩ := h v g t hguard hbinding
    refine ⟨hadmits, fun w hw => ?_⟩
    have hold := halike w hw
    rw [isCell, isRestricted, guard?, hkept w hold]
    exact hold

end Store

/-! ### Unification asks the guards -/

namespace Scope

variable {c d : Scope S}

variable (f) in
/-- What a unification keeps while chains end, that the store is guarded
included. -/
structure Guards (c d : Scope S) : Prop where
  safe : c.Safe d
  guarded : c.world.store.Guarded f → d.world.store.Guarded f

theorem lasting_guards : Lasting (fun c : Scope S => c.world.store.ChainsEnd) (Guards f) where
  refl _ := ⟨safe_of_same rfl (Setoid.refl _), id⟩
  trans h h' := ⟨h.safe.trans h'.safe, fun hc => h'.guarded (h.guarded hc)⟩
  last hc h := h.safe.chains hc

theorem guards_of_world (c : Scope S) (w : World S) (h : w.store = c.world.store) :
    c.Guards f { c with world := w } :=
  ⟨safe_of_world c w h, fun hc => hc.congr (Store.equiv_of_eq h.symm)⟩

variable (hT : T.GuardsDecide f) (n : Nat) (v : Var) (value : S.Term)

include hT

theorem admits_decides (c : Scope S) :
    Ensures (admits T n (unify T n) v value) c
      (fun b d => d.world.store ≈ c.world.store ∧
        ∀ g, c.world.store.guard? v = some g → b = f g value) fun _ => True := by
  rw [admits, ensures_bind_of_eq_ok (store_apply c)]
  cases hguard : c.world.store.guard? v with
  | none =>
    refine ⟨Setoid.refl _, fun g hg => ?_⟩
    cases hg
  | some guard =>
    show Ensures (aside ((T.admits guard value).exec T n (unify T n))) c _ _
    rw [aside, ensures_onPart, ensures_iff]
    refine ⟨fun b d hexec => ?_, fun _ _ _ => trivial⟩
    obtain ⟨hverdict, hstore⟩ := hT guard value n _ b d hexec
    refine ⟨hstore, fun g hg => ?_⟩
    cases hg
    exact hverdict

/-- A variable that is bound holds the value, and its guard admits the value. -/
theorem bind_decides (c : Scope S) :
    Ensures (bind T n (unify T n) v value) c
      (fun _ d => d.world.store ≈ c.world.store ∨
        (d.world.store ≈ c.world.store.set v (some value) ∧
          ∀ g, c.world.store.guard? v = some g → f g value = true)) fun _ => True := by
  rw [bind, ensures_bind]
  refine (admits_decides hT n v value c).mono ?_
  rintro b d ⟨hstore, hverdict⟩
  cases b with
  | false => exact .inl hstore
  | true =>
    rw [if_pos rfl, ensures_bind_of_eq_ok (record_apply v d), ensures_bind]
    -- What the second consultation says is not needed: the first one saw the same value.
    have hassign : Ensures (assign T n (unify T n) v value)
        { d with trail := d.trail.record d.world.store v }
        (fun r e => e.world.store ≈ d.world.store ∨
          (r = none ∧ e.world.store ≈ d.world.store.set v (some value))) fun _ => True := by
      rw [assign, ensures_bind_of_eq_ok (store_apply _)]
      split
      · exact .inl (Setoid.refl _)
      · split
        · exact .inl (Setoid.refl _)
        · rw [ensures_bind]
          refine (admits_decides hT n v value _).mono ?_
          rintro b e ⟨hestore, -⟩
          cases b with
          | true => exact .inr ⟨rfl, Store.set_congr hestore v _⟩
          | false => exact .inl hestore
    refine hassign.mono ?_
    rintro r e (hsame | ⟨rfl, hset⟩)
    · -- Not assigned: the slot is as it was, whatever becomes of the entry for it.
      have hkept : e.world.store ≈ c.world.store := Setoid.trans hsame hstore
      split
      · exact .inl hkept
      · split
        · trivial
        · exact .inl hkept
    · refine .inr ⟨Setoid.trans hset (Store.set_congr hstore v _), fun g hg => ?_⟩
      exact (hverdict g hg).symm

omit v value in
/-- While chains end, a unification fills no slot with what its guard refuses. -/
theorem unify_guards (a b : S.Term) :
    Keeps (fun c : Scope S => c.world.store.ChainsEnd) (Guards f) Stop.Harmless
      (unify T n a b) := by
  induction n generalizing a b with
  | zero => exact Keeps.throw (by simp [Stop.Harmless])
  | succ n ih =>
    refine unifyStep_of_takes lasting_guards (by simp [Stop.Harmless]) guards_of_world ih
      (fun c v value hc htakes => ?_) a b
    have hsafe := bind_safe hT.inert (unify_safe hT.inert n) hc htakes.free htakes.apart
    refine (hsafe.and (bind_decides hT n v value c)).mono ?_
    rintro r d ⟨hcd, hsame | ⟨hset, hadmits⟩⟩
    · exact ⟨hcd, fun hguarded => hguarded.congr (Setoid.symm hsame)⟩
    · exact ⟨hcd, fun hguarded => (hguarded.set htakes hadmits).congr (Setoid.symm hset)⟩

end Scope

/-- Going back on a trail that has saved empty slots only asks no guard. -/
theorem Scope.guarded_backtracked {c : Scope S} (h : c.world.store.Guarded f)
    (hc : c.trail.SavesEmpty c.world.store) (mark : Nat) :
    (c.backtracked mark).world.store.Guarded f := by
  rw [backtracked, Trail.backtrack_eq]
  exact h.restore fun e he => hc e (List.mem_of_mem_take he)

/-! ### What restricted variables stand for -/

/-- A restricted variable holds a value that its guard admits, or another
restricted variable that its guard admits and that leads to the value in the same
way. -/
inductive Store.Vouched (f : S.Guard → S.Term → Bool) (s : Store S) (value : S.Term) : Var → Prop
  | holds {v : Var} {g : S.Guard} : s.guard? v = some g → s.binding v = some value →
      f g value = true → Vouched f s value v
  | follows {v w : Var} {g : S.Guard} : s.guard? v = some g → s.binding v = some (.var w) →
      f g (.var w) = true → Vouched f s value w → Vouched f s value v

namespace Store

variable {s : Store S} {v : Var} {value : S.Term}

theorem Vouched.isRestricted (h : s.Vouched f value v) : s.isRestricted v = true := by
  cases h with
  | holds hguard _ _ => exact isRestricted_of_guard? hguard
  | follows hguard _ _ _ => exact isRestricted_of_guard? hguard

/-- A guard that admits no restricted variable admits the value itself. -/
theorem Vouched.admits (h : s.Vouched f value v) {g : S.Guard} (hg : s.guard? v = some g)
    (hclosed : ∀ w, s.isRestricted w = true → f g (.var w) = false) : f g value = true := by
  cases h with
  | holds hguard _ hadmits =>
    rw [hguard] at hg
    cases hg
    exact hadmits
  | @follows _ w _ hguard _ hadmits hrest =>
    rw [hguard] at hg
    cases hg
    rw [hclosed w hrest.isRestricted] at hadmits
    cases hadmits

/-- The value at the end of a chain has been admitted on the way. -/
theorem Guarded.vouches (h : s.Guarded f) (hs : s.ChainsEnd) (hv : s.isRestricted v = true)
    (hvalue : s.deref (.var v) = value) (hno : value.var? = none) : s.Vouched f value v := by
  -- along the chain that starts at the variable
  suffices hall : ∀ a : S.Term, ∀ v, a = .var v → s.isRestricted v = true →
      s.deref a = value → s.Vouched f value v from hall _ v rfl hv hvalue
  intro a
  induction a using hs.induction with
  | _ a ih =>
    rintro v rfl hv hend
    have hcell := isCell_of_isRestricted hv
    obtain ⟨g, hg⟩ := Option.isSome_iff_exists.mp hv
    cases hbinding : s.binding v with
    | none =>
      rw [deref_of_step?_eq_none (by simp [step?, hcell, hbinding])] at hend
      rw [← hend] at hno
      cases hno
    | some t =>
      have hstep : s.step? (.var v) = some t := by simp [step?, hcell, hbinding]
      rw [deref_of_step?_eq_some hs hstep] at hend
      obtain ⟨hadmits, halike⟩ := h v g t hg hbinding
      cases ht : t.var? with
      | none =>
        have hlast : s.step? t = none := by cases t <;> first | rfl | cases ht
        rw [deref_of_step?_eq_none hlast] at hend
        subst hend
        exact .holds hg hbinding hadmits
      | some w =>
        rw [Term.var?_eq_some] at ht
        subst ht
        rcases halike w rfl with hw | hw
        · -- a chain that stops at a cell gives no value
          rw [deref_of_cell hw] at hend
          rw [← hend] at hno
          cases hno
        · exact .follows hg hbinding hadmits (ih _ hstep w rfl hw hend)

end Store

/-! ### Sessions -/

namespace Session

variable {ι κ : Type} [DecidableEq ι] [DecidableEq κ] {s s' : Session S ι κ}

omit [DecidableEq ι] [DecidableEq κ] in
theorem Fresh.guarded (h : s.Fresh) : s.world.store.Guarded f := by
  intro v g t hguard hbinding
  have hcell := Store.isCell_of_isRestricted (Store.isRestricted_of_guard? hguard)
  have hbound := h.unbound v
  rw [Store.isBound_eq_true.mpr ⟨hcell, t, hbinding⟩] at hbound
  cases hbound

variable (hT : T.GuardsDecide f)

include hT

theorem Step.guarded (h : Step T s s') (hs : s.Sound) (hguarded : s.world.store.Guarded f) :
    s'.world.store.Guarded f := by
  cases h with
  | @unify n a b r c i hc =>
    exact ((Scope.unify_guards hT n a b _ hs.chains).ok hc).guarded hguarded
  | @engineUnify n a b r answers m j hm =>
    have hscope := Machine.unify_scope hm
    exact ((Scope.unify_guards hT n a b _ hs.chains).ok hscope).guarded hguarded
  | backtrack i mark =>
    exact Scope.guarded_backtracked (c := s.scope i) hguarded (hs.trails i) mark
  | engineBacktrack j answers mark =>
    exact Scope.guarded_backtracked (c := (s.machine j answers).scope) hguarded (hs.engines j) mark
  | copy i i' => exact hguarded
  | engineCopy i j => exact hguarded
  | newVariable guard => exact hguarded.new fun _ _ => rfl
  | newCell value => exact hguarded.new fun _ h => nomatch h
  | other hstore htrails hengines =>
    rw [hstore]
    exact hguarded

/-- Whatever trails and engines do in turn, guards have admitted what the slots of
their variables hold. -/
theorem Reachable.guarded (h : s.Reachable T) : s.world.store.Guarded f := by
  obtain ⟨s₀, hfresh, hsteps⟩ := h
  induction hsteps with
  | refl => exact hfresh.guarded
  | tail hbefore hstep ih =>
    exact hstep.guarded hT (Reachable.sound hT.inert ⟨s₀, hfresh, hbefore⟩) ih

/-- A restricted variable that stands for a value leads to it through restricted
variables only, and the guard of each of them has admitted what comes next.  In
particular, a guard that admits no restricted variable has admitted the value. -/
theorem Reachable.vouched (h : s.Reachable T) {v : Var} {value : S.Term}
    (hv : s.world.store.isRestricted v = true) (hvalue : s.world.store.deref (.var v) = value)
    (hno : value.var? = none) :
    s.world.store.Vouched f value v ∧ ∀ g, s.world.store.guard? v = some g →
      (∀ w, s.world.store.isRestricted w = true → f g (.var w) = false) → f g value = true := by
  have hvouched := (h.guarded hT).vouches (h.sound hT.inert).chains hv hvalue hno
  exact ⟨hvouched, fun g hg hclosed => hvouched.admits hg hclosed⟩

end Session

/-! ### A value that arrives later -/

/-- The vocabulary without structures and with integers as guards. -/
abbrev Unlike.vocabulary : Vocabulary := ⟨Empty, Int, Unit⟩

/-- Whether a term is anything but an integer. -/
def Unlike.admits (n : Int) : Unlike.vocabulary.Term → Bool
  | .int m => m != n
  | _ => true

/-- The theory in which a restricted variable takes everything but an integer. -/
def Unlike.theory : Theory Unlike.vocabulary where
  unifyWith label := nomatch label
  copies label := nomatch label
  render label := nomatch label
  admits n value := .done (Unlike.admits n value)

theorem Unlike.guardsDecide : Unlike.theory.GuardsDecide Unlike.admits := by
  intro n value fuel c b d h
  cases h
  exact ⟨rfl, Setoid.refl _⟩

/-- A trail, a variable that is unlike three, and one that is unlike five. -/
def Unlike.session : Session Unlike.vocabulary Unit Unit :=
  let store : Store Unlike.vocabulary := (Store.empty.new (.ordinary (some (3 : Int))) none).2
  ⟨⟨(store.new (.ordinary (some (5 : Int))) none).2, 0, (), []⟩, fun _ => .empty,
    fun _ => .new .standard⟩

/-- The first variable is bound to the second one, and this to three. -/
def Unlike.aliased : Session Unlike.vocabulary Unit Unit :=
  (Unlike.session.unified Unlike.theory 3 () (.var ⟨1⟩) (.var ⟨2⟩)).unified Unlike.theory 3 ()
    (.var ⟨2⟩) (.int 3)

theorem Unlike.session_reachable : Unlike.session.Reachable Unlike.theory := by
  let start : Session Unlike.vocabulary Unit Unit :=
    ⟨World.start (), fun _ => .empty, fun _ => .new .standard⟩
  have hstart : start.Reachable Unlike.theory := by
    refine ⟨start, ⟨fun v => ?_, fun _ => rfl, fun _ => rfl⟩, .refl⟩
    show Store.empty.isBound v = false
    rw [Store.isBound, Store.binding, Store.get_empty]
    exact Bool.and_false _
  have hone := hstart.step (.newVariable (some (3 : Int)))
  have htwo := hone.step (.newVariable (some (5 : Int)))
  exact htwo

theorem Unlike.aliased_reachable : Unlike.aliased.Reachable Unlike.theory :=
  (Unlike.session_reachable.unified 3 () _ _).unified 3 () _ _

/-- A guard may refuse the value that its variable stands for. -/
theorem Session.alias_passes_guard : ∃ s : Session Unlike.vocabulary Unit Unit,
    s.Reachable Unlike.theory ∧ Unlike.theory.GuardsDecide Unlike.admits ∧
      s.world.store.guard? ⟨1⟩ = some 3 ∧ s.world.store.deref (.var ⟨1⟩) = .int 3 ∧
      Unlike.admits 3 (.int 3) = false :=
  ⟨Unlike.aliased, Unlike.aliased_reachable, Unlike.guardsDecide, rfl, rfl, rfl⟩

/-- The first guard has admitted the second variable, and the second guard the
value. -/
theorem Session.vouched_aliased :
    Unlike.theory.GuardsDecide Unlike.admits ∧ Unlike.aliased.Reachable Unlike.theory ∧
      Unlike.aliased.world.store.isRestricted ⟨1⟩ = true ∧
      Unlike.aliased.world.store.deref (.var ⟨1⟩) = .int 3 ∧
      Unlike.aliased.world.store.Vouched Unlike.admits (.int 3) ⟨1⟩ := by
  have hvalue : Unlike.aliased.world.store.deref (.var ⟨1⟩) = .int 3 := rfl
  have hvouched := Unlike.aliased_reachable.vouched Unlike.guardsDecide rfl hvalue rfl
  exact ⟨Unlike.guardsDecide, Unlike.aliased_reachable, rfl, hvalue, hvouched.1⟩

end GoalSearch
