/-
The checks of a binding, and when they hold.

A binding asks its guard, checks that the variable is not bound and that the value
does not lead back to it, asks the guard again, and fills the slot.  Guards are code
that may unify terms.  Whatever a guard did when it was asked first is seen by the
checks, and stops everything if it spoilt them; what it does when asked again is seen
by no one.  So a slot is filled safely if its guard binds nothing at that point, and a
guard that does can have its own binding overwritten, or close a chain.

* `Action.Leads` — relations from where a computation begins to where it ends or stops;
* `Filling`, `Theory.Fills` — all slots that are filled on the way, those filled by
  guards included, each one behind its checks and the consent of its guard;
* `Scope.bind_violates` — a binding whose checks fail stops everything;
* `unify_fillings` — unification changes slots in this way and in no other;
* `Store.Upholds` — later stores in which bound variables are bound to the same;
* `unify_checked` — what is left of the checks where a slot is filled, for all guards.

Design notes: panics keep the slots filled up to then, so computations that stop are
covered as well, other than by `Keeps`.
-/
import GoalSearch.Proofs.Binding
import GoalSearch.Proofs.Rows

namespace GoalSearch

open GoalSearch.Action

variable {S : Vocabulary} {T : Theory S}

/-! ### From the beginning to the end, however it comes -/

namespace Action

variable {σ τ α β : Type} {R : σ → σ → Prop}

/-- A relation from every state to the one in which a computation from there ends or
stops. -/
def Leads (R : σ → σ → Prop) (x : Action σ α) : Prop := ∀ s, R s (x.last s)

variable (h : Lasting (fun _ => True) R)

include h

theorem Leads.pure (a : α) : Leads R (Pure.pure a : Action σ α) := h.refl

theorem Leads.throw (e : Stop) : Leads R (MonadExcept.throw e : Action σ α) := h.refl

theorem Leads.get : Leads R (MonadState.get : Action σ σ) := h.refl

theorem Leads.ofOption (o : Option α) : Leads R (ofOption o : Action σ α) := by
  cases o with
  | none => exact Leads.throw h _
  | some a => exact Leads.pure h a

theorem Leads.bind {x : Action σ α} {f : α → Action σ β} (hx : x.Leads R)
    (hf : ∀ a, (f a).Leads R) : (x >>= f).Leads R := by
  intro s
  have hs := hx s
  cases hend : x s with
  | ok a t =>
    rw [last_bind_of_ok hend]
    rw [last, hend] at hs
    exact h.trans hs (hf a t)
  | error e t => rwa [last_bind_of_error hend]

theorem Leads.allPairs {test : α → β → Action σ Bool} (ht : ∀ a b, (test a b).Leads R) :
    ∀ as bs, (allPairs test as bs).Leads R
  | a :: as, b :: bs => by
    refine Leads.bind h (ht a b) fun r => ?_
    cases r with
    | true => exact Leads.allPairs ht as bs
    | false => exact Leads.pure h _
  | [], _ => Leads.pure h _
  | _ :: _, [] => Leads.pure h _

end Action

/-- Questions leave the slots alone, whether they are answered or not. -/
theorem Ask.last_answer (n : Nat) (q : Ask S) (w : World S) :
    ((q.answer T n).last w).store = w.store := by
  cases q with
  | display t =>
    show ((ofOption (T.display? w.store n t) : Action (World S) _).last w).store = _
    cases T.display? w.store n t <;> rfl
  | identical a b =>
    show ((ofOption (w.store.identical? n a b) : Action (World S) _).last w).store = _
    cases w.store.identical? n a b <;> rfl
  | _ => rfl

section Unify

variable {R : Scope S → Scope S → Prop} (h : Lasting (fun _ => True) R)
  (hask : ∀ n (q : Ask S) c, R c { c with world := (q.answer T n).last c.world })

include h hask

theorem Hook.exec_leads {n : Nat} {unify : Unifier S} (hu : ∀ a b, (unify a b).Leads R)
    (k : Hook S) : (k.exec T n unify).Leads R := by
  induction k with
  | done b => exact Leads.pure h b
  | ask q next ih =>
    refine Leads.bind h (fun c => ?_) ih
    have hlast : (Scope.onWorld (q.answer T n)).last c =
        { c with world := (q.answer T n).last c.world } := by
      rw [last, Scope.onWorld, onPart, last]
      cases q.answer T n c.world <;> rfl
    rw [hlast]
    exact hask n q c
  | unify a b next ih => exact Leads.bind h (hu a b) ih

theorem unifyStep_leads {n : Nat} {unify : Unifier S} (hu : ∀ a b, (unify a b).Leads R)
    (hbind : ∀ v value, (Scope.bind T n unify v value).Leads R) (a b : S.Term) :
    (unifyStep T n unify a b).Leads R := by
  unfold unifyStep
  refine Leads.bind h (Leads.bind h (Leads.get h) fun _ => Leads.pure h _) fun s => ?_
  refine Leads.bind h (Leads.ofOption h _) fun r => ?_
  split
  · exact Leads.pure h _
  · split
    · split
      · exact hbind _ _
      · exact hbind _ _
    · exact hbind _ _
    · exact hbind _ _
    · split
      · exact Leads.allPairs h hu _ _
      · exact Leads.pure h _
    · exact Hook.exec_leads h hask hu _
    · exact Hook.exec_leads h hask hu _
    · exact Leads.pure h _

/-- Consulting a guard leads wherever unifications lead, provided the trail on which it
works does not matter. -/
theorem Scope.admits_leads {n : Nat} (hu : ∀ a b, (GoalSearch.unify T n a b).Leads R)
    (haside : ∀ c d, R { c with trail := .empty } d → R c { d with trail := c.trail }) (v : Var)
    (value : S.Term) : (admits T n (GoalSearch.unify T n) v value).Leads R := by
  intro c
  cases hguard : c.world.store.guard? v with
  | none =>
    rw [admits, last_bind_of_ok (store_apply c), hguard]
    exact h.refl c
  | some g =>
    rw [admits, last_bind_of_ok (store_apply c), hguard]
    have hguards : ((T.admits g value).exec T n (GoalSearch.unify T n)).Leads R :=
      Hook.exec_leads h hask hu (T.admits g value)
    have hexec := haside c _ (hguards { c with trail := .empty })
    show R c ((aside ((T.admits g value).exec T n (GoalSearch.unify T n))).last c)
    rw [last, aside, onPart]
    rw [last] at hexec
    generalize (T.admits g value).exec T n (GoalSearch.unify T n) { c with trail := .empty } = r
      at hexec
    cases r <;> exact hexec

/-- What every binding leads to, every unification does. -/
theorem unify_leads
    (hbind : ∀ n, (∀ a b, (unify T n a b).Leads R) →
      ∀ v value, (Scope.bind T n (unify T n) v value).Leads R) :
    ∀ n a b, (unify T n a b).Leads R := by
  intro n
  induction n with
  | zero => exact fun _ _ => Leads.throw h _
  | succ n ih => exact unifyStep_leads h hask ih (hbind n ih)

end Unify

/-! ### Slots that are filled -/

/-- A slot that is filled: the slots at this moment, the variable and its value. -/
structure Filling (S : Vocabulary) where
  /-- The slots right before. -/
  store : Store S
  /-- The variable whose slot is filled. -/
  var : Var
  /-- What the slot is filled with. -/
  value : S.Term

/-- The guard of a variable, when it is asked about a value, says yes and leaves the
slots as they are in `s'`; a variable without a guard takes everything at once. -/
def Theory.Consents (T : Theory S) (s : Store S) (v : Var) (value : S.Term) (s' : Store S) : Prop :=
  ∃ n c d, Scope.admits T n (unify T n) v value c = .ok true d ∧
    c.world.store = s ∧ d.world.store = s'

/-- Slots that are filled one after the other, newest first.  For each of them, the
checks hold, the guard is asked and may fill slots of its own, and then the slot is
filled, though it is not checked again. -/
inductive Theory.Fills (T : Theory S) : Store S → List (Filling S) → Store S → Prop
  | none (s : Store S) : Fills T s [] s
  | fill {s s₁ s₂ : Store S} {before own : List (Filling S)} {v : Var} {value : S.Term} :
      Fills T s before s₁ → s₁.Checks v value → T.Consents s₁ v value s₂ → Fills T s₁ own s₂ →
      Fills T s (⟨s₂, v, value⟩ :: (own ++ before)) (s₂.set v (some value))

theorem Theory.Fills.trans {s s' s'' : Store S} {ws ws' : List (Filling S)} (h : T.Fills s ws s')
    (h' : T.Fills s' ws' s'') : T.Fills s (ws' ++ ws) s'' := by
  induction h' with
  | none => exact h
  | fill _ hchecks hasks hown ih _ =>
    have hfill := Theory.Fills.fill (ih h) hchecks hasks hown
    rwa [← List.append_assoc] at hfill

/-- Some slots are filled on the way. -/
def Scope.Filling (T : Theory S) (c d : Scope S) : Prop :=
  ∃ ws, T.Fills c.world.store ws d.world.store

namespace Scope

variable {c c₁ : Scope S} {v : Var} {value : S.Term} {n : Nat}

theorem filling_of_same {d : Scope S} (h : d.world.store = c.world.store) : c.Filling T d :=
  ⟨[], by rw [h]; exact .none _⟩

theorem filling_of_answer (n : Nat) (q : Ask S) (c : Scope S) :
    c.Filling T { c with world := (q.answer T n).last c.world } :=
  filling_of_same (Ask.last_answer n q c.world)

theorem lasting_filling : Lasting (fun _ => True) (Filling T) where
  refl _ := filling_of_same rfl
  trans := fun ⟨_, h⟩ ⟨_, h'⟩ => ⟨_, h.trans h'⟩
  last _ _ := trivial

/-- A binding whose checks fail after the guard was asked first stops everything, and
fills nothing. -/
theorem bind_violates (h₁ : admits T n (GoalSearch.unify T n) v value c = .ok true c₁)
    (hchecks : ¬ c₁.world.store.Checks v value) :
    ∃ r, (r = .alreadyBound v ∨ r = .cycle v) ∧
      bind T n (GoalSearch.unify T n) v value c = .error (.fault (.violation r)) (c₁.saved v) := by
  have hbind : ∀ r : Refusal, r.isViolation = true →
      assign T n (GoalSearch.unify T n) v value (c₁.saved v) = .ok (some r) (c₁.saved v) →
      bind T n (GoalSearch.unify T n) v value c = .error (.fault (.violation r)) (c₁.saved v) := by
    intro r hr hassign
    rw [bind, bind_ok h₁, if_pos rfl, bind_ok (record_saved c₁ v), bind_ok hassign]
    dsimp only
    rw [if_pos hr]
    rfl
  cases hbound : c₁.world.store.isBound v with
  | true =>
    refine ⟨.alreadyBound v, .inl rfl, hbind _ rfl ?_⟩
    rw [assign, bind_ok (store_apply _)]
    exact congrFun (if_pos hbound) _
  | false =>
    have hcycle : (c₁.world.store.deref value).var? = some v := by
      by_contra hne
      exact hchecks ⟨hbound, hne⟩
    refine ⟨.cycle v, .inr rfl, hbind _ rfl ?_⟩
    rw [assign, bind_ok (store_apply _)]
    exact (congrFun (if_neg (by simp [saved, hbound])) _).trans (congrFun (if_pos hcycle) _)

section Leads

variable (hu : ∀ a b, (GoalSearch.unify T n a b).Leads (Filling T))

include hu

theorem bind_leads (v : Var) (value : S.Term) :
    (bind T n (GoalSearch.unify T n) v value).Leads (Filling T) := by
  intro c
  have hadmits := admits_leads lasting_filling filling_of_answer hu (fun _ _ h => h) v value
  have hfirst := hadmits c
  rw [last] at hfirst ⊢
  cases h₁ : admits T n (GoalSearch.unify T n) v value c with
  | error e c₁ =>
    rw [bind, bind_error h₁]
    rwa [h₁] at hfirst
  | ok b₁ c₁ =>
    rw [h₁] at hfirst
    cases b₁ with
    | false => rwa [bind_refused h₁]
    | true =>
      -- Checks that fail leave the slot empty, so there is no second consultation to follow.
      by_cases hchecks : c₁.world.store.Checks v value
      · have hsecond := hadmits (c₁.saved v)
        rw [last] at hsecond
        cases h₂ : admits T n (GoalSearch.unify T n) v value (c₁.saved v) with
        | error e c₂ =>
          rw [bind_stopped h₁ hchecks h₂]
          rw [h₂] at hsecond
          exact lasting_filling.trans hfirst hsecond
        | ok b₂ c₂ =>
          rw [h₂] at hsecond
          cases b₂ with
          | false =>
            rw [bind_revoked h₁ hchecks h₂]
            exact lasting_filling.trans hfirst hsecond
          | true =>
            rw [bind_admitted h₁ hchecks h₂]
            obtain ⟨before, hbefore⟩ := hfirst
            obtain ⟨own, hown⟩ := hsecond
            exact ⟨_, .fill hbefore hchecks ⟨n, c₁.saved v, c₂, h₂, rfl, rfl⟩ hown⟩
      · obtain ⟨r, -, hbind⟩ := bind_violates h₁ hchecks
        rw [hbind]
        exact hfirst

end Leads

end Scope

/-- However a unification ends, it has filled slots behind their checks and with the
consent of their guards, and has changed no other slot. -/
theorem unify_fillings (T : Theory S) (n : Nat) (a b : S.Term) (c : Scope S) :
    ∃ ws, T.Fills c.world.store ws ((unify T n a b).last c).world.store :=
  unify_leads Scope.lasting_filling Scope.filling_of_answer (fun _ hu => Scope.bind_leads hu)
    n a b c

/-! ### What is bound stays bound -/

/-- Stores with the same variables, those that were bound still bound to the same. -/
structure Store.Upholds (s s' : Store S) : Prop where
  role : ∀ v, (s'.get v).role = (s.get v).role
  value : ∀ v, s.isBound v = true → s'.binding v = s.binding v

namespace Store

variable {s s' s'' : Store S} {v : Var} {value : S.Term}

theorem Upholds.refl (s : Store S) : s.Upholds s := ⟨fun _ => rfl, fun _ _ => rfl⟩

theorem Upholds.isBound (h : s.Upholds s') (hv : s.isBound v = true) : s'.isBound v = true := by
  rw [Store.isBound, isCell, h.role, h.value v hv]
  exact hv

theorem Upholds.trans (h : s.Upholds s') (h' : s'.Upholds s'') : s.Upholds s'' where
  role v := (h'.role v).trans (h.role v)
  value v hv := (h'.value v (h.isBound hv)).trans (h.value v hv)

theorem Upholds.guard? (h : s.Upholds s') (v : Var) : s'.guard? v = s.guard? v := by
  rw [Store.guard?, Store.guard?, h.role]

/-- Filling a slot that was empty earlier upholds what was bound then. -/
theorem Upholds.set (h : s.Upholds s') (hv : s.isBound v = false) :
    s.Upholds (s'.set v (some value)) where
  role w := (role_set s' v w _).trans (h.role w)
  value w hw := by
    have hne : v ≠ w := by
      rintro rfl
      rw [hv] at hw
      cases hw
    rw [binding_set, if_neg hne]
    exact h.value w hw

end Store

namespace Theory

variable {s s' : Store S} {ws : List (Filling S)}

/-- A slot is empty when it is checked, so what was bound before is never overwritten. -/
theorem Fills.upholds (h : T.Fills s ws s') : s.Upholds s' := by
  induction h with
  | none s => exact .refl s
  | fill _ hchecks _ _ ih ihown => exact ih.trans (ihown.set hchecks.free)

/-- A chain is closed only by a slot whose checks do not hold when it is filled. -/
theorem Fills.chainsEnd (h : T.Fills s ws s') (hs : s.ChainsEnd)
    (hws : ∀ w ∈ ws, w.store.Checks w.var w.value) : s'.ChainsEnd := by
  induction h with
  | none => exact hs
  | fill _ _ _ _ ih ihown =>
    rw [List.forall_mem_cons, List.forall_mem_append] at hws
    obtain ⟨hlast, hown, hbefore⟩ := hws
    exact (ihown (ih hs hbefore) hown).set hlast.free hlast.away

end Theory

namespace Store

variable {s s' : Store S} {v : Var} {value : S.Term}

theorem Checks.congr (h : s.Checks v value) (hs : s.ChainsEnd) (heq : s ≈ s') :
    s'.Checks v value where
  free := by rw [← isBound_congr heq, h.free]
  away := by
    rw [← deref_congr hs heq]
    exact h.away

/-- A guard that binds nothing leaves the checks as they are. -/
theorem Checks.of_consents (h : s.Checks v value) (hasks : T.Consents s v value s')
    (hguard : ∀ g, s.guard? v = some g → T.Inert g ∧ s'.ChainsEnd) : s'.Checks v value := by
  obtain ⟨n, c, d, hadmits, rfl, rfl⟩ := hasks
  cases hg : c.world.store.guard? v with
  | none =>
    rw [Scope.admits, bind_ok (Scope.store_apply c), hg] at hadmits
    cases hadmits
    exact h
  | some g =>
    have hinert : ∀ g, c.world.store.guard? v = some g → T.Inert g := fun g hg => (hguard g hg).1
    have hsame := ((Scope.admits_of_inert hinert n value).ok hadmits).2
    exact h.congr ((hguard g hg).2.congr hsame) (Setoid.symm hsame)

end Store

/-- Where the guard of a variable binds nothing, the checks hold when its slot is
filled. -/
theorem Theory.Fills.checks {s s' : Store S} {ws : List (Filling S)} (h : T.Fills s ws s') :
    ∀ w ∈ ws, (∀ g, w.store.guard? w.var = some g → T.Inert g ∧ w.store.ChainsEnd) →
      w.store.Checks w.var w.value := by
  induction h with
  | none => simp
  | fill _ hchecks hasks hown ih ihown =>
    rw [List.forall_mem_cons, List.forall_mem_append]
    refine ⟨fun hguard => hchecks.of_consents hasks fun g hg => hguard g ?_, ihown, ih⟩
    rw [hown.upholds.guard?, hg]

/-- The checks of bindings, for guards that may unify terms while they are asked.  After
a guard was asked first, a check that fails stops everything.  All slots that change
are filled behind their checks, with the consent of their guards in between; the checks
still hold when the slot is filled, unless the guard itself binds something there.
What was bound before is not overwritten, however the unification ends, and no chain is
closed unless a slot is filled whose checks do not hold any more. -/
theorem unify_checked (T : Theory S) (n : Nat) :
    (∀ v value c c₁, Scope.admits T n (unify T n) v value c = .ok true c₁ →
      ¬ c₁.world.store.Checks v value →
      ∃ r, (r = .alreadyBound v ∨ r = .cycle v) ∧
        Scope.bind T n (unify T n) v value c = .error (.fault (.violation r)) (c₁.saved v)) ∧
    ∀ a b c d, (unify T n a b).last c = d →
      ∃ ws, T.Fills c.world.store ws d.world.store ∧
        (∀ w ∈ ws, (∀ g, w.store.guard? w.var = some g → T.Inert g ∧ w.store.ChainsEnd) →
          w.store.Checks w.var w.value) ∧
        (∀ v, c.world.store.isBound v = true →
          d.world.store.binding v = c.world.store.binding v) ∧
        (c.world.store.ChainsEnd → (∀ w ∈ ws, w.store.Checks w.var w.value) →
          d.world.store.ChainsEnd) := by
  refine ⟨fun v value c c₁ h₁ hchecks => Scope.bind_violates h₁ hchecks, ?_⟩
  rintro a b c d rfl
  obtain ⟨ws, hws⟩ := unify_fillings T n a b c
  exact ⟨ws, hws, hws.checks, hws.upholds.value, hws.chainsEnd⟩

/-- The vocabulary without structures, with guards that mention a variable and a term,
and a private state that counts. -/
abbrev Reentrant.vocabulary : Vocabulary := ⟨Empty, Var × Term Empty, Nat⟩

/-- The theory in which every guard says yes, and the one that is asked second unifies
its variable with its term before. -/
def Reentrant.theory : Theory Reentrant.vocabulary where
  unifyWith label := nomatch label
  copies label := nomatch label
  render label := nomatch label
  admits guard _ := .ask .state fun (count : Nat) => .ask (.put (count + 1)) fun _ =>
    if count = 1 then .unify (.var guard.1) guard.2 fun _ => .done true else .done true

/-- Two restricted variables, whose guards unify `v` with `t` when they are asked
second. -/
def Reentrant.scope (v : Var) (t : Term Empty) : Scope Reentrant.vocabulary :=
  ⟨.empty, ⟨⟨#[.fresh, ⟨.ordinary (some (v, t)), none⟩, ⟨.ordinary (some (v, t)), none⟩]⟩,
    0, 0, []⟩⟩

/-- A guard that binds its own variable when it is asked again has its binding
overwritten, and the unification succeeds; one that binds the value to the variable has
a chain closed. -/
theorem checks_outrun :
    (∃ c₁ c₂ d, Scope.admits Reentrant.theory 4 (unify Reentrant.theory 4) ⟨1⟩ (.int 3)
          (Reentrant.scope ⟨1⟩ (.int 5)) = .ok true c₁ ∧
        Scope.admits Reentrant.theory 4 (unify Reentrant.theory 4) ⟨1⟩ (.int 3) (c₁.saved ⟨1⟩) =
          .ok true c₂ ∧
        c₂.world.store.isCell ⟨1⟩ = false ∧ c₂.world.store.binding ⟨1⟩ = some (.int 5) ∧
        unify Reentrant.theory 5 (.var ⟨1⟩) (.int 3) (Reentrant.scope ⟨1⟩ (.int 5)) = .ok true d ∧
        d.world.store.binding ⟨1⟩ = some (.int 3)) ∧
    ∃ d, (Reentrant.scope ⟨2⟩ (.var ⟨1⟩)).world.store.ChainsEnd ∧
      unify Reentrant.theory 5 (.var ⟨1⟩) (.var ⟨2⟩) (Reentrant.scope ⟨2⟩ (.var ⟨1⟩)) = .ok true d ∧
      ¬ d.world.store.ChainsEnd := by
  refine ⟨⟨_, _, _, rfl, rfl, rfl, rfl, rfl, rfl⟩, ?_⟩
  have hempty : ∀ v, (Reentrant.scope ⟨2⟩ (.var ⟨1⟩)).world.store.binding v = none := by
    rintro ⟨_ | _ | _ | i⟩ <;> rfl
  refine ⟨_, ⟨fun t => .intro t fun u hu => ?_⟩, rfl, fun h => ?_⟩
  · obtain ⟨v, -, -, hbinding⟩ := Store.step?_eq_some.mp hu
    rw [hempty] at hbinding
    cases hbinding
  · -- the first variable is bound to the second one, and the second one to the first
    exact WellFounded.asymmetric h (a := Term.var ⟨2⟩) (b := Term.var ⟨1⟩) rfl rfl

end GoalSearch
