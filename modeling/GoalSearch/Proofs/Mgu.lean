/-
Unification finds most general unifiers.

The solutions of a store after a successful unification are the solutions
before that give both terms the same, and if there is any, unification ends and
succeeds.  This is about plain terms in a store without cyclic terms; nothing is
assumed about the rest of the store.

* `unify_level` — one level of the unification of plain terms;
* `unify_sound` — every solution after a success equates the terms;
* `unify_complete` — every solution that equates the terms is kept, and then the
  unification succeeds if it has the fuel;
* `unify_most_general` — both together, with what they say about identity,
  copies and a second unification.

Design notes: how deep a unification goes is bounded by the size of what a
solution makes of its terms, which later bindings do not change.  Without a
solution there may be no bound at all, as there is no occurs check.
-/
import GoalSearch.Proofs.Fuel
import GoalSearch.Proofs.Levels

namespace GoalSearch

open GoalSearch.Action

variable {S : Vocabulary}

/-! ### One level -/

namespace Scope

/-- The scope after recording and filling the slot of a variable. -/
def bound (c : Scope S) (v : Var) (value : S.Term) : Scope S :=
  ⟨c.trail.record c.world.store v,
    { c.world with store := c.world.store.set v (some value) }⟩

/-- An unrestricted unbound variable takes every value that does not lead back
to it. -/
theorem bind_of_unrestricted (T : Theory S) (n : Nat) (unify : Unifier S) {c : Scope S} {v : Var}
    {value : S.Term} (hguard : c.world.store.guard? v = none)
    (hv : c.world.store.isBound v = false)
    (hvalue : (c.world.store.deref value).var? ≠ some v) :
    bind T n unify v value c = .ok true (c.bound v value) := by
  have hadmits : ∀ d : Scope S, d.world.store = c.world.store →
      admits T n unify v value d = .ok true d := by
    intro d hd
    rw [admits, bind_ok (store_apply d), hd, hguard]
    rfl
  have hassign : assign T n unify v value { c with trail := c.trail.record c.world.store v } =
      .ok none (c.bound v value) := by
    rw [assign, bind_ok (store_apply _)]
    dsimp only
    rw [hv, if_neg (by simp), if_neg hvalue]
    exact (bind_ok (hadmits { c with trail := c.trail.record c.world.store v } rfl)).trans rfl
  rw [bind, bind_ok (hadmits c rfl), if_pos rfl, bind_ok (record_apply v c), bind_ok hassign]
  rfl

/-- A scope in which no chain closes and a collection is closed. -/
structure Fine (A : S.Term → Prop) (c : Scope S) : Prop where
  chains : c.world.store.ChainsEnd
  closed : c.world.store.Closed A

theorem Fine.bound {A : S.Term → Prop} {c : Scope S} (h : c.Fine A) {v : Var} {value : S.Term}
    (hvalue : A value) (hv : c.world.store.isBound v = false)
    (hne : (c.world.store.deref value).var? ≠ some v) : (c.bound v value).Fine A :=
  ⟨h.chains.set hv hne, h.closed.set v hvalue⟩

end Scope

variable {T : Theory S} {A : S.Term → Prop} {c : Scope S} {t u : S.Term}

/-- What one level of the unification of plain terms comes to, given the ends of
their chains. -/
inductive UnifyLevel (T : Theory S) (n : Nat) (c : Scope S) (a b : S.Term) :
    EStateM.Result Stop (Scope S) Bool → Prop
  | outOfFuel : c.world.store.identical? n a b = none → UnifyLevel T n c a b (.error .outOfFuel c)
  | same : c.world.store.identical? n a b = some true → UnifyLevel T n c a b (.ok true c)
  | left (v : Var) : a = .var v → b ≠ .var v → UnifyLevel T n c a b (.ok true (c.bound v b))
  | right (w : Var) : b = .var w → a ≠ .var w → UnifyLevel T n c a b (.ok true (c.bound w a))
  | lists (as bs : List S.Term) : a = .list as → b = .list bs → as.length = bs.length →
      UnifyLevel T n c a b (allPairs (unify T n) as bs c)
  | clash : (∀ σ, a.subst σ ≠ b.subst σ) → UnifyLevel T n c a b (.ok false c)

/-- Of two ends that differ a variable takes the other one. -/
theorem Scope.Fine.bind_end {v : Var} {a : S.Term} (h : c.Fine A) (hv : A (.var v))
    (hend : c.world.store.step? (.var v) = none) (haend : c.world.store.step? a = none)
    (hne : a ≠ .var v) (n : Nat) (unify : Unifier S) :
    Scope.bind T n unify v a c = .ok true (c.bound v a) := by
  have hunbound := Store.isBound_of_deref_eq_var h.chains (Store.deref_of_step?_eq_none hend)
  refine bind_of_unrestricted T n unify (h.closed.guard hv) hunbound ?_
  rw [Store.deref_of_step?_eq_none haend, Ne, Term.var?_eq_some]
  exact hne

theorem unify_level (h : c.Fine A) (ht : A t) (hu : A u) (n : Nat) :
    UnifyLevel T n c (c.world.store.deref t) (c.world.store.deref u) (unify T (n + 1) t u c) := by
  have ha := h.closed.deref ht
  have hb := h.closed.deref hu
  have haend := Store.step?_deref h.chains t
  have hbend := Store.step?_deref h.chains u
  have hstep := unifyStep_spec T n (unify T n) c t u
  rw [unify]
  generalize c.world.store.deref t = a at *
  generalize c.world.store.deref u = b at *
  generalize unifyStep T n (unify T n) t u c = result at *
  cases hstep with
  | outOfFuel hid => exact .outOfFuel hid
  | same hid => exact .same hid
  | differ hid hdiffer =>
    cases hdiffer with
    | left v hav _ =>
      subst hav
      have hne : b ≠ .var v := by
        -- A variable that were the other end too would be identical to itself.
        rintro rfl
        exact Store.identical?_self haend (by simp) n hid
      rw [h.bind_end ha haend hbend hne]
      exact .left v rfl hne
    | right w hbw _ =>
      subst hbw
      have hne : a ≠ .var w := by
        rintro rfl
        exact Store.identical?_self hbend (by simp) n hid
      rw [h.bind_end hb hbend haend hne]
      exact .right w rfl hne
    | lists as bs has hbs hlength => exact .lists as bs has hbs hlength
    | structLeft object label args hstruct =>
      subst hstruct
      exact absurd ha h.closed.struct
    | structRight object label args hstruct =>
      subst hstruct
      exact absurd hb h.closed.struct
    | clash hclash => exact .clash (hclash.subst_ne haend hid)

/-! ### Soundness -/

/-- What a unification of plain terms makes sure of: a later solution is an
earlier one, and equates the terms if they were unified. -/
structure Unified (A : S.Term → Prop) (c : Scope S) (r : Bool) (d : Scope S)
    (equated : (Var → S.Term) → Prop) : Prop where
  fine : d.Fine A
  earlier : ∀ σ, d.world.store.Solves σ → c.world.store.Solves σ
  equated : r = true → ∀ σ, d.world.store.Solves σ → equated σ

theorem unified_bound (h : c.Fine A) {v : Var} {a : S.Term} (hv : A (.var v)) (ha : A a)
    (hend : c.world.store.step? (.var v) = none) (haend : c.world.store.step? a = none)
    (hne : a ≠ .var v) : Unified A c true (c.bound v a) fun σ => σ v = a.subst σ := by
  have hunbound : c.world.store.isBound v = false :=
    Store.isBound_of_deref_eq_var h.chains (Store.deref_of_step?_eq_none hend)
  have hsolves := Store.solves_set (h.closed.cell hv) (h.closed.binding_of_step? hv hend) a
  refine ⟨h.bound ha hunbound ?_, fun σ hσ => ((hsolves σ).mp hσ).1,
    fun _ σ hσ => ((hsolves σ).mp hσ).2⟩
  rw [Store.deref_of_step?_eq_none haend, Ne, Term.var?_eq_some]
  exact hne

theorem allPairs_sound {n : Nat}
    (ih : ∀ {c : Scope S} {t u : S.Term}, c.Fine A → A t → A u →
      Ensures (unify T n t u) c (fun r d => Unified A c r d fun σ => t.subst σ = u.subst σ)
        (· = .outOfFuel))
    {as bs : List S.Term} (h : c.Fine A) (has : ∀ a ∈ as, A a) (hbs : ∀ b ∈ bs, A b)
    (hlength : as.length = bs.length) :
    Ensures (allPairs (unify T n) as bs) c
      (fun r d => Unified A c r d fun σ => as.map (Term.subst σ) = bs.map (Term.subst σ))
      (· = .outOfFuel) := by
  induction as generalizing bs c with
  | nil =>
    cases bs with
    | nil => exact ⟨h, fun _ hσ => hσ, fun _ _ _ => rfl⟩
    | cons b bs => cases hlength
  | cons a as ihas =>
    cases bs with
    | nil => cases hlength
    | cons b bs =>
      rw [List.forall_mem_cons] at has hbs
      rw [allPairs, ensures_bind]
      refine (ih h has.1 hbs.1).mono fun r d hr => ?_
      cases r with
      | false => exact ⟨hr.fine, hr.earlier, by simp⟩
      | true =>
        have hrest := ihas hr.fine has.2 hbs.2 (by simpa using hlength)
        refine hrest.mono fun r' e hr' =>
          ⟨hr'.fine, fun σ hσ => hr.earlier σ (hr'.earlier σ hσ), ?_⟩
        intro hr'true σ hσ
        rw [List.map_cons, List.map_cons, hr.equated rfl σ (hr'.earlier σ hσ),
          hr'.equated hr'true σ hσ]

/-- Every solution after a successful unification of plain terms equates them. -/
theorem unify_sound {n : Nat} (h : c.Fine A) (ht : A t) (hu : A u) :
    Ensures (unify T n t u) c (fun r d => Unified A c r d fun σ => t.subst σ = u.subst σ)
      (· = .outOfFuel) := by
  induction n generalizing c t u with
  | zero => exact rfl
  | succ n ih =>
    have ha := h.closed.deref ht
    have hb := h.closed.deref hu
    have haend := Store.step?_deref h.chains t
    have hbend := Store.step?_deref h.chains u
    -- Every later solution goes through the slots, so it is enough to equate the ends.
    have hback : ∀ {r d}, Unified A c r d (fun σ => (c.world.store.deref t).subst σ =
        (c.world.store.deref u).subst σ) → Unified A c r d fun σ => t.subst σ = u.subst σ := by
      refine fun hr => ⟨hr.fine, hr.earlier, fun htrue σ hσ => ?_⟩
      rw [← (hr.earlier σ hσ).deref t, ← (hr.earlier σ hσ).deref u]
      exact hr.equated htrue σ hσ
    suffices h' : Ensures (unify T (n + 1) t u) c (fun r d => Unified A c r d fun σ =>
        (c.world.store.deref t).subst σ = (c.world.store.deref u).subst σ)
        fun e => e = .outOfFuel from
      h'.mono fun _ _ => hback
    have hlevel := unify_level (T := T) h ht hu n
    rw [Ensures]
    generalize c.world.store.deref t = a at *
    generalize c.world.store.deref u = b at *
    generalize unify T (n + 1) t u c = result at *
    cases hlevel with
    | outOfFuel _ => exact rfl
    | same hr => exact ⟨h, fun _ hσ => hσ, fun _ _ hσ => h.closed.identical?_sound hσ ha hb hr⟩
    | left v hv hne =>
      subst hv
      exact unified_bound h ha hb haend hbend hne
    | right w hw hne =>
      subst hw
      have hbound := unified_bound h hb ha hbend haend hne
      exact ⟨hbound.fine, hbound.earlier, fun htrue σ hσ => (hbound.equated htrue σ hσ).symm⟩
    | lists as bs has hbs hlength =>
      subst has hbs
      have hpairs := allPairs_sound ih h (h.closed.item ha) (h.closed.item hb) hlength
      refine hpairs.mono fun r d hr => ⟨hr.fine, hr.earlier, fun htrue σ hσ => ?_⟩
      rw [Term.subst_list, Term.subst_list, hr.equated htrue σ hσ]
    | clash _ => exact ⟨h, fun _ hσ => hσ, by simp⟩

/-! ### Completeness -/

/-- What a unification of plain terms keeps when a solution equates them. -/
structure Solved (A : S.Term → Prop) (σ : Var → S.Term) (c : Scope S) (r : Bool)
    (d : Scope S) : Prop where
  success : r = true
  fine : d.Fine A
  solves : d.world.store.Solves σ
  acyclic : c.world.store.Acyclic → d.world.store.Acyclic

theorem Solved.of_same {σ : Var → S.Term} (h : c.Fine A) (hσ : c.world.store.Solves σ) :
    Solved A σ c true c :=
  ⟨rfl, h, hσ, id⟩

/-- Variables to which a solution gives more lead to no variable to which it
gives less. -/
theorem Store.Closed.sizeOf_le_of_refers {s : Store S} (hA : s.Closed A) {σ : Var → S.Term}
    (hσ : s.Solves σ) {v w : Var} (hv : A (.var v)) (h : Relation.ReflTransGen s.Refers v w) :
    A (.var w) ∧ sizeOf (σ w) ≤ sizeOf (σ v) := by
  induction h with
  | refl => exact ⟨hv, Nat.le_refl _⟩
  | tail _ hstep ih =>
    obtain ⟨a, hbinding, hocc⟩ := hstep
    refine ⟨hA.occurs hocc (hA.binding ih.1 hbinding), Nat.le_trans ?_ ih.2⟩
    rw [hσ _ a (hA.cell ih.1) hbinding]
    exact Term.sizeOf_subst_le_of_occurs hocc

theorem solved_bound {σ : Var → S.Term} (h : c.Fine A) (hσ : c.world.store.Solves σ) {v : Var}
    {a : S.Term} (hv : A (.var v)) (ha : A a) (hend : c.world.store.step? (.var v) = none)
    (haend : c.world.store.step? a = none) (hne : a ≠ .var v) (heq : σ v = a.subst σ) :
    Solved A σ c true (c.bound v a) := by
  have hbinding := h.closed.binding_of_step? hv hend
  have hunified := unified_bound h hv ha hend haend hne
  refine ⟨rfl, hunified.fine, ?_, fun hacyclic => hacyclic.set fun w hw hreach => ?_⟩
  · exact (Store.solves_set (h.closed.cell hv) hbinding a σ).mpr ⟨hσ, heq⟩
  · have hwA : A (.var w) := h.closed.occurs hw ha
    have hle := (h.closed.sizeOf_le_of_refers hσ hwA hreach).2
    by_cases haw : a = .var w
    · -- the value is an unbound variable, so nothing leads on from it
      subst haw
      have hwbinding := h.closed.binding_of_step? hwA haend
      rcases Relation.ReflTransGen.cases_head hreach with rfl | ⟨x, ⟨b, hb, -⟩, -⟩
      · exact hne rfl
      · rw [hwbinding] at hb
        cases hb
    · have hlt := Term.sizeOf_subst_lt_of_occurs (σ := σ) hw haw
      rw [← heq] at hlt
      exact absurd hle (Nat.not_le_of_gt hlt)

theorem allPairs_complete {σ : Var → S.Term} {n size : Nat}
    (ih : ∀ {c : Scope S} {t u : S.Term}, c.Fine A → c.world.store.Solves σ → A t → A u →
      t.subst σ = u.subst σ →
      Ensures (unify T n t u) c (Solved A σ c) fun _ => n ≤ sizeOf (t.subst σ))
    {as bs : List S.Term} (h : c.Fine A) (hσ : c.world.store.Solves σ) (has : ∀ a ∈ as, A a)
    (hbs : ∀ b ∈ bs, A b) (hsize : ∀ a ∈ as, sizeOf (a.subst σ) < size)
    (hmap : as.map (Term.subst σ) = bs.map (Term.subst σ)) :
    Ensures (allPairs (unify T n) as bs) c (Solved A σ c) fun _ => n < size := by
  induction as generalizing bs c with
  | nil => exact Solved.of_same h hσ
  | cons a as ihas =>
    cases bs with
    | nil => cases hmap
    | cons b bs =>
      injection hmap with hab hrest
      rw [List.forall_mem_cons] at has hbs hsize
      rw [allPairs, ensures_bind]
      have hpair := (ih h hσ has.1 hbs.1 hab).weaken fun _ hn => Nat.lt_of_le_of_lt hn hsize.1
      refine hpair.mono fun r d hsolved => ?_
      -- The first pair is unified and the solution is kept, so the rest can go on with it.
      rw [hsolved.success]
      refine (ihas hsolved.fine hsolved.solves has.2 hbs.2 hsize.2 hrest).mono fun r' e hr' => ?_
      exact ⟨hr'.success, hr'.fine, hr'.solves, fun hc => hr'.acyclic (hsolved.acyclic hc)⟩

/-- Plain terms that a solution equates are unified, and the solution is kept,
unless there is less fuel than the solution makes the terms big. -/
theorem unify_complete {σ : Var → S.Term} {n : Nat} (h : c.Fine A)
    (hσ : c.world.store.Solves σ) (ht : A t) (hu : A u) (heq : t.subst σ = u.subst σ) :
    Ensures (unify T n t u) c (Solved A σ c) fun _ => n ≤ sizeOf (t.subst σ) := by
  induction n generalizing c t u with
  | zero => exact Nat.zero_le _
  | succ n ih =>
    have ha := h.closed.deref ht
    have hb := h.closed.deref hu
    have haend := Store.step?_deref h.chains t
    have hbend := Store.step?_deref h.chains u
    have hlevel := unify_level (T := T) h ht hu n
    rw [← hσ.deref t] at heq ⊢
    rw [← hσ.deref u] at heq
    rw [Ensures]
    generalize c.world.store.deref t = a at *
    generalize c.world.store.deref u = b at *
    generalize unify T (n + 1) t u c = result at *
    cases hlevel with
    | outOfFuel hr =>
      -- The ends were not compared for want of fuel, but terms of this size can be.
      by_contra hn
      obtain ⟨r, hr', -⟩ := h.closed.identical?_total h.chains hσ (n := n) ha hb heq (by omega)
      rw [hr] at hr'
      cases hr'
    | same _ => exact Solved.of_same h hσ
    | left v hv hne =>
      subst hv
      exact solved_bound h hσ ha hb haend hbend hne heq
    | right w hw hne =>
      subst hw
      exact solved_bound h hσ hb ha hbend haend hne heq.symm
    | lists as bs has hbs hlength =>
      subst has hbs
      have hmap : as.map (Term.subst σ) = bs.map (Term.subst σ) := by simpa using heq
      exact allPairs_complete ih h hσ (h.closed.item ha) (h.closed.item hb)
        (fun a ha => Term.sizeOf_subst_lt ha) hmap
    | clash hclash => exact absurd heq (hclash σ)

/-! ### Most general unifiers -/

theorem unify_of_identical {n : Nat}
    (h : c.world.store.identical? n (c.world.store.deref t) (c.world.store.deref u) = some true) :
    unify T (n + 1) t u c = .ok true c := by
  rw [unify, unifyStep, bind_ok (Scope.store_apply c), h]
  rfl

/-- In a store without cyclic terms, plain terms that stand for the same are
identical, and to unify them needs no binding. -/
theorem unify_of_value_eq (h : c.Fine A) (hc : c.world.store.Acyclic) (ht : A t) (hu : A u)
    (heq : t.subst hc.value = u.subst hc.value) {n : Nat} (hn : sizeOf (t.subst hc.value) < n) :
    unify T n t u c = .ok true c := by
  obtain ⟨n, rfl⟩ : ∃ m, n = m + 1 := ⟨n - 1, by omega⟩
  have hσ := hc.solves_value
  have heq' : (c.world.store.deref t).subst hc.value = (c.world.store.deref u).subst hc.value := by
    rw [hσ.deref t, hσ.deref u, heq]
  obtain ⟨r, hr, htrue⟩ := h.closed.identical?_total h.chains hσ (n := n) (h.closed.deref ht)
    (h.closed.deref hu) heq' (by rw [hσ.deref t]; omega)
  rw [htrue hc.free_value] at hr
  exact unify_of_identical hr

/-- With enough fuel for what a solution makes of them, the terms that it equates are
unified. -/
theorem exists_unify_of_solution {σ : Var → S.Term} (h : c.Fine A)
    (hσ : c.world.store.Solves σ) (ht : A t) (hu : A u) (heq : t.subst σ = u.subst σ) :
    ∃ d, unify T (sizeOf (t.subst σ) + 1) t u c = .ok true d ∧ Solved A σ c true d := by
  have hcomplete := unify_complete (T := T) (n := sizeOf (t.subst σ) + 1) h hσ ht hu heq
  cases hunify : unify T (sizeOf (t.subst σ) + 1) t u c with
  | error e d => exact absurd (hcomplete.error hunify) (Nat.not_succ_le_self _)
  | ok r d =>
    have hsolved := hcomplete.ok hunify
    obtain rfl := hsolved.success
    exact ⟨d, rfl, hsolved⟩

/-- After a success the solutions are those from before that equate the terms. -/
theorem solves_iff_of_unify {n : Nat} {d : Scope S} (h : c.Fine A) (ht : A t) (hu : A u)
    (hd : unify T n t u c = .ok true d) (τ : Var → S.Term) :
    d.world.store.Solves τ ↔ c.world.store.Solves τ ∧ t.subst τ = u.subst τ := by
  have hsound := (unify_sound h ht hu).ok hd
  constructor
  · exact fun hτ => ⟨hsound.earlier τ hτ, hsound.equated rfl τ hτ⟩
  · rintro ⟨hτ, heq⟩
    exact ((unify_complete h hτ ht hu heq).ok hd).solves

/-- Unification finds most general unifiers.  In a store without cyclic terms, if
some solution of the store equates two plain terms, then with enough fuel they
are unified; the new store has no cyclic terms, its solutions are the old ones
that equate the terms, and in it the terms are identical and have the same
copies.  If they are not unified, no solution equates them.  And terms that were
unified without making a term cyclic are unified again, in both orders, without
any binding. -/
theorem unify_most_general (T : Theory S) {c : Scope S} (hc : c.world.store.Acyclic)
    {t u : S.Term} (ht : c.world.store.Plain t) (hu : c.world.store.Plain u) :
    (∀ σ, c.world.store.Solves σ → t.subst σ = u.subst σ →
      ∃ N d, (∀ n ≥ N, unify T n t u c = .ok true d) ∧ d.world.store.Acyclic ∧
        (∀ n ≥ N, d.world.store.identical? n t u = some true) ∧
        (∃ copy, ∀ n ≥ N, ∀ i, (T.resolve? d.world.store n t).run i = some (copy, i) ∧
          (T.resolve? d.world.store n u).run i = some (copy, i)) ∧
        ∀ τ, d.world.store.Solves τ ↔ c.world.store.Solves τ ∧ t.subst τ = u.subst τ) ∧
      (∀ n d, unify T n t u c = .ok false d →
        ¬ ∃ σ, c.world.store.Solves σ ∧ t.subst σ = u.subst σ) ∧
      ∀ n d, unify T n t u c = .ok true d → d.world.store.Acyclic →
        ∃ N, ∀ n ≥ N, unify T n t u d = .ok true d ∧ unify T n u t d = .ok true d := by
  let A : S.Term → Prop := fun a => c.world.store.Reaches t a ∨ c.world.store.Reaches u a
  have hfine : c.Fine A := ⟨hc.chainsEnd, ht.closed hu⟩
  have htA : A t := .inl .refl
  have huA : A u := .inr .refl
  refine ⟨fun σ hσ heq => ?_, fun n d hd => ?_, fun n d hd hacyclic => ?_⟩
  · obtain ⟨d, hd, hsolved⟩ := exists_unify_of_solution (T := T) hfine hσ htA huA heq
    have hsound := (unify_sound hfine htA huA).ok hd
    have hacyclic := hsolved.acyclic hc
    -- what the terms stand for in the new store says how much fuel is enough for the rest
    have hvalue := hacyclic.solves_value
    have hveq := hsound.equated rfl _ hvalue
    refine ⟨sizeOf (t.subst σ) + 1 + sizeOf (t.subst hacyclic.value), d, fun n hn => ?_, hacyclic,
      fun n hn => ?_, ⟨t.subst hacyclic.value, fun n hn i => ⟨?_, ?_⟩⟩,
      solves_iff_of_unify hfine htA huA hd⟩
    · exact (unify_below (by omega) t u).ok hd
    · obtain ⟨r, hr, htrue⟩ := hsound.fine.closed.identical?_total hsound.fine.chains hvalue
        (n := n) htA huA hveq (by omega)
      rw [hr, htrue hacyclic.free_value]
    · exact hsound.fine.closed.resolve?_eq hsound.fine.chains hvalue hacyclic.free_value T htA
        (by omega) i
    · rw [hveq]
      exact hsound.fine.closed.resolve?_eq hsound.fine.chains hvalue hacyclic.free_value T huA
        (by rw [← hveq]; omega) i
  · rintro ⟨σ, hσ, heq⟩
    have hsolved := (unify_complete (T := T) hfine hσ htA huA heq).ok hd
    exact absurd hsolved.success (by simp)
  · have hsound := (unify_sound hfine htA huA).ok hd
    have heq := hsound.equated rfl _ hacyclic.solves_value
    refine ⟨sizeOf (t.subst hacyclic.value) + 1, fun n hn => ⟨?_, ?_⟩⟩
    · exact unify_of_value_eq hsound.fine hacyclic htA huA heq (by omega)
    · exact unify_of_value_eq hsound.fine hacyclic huA htA heq.symm (by rw [← heq]; omega)

/-- A scope in which one variable is bound to a list of another one. -/
def Bounds.linked : Scope Bounds.vocabulary :=
  ⟨.empty, { World.start () with store := Store.empty.set ⟨1⟩ (some (.list [.var ⟨2⟩])) }⟩

theorem Bounds.linked_acyclic : Bounds.linked.world.store.Acyclic := by
  refine Store.acyclic_empty.set fun w hw hreach => ?_
  rcases Relation.ReflTransGen.cases_head hreach with rfl | ⟨x, ⟨a, ha, -⟩, -⟩
  · cases hw with
    | list hmem hocc =>
      rw [List.mem_singleton] at hmem
      subst hmem
      cases hocc
  · rw [Store.binding, Store.get_empty] at ha
    cases ha

theorem Bounds.linked_plain (t : Bounds.vocabulary.Term) : Bounds.linked.world.store.Plain t := by
  have hclosed : Bounds.linked.world.store.Closed fun _ => True :=
    { item := fun _ _ _ => trivial
      binding := fun _ _ => trivial
      cell := fun {v} _ => by
        show (Store.empty.set _ _).isCell v = false
        rw [Store.isCell_set, Store.isCell, Store.get_empty]
        rfl
      guard := fun {v} _ => by
        show (Store.empty.set _ _).guard? v = none
        rw [Store.guard?_set, Store.guard?, Store.get_empty]
        rfl
      struct := fun {_ label _} _ => nomatch label }
  exact hclosed.plain trivial

/-- Two lists whose variables occur in both elements have a unifier. -/
theorem unify_most_general_linked :
    ∃ N d, (∀ n ≥ N, unify Bounds.theory n (.list [.var ⟨1⟩, .var ⟨2⟩])
        (.list [.list [.var ⟨3⟩], .int 4]) Bounds.linked = .ok true d) ∧
      d.world.store.Acyclic := by
  let σ : Var → Bounds.vocabulary.Term := fun v => if v = ⟨1⟩ then .list [.int 4] else .int 4
  have hσ : Bounds.linked.world.store.Solves σ := by
    intro v a _ hbinding
    have hset : (Store.empty.set ⟨1⟩ (some (.list [.var ⟨2⟩]))).binding v = some a := hbinding
    rw [Store.binding_set] at hset
    by_cases hv : (⟨1⟩ : Var) = v
    · subst hv
      rw [if_pos rfl] at hset
      cases hset
      rfl
    · rw [if_neg hv, Store.binding, Store.get_empty] at hset
      cases hset
  obtain ⟨N, d, hd, hacyclic, -⟩ := (unify_most_general Bounds.theory Bounds.linked_acyclic
    (Bounds.linked_plain (.list [.var ⟨1⟩, .var ⟨2⟩]))
    (Bounds.linked_plain (.list [.list [.var ⟨3⟩], .int 4]))).1 σ hσ (by simp [σ])
  exact ⟨N, d, hd, hacyclic⟩

end GoalSearch
