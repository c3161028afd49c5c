/-
Plain terms: those that lead to no cell, no structure and no restricted variable.

Plain terms are what substitutions speak about.  Two of them that are identical
get the same from every solution of the store, and if no term is cyclic, they
are identical if they stand for the same, which is what their copies are.

* `Store.Reaches`, `Store.Plain` — what a term leads to, and plain terms;
* `Store.Closed` — collections of terms that plain terms stay in;
* `Store.Closed.identical?_sound`, `Store.Closed.identical?_total` — identity
  against solutions of the store;
* `Store.Closed.resolve?_eq` — the copies of plain terms.

Design notes: slots are filled while terms are looked at, but plain terms lead
into the same collection all the time (`Store.Closed.set`), so statements are
about collections that are closed.
-/
import GoalSearch.Proofs.Subst
import GoalSearch.Store.Identity
import GoalSearch.Store.Resolve

namespace GoalSearch

variable {S : Vocabulary} {α β γ : Type}

/-! ### Plain terms -/

namespace Store

/-- What a term leads to: its parts, and what variables among them are bound to. -/
inductive Reaches (s : Store S) (t : S.Term) : S.Term → Prop
  | refl : Reaches s t t
  | item {items : List S.Term} {u : S.Term} : Reaches s t (.list items) → u ∈ items → Reaches s t u
  | arg {object : Nat} {label : S.Label} {args : List S.Term} {u : S.Term} :
      Reaches s t (.struct object label args) → u ∈ args → Reaches s t u
  | binding {v : Var} {u : S.Term} : Reaches s t (.var v) → s.binding v = some u → Reaches s t u

/-- A term that leads to no cell, no restricted variable and no structure. -/
structure Plain (s : Store S) (t : S.Term) : Prop where
  cell : ∀ v, s.Reaches t (.var v) → s.isCell v = false
  guard : ∀ v, s.Reaches t (.var v) → s.guard? v = none
  struct : ∀ object label args, ¬ s.Reaches t (.struct object label args)

/-- A collection of terms that contains what its terms lead to, none of which is
a cell, a restricted variable or a structure. -/
structure Closed (s : Store S) (A : S.Term → Prop) : Prop where
  item : ∀ {items}, A (.list items) → ∀ t ∈ items, A t
  binding : ∀ {v t}, A (.var v) → s.binding v = some t → A t
  cell : ∀ {v}, A (.var v) → s.isCell v = false
  guard : ∀ {v}, A (.var v) → s.guard? v = none
  struct : ∀ {object label args}, ¬ A (.struct object label args)

theorem Plain.closed {s : Store S} {t u : S.Term} (ht : s.Plain t) (hu : s.Plain u) :
    s.Closed fun a => s.Reaches t a ∨ s.Reaches u a where
  item h _ ha := h.imp (·.item ha) (·.item ha)
  binding h hb := h.imp (·.binding hb) (·.binding hb)
  cell {v} h := h.elim (ht.cell v) (hu.cell v)
  guard {v} h := h.elim (ht.guard v) (hu.guard v)
  struct h := h.elim (ht.struct _ _ _) (hu.struct _ _ _)

variable {s : Store S} {A : S.Term → Prop} {σ : Var → S.Term}

/-- The terms of a closed collection are plain. -/
theorem Closed.plain (hA : s.Closed A) {t : S.Term} (ht : A t) : s.Plain t := by
  have hreach : ∀ u, s.Reaches t u → A u := by
    intro u hu
    induction hu with
    | refl => exact ht
    | item _ hmem ih => exact hA.item ih _ hmem
    | arg _ _ ih => exact absurd ih hA.struct
    | binding _ hb ih => exact hA.binding ih hb
  exact ⟨fun v hv => hA.cell (hreach _ hv), fun v hv => hA.guard (hreach _ hv),
    fun _ _ _ hs => hA.struct (hreach _ hs)⟩

theorem Closed.deref (hA : s.Closed A) {t : S.Term} (ht : A t) : A (s.deref t) :=
  deref_mem (fun _ _ => hA.binding) ht

theorem Closed.set (hA : s.Closed A) (v : Var) {a : S.Term} (ha : A a) :
    (s.set v (some a)).Closed A where
  item := hA.item
  binding {w t} hw hb := by
    rw [binding_set] at hb
    by_cases hvw : v = w
    · rw [if_pos hvw] at hb
      cases hb
      exact ha
    · rw [if_neg hvw] at hb
      exact hA.binding hw hb
  cell hw := by
    rw [isCell_set]
    exact hA.cell hw
  guard hw := by
    rw [guard?_set]
    exact hA.guard hw
  struct := hA.struct

theorem Closed.occurs (hA : s.Closed A) {v : Var} {t : S.Term} (hv : Term.Occurs v t)
    (ht : A t) : A (.var v) := by
  induction hv with
  | var => exact ht
  | list hmem _ ih => exact ih (hA.item ht _ hmem)
  | struct => exact absurd ht hA.struct

/-- An end of a chain in a closed collection is an unbound variable or no
variable at all. -/
theorem Closed.binding_of_step? (hA : s.Closed A) {v : Var} (hv : A (.var v))
    (h : s.step? (.var v) = none) : s.binding v = none := by
  simpa [step?, hA.cell hv] using h

/-! ### Identity and copies of plain terms -/

/-- Substitutions that give the variables at the ends of chains themselves. -/
def Free (s : Store S) (σ : Var → S.Term) : Prop := ∀ v, s.step? (.var v) = none → σ v = .var v

theorem Acyclic.free_value (hs : s.Acyclic) : s.Free hs.value :=
  fun _ h => hs.value_of_step?_eq_none h

theorem map_eq_of_allPairs? {f : α → β → Option Bool} {g : α → γ} {h : β → γ}
    {as : List α} {bs : List β} (hf : ∀ a ∈ as, ∀ b ∈ bs, f a b = some true → g a = h b)
    (hlength : as.length = bs.length) (hr : allPairs? f as bs = some true) :
    as.map g = bs.map h := by
  induction as generalizing bs with
  | nil => cases bs with
    | nil => rfl
    | cons b bs => cases hlength
  | cons a as ih => cases bs with
    | nil => cases hlength
    | cons b bs =>
      rw [allPairs?] at hr
      split at hr
      · next hab =>
        rw [List.map_cons, List.map_cons, hf a (by simp) b (by simp) hab]
        rw [ih (fun a ha b hb => hf a (by simp [ha]) b (by simp [hb])) (by simpa using hlength) hr]
      · next hne => exact absurd hr hne

theorem allPairs?_total {f : α → β → Option Bool} {g : α → γ} {h : β → γ} {P : Prop}
    {as : List α} {bs : List β}
    (hf : ∀ a ∈ as, ∀ b ∈ bs, g a = h b → ∃ r, f a b = some r ∧ (P → r = true))
    (hmap : as.map g = bs.map h) : ∃ r, allPairs? f as bs = some r ∧ (P → r = true) := by
  induction as generalizing bs with
  | nil => exact ⟨true, by simp [allPairs?], fun _ => rfl⟩
  | cons a as ih => cases bs with
    | nil => cases hmap
    | cons b bs =>
      injection hmap with hab hrest
      obtain ⟨r, hr, htrue⟩ := hf a (by simp) b (by simp) hab
      cases r with
      | true =>
        rw [allPairs?, hr]
        exact ih (fun a ha b hb => hf a (by simp [ha]) b (by simp [hb])) hrest
      | false => exact ⟨false, by rw [allPairs?, hr], htrue⟩

/-- The end of a chain is identical to itself if it is no list. -/
theorem identical?_self {a : S.Term} (h : s.step? a = none) (hlist : ∀ items, a ≠ .list items)
    (n : Nat) : s.identical? n a a ≠ some false := by
  cases n with
  | zero => simp
  | succ n =>
    rw [identical?, deref_of_step?_eq_none h]
    cases a with
    | list items => exact absurd rfl (hlist items)
    | _ => simp

/-- Solutions do not tell identical terms apart. -/
theorem Closed.identical?_sound (hA : s.Closed A) (hσ : s.Solves σ) {n : Nat} {t u : S.Term}
    (ht : A t) (hu : A u) (h : s.identical? n t u = some true) : t.subst σ = u.subst σ := by
  induction n generalizing t u with
  | zero => cases h
  | succ n ih =>
    rw [← hσ.deref t, ← hσ.deref u]
    have ha := hA.deref ht
    have hb := hA.deref hu
    rw [identical?] at h
    generalize s.deref t = a at *
    generalize s.deref u = b at *
    -- Ends without parts are identical only if they are equal.
    split at h
    · simp_all
    · simp_all
    · simp_all
    · next as bs =>
      split at h
      · next hlength =>
        rw [Term.subst_list, Term.subst_list]
        refine congrArg _ (map_eq_of_allPairs? (fun x hx y hy hxy => ?_) hlength h)
        exact ih (hA.item ha x hx) (hA.item hb y hy) hxy
      · cases h
    · exact absurd ha hA.struct
    · cases h

/-- Ends of chains that a free substitution does not tell apart are the same, or
two lists. -/
theorem Free.eq_or_lists {a b : S.Term} (hfree : s.Free σ) (ha : s.step? a = none)
    (hb : s.step? b = none) (hplain : ∀ object label args, a ≠ .struct object label args)
    (heq : a.subst σ = b.subst σ) : a = b ∨ ∃ as bs, a = .list as ∧ b = .list bs := by
  cases a with
  | var v =>
    rw [Term.subst_var, hfree v ha] at heq
    cases b with
    | var w => exact .inl (heq.trans (hfree w hb))
    | _ => simp at heq
  | int i =>
    cases b with
    | var w => exact .inl (heq.trans (hfree w hb))
    | int j => exact .inl heq
    | _ => simp at heq
  | atom name =>
    cases b with
    | var w => exact .inl (heq.trans (hfree w hb))
    | atom name' => exact .inl heq
    | _ => simp at heq
  | list as =>
    cases b with
    | var w => simp [hfree w hb] at heq
    | list bs => exact .inr ⟨as, bs, rfl, rfl⟩
    | _ => simp at heq
  | struct object label args => exact absurd rfl (hplain object label args)

/-- Terms that a solution does not tell apart can be compared, and are identical
if the solution is free. -/
theorem Closed.identical?_total (hA : s.Closed A) (hs : s.ChainsEnd) (hσ : s.Solves σ) {n : Nat}
    {t u : S.Term} (ht : A t) (hu : A u) (heq : t.subst σ = u.subst σ)
    (hn : sizeOf (t.subst σ) ≤ n) :
    ∃ r, s.identical? n t u = some r ∧ (s.Free σ → r = true) := by
  induction n generalizing t u with
  | zero => exact absurd hn (Nat.not_le_of_gt (Term.sizeOf_pos _))
  | succ n ih =>
    rw [← hσ.deref t, ← hσ.deref u] at heq
    rw [← hσ.deref t] at hn
    have ha := hA.deref ht
    have hb := hA.deref hu
    have haend := step?_deref hs t
    have hbend := step?_deref hs u
    rw [identical?]
    generalize s.deref t = a at *
    generalize s.deref u = b at *
    split
    · next v w =>
      -- A free solution maps the ends of chains to themselves.
      refine ⟨_, rfl, fun hfree => ?_⟩
      rw [Term.subst_var, Term.subst_var, hfree v haend, hfree w hbend] at heq
      simpa using heq
    · exact ⟨_, rfl, fun _ => by simpa using heq⟩
    · exact ⟨_, rfl, fun _ => by simpa using heq⟩
    · next as bs =>
      have hmap : as.map (Term.subst σ) = bs.map (Term.subst σ) := by simpa using heq
      have hlength : as.length = bs.length := by simpa using congrArg List.length hmap
      rw [if_pos hlength]
      refine allPairs?_total (fun x hx y hy hxy => ?_) hmap
      have hlt : sizeOf (x.subst σ) < sizeOf ((Term.list as).subst σ) := Term.sizeOf_subst_lt hx
      exact ih (hA.item ha x hx) (hA.item hb y hy) hxy (by omega)
    · exact absurd ha hA.struct
    · next hvar hint hatom hlist hstruct =>
      refine ⟨false, rfl, fun hfree => ?_⟩
      have hplain : ∀ object label args, a ≠ .struct object label args := by
        rintro object label args rfl
        exact hA.struct ha
      -- Ends of different kinds are told apart, which a free solution would do too.
      rcases hfree.eq_or_lists haend hbend hplain heq with rfl | ⟨as, bs, rfl, rfl⟩
      · cases a with
        | var v => exact absurd rfl (hvar v v rfl)
        | int i => exact absurd rfl (hint i i rfl)
        | atom name => exact absurd rfl (hatom name name rfl)
        | list as => exact absurd rfl (hlist as as rfl)
        | struct object label args => exact absurd ha hA.struct
      · exact absurd rfl (hlist as bs rfl)

theorem mapM_run_eq {f : α → StateT Nat Option β} {g : α → β} {as : List α}
    (h : ∀ a ∈ as, ∀ i, (f a).run i = some (g a, i)) (i : Nat) :
    (as.mapM f).run i = some (as.map g, i) := by
  induction as with
  | nil => rfl
  | cons a as ih =>
    simp [List.mapM_cons, h a (by simp), ih fun a ha => h a (by simp [ha])]

/-- The copy of a plain term is what a free solution makes of it. -/
theorem Closed.resolve?_eq (hA : s.Closed A) (hs : s.ChainsEnd) (hσ : s.Solves σ)
    (hfree : s.Free σ) (T : Theory S) {n : Nat} {t : S.Term} (ht : A t)
    (hn : sizeOf (t.subst σ) ≤ n) (i : Nat) :
    (T.resolve? s n t).run i = some (t.subst σ, i) := by
  induction n generalizing t i with
  | zero => exact absurd hn (Nat.not_le_of_gt (Term.sizeOf_pos _))
  | succ n ih =>
    rw [← hσ.deref t] at hn ⊢
    have ha := hA.deref ht
    have haend := step?_deref hs t
    rw [Theory.resolve?]
    generalize s.deref t = a at *
    cases a with
    | var v =>
      dsimp only
      -- A free solution leaves an open variable as it is.
      rw [hA.cell ha, Term.subst_var, hfree v haend]
      rfl
    | int i => rfl
    | atom name => rfl
    | list items =>
      have hitems : ∀ x ∈ items, ∀ i, (T.resolve? s n x).run i = some (x.subst σ, i) := by
        intro x hx i
        have hlt : sizeOf (x.subst σ) < sizeOf ((Term.list items).subst σ) :=
          Term.sizeOf_subst_lt hx
        exact ih (hA.item ha x hx) (by omega) i
      simp [mapM_run_eq hitems]
    | struct object label args => exact absurd ha hA.struct

end Store

end GoalSearch
