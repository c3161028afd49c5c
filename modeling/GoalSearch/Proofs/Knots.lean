/-
Cells and stores that lead back to themselves.

A binding is refused if its value dereferences to the variable, and dereferencing
stops at a cell.  So no chain of ordinary variables closes, but a cell may be given
a variable, and this variable may then be bound to the cell.  Copying and showing
terms look into cells and never end on such a knot.

* `Store.Knotted`, `Store.Ties` — stores that lead back to themselves, and the
  unifications that make them so;
* `Theory.Shows` — the texts of terms, and those of the ends of their chains;
* `Theory.exists_copied_of_acyclic`, `Theory.exists_display?_of_acyclic` — where
  nothing leads back to itself, every term has a copy and a text;
* `Scope.Turn` — what is done with one trail: terms without parts are unified, and
  bindings are undone;
* `Scope.untied_ends` — as long as no unification ties a knot there is none, and
  going back restores none;
* `Scope.cell_and_variable_tied` — a knot of a cell and a variable;
* `Scope.untied_of_plainCells` — as long as no cell is given a variable or a cell, no
  knot is tied.

Design notes: terms without parts keep lists and structures out, so that the missing
occurs check plays no part.  Which variable a unification of such terms binds, and
to what, can be read off the ends of two chains (`Store.pairing`).
-/
import GoalSearch.Proofs.Answers
import GoalSearch.Proofs.Levels
import GoalSearch.Proofs.Marks

namespace GoalSearch

open GoalSearch.Action

variable {S : Vocabulary} {T : Theory S}

/-! ### Terms without parts -/

/-- Terms without parts: variables, cells, integers and atoms. -/
inductive Term.Simple {L : Type} : Term L → Prop
  | var (v : Var) : Simple (.var v)
  | int (n : Int) : Simple (.int n)
  | atom (name : String) : Simple (.atom name)

theorem Term.Simple.eq_var_of_occurs {L : Type} {t : Term L} {v : Var} (ht : t.Simple)
    (hv : Term.Occurs v t) : t = .var v := by
  cases ht with
  | var w =>
    cases hv
    rfl
  | int n => cases hv
  | atom name => cases hv

namespace Store

variable {s s' : Store S}

/-- Stores in which no slot holds a list or a structure. -/
def Simple (s : Store S) : Prop := ∀ v a, s.binding v = some a → a.Simple

/-- Some variable or cell leads back to itself through the slots of variables and the
contents of cells. -/
def Knotted (s : Store S) : Prop := ∃ v, Relation.TransGen s.Refers v v

/-- What the unification of two terms without parts binds, and to what, if their ends
differ and one of them is a variable or a cell. -/
def pairing (s : Store S) (t u : S.Term) : Option (Var × S.Term) :=
  match s.deref t, s.deref u with
  | .var v, .var w =>
    if v = w then none
    else if s.isUnbound v && s.isUnbound w && s.isRestricted v && !s.isRestricted w then
      some (w, .var v)
    else some (v, .var w)
  | .var v, b => some (v, b)
  | a, .var w => some (w, a)
  | _, _ => none

/-- The unification of two terms would bind a variable or a cell to one that leads
back to it. -/
def Ties (s : Store S) (t u : S.Term) : Prop :=
  ∃ v w, s.pairing t u = some (v, .var w) ∧ Relation.ReflTransGen s.Refers w v

theorem binding_eq_var {v w : Var} (h : (s.binding v).bind Term.var? = some w) :
    s.binding v = some (.var w) := by
  obtain ⟨a, ha, hw⟩ := Option.bind_eq_some_iff.mp h
  rw [ha, Term.var?_eq_some.mp hw]

theorem Simple.congr (hs : s.Simple) (h : s ≈ s') : s'.Simple := by
  intro v a hv
  rw [← binding_congr h] at hv
  exact hs v a hv

theorem Simple.set (hs : s.Simple) (v : Var) {a : S.Term} (ha : a.Simple) :
    (s.set v (some a)).Simple := by
  intro w b hb
  rw [binding_set] at hb
  by_cases hvw : v = w
  · rw [if_pos hvw] at hb
    cases hb
    exact ha
  · rw [if_neg hvw] at hb
    exact hs w b hb

theorem Simple.deref (hs : s.Simple) {t : S.Term} (ht : t.Simple) : (s.deref t).Simple :=
  deref_mem (fun v a _ => hs v a) ht

theorem Refers.congr (h : s ≈ s') {v w : Var} (hvw : s.Refers v w) : s'.Refers v w := by
  obtain ⟨a, ha, hw⟩ := hvw
  rw [binding_congr h] at ha
  exact ⟨a, ha, hw⟩

theorem Acyclic.congr (hs : s.Acyclic) (h : s ≈ s') : s'.Acyclic :=
  WellFounded.mono hs fun _ _ hvw => Refers.congr (Setoid.symm h) hvw

theorem Knotted.congr (hs : s.Knotted) (h : s ≈ s') : s'.Knotted := by
  obtain ⟨v, hv⟩ := hs
  exact ⟨v, Relation.TransGen.mono (fun _ _ => Refers.congr h) v v hv⟩

theorem Acyclic.not_knotted (hs : s.Acyclic) : ¬ s.Knotted := by
  rintro ⟨v, hv⟩
  exact hs.transGen.irrefl.irrefl v (Relation.transGen_swap.mp hv)

/-! ### What a unification pairs -/

variable {t u a : S.Term} {v w : Var}

/-- Ends of chains without parts are identical only if they are the same term. -/
theorem identical?_simple {a b : S.Term} (ha : a.Simple) (hb : b.Simple) (hta : s.step? a = none)
    (htb : s.step? b = none) {n : Nat} {same : Bool} (h : s.identical? n a b = some same) :
    same = true ↔ a = b := by
  cases n with
  | zero => cases h
  | succ n =>
    rw [identical?, deref_of_step?_eq_none hta, deref_of_step?_eq_none htb] at h
    cases ha <;> cases hb <;> cases h <;> simp

/-- A variable or cell on the left takes the other end, unless that is favoured. -/
theorem pairing_left (ht : s.deref t = .var v) (hne : s.deref u ≠ .var v)
    (hfavours : ∀ w, s.deref u = .var w → s.favours v w = false) :
    s.pairing t u = some (v, s.deref u) := by
  rw [pairing, ht]
  generalize s.deref u = b at *
  cases b with
  | var w =>
    have hkept := hfavours w rfl
    rw [favours] at hkept
    dsimp only
    rw [if_neg fun hvw => hne (congrArg Term.var hvw.symm), hkept, if_neg (by simp)]
  | _ => rfl

/-- A variable or cell on the right takes the other end if that is no variable or cell, and
if it is favoured. -/
theorem pairing_right (hu : s.deref u = .var w) (hne : s.deref t ≠ .var w)
    (hfavours : ∀ v, s.deref t = .var v → s.favours v w = true) :
    s.pairing t u = some (w, s.deref t) := by
  rw [pairing, hu]
  generalize s.deref t = a at *
  cases a with
  | var v =>
    have hgiven := hfavours v rfl
    rw [favours] at hgiven
    dsimp only
    rw [if_neg fun hvw => hne (congrArg Term.var hvw), if_pos hgiven]
  | _ => rfl

/-- Nothing is bound where no end is a variable or cell, or both ends are the same. -/
theorem pairing_none (h : s.deref t = s.deref u ∨
    (s.deref t).var? = none ∧ (s.deref u).var? = none) : s.pairing t u = none := by
  rw [pairing]
  rcases h with heq | ⟨ht, hu⟩
  · rw [heq]
    cases s.deref u with
    | var v => exact if_pos rfl
    | _ => rfl
  · generalize s.deref t = a at *
    generalize s.deref u = b at *
    cases a with
    | var v => cases ht
    | _ =>
      cases b with
      | var w => cases hu
      | _ => rfl

/-- The value that is bound does not dereference to the variable that takes it. -/
theorem pairing_apart (hs : s.ChainsEnd) (h : s.pairing t u = some (v, a)) :
    (s.deref a).var? ≠ some v := by
  have ht := step?_deref hs t
  have hu := step?_deref hs u
  unfold pairing at h
  split at h
  · next v' w' hv' hw' =>
    rw [hv'] at ht
    rw [hw'] at hu
    -- Two free variables that are the same one are no pair, so the value is another variable.
    split at h
    · cases h
    · next hne =>
      split at h
      · cases h
        rw [deref_of_step?_eq_none ht]
        simpa [Term.var?] using hne
      · cases h
        rw [deref_of_step?_eq_none hu]
        simpa [Term.var?] using Ne.symm hne
  · next hne =>
    cases h
    rw [deref_of_step?_eq_none hu, Ne, Term.var?_eq_some]
    exact fun heq => hne _ heq
  · next hne =>
    cases h
    rw [deref_of_step?_eq_none ht, Ne, Term.var?_eq_some]
    exact fun heq => hne _ heq
  · cases h

/-- The variable that is bound is not bound yet, and its value is an end of a chain. -/
theorem pairing_ends (hs : s.ChainsEnd) (h : s.pairing t u = some (v, a)) :
    s.isBound v = false ∧ s.step? a = none ∧ (a = s.deref t ∨ a = s.deref u) := by
  have ht := step?_deref hs t
  have hu := step?_deref hs u
  have htv := fun v (hv : s.deref t = .var v) => isBound_of_deref_eq_var hs hv
  have huv := fun v (hv : s.deref u = .var v) => isBound_of_deref_eq_var hs hv
  unfold pairing at h
  split at h
  · next v' w' hv' hw' =>
    rw [hv'] at ht
    rw [hw'] at hu
    split at h
    · cases h
    · split at h
      · cases h
        exact ⟨huv _ hw', ht, .inl hv'.symm⟩
      · cases h
        exact ⟨htv _ hv', hu, .inr hw'.symm⟩
  · next hv' _ =>
    cases h
    exact ⟨htv _ hv', hu, .inr rfl⟩
  · next hw' _ =>
    cases h
    exact ⟨huv _ hw', ht, .inl rfl⟩
  · cases h

/-- A unification that ties no knot leaves none. -/
theorem Acyclic.set_pairing (hs : s.Acyclic) (ha : a.Simple)
    (h : s.pairing t u = some (v, a)) (hties : ¬ s.Ties t u) : (s.set v (some a)).Acyclic := by
  refine hs.set fun w hw hback => hties ⟨v, w, ?_, hback⟩
  rw [h, ha.eq_var_of_occurs hw]

/-- What leads to a variable goes on to do so when this variable is bound. -/
theorem reaches_set (hback : Relation.ReflTransGen s.Refers w v) (b : Option S.Term) :
    Relation.ReflTransGen (s.set v b).Refers w v := by
  induction hback using Relation.ReflTransGen.head_induction_on with
  | refl => exact .refl
  | @head x y hxy _ ih =>
    by_cases hvx : v = x
    · rw [hvx]
    · obtain ⟨a, ha, hy⟩ := hxy
      refine .head ⟨a, ?_, hy⟩ ih
      rw [binding_set, if_neg hvx, ha]

/-- A unification that ties a knot leaves one. -/
theorem knotted_set_of_ties (h : s.pairing t u = some (v, a)) (hties : s.Ties t u) :
    (s.set v (some a)).Knotted := by
  obtain ⟨v', w, hpair, hback⟩ := hties
  rw [h] at hpair
  cases hpair
  have hhead : (s.set v (some (.var w))).Refers v w :=
    ⟨.var w, by rw [binding_set, if_pos rfl], .var⟩
  exact ⟨v, .head' hhead (reaches_set hback _)⟩

/-- No cell holds a variable or a cell. -/
def PlainCells (s : Store S) : Prop := ∀ v w, s.isCell v = true → s.binding v ≠ some (.var w)

theorem PlainCells.congr (hs : s.PlainCells) (h : s ≈ s') : s'.PlainCells := by
  intro v w hv
  rw [← isCell_congr h] at hv
  rw [← binding_congr h]
  exact hs v w hv

theorem PlainCells.set (hs : s.PlainCells) {v : Var} {a : S.Term}
    (ha : ∀ w, a = .var w → s.isCell v = false) : (s.set v (some a)).PlainCells := by
  intro x w hx
  rw [isCell_set] at hx
  rw [binding_set]
  by_cases hvx : v = x
  · rw [if_pos hvx]
    rintro heq
    cases heq
    rw [← hvx, ha w rfl] at hx
    cases hx
  · rw [if_neg hvx]
    exact hs x w hx

/-- Where no cell holds a variable or a cell, no unification ties a knot. -/
theorem not_ties_of_plainCells (hs : s.ChainsEnd) (hsimple : s.Simple) (hcells : s.PlainCells) :
    ¬ s.Ties t u := by
  rintro ⟨v, w, hpair, hback⟩
  obtain ⟨-, hend, -⟩ := pairing_ends hs hpair
  have hapart := pairing_apart hs hpair
  rw [deref_of_step?_eq_none hend, Ne, Term.var?_eq_some] at hapart
  rcases Relation.ReflTransGen.cases_head hback with heq | ⟨x, ⟨b, hb, hx⟩, -⟩
  · exact hapart (by rw [heq])
  · -- the value is the end of a chain, so only a cell leads on from it
    have hcell : s.isCell w = true := by
      by_contra hne
      simp [step?, hne, hb] at hend
    rw [(hsimple w b hb).eq_var_of_occurs hx] at hb
    exact hcells w x hcell hb

/-! ### Copies and texts where nothing leads back -/

/-- What holds of every variable whose value it holds of, and of every term whose
parts it holds of, holds of all terms, as long as nothing leads back to itself. -/
theorem Acyclic.induct (hs : s.Acyclic) {P : S.Term → Prop}
    (var : ∀ v, (∀ a, s.binding v = some a → P a) → P (.var v)) (int : ∀ n, P (.int n))
    (atom : ∀ name, P (.atom name))
    (list : ∀ items, (∀ t ∈ items, P t) → P (.list items))
    (struct : ∀ object label args, (∀ t ∈ args, P t) → P (.struct object label args))
    (t : S.Term) : P t := by
  have hterm : ∀ t : S.Term, (∀ v, Term.Occurs v t → P (.var v)) → P t := by
    intro t
    induction t using Term.ind with
    | var v => exact fun h => h v .var
    | int n => exact fun _ => int n
    | atom name => exact fun _ => atom name
    | list items ih => exact fun h => list items fun t ht => ih t ht fun v hv => h v (.list ht hv)
    | struct object label args ih =>
      exact fun h => struct object label args fun t ht => ih t ht fun v hv => h v (.struct ht hv)
  have hvar : ∀ v, P (.var v) := by
    intro v
    induction v using hs.induction with
    | _ v ih => exact var v fun a ha => hterm a fun w hw => ih w ⟨a, ha, hw⟩
  exact hterm t fun v _ => hvar v

end Store

namespace Theory

variable {s : Store S}

theorem isSome_run_mapM_of_forall {α β : Type} {f : α → StateT Nat Option β} {as : List α}
    (h : ∀ a ∈ as, ∀ i, ((f a).run i).isSome) (i : Nat) : ((as.mapM f).run i).isSome := by
  induction as generalizing i with
  | nil => rfl
  | cons a as ih =>
    obtain ⟨⟨b, j⟩, hb⟩ := Option.isSome_iff_exists.mp (h a (by simp) i)
    obtain ⟨r, hr⟩ := Option.isSome_iff_exists.mp
      (ih (fun a ha => h a (List.mem_cons_of_mem _ ha)) j)
    simp [List.mapM_cons, hb, hr]

/-- A cell is copied as its content is. -/
theorem resolve?_cell (T : Theory S) {v : Var} {a : S.Term} (hcell : s.isCell v = true)
    (hcontent : s.binding v = some a) (n : Nat) :
    T.resolve? s (n + 1) (.var v) = T.resolve? s n a := by
  rw [resolve?, Store.deref_of_cell hcell]
  dsimp only
  rw [hcell, hcontent]

/-- A cell is shown by its content. -/
theorem display?_cell (T : Theory S) {v : Var} {a : S.Term} (hcell : s.isCell v = true)
    (hcontent : s.binding v = some a) (n : Nat) :
    T.display? s (n + 1) (.var v) =
      (T.display? s n a).map fun text => "Cell(" ++ text ++ ")" := by
  rw [display?]
  simp [hcell, hcontent]

/-- A variable that is bound to a cell that holds it has neither a copy nor a text. -/
theorem endless_of_knot (T : Theory S) {v w : Var} (hv : s.isCell v = false)
    (hderef : s.deref (.var v) = .var w) (hcell : s.isCell w = true)
    (hcontent : s.binding w = some (.var v)) :
    (∀ n, ¬ T.Copied n (.var v) s) ∧ ∀ n, T.display? s n (.var v) = none := by
  constructor
  · intro n
    -- The copy of the variable is that of what the cell holds, which is the variable.
    induction n with
    | zero => exact Bool.false_ne_true
    | succ n ih =>
      rw [Copied, resolve?, hderef]
      dsimp only
      rwa [hcell, hcontent]
  · intro n
    -- The text of the variable is that of the cell, which needs that of the variable again.
    induction n using Nat.strong_induction_on with
    | _ n ih =>
      have hopen : ∀ k, T.display? s (k + 1) (.var v) = T.display? s k (.var w) := by
        intro k
        rw [display?, hderef]
        simp [hv, hcell]
      cases n with
      | zero => rfl
      | succ n =>
        cases n with
        | zero => exact hopen 0
        | succ n =>
          rw [hopen, T.display?_cell hcell hcontent, ih n (by omega)]
          rfl

/-- A variable that holds something has the copy of what it holds. -/
theorem Copied.of_step? (hs : s.ChainsEnd) {n : Nat} {v : Var} {a : S.Term}
    (hstep : s.step? (.var v) = some a) (h : T.Copied n a s) : T.Copied n (.var v) s := by
  cases n with
  | zero => cases h
  | succ n =>
    rw [Copied, resolve?] at h ⊢
    rwa [Store.deref_of_step?_eq_some hs hstep]

/-- Terms with copies have them together. -/
theorem exists_run_mapM_of_copied {n : Nat} {items : List S.Term}
    (h : ∀ t ∈ items, T.Copied n t s) : ∃ r, (items.mapM (T.resolve? s n)).run 0 = some r :=
  Option.isSome_iff_exists.mp (isSome_run_mapM_of_forall
    (fun t ht i => (T.resolve?_isSome s n t i 0).trans (h t ht)) 0)

/-- Where nothing leads back to itself, every term has a copy. -/
theorem exists_copied_of_acyclic (T : Theory S) (hs : s.Acyclic) (t : S.Term) :
    ∃ n, T.Copied n t s := by
  have hmono : ∀ n n' t, n ≤ n' → T.Copied n t s → T.Copied n' t s :=
    fun n n' t hn h => h.mono hn
  induction t using hs.induct with
  | var v ih =>
    -- A bound variable has a copy because what it is bound to has one.
    cases hstep : s.step? (.var v) with
    | some a =>
      obtain ⟨w, hw, -, hbinding⟩ := Store.step?_eq_some.mp hstep
      cases hw
      obtain ⟨n, hn⟩ := ih a hbinding
      exact ⟨n, hn.of_step? hs.chainsEnd hstep⟩
    | none =>
      cases hcell : s.isCell v with
      | false =>
        refine ⟨1, ?_⟩
        rw [Copied, resolve?, Store.deref_of_step?_eq_none hstep]
        simp [hcell]
      | true =>
        -- The copy of a cell is a copy of what it holds.
        cases hcontent : s.binding v with
        | none =>
          refine ⟨1, ?_⟩
          rw [Copied, resolve?, Store.deref_of_step?_eq_none hstep]
          simp [hcell, hcontent]
        | some a =>
          obtain ⟨n, hn⟩ := ih a hcontent
          exact ⟨n + 1, by rwa [Copied, T.resolve?_cell hcell hcontent]⟩
  | int n => exact ⟨1, by rw [Copied, resolve?, Store.deref_of_step?_eq_none rfl]; rfl⟩
  | atom name => exact ⟨1, by rw [Copied, resolve?, Store.deref_of_step?_eq_none rfl]; rfl⟩
  | list items ih =>
    obtain ⟨n, hn⟩ := exists_bound hmono ih
    obtain ⟨r, hr⟩ := exists_run_mapM_of_copied hn
    refine ⟨n + 1, ?_⟩
    rw [Copied, resolve?, Store.deref_of_step?_eq_none rfl]
    simp [hr]
  | struct object label args ih =>
    obtain ⟨n, hn⟩ := exists_bound hmono ih
    obtain ⟨r, hr⟩ := exists_run_mapM_of_copied hn
    refine ⟨n + 1, ?_⟩
    rw [Copied, resolve?, Store.deref_of_step?_eq_none rfl]
    dsimp only
    split
    · rw [StateT.run_bind, hr]
      rfl
    · rfl

/-- A term is shown by a text. -/
def Shows (T : Theory S) (s : Store S) (t : S.Term) (row : String) : Prop :=
  ∃ n, T.display? s n t = some row

/-- The end of a chain is shown as its beginning is. -/
theorem Shows.deref {t : S.Term} {row : String} (hs : s.ChainsEnd) (h : T.Shows s t row) :
    T.Shows s (s.deref t) row := by
  obtain ⟨n, hn⟩ := h
  by_cases hstep : s.step? t = none
  · rw [Store.deref_of_step?_eq_none hstep]
    exact ⟨n, hn⟩
  obtain ⟨b, hb⟩ := Option.ne_none_iff_exists'.mp hstep
  obtain ⟨v, rfl, hcell, -⟩ := Store.step?_eq_some.mp hb
  cases n with
  | zero => cases hn
  | succ n =>
    rw [display?, hcell] at hn
    rw [if_neg Bool.false_ne_true] at hn
    have hlast := Store.step?_deref hs (.var v)
    generalize s.deref (.var v) = e at *
    cases e with
    | var w =>
      dsimp only at hn
      -- A chain that ends at a cell is shown as the cell is, with one step of fuel less.
      split at hn
      · exact ⟨n, hn⟩
      · next hw =>
        refine ⟨1, ?_⟩
        rw [display?, if_neg hw, Store.deref_of_step?_eq_none hlast]
        simpa [hw] using hn
    | _ => exact ⟨n, hn⟩

/-- A variable that holds something is shown through the end of its chain. -/
theorem exists_display?_of_step? (hs : s.ChainsEnd) {v : Var} {a : S.Term} {row : String}
    (hstep : s.step? (.var v) = some a) (h : T.Shows s a row) :
    ∃ n row, T.display? s n (.var v) = some row := by
  obtain ⟨w, hw, hcell, -⟩ := Store.step?_eq_some.mp hstep
  cases hw
  obtain ⟨n, hn⟩ := h.deref hs
  refine ⟨n + 1, ?_⟩
  rw [display?, hcell, Store.deref_of_step?_eq_some hs hstep]
  split
  · next hfalse => cases hfalse
  · split
    · split
      · next heq _ => exact ⟨row, by rw [← heq, hn]⟩
      · exact ⟨_, rfl⟩
    · exact ⟨row, hn⟩

/-- Where nothing leads back to itself, every term has a text. -/
theorem exists_display?_of_acyclic (T : Theory S) (hs : s.Acyclic) (t : S.Term) :
    ∃ n row, T.display? s n t = some row := by
  have hmono : ∀ n n' t, n ≤ n' → (∃ row, T.display? s n t = some row) →
      ∃ row, T.display? s n' t = some row :=
    fun n n' t hn ⟨row, hrow⟩ => ⟨row, T.display?_mono s hn hrow⟩
  induction t using hs.induct with
  | var v ih =>
    -- The text of a bound variable is that of what it is bound to.
    cases hstep : s.step? (.var v) with
    | some a =>
      obtain ⟨w, hw, -, hbinding⟩ := Store.step?_eq_some.mp hstep
      cases hw
      obtain ⟨n, row, hrow⟩ := ih a hbinding
      exact exists_display?_of_step? hs.chainsEnd hstep ⟨n, hrow⟩
    | none =>
      cases hcell : s.isCell v with
      | false =>
        refine ⟨1, v.name, ?_⟩
        rw [display?, Store.deref_of_step?_eq_none hstep]
        simp [hcell]
      | true =>
        cases hcontent : s.binding v with
        | none =>
          refine ⟨1, "Cell()", ?_⟩
          rw [display?]
          simp [hcell, hcontent]
        | some a =>
          obtain ⟨n, row, hrow⟩ := ih a hcontent
          refine ⟨n + 1, "Cell(" ++ row ++ ")", ?_⟩
          rw [T.display?_cell hcell hcontent, hrow]
          rfl
  | int n => exact ⟨1, _, rfl⟩
  | atom name => exact ⟨1, _, rfl⟩
  | list items ih =>
    obtain ⟨n, hn⟩ := exists_bound hmono ih
    obtain ⟨rows, hrows⟩ := exists_mapM_eq_some hn
    refine ⟨n + 1, Text.bracketed rows, ?_⟩
    rw [display?, hrows]
    rfl
  | struct object label args ih =>
    obtain ⟨n, hn⟩ := exists_bound hmono ih
    obtain ⟨rows, hrows⟩ := exists_mapM_eq_some hn
    refine ⟨n + 1, T.render label rows, ?_⟩
    rw [display?, hrows]
    rfl

end Theory

/-! ### What one unification of terms without parts does -/

theorem Trail.guard?_restore (es : List (Saved S)) (s : Store S) (v : Var) :
    (restore es s).guard? v = s.guard? v := by
  induction es generalizing s with
  | nil => rfl
  | cons e es ih => rw [restore_cons, ih, Store.guard?_set]

namespace Scope

variable {c d : Scope S}

/-- What a successful or failed binding does: one slot is saved at most, and is
filled if the binding succeeds. -/
structure Binds (c : Scope S) (v : Var) (value : S.Term) (r : Bool) (d : Scope S) : Prop where
  later : c.Extends d
  short : d.trail.length ≤ c.trail.length + 1
  store : d.world.store ≈ if r then c.world.store.set v (some value) else c.world.store

theorem assign_filled {c : Scope S} {v : Var} {value : S.Term}
    (hv : ∀ g, c.world.store.guard? v = some g → T.Inert g) (n : Nat) :
    Ensures (assign T n (GoalSearch.unify T n) v value) c
      (fun r d => d.trail = c.trail ∧ d.world.store ≈
        if r = none then c.world.store.set v (some value) else c.world.store)
      fun _ => True := by
  rw [assign, ensures_bind_of_eq_ok (store_apply c)]
  split
  · exact ⟨rfl, Setoid.refl _⟩
  · split
    · exact ⟨rfl, Setoid.refl _⟩
    · rw [ensures_bind]
      refine ((admits_of_inert hv n value).mono ?_).weaken fun _ _ => trivial
      rintro b d ⟨htrail, hstore⟩
      cases b with
      | true => exact ⟨htrail, Store.set_congr hstore v _⟩
      | false => exact ⟨htrail, hstore⟩

/-- A variable whose guard binds nothing is filled by a binding that succeeds, and
nothing changes by one that fails. -/
theorem bind_binds {v : Var} {value : S.Term}
    (hv : ∀ g, c.world.store.guard? v = some g → T.Inert g) (n : Nat) :
    Ensures (bind T n (GoalSearch.unify T n) v value) c (fun r d => c.Binds v value r d)
      fun _ => True := by
  rw [bind, ensures_bind]
  refine ((admits_of_inert hv n value).mono ?_).weaken fun _ _ => trivial
  rintro b d ⟨htrail, hstore⟩
  cases b with
  | false => exact ⟨extends_of_same htrail hstore, by rw [htrail]; omega, hstore⟩
  | true =>
    rw [if_pos rfl, ensures_bind_of_eq_ok (record_apply v d), ensures_bind]
    let d' : Scope S := { d with trail := d.trail.record d.world.store v }
    have hguards : ∀ g, d'.world.store.guard? v = some g → T.Inert g := by
      show ∀ g, d.world.store.guard? v = some g → T.Inert g
      rwa [Store.guard?_congr hstore]
    have hassign : Ensures (assign T n (GoalSearch.unify T n) v value) d' _ fun _ => True :=
      assign_filled hguards n
    refine hassign.mono ?_
    rintro r e ⟨hetrail, hestore⟩
    have hlength : e.trail.length ≤ c.trail.length + 1 := by
      rw [hetrail, Trail.length_record, htrail]
    -- what was saved last leads back to the slots at the start
    have hback : ∀ (w : World S) value', w.store ≈ d.world.store.set v value' →
        c.Extends { e with world := w } := by
      intro w value' hw
      have hextends := (extends_of_same htrail hstore).trans (extends_record_set d v value' hw)
      rwa [show d.trail.record d.world.store v = e.trail from hetrail.symm] at hextends
    cases r with
    | none =>
      rw [if_pos rfl] at hestore
      exact ⟨hback e.world _ hestore, hlength,
        Setoid.trans hestore (Store.set_congr hstore v _)⟩
    | some refusal =>
      rw [if_neg (by simp)] at hestore
      have hsame : e.world.store ≈ d.world.store.set v (d.world.store.binding v) :=
        Setoid.trans hestore (Setoid.symm (Store.set_binding _ _))
      dsimp only
      split
      · trivial
      · exact ⟨hback _ _ hsame, hlength, Setoid.trans hestore hstore⟩

/-- Terms without parts are unified by one binding, or need none. -/
theorem unify_pairing (hc : c.world.store.ChainsEnd) (hsimple : c.world.store.Simple)
    {t u : S.Term} (ht : t.Simple) (hu : u.Simple) {n : Nat} {r : Bool}
    (h : GoalSearch.unify T n t u c = .ok r d) :
    (c.world.store.pairing t u = none ∧ d = c) ∨
      ∃ v value k, c.world.store.pairing t u = some (v, value) ∧
        bind T k (GoalSearch.unify T k) v value c = .ok r d := by
  cases n with
  | zero => cases h
  | succ n =>
    have hta := Store.step?_deref hc t
    have hub := Store.step?_deref hc u
    have hasimple := hsimple.deref ht
    have hbsimple := hsimple.deref hu
    have hstep := unifyStep_spec T n (GoalSearch.unify T n) c t u
    rw [GoalSearch.unify] at h
    generalize unifyStep T n (GoalSearch.unify T n) t u c = result at *
    cases hstep with
    | outOfFuel _ => cases h
    | same hid =>
      cases h
      have heq := (Store.identical?_simple hasimple hbsimple hta hub hid).mp rfl
      exact .inl ⟨Store.pairing_none (.inl heq), rfl⟩
    | differ hid hdiffer =>
      have hne : c.world.store.deref t ≠ c.world.store.deref u := fun heq =>
        nomatch (Store.identical?_simple hasimple hbsimple hta hub hid).mpr heq
      cases hdiffer with
      | left v hav hfavours =>
        have hnot : c.world.store.deref u ≠ .var v := fun hbv => hne (hav.trans hbv.symm)
        exact .inr ⟨v, _, n, Store.pairing_left hav hnot hfavours, h⟩
      | right w hbw hfavours =>
        have hnot : c.world.store.deref t ≠ .var w := fun haw => hne (haw.trans hbw.symm)
        exact .inr ⟨w, _, n, Store.pairing_right hbw hnot hfavours, h⟩
      | clash hclash =>
        cases h
        exact .inl ⟨Store.pairing_none (.inr ⟨hclash.left, hclash.right⟩), rfl⟩
      -- an end without parts is no list and no structure
      | lists as bs has =>
        rw [has] at hasimple
        cases hasimple
      | structLeft object label args hstruct =>
        rw [hstruct] at hasimple
        cases hasimple
      | structRight object label args hstruct =>
        rw [hstruct] at hbsimple
        cases hbsimple

/-! ### One trail over time -/

/-- What is done with one trail: two terms without parts are unified, if `P` allows
it, or bindings are undone. -/
inductive Turn (T : Theory S) (P : Store S → S.Term → S.Term → Prop) : Scope S → Scope S → Prop
  | unify {c d : Scope S} {n : Nat} {t u : S.Term} {r : Bool} : t.Simple → u.Simple →
      P c.world.store t u → GoalSearch.unify T n t u c = .ok r d → Turn T P c d
  | backtrack (c : Scope S) (mark : Nat) : Turn T P c (c.backtracked mark)

theorem Turn.unified {P : Store S → S.Term → S.Term → Prop} {n : Nat} {t u : S.Term} {r : Bool}
    (ht : t.Simple) (hu : u.Simple) (hP : P c.world.store t u)
    (h : (GoalSearch.unify T n t u).result? c = some r) : Turn T P c (c.unified T n t u) := by
  obtain ⟨d, hd⟩ := result?_eq_some.mp h
  rw [Scope.unified, hd]
  exact .unify ht hu hP hd

/-- An empty trail, with ordinary variables that are not bound and cells that hold
integers or atoms. -/
structure Fresh (c : Scope S) : Prop where
  trail : c.trail = .empty
  slots : ∀ v a, c.world.store.binding v = some a →
    c.world.store.isCell v = true ∧ a.Simple ∧ a.var? = none

/-- A property of slots that holds wherever a scope goes back to. -/
def Always (Q : Store S → Prop) (c : Scope S) : Prop := ∀ mark, Q (c.backtracked mark).world.store

section Always

variable {Q : Store S → Prop}

theorem Fresh.always (h : c.Fresh) (hQ : Q c.world.store) : c.Always Q := by
  intro mark
  rwa [backtracked_of_length_le (by simp [h.trail])]

theorem Always.now (h : c.Always Q) : Q c.world.store := by
  have := h c.trail.length
  rwa [backtracked_of_length_le (Nat.le_refl _)] at this

theorem Always.backtracked (h : c.Always Q) (mark : Nat) : (c.backtracked mark).Always Q := by
  intro mark'
  rw [backtracked_backtracked]
  exact h _

/-- After one more binding, a scope goes back to its own slots and to those to which it
went back before. -/
theorem Always.binds (h : c.Always Q) (hQ : ∀ s s' : Store S, s ≈ s' → Q s → Q s') {v : Var}
    {value : S.Term} {r : Bool} (hd : c.Binds v value r d) (hnow : Q d.world.store) :
    d.Always Q := by
  intro mark
  by_cases hmark : d.trail.length ≤ mark
  · rwa [backtracked_of_length_le hmark]
  · have := hd.short
    exact hQ _ _ (Setoid.symm (hd.later.backtracked_equiv (by omega))) (h mark)

end Always

/-- A scope that holds terms without parts, and in which nothing leads back to itself,
wherever it goes back to. -/
structure Smooth (T : Theory S) (c : Scope S) : Prop where
  simple : c.Always Store.Simple
  acyclic : c.Always Store.Acyclic
  inert : ∀ v g, c.world.store.guard? v = some g → T.Inert g

theorem Fresh.smooth (h : c.Fresh) (hT : ∀ v g, c.world.store.guard? v = some g → T.Inert g) :
    c.Smooth T := by
  refine ⟨h.always fun v a ha => (h.slots v a ha).2.1, h.always ⟨fun v => Acc.intro v ?_⟩, hT⟩
  rintro w ⟨a, ha, hw⟩
  obtain ⟨-, hsimple, hvar⟩ := h.slots v a ha
  rw [hsimple.eq_var_of_occurs hw] at hvar
  cases hvar

namespace Smooth

variable (h : c.Smooth T)

include h

theorem chainsEnd : c.world.store.ChainsEnd := h.acyclic.now.chainsEnd

theorem backtracked (mark : Nat) : (c.backtracked mark).Smooth T := by
  refine ⟨h.simple.backtracked mark, h.acyclic.backtracked mark, fun v g hg => h.inert v g ?_⟩
  rw [Scope.backtracked, Trail.backtrack_eq] at hg
  rwa [← Trail.guard?_restore]

theorem binds {v : Var} {value : S.Term} {r : Bool} (hd : c.Binds v value r d)
    (hsimple : d.world.store.Simple) (hacyclic : d.world.store.Acyclic) : d.Smooth T := by
  refine ⟨h.simple.binds (fun _ _ he hs => hs.congr he) hd hsimple,
    h.acyclic.binds (fun _ _ he hs => hs.congr he) hd hacyclic, fun w g hg => h.inert w g ?_⟩
  rw [Store.guard?_congr hd.store] at hg
  cases r with
  | true => rwa [if_pos rfl, Store.guard?_set] at hg
  | false => rwa [if_neg (by simp)] at hg

variable {n : Nat} {t u : S.Term} {r : Bool} (ht : t.Simple) (hu : u.Simple)
  (hunify : GoalSearch.unify T n t u c = .ok r d)

include ht hu hunify

/-- What a unification of terms without parts leaves: the same slots, or those with one
more binding. -/
theorem unified : d = c ∧ c.world.store.pairing t u = none ∨
    ∃ v value, c.world.store.pairing t u = some (v, value) ∧ value.Simple ∧
      c.Binds v value r d := by
  have hends := h.chainsEnd
  rcases unify_pairing hends h.simple.now ht hu hunify with
    ⟨hnone, rfl⟩ | ⟨v, value, k, hpair, hbind⟩
  · exact .inl ⟨rfl, hnone⟩
  · refine .inr ⟨v, value, hpair, ?_, (bind_binds (h.inert v) k).ok hbind⟩
    obtain ⟨-, -, rfl | rfl⟩ := Store.pairing_ends hends hpair
    · exact h.simple.now.deref ht
    · exact h.simple.now.deref hu

theorem unify (hties : ¬ c.world.store.Ties t u) : d.Smooth T := by
  rcases h.unified ht hu hunify with ⟨rfl, -⟩ | ⟨v, value, hpair, hvalue, hbinds⟩
  · exact h
  · cases r with
    | true =>
      refine h.binds hbinds ?_ ?_
      · exact (h.simple.now.set v hvalue).congr (Setoid.symm hbinds.store)
      · exact (h.acyclic.now.set_pairing hvalue hpair hties).congr (Setoid.symm hbinds.store)
    | false =>
      exact h.binds hbinds (h.simple.now.congr (Setoid.symm hbinds.store))
        (h.acyclic.now.congr (Setoid.symm hbinds.store))

end Smooth

/-- A unification that succeeds leaves a knot only if it ties one. -/
theorem Smooth.knotted_iff (h : c.Smooth T) {n : Nat} {t u : S.Term} (ht : t.Simple)
    (hu : u.Simple) (hunify : GoalSearch.unify T n t u c = .ok true d) :
    d.world.store.Knotted ↔ c.world.store.Ties t u := by
  constructor
  · intro hknotted
    by_contra hties
    exact (h.unify ht hu hunify hties).acyclic.now.not_knotted hknotted
  · intro hties
    rcases h.unified ht hu hunify with ⟨-, hnone⟩ | ⟨v, value, hpair, -, hbinds⟩
    · obtain ⟨v, w, hpair, -⟩ := hties
      rw [hnone] at hpair
      cases hpair
    · exact (Store.knotted_set_of_ties hpair hties).congr (Setoid.symm hbinds.store)

theorem Smooth.turns {c₀ c : Scope S} (h : c₀.Smooth T)
    (hturns : Relation.ReflTransGen (Turn T fun s t u => ¬ s.Ties t u) c₀ c) : c.Smooth T := by
  induction hturns with
  | refl => exact h
  | tail _ hturn ih =>
    cases hturn with
    | unify ht hu hties hunify => exact ih.unify ht hu hunify hties
    | backtrack mark => exact ih.backtracked mark

/-- As long as no cell is given a variable or a cell, nothing is bound to what leads
back to it. -/
theorem untied_of_plainCells {c₀ c : Scope S} (hfresh : c₀.Fresh)
    (hT : ∀ v g, c₀.world.store.guard? v = some g → T.Inert g)
    (hturns : Relation.ReflTransGen
      (Turn T fun s t u => ∀ v w, s.pairing t u = some (v, .var w) → s.isCell v = false) c₀ c) :
    Relation.ReflTransGen (Turn T fun s t u => ¬ s.Ties t u) c₀ c := by
  -- Undoing brings old contents back, so the induction is about all cells at all times.
  suffices h : Relation.ReflTransGen (Turn T fun s t u => ¬ s.Ties t u) c₀ c ∧
      c.Always Store.PlainCells from h.1
  induction hturns with
  | refl =>
    refine ⟨.refl, hfresh.always fun v w hv hb => ?_⟩
    cases (hfresh.slots v _ hb).2.2
  | @tail c d _ hturn ih =>
    obtain ⟨hpast, hcells⟩ := ih
    have hsmooth := (hfresh.smooth hT).turns hpast
    cases hturn with
    | backtrack mark => exact ⟨hpast.tail (.backtrack c mark), hcells.backtracked mark⟩
    | @unify _ _ t u _ ht hu hplain hunify =>
      have hties : ¬ c.world.store.Ties t u :=
        Store.not_ties_of_plainCells hsmooth.chainsEnd hsmooth.simple.now hcells.now
      refine ⟨hpast.tail (.unify ht hu hties hunify), ?_⟩
      rcases hsmooth.unified ht hu hunify with ⟨rfl, -⟩ | ⟨v, value, hpair, -, hbinds⟩
      · exact hcells
      · refine hcells.binds (fun _ _ he hs => hs.congr he) hbinds ?_
        refine Store.PlainCells.congr ?_ (Setoid.symm hbinds.store)
        split
        · exact hcells.now.set fun w hw => hplain v w (by rw [hpair, hw])
        · exact hcells.now

/-- Ordinary variables that are not bound and cells that hold integers or atoms are
given terms without parts on one trail, and bindings are undone.  As long as nothing
is bound to what leads back to it, no variable and no cell leads back to itself, and
copying and showing end on every term.  The next unification that succeeds leaves a
knot exactly if it binds something to what leads back to it. -/
theorem untied_ends {c₀ c : Scope S} (hfresh : c₀.Fresh)
    (hT : ∀ v g, c₀.world.store.guard? v = some g → T.Inert g)
    (hturns : Relation.ReflTransGen (Turn T fun s t u => ¬ s.Ties t u) c₀ c) :
    ¬ c.world.store.Knotted ∧
      (∀ t, ∃ n, T.Copied n t c.world.store) ∧
      (∀ t, ∃ n row, T.display? c.world.store n t = some row) ∧
      ∀ n t u d, t.Simple → u.Simple → GoalSearch.unify T n t u c = .ok true d →
        (d.world.store.Knotted ↔ c.world.store.Ties t u) := by
  have h := (hfresh.smooth hT).turns hturns
  have hacyclic := h.acyclic.now
  exact ⟨hacyclic.not_knotted, T.exists_copied_of_acyclic hacyclic,
    T.exists_display?_of_acyclic hacyclic, fun _ _ _ _ ht hu hunify => h.knotted_iff ht hu hunify⟩

end Scope

/-- Two unrestricted variables, and between them a cell that holds zero. -/
def Bounds.cells : Scope Bounds.vocabulary :=
  ⟨.empty, ⟨⟨#[.fresh, .fresh, ⟨.cell, some (.int 0)⟩, .fresh]⟩, 0, (), []⟩⟩

theorem Bounds.fresh_cells : Bounds.cells.Fresh := by
  refine ⟨rfl, fun v a ha => ?_⟩
  obtain ⟨i⟩ := v
  match i with
  | 0 | 1 | 3 => cases ha
  | 2 =>
    cases ha
    exact ⟨rfl, .int 0, rfl⟩
  | i + 4 =>
    rw [Store.binding, Store.get, Array.getD_eq_getD_getElem?,
      Array.getElem?_eq_none (by simp [Bounds.cells])] at ha
    cases ha

theorem Bounds.unrestricted_cells (v : Var) : Bounds.cells.world.store.guard? v = none := by
  obtain ⟨i⟩ := v
  match i with
  | 0 | 1 | 2 | 3 => rfl
  | i + 4 =>
    rw [Store.guard?, Store.get, Array.getD_eq_getD_getElem?,
      Array.getElem?_eq_none (by simp [Bounds.cells])]
    rfl

namespace Scope

/-- The cell is given one variable, and the other variable is bound to the cell. -/
theorem untied_ends_cells : ∃ c : Scope Bounds.vocabulary,
    Bounds.cells.Fresh ∧
      Relation.ReflTransGen (Turn Bounds.theory fun s t u => ¬ s.Ties t u) Bounds.cells c ∧
      Bounds.theory.display? c.world.store 3 (.var ⟨1⟩) = some "Cell(X03)" ∧
      ¬ c.world.store.Knotted ∧ ∃ n, Bounds.theory.Copied n (.var ⟨1⟩) c.world.store := by
  let held := Bounds.cells.unified Bounds.theory 2 (.var ⟨2⟩) (.var ⟨3⟩)
  let shared := held.unified Bounds.theory 2 (.var ⟨1⟩) (.var ⟨2⟩)
  have hT : ∀ v g, Bounds.cells.world.store.guard? v = some g → Bounds.theory.Inert g := by
    intro v g hg
    rw [Bounds.unrestricted_cells] at hg
    cases hg
  have hsmooth := Bounds.fresh_cells.smooth hT
  have hplain : Bounds.cells.world.store.PlainCells := by
    intro v w _ hb
    cases (Bounds.fresh_cells.slots v _ hb).2.2
  have hfirst : Turn Bounds.theory (fun s t u => ¬ s.Ties t u) Bounds.cells held :=
    .unified (r := true) (.var ⟨2⟩) (.var ⟨3⟩)
      (Store.not_ties_of_plainCells hsmooth.chainsEnd hsmooth.simple.now hplain) (by decide +kernel)
  -- the cell leads to the other variable, which is not bound
  have hties : ¬ held.world.store.Ties (.var ⟨1⟩) (.var ⟨2⟩) := by
    have hcontent : held.world.store.binding ⟨2⟩ = some (.var ⟨3⟩) :=
      Store.binding_eq_var (by decide +kernel)
    have hunbound : held.world.store.binding ⟨3⟩ = none :=
      (Store.isUnbound_eq_true.mp (by decide +kernel)).2
    have hpair : (held.world.store.pairing (.var ⟨1⟩) (.var ⟨2⟩)).map
        (fun p => (p.1, p.2.var?)) = some (⟨1⟩, some ⟨2⟩) := by decide +kernel
    rintro ⟨v, w, h, hback⟩
    rw [h] at hpair
    cases hpair
    rcases Relation.ReflTransGen.cases_head hback with heq | ⟨x, ⟨a, ha, hx⟩, hback⟩
    · cases heq
    · rw [hcontent] at ha
      cases ha
      cases hx
      rcases Relation.ReflTransGen.cases_head hback with heq | ⟨y, ⟨a, ha, -⟩, -⟩
      · cases heq
      · rw [hunbound] at ha
        cases ha
  have hsecond : Turn Bounds.theory (fun s t u => ¬ s.Ties t u) held shared :=
    .unified (r := true) (.var ⟨1⟩) (.var ⟨2⟩) hties (by decide +kernel)
  have hturns := (Relation.ReflTransGen.single hfirst).tail hsecond
  have h := untied_ends Bounds.fresh_cells hT hturns
  exact ⟨shared, Bounds.fresh_cells, hturns, by decide +kernel, h.1, h.2.1 _⟩

/-- The cell is given a variable, and this variable is bound to the cell.  The knot is
made of terms without parts, and neither copying nor showing the variable ends. -/
theorem cell_and_variable_tied : ∃ c : Scope Bounds.vocabulary,
    Bounds.cells.Fresh ∧ (∀ v, Bounds.cells.world.store.guard? v = none) ∧
      Relation.ReflTransGen (Turn Bounds.theory fun _ _ _ => True) Bounds.cells c ∧
      c.world.store.Knotted ∧ (∀ n, ¬ Bounds.theory.Copied n (.var ⟨1⟩) c.world.store) ∧
      ∀ n, Bounds.theory.display? c.world.store n (.var ⟨1⟩) = none := by
  let held := Bounds.cells.unified Bounds.theory 2 (.var ⟨2⟩) (.var ⟨1⟩)
  let tied := held.unified Bounds.theory 2 (.var ⟨1⟩) (.var ⟨2⟩)
  let s := tied.world.store
  have hfirst : Turn Bounds.theory (fun _ _ _ => True) Bounds.cells held :=
    .unified (r := true) (.var ⟨2⟩) (.var ⟨1⟩) trivial (by decide +kernel)
  have hsecond : Turn Bounds.theory (fun _ _ _ => True) held tied :=
    .unified (r := true) (.var ⟨1⟩) (.var ⟨2⟩) trivial (by decide +kernel)
  have hvar : s.binding ⟨1⟩ = some (.var ⟨2⟩) := Store.binding_eq_var (by decide +kernel)
  have hcontent : s.binding ⟨2⟩ = some (.var ⟨1⟩) := Store.binding_eq_var (by decide +kernel)
  have hderef : s.deref (.var ⟨1⟩) = .var ⟨2⟩ := Term.var?_eq_some.mp (by decide +kernel)
  have hendless := Bounds.theory.endless_of_knot (v := ⟨1⟩) (w := ⟨2⟩) (by decide +kernel) hderef
    (by decide +kernel) hcontent
  exact ⟨tied, Bounds.fresh_cells, Bounds.unrestricted_cells,
    (Relation.ReflTransGen.single hfirst).tail hsecond,
    ⟨⟨1⟩, .head ⟨_, hvar, .var⟩ (.single ⟨_, hcontent, .var⟩)⟩, hendless.1, hendless.2⟩

end Scope

end GoalSearch
