/-
Identity of terms: an equivalence that bindings do not break.

Two terms are identical if their chains end alike, and lists do if their elements are
identical.  Without cyclic terms this can always be found out.  What is identical stays
so while slots are filled, since a bound variable stays bound to the same: two ends that
are one variable are bound together, cells are compared by what they are and not by what
they hold, and so are structures.

* `Store.Opens`, `Store.Founded` — what identity looks at, and stores in which it comes
  to an end;
* `Store.Identical`, `Store.identical_iff` — identity, and one level of it;
* `Store.identical_total`, `Store.Identical.trans` and its like — identity can be found
  out, and is an equivalence;
* `Store.Identical.upheld`, `Theory.Unified` — identity in later stores;
* `Store.identical_equivalence` — all of it.

Design notes: stores are founded if nothing leads back to itself through bound variables
and lists.  Structures and cells are not opened, so nothing is assumed about what is in
them; a store without any cyclic term is founded (`Store.Acyclic.founded`).
-/
import GoalSearch.Proofs.Checks
import GoalSearch.Proofs.Classes
import GoalSearch.Proofs.Knots
import GoalSearch.Proofs.Marks
import Mathlib.Data.List.Forall2

namespace GoalSearch

open GoalSearch.Action

variable {S : Vocabulary} {T : Theory S}

/-! ### Tests of pairs -/

section Pairs

variable {α β : Type} {test : α → β → Option Bool} {R : α → α → Prop}

theorem forall₂_of_allPairs? {as : List α} {bs : List β} (hlength : as.length = bs.length)
    (h : allPairs? test as bs = some true) :
    List.Forall₂ (fun a b => test a b = some true) as bs := by
  induction as generalizing bs with
  | nil =>
    cases bs with
    | nil => exact .nil
    | cons b bs => cases hlength
  | cons a as ih =>
    cases bs with
    | nil => cases hlength
    | cons b bs =>
      rw [allPairs?] at h
      split at h
      · next hab => exact .cons hab (ih (by simpa using hlength) h)
      · next hne => exact absurd h hne

theorem allPairs?_of_forall₂ {as : List α} {bs : List β}
    (h : List.Forall₂ (fun a b => test a b = some true) as bs) :
    allPairs? test as bs = some true := by
  induction h with
  | nil => rfl
  | cons hab _ ih =>
    rw [allPairs?, hab]
    exact ih

/-- Related lists are composed if their elements are. -/
theorem forall₂_trans {as bs cs : List α} (h : List.Forall₂ R as bs) (h' : List.Forall₂ R bs cs)
    (htrans : ∀ a ∈ as, ∀ b c, R a b → R b c → R a c) : List.Forall₂ R as cs := by
  induction h generalizing cs with
  | nil => exact h'
  | cons hab _ ih =>
    cases h' with
    | cons hbc hrest =>
      refine .cons (htrans _ (by simp) _ _ hab hbc) (ih hrest fun a ha => ?_)
      exact htrans a (List.mem_cons_of_mem _ ha)

end Pairs

namespace Store

variable {s s' : Store S} {a b c : S.Term}

/-! ### What identity looks at -/

/-- One step into a term: from a bound variable to its value, and from a list to one of
its elements. -/
inductive Opens (s : Store S) : S.Term → S.Term → Prop
  | value {a b : S.Term} : s.step? a = some b → Opens s a b
  | item {items : List S.Term} {t : S.Term} : t ∈ items → Opens s (.list items) t

/-- Nothing leads back to itself through bound variables and lists. -/
def Founded (s : Store S) : Prop := WellFounded fun b a => s.Opens a b

theorem Acyclic.founded (hs : s.Acyclic) : s.Founded := by
  refine ⟨fun a => ?_⟩
  have hlast : ∀ a : S.Term, (∀ b, ¬ s.Opens a b) → Acc (fun b a => s.Opens a b) a :=
    fun a ha => .intro a fun b hb => absurd hb (ha b)
  induction a using hs.induct with
  | var v ih =>
    refine .intro _ fun b hb => ?_
    cases hb with
    | value hstep =>
      obtain ⟨w, hw, -, hbinding⟩ := step?_eq_some.mp hstep
      cases hw
      exact ih b hbinding
  | list items ih =>
    refine .intro _ fun b hb => ?_
    cases hb with
    | value hstep => cases hstep
    | item hmem => exact ih b hmem
  | int | atom | struct =>
    refine hlast _ fun b hb => ?_
    cases hb with
    | value hstep => cases hstep

theorem Founded.chainsEnd (hs : s.Founded) : s.ChainsEnd := WellFounded.mono hs fun _ _ => .value

/-- What holds of a term as soon as it holds of the elements of the list that the term
stands for, if it does, holds of all terms. -/
theorem Founded.induct (hs : s.Founded) {P : S.Term → Prop}
    (step : ∀ a, (∀ items, s.deref a = .list items → ∀ t ∈ items, P t) → P a) (a : S.Term) :
    P a := by
  induction a using (WellFounded.transGen hs).induction with
  | _ a ih =>
    refine step a fun items hitems t ht => ih t ?_
    have hchain := reaches_deref s a
    rw [hitems] at hchain
    have hopens := Relation.ReflTransGen.mono (fun _ _ => Opens.value) _ _ hchain
    exact Relation.transGen_swap.mpr (.tail' hopens (.item ht))

/-! ### One level of identity -/

/-- Two ends of chains that are alike, given which elements of lists are. -/
inductive Alike (R : S.Term → S.Term → Prop) : S.Term → S.Term → Prop
  | var (v : Var) : Alike R (.var v) (.var v)
  | int (n : Int) : Alike R (.int n) (.int n)
  | atom (name : String) : Alike R (.atom name) (.atom name)
  | list {as bs : List S.Term} : List.Forall₂ R as bs → Alike R (.list as) (.list bs)
  | struct (object : Nat) (label label' : S.Label) (args args' : List S.Term) :
      Alike R (.struct object label args) (.struct object label' args')

/-- The two terms are found to be identical. -/
def Identical (s : Store S) (a b : S.Term) : Prop := ∃ n, s.identical? n a b = some true

theorem identical?_succ {n : Nat} :
    s.identical? (n + 1) a b = some true ↔
      Alike (fun a b => s.identical? n a b = some true) (s.deref a) (s.deref b) := by
  rw [identical?]
  generalize s.deref a = a
  generalize s.deref b = b
  constructor
  · intro h
    split at h
    · next v w => simp_all [Alike.var]
    · next m n => simp_all [Alike.int]
    · next m n => simp_all [Alike.atom]
    · next as bs =>
      split at h
      · next hlength => exact .list (forall₂_of_allPairs? hlength h)
      · cases h
    · next i l as j l' bs =>
      obtain rfl : i = j := by simpa using h
      exact .struct _ _ _ _ _
    · cases h
  · intro h
    cases h with
    -- Only lists look further; all other ends are compared by what they are.
    | list h =>
      dsimp only
      rw [if_pos h.length_eq]
      exact allPairs?_of_forall₂ h
    | _ => simp

/-- A bound that is enough for every pair of elements. -/
theorem exists_fuel {as bs : List S.Term} (h : List.Forall₂ s.Identical as bs) :
    ∃ n, List.Forall₂ (fun a b => s.identical? n a b = some true) as bs := by
  induction h with
  | nil => exact ⟨0, .nil⟩
  | cons hab _ ih =>
    obtain ⟨n, hn⟩ := hab
    obtain ⟨k, hk⟩ := ih
    refine ⟨max n k, .cons (s.identical?_mono (Nat.le_max_left _ _) hn) ?_⟩
    exact hk.imp fun _ _ => s.identical?_mono (Nat.le_max_right _ _)

theorem identical_iff : s.Identical a b ↔ Alike s.Identical (s.deref a) (s.deref b) := by
  constructor
  · rintro ⟨n, hn⟩
    cases n with
    | zero => cases hn
    | succ n =>
      rw [identical?_succ] at hn
      generalize s.deref a = a at *
      generalize s.deref b = b at *
      cases hn with
      | list h => exact .list (h.imp fun _ _ hab => ⟨n, hab⟩)
      | _ => constructor
  · intro h
    -- Only the elements of lists need fuel, and finitely many of them share one bound.
    have hlevel : ∃ n, Alike (fun a b => s.identical? n a b = some true) (s.deref a)
        (s.deref b) := by
      generalize s.deref a = a at *
      generalize s.deref b = b at *
      cases h with
      | list h =>
        obtain ⟨n, hn⟩ := exists_fuel h
        exact ⟨n, .list hn⟩
      | _ => exact ⟨0, by constructor⟩
    obtain ⟨n, hn⟩ := hlevel
    exact ⟨n + 1, identical?_succ.mpr hn⟩

/-! ### An equivalence -/

theorem Founded.identical_refl (hs : s.Founded) (a : S.Term) : s.Identical a a := by
  induction a using hs.induct with
  | step a ih =>
    rw [identical_iff]
    cases hend : s.deref a with
    | list items => exact .list (List.forall₂_same.mpr (ih items hend))
    | _ => constructor

theorem Identical.symm (h : s.Identical a b) : s.Identical b a := by
  obtain ⟨n, hn⟩ := h
  exact ⟨n, by rw [identical?_comm, hn]⟩

theorem Founded.identical_trans (hs : s.Founded) (a : S.Term) :
    ∀ b c, s.Identical a b → s.Identical b c → s.Identical a c := by
  induction a using hs.induct with
  | step a ih =>
    intro b c hab hbc
    rw [identical_iff] at hab hbc ⊢
    -- The induction is on the first term; the others may be any that are identical to it.
    generalize hend : s.deref a = a' at hab ⊢
    generalize s.deref b = b' at *
    cases hab with
    | list has =>
      generalize s.deref c = c' at *
      cases hbc with
      | list hbs => exact .list (forall₂_trans has hbs (ih _ hend))
    | struct =>
      generalize s.deref c = c' at *
      cases hbc with
      | struct => exact .struct _ _ _ _ _
    | _ => exact hbc

theorem Founded.identical_equivalence (hs : s.Founded) : Equivalence s.Identical where
  refl := hs.identical_refl
  symm := Identical.symm
  trans := fun {a} {b} {c} => hs.identical_trans a b c

/-- Pairs can be tested one after the other if each of them can. -/
theorem exists_allPairs? {as : List S.Term}
    (h : ∀ a ∈ as, ∀ b, ∃ n r, s.identical? n a b = some r) (bs : List S.Term) :
    ∃ n r, allPairs? (s.identical? n) as bs = some r := by
  induction as generalizing bs with
  | nil => exact ⟨0, true, by simp [allPairs?]⟩
  | cons a as ih =>
    cases bs with
    | nil => exact ⟨0, true, by simp [allPairs?]⟩
    | cons b bs =>
      obtain ⟨n, r, hr⟩ := h a (by simp) b
      obtain ⟨k, r', hr'⟩ := ih (fun a ha => h a (List.mem_cons_of_mem _ ha)) bs
      have hfirst := s.identical?_mono (Nat.le_max_left n k) hr
      have hrest := allPairs?_mono (fun _ _ _ => s.identical?_mono (Nat.le_max_right n k)) hr'
      -- The test stops at the first pair that is not identical.
      cases r with
      | true => exact ⟨max n k, r', by rw [allPairs?, hfirst]; exact hrest⟩
      | false => exact ⟨max n k, false, by rw [allPairs?, hfirst]⟩

/-- Whether two terms are identical can be found out. -/
theorem Founded.identical_total (hs : s.Founded) (a : S.Term) :
    ∀ b, ∃ n r, s.identical? n a b = some r := by
  induction a using hs.induct with
  | step a ih =>
    intro b
    by_cases hlists : ∃ as bs, s.deref a = .list as ∧ s.deref b = .list bs
    · obtain ⟨as, bs, ha, hb⟩ := hlists
      obtain ⟨n, r, hr⟩ := exists_allPairs? (ih as ha) bs
      by_cases hlength : as.length = bs.length
      · exact ⟨n + 1, r, by rw [identical?, ha, hb]; exact (if_pos hlength).trans hr⟩
      · exact ⟨1, false, by rw [identical?, ha, hb]; exact if_neg hlength⟩
    · refine ⟨1, (s.identical? 1 a b).getD false, ?_⟩
      rw [identical?]
      split
      · rfl
      · rfl
      · rfl
      · next as bs ha hb => exact absurd ⟨as, bs, ha, hb⟩ hlists
      · rfl
      · rfl

/-! ### Later stores -/

theorem Upholds.step? (h : s.Upholds s') (hstep : s.step? a = some b) : s'.step? a = some b := by
  obtain ⟨v, rfl, hcell, hbinding⟩ := step?_eq_some.mp hstep
  have hbound : s.isBound v = true := isBound_eq_true.mpr ⟨hcell, b, hbinding⟩
  obtain ⟨hcell', -⟩ := isBound_eq_true.mp (h.isBound hbound)
  exact step?_eq_some.mpr ⟨v, rfl, hcell', (h.value v hbound).trans hbinding⟩

/-- Chains go on where they ended earlier. -/
theorem Upholds.deref (h : s.Upholds s') (hs' : s'.ChainsEnd) (a : S.Term) :
    s'.deref (s.deref a) = s'.deref a := by
  have hchain := Relation.ReflTransGen.mono (fun _ _ => h.step?) _ _ (reaches_deref s a)
  exact (deref_of_reaches hs' (Relation.reflTransGen_swap.mpr hchain)).symm

/-- Terms that are identical stay so while slots are filled. -/
theorem Identical.upheld (hab : s.Identical a b) (h : s.Upholds s') (hs' : s'.Founded) :
    s'.Identical a b := by
  obtain ⟨n, hn⟩ := hab
  induction n generalizing a b with
  | zero => cases hn
  | succ n ih =>
    rw [identical?_succ] at hn
    -- whatever is done to them later, the earlier ends are treated alike
    have hends : s'.Identical (s.deref a) (s.deref b) := by
      generalize s.deref a = a at *
      generalize s.deref b = b at *
      cases hn with
      | list h =>
        rw [identical_iff, deref_of_step?_eq_none rfl, deref_of_step?_eq_none rfl]
        exact .list (h.imp fun _ _ => ih)
      | struct =>
        rw [identical_iff, deref_of_step?_eq_none rfl, deref_of_step?_eq_none rfl]
        exact .struct _ _ _ _ _
      | _ => exact hs'.identical_refl _
    rwa [identical_iff, h.deref hs'.chainsEnd, h.deref hs'.chainsEnd, ← identical_iff] at hends

end Store

/-- Later slots: those after any number of unifications one after the other, whether
they succeed or fail, and whatever trails and private states they are run with. -/
def Theory.Unified (T : Theory S) : Store S → Store S → Prop :=
  Relation.ReflTransGen fun s s' => ∃ n a b c r d, unify T n a b c = .ok r d ∧
    c.world.store = s ∧ d.world.store = s'

theorem Theory.Unified.upholds {s s' : Store S} (h : T.Unified s s') : s.Upholds s' := by
  induction h with
  | refl => exact .refl s
  | tail _ hstep ih =>
    obtain ⟨n, a, b, c, r, d, hunify, rfl, rfl⟩ := hstep
    obtain ⟨ws, hws⟩ := unify_fillings T n a b c
    rw [last, hunify] at hws
    exact ih.trans hws.upholds

/-- In a store without cyclic terms, whether two terms are identical can be found out
for all of them, and is an equivalence.  Terms that are identical stay so in all later
stores without cyclic terms, for all guards and structures, and whatever cells are
given in the meantime. -/
theorem Store.identical_upheld (T : Theory S) {s : Store S} (hs : s.Founded) :
    (∀ a b, ∃ n r, ∀ k, n ≤ k → s.identical? k a b = some r) ∧ Equivalence s.Identical ∧
      ∀ s', T.Unified s s' → s'.Founded → ∀ a b, s.Identical a b → s'.Identical a b := by
  refine ⟨fun a b => ?_, hs.identical_equivalence, fun s' hlater hs' a b hab => ?_⟩
  · obtain ⟨n, r, hr⟩ := hs.identical_total a b
    exact ⟨n, r, fun k hk => s.identical?_mono hk hr⟩
  · exact hab.upheld hlater.upholds hs'

/-- A variable that is bound to a list of a cell and a restricted variable. -/
def Bounds.paired : Store Bounds.vocabulary :=
  Bounds.variables.set ⟨1⟩ (some (.list [.var ⟨2⟩, .var ⟨3⟩]))

theorem Bounds.paired_acyclic : Bounds.paired.Acyclic := by
  have hnone : ∀ v w, ¬ Bounds.variables.Refers v w := by
    rintro ⟨_ | _ | _ | _ | i⟩ w ⟨a, ha, hw⟩ <;> cases ha
    cases hw
  have hvariables : Bounds.variables.Acyclic := ⟨fun v => .intro v fun w h => (hnone v w h).elim⟩
  refine hvariables.set fun w hw hreach => ?_
  rcases Relation.ReflTransGen.cases_head hreach with rfl | ⟨x, hx, -⟩
  · cases hw with
    | list hmem hocc =>
      rcases List.mem_pair.mp hmem with rfl | rfl <;> cases hocc
  · exact hnone w x hx

/-- A scope with these slots. -/
def Bounds.pair : Scope Bounds.vocabulary := ⟨.empty, ⟨Bounds.paired, 0, (), []⟩⟩

/-- The variable stays identical to the list of its two elements when the cell is given
another value and the other element is bound. -/
theorem Store.identical_upheld_sample : ∃ d,
    unify Bounds.theory 3 (.var ⟨1⟩) (.list [.int 7, .int 2]) Bounds.pair = .ok true d ∧
    d.world.store.binding ⟨2⟩ = some (.int 7) ∧ d.world.store.deref (.var ⟨3⟩) = .int 2 ∧
    d.world.store.Identical (.var ⟨1⟩) (.list [.var ⟨2⟩, .var ⟨3⟩]) := by
  have hbefore : Bounds.paired.Identical (.var ⟨1⟩) (.list [.var ⟨2⟩, .var ⟨3⟩]) := ⟨2, rfl⟩
  have hlater := (Store.identical_upheld Bounds.theory Bounds.paired_acyclic.founded).2.2
  refine ⟨_, rfl, rfl, rfl, hlater _ (.single ?_) ?_ _ _ hbefore⟩
  · exact ⟨3, .var ⟨1⟩, .list [.int 7, .int 2], Bounds.pair, true, _, rfl, rfl, rfl⟩
  · -- two integers have been put into slots, and they lead nowhere
    have hcell := Bounds.paired_acyclic.set (v := ⟨2⟩) (a := .int 7) fun w hw => nomatch hw
    exact (hcell.set (v := ⟨3⟩) (a := .int 2) fun w hw => nomatch hw).founded

end GoalSearch
