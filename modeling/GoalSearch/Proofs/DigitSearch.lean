/-
Searching for the digits of a sum.

The search decides one variable after the other and deduces what follows.  However much
is deduced on the way, and wherever it turns back, it finds what trying all digits for
all variables finds, in the same order: every assignment that respects the guards, gives
different digits to the letters and makes all columns right, once, and no other.

* `assignments` — digits for variables, in lexicographic order;
* `DigitSum.solutions` — the assignments among them that solve a puzzle and fit a store;
* `DigitSum.Chooses` — what is left when a variable is given a digit;
* `DigitSum.exists_delivers` — the search delivers the solutions that fit its store;
* `DigitSum.finds_each_solution_once` — findAll and the deductions.

Design notes: the solutions that fit a store are a list with an order of its own, which
does not depend on how the store came about.  A deduction that loses no solution leaves
the list as it is, and a level of the search splits it by the digits of the variable that
it decides.
-/
import GoalSearch.Proofs.Columns
import Mathlib.Data.List.Lex
import Mathlib.Data.List.Sort

namespace GoalSearch

open GoalSearch.Action GoalSearch.Configuration Machine Solutions

variable {S : Vocabulary} {T : Theory S} {D : Var → Int → Bool} {k : Nat}

/-! ### Assignments in order -/

/-- The ten digits. -/
def decimal : List Int := [0, 1, 2, 3, 4, 5, 6, 7, 8, 9]

/-- Digits for some variables, the last variable changing first.  All others stand for
zero. -/
def assignments : List Var → List (Var → Int)
  | [] => [fun _ => 0]
  | v :: vs => decimal.flatMap fun n => (assignments vs).map fun σ => Function.update σ v n

/-- The digits of some variables are lexicographically before others. -/
def Before (vs : List Var) (σ τ : Var → Int) : Prop :=
  List.Lex (· < ·) (vs.map σ) (vs.map τ)

instance (vs : List Var) : Std.Asymm (Before vs) where
  asymm _ _ h := Std.Asymm.asymm (r := List.Lex fun (m n : Int) => m < n) _ _ h

theorem mem_decimal {n : Int} : n ∈ decimal ↔ 0 ≤ n ∧ n ≤ 9 := by
  simp only [decimal, List.mem_cons, List.not_mem_nil, or_false]
  omega

section Assignments

variable {vs us us' : List Var} {v : Var} {σ τ : Var → Int} {n : Int}

theorem map_update (hv : v ∉ vs) : vs.map (Function.update σ v n) = vs.map σ := by
  refine List.map_congr_left fun u hu => ?_
  have hne : u ≠ v := fun heq => hv (heq ▸ hu)
  exact Function.update_of_ne hne _ _

theorem mem_assignments (hvs : vs.Nodup) :
    σ ∈ assignments vs ↔ (∀ v ∈ vs, σ v ∈ decimal) ∧ ∀ v, v ∉ vs → σ v = 0 := by
  induction vs generalizing σ with
  | nil =>
    rw [assignments, List.mem_singleton]
    constructor
    · rintro rfl
      simp
    · rintro ⟨-, hzero⟩
      exact funext fun v => hzero v (by simp)
  | cons v vs ih =>
    rw [List.nodup_cons] at hvs
    simp only [assignments, List.mem_flatMap, List.mem_map, ih hvs.2]
    constructor
    · rintro ⟨n, hn, τ, ⟨hdigits, hzero⟩, rfl⟩
      constructor
      · intro u hu
        by_cases huv : u = v
        · subst huv
          rwa [Function.update_self]
        · rw [Function.update_of_ne huv]
          exact hdigits u ((List.mem_cons.mp hu).resolve_left huv)
      · intro u hu
        rw [List.mem_cons, not_or] at hu
        rw [Function.update_of_ne hu.1]
        exact hzero u hu.2
    · rintro ⟨hdigits, hzero⟩
      -- An assignment is its value at the first variable, on top of one that is zero there.
      refine ⟨σ v, hdigits v (by simp), Function.update σ v 0, ⟨?_, ?_⟩, ?_⟩
      · intro u hu
        have huv : u ≠ v := fun heq => hvs.1 (heq ▸ hu)
        rw [Function.update_of_ne huv]
        exact hdigits u (List.mem_cons_of_mem v hu)
      · intro u hu
        by_cases huv : u = v
        · rw [huv, Function.update_self]
        · rw [Function.update_of_ne huv]
          exact hzero u (by simp [huv, hu])
      · rw [Function.update_idem, Function.update_eq_self]

/-- Where the first variables stand for the same, the next one decides. -/
theorem before_of_lt (hus : ∀ u ∈ us, σ u = τ u) (hv : σ v < τ v) :
    Before (us ++ v :: us') σ τ := by
  rw [Before, List.map_append, List.map_append, List.map_congr_left hus]
  exact List.Lex.append_left _ (.rel hv) _

theorem pairwise_assignments (hvs : vs.Nodup) : (assignments vs).Pairwise (Before vs) := by
  induction vs with
  | nil => exact List.pairwise_singleton _ _
  | cons v vs ih =>
    rw [List.nodup_cons] at hvs
    rw [assignments, List.pairwise_flatMap]
    constructor
    · intro n _
      rw [List.pairwise_map]
      refine (ih hvs.2).imp fun hbefore => ?_
      rw [Before, List.map_cons, List.map_cons, Function.update_self, Function.update_self,
        map_update hvs.1, map_update hvs.1]
      exact .cons hbefore
    · have hdecimal : decimal.Pairwise (· < ·) := by decide
      refine hdecimal.imp fun hlt σ hσ τ hτ => ?_
      obtain ⟨σ', -, rfl⟩ := List.mem_map.mp hσ
      obtain ⟨τ', -, rfl⟩ := List.mem_map.mp hτ
      rw [Before, List.map_cons, List.map_cons, Function.update_self, Function.update_self]
      exact .rel hlt

/-- Assignments in order, which agree on the first variables, are split by what the next
one stands for. -/
theorem eq_flatMap_filter {L : List (Var → Int)} {ds : List Int}
    (hL : L.Pairwise (Before (us ++ v :: us'))) (hds : ds.Pairwise (· < ·))
    (hagree : ∀ σ ∈ L, ∀ τ ∈ L, ∀ u ∈ us, σ u = τ u) (hmem : ∀ σ ∈ L, σ v ∈ ds) :
    L = ds.flatMap fun n => L.filter fun σ => σ v = n := by
  refine hL.eq_of_mem_iff ?_ fun σ => ?_
  · rw [List.pairwise_flatMap]
    refine ⟨fun n _ => hL.filter _, hds.imp fun hlt σ hσ τ hτ => ?_⟩
    simp only [List.mem_filter, decide_eq_true_eq] at hσ hτ
    exact before_of_lt (hagree σ hσ.1 τ hτ.1) (by omega)
  · simp only [List.mem_flatMap, List.mem_filter, decide_eq_true_eq]
    constructor
    · exact fun hσ => ⟨σ v, hmem σ hσ, hσ, rfl⟩
    · rintro ⟨n, -, hσ, -⟩
      exact hσ

end Assignments

/-! ### Stores with all variables decided -/

namespace Store

/-- Puts integers into the slots of some variables. -/
def assigned (s : Store S) (vs : List Var) (σ : Var → Int) : Store S :=
  vs.foldl (fun s v => s.set v (some (.int (σ v)))) s

variable {s s' : Store S} {vs : List Var} {v : Var} {σ : Var → Int}

theorem get_assigned (s : Store S) (vs : List Var) (σ : Var → Int) (v : Var) :
    (s.assigned vs σ).get v =
      if v ∈ vs then { s.get v with value := some (.int (σ v)) } else s.get v := by
  induction vs generalizing s with
  | nil => simp [assigned]
  | cons u vs ih =>
    show (((s.set u _).assigned vs σ)).get v = _
    rw [ih, get_set]
    by_cases huv : u = v
    · subst huv
      by_cases hu : u ∈ vs <;> simp [hu]
    · simp [huv, Ne.symm huv]

theorem binding_assigned (hv : v ∈ vs) : (s.assigned vs σ).binding v = some (.int (σ v)) := by
  rw [binding, get_assigned, if_pos hv]

theorem isCell_assigned : (s.assigned vs σ).isCell v = s.isCell v := by
  have hrole : ((s.assigned vs σ).get v).role = (s.get v).role := by
    rw [get_assigned]
    split <;> rfl
  rw [isCell, isCell, hrole]

/-- Deductions that leave no variable open have put into the slots what the variables stand
for. -/
theorem Fills.assigned (h : s.Fills D vs [] s') (hs : s.Ranged T D vs)
    (hclosed : ∀ v ∈ vs, s'.isUnbound v = false) (hσ : s'.Fits D vs σ) :
    s' ≈ s.assigned vs σ := by
  intro v
  rw [get_assigned]
  split
  · next hv =>
    have hs' := h.ranged hs
    have hbinding : s'.binding v = some (.int (σ v)) := by
      rcases hσ.known_or_open hs' hv with ⟨hn, -⟩ | ⟨-, hopen⟩
      · exact (hs'.int?_eq_some hv).mp hn
      · rw [hclosed v hv] at hopen
        cases hopen
    have hrole : (s'.get v).role = (s.get v).role := by
      rcases h.filled v hv with hsame | ⟨-, n, -, hset⟩
      · rw [hsame]
      · rw [hset]
    show s'.get v = ⟨(s.get v).role, some (.int (σ v))⟩
    rw [← hbinding, ← hrole]
    rfl
  · next hv => exact h.beside v hv (by simp)

end Store

namespace DigitSum

variable {p : DigitSum} {s s' s₀ : Store S} {σ : Var → Int} {v : Var} {ds : List Int}

/-! ### What is decided next -/

theorem isUnbound_of_nextOpen (h : p.nextOpen s = none) (hv : v ∈ p.vars) :
    s.isUnbound v = false := by
  rw [nextOpen] at h
  split at h
  · cases h
  · next hletters =>
    rw [Option.map_eq_none_iff] at h
    rcases List.mem_append.mp hv with hv | hv
    · simpa using List.find?_eq_none.mp hletters v hv
    · simpa using List.find?_eq_none.mp h v hv

/-- What is decided next is the first open variable.  The digits that are tried are in
order, and are all that it stands for in a solution. -/
theorem nextOpen_eq_some (hp : p.Formed D) (hs : s.Ranged T D p.vars)
    (h : p.nextOpen s = some (v, ds)) :
    s.isUnbound v = true ∧ ds.Pairwise (· < ·) ∧ ds.length ≤ 10 ∧
      (∃ us us', p.vars = us ++ v :: us' ∧ ∀ u ∈ us, s.isUnbound u = false) ∧
      ∀ σ, p.Solves D σ → s.Fits D p.vars σ → σ v ∈ ds := by
  have hdecimal : decimal.Pairwise (· < ·) := by decide
  rw [nextOpen] at h
  split at h
  · next letter hletter =>
    cases h
    obtain ⟨hopen, us, us', hsplit, hclosed⟩ := List.find?_eq_some_iff_append.mp hletter
    have hmem : v ∈ p.letters := by simp [hsplit]
    refine ⟨hopen, hdecimal.filter _, List.length_filter_le _ decimal, ?_, fun σ hσ hfits => ?_⟩
    · exact ⟨us, us' ++ p.carries, by rw [vars, hsplit]; simp, by simpa using hclosed⟩
    · have hdigit := mem_decimal.mpr (hp.letters v hmem _ (hσ.ranges v (mem_vars_of_letters hmem)))
      refine List.mem_filter.mpr ⟨hdigit, decide_eq_true fun htaken => ?_⟩
      -- a digit that is taken belongs to another letter
      obtain ⟨u, hu, hn⟩ := List.mem_filterMap.mp htaken
      have heq := List.inj_on_of_nodup_map hσ.letters hu hmem
        (hfits.int?_eq (mem_vars_of_letters hu) hn)
      rw [heq, (hs.int?_eq_none (mem_vars_of_letters hmem)).mpr hopen] at hn
      cases hn
  · next hletters =>
    obtain ⟨carry, hcarry, heq⟩ := Option.map_eq_some_iff.mp h
    cases heq
    obtain ⟨hopen, us, us', hsplit, hclosed⟩ := List.find?_eq_some_iff_append.mp hcarry
    have hmem : v ∈ p.carries := by simp [hsplit]
    refine ⟨hopen, by decide, by decide, ?_, fun σ hσ _ => ?_⟩
    · refine ⟨p.letters ++ us, us', by rw [vars, hsplit]; simp, fun u hu => ?_⟩
      rcases List.mem_append.mp hu with hu | hu
      · simpa using List.find?_eq_none.mp hletters u hu
      · simpa using hclosed u hu
    · have hrange := hp.carries v hmem _ (hσ.ranges v (List.mem_append_right _ hmem))
      simp only [List.mem_cons, List.not_mem_nil, or_false]
      omega

/-! ### Solutions that fit a store -/

instance (p : DigitSum) (σ : Var → Int) : Decidable (p.Solves D σ) :=
  decidable_of_iff ((∀ v ∈ p.vars, D v (σ v) = true) ∧ (p.letters.map σ).Nodup ∧
      ∀ c ∈ p.columns, c.Right σ)
    ⟨fun h => ⟨h.1, h.2.1, h.2.2⟩, fun h => ⟨h.ranges, h.letters, h.columns⟩⟩

instance (vs : List Var) (s : Store S) (σ : Var → Int) : Decidable (s.Fits D vs σ) :=
  inferInstanceAs (Decidable (∀ v ∈ vs, s.accepts D v (σ v) = true))

variable (D) in
/-- The assignments that solve a puzzle and fit a store. -/
def solutions (p : DigitSum) (s : Store S) : List (Var → Int) :=
  (assignments p.vars).filter fun σ => p.Solves D σ ∧ s.Fits D p.vars σ

theorem mem_solutions (hp : p.Formed D) :
    σ ∈ p.solutions D s ↔
      p.Solves D σ ∧ s.Fits D p.vars σ ∧ ∀ v, v ∉ p.vars → σ v = 0 := by
  rw [solutions, List.mem_filter, mem_assignments hp.different, decide_eq_true_eq]
  constructor
  · rintro ⟨⟨-, hzero⟩, hσ, hfits⟩
    exact ⟨hσ, hfits, hzero⟩
  · rintro ⟨hσ, hfits, hzero⟩
    exact ⟨⟨fun v hv => mem_decimal.mpr (hp.digital hσ.ranges v hv), hzero⟩, hσ, hfits⟩

/-- Whether a puzzle is solved depends on its variables only. -/
theorem Solves.congr {τ : Var → Int} (hσ : p.Solves D σ) (hp : p.Formed D)
    (h : ∀ v ∈ p.vars, τ v = σ v) : p.Solves D τ where
  ranges v hv := by
    rw [h v hv]
    exact hσ.ranges v hv
  letters := by
    rw [List.map_congr_left fun v hv => h v (mem_vars_of_letters hv)]
    exact hσ.letters
  columns c hc := by
    have hover := hp.columns c hc
    have habove := List.map_congr_left fun v hv => h v (hover.above v hv)
    rw [Column.Right, habove, h c.below hover.below, h c.carry hover.carry]
    exact hσ.columns c hc

/-- In a store in which all variables are open, the digits of all assignments that solve the
puzzle are those of its solutions. -/
theorem mem_map_solutions (hp : p.Formed D) (hs : s.Ranged T D p.vars)
    (hopen : ∀ v ∈ p.vars, s.isUnbound v = true) {ds : List Int} :
    ds ∈ (p.solutions D s).map (fun σ => p.vars.map σ) ↔
      ∃ σ, p.Solves D σ ∧ ds = p.vars.map σ := by
  constructor
  · intro hds
    obtain ⟨σ, hσ, rfl⟩ := List.mem_map.mp hds
    exact ⟨σ, ((mem_solutions hp).mp hσ).1, rfl⟩
  · rintro ⟨σ, hσ, rfl⟩
    let τ : Var → Int := fun v => if v ∈ p.vars then σ v else 0
    have hτ : ∀ v ∈ p.vars, τ v = σ v := fun v hv => if_pos hv
    have hsolves := hσ.congr hp hτ
    refine List.mem_map.mpr ⟨τ, (mem_solutions hp).mpr ⟨hsolves, fun v hv => ?_, ?_⟩, ?_⟩
    · rw [Store.accepts, (hs.int?_eq_none hv).mpr (hopen v hv)]
      exact hsolves.ranges v hv
    · exact fun v hv => if_neg hv
    · exact List.map_congr_left hτ

theorem pairwise_solutions (hp : p.Formed D) (s : Store S) :
    (p.solutions D s).Pairwise (Before p.vars) :=
  (pairwise_assignments hp.different).filter _

theorem solutions_congr (hs : s.Ranged T D p.vars) (h : s ≈ s') :
    p.solutions D s' = p.solutions D s := by
  refine List.filter_congr fun σ _ => ?_
  rw [decide_eq_decide, hs.fits_congr h]

/-- The solutions, split by what the first open variable stands for. -/
theorem solutions_eq_flatMap (hp : p.Formed D) (hs : s.Ranged T D p.vars)
    (h : p.nextOpen s = some (v, ds)) :
    p.solutions D s = ds.flatMap fun n => (p.solutions D s).filter fun σ => σ v = n := by
  obtain ⟨-, hds, -, ⟨us, us', hsplit, hclosed⟩, hmem⟩ := nextOpen_eq_some hp hs h
  have hpairwise := pairwise_solutions hp s
  rw [hsplit] at hpairwise
  refine eq_flatMap_filter hpairwise hds (fun σ hσ τ hτ u hu => ?_) fun σ hσ => ?_
  · have hu' : u ∈ p.vars := by simp [hsplit, hu]
    rcases (((mem_solutions hp).mp hσ).2.1).known_or_open hs hu' with ⟨hn, -⟩ | ⟨-, hopen⟩
    · exact (((mem_solutions hp).mp hτ).2.1.int?_eq hu' hn).symm
    · rw [hclosed u hu] at hopen
      cases hopen
  · obtain ⟨hsolves, hfits, -⟩ := (mem_solutions hp).mp hσ
    exact hmem σ hsolves hfits

/-! ### States of the search -/

variable (D) in
/-- A state of a search that began with the slots `s₀`: some variables have been given
integers that they accept, and when no variable is open the puzzle is solved. -/
structure Searched (p : DigitSum) (s₀ s : Store S) : Prop where
  fills : s₀.Fills D p.vars [] s
  sound : (∀ v ∈ p.vars, s.isUnbound v = false) →
    ∀ σ, s.Fits D p.vars σ → (∀ v ∈ p.vars, D v (σ v) = true) → p.Solves D σ

/-- A puzzle without variables has no columns. -/
theorem searched_start (hp : p.Formed D) (hopen : ∀ v ∈ p.vars, s₀.isUnbound v = true) :
    p.Searched D s₀ s₀ where
  fills := Store.fills_refl s₀
  sound hclosed σ _ hranges := by
    have hnone : ∀ v, v ∉ p.vars := by
      intro v hv
      have h := hopen v hv
      rw [hclosed v hv] at h
      cases h
    refine ⟨hranges, ?_, fun c hc => absurd (hp.columns c hc).below (hnone _)⟩
    have hletters : p.letters = [] :=
      List.eq_nil_iff_forall_not_mem.mpr fun v hv => hnone v (mem_vars_of_letters hv)
    simp [hletters]

/-- With no variable open there is one solution, and it is in the slots. -/
theorem Searched.solutions_eq (h : p.Searched D s₀ s) (hp : p.Formed D)
    (hs₀ : s₀.Ranged T D p.vars) (hopen : ∀ v ∈ p.vars, s₀.isUnbound v = true)
    (hclosed : ∀ v ∈ p.vars, s.isUnbound v = false) :
    ∃ σ, p.solutions D s = [σ] ∧ s ≈ s₀.assigned p.vars σ := by
  have hs := h.fills.ranged hs₀
  -- The solution is read off the slots.
  let σ : Var → Int := fun v => if v ∈ p.vars then (s.int? (.var v)).getD 0 else 0
  have hknown : ∀ v ∈ p.vars, s.int? (.var v) = some (σ v) := by
    intro v hv
    cases hn : s.int? (.var v) with
    | none =>
      have hv' := (hs.int?_eq_none hv).mp hn
      rw [hclosed v hv] at hv'
      cases hv'
    | some n =>
      show some n = some (if v ∈ p.vars then (s.int? (.var v)).getD 0 else 0)
      rw [if_pos hv, hn]
      rfl
  have hfits : s.Fits D p.vars σ := by
    intro v hv
    rw [Store.accepts, hknown v hv]
    simp
  have hranges : ∀ v ∈ p.vars, D v (σ v) = true := by
    intro v hv
    refine (h.fills.of_int? hs₀ hv (hknown v hv)).resolve_left fun hn => ?_
    rw [(hs₀.int?_eq_none hv).mpr (hopen v hv)] at hn
    cases hn
  refine ⟨σ, ?_, h.fills.assigned hs₀ hclosed hfits⟩
  -- Both lists are ordered, so they are equal once they have the same members.
  refine (pairwise_solutions hp s).eq_of_mem_iff (List.pairwise_singleton _ _) fun τ => ?_
  rw [mem_solutions hp, List.mem_singleton]
  constructor
  · rintro ⟨-, hτ, hzero⟩
    funext v
    by_cases hv : v ∈ p.vars
    · exact hτ.int?_eq hv (hknown v hv)
    · rw [hzero v hv]
      exact (if_neg hv).symm
  · rintro rfl
    exact ⟨h.sound hclosed σ hfits hranges, hfits, fun v hv => if_neg hv⟩

/-! ### Choices -/

variable (D) in
/-- What is left when a variable is given an integer: the solutions in which it stands for
it, none of them being lost. -/
structure Chooses (p : DigitSum) (v : Var) (n : Int) (m : Machine S) (b : Bool)
    (m' : Machine S) : Prop where
  stays : m.Stays Scope.Continues m'
  fills : m.world.store.Fills D p.vars [] m'.world.store
  left : (p.solutions D m.world.store).filter (fun σ => σ v = n) =
    if b then p.solutions D m'.world.store else []
  sound : b = true → (∀ v ∈ p.vars, m'.world.store.isUnbound v = false) →
    ∀ σ, m'.world.store.Fits D p.vars σ → (∀ v ∈ p.vars, D v (σ v) = true) → p.Solves D σ
  smaller : b = true → m.world.store.isUnbound v = true →
    p.vars.countP m'.world.store.isUnbound < p.vars.countP m.world.store.isUnbound

section Choices

variable {m m₁ m' : Machine S} {n : Int} {b : Bool}

/-- An integer that the variable does not accept. -/
theorem chooses_of_refused (hp : p.Formed D) (h : m.Takes D p.vars [(v, n)] false m') :
    p.Chooses D v n m false m' where
  stays := h.stays
  fills := h.fills
  left := by
    rw [if_neg (by simp), List.filter_eq_nil_iff]
    intro σ hσ heq
    obtain ⟨e, he, hne⟩ := h.refused rfl σ ((mem_solutions hp).mp hσ).2.1
    rw [List.mem_singleton.mp he] at hne
    exact hne (of_decide_eq_true heq)
  sound hb := nomatch hb
  smaller hb := nomatch hb

/-- An integer that the variable accepts, and what is deduced from it. -/
theorem chooses_of_propagates (hm : m.world.store.Ranged T D p.vars)
    (hv : v ∈ p.vars) (h : m.Takes D p.vars [(v, n)] true m₁) (h' : p.Propagates D m₁ b m') :
    p.Chooses D v n m b m' where
  stays := h.stays.trans h'.stays
  fills := h.fills.trans h'.fills
  left := by
    have hm₁ := h.fills.ranged hm
    -- What is deduced after the choice drops no solution in which the choice is right.
    have hkept : ∀ σ, p.Solves D σ → (m.world.store.Fits D p.vars σ ∧ σ v = n ↔
        b = true ∧ m'.world.store.Fits D p.vars σ) := by
      intro σ hσ
      have htaken : m₁.world.store.Fits D p.vars σ ↔
          m.world.store.Fits D p.vars σ ∧ σ v = n := by
        rw [h.kept rfl]
        simp
      rw [← htaken]
      exact ⟨fun hfits => h'.complete σ hfits hσ, fun hfits => h'.fills.fits hm₁ hfits.2⟩
    rw [solutions, List.filter_filter]
    cases b with
    | false =>
      rw [if_neg (by simp), List.filter_eq_nil_iff]
      intro σ _ hσ
      simp only [Bool.and_eq_true, decide_eq_true_eq] at hσ
      cases ((hkept σ hσ.2.1).mp ⟨hσ.2.2, hσ.1⟩).1
    | true =>
      rw [if_pos rfl, solutions]
      refine List.filter_congr fun σ _ => ?_
      rw [Bool.eq_iff_iff]
      simp only [Bool.and_eq_true, decide_eq_true_eq]
      constructor
      · rintro ⟨heq, hσ, hfits⟩
        exact ⟨hσ, ((hkept σ hσ).mp ⟨hfits, heq⟩).2⟩
      · rintro ⟨hσ, hfits⟩
        have h := (hkept σ hσ).mpr ⟨rfl, hfits⟩
        exact ⟨h.2, hσ, h.1⟩
  sound := h'.sound
  smaller _ hopen := by
    have hm₁ := h.fills.ranged hm
    have hclosed := hm₁.isUnbound_eq_false hv (h.holds rfl (v, n) (by simp))
    have hless := h.fills.countP_lt hm hv hopen hclosed
    have hle := h'.fills.countP_le hm₁
    omega

theorem exists_chooses (run : Runner S) (hp : p.Formed D) (hm : m.world.store.Ranged T D p.vars)
    (hv : v ∈ p.vars) (hk : p.vars.length + 2 ≤ k) {i : Nat} (hn : ds[i]? = some n) :
    ∃ b m', (p.choose v ds i : Program S (Goal S) .attempt).exec T k run m =
      .ok (some b) m' ∧ p.Chooses D v n m b m' := by
  have hchoose : (p.choose v ds i : Program S (Goal S) .attempt) =
      ((Program.unifies (.var v) (.int n)).andThen p.propagate).bind fun (b : Bool) =>
        .attempt (some b) := by
    rw [choose, hn]
  obtain ⟨b, m₁, htaken, htakes⟩ := exists_takes run (show 2 ≤ k by omega) hm hv n
  have hverdict : ∃ b m', ((Program.unifies (.var v) (.int n) :
      Program S (Goal S) .verdict).andThen p.propagate).exec T k run m = .ok b m' ∧
        p.Chooses D v n m b m' := by
    rw [Program.exec_andThen htaken]
    cases b with
    | false => exact ⟨false, m₁, rfl, chooses_of_refused hp htakes⟩
    | true =>
      obtain ⟨b, m', hexec, hpropagates⟩ := exists_propagate run hp
        (htakes.fills.ranged hm) hk
      exact ⟨b, m', hexec, chooses_of_propagates hm hv htakes hpropagates⟩
  obtain ⟨b, m', hexec, hchooses⟩ := hverdict
  refine ⟨b, m', ?_, hchooses⟩
  rw [hchoose]
  exact Program.exec_bind_of_ok hexec _

theorem choose_of_none {i : Nat} (hn : ds[i]? = none) :
    (p.choose v ds i : Program S (Goal S) .attempt) = .attempt none := by
  rw [choose, hn]

end Choices

/-! ### What the search delivers -/

section Delivers

variable {m : Machine S} {next : Continuation S}

variable (D) in
/-- The slots of the solutions that fit a store, for a search that began with `s₀`. -/
def ends (p : DigitSum) (s₀ s : Store S) : List (Store S) :=
  (p.solutions D s).map (s₀.assigned p.vars)

theorem call_solve {fuel : Nat} {run : Runner S} (p : DigitSum) (next : Continuation S)
    (m : Machine S) :
    call T fuel run p.solve next m = levelled m p.level next
      ((p.nextOpen m.world.store).map fun (v, ds) => p.choose v ds) := by
  refine call_search (fun m₁ hm₁ => ?_) next
  rw [level, Program.exec_withStore, hm₁]
  rfl

/-- With nothing left to decide the search goes on with the only solution. -/
theorem delivers_of_closed (hp : p.Formed D) (hs₀ : s₀.Ranged T D p.vars)
    (hopen : ∀ v ∈ p.vars, s₀.isUnbound v = true) (hm : p.Searched D s₀ m.world.store)
    (hnone : p.nextOpen m.world.store = none) :
    (ofList (p.ends D s₀ m.world.store)).Delivers T 0 k 1 next 0 m ⟨.call p.solve next, m⟩ := by
  obtain ⟨σ, hσ, hslots⟩ := hm.solutions_eq hp hs₀ hopen fun v hv => isUnbound_of_nextOpen hnone hv
  have hcall : call T k (run T k) p.solve next m = _ := call_solve p next m
  rw [hnone] at hcall
  have hstep : step T k (run T k) (.call p.solve next) m = _ := bind_ok hcall
  let m₁ := ((m.counted .calls 1).pushed m.engine.trail.length
    (.search (pure p.level) none next)).retired m.engine.frames
  have hstays : m.Stays Scope.Continues m₁ := stays_of_eq rfl rfl rfl rfl
  have hone : (one (s₀.assigned p.vars σ)).Delivers T 0 k 0 next 0 m ⟨.proceed next, m₁⟩ :=
    delivers_one hstays hslots
  rw [ends, hσ]
  exact (hone.of_reaches (Nat.zero_le k) (.single hstep)).mono (Nat.le_refl _) (Nat.zero_le _)

/-- When no integer is left to choose, the frame of a level is given up. -/
theorem delivers_of_no_choice {o : Machine S} {i : Nat} (hn : ds[i]? = none)
    (hm : o.OnFrame s (.search (pure p.level) (some (p.choose v ds, i)) next) m) :
    nil.Delivers T 0 k 1 next 1 o ⟨.retry, m⟩ := by
  refine hm.of_retry (Nat.zero_le k) fun m' _ hm' => ?_
  let m₁ := m'.withFrames
    (⟨.search (pure p.level) none next, o.engine.trail.length⟩ :: o.engine.frames)
  have hmade : (p.choose v ds i).exec T k (run T k) m₁ = .ok none m₁ := by
    rw [choose_of_none hn]
    rfl
  exact .inl ⟨_, _, _, retryActivation_search hm'.frames hmade rfl, rfl, delivers_nil hm'.popped⟩

/-- The next integer is chosen on the frame of a level, and the levels after it deliver the
solutions with this choice. -/
theorem delivers_of_choice (hp : p.Formed D) (hs₀ : s₀.Ranged T D p.vars) {J : Nat}
    (hk : p.vars.length + 2 ≤ k) (hs : p.Searched D s₀ s) (hv : v ∈ p.vars)
    (hopen : s.isUnbound v = true)
    (hrest : ∀ m : Machine S, p.Searched D s₀ m.world.store →
      p.vars.countP m.world.store.isUnbound < p.vars.countP s.isUnbound →
      (ofList (p.ends D s₀ m.world.store)).Delivers T 0 k J next 0 m ⟨.call p.solve next, m⟩)
    {o : Machine S} {i : Nat} {n : Int} (hn : ds[i]? = some n)
    (hm : o.OnFrame s (.search (pure p.level) (some (p.choose v ds, i)) next) m) :
    (ofList (((p.solutions D s).filter fun σ => σ v = n).map (s₀.assigned p.vars))).Delivers T 0 k
      (J + 1) next 1
      (m.withFrames (⟨.search (pure p.level) (some (p.choose v ds, i + 1)) next,
        o.engine.trail.length⟩ :: o.engine.frames)) ⟨.retry, m⟩ := by
  let act : Nat → Activation S := fun i => .search (pure p.level) (some (p.choose v ds, i)) next
  let fs := o.engine.frames
  let mark := o.engine.trail.length
  refine hm.of_retry (Nat.zero_le k) fun m' hstays hm' => ?_
  let m₁ := m'.withFrames (⟨.search (pure p.level) none next, mark⟩ :: fs)
  -- The frame has taken the slots back to those of the level before it makes the choice.
  have hslots : s ≈ m₁.world.store := Setoid.symm hm'.store
  have hs' := hs.fills.ranged hs₀
  obtain ⟨b, m₂, hmade, hchooses⟩ := exists_chooses (run T k) hp (hs'.congr hslots) hv hk hn
  have hexec := retryActivation_search hm'.frames hmade hchooses.stays.frames
  have hframe : (m.withFrames (⟨act (i + 1), mark⟩ :: fs)).Stays Scope.Continues
      (m₂.withFrames (⟨act (i + 1), mark⟩ :: fs)) :=
    (hstays.withFrames _).trans (hchooses.stays.withFrames _)
  have hleft := hchooses.left
  rw [solutions_congr hs' hslots] at hleft
  rw [hleft]
  cases b with
  | false =>
    exact .inl ⟨_, _, _, hexec, rfl, (delivers_nil hframe).mono (Nat.zero_le J) (Nat.le_refl _)⟩
  | true =>
    have hopen' : m₁.world.store.isUnbound v = true := by
      rwa [← Store.isUnbound_congr hslots]
    -- Fewer variables are open than at this level, so the levels after it deliver by `hrest`.
    have hsmaller := hchooses.smaller rfl hopen'
    have hcount : p.vars.countP m₁.world.store.isUnbound = p.vars.countP s.isUnbound :=
      List.countP_congr fun u _ => by rw [Store.isUnbound_congr hslots]
    have hsearched : p.Searched D s₀ m₂.world.store :=
      ⟨(hs.fills.congr hslots).trans hchooses.fills, hchooses.sound rfl⟩
    have hdelivers := hrest (m₂.withFrames (⟨act (i + 1), mark⟩ :: fs)) hsearched
      (by rw [← hcount]; exact hsmaller)
    exact .inl ⟨_, _, _, hexec, rfl, Delivers.of_stays hframe hdelivers⟩

/-- One choice after the other is made on the frame of a level. -/
theorem deliversAt_choice (hp : p.Formed D) (hs₀ : s₀.Ranged T D p.vars) {J : Nat}
    (hk : p.vars.length + 2 ≤ k) (hs : p.Searched D s₀ s) (hv : v ∈ p.vars)
    (hopen : s.isUnbound v = true)
    (hrest : ∀ m : Machine S, p.Searched D s₀ m.world.store →
      p.vars.countP m.world.store.isUnbound < p.vars.countP s.isUnbound →
      (ofList (p.ends D s₀ m.world.store)).Delivers T 0 k J next 0 m ⟨.call p.solve next, m⟩)
    {o : Machine S} {i : Nat}
    (hm : o.OnFrame s (.search (pure p.level) (some (p.choose v ds, i)) next) m) :
    DeliversAt T 0 k (J + 1) 0 next
      ((ds[i]?).map fun n => ofList
        (((p.solutions D s).filter fun σ => σ v = n).map (s₀.assigned p.vars)))
      o (.search (pure p.level) (some (p.choose v ds, i + 1)) next) m := by
  cases hn : ds[i]? with
  | none => exact Delivers.mono (delivers_of_no_choice hn hm) (Nat.le_add_left _ _) (Nat.zero_le _)
  | some n =>
    have hchoice := delivers_of_choice hp hs₀ hk hs hv hopen hrest hn hm
    exact Delivers.mono hchoice (Nat.le_refl _) (Nat.zero_le _)

/-- The search delivers the solutions that fit its store. -/
theorem exists_delivers (hp : p.Formed D) (hs₀ : s₀.Ranged T D p.vars)
    (hopen : ∀ v ∈ p.vars, s₀.isUnbound v = true) (u : Nat) :
    ∃ J, ∀ k, p.vars.length + 2 ≤ k → ∀ (m : Machine S) next, p.Searched D s₀ m.world.store →
      p.vars.countP m.world.store.isUnbound ≤ u →
      (ofList (p.ends D s₀ m.world.store)).Delivers T 0 k J next 0 m ⟨.call p.solve next, m⟩ := by
  induction u with
  | zero =>
    refine ⟨1, fun k hk m next hm hcount => delivers_of_closed hp hs₀ hopen hm ?_⟩
    by_contra hne
    obtain ⟨⟨v, ds⟩, hnext⟩ := Option.ne_none_iff_exists'.mp hne
    obtain ⟨hv, -, -, ⟨us, us', hsplit, -⟩, -⟩ :=
      nextOpen_eq_some hp (hm.fills.ranged hs₀) hnext
    have hmem : v ∈ p.vars := by simp [hsplit]
    have hpos := List.countP_pos_iff.mpr ⟨v, hmem, hv⟩
    omega
  | succ u ih =>
    obtain ⟨J, hJ⟩ := ih
    refine ⟨11 * (J + 1 + 1) + 1, fun k hk m next hm hcount => ?_⟩
    cases hnext : p.nextOpen m.world.store with
    | none => exact (delivers_of_closed hp hs₀ hopen hm hnext).mono (by omega) (Nat.le_refl _)
    | some decision =>
      obtain ⟨v, ds⟩ := decision
      have hs := hm.fills.ranged hs₀
      obtain ⟨hv, -, hlength, ⟨us, us', hsplit, -⟩, -⟩ := nextOpen_eq_some hp hs hnext
      have hmem : v ∈ p.vars := by simp [hsplit]
      let act : Nat → Activation S := fun i =>
        .search (pure p.level) (some (p.choose v ds, i)) next
      have hcall : call T k (run T k) p.solve next m = _ := call_solve p next m
      rw [hnext] at hcall
      have hstep : step T k (run T k) (.call p.solve next) m = _ := bind_ok hcall
      have hframe : (m.withAnswers m.answers).OnFrame m.world.store (act 0)
          (((m.counted .calls 1).pushed m.engine.trail.length
            (.search (pure p.level) none next)).withFrames
              (⟨act 0, m.engine.trail.length⟩ :: m.engine.frames)) :=
        ⟨rfl, rfl, Scope.continues_of_same rfl (Setoid.refl _), Setoid.refl _⟩
      -- each choice leaves fewer variables open
      have hchoice : ∀ answers i (m' : Machine S), i < ds.length + 1 →
          (m.withAnswers answers).OnFrame m.world.store (act i) m' →
          DeliversAt T 0 k (J + 1) 0 next
            ((ds[i]?).map fun n => ofList (((p.solutions D m.world.store).filter
              fun σ => σ v = n).map (s₀.assigned p.vars)))
            (m.withAnswers answers) (act (i + 1)) m' := fun answers i m' _ hm' =>
        deliversAt_choice hp hs₀ hk hm hmem hv
          (fun m' hm' hless => hJ k hk m' next hm' (by omega)) hm'
      have hchoices := delivers_alternatives (Nat.zero_le k) (Setoid.refl m.world.store) hchoice
        (ds.length + 1) (by omega) (Nat.zero_le _) (Nat.le_refl 0) hframe
      rw [alternatives_eq_ofList (by omega) (by omega), List.drop_zero, ← List.map_flatMap,
        ← solutions_eq_flatMap hp hs hnext] at hchoices
      have hbound : (ds.length + 1) * (J + 1 + 1) ≤ 11 * (J + 1 + 1) :=
        Nat.mul_le_mul_right _ (by omega)
      exact (hchoices.of_reaches (Nat.zero_le k) (.single hstep)).mono (by omega) (Nat.zero_le _)

theorem lists_solve (hp : p.Formed D) (hs₀ : s₀.Ranged T D p.vars)
    (hopen : ∀ v ∈ p.vars, s₀.isUnbound v = true) : p.solve.Lists T s₀ (p.ends D s₀ s₀) := by
  obtain ⟨J, hJ⟩ := exists_delivers hp hs₀ hopen p.vars.length
  refine ⟨J + (p.vars.length + 2), fun k hk m next hm => ?_⟩
  have hslots : s₀ ≈ m.world.store := Setoid.symm hm
  have hsearched : p.Searched D s₀ m.world.store := by
    refine ⟨(Store.fills_refl s₀).congr hslots, fun hclosed σ hσ => ?_⟩
    refine (searched_start hp hopen).sound (fun v hv => ?_) σ ((hs₀.fits_congr hslots).mp hσ)
    rw [Store.isUnbound_congr hslots]
    exact hclosed v hv
  have hdelivers := hJ k (by omega) m next hsearched List.countP_le_length
  rw [ends, solutions_congr hs₀ hslots] at hdelivers
  exact hdelivers.mono (by omega) (Nat.le_refl _)

end Delivers

/-! ### What the search finds -/

theorem steady_sweep (cs : List Column) (progress : Bool) :
    (sweep cs progress : Program S (Goal S) .attempt).Steady Goal.Steady := by
  induction cs generalizing progress with
  | nil => exact .attempt _
  | cons c cs ih =>
    refine .ask fun (s : Store S) => ?_
    dsimp only [Program.quietly]
    split
    · exact steady_orFail (.andThen (.unifies _ _) (.unifies _ _)) (ih _)
    · split
      · exact steady_orFail (.unifies _ _) (ih true)
      · exact ih progress
    · exact ih progress

theorem steady_propagate (p : DigitSum) :
    (p.propagate : Program S (Goal S) .verdict).Steady Goal.Steady := by
  refine .loop (steady_sweep _ _) fun b => ?_
  cases b with
  | false => exact .verdict false
  | true => exact .ask fun _ => .verdict _

theorem steady_solve (p : DigitSum) : (p.solve : Goal S).Steady := by
  refine .search fun q hq => ?_
  cases hq
  refine .ask fun s => .choices fun make hmake i => ?_
  obtain ⟨⟨v, ds⟩, -, rfl⟩ := Option.map_eq_some_iff.mp hmake
  dsimp only
  rw [choose]
  split
  · exact (Program.Steady.andThen (.unifies _ _) p.steady_propagate).bind fun _ => .attempt _
  · exact .attempt none

/-- A run for all answers keeps the digits of each solution. -/
theorem exists_findAll_solve (hp : p.Formed D) {m : Machine S}
    (hm : m.world.store.Ranged T D p.vars)
    (hopen : ∀ v ∈ p.vars, m.world.store.isUnbound v = true) :
    ∃ k, ∀ n, k ≤ n → ∃ m', findAll T n p.solve (.list (p.vars.map .var)) m =
      .ok ((p.solutions D m.world.store).map fun σ => .list (p.vars.map fun v => .int (σ v))) m' ∧
      m.RolledBack m' := by
  let s₀ := m.world.store
  have hheld : ∀ σ, ∀ v ∈ p.vars, (s₀.assigned p.vars σ).isCell v = false ∧
      (s₀.assigned p.vars σ).binding v = some (.int (σ v)) := by
    intro σ v hv
    rw [Store.isCell_assigned]
    exact ⟨hm.isCell hv, Store.binding_assigned hv⟩
  have hread : ∀ σ, (p.vars.map fun v => (.int ((s₀.assigned p.vars σ).reading v) : S.Term)) =
      p.vars.map fun v => .int (σ v) := by
    refine fun σ => List.map_congr_left fun v hv => ?_
    rw [Store.reading_of_binding (hheld σ v hv).1 (hheld σ v hv).2]
  -- Every variable of the template holds an integer at a solution, so its copy is known.
  have hcopies : ∀ s ∈ p.ends D s₀ s₀, ∀ s', s' ≈ s → ∀ i,
      (T.resolve? s' 2 (.list (p.vars.map .var))).run i =
        some (.list (p.vars.map fun v => .int (s.reading v)), i) := by
    intro s hs s' hs' i
    obtain ⟨σ, -, rfl⟩ := List.mem_map.mp hs
    rw [hread]
    refine Theory.resolve?_ints (fun v hv => ?_) i
    rw [Store.isCell_congr hs', Store.binding_congr hs']
    exact hheld σ v hv
  obtain ⟨k, hk⟩ := (lists_solve hp hm hopen).exists_findAll (steady_solve p) hcopies
  refine ⟨k, fun n hn => ?_⟩
  obtain ⟨m', hfind, hback⟩ := hk n hn
  rw [ends, List.map_map] at hfind
  refine ⟨m', hfind.trans (congrArg (EStateM.Result.ok · m') ?_), hback⟩
  exact List.map_congr_left fun σ _ => congrArg Term.list (hread σ)

/-- With variables that are open at the start, the search finds the digits of every
assignment that solves the puzzle, each exactly once and in lexicographic order, and
nothing else.  Deductions end wherever the variables hold integers if anything. -/
theorem finds_each_solution_once (T : Theory S) (hp : p.Formed D) {m : Machine S}
    (hm : m.world.store.Ranged T D p.vars)
    (hopen : ∀ v ∈ p.vars, m.world.store.isUnbound v = true) :
    ∃ k, ∀ n, k ≤ n →
      (∃ (as : List (List Int)) (m' : Machine S),
        findAll T n p.solve (.list (p.vars.map .var)) m =
          .ok (as.map fun ds => .list (ds.map .int)) m' ∧
        (∀ ds, ds ∈ as ↔ ∃ σ, p.Solves D σ ∧ ds = p.vars.map σ) ∧
        as.Nodup ∧ as.Pairwise (List.Lex (· < ·)) ∧ m.RolledBack m') ∧
      ∀ m₁ : Machine S, m₁.world.store.Ranged T D p.vars →
        ∃ b m₂, perform T n p.propagate m₁ = .ok b m₂ := by
  obtain ⟨k, hk⟩ := exists_findAll_solve hp hm hopen
  refine ⟨max k (p.vars.length + 2), fun n hn => ⟨?_, fun m₁ hm₁ => ?_⟩⟩
  · obtain ⟨m', hfind, hback⟩ := hk n (by omega)
    have hsorted : ((p.solutions D m.world.store).map fun σ => p.vars.map σ).Pairwise
        (List.Lex (· < ·)) := List.pairwise_map.mpr (pairwise_solutions hp _)
    refine ⟨(p.solutions D m.world.store).map fun σ => p.vars.map σ, m', ?_,
      fun ds => mem_map_solutions hp hm hopen, hsorted.nodup, hsorted, hback⟩
    rw [hfind]
    simp only [List.map_map, Function.comp_def]
  · obtain ⟨b, m₂, hexec, -⟩ := exists_propagate (run T n) hp hm₁
      (show p.vars.length + 2 ≤ n by omega)
    exact ⟨b, m₂, hexec⟩

end DigitSum

/-- The integers that the letters of TO + GO = OUT and the carry stand for. -/
def Bounds.limits (v : Var) : Int × Int :=
  ([(0, -1), (1, 9), (1, 2), (1, 9), (0, 9), (0, 2)] : List (Int × Int)).getD v.id (0, -1)

/-- TO + GO = OUT.  The first letter of the sum is the carry of the last column. -/
def Bounds.addition : DigitSum where
  columns := [⟨[⟨2⟩, ⟨2⟩], ⟨1⟩, ⟨5⟩⟩, ⟨[⟨1⟩, ⟨3⟩, ⟨5⟩], ⟨4⟩, ⟨2⟩⟩]
  letters := [⟨1⟩, ⟨2⟩, ⟨3⟩, ⟨4⟩]
  carries := [⟨5⟩]

/-- An engine with the five variables. -/
def Bounds.adding : Machine Bounds.vocabulary :=
  ⟨.new .standard, ⟨⟨#[.fresh, ⟨.ordinary (some (1, 9)), none⟩, ⟨.ordinary (some (1, 2)), none⟩,
    ⟨.ordinary (some (1, 9)), none⟩, ⟨.ordinary (some (0, 9)), none⟩,
    ⟨.ordinary (some (0, 2)), none⟩]⟩, 0, (), []⟩, []⟩

/-- Whether an integer is within the limits of a variable. -/
def Bounds.within (v : Var) (n : Int) : Bool :=
  (Bounds.limits v).1 ≤ n ∧ n ≤ (Bounds.limits v).2

theorem Bounds.addition_formed : Bounds.addition.Formed Bounds.within where
  different := by decide
  columns := by
    simp only [Bounds.addition, List.forall_mem_cons]
    exact ⟨⟨by decide, by decide, by decide⟩, ⟨by decide, by decide, by decide⟩, by simp⟩
  letters := by
    simp [Bounds.addition, Bounds.within, Bounds.limits]
    grind
  carries := by
    simp [Bounds.addition, Bounds.within, Bounds.limits]
    omega

theorem Bounds.adding_ranged :
    Bounds.adding.world.store.Ranged Bounds.theory Bounds.within Bounds.addition.vars where
  guarded := by
    simp only [Bounds.addition, DigitSum.vars, List.cons_append, List.nil_append,
      List.forall_mem_cons]
    exact ⟨⟨_, rfl, fun n => rfl⟩, ⟨_, rfl, fun n => rfl⟩, ⟨_, rfl, fun n => rfl⟩,
      ⟨_, rfl, fun n => rfl⟩, ⟨_, rfl, fun n => rfl⟩, by simp⟩
  held v hv t ht := by
    have hnone : ∀ v ∈ Bounds.addition.vars, Bounds.adding.world.store.binding v = none := by
      simp only [Bounds.addition, DigitSum.vars, List.cons_append, List.nil_append,
        List.forall_mem_cons]
      exact ⟨rfl, rfl, rfl, rfl, rfl, by simp⟩
    rw [hnone v hv] at ht
    cases ht

/-- There is one solution. -/
theorem Bounds.addition_solves {ds : List Int} :
    (∃ σ, Bounds.addition.Solves Bounds.within σ ∧ ds = Bounds.addition.vars.map σ) ↔
      ds ∈ [[2, 1, 8, 0, 0]] := by
  rw [List.mem_singleton]
  constructor
  · rintro ⟨σ, ⟨hranges, hletters, hcolumns⟩, rfl⟩
    simp [Bounds.addition, DigitSum.vars, Bounds.within, Bounds.limits] at hranges hletters
    simp [Bounds.addition, DigitSum.Column.Right, total] at hcolumns
    simp [Bounds.addition, DigitSum.vars]
    omega
  · rintro rfl
    refine ⟨fun v => [0, 2, 1, 8, 0, 0].getD v.id 0, ⟨by decide, by decide, by decide⟩, by decide⟩

/-- The search for 21 + 81 = 102. -/
theorem DigitSum.finds_each_solution_once_addition :
    (∀ v ∈ Bounds.addition.vars, Bounds.adding.world.store.isUnbound v = true) ∧
      ∃ k m', findAll Bounds.theory k Bounds.addition.solve
          (.list (Bounds.addition.vars.map .var)) Bounds.adding =
        .ok [.list [.int 2, .int 1, .int 8, .int 0, .int 0]] m' ∧
      Bounds.adding.RolledBack m' ∧
      ∃ b m₂, perform Bounds.theory k Bounds.addition.propagate Bounds.adding = .ok b m₂ := by
  have hopen : ∀ v ∈ Bounds.addition.vars, Bounds.adding.world.store.isUnbound v = true := by
    decide
  obtain ⟨k, hk⟩ := DigitSum.finds_each_solution_once Bounds.theory Bounds.addition_formed
    Bounds.adding_ranged hopen
  obtain ⟨⟨as, m', hfind, hmem, -, hsorted, hback⟩, hpropagate⟩ := hk k (Nat.le_refl k)
  have has : as = [[2, 1, 8, 0, 0]] := by
    refine hsorted.eq_of_mem_iff (List.pairwise_singleton _ _) fun ds => ?_
    rw [hmem, Bounds.addition_solves]
  rw [has] at hfind
  exact ⟨hopen, k, m', hfind, hback, hpropagate _ Bounds.adding_ranged⟩

end GoalSearch
