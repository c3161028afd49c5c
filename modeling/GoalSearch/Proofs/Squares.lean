/-
Filling a square.

A digit is checked when it is placed: it has to differ from the digits that are in the
square at that moment, and then the lines say what follows from it.  What follows is not
checked any more if it fills the square.  So a square that is found has right lines, and
some of its digits are different and decide the others; but among the others a digit may
be repeated.  Squares with right lines and different digits are all found.

* `MagicSquare.validate` — what is done when a digit has been placed;
* `MagicSquare.exists_validate` — what it comes to, in every store;
* `MagicSquare.Placed` — the stores that filling a square goes through;
* `MagicSquare.exists_solutions_fill` — the list of solutions is finite, and what is in it;
* `MagicSquare.checks_before_deducing` — the squares that are found;
* `MagicSquare.deduced_digits_repeat` — a square with two equal digits.

Design notes: what the lines leave open is followed through the search as a set of
assignments.  A placement keeps those with the new digit, and deductions keep all of them,
so at the end the lines and the digits of the last check leave one assignment only.
-/
import GoalSearch.Proofs.DigitSearch
import GoalSearch.Proofs.Lines
import GoalSearch.Proofs.Semantics

namespace GoalSearch

open GoalSearch.Action Machine Solutions

variable {S : Vocabulary} {T : Theory S}

namespace MagicSquare

/-! ### Placing a digit -/

/-- The digits that are not used. -/
def unused (used : List Int) : List Int := [1, 2, 3, 4, 5, 6, 7, 8, 9].filter fun n => n ∉ used

/-- The candidates for a field. -/
def offer (q : MagicSquare) (field : Var) : Program S (Goal S) .candidates :=
  Program.withStore fun s =>
    .bindings (.var field) fun i => pure ((unused (s.digits q.fields))[i]?.map .int)

/-- What is done when a digit has been placed. -/
def validate (q : MagicSquare) : Program S (Goal S) .verdict :=
  Program.withStore fun s =>
    if (s.digits q.fields).Nodup then simplify q.lines else .verdict false

theorem place_eq (q : MagicSquare) (field : Var) :
    (q.place field : Goal S) = .call (.nondeterministic (q.offer field) q.validate) := rfl

/-- Whether a field is open. -/
def unfilled (q : MagicSquare) : Quiet S Bool := return q.fields.any (← Quiet.store).isUnbound

/-- The step that places a digit in the first open field. -/
def nextPlace (q : MagicSquare) : Quiet S (Goal S) := do
  match q.fields.find? (← Quiet.store).isUnbound with
  | some field => pure (q.place field)
  | none => pure .succeed

theorem fill_eq (q : MagicSquare) :
    (q.fill : Goal S) = .loop (fun _ => q.unfilled) fun _ => q.nextPlace := rfl

/-- What is done to a square when a digit has been placed.  After a success the digits that
were there before are different, and the lines are updated; a failure means that no
different digits make the lines right. -/
structure Validates (q : MagicSquare) (s : Store S) (b : Bool) (s' : Store S) : Prop where
  different : b = true → (s.digits q.fields).Nodup
  reduces : b = true → Reduces digit q.fields q.lines s s'
  rests : b = true → ∀ line ∈ q.lines, Rests q.fields s' line
  refuted : b = false → ∀ σ, Solves digit q.fields q.lines s σ → ¬ (q.fields.map σ).Nodup

section Validate

variable {q : MagicSquare} {m : Machine S} {k n : Nat} {d : Int}

theorem digit_eq_true {v : Var} : digit v d = true ↔ 1 ≤ d ∧ d ≤ 9 := decide_eq_true_iff

theorem mem_unused {used : List Int} : d ∈ unused used ↔ (1 ≤ d ∧ d ≤ 9) ∧ d ∉ used := by
  simp only [unused, List.mem_filter, List.mem_cons, List.not_mem_nil, or_false, decide_eq_true_eq]
  refine and_congr_left fun _ => ?_
  omega

theorem length_unused_le (used : List Int) : (unused used).length ≤ 9 :=
  List.length_filter_le _ _

/-- If all fields are to hold different digits, the digit of an open field is not used. -/
theorem mem_unused_of_nodup {s : Store S} {σ : Var → Int} {v : Var}
    (hs : s.Ranged T digit q.fields) (hσ : s.Fits digit q.fields σ)
    (hnodup : (q.fields.map σ).Nodup)
    (hv : v ∈ q.fields) (hopen : s.isUnbound v = true) : σ v ∈ unused (s.digits q.fields) := by
  rw [mem_unused, hσ.digits_eq_map_filter hs fun _ hu => hu]
  constructor
  · have haccepts := hσ v hv
    rw [Store.accepts, (hs.int?_eq_none hv).mpr hopen] at haccepts
    exact digit_eq_true.mp haccepts
  · intro hmem
    obtain ⟨u, hu, heq⟩ := List.mem_map.mp hmem
    obtain ⟨hu, hclosed⟩ := List.mem_filter.mp hu
    have huv : u = v := List.inj_on_of_nodup_map hnodup hu hv heq
    rw [huv, hopen] at hclosed
    cases hclosed

/-- The lines are updated in every store, whether or not the square was filled so far by
placing digits. -/
theorem exists_validate (run : Runner S) (hm : m.world.store.Ranged T digit q.fields)
    (hl : Lined q.fields q.lines m.world.store) (hk : weight q.lines m.world.store + 2 ≤ k) :
    ∃ b m', (q.validate : Program S (Goal S) .verdict).exec T k run m = .ok b m' ∧
      q.Validates m.world.store b m'.world.store := by
  have hD : ∀ v ∈ q.fields, ∀ n, digit v n = true → 0 ≤ n := by
    intro v _ n hn
    have hrange := digit_eq_true.mp hn
    omega
  rw [validate, Program.exec_withStore]
  split
  · next hdifferent =>
    obtain ⟨b, m', hexec, h⟩ := exists_simplify run hD hm hl hk
    exact ⟨b, m', hexec, fun _ => hdifferent, h.reduces, h.rests, fun hb σ hσ =>
      absurd hσ (h.refuted hb σ)⟩
  · next hrepeated =>
    refine ⟨false, m, rfl, (fun hb => nomatch hb), (fun hb => nomatch hb),
      (fun hb => nomatch hb), fun _ σ hσ hnodup => hrepeated ?_⟩
    exact hnodup.sublist (hσ.fits.digits_sublist hm fun _ hv => hv)

end Validate

/-! ### Stores on the way -/

/-- The stores that filling a square goes through.  The digits and lines in them leave the
assignments that make the lines of the first store right and have these digits.  All this
follows from the lines and from the digits that were there when they were last checked. -/
structure Placed (T : Theory S) (q : MagicSquare) (s₀ s : Store S) : Prop where
  fills : s₀.Fills digit q.fields q.lines s
  lined : Lined q.fields q.lines s
  light : weight q.lines s ≤ weight q.lines s₀
  solves : ∀ σ, Solves digit q.fields q.lines s σ ↔
    Solves digit q.fields q.lines s₀ σ ∧ s.Fits digit q.fields σ
  rests : (∃ v ∈ q.fields, s.isUnbound v = false) → ∀ line ∈ q.lines, Rests q.fields s line
  checked : ∃ s₁ : Store S, s₁.Ranged T digit q.fields ∧ (s₁.digits q.fields).Nodup ∧
    s₁.Fills digit q.fields q.lines s ∧
    ∀ σ, Solves digit q.fields q.lines s₀ σ → s₁.Fits digit q.fields σ → s.Fits digit q.fields σ

section Placed

variable {q : MagicSquare} {s₀ s s' : Store S} {v : Var} {d : Int} {σ : Var → Int}

/-- At the start no digit has been placed. -/
theorem placed_start (hs : s.Ranged T digit q.fields) (hl : Lined q.fields q.lines s)
    (hopen : ∀ v ∈ q.fields, s.isUnbound v = true) : q.Placed T s s where
  fills := Store.fills_refl s
  lined := hl
  light := Nat.le_refl _
  solves _ := ⟨fun hσ => ⟨hσ, hσ.fits⟩, fun hσ => hσ.1⟩
  rests h := by
    obtain ⟨v, hv, hclosed⟩ := h
    rw [hopen v hv] at hclosed
    cases hclosed
  checked := by
    have hnone : s.digits q.fields = [] := by
      rw [Store.digits, List.filterMap_eq_nil_iff]
      exact fun v hv => (hs.int?_eq_none hv).mpr (hopen v hv)
    refine ⟨s, hs, ?_, Store.fills_refl s, fun σ hσ _ => hσ.fits⟩
    rw [hnone]
    exact List.nodup_nil

/-- A digit is placed, and what follows is worked out. -/
theorem Placed.step (h : q.Placed T s₀ s) (hs₀ : s₀.Ranged T digit q.fields) (hv : v ∈ q.fields)
    (hdifferent : ((s.take digit v d).digits q.fields).Nodup)
    (hreduces : Reduces digit q.fields q.lines (s.take digit v d) s')
    (hrests : ∀ line ∈ q.lines, Rests q.fields s' line) : q.Placed T s₀ s' := by
  have hs := h.fills.ranged hs₀
  have htaken : s.Fills digit q.fields [] (s.take digit v d) := Store.fills_take hv d
  have hlined := h.lined.of_fills hs htaken
  -- The digit narrows the assignments, and the lines are as right or wrong as before.
  have hsolves : ∀ σ, Solves digit q.fields q.lines (s.take digit v d) σ ↔
      Solves digit q.fields q.lines s₀ σ ∧ (s.take digit v d).Fits digit q.fields σ := by
    intro σ
    rw [h.lined.solves_iff hs htaken, h.solves σ]
    constructor
    · exact fun hσ => ⟨hσ.1.1, hσ.2⟩
    · exact fun hσ => ⟨⟨hσ.1, htaken.fits hs hσ.2⟩, hσ.2⟩
  refine ⟨?_, hreduces.lined hlined, ?_, fun σ => ?_, fun _ => hrests, ?_⟩
  · exact (h.fills.trans (htaken.weaken q.lines)).trans hreduces.fills
  · have hsame := h.lined.weight_eq hs htaken
    have hle := hreduces.weight_le hlined
    have hlight := h.light
    omega
  · rw [hreduces.solves σ, hsolves σ]
    have hs₁ := htaken.ranged hs
    constructor
    · rintro ⟨hσ, hfits⟩
      exact ⟨hσ, ((hreduces.solves σ).mpr ((hsolves σ).mpr ⟨hσ, hfits⟩)).fits⟩
    · exact fun hσ => ⟨hσ.1, hreduces.fills.fits hs₁ hσ.2⟩
  · refine ⟨_, htaken.ranged hs, hdifferent, hreduces.fills, fun σ hσ hfits => ?_⟩
    exact ((hreduces.solves σ).mpr ((hsolves σ).mpr ⟨hσ, hfits⟩)).fits

/-- What is known of the digits in a square that was found: the lines are right, and some
fields hold different digits, which decide the digits in all others. -/
structure Found (q : MagicSquare) (s₀ : Store S) (σ : Var → Int) : Prop where
  right : q.fields ≠ [] → Solves digit q.fields q.lines s₀ σ
  decided : ∃ placed : List Var, placed.Sublist q.fields ∧ (placed.map σ).Nodup ∧
    ∀ τ, Solves digit q.fields q.lines s₀ τ → (∀ v ∈ placed, τ v = σ v) →
      ∀ v ∈ q.fields, τ v = σ v

/-- With no field open the lines are right, and what was checked last decides the rest. -/
theorem Placed.found (h : q.Placed T s₀ s) (hs₀ : s₀.Ranged T digit q.fields)
    (hopen : ∀ v ∈ q.fields, s₀.isUnbound v = true)
    (hclosed : ∀ v ∈ q.fields, s.isUnbound v = false) (hσ : s.Fits digit q.fields σ) :
    q.Found s₀ σ where
  right hfields := by
    obtain ⟨v, hv⟩ := List.exists_mem_of_ne_nil _ hfields
    refine ((h.solves σ).mp ⟨hσ, fun line hline => ?_⟩).1
    rcases h.rests ⟨v, hv, hclosed v hv⟩ line hline with hempty | ⟨us, sum, -, hlength, hus⟩
    · exact (right_iff hempty).mpr rfl
    · -- a line of open fields, of which there are none
      obtain ⟨u, hu⟩ := List.exists_mem_of_length_pos (show 0 < us.length by omega)
      obtain ⟨hmem, hunbound⟩ := hus u hu
      rw [hclosed u hmem] at hunbound
      cases hunbound
  decided := by
    obtain ⟨s₁, hs₁, hdifferent, hfills, hfollows⟩ := h.checked
    have hs := h.fills.ranged hs₀
    have hσ₁ := hfills.fits hs₁ hσ
    refine ⟨q.fields.filter fun v => !s₁.isUnbound v, List.filter_sublist, ?_, ?_⟩
    · rw [← hσ₁.digits_eq_map_filter hs₁ fun _ hv => hv]
      exact hdifferent
    · intro τ hτ hagree
      -- Fields known at the check have the same digits, and the others accept every digit.
      have hfits : s₁.Fits digit q.fields τ := by
        intro u hu
        rcases hσ₁.known_or_open hs₁ hu with ⟨hn, hbound⟩ | ⟨hn, -⟩
        · rw [Store.accepts, hn, hagree u (List.mem_filter.mpr ⟨hu, by simp [hbound]⟩)]
          simp
        · have haccepts := hτ.fits u hu
          rw [Store.accepts, (hs₀.int?_eq_none hu).mpr (hopen u hu)] at haccepts
          rw [Store.accepts, hn]
          exact haccepts
      have hτ' := hfollows τ hτ hfits
      intro v hv
      rcases hσ.known_or_open hs hv with ⟨hn, -⟩ | ⟨-, hunbound⟩
      · exact hτ'.int?_eq hv hn
      · rw [hclosed v hv] at hunbound
        cases hunbound

end Placed

end MagicSquare

/-! ### Lists that are known to their end -/

namespace Solutions

variable {X Y : Solutions S} {xs ys : List (Store S)} {f : Store S → Solutions S}

theorem all?_append (hX : X.all? = some xs) (hY : Y.all? = some ys) :
    (X.append Y).all? = some (xs ++ ys) := by
  induction X generalizing xs with
  | nil =>
    cases hX
    exact hY
  | stopped => cases hX
  | cons s rest ih =>
    obtain ⟨zs, hzs, rfl⟩ := Option.map_eq_some_iff.mp hX
    rw [append, all?, ih hzs]
    rfl

/-- Going on from each store of a list: every solution comes from one of them, and none of
theirs is dropped. -/
theorem exists_all?_bind {P : Store S → List (Store S) → Prop}
    (h : ∀ y ∈ ys, ∃ zs, (f y).all? = some zs ∧ P y zs) :
    ∃ zs, ((ofList ys).bind f).all? = some zs ∧
      (∀ z ∈ zs, ∃ y ∈ ys, ∃ zs', P y zs' ∧ z ∈ zs') ∧
      ∀ y ∈ ys, ∃ zs', P y zs' ∧ ∀ z ∈ zs', z ∈ zs := by
  induction ys with
  | nil => exact ⟨[], rfl, by simp, by simp⟩
  | cons y ys ih =>
    rw [List.forall_mem_cons] at h
    obtain ⟨first, hfirst, hy⟩ := h.1
    obtain ⟨rest, hrest, hsound, hcomplete⟩ := ih h.2
    refine ⟨first ++ rest, all?_append hfirst hrest, fun z hz => ?_, ?_⟩
    · rcases List.mem_append.mp hz with hz | hz
      · exact ⟨y, by simp, first, hy, hz⟩
      · obtain ⟨y', hy', zs', hP, hz'⟩ := hsound z hz
        exact ⟨y', by simp [hy'], zs', hP, hz'⟩
    · rw [List.forall_mem_cons]
      refine ⟨⟨first, hy, fun z hz => List.mem_append_left rest hz⟩, fun y' hy' => ?_⟩
      obtain ⟨zs', hP, hsub⟩ := hcomplete y' hy'
      exact ⟨zs', hP, fun z hz => List.mem_append_right first (hsub z hz)⟩

end Solutions

theorem Program.outcome_of_exec {w : World S} {n : Nat} {s : Store S} {κ : Kind}
    {p : Program S (Goal S) κ} {a : Program.Value S (Goal S) κ} {m' : Machine S}
    (h : p.exec T n (Machine.run T n) (Machine.fresh w s) = .ok a m') :
    p.outcome T w n s = some (a, m'.world.store) := by
  rw [outcome, h]

namespace MagicSquare

/-! ### The list of solutions -/

section Solve

variable (T) (w : World S) (n : Nat) (q : MagicSquare) {s : Store S} {v : Var}

/-- The store that is left by placing a digit, if the square can still be right. -/
def tried (s : Store S) (v : Var) (d : Int) : List (Store S) :=
  match q.validate.outcome T w n (s.take digit v d) with
  | some ((b : Bool), s') => if b then [s'] else []
  | none => []

variable {q}

theorem outcome_unfilled (s : Store S) :
    q.unfilled.outcome T w n s = some (q.fields.any s.isUnbound, s) := rfl

theorem outcome_nextPlace (h : q.fields.find? s.isUnbound = some v) :
    q.nextPlace.outcome T w n s = some (q.place v, s) := by
  show Option.map _ (result? (Quiet.exec T n (match q.fields.find? s.isUnbound with
    | some field => pure (q.place field)
    | none => pure .succeed)) _) = _
  rw [h]
  rfl

theorem solutions_fill_of_closed (h : q.fields.any s.isUnbound = false) :
    (q.fill : Goal S).solutions T w (n + 1) s = .one s := by
  rw [fill_eq, Goal.solutions, Goal.solutionsStep, outcome_unfilled, h]
  rfl

theorem solutions_fill_of_open (h : q.fields.find? s.isUnbound = some v) :
    (q.fill : Goal S).solutions T w (n + 1) s =
      ((q.place v).solutions T w n s).bind (q.fill.solutions T w n) := by
  have hany : q.fields.any s.isUnbound = true := by
    rw [List.any_eq_true]
    exact ⟨v, List.mem_of_find?_eq_some h, List.find?_some h⟩
  rw [fill_eq, Goal.solutions, Goal.solutionsStep, outcome_unfilled, hany]
  dsimp only [after]
  rw [if_pos rfl, outcome_nextPlace T w n h]

/-- The program that places the candidate at a position. -/
def candidate (q : MagicSquare) (s : Store S) (v : Var) (i : Nat) :
    Quiet S (Option (Program S (Goal S) .verdict)) :=
  Goal.candidate (.var v) (fun i => pure ((unused (s.digits q.fields))[i]?.map .int)) i

theorem outcome_offer (s : Store S) (v : Var) :
    (q.offer v : Program S (Goal S) .candidates).outcome T w n s = some (q.candidate s v, s) := rfl

theorem outcome_candidate (s : Store S) (v : Var) (i : Nat) :
    (q.candidate s v i).outcome T w n s =
      some ((unused (s.digits q.fields))[i]?.map fun d => .unifies (.var v) (.int d), s) := by
  rw [candidate, Goal.candidate]
  cases (unused (s.digits q.fields))[i]? with
  | none => rfl
  | some d => rfl

theorem outcome_unifies (hs : s.Ranged T digit q.fields) (hv : v ∈ q.fields) (hn : 2 ≤ n)
    (d : Int) :
    (Program.unifies (.var v) (.int d) : Program S (Goal S) .verdict).outcome T w n s =
      some (s.accepts digit v d, s.take digit v d) := by
  obtain ⟨n, rfl⟩ : ∃ k, n = k + 2 := ⟨n - 2, by omega⟩
  obtain ⟨m', hunify, -, hstore⟩ := exists_unify_ranged (m := Machine.fresh w s) hs hv d n
  have hexec : (Program.unifies (.var v) (.int d) : Program S (Goal S) .verdict).exec T (n + 2)
      (Machine.run T (n + 2)) = Machine.unify T (n + 2) (.var v) (.int d) :=
    Program.exec_unifies _ _
  rw [Program.outcome_of_exec ((congrFun hexec _).trans hunify), hstore]
  rfl

theorem solutions_place (hs : s.Ranged T digit q.fields) (hl : Lined q.fields q.lines s)
    (hv : v ∈ q.fields) (hopen : s.isUnbound v = true) (hn : weight q.lines s + 10 ≤ n) :
    (q.place v).solutions T w (n + 1) s =
      ofList ((unused (s.digits q.fields)).flatMap (q.tried T w n s v)) := by
  have hcandidate : Predicate.candidate T w n (q.candidate s v) q.validate s =
      fun i => ((unused (s.digits q.fields))[i]?).map fun d => ofList (q.tried T w n s v d) := by
    funext i
    rw [Predicate.candidate, outcome_candidate]
    cases hd : (unused (s.digits q.fields))[i]? with
    | none => rfl
    | some d =>
      have hdigit := (mem_unused.mp (List.mem_of_getElem? hd)).1
      have haccepts : s.accepts digit v d = true := by
        rw [Store.accepts, (hs.int?_eq_none hv).mpr hopen]
        exact digit_eq_true.mpr hdigit
      have htaken : s.Fills digit q.fields [] (s.take digit v d) := Store.fills_take hv d
      have hweight := hl.weight_eq hs htaken
      -- The validation ends within the bound, whatever its verdict.
      obtain ⟨b, m', hexec, -⟩ := exists_validate (T := T) (k := n)
        (m := Machine.fresh w (s.take digit v d)) (Machine.run T n) (htaken.ranged hs)
        (hl.of_fills hs htaken) (show weight q.lines (s.take digit v d) + 2 ≤ n by omega)
      have hvalidate := Program.outcome_of_exec hexec
      dsimp only [Option.map_some]
      rw [outcome_unifies T w n hs hv (by omega), haccepts]
      dsimp only [after]
      rw [if_pos rfl, tried, hvalidate]
      cases b <;> rfl
  rw [place_eq, Goal.solutions, Goal.solutionsStep, Predicate.solutions, outcome_offer]
  dsimp only [after]
  have hlength := length_unused_le (s.digits q.fields)
  rw [hcandidate, alternatives_eq_ofList (Nat.zero_le _) (by omega), List.drop_zero]

/-- Placing a digit leads to one store at most, and not to none if different digits with
this one make the lines right. -/
theorem tried_spec {s₀ : Store S} {d : Int} (hs₀ : s₀.Ranged T digit q.fields)
    (h : q.Placed T s₀ s) (hv : v ∈ q.fields) (hopen : s.isUnbound v = true)
    (hd : digit v d = true) (hn : weight q.lines s + 10 ≤ n) :
    (∀ y ∈ q.tried T w n s v d, q.Placed T s₀ y ∧
      q.fields.countP y.isUnbound < q.fields.countP s.isUnbound) ∧
    ∀ σ, Solves digit q.fields q.lines s σ → σ v = d → (q.fields.map σ).Nodup →
      ∃ y ∈ q.tried T w n s v d, Solves digit q.fields q.lines y σ := by
  have hs := h.fills.ranged hs₀
  have haccepts : s.accepts digit v d = true := by
    rw [Store.accepts, (hs.int?_eq_none hv).mpr hopen]
    exact hd
  have htaken : s.Fills digit q.fields [] (s.take digit v d) := Store.fills_take hv d
  have hs₁ := htaken.ranged hs
  have hweight := h.lined.weight_eq hs htaken
  obtain ⟨b, m', hexec, hvalidates⟩ := exists_validate (T := T) (k := n)
    (m := Machine.fresh w (s.take digit v d)) (Machine.run T n) hs₁
    (h.lined.of_fills hs htaken) (show weight q.lines (s.take digit v d) + 2 ≤ n by omega)
  rw [tried, Program.outcome_of_exec hexec]
  cases b with
  | false =>
    refine ⟨by simp, fun σ hσ hvd hnodup => absurd hnodup (hvalidates.refuted rfl σ ?_)⟩
    exact (h.lined.solves_iff hs htaken).mpr ⟨hσ, (hs.fits_take hv haccepts).mpr ⟨hσ.fits, hvd⟩⟩
  | true =>
    have hreduces := hvalidates.reduces rfl
    simp only [if_true, List.mem_singleton, forall_eq, exists_eq_left]
    refine ⟨⟨h.step hs₀ hv (hvalidates.different rfl) hreduces (hvalidates.rests rfl), ?_⟩, ?_⟩
    · -- One field fewer is open, since validation opens none.
      have hclosed := hs₁.isUnbound_eq_false hv (hs.int?_take hv haccepts)
      have hless := htaken.countP_lt hs hv hopen hclosed
      have hle := hreduces.fills.countP_le hs₁
      exact Nat.lt_of_le_of_lt hle hless
    · intro σ hσ hvd _
      exact (hreduces.solves σ).mpr ((h.lined.solves_iff hs htaken).mpr
        ⟨hσ, (hs.fits_take hv haccepts).mpr ⟨hσ.fits, hvd⟩⟩)

variable (q) in
/-- What a list of solutions from a store has in it: squares without open fields, and all
those with different digits and right lines. -/
def Lists (T : Theory S) (s₀ s : Store S) (xs : List (Store S)) : Prop :=
  (∀ x ∈ xs, q.Placed T s₀ x ∧ ∀ v ∈ q.fields, x.isUnbound v = false) ∧
    ∀ σ, Solves digit q.fields q.lines s σ → (q.fields.map σ).Nodup →
      ∃ x ∈ xs, Solves digit q.fields q.lines x σ

/-- With no field open there is one solution. -/
theorem exists_solutions_of_closed {s₀ : Store S} (hs : q.Placed T s₀ s)
    (hnone : q.fields.find? s.isUnbound = none) :
    ∃ xs, ((q.fill : Goal S).solutions T w (n + 1) s).all? = some xs ∧ q.Lists T s₀ s xs := by
  rw [List.find?_eq_none] at hnone
  have hclosed : ∀ v ∈ q.fields, s.isUnbound v = false := fun v hv => by simpa using hnone v hv
  have hany : q.fields.any s.isUnbound = false := List.any_eq_false.mpr hnone
  rw [solutions_fill_of_closed T w n hany]
  exact ⟨[s], rfl, by simpa using ⟨hs, hclosed⟩, fun σ hσ _ => ⟨s, by simp, hσ⟩⟩

/-- The list of solutions comes to an end.  The induction is on the number of open fields, of
which each placement leaves fewer. -/
theorem exists_solutions_fill {s₀ : Store S} (hs₀ : s₀.Ranged T digit q.fields) (u : Nat)
    (hn : 2 * u + (weight q.lines s₀ + 12) ≤ n) (hs : q.Placed T s₀ s)
    (hu : q.fields.countP s.isUnbound ≤ u) :
    ∃ xs, ((q.fill : Goal S).solutions T w n s).all? = some xs ∧ q.Lists T s₀ s xs := by
  induction u generalizing n s with
  | zero =>
    obtain ⟨n, rfl⟩ : ∃ k, n = k + 1 := ⟨n - 1, by omega⟩
    refine exists_solutions_of_closed T w n hs ?_
    rw [List.find?_eq_none]
    exact List.countP_eq_zero.mp (Nat.le_zero.mp hu)
  | succ u ih =>
    obtain ⟨n, rfl⟩ : ∃ k, n = k + 2 := ⟨n - 2, by omega⟩
    cases hfind : q.fields.find? s.isUnbound with
    | none => exact exists_solutions_of_closed T w (n + 1) hs hfind
    | some v =>
      have hv := List.mem_of_find?_eq_some hfind
      have hopen := List.find?_some hfind
      have hranged := hs.fills.ranged hs₀
      have hlight := hs.light
      -- Every digit that is not used yet leads to a placement with fewer open fields, or to none.
      have htried : ∀ d ∈ unused (s.digits q.fields), _ := fun d hd =>
        tried_spec T w n hs₀ hs hv hopen (digit_eq_true.mpr (mem_unused.mp hd).1) (by omega)
      rw [solutions_fill_of_open T w (n + 1) hfind,
        solutions_place T w n hranged hs.lined hv hopen (by omega)]
      have hlists : ∀ y ∈ (unused (s.digits q.fields)).flatMap (q.tried T w n s v),
          ∃ zs, ((q.fill : Goal S).solutions T w (n + 1) y).all? = some zs ∧
            q.Lists T s₀ y zs := by
        intro y hy
        obtain ⟨d, hd, hy⟩ := List.mem_flatMap.mp hy
        obtain ⟨hplaced, hless⟩ := (htried d hd).1 y hy
        exact ih (n + 1) (by omega) hplaced (by omega)
      obtain ⟨xs, hxs, hsound, hcomplete⟩ := exists_all?_bind hlists
      refine ⟨xs, hxs, fun x hx => ?_, fun σ hσ hnodup => ?_⟩
      · obtain ⟨y, -, zs, hzs, hx⟩ := hsound x hx
        exact hzs.1 x hx
      · -- A solution has at this field a digit of its own, so it is among those that are tried.
        have hunused := mem_unused_of_nodup hranged hσ.fits hnodup hv hopen
        obtain ⟨y, hy, hσy⟩ := (htried (σ v) hunused).2 σ hσ rfl hnodup
        obtain ⟨zs, hzs, hsub⟩ := hcomplete y (List.mem_flatMap.mpr ⟨σ v, hunused, hy⟩)
        obtain ⟨x, hx, hσx⟩ := hzs.2 σ hσy hnodup
        exact ⟨x, hsub x hx, hσx⟩

end Solve

end MagicSquare

/-! ### Code that reads the slots -/

section Reads

variable {s s' : Store S}

theorem Store.digits_congr (hs : s.ChainsEnd) (h : s ≈ s') (vs : List Var) :
    s.digits vs = s'.digits vs := by
  rw [digits, digits, int?_congr hs h]

theorem DigitSum.readsSlots_orFail {p : Program S (Goal S) .verdict}
    {next : Program S (Goal S) .attempt} (hp : p.ReadsSlots) (hnext : next.ReadsSlots) :
    (DigitSum.orFail p next).ReadsSlots := by
  refine hp.bind fun (b : Bool) => ?_
  cases b with
  | false => exact .attempt _
  | true => exact hnext

end Reads

namespace MagicSquare

section Reads

variable {s s' : Store S}

theorem readLine?_congr (hs : s.ChainsEnd) (h : s ≈ s') (line : Var) :
    readLine? s line = readLine? s' line := by
  rw [readLine?, readLine?, Store.binding_congr h, Store.list?_congr hs h, Store.int?_congr hs h]

/-- What holds of all rounds: they read slots, and their acts go on or fail. -/
theorem sweep_induction {P : Program S (Goal S) .attempt → Prop}
    (hattempt : ∀ r, P (.attempt r))
    (hstore : ∀ f : Store S → Program S (Goal S) .attempt,
      (∀ s s', s ≈ s' → s.ChainsEnd → f s = f s') → (∀ s, P (f s)) → P (Program.withStore f))
    (hforced : ∀ t u t' u' next, P next →
      P (DigitSum.orFail ((Program.unifies t u).andThen (Program.unifies t' u')) next))
    (hreduced : ∀ t u next, P next → P (DigitSum.orFail (Program.unifies t u) next))
    (lines : List Var) (changed : Bool) : P (sweep lines changed) := by
  induction lines generalizing changed with
  | nil => exact hattempt _
  | cons line lines ih =>
    -- A round reads the line and its members, and does what they say before it goes on.
    refine hstore _ (fun s s' h hs => ?_) fun s => ?_
    · rw [readLine?_congr hs h, Store.isVar_congr hs h, Store.int?_congr hs h]
    · split
      · exact hattempt _
      · split
        · exact ih changed
        · exact hattempt _
      · dsimp only
        split
        · exact hattempt _
        · split
          · exact hforced _ _ _ _ _ (ih true)
          · split
            · exact hattempt _
            · split
              · exact hreduced _ _ _ (ih true)
              · exact ih changed

theorem readsSlots_sweep (lines : List Var) (changed : Bool) :
    (sweep lines changed : Program S (Goal S) .attempt).ReadsSlots :=
  sweep_induction .attempt (fun _ heq h => .store heq h)
    (fun _ _ _ _ _ h => DigitSum.readsSlots_orFail (.andThen (.unifies _ _) (.unifies _ _)) h)
    (fun _ _ _ h => DigitSum.readsSlots_orFail (.unifies _ _) h) lines changed

theorem steady_sweep (lines : List Var) (changed : Bool) :
    (sweep lines changed : Program S (Goal S) .attempt).Steady Goal.Steady :=
  sweep_induction .attempt (fun _ _ h => .ask h)
    (fun _ _ _ _ _ h => DigitSum.steady_orFail (.andThen (.unifies _ _) (.unifies _ _)) h)
    (fun _ _ _ h => DigitSum.steady_orFail (.unifies _ _) h) lines changed

theorem readsSlots_validate (q : MagicSquare) :
    (q.validate : Program S (Goal S) .verdict).ReadsSlots := by
  refine .store (fun s s' h hs => ?_) fun (s : Store S) => ?_
  · dsimp only [Program.quietly]
    rw [Store.digits_congr hs h]
  · dsimp only [Program.quietly]
    split
    · exact .loop (readsSlots_sweep _ _) fun r => .verdict r
    · exact .verdict false

theorem steady_validate (q : MagicSquare) :
    (q.validate : Program S (Goal S) .verdict).Steady Goal.Steady := by
  refine .ask fun (s : Store S) => ?_
  dsimp only [Program.quietly]
  split
  · exact .loop (steady_sweep _ _) fun r => .verdict r
  · exact .verdict false

theorem readsSlots_candidate (q : MagicSquare) (s : Store S) (v : Var) (i : Nat) :
    (q.candidate s v i).ReadsSlots := by
  refine .bind (.done _) fun value => ?_
  cases value <;> exact .done _

/-- A candidate gives the field a digit. -/
theorem exists_of_candidate {q : MagicSquare} {v : Var} {i : Nat}
    {p : Program S (Goal S) .verdict} (h : (q.candidate s v i).Yields (some p)) :
    ∃ value, p = Program.unifies (.var v) value := by
  obtain ⟨value, -, hp⟩ := Quiet.yields_bind h
  cases value with
  | none => nomatch hp
  | some value =>
    cases hp
    exact ⟨value, rfl⟩

theorem steady_place (q : MagicSquare) (field : Var) : (q.place field : Goal S).Steady := by
  rw [place_eq]
  refine .nondeterministic (.ask fun (s : Store S) => .candidates fun i p hp => ?_)
    q.steady_validate
  obtain ⟨value, rfl⟩ := exists_of_candidate hp
  exact .unifies _ _

theorem slotwise_place (hT : T.GuardsInert) (hread : T.ReadsSlots) (q : MagicSquare) (field : Var) :
    (q.place field : Goal S).Slotwise T := by
  have hoffer : (q.offer field : Program S (Goal S) .candidates).ReadsSlots := by
    refine .store (fun s s' h hs => ?_) fun s => .candidates _
    dsimp only [Program.quietly]
    rw [Store.digits_congr hs h]
  rw [place_eq]
  refine .nondeterministic (hoffer.slotwise hT hread) ?_
    (q.readsSlots_validate.slotwise hT hread) ?_
  · intro n m a m' hexec
    cases hexec
    exact Setoid.refl _
  · rintro _ ⟨n, m, m', hexec⟩ i
    cases hexec
    refine ⟨(readsSlots_candidate q m.world.store field i).agrees T, ?_⟩
    rintro p ⟨n, w, w', hexec⟩
    obtain ⟨value, rfl⟩ := exists_of_candidate (Quiet.yields_of_exec hexec)
    exact (Program.ReadsSlots.unifies _ _).slotwise hT hread

theorem exists_of_nextPlace {q : MagicSquare} {g : Goal S} (h : q.nextPlace.Yields g) :
    g = .succeed ∨ ∃ field, g = q.place field := by
  obtain ⟨s, -, h⟩ := Quiet.yields_bind h
  split at h
  · next field _ =>
    cases h
    exact .inr ⟨field, rfl⟩
  · cases h
    exact .inl rfl

theorem steady_fill (q : MagicSquare) : (q.fill : Goal S).Steady := by
  rw [fill_eq]
  refine .loop fun _ g hg => ?_
  rcases exists_of_nextPlace hg with rfl | ⟨field, rfl⟩
  · exact .succeed
  · exact q.steady_place field

theorem slotwise_fill (hT : T.GuardsInert) (hread : T.ReadsSlots) (q : MagicSquare) :
    (q.fill : Goal S).Slotwise T := by
  have hunfilled : (q.unfilled : Quiet S Bool).ReadsSlots := by
    refine .store (fun s s' h _ => ?_) fun s => .done _
    show (pure (q.fields.any s.isUnbound) : Quiet S Bool) = pure (q.fields.any s'.isUnbound)
    rw [funext (Store.isUnbound_congr h)]
  have hnext : (q.nextPlace : Quiet S (Goal S)).ReadsSlots := by
    let round (open? : Var → Bool) : Quiet S (Goal S) :=
      match q.fields.find? open? with
      | some field => pure (q.place field)
      | none => pure .succeed
    refine .store (fun s s' h _ => ?_) fun (s : Store S) => ?_
    · show round s.isUnbound = round s'.isUnbound
      rw [funext (Store.isUnbound_congr h)]
    · show (round s.isUnbound).ReadsSlots
      dsimp only [round]
      split <;> exact .done _
  rw [fill_eq]
  refine .loop (fun _ _ => hunfilled.agrees T) (fun _ _ => hnext.agrees T) ?_
  rintro _ g ⟨n, w, w', hexec⟩
  rcases exists_of_nextPlace (Quiet.yields_of_exec hexec) with rfl | ⟨field, rfl⟩
  · exact .succeed
  · exact slotwise_place hT hread q field

end Reads

end MagicSquare

theorem Theory.eq_map_of_copies {t : S.Term} {xs : List (Store S)} {as : List S.Term} {n : Nat}
    {g : Store S → S.Term} (has : List.Forall₂ (T.IsCopy t) xs as)
    (hg : ∀ x ∈ xs, ∀ i, (T.resolve? x n t).run i = some (g x, i)) : as = xs.map g := by
  induction has with
  | nil => rfl
  | cons ha _ ih =>
    rw [List.forall_mem_cons] at hg
    rw [List.map_cons, ha.eq_of_run hg.1, ← ih hg.2]

namespace MagicSquare

section Find

variable {q : MagicSquare} {m : Machine S}

/-- Filling a square comes to an end, with the digits of all squares that were found. -/
theorem exists_findAll_fill (hT : T.GuardsInert) (hread : T.ReadsSlots)
    (hchains : m.world.store.ChainsEnd) (hm : m.world.store.Ranged T digit q.fields)
    (hl : Lined q.fields q.lines m.world.store)
    (hopen : ∀ v ∈ q.fields, m.world.store.isUnbound v = true) :
    ∃ k xs m', (∀ n, k ≤ n → findAll T n q.fill (.list (q.fields.map .var)) m =
        .ok (xs.map fun x : Store S => .list (q.fields.map fun v => .int (x.reading v))) m') ∧
      q.Lists T m.world.store m.world.store xs := by
  have hstart := placed_start hm hl hopen
  obtain ⟨xs, hxs, hlists⟩ := exists_solutions_fill T m.world _ hm _ (Nat.le_refl _) hstart
    (Nat.le_refl _)
  have hcopy : ∀ x ∈ xs, ∀ i, (T.resolve? x 2 (.list (q.fields.map .var))).run i =
      some (.list (q.fields.map fun v => .int (x.reading v)), i) := by
    intro x hx i
    obtain ⟨hplaced, hclosed⟩ := hlists.1 x hx
    have hranged := hplaced.fills.ranged hm
    refine Theory.resolve?_ints (fun v hv => ⟨hranged.isCell hv, ?_⟩) i
    exact (hranged.int?_eq_some hv).mp (hranged.int?_eq_reading hv (hclosed v hv))
  obtain ⟨k, as, m', hfind, has⟩ := Machine.exists_findAll hT q.steady_fill
    (slotwise_fill hT hread q) m.world hchains hxs
    ⟨2, fun x hx => by rw [Theory.Copied, hcopy x hx 0]; rfl⟩
  rw [Theory.eq_map_of_copies has hcopy] at hfind
  exact ⟨k, xs, m', fun n hn => (collecting_below (run_below hn) _ _).ok hfind, hlists⟩

/-- What the check of a placement covers.  Wherever it succeeds, the digits that were there
when it began are different, and what it deduces is what the lines say; it is not checked
again.  So filling a square ends with squares whose lines are right and in which some
different digits decide the others.  Squares with right lines and different digits are all
among them. -/
theorem checks_before_deducing (hT : T.GuardsInert) (hread : T.ReadsSlots)
    (hchains : m.world.store.ChainsEnd) (hm : m.world.store.Ranged T digit q.fields)
    (hl : Lined q.fields q.lines m.world.store)
    (hopen : ∀ v ∈ q.fields, m.world.store.isUnbound v = true) :
    (∀ m₁ : Machine S, m₁.world.store.Ranged T digit q.fields →
      Lined q.fields q.lines m₁.world.store →
      ∃ k b m₂, (∀ n, k ≤ n → perform T n q.validate m₁ = .ok b m₂) ∧
        q.Validates m₁.world.store b m₂.world.store) ∧
    ∃ (k : Nat) (as : List (List Int)) (m' : Machine S),
      (∀ n, k ≤ n → findAll T n q.fill (.list (q.fields.map .var)) m =
        .ok (as.map fun ds => .list (ds.map .int)) m') ∧
      (∀ ds ∈ as, ∃ σ, q.Found m.world.store σ ∧ ds = q.fields.map σ) ∧
      ∀ σ, Solves digit q.fields q.lines m.world.store σ → (q.fields.map σ).Nodup →
        q.fields.map σ ∈ as := by
  constructor
  · intro m₁ hm₁ hl₁
    let k := weight q.lines m₁.world.store + 2
    obtain ⟨b, m₂, hexec, h⟩ := exists_validate (run T k) hm₁ hl₁ (Nat.le_refl k)
    exact ⟨k, b, m₂, fun n hn => (Program.exec_below hn (run_below hn) _).ok hexec, h⟩
  · obtain ⟨k, xs, m', hfind, hsound, hcomplete⟩ :=
      exists_findAll_fill hT hread hchains hm hl hopen
    refine ⟨k, xs.map fun x => q.fields.map x.reading, m', fun n hn => ?_, fun ds hds => ?_,
      fun σ hσ hnodup => ?_⟩
    · rw [hfind n hn]
      simp only [List.map_map, Function.comp_def]
    · obtain ⟨x, hx, rfl⟩ := List.mem_map.mp hds
      obtain ⟨hplaced, hclosed⟩ := hsound x hx
      have hfits := (hplaced.fills.ranged hm).fits_reading hclosed
      -- No field is open at an answer, so the slots are an assignment.
      exact ⟨x.reading, hplaced.found hm hopen hclosed hfits, rfl⟩
    · obtain ⟨x, hx, hσx⟩ := hcomplete σ hσ hnodup
      obtain ⟨hplaced, hclosed⟩ := hsound x hx
      rw [hσx.fits.map_eq_reading (hplaced.fills.ranged hm) hclosed]
      exact List.mem_map_of_mem hx

end Find

end MagicSquare

/-- A square of two fields and one line. -/
def Bounds.domino : MagicSquare := ⟨[⟨1⟩, ⟨2⟩], [⟨3⟩]⟩

/-- The two fields are to add up to a sum. -/
def Bounds.summing (sum : Int) : Machine Bounds.vocabulary :=
  ⟨.new .standard, ⟨⟨#[.fresh, ⟨.ordinary (some (1, 9)), none⟩, ⟨.ordinary (some (1, 9)), none⟩,
    ⟨.cell, some (MagicSquare.constraint [.var ⟨1⟩, .var ⟨2⟩] sum)⟩]⟩, 0, (), []⟩, []⟩

theorem Bounds.summing_binding (sum : Int) {v : Var} (hv : v ∈ Bounds.domino.fields) :
    (Bounds.summing sum).world.store.binding v = none := by
  simp only [Bounds.domino, List.mem_cons, List.not_mem_nil, or_false] at hv
  rcases hv with rfl | rfl <;> rfl

theorem Bounds.summing_ranged (sum : Int) :
    (Bounds.summing sum).world.store.Ranged Bounds.theory MagicSquare.digit
      Bounds.domino.fields where
  guarded := by
    simp only [Bounds.domino, List.forall_mem_cons]
    exact ⟨⟨_, rfl, fun n => rfl⟩, ⟨_, rfl, fun n => rfl⟩, by simp⟩
  held v hv t ht := by
    rw [Bounds.summing_binding sum hv] at ht
    cases ht

theorem Bounds.summing_lined (sum : Int) :
    MagicSquare.Lined Bounds.domino.fields Bounds.domino.lines
      (Bounds.summing sum).world.store where
  cells := by
    simp only [Bounds.domino, List.forall_mem_cons]
    exact ⟨rfl, by simp⟩
  held := by
    simp only [Bounds.domino, List.forall_mem_cons]
    exact ⟨⟨_, _, rfl, by simp [MagicSquare.Member]⟩, by simp⟩

theorem Bounds.summing_open (sum : Int) :
    ∀ v ∈ Bounds.domino.fields, (Bounds.summing sum).world.store.isUnbound v = true := by
  simp only [Bounds.domino, List.forall_mem_cons]
  exact ⟨rfl, rfl, by simp⟩

theorem Bounds.summing_solves {sum : Int} {σ : Var → Int} :
    MagicSquare.Solves MagicSquare.digit Bounds.domino.fields Bounds.domino.lines
        (Bounds.summing sum).world.store σ ↔
      (∀ v ∈ Bounds.domino.fields, 1 ≤ σ v ∧ σ v ≤ 9) ∧ σ ⟨1⟩ + σ ⟨2⟩ = sum := by
  have hfits : (Bounds.summing sum).world.store.Fits MagicSquare.digit Bounds.domino.fields σ ↔
      ∀ v ∈ Bounds.domino.fields, 1 ≤ σ v ∧ σ v ≤ 9 := by
    refine forall₂_congr fun v hv => ?_
    have hopen := Bounds.summing_open sum v hv
    rw [Store.accepts, ((Bounds.summing_ranged sum).int?_eq_none hv).mpr hopen]
    exact MagicSquare.digit_eq_true
  have hright : MagicSquare.Right (Bounds.summing sum).world.store σ ⟨3⟩ ↔
      σ ⟨1⟩ + σ ⟨2⟩ = sum := by
    rw [MagicSquare.right_iff rfl]
    simp [total, MagicSquare.amount]
  rw [← hfits, ← hright]
  constructor
  · exact fun hσ => ⟨hσ.fits, hσ.right ⟨3⟩ (by simp [Bounds.domino])⟩
  · exact fun hσ => ⟨hσ.1, by simpa [Bounds.domino] using hσ.2⟩

theorem Bounds.summing_chainsEnd (sum : Int) : (Bounds.summing sum).world.store.ChainsEnd := by
  refine Store.chainsEnd_of_isCell fun v hv => ?_
  obtain ⟨i⟩ := v
  rcases i with _ | _ | _ | _ | i
  · cases hv
  · cases hv
  · cases hv
  · rfl
  · simp [Bounds.summing, Store.binding, Store.get, Slot.fresh] at hv

/-- Two fields with the sum three are filled in both ways. -/
theorem MagicSquare.checks_before_deducing_three :
    ∃ (k : Nat) (as : List (List Int)) (m' : Machine Bounds.vocabulary),
      findAll Bounds.theory k Bounds.domino.fill (.list [.var ⟨1⟩, .var ⟨2⟩]) (Bounds.summing 3) =
        .ok (as.map fun ds => .list (ds.map .int)) m' ∧
      ∀ ds, ds ∈ as ↔ ds = [1, 2] ∨ ds = [2, 1] := by
  obtain ⟨-, k, as, m', hfind, hsound, hcomplete⟩ := MagicSquare.checks_before_deducing
    Bounds.guardsInert Bounds.readsSlots (Bounds.summing_chainsEnd 3) (Bounds.summing_ranged 3)
    (Bounds.summing_lined 3) (Bounds.summing_open 3)
  refine ⟨k, as, m', hfind k (Nat.le_refl k), fun ds => ⟨fun hds => ?_, fun hds => ?_⟩⟩
  · obtain ⟨σ, hσ, rfl⟩ := hsound ds hds
    obtain ⟨hdigits, hsum⟩ := Bounds.summing_solves.mp (hσ.right (by simp [Bounds.domino]))
    simp only [Bounds.domino, List.forall_mem_cons] at hdigits
    simp only [Bounds.domino, List.map_cons, List.map_nil, List.cons.injEq, and_true]
    omega
  · rcases hds with rfl | rfl
    · exact hcomplete (fun v => [0, 1, 2].getD v.id 0) (Bounds.summing_solves.mpr (by decide))
        (by decide)
    · exact hcomplete (fun v => [0, 2, 1].getD v.id 0) (Bounds.summing_solves.mpr (by decide))
        (by decide)

/-- The first of two fields with the sum two is given one. -/
def Bounds.halved : Machine Bounds.vocabulary :=
  { Bounds.summing 2 with
    world.store := (Bounds.summing 2).world.store.take MagicSquare.digit ⟨1⟩ 1 }

/-- Two fields with the sum two: when the first one is given one, the second one follows from
the line, and the square passes with the same digit twice.  It is what a search finds. -/
theorem MagicSquare.deduced_digits_repeat :
    (result? (perform Bounds.theory 40 Bounds.domino.validate) Bounds.halved : Option Bool) =
        some true ∧
      ((perform Bounds.theory 40 Bounds.domino.validate).last
        Bounds.halved).world.store.digits Bounds.domino.fields = [1, 1] ∧
      (result? (findAll Bounds.theory 40 Bounds.domino.fill (.list [.var ⟨1⟩, .var ⟨2⟩]))
        (Bounds.summing 2)).map (List.map (Bounds.theory.display? .empty 3)) =
        some [some "[1, 1]"] := by
  decide +kernel

end GoalSearch
