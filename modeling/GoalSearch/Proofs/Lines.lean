/-
Deductions from the lines of a square.

A line says what its members add up to.  A round over the lines takes out of each of
them what is known, gives the last open field of a line what is missing to the sum, and
rounds are repeated until nothing changes.  The lines are rewritten while they are worked
on, and a digit found in one line changes the others; but whatever is done, the same
assignments are left, and when nothing changes any more each line is empty or has at
least two open fields.

* `MagicSquare.Right`, `MagicSquare.Solves` — right lines, and assignments that make all
  lines right;
* `MagicSquare.Reduces` — what deductions do to a store and its lines;
* `MagicSquare.LineStep`, `MagicSquare.exists_sweep` — what a round makes of one line, and what
  it does;
* `MagicSquare.exists_simplify` — rounds end, and what they come to;
* `MagicSquare.simplify_keeps_solutions` — for fields that hold digits.

Design notes: rounds end since one that changes anything takes a member out of some line,
and none is ever put in.  A line may list the same field more than once, and two lines may
list the same fields.
-/
import GoalSearch.Proofs.Columns
import GoalSearch.Puzzle.MagicSquare
import Mathlib.Algebra.Order.BigOperators.Group.List
import Mathlib.Algebra.Order.Ring.Nat

namespace GoalSearch

open GoalSearch.Action Machine

variable {S : Vocabulary} {T : Theory S} {D : Var → Int → Bool}

/-! ### Sums that cannot be negative -/

theorem total_nonneg {ns : List Int} (h : ∀ n ∈ ns, 0 ≤ n) : 0 ≤ total ns := by
  induction ns with
  | nil => exact Int.le_refl 0
  | cons n ns ih =>
    rw [List.forall_mem_cons] at h
    have hrest := ih h.2
    rw [total]
    omega

namespace Store

variable {s s' : Store S} {vs ws : List Var} {v w : Var}

/-- In a store of integers a variable dereferences to a variable if it is not bound. -/
theorem Ranged.isVar (h : s.Ranged T D vs) (hv : v ∈ vs) : s.isVar (.var v) = s.isUnbound v := by
  cases hn : s.int? (.var v) with
  | none =>
    have hopen := (h.int?_eq_none hv).mp hn
    rw [Store.isVar, deref_of_unbound hopen]
  | some n =>
    have hbinding := (h.int?_eq_some hv).mp hn
    rw [Store.isVar, deref_of_binding (h.isCell hv) hbinding rfl, h.isUnbound_eq_false hv hn]

/-- Cells may be given other values. -/
theorem fills_set_cell (hw : w ∈ ws) (hvs : w ∉ vs) (t : S.Term) :
    s.Fills D vs ws (s.set w (some t)) where
  filled v hv := by
    have hne : w ≠ v := fun heq => hvs (heq ▸ hv)
    exact .inl (by rw [get_set, if_neg hne])
  cells u _ := by
    rw [get_set]
    split
    · next heq => rw [heq]
    · rfl
  beside u _ hu := by
    have hne : w ≠ u := fun heq => hu (heq ▸ hw)
    rw [get_set, if_neg hne]

end Store

namespace MagicSquare

/-! ### Lines and what makes them right -/

/-- What a member of a line counts if the fields stand for these integers. -/
def amount (σ : Var → Int) : S.Term → Int
  | .int n => n
  | .var v => σ v
  | _ => 0

/-- The members of lines over some fields: the fields and integers. -/
def Member (vs : List Var) (t : S.Term) : Prop :=
  (∃ n, t = .int n) ∨ ∃ v ∈ vs, t = .var v

/-- The members of a line add up to its sum. -/
def Right (s : Store S) (σ : Var → Int) (line : Var) : Prop :=
  ∃ members sum, s.binding line = some (constraint members sum) ∧
    total (members.map (amount σ)) = sum

variable (D) in
/-- An assignment that a store allows and that makes all lines right. -/
structure Solves (vs lines : List Var) (s : Store S) (σ : Var → Int) : Prop where
  fits : s.Fits D vs σ
  right : ∀ line ∈ lines, Right s σ line

/-- Lines over some fields. -/
structure Lined (vs lines : List Var) (s : Store S) : Prop where
  cells : ∀ line ∈ lines, s.isCell line = true
  held : ∀ line ∈ lines, ∃ members sum, s.binding line = some (constraint members sum) ∧
    ∀ t ∈ members, Member vs t

/-- A line from which nothing follows: it is empty, or at least two of its fields are open
and it has no other members. -/
def Rests (vs : List Var) (s : Store S) (line : Var) : Prop :=
  s.binding line = some (constraint [] 0) ∨
    ∃ (us : List Var) (sum : Int), s.binding line = some (constraint (us.map .var) sum) ∧
      2 ≤ us.length ∧
      ∀ u ∈ us, u ∈ vs ∧ s.isUnbound u = true

/-- The number of members of a line. -/
def size (s : Store S) (line : Var) : Nat :=
  ((readLine? s line).map fun held => held.1.length).getD 0

/-- The number of members of all lines. -/
def weight (lines : List Var) (s : Store S) : Nat := (lines.map (size s)).sum

section Lines

variable {s s' s₁ : Store S} {vs lines : List Var} {v line : Var} {t : S.Term}
  {members members' left : List S.Term} {sum sum' rest : Int} {σ : Var → Int}

theorem constraint_inj (h : (constraint members sum : S.Term) = constraint members' sum') :
    members = members' ∧ sum = sum' := by
  simpa [constraint] using h

theorem readLine?_eq (h : s.binding line = some (constraint members sum)) :
    readLine? s line = some (members, sum) := by
  have hlist : ∀ ts : List S.Term, s.list? (.list ts) = some ts := fun ts => by
    rw [Store.list?, Store.deref_of_var?_eq_none rfl]
  have hint : s.int? (.int sum) = some sum := by
    rw [Store.int?, Store.deref_of_var?_eq_none rfl]
  rw [readLine?, h, Option.bind_some, constraint, hlist]
  dsimp only
  rw [hlist, hint]

theorem size_eq (h : s.binding line = some (constraint members sum)) :
    size s line = members.length := by
  rw [size, readLine?_eq h]
  rfl

theorem size_set (s : Store S) (line : Var) (members : List S.Term) (sum : Int) :
    size (s.set line (some (constraint members sum))) line = members.length :=
  size_eq (by rw [Store.binding_set, if_pos rfl])

theorem right_iff (h : s.binding line = some (constraint members sum)) :
    Right s σ line ↔ total (members.map (amount σ)) = sum := by
  constructor
  · rintro ⟨members', sum', h', htotal⟩
    rw [h, Option.some.injEq] at h'
    obtain ⟨rfl, rfl⟩ := constraint_inj h'
    exact htotal
  · exact fun htotal => ⟨members, sum, h, htotal⟩

theorem right_congr (h : s'.binding line = s.binding line) : Right s' σ line ↔ Right s σ line := by
  rw [Right, Right, h]

theorem Lined.not_mem (h : Lined vs lines s) (hs : s.Ranged T D vs) (hline : line ∈ lines) :
    line ∉ vs := by
  intro hv
  have hcell := h.cells line hline
  rw [hs.isCell hv] at hcell
  cases hcell

/-- Lines stay as they are while integers are given to fields. -/
theorem Lined.binding_eq (h : Lined vs lines s) (hs : s.Ranged T D vs) (hline : line ∈ lines)
    (hfills : s.Fills D vs [] s') : s'.binding line = s.binding line := by
  rw [Store.binding, Store.binding, hfills.beside line (h.not_mem hs hline) (by simp)]

theorem Lined.of_fills (h : Lined vs lines s) (hs : s.Ranged T D vs)
    (hfills : s.Fills D vs [] s') : Lined vs lines s' where
  cells line hline := by
    rw [Store.isCell, hfills.beside line (h.not_mem hs hline) (by simp)]
    exact h.cells line hline
  held line hline := by
    rw [h.binding_eq hs hline hfills]
    exact h.held line hline

theorem Lined.weight_eq (h : Lined vs lines s) (hs : s.Ranged T D vs)
    (hfills : s.Fills D vs [] s') : weight lines s' = weight lines s := by
  refine congrArg List.sum (List.map_congr_left fun line hline => ?_)
  obtain ⟨members, sum, hheld, -⟩ := h.held line hline
  rw [size_eq hheld, size_eq ((h.binding_eq hs hline hfills).trans hheld)]

/-- What is left to solve the lines when integers are given to fields. -/
theorem Lined.solves_iff (h : Lined vs lines s) (hs : s.Ranged T D vs)
    (hfills : s.Fills D vs [] s') :
    Solves D vs lines s' σ ↔ Solves D vs lines s σ ∧ s'.Fits D vs σ := by
  have hright : (∀ line ∈ lines, Right s' σ line) ↔ ∀ line ∈ lines, Right s σ line :=
    forall₂_congr fun _ hline => right_congr (h.binding_eq hs hline hfills)
  constructor
  · rintro ⟨hσ, hall⟩
    exact ⟨⟨hfills.fits hs hσ, hright.mp hall⟩, hσ⟩
  · rintro ⟨⟨-, hall⟩, hσ⟩
    exact ⟨hσ, hright.mpr hall⟩

/-- A member of a line is known or open. -/
theorem Member.known_or_open (ht : Member vs t) (hs : s.Ranged T D vs) (hσ : s.Fits D vs σ) :
    s.int? t = some (amount σ t) ∧ s.isVar t = false ∨ s.int? t = none ∧ s.isVar t = true := by
  rcases ht with ⟨n, rfl⟩ | ⟨v, hv, rfl⟩
  · left
    rw [Store.int?, Store.isVar, Store.deref_of_var?_eq_none rfl]
    exact ⟨rfl, rfl⟩
  · rw [hs.isVar hv]
    exact hσ.known_or_open hs hv

theorem Member.of_isVar (ht : Member vs t) (hs : s.Ranged T D vs) (hopen : s.isVar t = true) :
    ∃ v ∈ vs, t = .var v ∧ s.isUnbound v = true := by
  rcases ht with ⟨n, rfl⟩ | ⟨v, hv, rfl⟩
  · rw [Store.isVar, Store.deref_of_var?_eq_none rfl] at hopen
    cases hopen
  · rw [hs.isVar hv] at hopen
    exact ⟨v, hv, rfl, hopen⟩

/-- Open members are fields that are not bound. -/
theorem exists_of_isVar (hs : s.Ranged T D vs) (hmembers : ∀ t ∈ members, Member vs t)
    (hopen : ∀ t ∈ members, s.isVar t = true) :
    ∃ us : List Var, members = us.map .var ∧ ∀ u ∈ us, u ∈ vs ∧ s.isUnbound u = true := by
  induction members with
  | nil => exact ⟨[], rfl, by simp⟩
  | cons t members ih =>
    rw [List.forall_mem_cons] at hmembers hopen
    obtain ⟨us, rfl, hus⟩ := ih hmembers.2 hopen.2
    obtain ⟨u, hu, rfl, hunbound⟩ := hmembers.1.of_isVar hs hopen.1
    exact ⟨u :: us, rfl, List.forall_mem_cons.mpr ⟨⟨hu, hunbound⟩, hus⟩⟩

/-- Nothing follows from a line of at least two members that are all open. -/
theorem rests_of_open (hs : s.Ranged T D vs)
    (hheld : s.binding line = some (constraint members sum))
    (hmembers : ∀ t ∈ members, Member vs t) (hopen : ∀ t ∈ members, s.isVar t = true)
    (hlength : 2 ≤ members.length) : Rests vs s line := by
  obtain ⟨us, rfl, hunbound⟩ := exists_of_isVar hs hmembers hopen
  rw [List.length_map] at hlength
  exact .inr ⟨us, sum, hheld, hlength, hunbound⟩

/-- A line is right if its open members add up to what the known ones leave. -/
theorem total_members_eq (hs : s.Ranged T D vs) (hσ : s.Fits D vs σ)
    (hmembers : ∀ t ∈ members, Member vs t) :
    total (members.map (amount σ)) = sum ↔
      total ((members.filter s.isVar).map (amount σ)) = sum - total (members.filterMap s.int?) := by
  have hsplit : total (members.map (amount σ)) = total (members.filterMap s.int?) +
      total ((members.filter s.isVar).map (amount σ)) :=
    total_map_eq fun t ht => (hmembers t ht).known_or_open hs hσ
  omega

theorem total_open_nonneg (hD : ∀ v ∈ vs, ∀ n, D v n = true → 0 ≤ n) (hs : s.Ranged T D vs)
    (hσ : s.Fits D vs σ) (hmembers : ∀ t ∈ members, Member vs t) :
    0 ≤ total ((members.filter s.isVar).map (amount σ)) := by
  refine total_nonneg fun n hn => ?_
  obtain ⟨t, ht, rfl⟩ := List.mem_map.mp hn
  obtain ⟨hmem, hopen⟩ := List.mem_filter.mp ht
  obtain ⟨v, hv, rfl, hunbound⟩ := (hmembers t hmem).of_isVar hs hopen
  have haccepts := hσ v hv
  rw [Store.accepts, (hs.int?_eq_none hv).mpr hunbound] at haccepts
  exact hD v hv _ haccepts

/-! ### Reductions -/

variable (D) in
/-- What deductions do: open fields are given integers that they accept, members are taken
out of lines, nothing else changes, and the same assignments solve the lines. -/
structure Reduces (vs lines : List Var) (s s' : Store S) : Prop where
  fills : s.Fills D vs lines s'
  shrinks : ∀ line ∈ lines, ∀ members sum, s.binding line = some (constraint members sum) →
    ∃ members' sum', s'.binding line = some (constraint members' sum') ∧ members'.Sublist members
  solves : ∀ σ, Solves D vs lines s' σ ↔ Solves D vs lines s σ

theorem reduces_refl (s : Store S) : Reduces D vs lines s s where
  fills := Store.fills_refl s
  shrinks _ _ members sum h := ⟨members, sum, h, List.Sublist.refl _⟩
  solves _ := Iff.rfl

theorem Reduces.trans (h : Reduces D vs lines s s₁) (h' : Reduces D vs lines s₁ s') :
    Reduces D vs lines s s' where
  fills := h.fills.trans h'.fills
  shrinks line hline members sum hheld := by
    obtain ⟨members₁, sum₁, hheld₁, hsub⟩ := h.shrinks line hline members sum hheld
    obtain ⟨members', sum', hheld', hsub'⟩ := h'.shrinks line hline members₁ sum₁ hheld₁
    exact ⟨members', sum', hheld', hsub'.trans hsub⟩
  solves σ := (h'.solves σ).trans (h.solves σ)

theorem Reduces.lined (h : Reduces D vs lines s s') (hl : Lined vs lines s) :
    Lined vs lines s' where
  cells line hline := by
    rw [Store.isCell, h.fills.cells line hline]
    exact hl.cells line hline
  held line hline := by
    obtain ⟨members, sum, hheld, hmembers⟩ := hl.held line hline
    obtain ⟨members', sum', hheld', hsub⟩ := h.shrinks line hline members sum hheld
    exact ⟨members', sum', hheld', fun t ht => hmembers t (hsub.subset ht)⟩

theorem Reduces.size_le (h : Reduces D vs lines s s') (hl : Lined vs lines s)
    (hline : line ∈ lines) : size s' line ≤ size s line := by
  obtain ⟨members, sum, hheld, -⟩ := hl.held line hline
  obtain ⟨members', sum', hheld', hsub⟩ := h.shrinks line hline members sum hheld
  rw [size_eq hheld, size_eq hheld']
  exact hsub.length_le

theorem Reduces.weight_le (h : Reduces D vs lines s s') (hl : Lined vs lines s) :
    weight lines s' ≤ weight lines s :=
  List.sum_le_sum fun _ hline => h.size_le hl hline

theorem Reduces.weight_lt (h : Reduces D vs lines s s') (hl : Lined vs lines s)
    (hline : line ∈ lines) (hless : size s' line < size s line) :
    weight lines s' < weight lines s :=
  List.sum_lt_sum _ _ (fun _ hline => h.size_le hl hline) ⟨line, hline, hless⟩

/-- A line is given fewer members.  With what has been found out about the fields, they are
right for the same assignments. -/
theorem reduces_of_rewrite (hs : s.Ranged T D vs) (hl : Lined vs lines s) (hline : line ∈ lines)
    (hheld : s.binding line = some (constraint members sum)) (hfills : s.Fills D vs [] s₁)
    (hsub : left.Sublist members)
    (hright : ∀ σ, s₁.Fits D vs σ ∧ total (left.map (amount σ)) = rest ↔
      s.Fits D vs σ ∧ total (members.map (amount σ)) = sum) :
    Reduces D vs lines s (s₁.set line (some (constraint left rest))) := by
  have hs₁ := hfills.ranged hs
  have hnot := hl.not_mem hs hline
  have hsame : (s₁.set line (some (constraint left rest))).binding line =
      some (constraint left rest) := by
    rw [Store.binding_set, if_pos rfl]
  have hothers : ∀ other ∈ lines, line ≠ other →
      (s₁.set line (some (constraint left rest))).binding other = s.binding other := by
    intro other hother hne
    rw [Store.binding_set, if_neg hne, hl.binding_eq hs hother hfills]
  refine ⟨(hfills.weaken lines).trans (Store.fills_set_cell hline hnot _), ?_, fun σ => ?_⟩
  · intro other hother members' sum' hheld'
    by_cases hne : line = other
    · subst hne
      rw [hheld, Option.some.injEq] at hheld'
      obtain ⟨rfl, rfl⟩ := constraint_inj hheld'
      exact ⟨left, rest, hsame, hsub⟩
    · exact ⟨members', sum', (hothers other hother hne).trans hheld', List.Sublist.refl _⟩
  · constructor
    · rintro ⟨hfits, hall⟩
      have hleft := (right_iff hsame).mp (hall line hline)
      obtain ⟨hσ, htotal⟩ := (hright σ).mp ⟨(hs₁.fits_set_of_not_mem hnot _).mp hfits, hleft⟩
      refine ⟨hσ, fun other hother => ?_⟩
      -- The rewritten line is right by `hright`, and the others hold what they held.
      by_cases hne : line = other
      · subst hne
        exact (right_iff hheld).mpr htotal
      · exact (right_congr (hothers other hother hne)).mp (hall other hother)
    · rintro ⟨hσ, hall⟩
      have htotal := (right_iff hheld).mp (hall line hline)
      obtain ⟨hfits, hleft⟩ := (hright σ).mpr ⟨hσ, htotal⟩
      refine ⟨(hs₁.fits_set_of_not_mem hnot _).mpr hfits, fun other hother => ?_⟩
      by_cases hne : line = other
      · subst hne
        exact (right_iff hsame).mpr hleft
      · exact (right_congr (hothers other hother hne)).mpr (hall other hother)

end Lines

/-! ### One round -/

variable (D) in
/-- What a round over some of the lines comes to.  It refuses only lines that no assignment
makes right, and keeps all assignments otherwise.  Without a verdict it leaves fewer
members, unless there was a change before; with a positive one it has changed nothing, as
nothing follows from the lines. -/
structure Sweeps (vs lines rest : List Var) (changed : Bool) (m : Machine S) (r : Option Bool)
    (m' : Machine S) : Prop where
  stays : m.Stays Scope.Continues m'
  refuted : r = some false → ∀ σ, ¬ Solves D vs lines m.world.store σ
  reduces : r ≠ some false → Reduces D vs lines m.world.store m'.world.store
  smaller : r = none → changed = true ∨
    weight lines m'.world.store < weight lines m.world.store
  settled : r = some true → changed = false ∧ m'.world.store = m.world.store ∧
    ∀ line ∈ rest, Rests vs m.world.store line

section Sweeps

variable {vs lines rest : List Var} {line : Var} {members left : List S.Term} {changed : Bool}
  {m m₁ m' : Machine S} {r : Option Bool}

/-- A line from which nothing follows. -/
theorem Sweeps.skip (h : Sweeps D vs lines rest changed m r m')
    (hline : Rests vs m.world.store line) : Sweeps D vs lines (line :: rest) changed m r m' where
  stays := h.stays
  refuted := h.refuted
  reduces := h.reduces
  smaller := h.smaller
  settled hr := by
    obtain ⟨hchanged, hstore, hrests⟩ := h.settled hr
    exact ⟨hchanged, hstore, List.forall_mem_cons.mpr ⟨hline, hrests⟩⟩

/-- A line that no assignment makes right. -/
theorem sweeps_refuted (hstays : m.Stays Scope.Continues m₁) (hline : line ∈ lines)
    (hwrong : ∀ σ, m.world.store.Fits D vs σ → ¬ Right m.world.store σ line) :
    Sweeps D vs lines rest changed m (some false) m₁ where
  stays := hstays
  refuted _ σ hσ := hwrong σ hσ.fits (hσ.right line hline)
  reduces hr := absurd rfl hr
  smaller hr := nomatch hr
  settled hr := nomatch hr

/-- A line that is given fewer members, and the lines after it. -/
theorem Sweeps.rewritten (hl : Lined vs lines m.world.store)
    (hstays : m.Stays Scope.Continues m₁)
    (hreduces : Reduces D vs lines m.world.store m₁.world.store) (hline : line ∈ lines)
    (hless : size m₁.world.store line < size m.world.store line)
    (h : Sweeps D vs lines rest true m₁ r m') :
    Sweeps D vs lines (line :: rest) changed m r m' where
  stays := hstays.trans h.stays
  refuted hr σ hσ := h.refuted hr σ ((hreduces.solves σ).mpr hσ)
  reduces hr := hreduces.trans (h.reduces hr)
  smaller hr := by
    have hfirst := hreduces.weight_lt hl hline hless
    have hrest := (h.reduces (by simp [hr])).weight_le (hreduces.lined hl)
    exact .inr (by omega)
  settled hr := nomatch (h.settled hr).1

variable {k : Nat}

/-- The last open field of a line is given what is missing to the sum, and nothing is left of
the line. -/
theorem exists_forced (run : Runner S) (hk : 2 ≤ k) (hm : m.world.store.Ranged T D vs)
    (hl : Lined vs lines m.world.store) (hline : line ∈ lines) {sum remaining : Int}
    (hheld : m.world.store.binding line = some (constraint members sum)) {v : Var} (hv : v ∈ vs)
    (hright : ∀ σ, m.world.store.Fits D vs σ →
      (total (members.map (amount σ)) = sum ↔ σ v = remaining)) :
    ∃ b m₁, ((Program.unifies (.var v) (.int remaining)).andThen
        (Program.unifies (.var line) (constraint [] 0)) :
          Program S (Goal S) .verdict).exec T k run m = .ok b m₁ ∧
      m.Stays Scope.Continues m₁ ∧
      (b = false → ∀ σ, m.world.store.Fits D vs σ → ¬ Right m.world.store σ line) ∧
      (b = true → Reduces D vs lines m.world.store m₁.world.store ∧
        size m₁.world.store line = 0) := by
  obtain ⟨n, rfl⟩ : ∃ n, k = n + 2 := ⟨k - 2, by omega⟩
  obtain ⟨b, m₁, hexec, htakes⟩ := exists_takes run hk hm hv remaining
  rw [Program.exec_andThen hexec]
  cases b with
  | false =>
    refine ⟨false, m₁, rfl, htakes.stays, fun _ σ hσ hwrong => ?_, fun hb => nomatch hb⟩
    -- The field refuses the one integer with which the line is right.
    obtain ⟨e, he, hne⟩ := htakes.refused rfl σ hσ
    rw [List.mem_singleton] at he
    subst he
    exact hne ((hright σ hσ).mp ((right_iff hheld).mp hwrong))
  | true =>
    -- Nothing is left of the line, and its cell takes the empty constraint without question.
    have hcell : m₁.world.store.isCell line = true :=
      (hl.of_fills hm htakes.fills).cells line hline
    obtain ⟨m₂, hunify, hstays, hstore⟩ := exists_unify_cell (T := T) hcell
      (show (constraint [] 0 : S.Term).var? = none from rfl) n
    rw [if_pos rfl, Program.exec_unifies]
    refine ⟨true, m₂, hunify, htakes.stays.trans hstays, (fun hb => nomatch hb), fun _ => ?_⟩
    rw [hstore]
    constructor
    · refine reduces_of_rewrite hm hl hline hheld htakes.fills (List.nil_sublist _) fun σ => ?_
      rw [htakes.kept rfl σ]
      simp only [List.forall_mem_singleton, List.map_nil, total, and_true]
      exact and_congr_right fun hσ => (hright σ hσ).symm
    · exact size_set _ line [] 0

/-- A line whose known members are taken out. -/
theorem exists_reduced (run : Runner S) (hk : 2 ≤ k) (hm : m.world.store.Ranged T D vs)
    (hl : Lined vs lines m.world.store) (hline : line ∈ lines) {sum remaining : Int}
    (hheld : m.world.store.binding line = some (constraint members sum))
    (hsub : left.Sublist members)
    (hright : ∀ σ, m.world.store.Fits D vs σ →
      (total (members.map (amount σ)) = sum ↔ total (left.map (amount σ)) = remaining)) :
    ∃ m₁, (Program.unifies (.var line) (constraint left remaining) :
        Program S (Goal S) .verdict).exec T k run m = .ok true m₁ ∧
      m.Stays Scope.Continues m₁ ∧ Reduces D vs lines m.world.store m₁.world.store ∧
      size m₁.world.store line = left.length := by
  obtain ⟨n, rfl⟩ : ∃ n, k = n + 2 := ⟨k - 2, by omega⟩
  obtain ⟨m₁, hunify, hstays, hstore⟩ := exists_unify_cell (T := T) (hl.cells line hline)
    (show (constraint left remaining : S.Term).var? = none from rfl) n
  rw [Program.exec_unifies]
  refine ⟨m₁, hunify, hstays, ?_, ?_⟩
  · rw [hstore]
    refine reduces_of_rewrite hm hl hline hheld (Store.fills_refl _) hsub fun σ => ?_
    exact and_congr_right fun hσ => (hright σ hσ).symm
  · rw [hstore]
    exact size_set _ line left remaining

variable (T D) in
/-- A round over some of the lines ends, wherever it begins. -/
def Swept (run : Runner S) (k : Nat) (vs lines rest : List Var) : Prop :=
  ∀ (m : Machine S) (changed : Bool), m.world.store.Ranged T D vs → Lined vs lines m.world.store →
    ∃ r m', (sweep rest changed : Program S (Goal S) .attempt).exec T k run m = .ok r m' ∧
      Sweeps D vs lines rest changed m r m'

/-- A round goes on if the last open field of a line accepts what is missing. -/
theorem Swept.forced {run : Runner S} (hswept : Swept T D run k vs lines rest) (hk : 2 ≤ k)
    (hm : m.world.store.Ranged T D vs) (hl : Lined vs lines m.world.store) (hline : line ∈ lines)
    {sum remaining : Int} (hheld : m.world.store.binding line = some (constraint members sum))
    (hmembers : members ≠ []) {v : Var} (hv : v ∈ vs)
    (hright : ∀ σ, m.world.store.Fits D vs σ →
      (total (members.map (amount σ)) = sum ↔ σ v = remaining)) :
    ∃ r m', (DigitSum.orFail ((Program.unifies (.var v) (.int remaining)).andThen
        (Program.unifies (.var line) (constraint [] 0))) (sweep rest true) :
          Program S (Goal S) .attempt).exec T k run m = .ok r m' ∧
      Sweeps D vs lines (line :: rest) changed m r m' := by
  obtain ⟨b, m₁, hexec, hstays, hrefused, hreduces⟩ :=
    exists_forced run hk hm hl hline hheld hv hright
  rw [DigitSum.exec_orFail hexec]
  cases b with
  | false => exact ⟨some false, m₁, rfl, sweeps_refuted hstays hline (hrefused rfl)⟩
  | true =>
    obtain ⟨hreduces, hsize⟩ := hreduces rfl
    have hless : size m₁.world.store line < size m.world.store line := by
      rw [hsize, size_eq hheld]
      exact List.length_pos_iff.mpr hmembers
    obtain ⟨r, m', hexec', hsweeps⟩ :=
      hswept m₁ true (hreduces.fills.ranged hm) (hreduces.lined hl)
    exact ⟨r, m', hexec', hsweeps.rewritten hl hstays hreduces hline hless⟩

/-- A round goes on with fewer members in a line. -/
theorem Swept.reduced {run : Runner S} (hswept : Swept T D run k vs lines rest) (hk : 2 ≤ k)
    (hm : m.world.store.Ranged T D vs) (hl : Lined vs lines m.world.store) (hline : line ∈ lines)
    {sum remaining : Int} (hheld : m.world.store.binding line = some (constraint members sum))
    (hsub : left.Sublist members) (hfewer : left.length < members.length)
    (hright : ∀ σ, m.world.store.Fits D vs σ →
      (total (members.map (amount σ)) = sum ↔ total (left.map (amount σ)) = remaining)) :
    ∃ r m', (DigitSum.orFail (Program.unifies (.var line) (constraint left remaining))
        (sweep rest true) : Program S (Goal S) .attempt).exec T k run m = .ok r m' ∧
      Sweeps D vs lines (line :: rest) changed m r m' := by
  obtain ⟨m₁, hexec, hstays, hreduces, hsize⟩ :=
    exists_reduced run hk hm hl hline hheld hsub hright
  rw [DigitSum.exec_orFail hexec]
  have hless : size m₁.world.store line < size m.world.store line := by
    rw [hsize, size_eq hheld]
    exact hfewer
  obtain ⟨r, m', hexec', hsweeps⟩ :=
    hswept m₁ true (hreduces.fills.ranged hm) (hreduces.lined hl)
  exact ⟨r, m', hexec', hsweeps.rewritten hl hstays hreduces hline hless⟩

variable (D) in
/-- What a round makes of a line, by what the slots say about it. -/
inductive LineStep (vs : List Var) (s : Store S) (line : Var) (rest : List Var) (changed : Bool) :
    Program S (Goal S) .attempt → Prop
  | wrong : (∀ σ, s.Fits D vs σ → ¬ Right s σ line) →
      LineStep vs s line rest changed (.attempt (some false))
  | rests : Rests vs s line → LineStep vs s line rest changed (sweep rest changed)
  | forced {members : List S.Term} {sum remaining : Int} {v : Var} :
      s.binding line = some (constraint members sum) → members ≠ [] → v ∈ vs →
      (∀ σ, s.Fits D vs σ → (total (members.map (amount σ)) = sum ↔ σ v = remaining)) →
      LineStep vs s line rest changed (DigitSum.orFail
        ((Program.unifies (.var v) (.int remaining)).andThen
          (Program.unifies (.var line) (constraint [] 0))) (sweep rest true))
  | reduced {members left : List S.Term} {sum remaining : Int} :
      s.binding line = some (constraint members sum) → left.Sublist members →
      left.length < members.length →
      (∀ σ, s.Fits D vs σ →
        (total (members.map (amount σ)) = sum ↔ total (left.map (amount σ)) = remaining)) →
      LineStep vs s line rest changed (DigitSum.orFail
        (Program.unifies (.var line) (constraint left remaining)) (sweep rest true))

/-- A round looks at a line with the slots as they are, and goes by its open members. -/
theorem exists_lineStep (hD : ∀ v ∈ vs, ∀ n, D v n = true → 0 ≤ n) (hline : line ∈ lines)
    (rest : List Var) (changed : Bool) :
    ∃ f : Store S → Program S (Goal S) .attempt,
      sweep (line :: rest) changed = Program.withStore f ∧
      ∀ s, s.Ranged T D vs → Lined vs lines s → LineStep D vs s line rest changed (f s) := by
  refine ⟨_, rfl, fun s hs hl => ?_⟩
  obtain ⟨members, sum, hheld, hmembers⟩ := hl.held line hline
  rw [readLine?_eq hheld]
  cases members with
  | nil =>
    -- nothing is left to add up
    dsimp only
    split
    · next hsum =>
      subst hsum
      exact .rests (.inl hheld)
    · next hsum => exact .wrong fun σ _ hright => hsum ((right_iff hheld).mp hright).symm
  | cons t ts =>
    dsimp only
    generalize hremaining : sum - total ((t :: ts).filterMap s.int?) = remaining
    have hright : ∀ σ, s.Fits D vs σ → (total ((t :: ts).map (amount σ)) = sum ↔
        total (((t :: ts).filter s.isVar).map (amount σ)) = remaining) := by
      intro σ hσ
      rw [← hremaining]
      exact total_members_eq hs hσ hmembers
    have hsub : ((t :: ts).filter s.isVar).Sublist (t :: ts) := List.filter_sublist
    split
    · next hnegative =>
      refine .wrong fun σ hσ hwrong => ?_
      have htotal := (hright σ hσ).mp ((right_iff hheld).mp hwrong)
      have hopen := total_open_nonneg hD hs hσ hmembers
      omega
    · split
      · next field hfield =>
        -- one field is open
        have hmem : field ∈ (t :: ts).filter s.isVar := by rw [hfield]; simp
        obtain ⟨hmem, hopen⟩ := List.mem_filter.mp hmem
        obtain ⟨v, hv, rfl, -⟩ := (hmembers field hmem).of_isVar hs hopen
        refine .forced hheld (by simp) hv fun σ hσ => ?_
        rw [hright σ hσ, hfield]
        simp [total, amount]
      · next hmany =>
        generalize hleft : (t :: ts).filter s.isVar = left at *
        split
        · next hover =>
          -- all members are known, and they do not add up
          refine .wrong fun σ hσ hwrong => ?_
          have htotal := (hright σ hσ).mp ((right_iff hheld).mp hwrong)
          rw [List.isEmpty_iff.mp hover.1] at htotal
          exact hover.2 htotal.symm
        · split
          · next hfewer => exact .reduced hheld hsub hfewer hright
          · next hall =>
            -- all members are open, and there are at least two
            have heq : left = t :: ts := hsub.eq_of_length_le (by omega)
            have hlength : 2 ≤ (t :: ts).length := by
              cases ts with
              | nil => exact absurd heq (hmany t)
              | cons u us => simp
            exact .rests (rests_of_open hs hheld hmembers
              (List.filter_eq_self.mp (hleft.trans heq)) hlength)

/-- A round over a line and others ends if the one over the others does. -/
theorem Swept.cons {run : Runner S} (hswept : Swept T D run k vs lines rest) (hk : 2 ≤ k)
    (hD : ∀ v ∈ vs, ∀ n, D v n = true → 0 ≤ n) (hline : line ∈ lines) :
    Swept T D run k vs lines (line :: rest) := by
  intro m changed hm hl
  obtain ⟨f, hf, hspec⟩ := exists_lineStep (S := S) (T := T) hD hline rest changed
  have hstep := hspec m.world.store hm hl
  rw [hf, Program.exec_withStore]
  generalize f m.world.store = p at hstep ⊢
  cases hstep with
  | wrong hwrong =>
    exact ⟨some false, m, rfl, sweeps_refuted (stays_of_eq rfl rfl rfl rfl) hline hwrong⟩
  | rests hrests =>
    obtain ⟨r, m', hexec, hsweeps⟩ := hswept m changed hm hl
    exact ⟨r, m', hexec, hsweeps.skip hrests⟩
  | forced hheld hmembers hv hright =>
    exact hswept.forced hk hm hl hline hheld hmembers hv hright
  | reduced hheld hsub hfewer hright =>
    exact hswept.reduced hk hm hl hline hheld hsub hfewer hright

/-- A round over lines ends. -/
theorem exists_sweep (run : Runner S) (hk : 2 ≤ k)
    (hD : ∀ v ∈ vs, ∀ n, D v n = true → 0 ≤ n) (hrest : ∀ line ∈ rest, line ∈ lines) :
    Swept T D run k vs lines rest := by
  induction rest with
  | nil =>
    intro m changed _ _
    refine ⟨if changed then none else some true, m, rfl, stays_of_eq rfl rfl rfl rfl,
      fun hr => ?_, fun _ => reduces_refl _, fun hr => ?_, fun hr => ?_⟩
    · cases changed <;> cases hr
    · cases changed <;> simp_all
    · cases changed <;> simp_all
  | cons line rest ih =>
    rw [List.forall_mem_cons] at hrest
    exact (ih hrest.2).cons hk hD hrest.1

end Sweeps

/-! ### Rounds -/

variable (D) in
/-- What rounds over the lines come to.  They refuse only what no assignment solves; after a
success the same assignments are left, and nothing follows from the lines any more. -/
structure Simplifies (vs lines : List Var) (m : Machine S) (b : Bool) (m' : Machine S) : Prop where
  stays : m.Stays Scope.Continues m'
  refuted : b = false → ∀ σ, ¬ Solves D vs lines m.world.store σ
  reduces : b = true → Reduces D vs lines m.world.store m'.world.store
  rests : b = true → ∀ line ∈ lines, Rests vs m'.world.store line

section Simplifies

variable {vs lines : List Var} {m m₁ m' : Machine S} {b : Bool} {k : Nat}

/-- The last round. -/
theorem Sweeps.simplifies (h : Sweeps D vs lines lines false m (some b) m') :
    Simplifies D vs lines m b m' where
  stays := h.stays
  refuted hb := h.refuted (by rw [hb])
  reduces hb := h.reduces (by simp [hb])
  rests hb := by
    obtain ⟨-, hstore, hrests⟩ := h.settled (by rw [hb])
    rw [hstore]
    exact hrests

/-- A round before others. -/
theorem Simplifies.of_sweeps (hsweeps : Sweeps D vs lines lines false m none m₁)
    (h : Simplifies D vs lines m₁ b m') : Simplifies D vs lines m b m' where
  stays := hsweeps.stays.trans h.stays
  refuted hb σ hσ := h.refuted hb σ (((hsweeps.reduces (by simp)).solves σ).mpr hσ)
  reduces hb := (hsweeps.reduces (by simp)).trans (h.reduces hb)
  rests := h.rests

/-- Rounds over the lines end: each one leaves fewer members than the one before. -/
theorem exists_simplify (run : Runner S) (hD : ∀ v ∈ vs, ∀ n, D v n = true → 0 ≤ n)
    (hm : m.world.store.Ranged T D vs) (hl : Lined vs lines m.world.store)
    (hk : weight lines m.world.store + 2 ≤ k) :
    ∃ b m', (simplify lines : Program S (Goal S) .verdict).exec T k run m = .ok b m' ∧
      Simplifies D vs lines m b m' := by
  have hrounds : ∃ b m',
      rounds ((sweep lines false : Program S (Goal S) .attempt).exec T k run) k m = .ok b m' ∧
        Simplifies D vs lines m b m' := by
    refine exists_rounds
      (I := fun (m : Machine S) => m.world.store.Ranged T D vs ∧ Lined vs lines m.world.store)
      (f := fun (m : Machine S) => weight lines m.world.store)
      (R := fun m m' => Sweeps D vs lines lines false m none m')
      (Q := fun b m m' => Simplifies D vs lines m b m')
      (fun m hm => ?_) (fun b m m₁ m' hsweeps h => h.of_sweeps hsweeps) ⟨hm, hl⟩ (by omega)
    obtain ⟨r, m', hexec, hsweeps⟩ :=
      exists_sweep run (show 2 ≤ k by omega) hD (fun _ hline => hline) m false hm.1 hm.2
    refine ⟨r, m', hexec, ?_⟩
    cases r with
    | some b => exact hsweeps.simplifies
    | none =>
      have hreduces := hsweeps.reduces (by simp)
      exact ⟨⟨hreduces.fills.ranged hm.1, hreduces.lined hm.2⟩, by simpa using hsweeps.smaller rfl,
        hsweeps⟩
  obtain ⟨b, m', hexec, h⟩ := hrounds
  exact ⟨b, m', bind_ok hexec, h⟩

end Simplifies

/-! ### Fields that hold digits -/

/-- The digits that the fields of a square may hold. -/
def digit (_ : Var) (n : Int) : Bool := 1 ≤ n ∧ n ≤ 9

/-- Updating lines comes to an end and deduces only what is forced.  It fails only if no
digits for the open fields make all lines right.  If it succeeds, the digits that make the
lines right are the same as before, and each line is empty or lists at least two fields,
all of them open.  As lines only lose members, these are different fields if the members
were different before. -/
theorem simplify_keeps_solutions (T : Theory S) {fields lines : List Var} {m : Machine S}
    (hm : m.world.store.Ranged T digit fields) (hl : Lined fields lines m.world.store) :
    ∃ k b m', (∀ n, k ≤ n → perform T n (simplify lines) m = .ok b m') ∧
      (b = false → ∀ σ, ¬ Solves digit fields lines m.world.store σ) ∧
      (b = true → Reduces digit fields lines m.world.store m'.world.store ∧
        ∀ line ∈ lines, Rests fields m'.world.store line) := by
  have hD : ∀ v ∈ fields, ∀ n, digit v n = true → 0 ≤ n := by
    intro v _ n hn
    rw [digit, decide_eq_true_eq] at hn
    omega
  let k := weight lines m.world.store + 2
  obtain ⟨b, m', hexec, h⟩ := exists_simplify (run T k) hD hm hl (Nat.le_refl k)
  refine ⟨k, b, m', fun n hn => ?_, h.refuted, fun hb => ⟨h.reduces hb, h.rests hb⟩⟩
  exact (Program.exec_below hn (run_below hn) _).ok hexec

end MagicSquare

/-- Three fields and two lines: the fields add up to fifteen, and the first one and six add
up to eight. -/
def Bounds.corner : Machine Bounds.vocabulary :=
  ⟨.new .standard, ⟨⟨#[.fresh, ⟨.ordinary (some (1, 9)), none⟩, ⟨.ordinary (some (1, 9)), none⟩,
    ⟨.ordinary (some (1, 9)), none⟩,
    ⟨.cell, some (MagicSquare.constraint [.var ⟨1⟩, .var ⟨2⟩, .var ⟨3⟩] 15)⟩,
    ⟨.cell, some (MagicSquare.constraint [.var ⟨1⟩, .int 6] 8)⟩]⟩, 0, (), []⟩, []⟩

theorem Bounds.corner_ranged :
    Bounds.corner.world.store.Ranged Bounds.theory MagicSquare.digit [⟨1⟩, ⟨2⟩, ⟨3⟩] where
  guarded := by
    simp only [List.forall_mem_cons]
    exact ⟨⟨_, rfl, fun n => rfl⟩, ⟨_, rfl, fun n => rfl⟩, ⟨_, rfl, fun n => rfl⟩, by simp⟩
  held v hv t ht := by
    have hnone : ∀ v ∈ ([⟨1⟩, ⟨2⟩, ⟨3⟩] : List Var),
        Bounds.corner.world.store.binding v = none := by
      simp only [List.forall_mem_cons]
      exact ⟨rfl, rfl, rfl, by simp⟩
    rw [hnone v hv] at ht
    cases ht

theorem Bounds.corner_lined :
    MagicSquare.Lined [⟨1⟩, ⟨2⟩, ⟨3⟩] [⟨4⟩, ⟨5⟩] Bounds.corner.world.store where
  cells := by decide
  held := by
    simp only [List.forall_mem_cons]
    refine ⟨⟨_, _, rfl, ?_⟩, ⟨_, _, rfl, ?_⟩, by simp⟩
    · simp [MagicSquare.Member]
    · simp [MagicSquare.Member]

/-- The first field is given two, and the others are left with thirteen. -/
theorem MagicSquare.simplify_keeps_solutions_corner :
    ∃ k m', perform Bounds.theory k (simplify [⟨4⟩, ⟨5⟩]) Bounds.corner = .ok true m' ∧
      Solves digit [⟨1⟩, ⟨2⟩, ⟨3⟩] [⟨4⟩, ⟨5⟩] m'.world.store (fun v => [0, 2, 6, 7].getD v.id 0) ∧
      ∀ line ∈ [⟨4⟩, ⟨5⟩], Rests [⟨1⟩, ⟨2⟩, ⟨3⟩] m'.world.store line := by
  obtain ⟨k, b, m', hperform, hrefuted, hkept⟩ :=
    simplify_keeps_solutions Bounds.theory Bounds.corner_ranged Bounds.corner_lined
  have hsolves : Solves digit [⟨1⟩, ⟨2⟩, ⟨3⟩] [⟨4⟩, ⟨5⟩] Bounds.corner.world.store
      (fun v => [0, 2, 6, 7].getD v.id 0) := by
    refine ⟨show ∀ v ∈ _, _ from by decide, ?_⟩
    simp only [List.forall_mem_cons]
    exact ⟨⟨_, _, rfl, by decide⟩, ⟨_, _, rfl, by decide⟩, by simp⟩
  cases b with
  | false => exact absurd hsolves (hrefuted rfl _)
  | true =>
    obtain ⟨hreduces, hrests⟩ := hkept rfl
    exact ⟨k, m', hperform k (Nat.le_refl k), (hreduces.solves _).mpr hsolves, hrests⟩

end GoalSearch
