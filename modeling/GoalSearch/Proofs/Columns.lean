/-
Deductions from the columns of a sum.

A round over the columns gives integers to those variables whose values follow from the
others, and rounds are repeated until nothing changes.  No assignment that makes all
columns right is lost on the way; and once all variables are bound, the assignment that
is left makes them right.

* `DigitSum.Column.Right`, `DigitSum.Solves` — right columns, and assignments that solve
  a puzzle;
* `DigitSum.exists_sweep` — what one round does;
* `DigitSum.exists_rounds_sweep`, `DigitSum.exists_propagate` — rounds end, and what they
  come to.

Design notes: a round with no verdict has left fewer variables open, so there are at most
as many rounds as open variables, and one more.  A variable may occur in several columns,
and more than once in the same column.
-/
import GoalSearch.Proofs.Ranges

namespace GoalSearch

open GoalSearch.Action Machine

variable {S : Vocabulary} {T : Theory S} {D : Var → Int → Bool}

/-! ### Columns of digits -/

namespace Store

variable {s : Store S} {vs us : List Var} {σ : Var → Int}

/-- In a store of integers a variable is known or open. -/
theorem Fits.known_or_open (hσ : s.Fits D vs σ) (hs : s.Ranged T D vs) {v : Var} (hv : v ∈ vs) :
    s.int? (.var v) = some (σ v) ∧ s.isUnbound v = false ∨
      s.int? (.var v) = none ∧ s.isUnbound v = true := by
  cases hn : s.int? (.var v) with
  | none => exact .inr ⟨rfl, (hs.int?_eq_none hv).mp hn⟩
  | some n => exact .inl ⟨by rw [hσ.int?_eq hv hn], hs.isUnbound_eq_false hv hn⟩

/-- The sum of some variables is the sum of the known digits and of what the open ones stand
for. -/
theorem Fits.total_eq (hσ : s.Fits D vs σ) (hs : s.Ranged T D vs) (hus : ∀ u ∈ us, u ∈ vs) :
    total (us.map σ) = total (s.digits us) + total ((us.filter s.isUnbound).map σ) :=
  total_map_eq fun u hu => hσ.known_or_open hs (hus u hu)

/-- The known digits are what the variables that are not open stand for. -/
theorem Fits.digits_eq_map_filter (hσ : s.Fits D vs σ) (hs : s.Ranged T D vs)
    (hus : ∀ u ∈ us, u ∈ vs) : s.digits us = (us.filter fun u => !s.isUnbound u).map σ := by
  induction us with
  | nil => rfl
  | cons u us ih =>
    rw [List.forall_mem_cons] at hus
    rcases hσ.known_or_open hs hus.1 with ⟨hn, hclosed⟩ | ⟨hn, hopen⟩
    · have hcons : s.digits (u :: us) = σ u :: s.digits us :=
        List.filterMap_cons_some (f := fun v => s.int? (.var v)) hn
      rw [hcons, ih hus.2, List.filter_cons_of_pos (by simp [hclosed]), List.map_cons]
    · have hcons : s.digits (u :: us) = s.digits us :=
        List.filterMap_cons_none (f := fun v => s.int? (.var v)) hn
      rw [hcons, ih hus.2, List.filter_cons_of_neg (by simp [hopen])]

theorem Fits.digits_eq (hσ : s.Fits D vs σ) (hs : s.Ranged T D vs) (hus : ∀ u ∈ us, u ∈ vs)
    (hclosed : ∀ u ∈ us, s.isUnbound u = false) : s.digits us = us.map σ := by
  rw [hσ.digits_eq_map_filter hs hus, List.filter_eq_self.mpr fun u hu => by simp [hclosed u hu]]

/-- The known digits are some of the digits. -/
theorem Fits.digits_sublist (hσ : s.Fits D vs σ) (hs : s.Ranged T D vs)
    (hus : ∀ u ∈ us, u ∈ vs) : (s.digits us).Sublist (us.map σ) := by
  rw [hσ.digits_eq_map_filter hs hus]
  exact List.filter_sublist.map σ

end Store

namespace DigitSum

namespace Column

/-- The digits above the line add up to the digit below it plus ten times the carry. -/
def Right (σ : Var → Int) (c : Column) : Prop :=
  total (c.above.map σ) = σ c.below + 10 * σ c.carry

instance (σ : Var → Int) (c : Column) : Decidable (c.Right σ) :=
  inferInstanceAs (Decidable (_ = _))

/-- The variables of the column are among the given ones. -/
structure Over (vs : List Var) (c : Column) : Prop where
  above : ∀ v ∈ c.above, v ∈ vs
  below : c.below ∈ vs
  carry : c.carry ∈ vs

variable (D) in
/-- If all digits above the line are known, the column is right. -/
def Checked (vs : List Var) (s : Store S) (c : Column) : Prop :=
  (∀ v ∈ c.above, s.isUnbound v = false) → ∀ σ, s.Fits D vs σ → c.Right σ

variable {vs : List Var} {s : Store S} {c : Column} {σ : Var → Int}

/-- With all digits above the line known, the digit below and the carry are what their sum
says. -/
theorem right_iff_of_known (hσ : s.Fits D vs σ) (hs : s.Ranged T D vs) (hc : c.Over vs)
    (hknown : c.above.filter s.isUnbound = []) :
    c.Right σ ↔ total (s.digits c.above) = σ c.below + 10 * σ c.carry := by
  rw [Right, hσ.total_eq hs hc.above, hknown]
  show total _ + 0 = _ ↔ _
  rw [Int.add_zero]

/-- The only open digit above the line is what is missing to the sum. -/
theorem right_iff_of_last (hσ : s.Fits D vs σ) (hs : s.Ranged T D vs) (hc : c.Over vs) {last : Var}
    (hlast : c.above.filter s.isUnbound = [last]) :
    c.Right σ ↔ σ last = σ c.below + 10 * σ c.carry - total (s.digits c.above) := by
  rw [Right, hσ.total_eq hs hc.above, hlast]
  show _ + (σ last + 0) = _ ↔ _
  omega

/-- Digits make such a column right exactly if they are what the sum says. -/
theorem right_iff_forall_of_known (hσ : s.Fits D vs σ) (hs : s.Ranged T D vs) (hc : c.Over vs)
    (hknown : c.above.filter s.isUnbound = []) (hbelow : 0 ≤ σ c.below ∧ σ c.below ≤ 9) :
    c.Right σ ↔ ∀ e ∈ [(c.below, total (s.digits c.above) % 10),
      (c.carry, total (s.digits c.above) / 10)], σ e.1 = e.2 := by
  rw [right_iff_of_known hσ hs hc hknown]
  simp only [List.forall_mem_cons, List.not_mem_nil, false_imp_iff, implies_true, and_true]
  omega

theorem checked_of_open {v : Var} (hv : v ∈ c.above) (hopen : s.isUnbound v = true) :
    c.Checked D vs s := by
  intro hclosed
  rw [hclosed v hv] at hopen
  cases hopen

end Column

/-! ### One round -/

/-- A digit for each variable. -/
def Digital (vs : List Var) (σ : Var → Int) : Prop := ∀ v ∈ vs, 0 ≤ σ v ∧ σ v ≤ 9

variable (D) in
/-- What a round over columns comes to.  It loses no assignment of digits that makes the
columns right, and refuses none.  Without a verdict it leaves fewer variables open, unless
there was progress before; with a positive one it has changed nothing, and the columns
are checked. -/
structure Sweeps (vs : List Var) (cs : List Column) (progress : Bool) (m : Machine S)
    (r : Option Bool) (m' : Machine S) : Prop where
  stays : m.Stays Scope.Continues m'
  fills : m.world.store.Fills D vs [] m'.world.store
  complete : ∀ σ, m.world.store.Fits D vs σ → Digital vs σ → (∀ c ∈ cs, c.Right σ) →
    r ≠ some false ∧ m'.world.store.Fits D vs σ
  smaller : r = none → progress = true ∨
    vs.countP m'.world.store.isUnbound < vs.countP m.world.store.isUnbound
  settled : r = some true → progress = false ∧ m'.world.store = m.world.store ∧
    ∀ c ∈ cs, c.Checked D vs m.world.store

section Sweeps

variable {vs : List Var} {c : Column} {cs : List Column} {es : List (Var × Int)}
  {progress progress' : Bool} {m m₁ m' : Machine S} {r : Option Bool}

/-- A column that says nothing yet. -/
theorem Sweeps.skip (h : Sweeps D vs cs progress m r m')
    (hc : c.Checked D vs m.world.store) : Sweeps D vs (c :: cs) progress m r m' where
  stays := h.stays
  fills := h.fills
  complete σ hσ hdigits hright := h.complete σ hσ hdigits (List.forall_mem_cons.mp hright).2
  smaller := h.smaller
  settled hr := by
    obtain ⟨hprogress, hstore, hchecked⟩ := h.settled hr
    exact ⟨hprogress, hstore, List.forall_mem_cons.mpr ⟨hc, hchecked⟩⟩

/-- A column whose deductions are refused. -/
theorem Sweeps.refused (htakes : m.Takes D vs es false m₁)
    (hforced : ∀ σ, m.world.store.Fits D vs σ → Digital vs σ → c.Right σ →
      ∀ e ∈ es, σ e.1 = e.2) : Sweeps D vs (c :: cs) progress m (some false) m₁ where
  stays := htakes.stays
  fills := htakes.fills
  complete σ hσ hdigits hright := by
    obtain ⟨e, he, hne⟩ := htakes.refused rfl σ hσ
    exact absurd (hforced σ hσ hdigits (List.forall_mem_cons.mp hright).1 e he) hne
  smaller hr := nomatch hr
  settled hr := nomatch hr

/-- A column from which something is deduced, and the columns after it.  There is progress
exactly if one of the variables was open. -/
theorem Sweeps.deduced (hm : m.world.store.Ranged T D vs) (hes : ∀ e ∈ es, e.1 ∈ vs)
    (htakes : m.Takes D vs es true m₁) (h : Sweeps D vs cs progress' m₁ r m')
    (hforced : ∀ σ, m.world.store.Fits D vs σ → Digital vs σ → c.Right σ →
      ∀ e ∈ es, σ e.1 = e.2)
    (hprogress : progress' = true ↔
      progress = true ∨ ∃ e ∈ es, m.world.store.isUnbound e.1 = true)
    (hchecked : c.Checked D vs m₁.world.store) :
    Sweeps D vs (c :: cs) progress m r m' where
  stays := htakes.stays.trans h.stays
  fills := htakes.fills.trans h.fills
  complete σ hσ hdigits hright := by
    rw [List.forall_mem_cons] at hright
    have hkept := (htakes.kept rfl σ).mpr ⟨hσ, hforced σ hσ hdigits hright.1⟩
    exact h.complete σ hkept hdigits hright.2
  smaller hr := by
    have hm₁ := htakes.fills.ranged hm
    have hfirst := htakes.fills.countP_le hm
    have hrest := h.fills.countP_le hm₁
    -- A variable of this column was open and is closed now, or the other columns made progress.
    rcases h.smaller hr with hprogress' | hless
    · rcases hprogress.mp hprogress' with hbefore | ⟨e, he, hopen⟩
      · exact .inl hbefore
      · have hclosed := hm₁.isUnbound_eq_false (hes e he) (htakes.holds rfl e he)
        have hless := htakes.fills.countP_lt hm (hes e he) hopen hclosed
        exact .inr (by omega)
    · exact .inr (by omega)
  settled hr := by
    obtain ⟨hnone, hstore, hcs⟩ := h.settled hr
    have hquiet : ¬ (progress = true ∨ ∃ e ∈ es, m.world.store.isUnbound e.1 = true) := by
      rw [← hprogress, hnone]
      simp
    rw [not_or, Bool.not_eq_true] at hquiet
    -- Nothing was open here, so what was taken changed no slot.
    have hsame : m₁.world.store = m.world.store :=
      htakes.same fun e he => Bool.not_eq_true _ ▸ fun hopen => hquiet.2 ⟨e, he, hopen⟩
    rw [hsame] at hstore hchecked hcs
    exact ⟨hquiet.1, hstore, List.forall_mem_cons.mpr ⟨hchecked, hcs⟩⟩

variable {k : Nat}

/-- A round goes on from what a column says, if that is not refused. -/
theorem exists_sweeps_orFail {run : Runner S} {deduce : Program S (Goal S) .verdict}
    {rest : Program S (Goal S) .attempt} (hm : m.world.store.Ranged T D vs)
    (hes : ∀ e ∈ es, e.1 ∈ vs)
    (hdeduce : ∃ b m₁, deduce.exec T k run m = .ok b m₁ ∧ m.Takes D vs es b m₁)
    (hrest : ∀ m₁ : Machine S, m₁.world.store.Ranged T D vs →
      ∃ r m', rest.exec T k run m₁ = .ok r m' ∧ Sweeps D vs cs progress' m₁ r m')
    (hforced : ∀ σ, m.world.store.Fits D vs σ → Digital vs σ → c.Right σ →
      ∀ e ∈ es, σ e.1 = e.2)
    (hright : ∀ σ, m.world.store.Fits D vs σ → (∀ e ∈ es, σ e.1 = e.2) → c.Right σ)
    (hprogress : progress' = true ↔
      progress = true ∨ ∃ e ∈ es, m.world.store.isUnbound e.1 = true) :
    ∃ r m', (orFail deduce rest).exec T k run m = .ok r m' ∧
      Sweeps D vs (c :: cs) progress m r m' := by
  obtain ⟨b, m₁, hexec, htakes⟩ := hdeduce
  rw [exec_orFail hexec]
  cases b with
  | false => exact ⟨some false, m₁, rfl, .refused htakes hforced⟩
  | true =>
    obtain ⟨r, m', hexec', hsweeps⟩ := hrest m₁ (htakes.fills.ranged hm)
    refine ⟨r, m', hexec', .deduced hm hes htakes hsweeps hforced hprogress fun _ σ hσ => ?_⟩
    obtain ⟨hσ, heq⟩ := (htakes.kept rfl σ).mp hσ
    exact hright σ hσ heq

/-- A round over columns ends. -/
theorem exists_sweep (run : Runner S) (hk : 2 ≤ k) (hm : m.world.store.Ranged T D vs)
    (hcs : ∀ c ∈ cs, c.Over vs) (progress : Bool) :
    ∃ r m', (sweep cs progress : Program S (Goal S) .attempt).exec T k run m = .ok r m' ∧
      Sweeps D vs cs progress m r m' := by
  induction cs generalizing progress m with
  | nil =>
    refine ⟨if progress then none else some true, m, rfl, stays_of_eq rfl rfl rfl rfl,
      Store.fills_refl _, fun σ hσ _ _ => ⟨?_, hσ⟩, fun hr => ?_, fun hr => ?_⟩
    · cases progress <;> simp
    · cases progress <;> simp_all
    · cases progress <;> simp_all
  | cons c cs ih =>
    rw [List.forall_mem_cons] at hcs
    obtain ⟨hc, hcs⟩ := hcs
    have hskip : c.Checked D vs m.world.store →
        ∃ r m', (sweep cs progress : Program S (Goal S) .attempt).exec T k run m = .ok r m' ∧
          Sweeps D vs (c :: cs) progress m r m' := by
      intro hchecked
      obtain ⟨r, m', hrest, hsweeps⟩ := ih hm hcs progress
      exact ⟨r, m', hrest, hsweeps.skip hchecked⟩
    rw [sweep, Program.exec_withStore]
    dsimp only
    -- how many digits above the line are open decides what the column says
    split
    · next hknown =>
      -- the sum above the line is known
      refine exists_sweeps_orFail hm (by simp [hc.below, hc.carry])
        (exists_takes_andThen hm (by simpa using hc.below) (exists_takes run hk hm hc.below _)
          fun m₁ hm₁ => exists_takes run hk hm₁ hc.carry _)
        (fun m₁ hm₁ => ih hm₁ hcs _) (fun σ hσ hdigits => ?_) (fun σ hσ heq => ?_) (by simp)
      · exact (Column.right_iff_forall_of_known hσ hm hc hknown (hdigits c.below hc.below)).mp
      · refine (Column.right_iff_forall_of_known hσ hm hc hknown ?_).mpr heq
        rw [heq (c.below, _) (List.mem_append_left _ (List.mem_singleton_self _))]
        dsimp only
        omega
    · next last hlast =>
      have hmem : last ∈ c.above.filter m.world.store.isUnbound := by rw [hlast]; simp
      obtain ⟨habove, hopen⟩ := List.mem_filter.mp hmem
      split
      · next below carry hbelow hcarry =>
        -- what is missing to the sum is known
        have hright : ∀ σ, m.world.store.Fits D vs σ → (c.Right σ ↔
            ∀ e ∈ [(last, below + 10 * carry - total (m.world.store.digits c.above))],
              σ e.1 = e.2) := by
          intro σ hσ
          rw [Column.right_iff_of_last hσ hm hc hlast, hσ.int?_eq hc.below hbelow,
            hσ.int?_eq hc.carry hcarry, List.forall_mem_singleton]
        have hlastmem := hc.above last habove
        exact exists_sweeps_orFail hm (by simpa using hlastmem)
          (exists_takes run hk hm hlastmem _) (fun m₁ hm₁ => ih hm₁ hcs true)
          (fun σ hσ _ => (hright σ hσ).mp) (fun σ hσ => (hright σ hσ).mpr)
          (by simpa using .inr hopen)
      · exact hskip (Column.checked_of_open habove hopen)
    · next hnil hsingle =>
      obtain ⟨v, hv⟩ := List.exists_mem_of_ne_nil _ hnil
      obtain ⟨habove, hopen⟩ := List.mem_filter.mp hv
      exact hskip (Column.checked_of_open habove hopen)

end Sweeps

/-! ### Rounds -/

/-- All variables of a puzzle, in the order in which they are decided. -/
def vars (p : DigitSum) : List Var := p.letters ++ p.carries

variable (D) in
/-- An assignment solves a puzzle: every variable stands for an integer in its range, the
letters for different ones, and every column is right. -/
structure Solves (p : DigitSum) (σ : Var → Int) : Prop where
  ranges : ∀ v ∈ p.vars, D v (σ v) = true
  letters : (p.letters.map σ).Nodup
  columns : ∀ c ∈ p.columns, c.Right σ

variable (D) in
/-- A puzzle: the columns are about letters and carries, all of these are different, a
letter stands for a digit, and a carry for zero, one or two. -/
structure Formed (p : DigitSum) : Prop where
  different : p.vars.Nodup
  columns : ∀ c ∈ p.columns, c.Over p.vars
  letters : ∀ v ∈ p.letters, ∀ n, D v n = true → 0 ≤ n ∧ n ≤ 9
  carries : ∀ v ∈ p.carries, ∀ n, D v n = true → 0 ≤ n ∧ n ≤ 2

variable (D) in
/-- What rounds over the columns come to.  They lose no solution, and after a success the
columns are checked. -/
structure Deduces (p : DigitSum) (m : Machine S) (b : Bool) (m' : Machine S) : Prop where
  stays : m.Stays Scope.Continues m'
  fills : m.world.store.Fills D p.vars [] m'.world.store
  complete : ∀ σ, m.world.store.Fits D p.vars σ → p.Solves D σ →
    b = true ∧ m'.world.store.Fits D p.vars σ
  checked : b = true → ∀ c ∈ p.columns, c.Checked D p.vars m'.world.store

variable (D) in
/-- What deductions come to.  They lose no solution, and where they leave no variable open
after a success, all assignments in the ranges that are left are solutions. -/
structure Propagates (p : DigitSum) (m : Machine S) (b : Bool) (m' : Machine S) : Prop where
  stays : m.Stays Scope.Continues m'
  fills : m.world.store.Fills D p.vars [] m'.world.store
  complete : ∀ σ, m.world.store.Fits D p.vars σ → p.Solves D σ →
    b = true ∧ m'.world.store.Fits D p.vars σ
  sound : b = true → (∀ v ∈ p.vars, m'.world.store.isUnbound v = false) →
    ∀ σ, m'.world.store.Fits D p.vars σ → (∀ v ∈ p.vars, D v (σ v) = true) → p.Solves D σ

section Propagates

variable {p : DigitSum} {m m₁ m' : Machine S} {b : Bool} {r : Option Bool} {k : Nat}

theorem mem_vars_of_letters {v : Var} (hv : v ∈ p.letters) : v ∈ p.vars :=
  List.mem_append_left _ hv

theorem Formed.digital (hp : p.Formed D) {σ : Var → Int} (hσ : ∀ v ∈ p.vars, D v (σ v) = true) :
    Digital p.vars σ := by
  intro v hv
  rcases List.mem_append.mp hv with hletter | hcarry
  · exact hp.letters v hletter _ (hσ v hv)
  · have hrange := hp.carries v hcarry _ (hσ v hv)
    omega

/-- The last round. -/
theorem Sweeps.deduces (hp : p.Formed D)
    (h : Sweeps D p.vars p.columns false m (some b) m') : p.Deduces D m b m' where
  stays := h.stays
  fills := h.fills
  complete σ hσ hsolves := by
    simpa using h.complete σ hσ (hp.digital hsolves.ranges) hsolves.columns
  checked hb c hc := by
    subst hb
    obtain ⟨-, hstore, hchecked⟩ := h.settled rfl
    rw [hstore]
    exact hchecked c hc

/-- A round before others. -/
theorem Deduces.of_sweeps (hp : p.Formed D) (hsweeps : Sweeps D p.vars p.columns false m none m₁)
    (h : p.Deduces D m₁ b m') : p.Deduces D m b m' where
  stays := hsweeps.stays.trans h.stays
  fills := hsweeps.fills.trans h.fills
  complete σ hσ hsolves := by
    obtain ⟨-, hσ₁⟩ := hsweeps.complete σ hσ (hp.digital hsolves.ranges) hsolves.columns
    exact h.complete σ hσ₁ hsolves
  checked := h.checked

/-- There are no more rounds than open variables, and one more. -/
theorem exists_rounds_sweep (run : Runner S) (hp : p.Formed D)
    (hm : m.world.store.Ranged T D p.vars)
    (hk : p.vars.length + 2 ≤ k) :
    ∃ b m', rounds ((sweep p.columns false : Program S (Goal S) .attempt).exec T k run) k m =
      .ok b m' ∧ p.Deduces D m b m' := by
  have hfuel : p.vars.countP m.world.store.isUnbound < k := by
    have hle : p.vars.countP m.world.store.isUnbound ≤ p.vars.length := List.countP_le_length
    omega
  refine exists_rounds (I := fun (m : Machine S) => m.world.store.Ranged T D p.vars)
    (f := fun (m : Machine S) => p.vars.countP m.world.store.isUnbound)
    (R := fun m m' => Sweeps D p.vars p.columns false m none m')
    (Q := fun b m m' => p.Deduces D m b m')
    (fun m hm => ?_) (fun b m m₁ m' hsweeps h => h.of_sweeps hp hsweeps) hm hfuel
  obtain ⟨r, m', hexec, hsweeps⟩ := exists_sweep run (show 2 ≤ k by omega) hm
    hp.columns false
  refine ⟨r, m', hexec, ?_⟩
  cases r with
  | none => exact ⟨hsweeps.fills.ranged hm, by simpa using hsweeps.smaller rfl, hsweeps⟩
  | some b => exact hsweeps.deduces hp

/-- Deductions end. -/
theorem exists_propagate (run : Runner S) (hp : p.Formed D) (hm : m.world.store.Ranged T D p.vars)
    (hk : p.vars.length + 2 ≤ k) :
    ∃ b m', (p.propagate : Program S (Goal S) .verdict).exec T k run m = .ok b m' ∧
      p.Propagates D m b m' := by
  obtain ⟨b, m', hexec, h⟩ := exists_rounds_sweep run hp hm hk
  have hm' := h.fills.ranged hm
  rw [propagate, Program.exec, bind_ok hexec]
  cases b with
  | false => exact ⟨false, m', rfl, h.stays, h.fills, h.complete, fun hb => nomatch hb⟩
  | true =>
    -- the letters are compared now
    refine ⟨_, m', (Program.exec_withStore _ m').trans rfl, h.stays, h.fills, ?_, ?_⟩
    · intro σ hσ hsolves
      obtain ⟨-, hσ'⟩ := h.complete σ hσ hsolves
      have hsome : (m'.world.store.digits p.letters).Sublist (p.letters.map σ) :=
        hσ'.digits_sublist hm' fun v => mem_vars_of_letters
      exact ⟨decide_eq_true (hsolves.letters.sublist hsome), hσ'⟩
    · intro hb hclosed σ hσ hranges
      refine ⟨hranges, ?_, fun c hc => ?_⟩
      · rw [← hσ.digits_eq hm' (fun v => mem_vars_of_letters)
          fun v hv => hclosed v (mem_vars_of_letters hv)]
        exact of_decide_eq_true hb
      · exact h.checked rfl c hc (fun v hv => hclosed v ((hp.columns c hc).above v hv)) σ hσ

end Propagates

end DigitSum

end GoalSearch
