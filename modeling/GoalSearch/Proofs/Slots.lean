/-
Stores with the same slots, and chains of bindings that end.

Two stores are equivalent (`≈`) if every variable has the same slot in both;
they may still differ in how much room they have made.  Reading a variable
cannot tell equivalent stores apart, and following a chain cannot as long as no
chain closes.

* `Store.set_binding`, `Store.set_set` — a saved slot that is put back;
* `Store.step?_deref` — dereferencing reaches the end of a chain that ends;
* `Store.deref_congr` — equivalent stores dereference alike;
* `Store.ChainsEnd.set` — filling an empty slot with a term that does not lead
  back to it closes no chain.
-/
import GoalSearch.Store
import Mathlib.Data.Finset.Card
import Mathlib.Logic.Relation
import Mathlib.Order.WellFounded

namespace GoalSearch

variable {S : Vocabulary}

/-- A relation stays well founded when new pairs lead down from a single
element to elements that do not lead back to it. -/
theorem wellFounded_of_new_pairs {α : Type} {r r' : α → α → Prop} (h : WellFounded r) (a : α)
    (hr : ∀ x y, r' y x → r y x ∨ x = a)
    (ha : ∀ y, r' y a → ¬ Relation.ReflTransGen r a y) : WellFounded r' := by
  have hapart : ∀ x, ¬ Relation.ReflTransGen r a x → Acc r' x := by
    intro x
    induction x using h.induction with
    | _ x ih =>
      intro hx
      refine Acc.intro x fun y hy => ?_
      rcases hr x y hy with hyx | rfl
      · exact ih y hyx fun hay => hx (hay.tail hyx)
      · exact absurd .refl hx
  have hacc : Acc r' a := Acc.intro a fun y hy => hapart y (ha y hy)
  refine ⟨fun x => ?_⟩
  induction x using h.induction with
  | _ x ih =>
    refine Acc.intro x fun y hy => ?_
    rcases hr x y hy with hyx | rfl
    · exact ih y hyx
    · exact hacc.inv hy

namespace Store

/-! ### Stores with the same slots -/

instance : Setoid (Store S) where
  r s t := ∀ v, s.get v = t.get v
  iseqv :=
    { refl := fun _ _ => rfl
      symm := fun h v => (h v).symm
      trans := fun h h' v => (h v).trans (h' v) }

variable {s t : Store S}

theorem equiv_of_eq (h : s = t) : s ≈ t := fun v => by rw [h]

theorem binding_congr (h : s ≈ t) (v : Var) : s.binding v = t.binding v := by
  rw [binding, binding, h v]

theorem guard?_congr (h : s ≈ t) (v : Var) : s.guard? v = t.guard? v := by
  rw [guard?, guard?, h v]

theorem isCell_congr (h : s ≈ t) (v : Var) : s.isCell v = t.isCell v := by
  rw [isCell, isCell, h v]

theorem isBound_congr (h : s ≈ t) (v : Var) : s.isBound v = t.isBound v := by
  rw [isBound, isBound, isCell_congr h, binding_congr h]

theorem step?_congr (h : s ≈ t) (a : S.Term) : s.step? a = t.step? a := by
  cases a with
  | var v => rw [step?, step?, isCell_congr h, binding_congr h]
  | _ => rfl

theorem set_congr (h : s ≈ t) (v : Var) (value : Option S.Term) :
    s.set v value ≈ t.set v value := by
  intro w
  rw [get_set, get_set, h v, h w]

theorem set_set (s : Store S) (v : Var) (value value' : Option S.Term) :
    (s.set v value).set v value' ≈ s.set v value' := by
  intro w
  by_cases hvw : v = w
  · subst hvw
    simp [get_set]
  · simp [get_set, hvw]

theorem set_binding (s : Store S) (v : Var) : s.set v (s.binding v) ≈ s := by
  intro w
  rw [get_set]
  split
  · next h =>
    subst h
    rfl
  · rfl

theorem role_set (s : Store S) (v w : Var) (value : Option S.Term) :
    ((s.set v value).get w).role = (s.get w).role := by
  rw [get_set]
  split
  · next h => rw [← h]
  · rfl

theorem isCell_set (s : Store S) (v w : Var) (value : Option S.Term) :
    (s.set v value).isCell w = s.isCell w := by
  rw [isCell, isCell, get_set]
  by_cases hvw : v = w
  · subst hvw
    simp
  · simp [hvw]

theorem guard?_set (s : Store S) (v w : Var) (value : Option S.Term) :
    (s.set v value).guard? w = s.guard? w := by
  rw [guard?, guard?, get_set]
  by_cases hvw : v = w
  · subst hvw
    simp
  · simp [hvw]

theorem isBound_eq_true {v : Var} :
    s.isBound v = true ↔ s.isCell v = false ∧ ∃ a, s.binding v = some a := by
  simp [isBound, Option.isSome_iff_exists]

theorem isUnbound_eq_true {v : Var} :
    s.isUnbound v = true ↔ s.isCell v = false ∧ s.binding v = none := by
  simp [isUnbound]

theorem isBound_of_isUnbound {v : Var} (hv : s.isUnbound v = true) : s.isBound v = false := by
  obtain ⟨-, hbinding⟩ := isUnbound_eq_true.mp hv
  simp [isBound, hbinding]

theorem isUnbound_of_not_isBound {v : Var} (hcell : s.isCell v = false)
    (hbound : s.isBound v = false) : s.isUnbound v = true := by
  simpa [isUnbound, isBound, hcell] using hbound

theorem binding_of_not_isBound {v : Var} (hcell : s.isCell v = false)
    (hbound : s.isBound v = false) : s.binding v = none :=
  (isUnbound_eq_true.mp (isUnbound_of_not_isBound hcell hbound)).2

/-- Cells have no guards. -/
theorem guard?_of_isCell {v : Var} (h : s.isCell v = true) : s.guard? v = none := by
  rw [isCell] at h
  rw [guard?]
  cases hrole : (s.get v).role with
  | ordinary guard =>
    rw [hrole] at h
    cases h
  | cell => rfl

/-- Only ordinary variables are restricted. -/
theorem isCell_of_isRestricted {v : Var} (h : s.isRestricted v = true) : s.isCell v = false := by
  by_contra hcell
  rw [isRestricted, guard?_of_isCell (by simpa using hcell)] at h
  cases h

/-! ### Chains of bindings -/

/-- No chain of bindings closes: following one always comes to an end. -/
def ChainsEnd (s : Store S) : Prop := WellFounded fun b a => s.step? a = some b

theorem ChainsEnd.congr (hs : s.ChainsEnd) (h : s ≈ t) : t.ChainsEnd :=
  WellFounded.mono hs fun _ a hab => (step?_congr h a).trans hab

theorem step?_eq_some {a b : S.Term} :
    s.step? a = some b ↔ ∃ v, a = .var v ∧ s.isCell v = false ∧ s.binding v = some b := by
  cases a with
  | var v => by_cases hv : s.isCell v = true <;> simp [step?, hv]
  | _ => simp [step?]

theorem step?_of_not_isBound {v : Var} (hv : s.isBound v = false) : s.step? (.var v) = none := by
  by_contra hne
  obtain ⟨a, ha⟩ := Option.ne_none_iff_exists'.mp hne
  obtain ⟨w, hw, hcell, hbinding⟩ := step?_eq_some.mp ha
  cases hw
  rw [binding_of_not_isBound hcell hv] at hbinding
  cases hbinding

/-- If only cells hold something, chains of bindings end. -/
theorem chainsEnd_of_isCell (h : ∀ v, (s.binding v).isSome = true → s.isCell v = true) :
    s.ChainsEnd := by
  refine ⟨fun a => ⟨a, fun b hb => ?_⟩⟩
  obtain ⟨v, rfl, hcell, hbinding⟩ := step?_eq_some.mp hb
  rw [h v (by rw [hbinding]; rfl)] at hcell
  cases hcell

/-- If no variable is bound, chains of bindings end. -/
theorem chainsEnd_of_not_isBound (h : ∀ v, s.isBound v = false) : s.ChainsEnd := by
  refine chainsEnd_of_isCell fun v hv => ?_
  by_contra hcell
  rw [binding_of_not_isBound (by simpa using hcell) (h v)] at hv
  cases hv

theorem follow_of_step?_eq_some {a b : S.Term} (h : s.step? a = some b) (n : Nat) :
    s.follow (n + 1) a = s.follow n b := by
  rw [follow, h]

/-- The end of a chain is reached along the chain. -/
theorem reaches_deref (s : Store S) (a : S.Term) :
    Relation.ReflTransGen (fun x y => s.step? x = some y) a (s.deref a) := by
  have hfollow : ∀ n a, Relation.ReflTransGen (fun x y => s.step? x = some y) a (s.follow n a) := by
    intro n
    induction n with
    | zero => exact fun _ => .refl
    | succ n ih =>
      intro a
      cases hstep : s.step? a with
      | none => rw [follow_of_step?_eq_none hstep]
      | some b =>
        rw [follow_of_step?_eq_some hstep]
        exact .head hstep (ih b)
  exact hfollow _ a

/-- What holds of the start of a chain, and of the value of every variable that it holds
of, holds of the end. -/
theorem deref_mem {A : S.Term → Prop} (hA : ∀ v a, A (.var v) → s.binding v = some a → A a)
    {t : S.Term} (ht : A t) : A (s.deref t) := by
  have hreach := reaches_deref s t
  generalize s.deref t = a at hreach ⊢
  induction hreach with
  | refl => exact ht
  | tail _ hstep ih =>
    obtain ⟨v, rfl, -, hbinding⟩ := step?_eq_some.mp hstep
    exact hA v _ ih hbinding

theorem follow_congr (h : s ≈ t) (n : Nat) (a : S.Term) : s.follow n a = t.follow n a := by
  induction n generalizing a with
  | zero => rfl
  | succ n ih =>
    rw [follow, follow, step?_congr h]
    cases t.step? a with
    | none => rfl
    | some b => exact ih b

/-- Once the end of a chain is reached, following it further changes nothing. -/
theorem follow_eq_of_le {a : S.Term} {m n : Nat} (hend : s.step? (s.follow m a) = none)
    (hmn : m ≤ n) : s.follow n a = s.follow m a := by
  induction m generalizing a n with
  | zero => exact follow_of_step?_eq_none hend n
  | succ m ih =>
    obtain ⟨n, rfl⟩ : ∃ k, n = k + 1 := ⟨n - 1, by omega⟩
    cases ha : s.step? a with
    | none => rw [follow_of_step?_eq_none ha, follow_of_step?_eq_none ha]
    | some b =>
      rw [follow_of_step?_eq_some ha] at hend ⊢
      rw [follow_of_step?_eq_some ha]
      exact ih hend (by omega)

/-- The chain from a term ends within as many bindings as there are bound
variables on it. -/
theorem step?_follow (hs : s.ChainsEnd) (n : Nat) (F : Finset Var) (hn : F.card ≤ n)
    (a : S.Term)
    (hF : ∀ v, Relation.ReflTransGen (fun x y => s.step? x = some y) a (.var v) →
      (s.step? (.var v)).isSome → v ∈ F) :
    s.step? (s.follow n a) = none := by
  induction n generalizing F a with
  | zero =>
    by_contra hne
    obtain ⟨b, hb⟩ := Option.ne_none_iff_exists'.mp hne
    obtain ⟨v, rfl, -, -⟩ := step?_eq_some.mp hb
    have hv := hF v .refl (by rw [follow] at hb; simp [hb])
    simp_all
  | succ n ih =>
    cases ha : s.step? a with
    | none => rw [follow_of_step?_eq_none ha, ha]
    | some b =>
      obtain ⟨v, rfl, -, -⟩ := step?_eq_some.mp ha
      rw [follow_of_step?_eq_some ha]
      refine ih (F.erase v) ?_ b ?_
      · have hv : v ∈ F := hF v .refl (by simp [ha])
        rw [Finset.card_erase_of_mem hv]
        omega
      · intro w hw hbound
        refine Finset.mem_erase.mpr ⟨?_, hF w (.head ha hw) hbound⟩
        rintro rfl
        -- `w` would lie on the chain that starts behind it
        have hcycle : Relation.TransGen (fun x y => s.step? x = some y) (.var w) (.var w) :=
          .head' ha hw
        exact hs.transGen.irrefl.irrefl _ (Relation.transGen_swap.mp hcycle)

theorem id_lt_size {v : Var} {a : S.Term} (h : s.binding v = some a) : v.id < s.slots.size := by
  by_contra hv
  rw [binding, get, Array.getD_eq_getD_getElem?, Array.getElem?_eq_none (by omega)] at h
  simp [Slot.fresh] at h

theorem step?_deref (hs : s.ChainsEnd) (a : S.Term) : s.step? (s.deref a) = none := by
  refine step?_follow hs _ ((Finset.range s.slots.size).image Var.mk) ?_ a fun v _ hv => ?_
  · exact Finset.card_image_le.trans (by simp)
  · obtain ⟨b, hb⟩ := Option.isSome_iff_exists.mp hv
    obtain ⟨w, hw, -, hbind⟩ := step?_eq_some.mp hb
    cases hw
    exact Finset.mem_image.mpr ⟨v.id, by simpa using id_lt_size hbind, rfl⟩

theorem deref_eq_follow (hs : s.ChainsEnd) {n : Nat} {a : S.Term}
    (hend : s.step? (s.follow n a) = none) : s.deref a = s.follow n a := by
  rcases Nat.le_total s.slots.size n with h | h
  · exact (follow_eq_of_le (step?_deref hs a) h).symm
  · exact follow_eq_of_le hend h

theorem deref_of_step?_eq_none {a : S.Term} (h : s.step? a = none) : s.deref a = a :=
  follow_of_step?_eq_none h _

/-- A variable that holds a term at which a chain ends is dereferenced in one step. -/
theorem deref_of_step? {v : Var} {value : S.Term} (hcell : s.isCell v = false)
    (hbinding : s.binding v = some value) (hend : s.step? value = none) :
    s.deref (.var v) = value := by
  obtain ⟨n, hn⟩ : ∃ n, s.slots.size = n + 1 := by
    have hsize := id_lt_size hbinding
    exact ⟨s.slots.size - 1, by omega⟩
  have hstep : s.step? (.var v) = some value := by simp [step?, hcell, hbinding]
  rw [deref, hn, follow_of_step?_eq_some hstep, follow_of_step?_eq_none hend]

theorem step?_of_var?_eq_none {value : S.Term} (hvalue : value.var? = none) :
    s.step? value = none := by
  cases value <;> first | rfl | cases hvalue

theorem deref_of_binding {v : Var} {value : S.Term} (hcell : s.isCell v = false)
    (hbinding : s.binding v = some value) (hvalue : value.var? = none) :
    s.deref (.var v) = value :=
  deref_of_step? hcell hbinding (step?_of_var?_eq_none hvalue)

theorem deref_of_var?_eq_none {value : S.Term} (hvalue : value.var? = none) :
    s.deref value = value :=
  deref_of_step?_eq_none (step?_of_var?_eq_none hvalue)

theorem deref_of_step?_eq_some (hs : s.ChainsEnd) {a b : S.Term} (h : s.step? a = some b) :
    s.deref a = s.deref b := by
  have hfollow : s.follow (s.slots.size + 1) a = s.deref b := follow_of_step?_eq_some h _
  rw [← hfollow]
  refine deref_eq_follow hs ?_
  rw [hfollow]
  exact step?_deref hs b

theorem deref_congr (hs : s.ChainsEnd) (h : s ≈ t) (a : S.Term) : s.deref a = t.deref a := by
  have ht := hs.congr h
  rw [deref_eq_follow hs (n := t.slots.size), follow_congr h]
  · rfl
  · rw [step?_congr h, follow_congr h]
    exact step?_deref ht a

/-- The end of a chain is an unbound variable, a cell or no variable. -/
theorem isBound_of_deref_eq_var (hs : s.ChainsEnd) {a : S.Term} {v : Var}
    (h : s.deref a = .var v) : s.isBound v = false := by
  have hend := step?_deref hs a
  rw [h] at hend
  by_contra hb
  obtain ⟨hcell, b, hbind⟩ := isBound_eq_true.mp (by simpa using hb)
  simp [step?, hcell, hbind] at hend

theorem deref_of_reaches (hs : s.ChainsEnd) {a b : S.Term}
    (h : Relation.ReflTransGen (fun y x => s.step? x = some y) b a) : s.deref a = s.deref b := by
  induction h with
  | refl => rfl
  | tail _ hstep ih => rw [deref_of_step?_eq_some hs hstep, ih]

/-- Filling an empty slot, or a cell, with a value that does not dereference to
its variable closes no chain. -/
theorem ChainsEnd.set (hs : s.ChainsEnd) {v : Var} {value : S.Term} (hv : s.isBound v = false)
    (hvalue : (s.deref value).var? ≠ some v) : (s.set v (some value)).ChainsEnd := by
  have hstep : ∀ a b, (s.set v (some value)).step? a = some b →
      s.step? a = some b ∨ (a = .var v ∧ b = value ∧ s.isCell v = false) := by
    intro a b hab
    obtain ⟨w, rfl, hcell, hbind⟩ := step?_eq_some.mp hab
    rw [isCell_set] at hcell
    rw [binding_set] at hbind
    by_cases hvw : v = w
    · subst hvw
      rw [if_pos rfl] at hbind
      exact .inr ⟨rfl, (Option.some_inj.mp hbind).symm, hcell⟩
    · rw [if_neg hvw] at hbind
      exact .inl (step?_eq_some.mpr ⟨w, rfl, hcell, hbind⟩)
  refine wellFounded_of_new_pairs hs (.var v) ?_ ?_
  · intro a b hab
    exact (hstep a b hab).imp id fun h => h.1
  · intro b hb hreach
    have hend := step?_of_not_isBound hv
    rcases hstep _ _ hb with hold | ⟨-, rfl, hcell⟩
    · rw [hend] at hold
      cases hold
    · rw [deref_of_reaches hs hreach, deref_of_step?_eq_none hend] at hvalue
      exact hvalue rfl

end Store

end GoalSearch
