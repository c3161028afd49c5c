/-
Going back on the trail.

What a unification changes, it records, so that a later scope still knows the
earlier one: its trail is the earlier trail with newer entries on top, and
putting back what these entries saved gives the earlier slots.

* `Trail.backtrack_eq` — going back drops the newest entries and restores them;
* `Scope.Extends` — one scope is later than another and can go back to it;
* `Scope.Extends.backtrack` — going back to a mark that is not older keeps this;
* `unify_keeps` — what every single binding keeps, every unification keeps;
* `unify_grows`, `unify_extends` — a unification only adds to the trail, and
  what it adds undoes what it did.

Design notes: the guards of variables may unify too, on a trail that is thrown
away.  That a trail only grows holds for all guards; that it leads back to the
same slots holds for those that bind nothing (`Theory.GuardsInert`).
-/
import GoalSearch.Proofs.Action
import GoalSearch.Proofs.Slots
import GoalSearch.Unify

namespace GoalSearch

open GoalSearch.Action

variable {S : Vocabulary}

/-- Every stop but the one that reports a trail of the wrong length. -/
def Stop.Balanced (e : Stop) : Prop := e ≠ .fault .unbalancedTrail

/-! ### Restoring saved slots -/

namespace Trail

/-- Puts back saved slots in order. -/
def restore (es : List (Saved S)) (s : Store S) : Store S :=
  es.foldl (fun s e => s.set e.var e.previous) s

@[simp] theorem restore_nil (s : Store S) : restore [] s = s := rfl

@[simp] theorem restore_cons (e : Saved S) (es : List (Saved S)) (s : Store S) :
    restore (e :: es) s = restore es (s.set e.var e.previous) := rfl

theorem restore_append (es fs : List (Saved S)) (s : Store S) :
    restore (es ++ fs) s = restore fs (restore es s) :=
  List.foldl_append

theorem restore_congr (es : List (Saved S)) {s t : Store S} (h : s ≈ t) :
    restore es s ≈ restore es t := by
  induction es generalizing s t with
  | nil => exact h
  | cons e es ih => exact ih (Store.set_congr h _ _)

theorem undo_eq (n : Nat) (es : List (Saved S)) (s : Store S) :
    undo n es s = (es.drop n, restore (es.take n) s) := by
  induction n generalizing es s with
  | zero => simp [undo]
  | succ n ih =>
    cases es with
    | nil => simp [undo]
    | cons e es => simp [undo, ih]

theorem backtrack_eq (t : Trail S) (mark : Nat) (s : Store S) :
    t.backtrack mark s =
      (⟨t.entries.drop (t.length - mark)⟩, restore (t.entries.take (t.length - mark)) s) := by
  simp [backtrack, undo_eq]

end Trail

/-! ### Earlier and later scopes -/

namespace Scope

theorem store_apply (c : Scope S) : store c = .ok c.world.store c := rfl

theorem record_apply (v : Var) (c : Scope S) :
    record v c = .ok () { c with trail := c.trail.record c.world.store v } := rfl

/-- The scope after going back to a mark. -/
def backtracked (c : Scope S) (mark : Nat) : Scope S :=
  ⟨(c.trail.backtrack mark c.world.store).1,
    { c.world with store := (c.trail.backtrack mark c.world.store).2 }⟩

/-- The trail of `d` is that of `c` with newer entries on top. -/
def Grows (c d : Scope S) : Prop := c.trail.entries <:+ d.trail.entries

/-- The trail of `d` is that of `c` with newer entries on top, and these lead
back to the slots of `c`. -/
def Extends (c d : Scope S) : Prop :=
  ∃ newer, d.trail.entries = newer ++ c.trail.entries ∧
    Trail.restore newer d.world.store ≈ c.world.store

variable {c d e : Scope S}

theorem Grows.refl (c : Scope S) : c.Grows c := List.suffix_refl _

theorem Grows.trans (h : c.Grows d) (h' : d.Grows e) : c.Grows e := List.IsSuffix.trans h h'

theorem Grows.length_le (h : c.Grows d) : c.trail.length ≤ d.trail.length :=
  List.IsSuffix.length_le h

theorem Grows.entries_eq (h : c.Grows d) (hlen : d.trail.length = c.trail.length) :
    d.trail.entries = c.trail.entries :=
  (List.IsSuffix.eq_of_length h hlen.symm).symm

theorem Grows.backtrack (h : c.Grows d) {mark : Nat} (hm : c.trail.length ≤ mark) :
    c.Grows (d.backtracked mark) := by
  obtain ⟨newer, hd⟩ := h
  refine ⟨newer.drop (d.trail.length - mark), ?_⟩
  have hlen : d.trail.length = newer.length + c.trail.length := by
    simp [Trail.length, ← hd]
  simp only [backtracked, Trail.backtrack_eq, ← hd]
  rw [List.drop_append_of_le_length (by omega)]

theorem Extends.grows (h : c.Extends d) : c.Grows d := by
  obtain ⟨newer, hd, -⟩ := h
  exact ⟨newer, hd.symm⟩

theorem extends_of_same (htrail : d.trail = c.trail) (hstore : d.world.store ≈ c.world.store) :
    c.Extends d :=
  ⟨[], by rw [htrail]; rfl, hstore⟩

theorem Extends.refl (c : Scope S) : c.Extends c := extends_of_same rfl (Setoid.refl _)

theorem Extends.trans (h : c.Extends d) (h' : d.Extends e) : c.Extends e := by
  obtain ⟨newer, hd, hrestore⟩ := h
  obtain ⟨newer', he, hrestore'⟩ := h'
  refine ⟨newer' ++ newer, by rw [he, hd, List.append_assoc], ?_⟩
  rw [Trail.restore_append]
  exact Setoid.trans (Trail.restore_congr newer hrestore') hrestore

theorem Extends.store_equiv (h : c.Extends d) (hlen : d.trail.length = c.trail.length) :
    d.world.store ≈ c.world.store := by
  obtain ⟨newer, hd, hrestore⟩ := h
  have hnil : newer = [] := by
    have : newer.length = 0 := by simpa [Trail.length, hd] using hlen
    exact List.eq_nil_of_length_eq_zero this
  subst hnil
  exact hrestore

theorem Extends.backtrack (h : c.Extends d) {mark : Nat} (hm : c.trail.length ≤ mark) :
    c.Extends (d.backtracked mark) := by
  obtain ⟨newer, hd, hrestore⟩ := h
  have hlen : d.trail.length = newer.length + c.trail.length := by
    simp [Trail.length, hd]
  refine ⟨newer.drop (d.trail.length - mark), ?_, ?_⟩
  · simp only [backtracked, Trail.backtrack_eq, hd]
    rw [List.drop_append_of_le_length (by omega)]
  · simp only [backtracked, Trail.backtrack_eq, hd]
    rw [List.take_append_of_le_length (by omega), ← Trail.restore_append, List.take_append_drop]
    exact hrestore

theorem length_backtracked (c : Scope S) (mark : Nat) :
    (c.backtracked mark).trail.length = min c.trail.length mark :=
  Trail.length_backtrack _ _ _

/-- Saving a slot and filling it leads back to where it began. -/
theorem extends_record_set (c : Scope S) (v : Var) (value : Option S.Term) {w : World S}
    (hw : w.store ≈ c.world.store.set v value) :
    c.Extends ⟨c.trail.record c.world.store v, w⟩ := by
  refine ⟨[⟨v, c.world.store.binding v⟩], rfl, ?_⟩
  refine Setoid.trans (Store.set_congr hw _ _) ?_
  exact Setoid.trans (Store.set_set _ _ _ _) (Store.set_binding _ _)

end Scope

/-! ### Code that asks leaves the slots alone -/

section Ask

variable {T : Theory S} {fuel : Nat} {stop : Stop → Prop}

theorem World.lasting_store :
    Lasting (fun _ => True) fun w w' : World S => w'.store = w.store :=
  ⟨fun _ => rfl, fun h h' => h'.trans h, fun _ _ => trivial⟩

theorem Ask.answer_keeps_store (he : stop .outOfFuel) (q : Ask S) :
    Keeps (fun _ => True) (fun w w' : World S => w'.store = w.store) stop (q.answer T fuel) := by
  have h := World.lasting_store (S := S)
  cases q with
  | display t => exact Keeps.bind h (Keeps.get h) fun w => Keeps.ofOption h he _
  | identical a b => exact Keeps.bind h (Keeps.get h) fun w => Keeps.ofOption h he _
  | _ => exact fun w _ => h.refl w

theorem Quiet.exec_keeps_store (he : stop .outOfFuel) {α : Type} (x : Quiet S α) :
    Keeps (fun _ => True) (fun w w' : World S => w'.store = w.store) stop (x.exec T fuel) := by
  induction x with
  | done a => exact fun _ _ => rfl
  | ask q next ih => exact Keeps.bind World.lasting_store (Ask.answer_keeps_store he q) ih

theorem World.resolve_keeps_store (he : stop .outOfFuel) (t : S.Term) :
    Keeps (fun _ => True) (fun w w' : World S => w'.store = w.store) stop
      (World.resolve T fuel t) := by
  have h := World.lasting_store (S := S)
  refine fun w _ => ?_
  rw [World.resolve, ensures_bind_of_eq_ok (get_apply w), ensures_bind, ensures_ofOption he]
  exact fun _ _ => rfl

variable {I : Scope S → Prop} {R : Scope S → Scope S → Prop}

theorem Scope.onWorld_keeps {α : Type}
    (hworld : ∀ c w, w.store = c.world.store → R c { c with world := w })
    {x : Action (World S) α}
    (hx : Keeps (fun _ => True) (fun w w' : World S => w'.store = w.store) stop x) :
    Keeps I R stop (Scope.onWorld x) := by
  intro c _
  rw [Scope.onWorld, ensures_onPart]
  exact (hx c.world trivial).mono fun _ w hw => hworld c w hw

end Ask

/-! ### What every binding keeps, every unification keeps -/

section Unify

variable {T : Theory S} {I : Scope S → Prop} {R : Scope S → Scope S → Prop} {stop : Stop → Prop}
  (h : Lasting I R) (he : stop .outOfFuel)
  (hworld : ∀ c w, w.store = c.world.store → R c { c with world := w })

include h he hworld

theorem Hook.exec_keeps {fuel : Nat} {unify : Unifier S}
    (hu : ∀ a b, Keeps I R stop (unify a b)) (k : Hook S) :
    Keeps I R stop (k.exec T fuel unify) := by
  induction k with
  | done b => exact Keeps.pure h b
  | ask q next ih =>
    exact Keeps.bind h (Scope.onWorld_keeps hworld (Ask.answer_keeps_store he q)) ih
  | unify a b next ih => exact Keeps.bind h (hu a b) ih

theorem unifyStep_keeps {fuel : Nat} {unify : Unifier S}
    (hu : ∀ a b, Keeps I R stop (unify a b))
    (hbind : ∀ v value, Keeps I R stop (Scope.bind T fuel unify v value)) (a b : S.Term) :
    Keeps I R stop (unifyStep T fuel unify a b) := by
  unfold unifyStep
  refine Keeps.bind h (Keeps.bind h (Keeps.get h) fun _ => Keeps.pure h _) fun s => ?_
  refine Keeps.bind h (Keeps.ofOption h he _) fun r => ?_
  split
  · exact Keeps.pure h _
  · split
    · split
      · exact hbind _ _
      · exact hbind _ _
    · exact hbind _ _
    · exact hbind _ _
    · split
      · exact Keeps.allPairs h hu _ _
      · exact Keeps.pure h _
    · exact Hook.exec_keeps h he hworld hu _
    · exact Hook.exec_keeps h he hworld hu _
    · exact Keeps.pure h _

theorem unify_keeps
    (hbind : ∀ n, (∀ a b, Keeps I R stop (unify T n a b)) →
      ∀ v value, Keeps I R stop (Scope.bind T n (unify T n) v value)) :
    ∀ n a b, Keeps I R stop (unify T n a b) := by
  intro n
  induction n with
  | zero => exact fun _ _ => Keeps.throw he
  | succ n ih => exact unifyStep_keeps h he hworld ih (hbind n ih)

end Unify

/-! ### Trails grow -/

section Grows

variable (T : Theory S)

theorem Scope.lasting_grows : Lasting (fun _ => True) (Scope.Grows (S := S)) :=
  ⟨Scope.Grows.refl, Scope.Grows.trans, fun _ _ => trivial⟩

theorem Scope.grows_of_trail_eq {c d : Scope S} (h : d.trail = c.trail) : c.Grows d := by
  rw [Scope.Grows, h]

theorem Hook.exec_grows (fuel : Nat) {unify : Unifier S}
    (hu : ∀ a b, Keeps (fun _ => True) Scope.Grows Stop.Balanced (unify a b)) (k : Hook S) :
    Keeps (fun _ => True) Scope.Grows Stop.Balanced (k.exec T fuel unify) :=
  Hook.exec_keeps Scope.lasting_grows (by simp [Stop.Balanced])
    (fun _ _ _ => Scope.grows_of_trail_eq rfl) hu k

theorem Scope.lasting_trail :
    Lasting (fun _ => True) fun c d : Scope S => d.trail = c.trail :=
  ⟨fun _ => rfl, fun h h' => h'.trans h, fun _ _ => trivial⟩

/-- Consulting a guard leaves the trail as it is. -/
theorem Scope.admits_keeps_trail {fuel : Nat} {unify : Unifier S}
    (hu : ∀ a b, Keeps (fun _ => True) Scope.Grows Stop.Balanced (unify a b)) (v : Var)
    (value : S.Term) :
    Keeps (fun _ => True) (fun c d : Scope S => d.trail = c.trail) Stop.Balanced
      (Scope.admits T fuel unify v value) := by
  intro c _
  rw [Scope.admits, ensures_bind_of_eq_ok (Scope.store_apply c)]
  cases c.world.store.guard? v with
  | none => exact rfl
  | some g =>
    show Ensures (Scope.aside ((T.admits g value).exec T fuel unify)) c _ _
    rw [Scope.aside, ensures_onPart]
    exact (Hook.exec_grows T fuel hu _ _ trivial).mono fun _ _ _ => rfl

theorem Scope.assign_keeps_trail {fuel : Nat} {unify : Unifier S}
    (hu : ∀ a b, Keeps (fun _ => True) Scope.Grows Stop.Balanced (unify a b)) (v : Var)
    (value : S.Term) :
    Keeps (fun _ => True) (fun c d : Scope S => d.trail = c.trail) Stop.Balanced
      (Scope.assign T fuel unify v value) := by
  have h := Scope.lasting_trail (S := S)
  unfold Scope.assign
  refine Keeps.bind h (Keeps.bind h (Keeps.get h) fun _ => Keeps.pure h _) fun s => ?_
  split
  · exact Keeps.pure h _
  · split
    · exact Keeps.pure h _
    · refine Keeps.bind h (Scope.admits_keeps_trail T hu v value) fun b => ?_
      split
      · exact fun c _ => rfl
      · exact Keeps.pure h _

theorem Scope.bind_grows {fuel : Nat} {unify : Unifier S}
    (hu : ∀ a b, Keeps (fun _ => True) Scope.Grows Stop.Balanced (unify a b)) (v : Var)
    (value : S.Term) :
    Keeps (fun _ => True) Scope.Grows Stop.Balanced (Scope.bind T fuel unify v value) := by
  have h := Scope.lasting_grows (S := S)
  have htrail : ∀ c d : Scope S, d.trail = c.trail → c.Grows d :=
    fun _ _ => Scope.grows_of_trail_eq
  unfold Scope.bind
  refine Keeps.bind h ((Scope.admits_keeps_trail T hu v value).mono htrail) fun b => ?_
  split
  · refine Keeps.bind h (fun c _ => List.suffix_cons _ _) fun _ => ?_
    refine Keeps.bind h ((Scope.assign_keeps_trail T hu v value).mono htrail) fun r => ?_
    split
    · exact Keeps.pure h _
    · split
      · exact Keeps.throw (by simp [Stop.Balanced])
      · exact fun c _ => Scope.grows_of_trail_eq rfl
  · exact Keeps.pure h _

/-- A unification only adds to the trail. -/
theorem unify_grows (n : Nat) (a b : S.Term) :
    Keeps (fun _ => True) Scope.Grows Stop.Balanced (unify T n a b) :=
  unify_keeps Scope.lasting_grows (by simp [Stop.Balanced])
    (fun _ _ _ => Scope.grows_of_trail_eq rfl) (fun _ hu => Scope.bind_grows T hu) n a b

end Grows

/-! ### Trails lead back -/

/-- The guards of variables bind nothing when they are consulted. -/
def Theory.GuardsInert (T : Theory S) : Prop :=
  ∀ g value n c b d, (T.admits g value).exec T n (unify T n) c = .ok b d →
    d.world.store ≈ c.world.store

/-- A guard that binds nothing when it is consulted. -/
def Theory.Inert (T : Theory S) (g : S.Guard) : Prop :=
  ∀ value n c b d, (T.admits g value).exec T n (unify T n) c = .ok b d →
    d.world.store ≈ c.world.store

/-- Hooks that only ask. -/
inductive Hook.Asks : Hook S → Prop
  | done (b : Bool) : Asks (.done b)
  | ask {q : Ask S} {next : q.Answer → Hook S} : (∀ x, (next x).Asks) → Asks (.ask q next)

theorem Hook.Asks.exec_keeps {T : Theory S} {fuel : Nat} {unify : Unifier S} {k : Hook S}
    (hk : k.Asks) :
    Keeps (fun _ => True) (fun c d : Scope S => d.world.store = c.world.store) Stop.Balanced
      (k.exec T fuel unify) := by
  have h : Lasting (fun _ => True) fun c d : Scope S => d.world.store = c.world.store :=
    ⟨fun _ => rfl, fun h h' => h'.trans h, fun _ _ => trivial⟩
  induction hk with
  | done b => exact Keeps.pure h b
  | ask _ ih =>
    refine Keeps.bind h (Scope.onWorld_keeps (fun c w hw => hw) ?_) ih
    exact Ask.answer_keeps_store (by simp [Stop.Balanced]) _

/-- Guards that only ask bind nothing. -/
theorem Theory.guardsInert_of_asks {T : Theory S} (h : ∀ g value, (T.admits g value).Asks) :
    T.GuardsInert := by
  intro g value n c b d hexec
  exact Store.equiv_of_eq (((h g value).exec_keeps c trivial).ok hexec)

/-- The vocabulary without structures and with bounds on integers as guards. -/
abbrev Bounds.vocabulary : Vocabulary := ⟨Empty, Int × Int, Unit⟩

/-- The theory in which a restricted variable takes the integers within its
bounds. -/
def Bounds.theory : Theory Bounds.vocabulary where
  unifyWith label := nomatch label
  copies label := nomatch label
  render label := nomatch label
  admits bounds value :=
    match value with
    | .int n => .done (bounds.1 ≤ n ∧ n ≤ bounds.2)
    | _ => .done false

theorem Bounds.guardsInert : Bounds.theory.GuardsInert := by
  refine Theory.guardsInert_of_asks fun bounds value => ?_
  cases value with
  | int n => exact .done _
  | _ => exact .done _

section Extends

variable {T : Theory S}

theorem Scope.lasting_extends : Lasting (fun _ => True) (Scope.Extends (S := S)) :=
  ⟨Scope.Extends.refl, Scope.Extends.trans, fun _ _ => trivial⟩

/-- Consulting guards that bind nothing leaves the trail and the slots as they are. -/
theorem Scope.admits_of_inert {c : Scope S} {v : Var}
    (hv : ∀ g, c.world.store.guard? v = some g → T.Inert g) (n : Nat) (value : S.Term) :
    Ensures (Scope.admits T n (unify T n) v value) c
      (fun _ d => d.trail = c.trail ∧ d.world.store ≈ c.world.store) Stop.Balanced := by
  rw [Scope.admits, ensures_bind_of_eq_ok (Scope.store_apply c)]
  cases hguard : c.world.store.guard? v with
  | none => exact ⟨rfl, Setoid.refl _⟩
  | some g =>
    show Ensures (Scope.aside ((T.admits g value).exec T n (unify T n))) c _ _
    rw [Scope.aside, ensures_onPart]
    have hgrows := Hook.exec_grows T n (unify_grows T n) (T.admits g value)
      { c with trail := .empty } trivial
    rw [ensures_iff] at hgrows ⊢
    refine ⟨fun b d h => ⟨rfl, ?_⟩, hgrows.2⟩
    exact hv g hguard value n { c with trail := .empty } b d h

theorem Scope.admits_inert (hT : T.GuardsInert) (n : Nat) (v : Var) (value : S.Term) :
    Keeps (fun _ => True)
      (fun c d : Scope S => d.trail = c.trail ∧ d.world.store ≈ c.world.store) Stop.Balanced
      (Scope.admits T n (unify T n) v value) :=
  fun _ _ => Scope.admits_of_inert (fun g _ => hT g) n value

/-- Filling a slot that was just saved leads back to before it was saved. -/
theorem Scope.assign_extends (hT : T.GuardsInert) (n : Nat) (v : Var) (value : S.Term)
    (c d : Scope S) (htrail : d.trail = c.trail.record c.world.store v)
    (hstore : d.world.store ≈ c.world.store) :
    Ensures (Scope.assign T n (unify T n) v value) d (fun _ e => c.Extends e) Stop.Balanced := by
  -- If nothing is filled, the new entry restores what the slot still holds.
  have hsame : ∀ e : Scope S, e.trail = d.trail → e.world.store ≈ d.world.store →
      c.Extends e := by
    intro e he hes
    have hset : e.world.store ≈ c.world.store.set v (c.world.store.binding v) :=
      Setoid.trans (Setoid.trans hes hstore) (Setoid.symm (Store.set_binding _ _))
    have := Scope.extends_record_set c v _ hset
    rwa [← htrail, ← he] at this
  rw [Scope.assign, ensures_bind_of_eq_ok (Scope.store_apply d)]
  split
  · exact hsame d rfl (Setoid.refl _)
  · split
    · exact hsame d rfl (Setoid.refl _)
    · rw [ensures_bind]
      refine (Scope.admits_inert hT n v value d trivial).mono ?_
      rintro b e ⟨hetrail, hestore⟩
      split
      · show c.Extends { e with world.store := e.world.store.set v (some value) }
        have hset : e.world.store.set v (some value) ≈ c.world.store.set v (some value) :=
          Store.set_congr (Setoid.trans hestore hstore) _ _
        have := Scope.extends_record_set c v (some value)
          (w := { e.world with store := e.world.store.set v (some value) }) hset
        rwa [← htrail, ← hetrail] at this
      · exact hsame e hetrail hestore

theorem Scope.bind_extends (hT : T.GuardsInert) (n : Nat) (v : Var) (value : S.Term) :
    Keeps (fun _ => True) Scope.Extends Stop.Balanced (Scope.bind T n (unify T n) v value) := by
  intro c _
  unfold Scope.bind
  rw [ensures_bind]
  refine (Scope.admits_inert hT n v value c trivial).mono ?_
  rintro b d ⟨htrail, hstore⟩
  have hcd : c.Extends d := Scope.extends_of_same htrail hstore
  split
  · rw [ensures_bind_of_eq_ok (Scope.record_apply v d), ensures_bind]
    let saved : Scope S := { d with trail := d.trail.record d.world.store v }
    refine (Scope.assign_extends hT n v value d saved rfl (Setoid.refl _)).mono ?_
    intro r e hde
    split
    · exact hcd.trans hde
    · split
      · simp [Stop.Balanced]
      · exact (hcd.trans hde).trans (Scope.extends_of_same rfl (Setoid.refl _))
  · exact hcd

theorem Scope.extends_of_store_eq (c : Scope S) (w : World S) (h : w.store = c.world.store) :
    c.Extends { c with world := w } :=
  Scope.extends_of_same rfl (Store.equiv_of_eq h)

/-- What a unification adds to the trail leads back to where it started. -/
theorem unify_extends (hT : T.GuardsInert) (n : Nat) (a b : S.Term) :
    Keeps (fun _ => True) Scope.Extends Stop.Balanced (unify T n a b) :=
  unify_keeps Scope.lasting_extends (by simp [Stop.Balanced]) Scope.extends_of_store_eq
    (fun n _ => Scope.bind_extends hT n) n a b

end Extends

/-! ### Histories -/

/-- Relations between earlier and later scopes that hold along unifications and
along returns to marks that are not older than the earlier scope. -/
structure Scope.History (T : Theory S) (R : Scope S → Scope S → Prop) : Prop where
  refl : ∀ c, R c c
  trans : ∀ {c d e}, R c d → R d e → R c e
  grows : ∀ {c d}, R c d → c.Grows d
  world : ∀ c w, w.store = c.world.store → R c { c with world := w }
  backtrack : ∀ {c d mark}, R c d → c.trail.length ≤ mark → R c (d.backtracked mark)
  unify : ∀ n a b, Keeps (fun _ => True) R Stop.Balanced (unify T n a b)

theorem Scope.history_grows (T : Theory S) : Scope.History T Scope.Grows where
  refl := Scope.Grows.refl
  trans := Scope.Grows.trans
  grows := id
  world := fun _ _ _ => Scope.grows_of_trail_eq rfl
  backtrack := fun h hm => h.backtrack hm
  unify := unify_grows T

theorem Scope.history_extends {T : Theory S} (hT : T.GuardsInert) :
    Scope.History T Scope.Extends where
  refl := Scope.Extends.refl
  trans := Scope.Extends.trans
  grows := Scope.Extends.grows
  world := Scope.extends_of_store_eq
  backtrack := fun h hm => h.backtrack hm
  unify := unify_extends hT

end GoalSearch
