/-
What the entries of a trail say about the slots.

A trail on which terms are unified and which goes back to marks is an account of all
slots.  Every slot is filled by a binding, which has saved it right before; so what an
entry has saved is what the entry before it on the same variable wrote.  An ordinary
variable is filled only while it is empty: while it is bound, one entry names it, and
while it is not, none does.

* `Theory.GuardsFunctional` — guards that are functions of their argument and the slots;
* `Entry`, `Entry.content` — entries with what was written after them, and what the slots
  hold by these;
* `Entry.Linked` — every entry saves what was written before;
* `unify_writes` — a unification fills slots one after the other, each one saved before;
* `Scope.Works`, `Scope.Kept` — what is done with a trail, and the entries kept meanwhile;
* `Scope.Kept.tallies` — the entries account for all slots;
* `Scope.entries_account` — the variables that are bound, and the entries that say so.

Design notes: a guard that changes its mind between its two consultations leaves an entry
for a slot that stays empty, and one that unifies fills slots on a trail of its own.  Both
are excluded by a guard that is a function, which may well look at the slots.
-/
import GoalSearch.Proofs.Checks

namespace GoalSearch

open GoalSearch.Action

variable {S : Vocabulary} {T : Theory S} {f : S.Guard → S.Term → Store S → Bool}

/-- The guards of variables bind nothing, and whether they admit a term is a function of
this term and what the slots hold. -/
structure Theory.GuardsFunctional (T : Theory S) (f : S.Guard → S.Term → Store S → Bool) :
    Prop where
  decides : ∀ g value n c b d, (T.admits g value).exec T n (unify T n) c = .ok b d →
    b = f g value c.world.store ∧ d.world.store ≈ c.world.store
  congr : ∀ g value {s s' : Store S}, s.ChainsEnd → s ≈ s' → f g value s = f g value s'

theorem Theory.GuardsFunctional.inert (hT : T.GuardsFunctional f) : T.GuardsInert :=
  fun g value n c b d h => (hT.decides g value n c b d h).2

/-- What the guard of a variable, if there is one, says of a value when the slots are `s`. -/
def Store.answer (f : S.Guard → S.Term → Store S → Bool) (s : Store S) (v : Var)
    (value : S.Term) : Bool :=
  (s.guard? v).all fun g => f g value s

theorem Theory.GuardsFunctional.answer_congr (hT : T.GuardsFunctional f) {s s' : Store S}
    (hs : s.ChainsEnd) (heq : s ≈ s') (v : Var) (value : S.Term) :
    s'.answer f v value = s.answer f v value := by
  rw [Store.answer, Store.answer, Store.guard?_congr heq]
  cases s'.guard? v with
  | none => rfl
  | some g => exact (hT.congr g value hs heq).symm

theorem Scope.admits_answer (hT : T.GuardsFunctional f) (n : Nat) (v : Var) (value : S.Term)
    (c : Scope S) :
    Ensures (admits T n (unify T n) v value) c
      (fun b d => b = c.world.store.answer f v value ∧ d.world.store ≈ c.world.store)
      fun _ => True := by
  rw [admits, ensures_bind_of_eq_ok (store_apply c), Store.answer]
  cases c.world.store.guard? v with
  | none => exact ⟨rfl, Setoid.refl _⟩
  | some g =>
    show Ensures (aside ((T.admits g value).exec T n (unify T n))) c _ _
    rw [aside, ensures_onPart, ensures_iff]
    exact ⟨fun b d h => hT.decides g value n { c with trail := .empty } b d h, fun _ _ _ => trivial⟩

/-! ### Entries and what was written after them -/

/-- An entry of a trail, and what the slot was filled with after it was saved. -/
structure Entry (S : Vocabulary) where
  /-- The saved slot. -/
  saved : Saved S
  /-- What the slot was filled with. -/
  written : S.Term

namespace Entry

variable {s : Store S} {e : Entry S} {es newer older : List (Entry S)} {v : Var}

/-- What the slot of a variable holds by the entries since the slots were `s`, newest
first: what the newest entry on it wrote, or else what it held then. -/
def content (s : Store S) : List (Entry S) → Var → Option S.Term
  | [], v => s.binding v
  | e :: es, v => if e.saved.var = v then some e.written else content s es v

/-- Every entry saves what the slot held by the entries before it, and this is nothing if
the variable is ordinary. -/
def Linked (s : Store S) (es : List (Entry S)) : Prop :=
  ∀ newer e older, es = newer ++ e :: older →
    e.saved.previous = content s older e.saved.var ∧
      (s.isCell e.saved.var = false → e.saved.previous = none)

theorem linked_nil (s : Store S) : Linked s [] := by
  intro newer e older heq
  simp at heq

theorem Linked.cons (h : Linked s es) (hprevious : e.saved.previous = content s es e.saved.var)
    (hempty : s.isCell e.saved.var = false → e.saved.previous = none) : Linked s (e :: es) := by
  intro newer e' older heq
  rcases List.cons_eq_append_iff.mp heq with ⟨rfl, hes⟩ | ⟨newer', rfl, hes⟩
  · cases hes
    exact ⟨hprevious, hempty⟩
  · exact h newer' e' older hes

theorem Linked.of_append (h : Linked s (newer ++ older)) : Linked s older := by
  intro between e oldest heq
  refine h (newer ++ between) e oldest ?_
  rw [heq, List.append_assoc]

theorem Linked.of_cons (h : Linked s (e :: es)) : Linked s es := by
  have happend : Linked s ([e] ++ es) := h
  exact happend.of_append

/-- Nothing is written after the entry of an ordinary variable: a later entry would have
saved what this one wrote. -/
theorem Linked.content_of_mem (h : Linked s (newer ++ e :: older))
    (hv : s.isCell e.saved.var = false) :
    content s (newer ++ e :: older) e.saved.var = some e.written := by
  induction newer with
  | nil => exact if_pos rfl
  | cons x newer ih =>
    have hrest := ih h.of_cons
    rw [List.cons_append, content, if_neg, hrest]
    intro hx
    obtain ⟨hprevious, hempty⟩ := h [] x (newer ++ e :: older) rfl
    rw [hx, hrest] at hprevious
    rw [hempty (by rw [hx, hv])] at hprevious
    cases hprevious

/-- The entries of an ordinary variable that was empty at first: none while it is empty,
and one while it is not. -/
theorem Linked.naming (h : Linked s es) (hv : s.isCell v = false) (hempty : s.binding v = none) :
    (content s es v = none ∧ (es.map saved).filter (fun e => e.var = v) = []) ∨
      ((content s es v).isSome = true ∧
        (es.map saved).filter (fun e => e.var = v) = [⟨v, none⟩]) := by
  induction es with
  | nil => exact .inl ⟨hempty, rfl⟩
  | cons e es ih =>
    have hrest := ih h.of_cons
    rw [content, List.map_cons, List.filter_cons]
    by_cases hev : e.saved.var = v
    · obtain ⟨hprevious, hnone⟩ := h [] e es rfl
      have hnone := hnone (by rw [hev, hv])
      rw [hnone, hev] at hprevious
      rcases hrest with ⟨-, hnaming⟩ | ⟨hsome, -⟩
      · refine .inr ⟨by rw [if_pos hev]; rfl, ?_⟩
        have hsaved : e.saved = ⟨v, none⟩ := by
          rw [← hev, ← hnone]
        rw [hnaming, if_pos (by simpa using hev), hsaved]
      · rw [← hprevious] at hsome
        cases hsome
    · rwa [if_neg hev, if_neg (by simpa using hev)]

end Entry

/-! ### Slots that are saved and filled -/

namespace Scope

variable {start c d e : Scope S} {es ws : List (Entry S)} {v : Var} {value : S.Term}

/-- Slots are saved and filled one after the other; the entries, newest first. -/
inductive Writes (c : Scope S) : List (Entry S) → Scope S → Prop
  /-- No slot changes. -/
  | none {d : Scope S} : d.trail = c.trail → d.world.store ≈ c.world.store → Writes c [] d
  /-- A variable that is not bound is given a value that does not lead back to it. -/
  | write {d e : Scope S} {ws : List (Entry S)} {v : Var} {value : S.Term} :
      Writes c ws d → d.world.store.Checks v value → d.Filled v value e →
      Writes c (⟨⟨v, d.world.store.binding v⟩, value⟩ :: ws) e

theorem Writes.stay (h : c.Writes ws d) (htrail : e.trail = d.trail)
    (hstore : e.world.store ≈ d.world.store) : c.Writes ws e := by
  cases h with
  | none htrail' hstore' =>
    exact .none (htrail.trans htrail') (Setoid.trans hstore hstore')
  | write hws hchecks hfilled =>
    refine .write hws hchecks ⟨?_, Setoid.trans hstore hfilled.slots⟩
    rw [htrail, hfilled.entries]

theorem Writes.trans {ws' : List (Entry S)} (h : c.Writes ws d) (h' : d.Writes ws' e) :
    c.Writes (ws' ++ ws) e := by
  induction h' with
  | none htrail hstore => exact h.stay htrail hstore
  | write _ hchecks hfilled ih => exact .write ih hchecks hfilled

theorem Writes.chainsEnd (h : c.Writes ws d) (hc : c.world.store.ChainsEnd) :
    d.world.store.ChainsEnd := by
  induction h with
  | none _ hstore => exact hc.congr (Setoid.symm hstore)
  | write _ hchecks hfilled ih =>
    exact (ih.set hchecks.free hchecks.away).congr (Setoid.symm hfilled.slots)

theorem lasting_writes :
    Lasting (fun c : Scope S => c.world.store.ChainsEnd) fun c d => ∃ ws, c.Writes ws d where
  refl _ := ⟨[], .none rfl (Setoid.refl _)⟩
  trans := fun ⟨_, h⟩ ⟨_, h'⟩ => ⟨_, h.trans h'⟩
  last := fun hc ⟨_, h⟩ => h.chainsEnd hc

/-- A guard that is a function gives the same answer to both consultations, so a binding
is carried out, or nothing changes. -/
theorem bind_settles (hT : T.GuardsFunctional f) (hc : c.world.store.ChainsEnd)
    (hchecks : c.world.store.Checks v value) {n : Nat} {r : Bool}
    (h : bind T n (GoalSearch.unify T n) v value c = .ok r d) : c.Settles v value r d := by
  obtain ⟨b₁, c₁, h₁, hrefused, hasked⟩ :=
    bind_consults_of_checks (fun g _ => hT.inert g) (fun _ hs => hchecks.congr hc hs) h
  cases b₁ with
  | false =>
    obtain ⟨rfl, hsame⟩ := hrefused rfl
    exact hsame
  | true =>
    obtain ⟨⟨c₂, h₂⟩, hentries, hslots⟩ := hasked rfl
    obtain ⟨hfirst, hstore⟩ := (admits_answer hT n v value c).ok h₁
    -- the slots are what they were, and so is the answer of the guard
    have hsecond := ((admits_answer hT n v value (c₁.saved v)).ok h₂).1
    have hagain : (c₁.saved v).world.store.answer f v value = c.world.store.answer f v value :=
      hT.answer_congr hc (Setoid.symm hstore) v value
    rw [hagain, ← hfirst] at hsecond
    subst hsecond
    exact ⟨hentries, hslots⟩

end Scope

/-- A unification saves and fills slots one after the other, and changes nothing else. -/
theorem unify_writes (hT : T.GuardsFunctional f) (n : Nat) (a b : S.Term) :
    Keeps (fun c : Scope S => c.world.store.ChainsEnd) (fun c d => ∃ ws, c.Writes ws d)
      Stop.Harmless (unify T n a b) := by
  induction n generalizing a b with
  | zero => exact Keeps.throw (by simp [Stop.Harmless])
  | succ n ih =>
    refine unifyStep_of_takes Scope.lasting_writes (by simp [Stop.Harmless])
      (fun c w hw => ⟨[], .none rfl (Store.equiv_of_eq hw)⟩) ih (fun c v value hc htakes => ?_) a b
    have hsafe := Scope.bind_safe hT.inert (unify_safe hT.inert n) hc htakes.free htakes.apart
    rw [ensures_iff] at hsafe ⊢
    refine ⟨fun r d h => ?_, hsafe.2⟩
    -- Chains end and are kept apart, so the checks hold and the binding does not stop.
    have hchecks : c.world.store.Checks v value := ⟨htakes.free, htakes.apart⟩
    have hsettles := Scope.bind_settles hT hc hchecks h
    cases r with
    | false => exact ⟨[], .none hsettles.1 hsettles.2⟩
    | true => exact ⟨_, .write (.none rfl (Setoid.refl _)) hchecks hsettles⟩

/-! ### Entries that account for all slots -/

namespace Scope

variable {start c d e : Scope S} {es ws : List (Entry S)} {v : Var} {value : S.Term}

/-- The entries on the trail of `c`, with what was written after them, tell what has become
of the slots of `start`. -/
structure Tallies (start : Scope S) (es : List (Entry S)) (c : Scope S) : Prop where
  entries : c.trail.entries = es.map Entry.saved
  roles : ∀ v, c.world.store.isCell v = start.world.store.isCell v
  slots : ∀ v, c.world.store.binding v = Entry.content start.world.store es v
  linked : Entry.Linked start.world.store es

theorem tallies_start (h : start.trail = .empty) : start.Tallies [] start where
  entries := by
    rw [h]
    rfl
  roles _ := rfl
  slots _ := rfl
  linked := Entry.linked_nil _

theorem Tallies.fill (h : start.Tallies es c) (hchecks : c.world.store.Checks v value)
    (hfilled : c.Filled v value d) :
    start.Tallies (⟨⟨v, c.world.store.binding v⟩, value⟩ :: es) d where
  entries := by rw [hfilled.entries, h.entries, List.map_cons]
  roles w := by rw [Store.isCell_congr hfilled.slots, Store.isCell_set, h.roles]
  slots w := by rw [Store.binding_congr hfilled.slots, Store.binding_set, Entry.content, h.slots]
  linked := by
    refine h.linked.cons (h.slots v) fun hv => ?_
    rw [← h.roles] at hv
    exact Store.binding_of_not_isBound hv hchecks.free

theorem Tallies.writes (h : start.Tallies es c) (hws : c.Writes ws d) :
    start.Tallies (ws ++ es) d := by
  induction hws with
  | none htrail hstore =>
    refine ⟨?_, fun v => ?_, fun v => ?_, h.linked⟩
    · rw [htrail, h.entries, List.nil_append]
    · rw [Store.isCell_congr hstore, h.roles]
    · rw [Store.binding_congr hstore, h.slots, List.nil_append]
  | write _ hchecks hfilled ih => exact ih.fill hchecks hfilled

/-- Putting back the newest entries gives the slots by the other ones. -/
theorem Tallies.restore (h : start.Tallies es c) (k : Nat) (v : Var) :
    (Trail.restore ((es.map Entry.saved).take k) c.world.store).isCell v =
        start.world.store.isCell v ∧
      (Trail.restore ((es.map Entry.saved).take k) c.world.store).binding v =
        Entry.content start.world.store (es.drop k) v := by
  obtain ⟨-, hroles, hslots, hlinked⟩ := h
  generalize c.world.store = s at hroles hslots
  induction es generalizing s k with
  | nil =>
    rw [List.map_nil, List.take_nil, List.drop_nil]
    exact ⟨hroles v, hslots v⟩
  | cons e es ih =>
    cases k with
    | zero => exact ⟨hroles v, hslots v⟩
    | succ k =>
      -- Without its newest entry a trail accounts for the slots as they were when it was made.
      refine ih k hlinked.of_cons _ (fun w => ?_) fun w => ?_
      · rw [Store.isCell_set, hroles]
      · rw [Store.binding_set]
        split
        · next hw =>
          rw [(hlinked [] e es rfl).1, hw]
        · next hw =>
          rw [hslots, Entry.content, if_neg hw]

theorem Tallies.backtracked (h : start.Tallies es c) (mark : Nat) :
    start.Tallies (es.drop (c.trail.length - mark)) (c.backtracked mark) where
  entries := by
    rw [Scope.backtracked, Trail.backtrack_eq, h.entries, List.map_drop]
  roles v := by
    rw [Scope.backtracked, Trail.backtrack_eq, h.entries]
    exact (h.restore _ v).1
  slots v := by
    rw [Scope.backtracked, Trail.backtrack_eq, h.entries]
    exact (h.restore _ v).2
  linked := by
    have hall := h.linked
    rw [← List.take_append_drop (c.trail.length - mark) es] at hall
    exact hall.of_append

/-- What is saved of ordinary variables is empty slots. -/
theorem Tallies.savesEmpty (h : start.Tallies es c) : c.trail.SavesEmpty c.world.store := by
  intro saved hmem hcell
  rw [h.entries] at hmem
  obtain ⟨e, he, rfl⟩ := List.mem_map.mp hmem
  obtain ⟨newer, older, rfl⟩ := List.append_of_mem he
  rw [h.roles] at hcell
  exact (h.linked newer e older rfl).2 hcell

/-! ### Everything that is done with a trail -/

/-- An empty trail, and no ordinary variable that is bound. -/
structure Blank (c : Scope S) : Prop where
  trail : c.trail = .empty
  unbound : ∀ v, c.world.store.isBound v = false

theorem Blank.chainsEnd (h : c.Blank) : c.world.store.ChainsEnd :=
  Store.chainsEnd_of_not_isBound h.unbound

variable (T) in
/-- A unification, which may fail, or going back. -/
inductive Works : Scope S → Scope S → Prop
  | unify {c d : Scope S} {n : Nat} {a b : S.Term} {r : Bool} :
      GoalSearch.unify T n a b c = .ok r d → Works c d
  | backtrack {c d : Scope S} {mark k : Nat} : Scope.backtrack mark c = .ok k d → Works c d

variable (T) in
/-- The entries on the trail, with what was written after them, as they are kept turn by
turn: a unification adds some, and going back removes as many as it says. -/
inductive Kept (start : Scope S) : List (Entry S) → Scope S → Prop
  | start : Kept start [] start
  | unify {c d : Scope S} {es ws : List (Entry S)} {n : Nat} {a b : S.Term} {r : Bool} :
      Kept start es c → GoalSearch.unify T n a b c = .ok r d → c.Writes ws d →
      Kept start (ws ++ es) d
  | backtrack {c d : Scope S} {es : List (Entry S)} {mark k : Nat} :
      Kept start es c → Scope.backtrack mark c = .ok k d → Kept start (es.drop k) d

theorem Kept.tallies (hstart : start.Blank) (h : Kept T start es c) :
    start.Tallies es c ∧ c.world.store.ChainsEnd := by
  induction h with
  | start => exact ⟨tallies_start hstart.trail, hstart.chainsEnd⟩
  | unify _ _ hws ih => exact ⟨ih.1.writes hws, hws.chainsEnd ih.2⟩
  | @backtrack c d es mark k _ hback ih =>
    rw [backtrack_apply] at hback
    cases hback
    exact ⟨ih.1.backtracked mark, (safe_backtracked ih.1.savesEmpty mark).chains ih.2⟩

/-- Every turn keeps the entries, and those that it does not remove stay as they are. -/
theorem Kept.turn (hT : T.GuardsFunctional f) (hstart : start.Blank) (h : Kept T start es c)
    (hturn : Works T c d) :
    ∃ es', Kept T start es' d ∧ ((∃ ws, es' = ws ++ es) ∨ ∃ k, es' = es.drop k) := by
  cases hturn with
  | unify hunify =>
    obtain ⟨ws, hws⟩ := (unify_writes hT _ _ _ c (h.tallies hstart).2).ok hunify
    exact ⟨_, .unify h hunify hws, .inl ⟨ws, rfl⟩⟩
  | backtrack hback => exact ⟨_, .backtrack h hback, .inr ⟨_, rfl⟩⟩

theorem exists_kept (hT : T.GuardsFunctional f) (hstart : start.Blank)
    (h : Relation.ReflTransGen (Works T) start c) : ∃ es, Kept T start es c := by
  induction h with
  | refl => exact ⟨[], .start⟩
  | tail _ hturn ih =>
    obtain ⟨es, hes⟩ := ih
    obtain ⟨es', hes', -⟩ := hes.turn hT hstart hturn
    exact ⟨es', hes'⟩

/-- An entry stays as long as the trail is longer than what lies below it. -/
theorem Kept.turns (hT : T.GuardsFunctional f) (hstart : start.Blank) {newer older : List (Entry S)}
    {entry : Entry S} (h : Kept T start (newer ++ entry :: older) c)
    (hturns : Relation.ReflTransGen
      (fun x y => Works T x y ∧ older.length < y.trail.length) c d) :
    ∃ newer', Kept T start (newer' ++ entry :: older) d := by
  induction hturns with
  | refl => exact ⟨newer, h⟩
  | @tail x y _ hturn ih =>
    obtain ⟨newer', hx⟩ := ih
    obtain ⟨es', hy, hes'⟩ := hx.turn hT hstart hturn.1
    rcases hes' with ⟨ws, rfl⟩ | ⟨k, rfl⟩
    · exact ⟨ws ++ newer', by rwa [List.append_assoc]⟩
    · -- so little is removed that the entry is not reached
      have hlength := hturn.2
      rw [Trail.length, (hy.tallies hstart).1.entries] at hlength
      simp only [List.length_map, List.length_drop, List.length_append, List.length_cons]
        at hlength
      refine ⟨newer'.drop k, ?_⟩
      rwa [List.drop_append_of_le_length (by omega)] at hy

variable (T start c) in
/-- What the trail of `c` says of the slots, when it was blank at `start`.  An ordinary
variable is bound exactly while one entry names it, which has saved an empty slot, and
otherwise no entry does.  Its slot stays as it is until the trail goes back beyond this
entry.  The entries are kept turn by turn, and each of them has saved what the entry before
it on the same variable wrote, or what the slot held at `start`. -/
structure Accounted : Prop where
  naming : ∀ v, c.world.store.isCell v = false →
    (c.world.store.isBound v = true ∧
        c.trail.entries.filter (fun e => e.var = v) = [⟨v, none⟩]) ∨
      (c.world.store.isBound v = false ∧ c.trail.entries.filter (fun e => e.var = v) = [])
  lasting : ∀ v newer older, c.world.store.isCell v = false →
    c.trail.entries = newer ++ ⟨v, none⟩ :: older →
    ∀ d, Relation.ReflTransGen (fun x y => Works T x y ∧ older.length < y.trail.length) c d →
      d.world.store.binding v = c.world.store.binding v ∧
        ∃ newer', d.trail.entries = newer' ++ ⟨v, none⟩ :: older
  kept : ∃ es, Kept T start es c
  linked : ∀ es, Kept T start es c →
    c.trail.entries = es.map Entry.saved ∧
      (∀ v, c.world.store.binding v = Entry.content start.world.store es v) ∧
      ∀ newer e older, es = newer ++ e :: older →
        e.saved.previous = Entry.content start.world.store older e.saved.var

/-- Whatever was unified and undone on a trail that was blank, its entries account for all
slots. -/
theorem entries_account (hT : T.GuardsFunctional f) (hstart : start.Blank)
    (h : Relation.ReflTransGen (Works T) start c) : Accounted T start c := by
  obtain ⟨es, hes⟩ := exists_kept hT hstart h
  obtain ⟨htallies, -⟩ := hes.tallies hstart
  refine ⟨fun v hv => ?_, fun v newer older hv heq d hturns => ?_, ⟨es, hes⟩, fun es hes => ?_⟩
  · rw [htallies.roles] at hv
    have hempty := Store.binding_of_not_isBound hv (hstart.unbound v)
    rw [Store.isBound, htallies.roles, hv, htallies.slots, htallies.entries]
    -- A variable without an entry is as empty as it was; the others are named by their newest.
    rcases htallies.linked.naming hv hempty with ⟨hnone, hnaming⟩ | ⟨hsome, hnaming⟩
    · exact .inr ⟨by rw [hnone]; rfl, hnaming⟩
    · exact .inl ⟨by rw [hsome]; rfl, hnaming⟩
  · -- the entry of an ordinary variable is its newest, so while it stays the slot does
    rw [htallies.entries] at heq
    obtain ⟨newerEntries, rest, rfl, rfl, hrest⟩ := List.map_eq_append_iff.mp heq
    obtain ⟨entry, olderEntries, rfl, hentry, rfl⟩ := List.map_eq_cons_iff.mp hrest
    rw [List.length_map] at hturns
    obtain ⟨newer', hd⟩ := hes.turns hT hstart hturns
    obtain ⟨hdtallies, -⟩ := hd.tallies hstart
    rw [htallies.roles] at hv
    have hvar : entry.saved.var = v := by rw [hentry]
    have hcell : start.world.store.isCell entry.saved.var = false := by rw [hvar, hv]
    constructor
    · rw [hdtallies.slots, htallies.slots, ← hvar, hdtallies.linked.content_of_mem hcell,
        htallies.linked.content_of_mem hcell]
    · refine ⟨newer'.map Entry.saved, ?_⟩
      rw [hdtallies.entries, List.map_append, List.map_cons, hentry]
  · obtain ⟨htallies, -⟩ := hes.tallies hstart
    exact ⟨htallies.entries, htallies.slots,
      fun newer e older heq => (htallies.linked newer e older heq).1⟩

/-! ### Turns that are computed -/

theorem works_unified (h : Relation.ReflTransGen (Works T) start c) (n : Nat) (a b : S.Term) :
    Relation.ReflTransGen (Works T) start (c.unified T n a b) := by
  rw [unified]
  cases hc : GoalSearch.unify T n a b c with
  | ok r d => exact h.tail (.unify hc)
  | error e d => exact h

theorem works_backtracked (h : Relation.ReflTransGen (Works T) start c) (mark : Nat) :
    Relation.ReflTransGen (Works T) start (c.backtracked mark) :=
  h.tail (.backtrack (backtrack_apply mark c))

end Scope

theorem Bounds.guardsFunctional : Bounds.theory.GuardsFunctional fun bounds value _ =>
    match value with
    | .int n => bounds.1 ≤ n ∧ n ≤ bounds.2
    | _ => false where
  decides := Bounds.guardsPure.decides
  congr _ _ _ _ _ _ := rfl

/-- A scope in which a plain variable, a cell that holds zero and a restricted variable are
made, and nothing is bound. -/
def Bounds.blank : Scope Bounds.vocabulary := ⟨.empty, ⟨Bounds.variables, 0, (), []⟩⟩

theorem Bounds.blank_blank : Bounds.blank.Blank where
  trail := rfl
  unbound v := by
    obtain ⟨_ | _ | _ | _ | i⟩ := v <;> rfl

/-- The cell is given five; two lists are unified in vain after their first elements were,
and this is undone; then the cell is given six and the restricted variable three.  One
entry names the restricted variable, none the plain one, and two the cell. -/
theorem Scope.entries_account_sample : ∃ c : Scope Bounds.vocabulary,
    Relation.ReflTransGen (Works Bounds.theory) Bounds.blank c ∧
      c.trail.entries.map Saved.var = [⟨3⟩, ⟨2⟩, ⟨2⟩] ∧
      Accounted Bounds.theory Bounds.blank c := by
  let x : Bounds.vocabulary.Term := .var ⟨1⟩
  let cell : Bounds.vocabulary.Term := .var ⟨2⟩
  let small : Bounds.vocabulary.Term := .var ⟨3⟩
  have h₀ : Relation.ReflTransGen (Works Bounds.theory) Bounds.blank Bounds.blank := .refl
  have h₁ := works_unified h₀ 3 cell (.int 5)
  have h₂ := works_unified h₁ 3 (.list [x, small]) (.list [.int 7, .int 8])
  have h₃ := works_unified (works_backtracked h₂ 1) 3 cell (.int 6)
  have h₄ := works_unified h₃ 3 small (.int 3)
  exact ⟨_, h₄, by decide +kernel, entries_account Bounds.guardsFunctional Bounds.blank_blank h₄⟩

end GoalSearch
