/-
Goals that are grouped in another way.

The same goals may be put together in several ways: sequences and disjunctions
may be nested or flat, a disjunction in front of a sequence may be distributed
over what follows it, and nested goals of which only the first solution counts
need only one of the combinators that say so.

* `Goal.Flattens`, `Goal.Regroups` — ways to group goals that should not matter;
* `Goal.Context` — goals and code around the place where goals are regrouped;
* `Goal.Layer` — goals made alike of parts that are related;
* `Goal.Congruence` — relations of goals that are regrouped or made alike.

Design notes: a context is a function from goals to goals, since its place may
be inside code that makes goals, and there may be several such places.  What
code that only asks makes is a context again, so such code is one piece that
ends with functions.  Contexts give rise to a congruence, which is all that the
comparison of two runs needs: it looks at one layer of the two goals at a time.
-/
import GoalSearch.Proofs.Matching

namespace GoalSearch

open GoalSearch.Action

variable {S : Vocabulary} {T : Theory S} {α β : Type}

/-! ### Ways to group goals -/

namespace Goal

/-- A combinator of lists of goals, with `unit` for the empty list, may be left
out, nested or applied to more units. -/
inductive Flattens (unit : Goal S) (join : List (Goal S) → Goal S) : Goal S → Goal S → Prop
  | empty : Flattens unit join (join []) unit
  | single (g : Goal S) : Flattens unit join (join [g]) g
  | nested (as bs cs : List (Goal S)) :
      Flattens unit join (join (as ++ join bs :: cs)) (join (as ++ bs ++ cs))
  | neutral (as cs : List (Goal S)) :
      Flattens unit join (join (as ++ unit :: cs)) (join (as ++ cs))

/-- Two ways to group the same goals. -/
inductive Regroups : Goal S → Goal S → Prop
  | sequences {g g' : Goal S} : Flattens succeed sequence g g' → Regroups g g'
  | disjunctions {g g' : Goal S} : Flattens fail disjunction g g' → Regroups g g'
  | distributed (bs cs : List (Goal S)) :
      Regroups (sequence (disjunction bs :: cs)) (disjunction (bs.map fun b => sequence (b :: cs)))
  | once_once (g : Goal S) : Regroups (once (once g)) (once g)
  | notNot_notNot (g : Goal S) : Regroups (notNot (notNot g)) (notNot g)
  | notNot_once (g : Goal S) : Regroups (notNot (once g)) (notNot g)

/-- A sequence is collapsed where it is a matter of grouping only. -/
theorem regroups_conjunct : ∀ gs : List (Goal S),
    Regroups (sequence gs) (conjunct gs) ∨ sequence gs = conjunct gs
  | [] => .inl (.sequences .empty)
  | [g] => .inl (.sequences (.single g))
  | _ :: _ :: _ => .inr rfl

end Goal

/-! ### Contexts -/

/-- Programs around a goal: the goals that they run are contexts in `K`, and so
are those of the programs with which they end. -/
inductive Program.Context (K : (Goal S → Goal S) → Prop) :
    {κ : Kind} → (Goal S → Program S (Goal S) κ) → Prop
  | verdict (b : Bool) : Context K fun _ => .verdict b
  | attempt (r : Option Bool) : Context K fun _ => .attempt r
  | candidates {draw : Nat → Quiet S (Option (Goal S → Program S (Goal S) .verdict))} :
      (∀ i P, (draw i).Yields (some P) → Context K P) →
      Context K fun x => .candidates fun i => Option.map (· x) <$> draw i
  | exhausted : Context K fun _ => .choices none
  | choices {make : Nat → Goal S → Program S (Goal S) .attempt} :
      (∀ i, Context K (make i)) → Context K fun x => .choices (some fun i => make i x)
  | ask {κ : Kind} {q : Ask S} {next : q.Answer → Goal S → Program S (Goal S) κ} :
      (∀ r, Context K (next r)) → Context K fun x => .ask q fun r => next r x
  | unify {κ : Kind} {a b : S.Term} {next : Bool → Goal S → Program S (Goal S) κ} :
      (∀ r, Context K (next r)) → Context K fun x => .unify a b fun r => next r x
  | execute {κ : Kind} {C : Goal S → Goal S} {next : Bool → Goal S → Program S (Goal S) κ} :
      K C → (∀ r, Context K (next r)) → Context K fun x => .execute (C x) fun r => next r x
  | findFirst {κ : Kind} {C : Goal S → Goal S} {t : S.Term}
      {next : Option S.Term → Goal S → Program S (Goal S) κ} :
      K C → (∀ r, Context K (next r)) → Context K fun x => .findFirst (C x) t fun r => next r x
  | findAll {κ : Kind} {C : Goal S → Goal S} {t : S.Term}
      {next : List S.Term → Goal S → Program S (Goal S) κ} :
      K C → (∀ r, Context K (next r)) → Context K fun x => .findAll (C x) t fun r => next r x
  | view {κ : Kind} {next : View → Goal S → Program S (Goal S) κ} :
      (∀ v, Context K (next v)) → Context K fun x => .view fun v => next v x
  | resetStatistics {κ : Kind} {next : Goal S → Program S (Goal S) κ} :
      Context K next → Context K fun x => .resetStatistics (next x)
  | renew {κ : Kind} {next : Goal S → Program S (Goal S) κ} :
      Context K next → Context K fun x => .renew (next x)
  | loop {κ : Kind} {round : Goal S → Program S (Goal S) .attempt}
      {next : Bool → Goal S → Program S (Goal S) κ} :
      Context K round → (∀ r, Context K (next r)) →
      Context K fun x => .loop (round x) fun r => next r x

/-- Goals around a goal, which may stand inside all combinators, in the bodies of
loops, and in the code of steps and searches. -/
inductive Goal.Context : (Goal S → Goal S) → Prop
  | hole : Context fun x => x
  | const (g : Goal S) : Context fun _ => g
  | nondeterministic {prepare : Goal S → Program S (Goal S) .candidates}
      {validate : Goal S → Program S (Goal S) .verdict} :
      Program.Context Goal.Context prepare → Program.Context Goal.Context validate →
      Context fun x => .call (.nondeterministic (prepare x) (validate x))
  | semideterministic {prepare validate : Goal S → Program S (Goal S) .verdict} :
      Program.Context Goal.Context prepare → Program.Context Goal.Context validate →
      Context fun x => .call (.semideterministic (prepare x) (validate x))
  | deterministic {prepare : Goal S → Program S (Goal S) .verdict} :
      Program.Context Goal.Context prepare → Context fun x => .call (.deterministic (prepare x))
  | sequence {Cs : List (Goal S → Goal S)} :
      (∀ C ∈ Cs, Context C) → Context fun x => .sequence (Cs.map (· x))
  | disjunction {Cs : List (Goal S → Goal S)} :
      (∀ C ∈ Cs, Context C) → Context fun x => .disjunction (Cs.map (· x))
  | once {C : Goal S → Goal S} : Context C → Context fun x => .once (C x)
  | notNot {C : Goal S → Goal S} : Context C → Context fun x => .notNot (C x)
  | loop {test : View → Quiet S Bool} {body : View → Quiet S (Goal S → Goal S)} :
      (∀ v C, (body v).Yields C → Context C) →
      Context fun x => .loop test fun v => (· x) <$> body v
  | search {handler : Quiet S (Goal S → Program S (Goal S) .choices)} :
      (∀ P, handler.Yields P → Program.Context Goal.Context P) →
      Context fun x => .search ((· x) <$> handler)

/-! ### Code made alike -/

/-- Code that asks the same on both sides and ends with values in `R`. -/
def Quiet.Akin (R : α → β → Prop) (x : Quiet S α) (y : Quiet S β) : Prop :=
  ∃ q : Quiet S (α × β), x = Prod.fst <$> q ∧ y = Prod.snd <$> q ∧ ∀ p, q.Yields p → R p.1 p.2

/-- Programs that do the same on both sides, whatever they may see of the engine,
but for the goals that they run, which are in `R`. -/
inductive Program.Akin (R : Goal S → Goal S → Prop) :
    {κ : Kind} → Program S (Goal S) κ → Program S (Goal S) κ → Prop
  | verdict (b : Bool) : Akin R (.verdict b) (.verdict b)
  | attempt (r : Option Bool) : Akin R (.attempt r) (.attempt r)
  | candidates {draw : Nat → Quiet S
        (Option (Program S (Goal S) .verdict × Program S (Goal S) .verdict))} :
      (∀ i p, (draw i).Yields (some p) → Akin R p.1 p.2) →
      Akin R (.candidates fun i => Option.map Prod.fst <$> draw i)
        (.candidates fun i => Option.map Prod.snd <$> draw i)
  | exhausted : Akin R (.choices none) (.choices none)
  | choices {make make' : Nat → Program S (Goal S) .attempt} :
      (∀ i, Akin R (make i) (make' i)) → Akin R (.choices (some make)) (.choices (some make'))
  | ask {κ : Kind} {q : Ask S} {next next' : q.Answer → Program S (Goal S) κ} :
      (∀ r, Akin R (next r) (next' r)) → Akin R (.ask q next) (.ask q next')
  | unify {κ : Kind} {a b : S.Term} {next next' : Bool → Program S (Goal S) κ} :
      (∀ r, Akin R (next r) (next' r)) → Akin R (.unify a b next) (.unify a b next')
  | execute {κ : Kind} {g g' : Goal S} {next next' : Bool → Program S (Goal S) κ} :
      R g g' → (∀ r, Akin R (next r) (next' r)) → Akin R (.execute g next) (.execute g' next')
  | findFirst {κ : Kind} {g g' : Goal S} {t : S.Term}
      {next next' : Option S.Term → Program S (Goal S) κ} :
      R g g' → (∀ r, Akin R (next r) (next' r)) →
      Akin R (.findFirst g t next) (.findFirst g' t next')
  | findAll {κ : Kind} {g g' : Goal S} {t : S.Term}
      {next next' : List S.Term → Program S (Goal S) κ} :
      R g g' → (∀ r, Akin R (next r) (next' r)) → Akin R (.findAll g t next) (.findAll g' t next')
  | view {κ : Kind} {next next' : View → Program S (Goal S) κ} :
      (∀ v v', v.Beside v' → Akin R (next v) (next' v')) → Akin R (.view next) (.view next')
  | resetStatistics {κ : Kind} {next next' : Program S (Goal S) κ} :
      Akin R next next' → Akin R (.resetStatistics next) (.resetStatistics next')
  | loop {κ : Kind} {round round' : Program S (Goal S) .attempt}
      {next next' : Bool → Program S (Goal S) κ} :
      Akin R round round' → (∀ r, Akin R (next r) (next' r)) →
      Akin R (.loop round next) (.loop round' next')

/-- Values whose programs do the same on both sides. -/
def Program.Value.Akin (R : Goal S → Goal S → Prop) :
    {κ : Kind} → Program.Value S (Goal S) κ → Program.Value S (Goal S) κ → Prop
  | .verdict, a, b => a = b
  | .attempt, a, b => a = b
  | .candidates, draw, draw' => ∀ i, (draw i).Akin (Option.Rel (Program.Akin R)) (draw' i)
  | .choices, make, make' => Option.Rel (fun f f' => ∀ i, Program.Akin R (f i) (f' i)) make make'

/-- Goals made alike of parts that are in `R`. -/
inductive Goal.Layer (R : Goal S → Goal S → Prop) : Goal S → Goal S → Prop
  | succeed : Layer R .succeed .succeed
  | fail : Layer R .fail .fail
  | nondeterministic {prepare prepare' : Program S (Goal S) .candidates}
      {validate validate' : Program S (Goal S) .verdict} :
      prepare.Akin R prepare' → validate.Akin R validate' →
      Layer R (.call (.nondeterministic prepare validate))
        (.call (.nondeterministic prepare' validate'))
  | semideterministic {prepare prepare' validate validate' : Program S (Goal S) .verdict} :
      prepare.Akin R prepare' → validate.Akin R validate' →
      Layer R (.call (.semideterministic prepare validate))
        (.call (.semideterministic prepare' validate'))
  | deterministic {prepare prepare' : Program S (Goal S) .verdict} :
      prepare.Akin R prepare' →
      Layer R (.call (.deterministic prepare)) (.call (.deterministic prepare'))
  | sequence {gs gs' : List (Goal S)} :
      List.Forall₂ R gs gs' → Layer R (.sequence gs) (.sequence gs')
  | disjunction {gs gs' : List (Goal S)} :
      List.Forall₂ R gs gs' → Layer R (.disjunction gs) (.disjunction gs')
  | once {g g' : Goal S} : R g g' → Layer R (.once g) (.once g')
  | notNot {g g' : Goal S} : R g g' → Layer R (.notNot g) (.notNot g')
  | loop {test test' : View → Quiet S Bool} {body body' : View → Quiet S (Goal S)} :
      (∀ v v', v.Beside v' → test v = test' v' ∧ (body v).Akin R (body' v')) →
      Layer R (.loop test body) (.loop test' body')
  | search {handler handler' : Quiet S (Program S (Goal S) .choices)} :
      handler.Akin (Program.Akin R) handler' → Layer R (.search handler) (.search handler')

/-- Goals that do not tell apart machines beside each other. -/
abbrev Goal.Unaware (g : Goal S) : Prop := g.Heeds View.Beside Eq

/-- Relations of goals that do not tell apart machines beside each other, and are
regrouped or made alike of related parts. -/
structure Goal.Congruence (R : Goal S → Goal S → Prop) : Prop where
  unaware : ∀ {g g'}, R g g' → g.Unaware ∧ g'.Unaware
  refl : ∀ {g}, g.Unaware → R g g
  single : ∀ {g g'}, R g g' → R (.sequence [g]) (.sequence [g'])
  cases : ∀ {g g'}, R g g' → g.Regroups g' ∨ g'.Regroups g ∨ g.Layer R g'

section Akin

variable {R : Goal S → Goal S → Prop}

theorem Quiet.map_map {γ : Type} (f : α → β) (g : β → γ) (x : Quiet S α) :
    g <$> (f <$> x) = (fun a => g (f a)) <$> x := by
  induction x with
  | done a => rfl
  | ask q next ih => exact congrArg (Quiet.ask q) (funext ih)

theorem Quiet.map_id (x : Quiet S α) : id <$> x = x := by
  induction x with
  | done a => rfl
  | ask q next ih => exact congrArg (Quiet.ask q) (funext ih)

theorem Quiet.Yields.map {x : Quiet S α} {a : α} (h : x.Yields a) (f : α → β) :
    (f <$> x).Yields (f a) := by
  induction h with
  | done a => exact .done (f a)
  | ask r _ ih => exact .ask r ih

theorem Quiet.Yields.of_map {x : Quiet S α} {f : α → β} {b : β} (h : (f <$> x).Yields b) :
    ∃ a, x.Yields a ∧ b = f a := by
  induction x with
  | done a =>
    cases h
    exact ⟨a, .done a, rfl⟩
  | ask q next ih =>
    cases h with
    | ask r h =>
      obtain ⟨a, ha, rfl⟩ := ih r h
      exact ⟨a, .ask r ha, rfl⟩

/-- Code that is mapped in two ways asks the same. -/
theorem Quiet.akin_map {γ : Type} {P : β → γ → Prop} {x : Quiet S α} {f : α → β} {g : α → γ}
    (h : ∀ a, x.Yields a → P (f a) (g a)) : (f <$> x).Akin P (g <$> x) := by
  refine ⟨(fun a => (f a, g a)) <$> x, ?_, ?_, fun p hp => ?_⟩
  · rw [Quiet.map_map]
  · rw [Quiet.map_map]
  · obtain ⟨a, ha, rfl⟩ := hp.of_map
    exact h a ha

theorem Quiet.akin_refl {P : α → α → Prop} {x : Quiet S α} (h : ∀ a, x.Yields a → P a a) :
    x.Akin P x := by
  have hmap := Quiet.akin_map (f := id) (g := id) h
  rwa [Quiet.map_id] at hmap

theorem Quiet.Akin.mono {P P' : α → β → Prop} {x : Quiet S α} {y : Quiet S β} (h : x.Akin P y)
    (hP : ∀ a b, P a b → P' a b) : x.Akin P' y := by
  obtain ⟨q, hx, hy, hq⟩ := h
  exact ⟨q, hx, hy, fun p hp => hP p.1 p.2 (hq p hp)⟩

theorem Quiet.akin_of_eq {x y : Quiet S α} (h : x = y) : x.Akin Eq y :=
  h ▸ Quiet.akin_refl fun _ _ => rfl

/-- Candidates that are drawn alike and mapped in two ways. -/
theorem Program.akin_candidates {ι : Type} {draw : Nat → Quiet S (Option ι)}
    {f f' : ι → Program S (Goal S) .verdict}
    (h : ∀ i a, (draw i).Yields (some a) → Program.Akin R (f a) (f' a)) :
    Program.Akin R (.candidates fun i => Option.map f <$> draw i)
      (.candidates fun i => Option.map f' <$> draw i) := by
  have hpairs : ∀ i p, (Option.map (fun a => (f a, f' a)) <$> draw i).Yields (some p) →
      Program.Akin R p.1 p.2 := by
    intro i p hp
    obtain ⟨o, ho, hmap⟩ := hp.of_map
    obtain ⟨a, rfl, rfl⟩ := Option.map_eq_some_iff.mp hmap.symm
    exact h i a ho
  have hakin := Program.Akin.candidates hpairs
  simpa only [Quiet.map_map, Option.map_map, Function.comp_def] using hakin

variable (hrefl : ∀ g : Goal S, g.Unaware → R g g)

include hrefl

/-- A program that does not tell apart machines beside each other does the same
on both sides. -/
theorem Program.akin_refl {κ : Kind} {p : Program S (Goal S) κ}
    (hp : p.Heeds View.Beside Eq Goal.Unaware) : Program.Akin R p p := by
  induction hp with
  | verdict b => exact .verdict b
  | attempt r => exact .attempt r
  | candidates _ _ ih =>
    have hakin := Program.akin_candidates (f := id) ih
    simpa only [Option.map_id_fun, Option.map_id_fun', Quiet.map_id] using hakin
  | @choices make _ ih =>
    cases make with
    | none => exact .exhausted
    | some make => exact .choices (ih make rfl)
  | ask _ _ ih | store _ _ ih => exact .ask ih
  | unify _ ih => exact .unify ih
  | execute hg _ ih => exact .execute (hrefl _ hg) ih
  | findFirst hg _ ih => exact .findFirst (hrefl _ hg) ih
  | findAll hg _ ih => exact .findAll (hrefl _ hg) ih
  | view heq _ ih =>
    refine .view fun v v' hv => ?_
    rw [← heq v v' hv]
    exact ih v
  | resetStatistics _ ih => exact .resetStatistics ih
  | loop _ _ ihround ih => exact .loop ihround ih

theorem Goal.layer_refl {g : Goal S} (hg : g.Unaware) : Goal.Layer R g g := by
  have hgs : ∀ gs : List (Goal S), (∀ g ∈ gs, g.Unaware) → List.Forall₂ R gs gs :=
    fun gs hgs => List.forall₂_same.mpr fun g hg => hrefl g (hgs g hg)
  cases hg with
  | succeed => exact .succeed
  | fail => exact .fail
  | nondeterministic hprepare hvalidate =>
    exact .nondeterministic (Program.akin_refl hrefl hprepare) (Program.akin_refl hrefl hvalidate)
  | semideterministic hprepare hvalidate =>
    exact .semideterministic (Program.akin_refl hrefl hprepare) (Program.akin_refl hrefl hvalidate)
  | deterministic hprepare => exact .deterministic (Program.akin_refl hrefl hprepare)
  | sequence h => exact .sequence (hgs _ h)
  | disjunction h => exact .disjunction (hgs _ h)
  | once h => exact .once (hrefl _ h)
  | notNot h => exact .notNot (hrefl _ h)
  | loop heq _ _ hbody =>
    refine .loop fun v v' hv => ⟨(heq v v' hv).1, ?_⟩
    rw [← (heq v v' hv).2]
    exact Quiet.akin_refl fun g hg => hrefl g (hbody v g hg)
  | search _ hlevel =>
    exact .search (Quiet.akin_refl fun p hp => Program.akin_refl hrefl (hlevel p hp))

end Akin

/-! ### Contexts give rise to congruences -/

/-- Goals in the same context that do not tell apart machines beside each other. -/
def Goal.Placed (g g' a b : Goal S) : Prop :=
  ∃ C, Goal.Context C ∧ a = C g ∧ b = C g' ∧ a.Unaware ∧ b.Unaware

section Placed

variable {g g' : Goal S}

theorem Goal.Context.placed {C : Goal S → Goal S} (hC : Goal.Context C) (h : (C g).Unaware)
    (h' : (C g').Unaware) : Goal.Placed g g' (C g) (C g') :=
  ⟨C, hC, rfl, rfl, h, h'⟩

theorem Goal.placed_refl {a : Goal S} (h : a.Unaware) : Goal.Placed g g' a a :=
  (Goal.Context.const a).placed h h

theorem Goal.placed_map {Cs : List (Goal S → Goal S)} (hC : ∀ C ∈ Cs, Goal.Context C)
    (h : ∀ a ∈ Cs.map (· g), a.Unaware) (h' : ∀ a ∈ Cs.map (· g'), a.Unaware) :
    List.Forall₂ (Goal.Placed g g') (Cs.map (· g)) (Cs.map (· g')) := by
  rw [List.forall₂_map_left_iff, List.forall₂_map_right_iff]
  refine List.forall₂_same.mpr fun C hCs => (hC C hCs).placed ?_ ?_
  · exact h _ (List.mem_map_of_mem hCs)
  · exact h' _ (List.mem_map_of_mem hCs)

theorem Program.Heeds.of_ask {V : View → View → Prop} {Q : Store S → Store S → Prop}
    {P : Goal S → Prop} {κ : Kind} {q : Ask S} {next : q.Answer → Program S (Goal S) κ}
    (h : (Program.ask q next).Heeds V Q P) (r : q.Answer) : (next r).Heeds V Q P := by
  cases h with
  | ask _ h => exact h r
  | store _ h => exact h r

theorem Program.Context.akin {κ : Kind} {P : Goal S → Program S (Goal S) κ}
    (hP : Program.Context Goal.Context P) (h : (P g).Heeds View.Beside Eq Goal.Unaware)
    (h' : (P g').Heeds View.Beside Eq Goal.Unaware) :
    Program.Akin (Goal.Placed g g') (P g) (P g') := by
  induction hP with
  | verdict b => exact .verdict b
  | attempt r => exact .attempt r
  | candidates _ ih =>
    cases h with
    | candidates _ h =>
    cases h' with
    | candidates _ h' =>
    refine Program.akin_candidates fun i P hyields => ih i P hyields ?_ ?_
    · exact h i _ (hyields.map _)
    · exact h' i _ (hyields.map _)
  | exhausted => exact .exhausted
  | choices _ ih =>
    cases h with
    | choices h =>
    cases h' with
    | choices h' => exact .choices fun i => ih i (h _ rfl i) (h' _ rfl i)
  | ask _ ih => exact .ask fun r => ih r (h.of_ask r) (h'.of_ask r)
  | unify _ ih =>
    cases h with
    | unify h =>
    cases h' with
    | unify h' => exact .unify fun r => ih r (h r) (h' r)
  | execute hC _ ih =>
    cases h with
    | execute hg h =>
    cases h' with
    | execute hg' h' => exact .execute (hC.placed hg hg') fun r => ih r (h r) (h' r)
  | findFirst hC _ ih =>
    cases h with
    | findFirst hg h =>
    cases h' with
    | findFirst hg' h' => exact .findFirst (hC.placed hg hg') fun r => ih r (h r) (h' r)
  | findAll hC _ ih =>
    cases h with
    | findAll hg h =>
    cases h' with
    | findAll hg' h' => exact .findAll (hC.placed hg hg') fun r => ih r (h r) (h' r)
  | @view _ next _ ih =>
    cases h with
    | view heq h =>
    cases h' with
    | view heq' h' =>
    refine .view fun v v' hv => ?_
    -- The program does not see in which of the two views it is asked.
    have hsame : next v g' = next v' g' := heq' v v' hv
    rw [← hsame]
    exact ih v (h v) (h' v)
  | resetStatistics _ ih =>
    cases h with
    | resetStatistics h =>
    cases h' with
    | resetStatistics h' => exact .resetStatistics (ih h h')
  | renew => nomatch h
  | loop _ _ ihround ih =>
    cases h with
    | loop hround h =>
    cases h' with
    | loop hround' h' => exact .loop (ihround hround hround') fun r => ih r (h r) (h' r)

/-- A context is a hole, or makes on both sides the same layer over goals that are placed
alike. -/
theorem Goal.Context.hole_or_layer {C : Goal S → Goal S} (hC : Goal.Context C)
    (ha : (C g).Unaware) (hb : (C g').Unaware) :
    (C g = g ∧ C g' = g') ∨ Goal.Layer (Goal.Placed g g') (C g) (C g') := by
  cases hC with
  | hole => exact .inl ⟨rfl, rfl⟩
  | const a => exact .inr (Goal.layer_refl (fun _ => Goal.placed_refl) ha)
  | nondeterministic hprepare hvalidate =>
    cases ha with
    | nondeterministic hp hv =>
    cases hb with
    | nondeterministic hp' hv' =>
    exact .inr (.nondeterministic (hprepare.akin hp hp') (hvalidate.akin hv hv'))
  | semideterministic hprepare hvalidate =>
    cases ha with
    | semideterministic hp hv =>
    cases hb with
    | semideterministic hp' hv' =>
    exact .inr (.semideterministic (hprepare.akin hp hp') (hvalidate.akin hv hv'))
  | deterministic hprepare =>
    cases ha with
    | deterministic hp =>
    cases hb with
    | deterministic hp' => exact .inr (.deterministic (hprepare.akin hp hp'))
  | sequence hCs =>
    cases ha with
    | sequence ha =>
    cases hb with
    | sequence hb => exact .inr (.sequence (Goal.placed_map hCs ha hb))
  | disjunction hCs =>
    cases ha with
    | disjunction ha =>
    cases hb with
    | disjunction hb => exact .inr (.disjunction (Goal.placed_map hCs ha hb))
  | once hC =>
    cases ha with
    | once ha =>
    cases hb with
    | once hb => exact .inr (.once (hC.placed ha hb))
  | notNot hC =>
    cases ha with
    | notNot ha =>
    cases hb with
    | notNot hb => exact .inr (.notNot (hC.placed ha hb))
  | @loop test body hbody =>
    cases ha with
    | loop heq _ _ ha =>
    cases hb with
    | loop heq' _ _ hb =>
    refine .inr (.loop fun v v' hv => ⟨(heq v v' hv).1, ?_⟩)
    -- The body does not see in which of the two views it is asked.
    have hsame : (· g') <$> body v = (· g') <$> body v' := (heq' v v' hv).2
    rw [← hsame]
    exact Quiet.akin_map fun C hC =>
      (hbody v C hC).placed (ha v _ (hC.map _)) (hb v _ (hC.map _))
  | search hlevel =>
    cases ha with
    | search _ ha =>
    cases hb with
    | search _ hb =>
    refine .inr (.search (Quiet.akin_map fun P hP => ?_))
    exact (hlevel P hP).akin (ha _ (hP.map _)) (hb _ (hP.map _))

/-- Goals in the same context are a congruence if they are regrouped where they
differ. -/
theorem Goal.congruence_placed (h : g.Regroups g' ∨ g'.Regroups g) :
    Goal.Congruence (Goal.Placed g g') where
  unaware := by
    rintro _ _ ⟨C, -, rfl, rfl, ha, hb⟩
    exact ⟨ha, hb⟩
  refl := Goal.placed_refl
  single := by
    rintro _ _ ⟨C, hC, rfl, rfl, ha, hb⟩
    have hsingle : Goal.Context fun x => .sequence ([C].map (· x)) :=
      .sequence (List.forall_mem_singleton.mpr hC)
    exact hsingle.placed (.sequence (List.forall_mem_singleton.mpr ha))
      (.sequence (List.forall_mem_singleton.mpr hb))
  cases := by
    rintro _ _ ⟨C, hC, rfl, rfl, ha, hb⟩
    rcases hC.hole_or_layer ha hb with ⟨hg, hg'⟩ | hlayer
    · rw [hg, hg']
      exact h.imp_right .inl
    · exact .inr (.inr hlayer)

end Placed

/-! ### Code on both sides -/

theorem Quiet.exec_map (n : Nat) (f : α → β) (q : Quiet S α) :
    (f <$> q).exec T n = q.exec T n >>= fun a => pure (f a) := by
  induction q with
  | done a => rfl
  | ask q next ih =>
    show (q.answer T n >>= fun r => (f <$> next r).exec T n) = _
    simp only [ih]
    exact (bind_assoc _ _ _).symm

namespace Machine

variable {m m' : Machine S} {k : Nat}

theorem quietly_map_apply (n : Nat) (f : α → β) (q : Quiet S α) (m : Machine S) :
    quietly T n (f <$> q) m = (quietly T n q >>= fun a => pure (f a)) m := by
  rw [bind_apply, quietly, quietly, onWorld, onPart, onWorld, onPart, Quiet.exec_map, bind_apply]
  cases q.exec T n m.world <;> rfl

theorem yields_of_quietly {n : Nat} {q : Quiet S α} {a : α} {m₁ : Machine S}
    (h : quietly T n q m = .ok a m₁) : q.Yields a := by
  rw [quietly, onWorld, onPart] at h
  cases hq : q.exec T n m.world with
  | ok b w =>
    rw [hq] at h
    cases h
    exact Quiet.yields_of_exec hq
  | error e w =>
    rw [hq] at h
    cases h

/-- Code that asks the same gets the same answers. -/
theorem quietly_mirrored {R : α → β → Prop} {x : Quiet S α} {y : Quiet S β} (hxy : x.Akin R y)
    (h : m.Beside T m') : Mirrored T R (quietly T k x) m (fun n => quietly T n y) m' := by
  obtain ⟨q, rfl, rfl, hq⟩ := hxy
  have hsame : Mirrored T Eq (quietly T k q) m (fun n => quietly T n q) m' :=
    onWorld_mirrored (fun _ _ hij => Quiet.exec_below hij q)
      (fun _ _ => (Quiet.heeds_of_eq (fun _ _ h => h) q).tandem) h
  have hample : Ample fun n => quietly T n q := fun i j hij => quietly_below hij q
  refine Matched.congr (x := quietly T k q >>= fun p => pure p.1) (s := m)
    (y := fun n => quietly T n q >>= fun p => pure p.2) (t := m') ?_
    (quietly_map_apply k _ q m) fun n => quietly_map_apply n _ q m'
  refine Matched.bind hample (fun _ => ample_const (writes_pure _)) hsame ?_
  rintro p m₁ n _ m₁' hp - ⟨rfl, h₁⟩
  exact matched_pure ⟨hq p (yields_of_quietly hp), h₁⟩

end Machine

/-- Runs of goals in `R`, with a bound on the left and with enough fuel on the
right. -/
def Machine.RunsMirrored (T : Theory S) (R : Goal S → Goal S → Prop) (k : Nat) : Prop :=
  ∀ {g g' : Goal S} {next : Continuation S}, R g g' → next.Entry →
    ∀ m m', m.Beside T m' → Mirrored T Eq (run T k g next) m (fun n => run T n g' next) m'

theorem Program.ample_exec {κ : Kind} (p : Program S (Goal S) κ) :
    Ample fun n => p.exec T n (Machine.run T n) :=
  fun _ _ hij => Program.exec_below hij (Machine.run_below hij) p

section Program

variable {R : Goal S → Goal S → Prop} (hR : Goal.Congruence R) {k : Nat}
  (hrun : Machine.RunsMirrored T R k)

/-- An act that is done alike on both sides, and the programs after it. -/
theorem Machine.Mirrored.bind_exec {κ : Kind} {x : Action (Machine S) α}
    {y : Nat → Action (Machine S) α} {m m' : Machine S} {next next' : α → Program S (Goal S) κ}
    (h : Mirrored T Eq x m y m') (hy : Ample y)
    (hnext : ∀ r {m₁ m₁' : Machine S}, m₁.Beside T m₁' → Mirrored T (Program.Value.Akin R)
      ((next r).exec T k (run T k)) m₁ (fun n => (next' r).exec T n (run T n)) m₁') :
    Mirrored T (Program.Value.Akin R) (x >>= fun r => (next r).exec T k (run T k)) m
      (fun n => y n >>= fun r => (next' r).exec T n (run T n)) m' := by
  refine h.bind hy (fun r => Program.ample_exec (next' r)) ?_
  rintro r _ m₁ m₁' rfl h₁
  exact hnext r h₁.beside

include hR hrun

/-- Programs that do the same on both sides, given that the runs in them do. -/
theorem Program.Akin.mirrored {κ : Kind} {p p' : Program S (Goal S) κ} (hp : Program.Akin R p p')
    {m m' : Machine S} (h : m.Beside T m') :
    Machine.Mirrored T (Program.Value.Akin R) (p.exec T k (Machine.run T k)) m
      (fun n => p'.exec T n (Machine.run T n)) m' := by
  -- The entry points call their goal as a conjunction of one, which a layer may have to contain.
  have hsingle : ∀ {g g' : Goal S} {next : Continuation S}, R g g' → next.Entry → ∀ m m',
      m.Beside T m' → Machine.Mirrored T Eq (Machine.run T k (.sequence [g]) next) m
        (fun n => Machine.run T n (.sequence [g']) next) m' :=
    fun hg => hrun (hR.single hg)
  induction hp generalizing m m' with
  | verdict | attempt => exact Machine.mirrored_pure h rfl
  | exhausted => exact Machine.mirrored_pure h .none
  | choices hmake _ => exact Machine.mirrored_pure h (.some hmake)
  | candidates hdraw _ =>
    refine Machine.mirrored_pure h fun i => Quiet.akin_map fun o ho => ?_
    cases o with
    | none => exact .none
    | some p => exact .some (hdraw i p ho)
  | @ask _ q _ _ _ ih =>
    have hanswer : Ample fun n => Machine.onWorld (q.answer T n) :=
      fun i j hij => Machine.below_onWorld (Ask.answer_below hij q)
    exact (Machine.answer_mirrored k q h).bind_exec hanswer ih
  | unify _ ih =>
    exact (Machine.unify_mirrored k _ _ h).bind_exec (fun i j hij => Machine.unify_below hij _ _) ih
  | execute hg _ ih =>
    exact (Machine.executeWith_mirrored (hrun hg .finish) h).bind_exec
      (fun i j hij => Machine.executeWith_below (Machine.run_below hij) _ _) ih
  | @findFirst _ _ _ t _ _ hg _ ih =>
    exact (Machine.findFirstWith_mirrored (hsingle hg (.first t)) h).bind_exec
      (fun i j hij => Machine.findFirstWith_below (Machine.run_below hij) _ _) ih
  | @findAll _ _ _ t _ _ hg _ ih =>
    exact (Machine.collecting_mirrored (hsingle hg (.all t)) h).bind_exec
      (fun i j hij => Machine.collecting_below (Machine.run_below hij) _ _) ih
  | view _ ih =>
    exact Matched.of_ok (get_apply m) (fun _ => get_apply m') (ih _ _ h.view h)
  | resetStatistics _ ih =>
    refine Matched.of_ok (Machine.modifyEngine_apply m _)
      (fun _ => Machine.modifyEngine_apply m' _) ?_
    let cleared (m : Machine S) : Machine S := { m with engine.statistics := .empty }
    have hcleared : (cleared m).Beside T (cleared m') := ⟨h.trail, h.config, h.world, h.answers⟩
    refine (ih hcleared).mono ?_
    rintro a m₁ _ b m₁' - - ⟨hab, h₁⟩
    exact ⟨hab, h₁.beside, h₁.frames, h₁.frames', h₁.later⟩
  | @loop _ round round' _ _ _ _ ihround ih =>
    have hrounds : Machine.Mirrored T Eq (rounds (round.exec T k (Machine.run T k)) k) m
        (fun n => rounds (round'.exec T n (Machine.run T n)) n) m' := by
      refine Matched.rounds round'.ample_exec ?_ (fun _ _ h => h.beside.world.rows) k
        (Machine.Apace.refl h)
      intro u v huv
      refine (ihround huv.beside).mono ?_
      rintro o u₁ _ o' v₁ - - ⟨rfl, h₁⟩
      exact ⟨rfl, huv.trans h₁⟩
    exact hrounds.bind_exec (fun i j hij => Below.rounds (round'.ample_exec i j hij) hij) ih

end Program

end GoalSearch
