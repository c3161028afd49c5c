/-
Two machines abreast.

Two machines run the same code, on stacks and trails that need not have anything
in common below the point where they began to run it.  Above that point they do
the same: every operation on frames and every piece of code leads from machines
that are abreast to machines that are abreast.

* `Program.Heeds`, `Goal.Heeds` — code that does not see what may differ;
* `Machine.Abreast` — machines that have come equally far;
* `Machine.Abreast.counted` and its like — what the operations keep;
* `Program.Heeds.paced` — code keeps machines abreast, given that runs do.

Design notes: `l` and `r` are the machines with which the comparison began.  A
nested run begins a comparison of its own, on the machines at hand
(`Machine.Abreast.here`), and what it has done is put on top of what was done
before (`Machine.Abreast.since`).  Code that puts a new engine in place of its
own is left out: what is on the stack then decides how much is left of it.
-/
import GoalSearch.Proofs.Balance
import GoalSearch.Proofs.Lockstep

namespace GoalSearch

open GoalSearch.Action

variable {S : Vocabulary} {T : Theory S} {α : Type}

/-! ### Code that does not see what may differ -/

/-- Programs that stay with their engine, that do not tell apart views in `V` or
stores in `Q`, and whose goals are all in `P`. -/
inductive Program.Heeds (V : View → View → Prop) (Q : Store S → Store S → Prop)
    (P : Goal S → Prop) : {κ : Kind} → Program S (Goal S) κ → Prop
  | verdict (b : Bool) : Heeds V Q P (.verdict b)
  | attempt (r : Option Bool) : Heeds V Q P (.attempt r)
  | candidates {draw : Nat → Quiet S (Option (Program S (Goal S) .verdict))} :
      (∀ i, (draw i).Heeds Q) → (∀ i p, (draw i).Yields (some p) → Heeds V Q P p) →
      Heeds V Q P (.candidates draw)
  | choices {make : Option (Nat → Program S (Goal S) .attempt)} :
      (∀ f, make = some f → ∀ i, Heeds V Q P (f i)) → Heeds V Q P (.choices make)
  | ask {κ : Kind} {q : Ask S} {next : q.Answer → Program S (Goal S) κ} :
      q ≠ .store → (∀ x, Heeds V Q P (next x)) → Heeds V Q P (.ask q next)
  | store {κ : Kind} {next : Store S → Program S (Goal S) κ} :
      (∀ s s', Q s s' → next s = next s') → (∀ s, Heeds V Q P (next s)) →
      Heeds V Q P (.ask .store next)
  | unify {κ : Kind} {a b : S.Term} {next : Bool → Program S (Goal S) κ} :
      (∀ r, Heeds V Q P (next r)) → Heeds V Q P (.unify a b next)
  | execute {κ : Kind} {g : Goal S} {next : Bool → Program S (Goal S) κ} :
      P g → (∀ r, Heeds V Q P (next r)) → Heeds V Q P (.execute g next)
  | findFirst {κ : Kind} {g : Goal S} {t : S.Term} {next : Option S.Term → Program S (Goal S) κ} :
      P g → (∀ r, Heeds V Q P (next r)) → Heeds V Q P (.findFirst g t next)
  | findAll {κ : Kind} {g : Goal S} {t : S.Term} {next : List S.Term → Program S (Goal S) κ} :
      P g → (∀ r, Heeds V Q P (next r)) → Heeds V Q P (.findAll g t next)
  | view {κ : Kind} {next : View → Program S (Goal S) κ} :
      (∀ v v', V v v' → next v = next v') → (∀ v, Heeds V Q P (next v)) →
      Heeds V Q P (.view next)
  | resetStatistics {κ : Kind} {next : Program S (Goal S) κ} :
      Heeds V Q P next → Heeds V Q P (.resetStatistics next)
  | loop {κ : Kind} {round : Program S (Goal S) .attempt} {next : Bool → Program S (Goal S) κ} :
      Heeds V Q P round → (∀ r, Heeds V Q P (next r)) → Heeds V Q P (.loop round next)

/-- Goals that only run programs that stay with their engine and do not tell
apart views in `V` or stores in `Q`, and so do all goals that these programs
run. -/
inductive Goal.Heeds (V : View → View → Prop) (Q : Store S → Store S → Prop) : Goal S → Prop
  | succeed : Heeds V Q .succeed
  | fail : Heeds V Q .fail
  | nondeterministic {prepare : Program S (Goal S) .candidates}
      {validate : Program S (Goal S) .verdict} :
      prepare.Heeds V Q (Goal.Heeds V Q) → validate.Heeds V Q (Goal.Heeds V Q) →
      Heeds V Q (.call (.nondeterministic prepare validate))
  | semideterministic {prepare validate : Program S (Goal S) .verdict} :
      prepare.Heeds V Q (Goal.Heeds V Q) → validate.Heeds V Q (Goal.Heeds V Q) →
      Heeds V Q (.call (.semideterministic prepare validate))
  | deterministic {prepare : Program S (Goal S) .verdict} :
      prepare.Heeds V Q (Goal.Heeds V Q) → Heeds V Q (.call (.deterministic prepare))
  | sequence {gs : List (Goal S)} : (∀ g ∈ gs, Heeds V Q g) → Heeds V Q (.sequence gs)
  | disjunction {gs : List (Goal S)} : (∀ g ∈ gs, Heeds V Q g) → Heeds V Q (.disjunction gs)
  | once {g : Goal S} : Heeds V Q g → Heeds V Q (.once g)
  | notNot {g : Goal S} : Heeds V Q g → Heeds V Q (.notNot g)
  | loop {test : View → Quiet S Bool} {body : View → Quiet S (Goal S)} :
      (∀ v v', V v v' → test v = test v' ∧ body v = body v') → (∀ v, (test v).Heeds Q) →
      (∀ v, (body v).Heeds Q) → (∀ v g, (body v).Yields g → Heeds V Q g) →
      Heeds V Q (.loop test body)
  | search {handler : Quiet S (Program S (Goal S) .choices)} :
      handler.Heeds Q → (∀ p, handler.Yields p → p.Heeds V Q (Goal.Heeds V Q)) →
      Heeds V Q (.search handler)

section Heeds

variable {V : View → View → Prop} {Q : Store S → Store S → Prop}

theorem Quiet.heeds_of_eq (hQ : ∀ s s', Q s s' → s = s') (x : Quiet S α) : x.Heeds Q := by
  induction x with
  | done a => exact .done a
  | ask q next ih =>
    cases q with
    | store => exact .store (fun s s' h => by rw [hQ s s' h]) ih
    | _ => exact .ask (by simp) ih

theorem Hook.heeds_of_eq (hQ : ∀ s s', Q s s' → s = s') (k : Hook S) : k.Heeds Q := by
  induction k with
  | done b => exact .done b
  | ask q next ih =>
    cases q with
    | store => exact .store (fun s s' h => by rw [hQ s s' h]) ih
    | _ => exact .ask (by simp) ih
  | unify a b next ih => exact .unify ih

/-- Equal stores are not told apart. -/
theorem Theory.heeds_of_eq (T : Theory S) (hQ : ∀ s s', Q s s' → s = s') : T.Heeds Q :=
  ⟨fun _ _ _ => Hook.heeds_of_eq hQ _, fun _ _ => Hook.heeds_of_eq hQ _⟩

/-- Equal views and equal stores are not told apart. -/
theorem Goal.Steady.heeds (hV : ∀ v v', V v v' → v = v') (hQ : ∀ s s', Q s s' → s = s')
    {g : Goal S} (hg : g.Steady) : g.Heeds V Q := by
  -- Goals and programs are mutually inductive, so the recursor is applied by hand; a question for
  -- the slots and one for the engine are answered alike on equal slots and views.
  have hquiet : ∀ {α : Type} (x : Quiet S α), x.Heeds Q := fun x => x.heeds_of_eq hQ
  refine @Goal.Steady.rec S (fun g _ => g.Heeds V Q) (fun p _ => p.Heeds V Q (Goal.Heeds V Q))
    ?succeed ?fail ?nondeterministic ?semideterministic ?deterministic ?sequence ?disjunction
    ?once ?notNot ?loop ?search ?verdict ?attempt ?candidates ?choices ?ask ?unify ?execute
    ?findFirst ?findAll ?view ?resetStatistics ?rounds g hg
  case succeed => exact .succeed
  case fail => exact .fail
  case nondeterministic => exact fun _ _ => .nondeterministic
  case semideterministic => exact fun _ _ => .semideterministic
  case deterministic => exact fun _ => .deterministic
  case sequence => exact fun _ => .sequence
  case disjunction => exact fun _ => .disjunction
  case once => exact fun _ => .once
  case notNot => exact fun _ => .notNot
  case loop =>
    intro test body _ ih
    refine .loop (fun v v' h => ?_) (fun v => hquiet _) (fun v => hquiet _) ih
    rw [hV v v' h]
    exact ⟨rfl, rfl⟩
  case search => exact fun _ => .search (hquiet _)
  case verdict => exact .verdict
  case attempt => exact .attempt
  case candidates => exact fun _ => .candidates fun i => hquiet _
  case choices => exact fun _ => .choices
  case ask =>
    intro κ q next _ ih
    cases q with
    | store => exact .store (fun s s' h => by rw [hQ s s' h]) ih
    | _ => exact .ask (by simp) ih
  case unify => exact fun _ => .unify
  case execute => exact fun _ _ => .execute
  case findFirst => exact fun _ _ => .findFirst
  case findAll => exact fun _ _ => .findAll
  case view => exact fun _ => .view fun v v' h => by rw [hV v v' h]
  case resetStatistics => exact fun _ => .resetStatistics
  case rounds => exact fun _ _ => .loop

/-- Goals that do not tell machines apart stay with their engine. -/
theorem Goal.Heeds.steady {g : Goal S} (hg : g.Heeds V Q) : g.Steady := by
  refine @Goal.Heeds.rec S V Q (fun g _ => g.Steady) (fun p _ => p.Steady Goal.Steady)
    ?succeed ?fail ?nondeterministic ?semideterministic ?deterministic ?sequence ?disjunction
    ?once ?notNot ?loop ?search ?verdict ?attempt ?candidates ?choices ?ask ?store ?unify ?execute
    ?findFirst ?findAll ?view ?resetStatistics ?rounds g hg
  case succeed => exact .succeed
  case fail => exact .fail
  case nondeterministic => exact fun _ _ => .nondeterministic
  case semideterministic => exact fun _ _ => .semideterministic
  case deterministic => exact fun _ => .deterministic
  case sequence => exact fun _ => .sequence
  case disjunction => exact fun _ => .disjunction
  case once => exact fun _ => .once
  case notNot => exact fun _ => .notNot
  case loop => exact fun _ _ _ _ => .loop
  case search => exact fun _ _ => .search
  case verdict => exact .verdict
  case attempt => exact .attempt
  case candidates => exact fun _ _ => .candidates
  case choices => exact fun _ => .choices
  case ask => exact fun _ _ => .ask
  case store => exact fun _ _ h => .ask (q := .store) h
  case unify => exact fun _ => .unify
  case execute => exact fun _ _ => .execute
  case findFirst => exact fun _ _ => .findFirst
  case findAll => exact fun _ _ => .findAll
  case view => exact fun _ _ => .view
  case resetStatistics => exact fun _ => .resetStatistics
  case rounds => exact fun _ _ => .loop

end Heeds

/-- Values whose programs do not see what may differ. -/
def Program.Value.Heeds (V : View → View → Prop) (Q : Store S → Store S → Prop) :
    {κ : Kind} → Program.Value S (Goal S) κ → Prop
  | .verdict, _ => True
  | .attempt, _ => True
  | .candidates, draw => (∀ i, (draw i).Heeds Q) ∧
      ∀ i p, (draw i).Yields (some p) → p.Heeds V Q (Goal.Heeds V Q)
  | .choices, make => ∀ f, make = some f → ∀ i, (f i).Heeds V Q (Goal.Heeds V Q)

/-- A program that does not see what may differ ends with such programs. -/
theorem Program.Heeds.value {V : View → View → Prop} {Q : Store S → Store S → Prop} {fuel : Nat}
    {run : Runner S} {κ : Kind} {p : Program S (Goal S) κ} (hp : p.Heeds V Q (Goal.Heeds V Q))
    {m m' : Machine S} {a : Program.Value S (Goal S) κ} (h : p.exec T fuel run m = .ok a m') :
    Program.Value.Heeds V Q a := by
  induction hp generalizing m with
  | verdict => trivial
  | attempt => trivial
  | candidates hdraw hcandidate _ =>
    cases h
    exact ⟨hdraw, hcandidate⟩
  | choices hmake =>
    cases h
    exact hmake
  | resetStatistics _ ih =>
    obtain ⟨_, _, -, h⟩ := bind_eq_ok.mp h
    exact ih h
  | view _ _ ih | store _ _ ih =>
    obtain ⟨_, _, -, h⟩ := bind_eq_ok.mp h
    exact ih _ h
  | ask _ _ ih | unify _ ih | execute _ _ ih | findFirst _ _ ih | findAll _ _ ih
  | loop _ _ _ ih =>
    obtain ⟨r, _, -, h⟩ := bind_eq_ok.mp h
    exact ih r h

/-! ### Trails and worlds -/

namespace Comparison

variable {C : Comparison T}

theorem Worlds.refl {w w' : World S} {l r : World S} (h : C.Worlds l r w w') :
    C.Worlds w w' w w' :=
  ⟨h.store, h.state, h.objects, .refl _ _⟩

theorem Worlds.since {l r w w' v v' : World S} (h : C.Worlds l r w w')
    (h' : C.Worlds w w' v v') : C.Worlds l r v v' :=
  ⟨h'.store, h'.state, h'.objects, h.rows.trans h'.rows⟩

theorem Scopes.refl {l r c d : Scope S} (h : C.Scopes l r c d) : C.Scopes c d c d :=
  ⟨.refl _ _, h.world.refl⟩

theorem Scopes.since {l r c d c' d' : Scope S} (h : C.Scopes l r c d)
    (h' : C.Scopes c d c' d') : C.Scopes l r c' d' :=
  ⟨h.trail.trans h'.trail, h.world.since h'.world⟩

/-- Going back as far above the start on both sides. -/
theorem Scopes.backtracked {l r c d : Scope S} (h : C.Scopes l r c d)
    (hlater : C.loose → l.world.store.ChainsEnd ∧ l.Continues c) (i : Nat) :
    C.Scopes l r (c.backtracked (l.trail.length + i)) (d.backtracked (r.trail.length + i)) := by
  -- only what was saved since the start is undone, and it is the same on both sides
  obtain ⟨new, hc, hd⟩ := h.trail
  have hcount : c.trail.length - (l.trail.length + i) = new.length - i := by
    simp only [Trail.length, hc, List.length_append]
    omega
  have hcount' : d.trail.length - (r.trail.length + i) = new.length - i := by
    simp only [Trail.length, hd, List.length_append]
    omega
  have hchains : C.loose →
      (c.backtracked (l.trail.length + i)).world.store.ChainsEnd := fun hloose =>
    (hlater hloose).2.chains (hlater hloose).1 _ (Nat.le_add_right _ _)
  simp only [Scope.backtracked, Trail.backtrack_eq, hcount, hcount', hc, hd] at hchains ⊢
  have hle : new.length - i ≤ new.length := Nat.sub_le _ _
  rw [List.take_append_of_le_length hle] at hchains
  rw [List.take_append_of_le_length hle, List.take_append_of_le_length hle,
    List.drop_append_of_le_length hle, List.drop_append_of_le_length hle]
  refine ⟨⟨_, rfl, rfl⟩, h.world.with_store ?_⟩
  rcases h.world.store with heq | ⟨hloose, hequiv, -⟩
  · exact .inl (by rw [heq])
  · exact .inr ⟨hloose, Trail.restore_congr _ hequiv, hchains hloose⟩

end Comparison

/-! ### Machines abreast -/

namespace Machine

/-- Two machines, with `F` and `F'` on their stacks, that have come equally far
since `l` and `r`, with answers in `A`. -/
structure Abreast (C : Comparison T) (A : List S.Term → List S.Term → Prop) (l r : Machine S)
    (F F' : List (Frame S)) (m m' : Machine S) : Prop where
  frames : m.engine.frames = F
  frames' : m'.engine.frames = F'
  marks : C.exact → l.engine.trail.length = r.engine.trail.length
  depths : C.exact → F.length = F'.length
  config : C.exact → m.engine.config = m'.engine.config
  counters : C.exact → C.counters m.engine.statistics m'.engine.statistics
  scopes : C.Scopes l.scope r.scope m.scope m'.scope
  answers : A m.answers m'.answers
  later : C.loose → l.world.store.ChainsEnd ∧ l.scope.Continues m.scope

/-- What is known of two machines when the code that runs on them stops. -/
abbrev Halted (C : Comparison T) (l r m m' : Machine S) : Prop :=
  C.Worlds l.world r.world m.world m'.world

variable {C : Comparison T} {A A' : List S.Term → List S.Term → Prop}
  {l r m m' : Machine S} {F F' : List (Frame S)}

namespace Abreast

theorem halted (h : Abreast C A l r F F' m m') : Halted C l r m m' := h.scopes.world

theorem trail_length (h : Abreast C A l r F F' m m') (hexact : C.exact) :
    m.engine.trail.length = m'.engine.trail.length := by
  have hmarks := h.marks hexact
  have htrail : m.engine.trail.length + r.engine.trail.length =
      m'.engine.trail.length + l.engine.trail.length := h.scopes.trail.length_add
  omega

theorem view (h : Abreast C A l r F F' m m') : C.views m.engine.view m'.engine.view := by
  refine C.seen fun hexact => ⟨?_, h.trail_length hexact, h.config hexact, h.counters hexact⟩
  show m.engine.frames.length = m'.engine.frames.length
  rw [h.frames, h.frames', h.depths hexact]

/-- What was saved since the start is as long on both sides. -/
theorem trail_above (h : Abreast C A l r F F' m m') :
    ∃ i, m.engine.trail.length = l.engine.trail.length + i ∧
      m'.engine.trail.length = r.engine.trail.length + i := by
  obtain ⟨new, hnew, hnew'⟩ := h.scopes.trail
  refine ⟨new.length, ?_, ?_⟩
  · show m.scope.trail.entries.length = _
    rw [hnew, List.length_append, Nat.add_comm]
    rfl
  · show m'.scope.trail.entries.length = _
    rw [hnew', List.length_append, Nat.add_comm]
    rfl

/-- A comparison that begins with the machines at hand. -/
theorem here (h : Abreast C A l r F F' m m') :
    Abreast C A m m' m.engine.frames m'.engine.frames m m' where
  frames := rfl
  frames' := rfl
  marks := h.trail_length
  depths hexact := by rw [h.frames, h.frames', h.depths hexact]
  config := h.config
  counters := h.counters
  scopes := h.scopes.refl
  answers := h.answers
  later hloose := ⟨(h.later hloose).2.chainsEnd (h.later hloose).1,
    Scope.continues_of_same rfl (Setoid.refl _)⟩

/-- What was done since the machines at hand is put on top of what was done
before. -/
theorem since {m₁ m₁' : Machine S} (h : Abreast C A l r F F' m m')
    (h' : Abreast C A' m m' m.engine.frames m'.engine.frames m₁ m₁') :
    Abreast C A' l r F F' m₁ m₁' where
  frames := h'.frames.trans h.frames
  frames' := h'.frames'.trans h.frames'
  marks := h.marks
  depths := h.depths
  config := h'.config
  counters := h'.counters
  scopes := h.scopes.since h'.scopes
  answers := h'.answers
  later hloose := ⟨(h.later hloose).1, (h.later hloose).2.trans (h'.later hloose).2⟩

theorem weaken (h : Abreast C A l r F F' m m') (hA : A m.answers m'.answers →
    A' m.answers m'.answers) : Abreast C A' l r F F' m m' :=
  { h with answers := hA h.answers }

theorem with_answers (h : Abreast C A l r F F' m m') {L L' : List S.Term} (hL : A' L L') :
    Abreast C A' l r F F' { m with answers := L } { m' with answers := L' } :=
  { h with answers := hL }

/-- Changes of the worlds that leave the slots alone. -/
theorem with_world (h : Abreast C A l r F F' m m') {w w' : World S}
    (hw : C.Worlds l.world r.world w w') (hstore : w.store = m.world.store) :
    Abreast C A l r F F' { m with world := w } { m' with world := w' } :=
  { h with
    scopes := ⟨h.scopes.trail, hw⟩
    later := fun hloose => ⟨(h.later hloose).1, (h.later hloose).2.trans
      (Scope.continues_of_same rfl (Store.equiv_of_eq hstore))⟩ }

theorem with_counters (h : Abreast C A l r F F' m m') {s s' : Statistics}
    (hs : C.exact → C.counters s s') :
    Abreast C A l r F F' { m with engine.statistics := s } { m' with engine.statistics := s' } :=
  { h with counters := hs }

theorem withFrames (h : Abreast C A l r F F' m m') (fs fs' : List (Frame S))
    (hlength : C.exact → fs.length = fs'.length) :
    Abreast C A l r fs fs' (m.withFrames fs) (m'.withFrames fs') :=
  { h with
    frames := rfl
    frames' := rfl
    depths := hlength }

theorem counted_by (h : Abreast C A l r F F' m m') (c : Counter) {n n' : Nat}
    (hn : C.exact → n = n') : Abreast C A l r F F' (m.counted c n) (m'.counted c n') := by
  refine h.with_counters fun hexact => ?_
  rw [← h.config hexact, ← hn hexact]
  split
  · exact C.add c n (h.counters hexact)
  · exact h.counters hexact

theorem counted (h : Abreast C A l r F F' m m') (c : Counter) :
    Abreast C A l r F F' (m.counted c 1) (m'.counted c 1) :=
  h.counted_by c fun _ => rfl

theorem measured (h : Abreast C A l r F F' m m') :
    Abreast C A l r F F' m.measured m'.measured := by
  refine h.with_counters fun hexact => ?_
  have hdepth : m.engine.depth = m'.engine.depth := by
    rw [Engine.depth, Engine.depth, h.frames, h.frames', h.depths hexact]
  rw [← h.config hexact, ← hdepth]
  split
  · exact C.raise .maxDepth _ (h.counters hexact)
  · exact h.counters hexact

theorem logged (h : Abreast C A l r F F' m m') (e e' : Record) (he : e.row? = e'.row?) :
    Abreast C A l r F F' (m.logged e) (m'.logged e') :=
  h.with_world (h.scopes.world.noted he) rfl

theorem noted (h : Abreast C A l r F F' m m') (e e' : Record) (he : e.row? = none)
    (he' : e'.row? = none) : Abreast C A l r F F' (m.noted e) (m'.noted e') :=
  h.with_world (h.scopes.world.with_log (m.noted_output he).rows (m'.noted_output he').rows) rfl

theorem withScope (h : Abreast C A l r F F' m m') {c c' : Scope S}
    (hc : C.Scopes l.scope r.scope c c') (hlater : C.loose → l.scope.Continues c) :
    Abreast C A l r F F' (m.withScope c) (m'.withScope c') :=
  { h with
    scopes := hc
    later := fun hloose => ⟨(h.later hloose).1, hlater hloose⟩ }

/-- Going back as far above the start on both sides. -/
theorem undone (h : Abreast C A l r F F' m m') (i : Nat) :
    Abreast C A l r F F' (m.undone (l.engine.trail.length + i))
      (m'.undone (r.engine.trail.length + i)) := by
  have hback := h.scopes.backtracked h.later i
  refine (h.withScope hback fun hloose => ?_).counted_by .bindingsUndone fun hexact => ?_
  · exact (h.later hloose).2.backtrack (Nat.le_add_right _ _)
  · rw [h.trail_length hexact, h.marks hexact]

theorem pushed (h : Abreast C A l r F F' m m') (mark mark' : Nat) (a a' : Activation S) :
    Abreast C A l r (⟨a, mark⟩ :: F) (⟨a', mark'⟩ :: F') (m.pushed mark a)
      (m'.pushed mark' a') := by
  have hnoted := h.noted (.pushed a.kind (m.engine.depth + 1))
    (.pushed a'.kind (m'.engine.depth + 1)) rfl rfl
  have hframes := hnoted.withFrames (⟨a, mark⟩ :: F) (⟨a', mark'⟩ :: F')
    fun hexact => by rw [List.length_cons, List.length_cons, h.depths hexact]
  rw [Machine.pushed, Machine.pushed, h.frames, h.frames']
  exact (hframes.counted .framesPushed).measured

theorem retired {f f' : Frame S} (h : Abreast C A l r (f :: F) (f' :: F') m m') :
    Abreast C A l r F F' (m.retired F) (m'.retired F') := by
  refine (h.withFrames F F' fun hexact => ?_).counted .framesRetired
  exact Nat.succ.inj (h.depths hexact)

theorem stepped (h : Abreast C A l r F F' m m') :
    Abreast C A l r F F' m.stepped m'.stepped := by
  have hretired :=
    (h.pushed m.engine.trail.length m'.engine.trail.length .step .step).retired
  rwa [Machine.stepped, Machine.stepped, h.frames, h.frames']

theorem popped {f f' : Frame S} {i : Nat} (h : Abreast C A l r (f :: F) (f' :: F') m m')
    (hmark : f.mark = l.engine.trail.length + i) (hmark' : f'.mark = r.engine.trail.length + i) :
    Abreast C A l r F F' (m.popped f F) (m'.popped f' F') := by
  have hframes := h.withFrames F F' fun hexact => Nat.succ.inj (h.depths hexact)
  have hnoted := hframes.noted (.popped f.activation.kind (F.length + 1))
    (.popped f'.activation.kind (F'.length + 1)) rfl rfl
  rw [Machine.popped, Machine.popped, hmark, hmark']
  exact (hnoted.undone i).counted .framesPopped

/-- Dropping as many frames on both sides. -/
theorem committed (h : Abreast C A l r F F' m m') {height height' d : Nat}
    (hd : m.engine.depth - height = d) (hd' : m'.engine.depth - height' = d) :
    Abreast C A l r (F.drop d) (F'.drop d) (m.committed height) (m'.committed height') := by
  have hframes := h.withFrames (F.drop d) (F'.drop d) fun hexact => by
    rw [List.length_drop, List.length_drop, h.depths hexact]
  have hnoted := hframes.noted (.committed d height) (.committed d height') rfl rfl
  rw [Machine.committed, Machine.committed, hd, hd', h.frames, h.frames']
  exact hnoted.counted .commits

end Abreast

/-! ### Code on machines abreast -/

/-- Machines that stay abreast while the same code runs on both. -/
abbrev Paced (C : Comparison T) (A : List S.Term → List S.Term → Prop) (l r : Machine S)
    (F F' : List (Frame S)) (x : Action (Machine S) α) : Prop :=
  Tandem (Abreast C A l r F F') (Halted C l r) x

theorem onWorld_parallel {x : Action (World S) α}
    (hx : Tandem (C.Worlds l.world r.world) (C.Worlds l.world r.world) x)
    (hstore : Keeps (fun _ => True) (fun w w' : World S => w'.store = w.store) (fun _ => True) x)
    (h : Abreast C A l r F F' m m') :
    Parallel (onWorld x) m (onWorld x) m' (fun a m₁ b m₁' => a = b ∧
      Abreast C A l r F F' m₁ m₁' ∧ ∃ w w', x w = .ok a w') (Halted C l r) := by
  refine parallel_onPart (hx m.world m'.world h.scopes.world) ?_ fun _ _ h => h
  rintro a w _ w' hok ⟨rfl, hw⟩
  exact ⟨rfl, h.with_world hw ((hstore m.world trivial).ok hok), _, _, hok⟩

theorem quietly_parallel {n : Nat} {x : Quiet S α} (hx : x.Heeds C.stores)
    (h : Abreast C A l r F F' m m') :
    Parallel (quietly T n x) m (quietly T n x) m' (fun a m₁ b m₁' => a = b ∧
      Abreast C A l r F F' m₁ m₁' ∧ x.Yields a) (Halted C l r) := by
  refine (onWorld_parallel hx.tandem (Quiet.exec_keeps_store trivial x) h).mono ?_
  rintro a m₁ b m₁' - - ⟨rfl, h₁, w, w', hok⟩
  exact ⟨rfl, h₁, Quiet.yields_of_exec hok⟩

theorem onWorld_paced {x : Action (World S) α}
    (hx : ∀ l r, Tandem (C.Worlds l r) (C.Worlds l r) x)
    (hstore : Keeps (fun _ => True) (fun w w' : World S => w'.store = w.store) (fun _ => True) x) :
    Paced C A l r F F' (onWorld x) := by
  intro m m' h
  refine (onWorld_parallel (hx _ _) hstore h).mono ?_
  rintro a m₁ b m₁' - - ⟨rfl, h₁, -⟩
  exact ⟨rfl, h₁⟩

theorem unify_paced (hT : T.Heeds C.stores) (n : Nat) (a b : S.Term) :
    Paced C A l r F F' (unify T n a b) := by
  intro m m' h
  have hunify := Comparison.unify_tandem hT n l.scope r.scope a b m.scope m'.scope h.scopes
  unfold Parallel at *
  rw [unify_apply, unify_apply]
  cases hc : GoalSearch.unify T n a b m.scope <;>
    cases hc' : GoalSearch.unify T n a b m'.scope <;> rw [hc, hc'] at hunify
  · obtain ⟨rfl, hscopes⟩ := hunify
    refine ⟨rfl, ?_⟩
    have hlater : C.loose → l.scope.Continues _ := fun hloose => (h.later hloose).2.trans
      (((Scope.history_continues (C.inert hloose)).unify n a b m.scope trivial).ok hc)
    have hpaced := h.withScope hscopes hlater
    refine hpaced.counted_by .bindings fun hexact => ?_
    rw [h.trail_length hexact]
    exact congrArg (· - _) (hpaced.trail_length hexact)
  · exact hunify
  · exact hunify
  · exact ⟨hunify.1, hunify.2.world⟩

/-- Lists of answers that stay related when the same answer is added. -/
def Extensible (A : List S.Term → List S.Term → Prop) : Prop :=
  ∀ a L L', A L L' → A (a :: L) (a :: L')

end Machine

/-- Runs of the same goal on machines abreast. -/
def Runner.Paced (C : Comparison T) (run : Runner S) : Prop :=
  ∀ g k A l r, g.Heeds C.views C.stores → k.Entry → (k ≠ .finish → Machine.Extensible A) →
    Machine.Abreast C A l r l.engine.frames r.engine.frames l r →
    Parallel (run g k) l (run g k) r (fun st m st' m' => st = st' ∧
      Machine.Abreast C A l r l.engine.frames r.engine.frames m m') (Machine.Halted C l r)

namespace Machine

variable {C : Comparison T} {A : List S.Term → List S.Term → Prop}
  {l r m m' : Machine S} {F F' : List (Frame S)} {run run' : Runner S} {g g' : Goal S}
  {k k' : Continuation S}

/-- A run with what is noted about it keeps machines abreast if the run does. -/
theorem executeWith_parallel (h : Abreast C A l r F F' m m')
    (hrun : ∀ l r, Abreast C A l r l.engine.frames r.engine.frames l r →
      Parallel (run g k) l (run' g' k') r (fun st m st' m' => st = st' ∧
        Abreast C A l r l.engine.frames r.engine.frames m m') (Halted C l r)) :
    Parallel (executeWith run g k) m (executeWith run' g' k') m' (fun b m₁ b' m₁' => b = b' ∧
      Abreast C A l r F F' m₁ m₁') (Halted C l r) := by
  unfold executeWith
  rw [parallel_bind_of_ok (depth_apply m) (depth_apply m'),
    parallel_bind_of_ok (trailLength_apply m) (trailLength_apply m'),
    parallel_bind_of_ok (note_apply m _) (note_apply m' _)]
  have hlogged := h.logged (.runStarted m.engine.depth m.engine.trail.length)
    (.runStarted m'.engine.depth m'.engine.trail.length) rfl
  refine ((hrun _ _ hlogged.here).stops fun m₁ m₁' h₁ => hlogged.halted.since h₁).bind ?_
  rintro st m₁ _ m₁' - - ⟨rfl, h₁⟩
  rw [parallel_bind_of_ok (note_apply m₁ _) (note_apply m₁' _), parallel_pure]
  exact ⟨rfl, (hlogged.since h₁).logged _ _ rfl⟩

/-- Searches for answers begin without any and put back those that were there. -/
theorem collecting_parallel {x y : Action (Machine S) Bool} (h : Abreast C A l r F F' m m')
    (A' : List S.Term → List S.Term → Prop)
    (hx : ∀ m m', Abreast C A' l r F F' m m' → Parallel x m y m' (fun b m₁ b' m₁' => b = b' ∧
      Abreast C A' l r F F' m₁ m₁') (Halted C l r)) (hA : A' [] []) :
    Parallel (collecting x) m (collecting y) m' (fun L m₁ L' m₁' => A' L.reverse L'.reverse ∧
      Abreast C A l r F F' m₁ m₁') (Halted C l r) := by
  unfold collecting
  rw [parallel_bind_of_ok (get_apply m) (get_apply m'),
    parallel_bind_of_ok (modify_apply _ m) (modify_apply _ m')]
  refine (hx _ _ (h.with_answers hA)).bind ?_
  rintro b m₁ _ m₁' - - ⟨-, h₁⟩
  refine ⟨?_, h₁.with_answers h.answers⟩
  simpa using h₁.answers

section Paced

variable (hrun : run.Paced C) (hg : g.Heeds C.views C.stores)

include hrun hg

theorem executeWith_paced : Paced C A l r F F' (executeWith run g .finish) := by
  intro m m' h
  exact executeWith_parallel h fun l r hstart =>
    hrun g .finish A l r hg .finish (fun hk => absurd rfl hk) hstart

theorem collecting_paced (hk : k.Entry) :
    Paced C A l r F F' (collecting (executeWith run (.sequence [g]) k)) := by
  have hsequence : (Goal.sequence [g]).Heeds C.views C.stores := .sequence (by simpa using hg)
  intro m m' h
  refine (collecting_parallel h Eq (fun m m' h' => ?_) rfl).mono ?_
  · refine executeWith_parallel h' fun l r hstart => ?_
    exact hrun _ k Eq l r hsequence hk (fun _ a L L' hL => congrArg (a :: ·) hL) hstart
  · rintro L m₁ L' m₁' - - ⟨hL, h₁⟩
    exact ⟨List.reverse_injective hL, h₁⟩

theorem findFirstWith_paced (t : S.Term) : Paced C A l r F F' (findFirstWith run g t) :=
  Tandem.bind (collecting_paced hrun hg (.first t)) fun _ => Tandem.pure _

theorem findAllWith_paced (t : S.Term) : Paced C A l r F F' (findAllWith run g t) :=
  collecting_paced hrun hg (.all t)

end Paced

end Machine

/-- Code that does not see what may differ keeps machines abreast if runs do. -/
theorem Program.Heeds.paced {C : Comparison T} (hT : T.Heeds C.stores) {run : Runner S}
    (hrun : run.Paced C) (n : Nat) {A : List S.Term → List S.Term → Prop} {l r : Machine S}
    {F F' : List (Frame S)} {κ : Kind} {p : Program S (Goal S) κ}
    (hp : p.Heeds C.views C.stores (Goal.Heeds C.views C.stores)) :
    Machine.Paced C A l r F F' (p.exec T n run) := by
  induction hp with
  | verdict | attempt | candidates | choices => exact Tandem.pure _
  | @ask _ q _ hq _ ih =>
    have hanswer : Machine.Paced C A l r F F' (Machine.onWorld (q.answer T n)) :=
      Machine.onWorld_paced (fun _ _ => Ask.answer_tandem hq) (Ask.answer_keeps_store trivial q)
    exact Tandem.bind hanswer ih
  | @store _ next heq _ ih =>
    intro m m' h
    show Parallel ((next m.world.store).exec T n run) m ((next m'.world.store).exec T n run) m' _ _
    -- The code after it does not see where two stores of the comparison differ.
    rw [heq m.world.store m'.world.store (C.room h.scopes.world.store)]
    exact ih _ m m' h
  | unify _ ih => exact Tandem.bind (Machine.unify_paced hT n _ _) ih
  | execute hg _ ih => exact Tandem.bind (Machine.executeWith_paced hrun hg) ih
  | findFirst hg _ ih => exact Tandem.bind (Machine.findFirstWith_paced hrun hg _) ih
  | findAll hg _ ih => exact Tandem.bind (Machine.findAllWith_paced hrun hg _) ih
  | @view _ next heq _ ih =>
    intro m m' h
    show Parallel ((next m.engine.view).exec T n run) m ((next m'.engine.view).exec T n run) m' _ _
    rw [heq _ _ h.view]
    exact ih _ m m' h
  | resetStatistics _ ih =>
    refine Tandem.bind (fun m m' h => ?_) fun _ => ih
    exact ⟨rfl, h.with_counters fun _ => C.empty⟩
  | loop _ _ ihround ih =>
    exact Tandem.bind (Tandem.rounds (fun _ _ h => h.halted) ihround n) ih

end GoalSearch
