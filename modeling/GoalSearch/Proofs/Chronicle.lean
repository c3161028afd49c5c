/-
What an engine does, act by act.

Everything that an engine does, whatever an application makes it do, is a sequence of
acts: a frame is pushed, retried, popped or retired, frames are committed away, bindings
are undone, terms are unified, another engine takes its place, or something happens that
is about neither slots nor frames.  Each act writes the records that go with it.  No step
is ever retried or popped: it is on the stack only while application code runs, and this
leaves the stack as it is.  Code that puts a new engine in place of the one that runs it
is the exception; but then no step is on the stack at all, and none is put there to stay.

* `World.Apart`, `Machine.Apart` — what is about neither slots nor frames;
* `Machine.Acts`, `Machine.Acted` — single acts, and sequences of acts;
* `Machine.Does` — computations that are sequences of acts, also where they stop;
* `Stepless`, `Spares` — stacks without steps, and code that leaves the stack alone or a
  stack without steps behind;
* `Upright` — the stack of a run between two steps of it;
* `Machine.exec_spares`, `run_spares` — what programs and runs do is a sequence of acts;
* `Machine.exec_acted` — every use of an engine is a sequence of acts.

Design notes: the moves of `Machine.History` are about counters, and say nothing about
records, about code that renews an engine and about the middle of a unification.  A stack
without steps is upright above nothing, and then no height of a commit is too low; so what
holds of a run on an upright stack also says what it does after the engine was renewed.
-/
import GoalSearch.Proofs.Checks
import GoalSearch.Proofs.Ledger

namespace GoalSearch

open GoalSearch.Action

variable {S : Vocabulary} {T : Theory S} {α β : Type}

/-! ### Records that are not about frames -/

/-- Whether a record is about frames. -/
def Record.isFrame : Record → Bool
  | .pushed .. | .retried .. | .popped .. | .committed .. => true
  | _ => false

/-- A log with more records on top, none of them about frames. -/
def Record.Adds (l l' : List Record) : Prop :=
  ∃ rs, l' = rs ++ l ∧ ∀ r ∈ rs, r.isFrame = false

namespace Record

variable {l l' l'' : List Record}

theorem Adds.refl (l : List Record) : Adds l l := ⟨[], rfl, by simp⟩

theorem Adds.trans (h : Adds l l') (h' : Adds l' l'') : Adds l l'' := by
  obtain ⟨rs, rfl, hrs⟩ := h
  obtain ⟨rs', rfl, hrs'⟩ := h'
  exact ⟨rs' ++ rs, (List.append_assoc ..).symm, List.forall_mem_append.mpr ⟨hrs', hrs⟩⟩

theorem adds_cons {r : Record} (hr : r.isFrame = false) (l : List Record) : Adds l (r :: l) :=
  ⟨[r], rfl, by simpa using hr⟩

end Record

/-- What is about neither slots nor frames. -/
structure World.Apart (w w' : World S) : Prop where
  store : w'.store = w.store
  log : Record.Adds w.log w'.log

namespace World

variable {w w' : World S}

theorem Apart.refl (w : World S) : w.Apart w := ⟨rfl, .refl _⟩

theorem lasting_apart : Lasting (fun _ => True) (Apart (S := S)) where
  refl := Apart.refl
  trans h h' := ⟨h'.store.trans h.store, h.log.trans h'.log⟩
  last _ _ := trivial

theorem answer_apart (n : Nat) (q : Ask S) : (q.answer T n).Leads Apart := by
  have h := lasting_apart (S := S)
  cases q with
  | say row => exact fun w => ⟨rfl, Record.adds_cons rfl _⟩
  | display t => exact Leads.bind h (Leads.get h) fun _ => Leads.ofOption h _
  | identical a b => exact Leads.bind h (Leads.get h) fun _ => Leads.ofOption h _
  | _ => exact fun w => ⟨rfl, .refl _⟩

theorem quiet_apart (n : Nat) (x : Quiet S α) : (x.exec T n).Leads Apart := by
  induction x with
  | done a => exact Leads.pure lasting_apart a
  | ask q next ih => exact Leads.bind lasting_apart (answer_apart n q) ih

theorem note_apart {r : Record} (hr : r.isFrame = false) : (note (S := S) r).Leads Apart :=
  fun _ => ⟨rfl, Record.adds_cons hr _⟩

theorem resolve_apart (n : Nat) (t : S.Term) : (resolve T n t).Leads Apart := by
  intro w
  rw [last, resolve_apply]
  cases (T.resolve? w.store n t).run w.nextObject <;> exact ⟨rfl, .refl _⟩

end World

/-! ### What a unification does on the way -/

/-- Relations that hold along everything that a unification does, whether it ends or
stops. -/
structure Scope.Tracks (T : Theory S) (R : Scope S → Scope S → Prop) : Prop where
  refl : ∀ c, R c c
  trans : ∀ {c d e}, R c d → R d e → R c e
  ask : ∀ n (q : Ask S) c, R c { c with world := (q.answer T n).last c.world }
  aside : ∀ c d, R { c with trail := .empty } d → R c { d with trail := c.trail }
  record : ∀ c v, R c (c.saved v)
  fill : ∀ c v value, R c (c.filled v value)
  refuse : ∀ (c : Scope S) r, R c { c with world.log := .refused r :: c.world.log }

theorem unify_tracks {R : Scope S → Scope S → Prop} (h : Scope.Tracks T R) (n : Nat)
    (a b : S.Term) : (unify T n a b).Leads R := by
  have hlasting : Lasting (fun _ => True) R := ⟨h.refl, h.trans, fun _ _ => trivial⟩
  have hstore : (Scope.store (S := S)).Leads R := h.refl
  refine unify_leads hlasting h.ask (fun n hu v value => ?_) n a b
  have hadmits := Scope.admits_leads hlasting h.ask hu h.aside v value
  have hassign : (Scope.assign T n (unify T n) v value).Leads R := by
    refine Leads.bind hlasting hstore fun s => ?_
    split
    · exact Leads.pure hlasting _
    · split
      · exact Leads.pure hlasting _
      · refine Leads.bind hlasting hadmits fun b => ?_
        split
        · exact Leads.bind hlasting (fun c => h.fill c v value) fun _ => Leads.pure hlasting _
        · exact Leads.pure hlasting _
  refine Leads.bind hlasting hadmits fun b => ?_
  split
  · refine Leads.bind hlasting (fun c => h.record c v) fun _ => ?_
    refine Leads.bind hlasting hassign fun r => ?_
    split
    · exact Leads.pure hlasting _
    · split
      · exact Leads.throw hlasting _
      · exact Leads.bind hlasting (fun c => h.refuse c _) fun _ => Leads.pure hlasting _
  · exact Leads.pure hlasting _

theorem Scope.tracks_log (T : Theory S) :
    Tracks T fun c d => Record.Adds c.world.log d.world.log where
  refl _ := .refl _
  trans := .trans
  ask n q c := (World.answer_apart n q c.world).log
  aside _ _ h := h
  record _ _ := .refl _
  fill _ _ _ := .refl _
  refuse _ _ := Record.adds_cons rfl _

namespace Machine

/-! ### Acts -/

/-- What is about neither the slots nor the trail, and leaves the kinds of the frames as they
are. -/
structure Apart (m m' : Machine S) : Prop where
  config : m'.engine.config = m.engine.config
  trail : m'.engine.trail = m.engine.trail
  kinds : m'.engine.frames.map (·.activation.kind) = m.engine.frames.map (·.activation.kind)
  world : m.world.Apart m'.world

/-- The machine after another engine was put in place of its own. -/
def renewed (m : Machine S) : Machine S := { m with engine := .new m.engine.config }

/-- What an engine does, one thing at a time, with the records of its frames. -/
inductive Acts (T : Theory S) : Machine S → Machine S → Prop
  | push (m : Machine S) (mark : Nat) (a : Activation S) : Acts T m (m.pushed mark a)
  | retry {m : Machine S} {f : Frame S} {fs : List (Frame S)} :
      m.engine.frames = f :: fs → f.activation.kind ≠ .step →
      Acts T m (m.noted (.retried f.activation.kind m.engine.depth))
  | pop {m : Machine S} {f : Frame S} {fs : List (Frame S)} :
      m.engine.frames = f :: fs → f.activation.kind ≠ .step → Acts T m (m.popped f fs)
  | retire {m : Machine S} {f : Frame S} {fs : List (Frame S)} :
      m.engine.frames = f :: fs → Acts T m (m.retired fs)
  | commit (m : Machine S) (height : Nat) : Acts T m (m.committed height)
  | undo (m : Machine S) (mark : Nat) : Acts T m (m.undone mark)
  | unify (m : Machine S) (fuel : Nat) (a b : S.Term) :
      Acts T m ((Machine.unify T fuel a b).last m)
  | renew (m : Machine S) : Acts T m m.renewed
  | apart {m m' : Machine S} : m.Apart m' → Acts T m m'

/-- Sequences of acts. -/
def Acted (T : Theory S) : Machine S → Machine S → Prop := Relation.ReflTransGen (Acts T)

variable {m m' m'' : Machine S}

theorem Acts.acted (h : Acts T m m') : m.Acted T m' := .single h

theorem Apart.acted (h : m.Apart m') : m.Acted T m' := (Acts.apart h).acted

theorem Acted.trans (h : m.Acted T m') (h' : m'.Acted T m'') : m.Acted T m'' :=
  Relation.ReflTransGen.trans h h'

theorem apart_of_world (h : m.world.Apart m'.world) (hengine : m'.engine = m.engine) :
    m.Apart m' := by
  refine ⟨?_, ?_, ?_, h⟩ <;> rw [hengine]

theorem apart_counted (m : Machine S) (c : Counter) (n : Nat) : m.Apart (m.counted c n) :=
  ⟨rfl, rfl, rfl, .refl _⟩

theorem unify_last (T : Theory S) (n : Nat) (a b : S.Term) (m : Machine S) :
    ((Machine.unify T n a b).last m).scope = (GoalSearch.unify T n a b).last m.scope ∧
      ((Machine.unify T n a b).last m).engine.frames = m.engine.frames ∧
      ((Machine.unify T n a b).last m).engine.config = m.engine.config := by
  rw [last, unify_apply, last]
  cases GoalSearch.unify T n a b m.scope <;> exact ⟨rfl, rfl, rfl⟩

/-! ### Computations that are sequences of acts -/

/-- From `m`, a computation is a sequence of acts, and where it ends, it does so as `post`
says. -/
def Does (T : Theory S) (m : Machine S) (x : Action (Machine S) α)
    (post : α → Machine S → Prop) : Prop :=
  Leaves x m (fun a m' => m.Acted T m' ∧ post a m') (m.Acted T)

section Does

variable {x : Action (Machine S) α} {f : α → Action (Machine S) β} {a : α}
  {post post' : α → Machine S → Prop} {next : β → Machine S → Prop}

theorem Does.mono (h : Does T m x post) (hpost : ∀ a m', post a m' → post' a m') :
    Does T m x post' :=
  Leaves.mono h (fun a m' h => ⟨h.1, hpost a m' h.2⟩) fun _ h => h

theorem does_bind (hx : Does T m x post) (hf : ∀ a m', post a m' → Does T m' (f a) next) :
    Does T m (x >>= f) next := by
  rw [Does, leaves_bind]
  refine Leaves.mono hx (fun a m' h => ?_) fun _ h => h
  exact Leaves.mono (hf a m' h.2) (fun b m'' h' => ⟨h.1.trans h'.1, h'.2⟩) fun _ h' => h.1.trans h'

theorem does_of_eq_ok (hx : x m = .ok a m') (hacted : m.Acted T m') (hpost : post a m') :
    Does T m x post :=
  (leaves_of_eq_ok hx).mpr ⟨hacted, hpost⟩

theorem does_pure (hpost : post a m) : Does T m (Pure.pure a : Action (Machine S) α) post :=
  does_of_eq_ok (pure_apply a m) .refl hpost

theorem does_throw (e : Stop) : Does T m (throw e : Action (Machine S) α) post :=
  Relation.ReflTransGen.refl

/-- A computation that begins with one that cannot stop. -/
theorem does_bind_of_eq_ok (hx : x m = .ok a m') (hacted : m.Acted T m')
    (hf : Does T m' (f a) next) : Does T m (x >>= f) next := by
  have hx' : Does T m x fun b m'' => b = a ∧ m'' = m' := does_of_eq_ok hx hacted ⟨rfl, rfl⟩
  refine does_bind hx' ?_
  rintro _ _ ⟨rfl, rfl⟩
  exact hf

/-- A computation that begins by looking at the machine. -/
theorem does_bind_of_reads (hx : x m = .ok a m) (hf : Does T m (f a) next) :
    Does T m (x >>= f) next :=
  does_bind_of_eq_ok hx .refl hf

theorem does_onWorld {x : Action (World S) α} (hx : x.Leads World.Apart) (m : Machine S) :
    Does T m (onWorld x) fun _ m' => m'.engine = m.engine := by
  have hapart : m.Apart { m with world := x.last m.world } := apart_of_world (hx m.world) rfl
  rw [last] at hapart
  refine leaves_onPart (fun a w h => ⟨?_, rfl⟩) fun e w h => ?_
  · rw [h] at hapart
    exact hapart.acted
  · rw [h] at hapart
    exact hapart.acted

theorem does_quietly (fuel : Nat) (x : Quiet S α) (m : Machine S) :
    Does T m (quietly T fuel x) fun _ m' => m'.engine = m.engine :=
  does_onWorld (World.quiet_apart fuel x) m

theorem does_unify (fuel : Nat) (a b : S.Term) (m : Machine S) :
    Does T m (Machine.unify T fuel a b) fun _ m' => m'.engine.frames = m.engine.frames := by
  have hacts : m.Acted T ((Machine.unify T fuel a b).last m) := (Acts.unify m fuel a b).acted
  have hframes := (unify_last T fuel a b m).2.1
  rw [last] at hacts hframes
  unfold Does Leaves
  cases h : Machine.unify T fuel a b m with
  | ok r m' =>
    rw [h] at hacts hframes
    exact ⟨hacts, hframes⟩
  | error e m' =>
    rw [h] at hacts
    exact hacts

end Does

end Machine

/-! ### Stacks without steps -/

/-- Stacks on which no frame is a step. -/
def Stepless (F : List (Frame S)) : Prop := ∀ f ∈ F, f.activation.kind ≠ .step

section Stepless

variable {F F' : List (Frame S)} {f : Frame S}

theorem Stepless.sublist (h : Stepless F) (hF : F' <:+ F) : Stepless F' :=
  fun f hf => h f (hF.mem hf)

theorem Stepless.cons (h : Stepless F) (hf : f.activation.kind ≠ .step) : Stepless (f :: F) :=
  List.forall_mem_cons.mpr ⟨hf, h⟩

theorem stepless_of_kinds (h : F'.map (·.activation.kind) = F.map (·.activation.kind)) :
    Stepless F → Stepless F' := by
  intro hF f hf
  have hmem := List.mem_map_of_mem (f := (·.activation.kind)) hf
  rw [h] at hmem
  obtain ⟨f', hf', hkind⟩ := List.mem_map.mp hmem
  rw [← hkind]
  exact hF f' hf'

/-- What a run has on top of the stack on which it started: its sentinel, and the frames above
that. -/
theorem unwound {upper : List (Frame S)} {mark : Nat} (hF' : F' = upper ++ ⟨.sentinel, mark⟩ :: F)
    (hupper : Stepless upper) :
    Stepless (F'.take (F'.length - F.length)) ∧ F'.drop (F'.length - F.length) = F := by
  have hsplit : F' = (upper ++ [⟨.sentinel, mark⟩]) ++ F := by
    rw [hF', List.append_assoc]
    rfl
  have hlength : F'.length - F.length = (upper ++ [(⟨.sentinel, mark⟩ : Frame S)]).length := by
    rw [hsplit, List.length_append]
    omega
  rw [hlength, hsplit, List.take_left, List.drop_left]
  refine ⟨fun f hf => ?_, rfl⟩
  rcases List.mem_append.mp hf with hf | hf
  · exact hupper f hf
  · rw [List.mem_singleton.mp hf]
    simp [Activation.kind]

/-- The stack is what it was, or no step is on it. -/
def Spares (F F' : List (Frame S)) : Prop := F' = F ∨ Stepless F'

theorem Spares.trans {F'' : List (Frame S)} (h : Spares F F') (h' : Spares F' F'') :
    Spares F F'' := by
  rcases h' with rfl | h'
  · exact h
  · exact .inr h'

/-- What is pushed before and retired after code that spares the stack. -/
theorem Spares.tail (h : Spares (f :: F) F') : Spares F F'.tail := by
  rcases h with rfl | h
  · exact .inl rfl
  · exact .inr (h.sublist (List.tail_suffix _))

end Stepless

namespace Machine

variable {m m' : Machine S}

/-- A computation that is a sequence of acts and spares the stack. -/
def SparesStack (T : Theory S) (x : Action (Machine S) α) : Prop :=
  ∀ m, Does T m x fun _ m' => Spares m.engine.frames m'.engine.frames

theorem SparesStack.bind {x : Action (Machine S) α} {f : α → Action (Machine S) β}
    (hx : SparesStack T x) (hf : ∀ a, SparesStack T (f a)) : SparesStack T (x >>= f) := by
  intro m
  refine does_bind (hx m) fun a m' h => ?_
  exact (hf a m').mono fun _ _ h' => h.trans h'

theorem SparesStack.pure (a : α) : SparesStack T (Pure.pure a : Action (Machine S) α) :=
  fun _ => does_pure (.inl rfl)

theorem SparesStack.rounds {round : Action (Machine S) (Option α)} (hr : SparesStack T round) :
    ∀ n, SparesStack T (Action.rounds round n)
  | 0 => fun _ => does_throw _
  | n + 1 => by
    refine SparesStack.bind hr fun o => ?_
    cases o with
    | some a => exact SparesStack.pure a
    | none => exact SparesStack.rounds hr n

/-- A computation that leaves the engine alone. -/
theorem sparesStack_of_engine {x : Action (Machine S) α}
    (hx : ∀ m, Does T m x fun _ m' => m'.engine = m.engine) : SparesStack T x :=
  fun m => (hx m).mono fun _ _ h => .inl (by rw [h])

/-- A computation that only looks at the machine. -/
theorem sparesStack_of_reads {x : Action (Machine S) α} (hx : ∀ m, ∃ a, x m = .ok a m) :
    SparesStack T x := by
  intro m
  obtain ⟨a, ha⟩ := hx m
  exact does_of_eq_ok ha .refl (.inl rfl)

theorem sparesStack_onWorld {x : Action (World S) α} (hx : x.Leads World.Apart) :
    SparesStack T (onWorld x) :=
  sparesStack_of_engine (does_onWorld hx)

theorem sparesStack_unify (fuel : Nat) (a b : S.Term) :
    SparesStack T (Machine.unify T fuel a b) :=
  fun m => (does_unify fuel a b m).mono fun _ _ h => .inl h

/-- A change of the machine that is about neither slots nor frames. -/
theorem sparesStack_modify {f : Machine S → Machine S} (hf : ∀ m : Machine S, m.Apart (f m))
    (hframes : ∀ m, (f m).engine.frames = m.engine.frames) : SparesStack T (modify f) :=
  fun m => does_of_eq_ok (modify_apply f m) (hf m).acted (.inl (hframes m))

/-- Runs that are sequences of acts and spare the stack. -/
def RunsSpare (T : Theory S) (run : Runner S) : Prop :=
  ∀ g k, k.Entry → SparesStack T (run g k)

/-! ### Programs -/

section Exec

variable {fuel : Nat} {run : Runner S} (hrun : RunsSpare T run)

include hrun

theorem executeWith_spares (g : Goal S) {k : Continuation S} (hk : k.Entry) :
    SparesStack T (executeWith run g k) := by
  refine SparesStack.bind (sparesStack_of_reads fun m => ⟨_, depth_apply m⟩) fun depth => ?_
  refine SparesStack.bind (sparesStack_of_reads fun m => ⟨_, trailLength_apply m⟩) fun trail => ?_
  refine SparesStack.bind (sparesStack_onWorld (World.note_apart rfl)) fun _ => ?_
  refine SparesStack.bind (hrun g k hk) fun status => ?_
  refine SparesStack.bind (sparesStack_onWorld (World.note_apart rfl)) fun _ => ?_
  exact SparesStack.pure _

theorem collecting_spares (g : Goal S) {k : Continuation S} (hk : k.Entry) :
    SparesStack T (collecting (executeWith run g k)) := by
  refine SparesStack.bind (sparesStack_of_reads fun m => ⟨_, get_apply m⟩) fun m => ?_
  refine SparesStack.bind (sparesStack_modify (fun m => ?_) fun _ => rfl) fun _ => ?_
  · exact apart_of_world (.refl _) rfl
  refine SparesStack.bind (executeWith_spares hrun g hk) fun _ => ?_
  intro m'
  refine does_of_eq_ok (modifyGet_apply _ m') (Apart.acted ?_) (.inl rfl)
  exact apart_of_world (.refl _) rfl

theorem findFirstWith_spares (g : Goal S) (t : S.Term) :
    SparesStack T (findFirstWith run g t) :=
  SparesStack.bind (collecting_spares hrun _ (.first t)) fun _ => SparesStack.pure _

/-- What a program does is a sequence of acts that spares the stack. -/
theorem exec_spares {κ : Kind} : ∀ p : Program S (Goal S) κ, SparesStack T (p.exec T fuel run)
  | .verdict _ => SparesStack.pure _
  | .attempt _ => SparesStack.pure _
  | .candidates _ => SparesStack.pure _
  | .choices _ => SparesStack.pure _
  | .ask q next =>
    SparesStack.bind (sparesStack_onWorld (World.answer_apart fuel q)) fun x => exec_spares (next x)
  | .unify a b next => SparesStack.bind (sparesStack_unify fuel a b) fun r => exec_spares (next r)
  | .execute g next =>
    SparesStack.bind (executeWith_spares hrun g .finish) fun r => exec_spares (next r)
  | .findFirst g t next =>
    SparesStack.bind (findFirstWith_spares hrun g t) fun r => exec_spares (next r)
  | .findAll g t next =>
    SparesStack.bind (collecting_spares hrun _ (.all t)) fun r => exec_spares (next r)
  | .view next =>
    SparesStack.bind (sparesStack_of_reads fun m => ⟨_, get_apply m⟩) fun m =>
      exec_spares (next m.engine.view)
  | .resetStatistics next =>
    SparesStack.bind (sparesStack_modify (fun _ => ⟨rfl, rfl, rfl, .refl _⟩) fun _ => rfl)
      fun _ => exec_spares next
  | .renew next => by
    refine SparesStack.bind (fun m => ?_) fun _ => exec_spares next
    refine does_of_eq_ok (modifyEngine_apply m _) (Acts.renew m).acted (.inr ?_)
    exact fun f hf => nomatch hf
  | .loop round next =>
    SparesStack.bind (SparesStack.rounds (exec_spares round) fuel) fun r => exec_spares (next r)

end Exec

end Machine

/-! ### The stack of a run between two steps -/

/-- A continuation that commits to no height below `n`. -/
def Continuation.Over (n : Nat) : Continuation S → Prop
  | .finish => True
  | .sequence _ next => next.Over n
  | .call _ next => next.Over n
  | .commit height next => n ≤ height ∧ next.Over n
  | .collect _ next => next.Over n
  | .refuse => True

/-- An activation other than a step that commits to no height below `n`. -/
def Activation.Over (n : Nat) : Activation S → Prop
  | .sentinel => True
  | .step => False
  | .candidates _ _ _ next => next.Over n
  | .branches _ next => next.Over n
  | .search _ _ next => next.Over n

/-- A task that commits to no height below `n`. -/
def Task.Over (n : Nat) : Task S → Prop
  | .call _ next => next.Over n
  | .proceed next => next.Over n
  | .retry => True
  | .backtrack => True

/-- The outcome of a step after which nothing commits to a height below `n`. -/
def Progress.Over (n : Nat) : Progress S → Prop
  | .task t => t.Over n
  | .ended _ => True

/-- What lies at the bottom of the stack of a run: its sentinel and what was there before, or
nothing. -/
inductive Floor : List (Frame S) → Prop
  | sentinel (mark : Nat) (F : List (Frame S)) : Floor (⟨.sentinel, mark⟩ :: F)
  | nothing : Floor []

/-- No frame above `base` is a step, and none commits to a height below that of `base`. -/
def Upright (base F : List (Frame S)) : Prop :=
  ∃ upper, F = upper ++ base ∧ ∀ f ∈ upper, f.activation.Over base.length

/-- After a step the stack is upright and the run goes on above its base, or no step is on
the stack. -/
def Lands (base : List (Frame S)) (p : Progress S) (F : List (Frame S)) : Prop :=
  (Upright base F ∧ p.Over base.length) ∨ Stepless F

section Upright

variable {n : Nat} {base F F' : List (Frame S)} {f : Frame S} {p : Progress S}

theorem Continuation.over_zero (k : Continuation S) : k.Over 0 := by
  induction k with
  | finish => trivial
  | sequence _ _ ih => exact ih
  | call _ _ ih => exact ih
  | commit _ _ ih => exact ⟨Nat.zero_le _, ih⟩
  | collect _ _ ih => exact ih
  | refuse => trivial

theorem Continuation.Entry.over {k : Continuation S} (hk : k.Entry) (n : Nat) : k.Over n := by
  cases hk <;> trivial

theorem Activation.Over.kind_ne {a : Activation S} (h : a.Over n) : a.kind ≠ .step := by
  cases a with
  | step => exact h.elim
  | _ => simp [Activation.kind]

theorem Activation.over_zero {a : Activation S} (h : a.kind ≠ .step) : a.Over 0 := by
  cases a with
  | sentinel => trivial
  | step => exact absurd rfl h
  | candidates _ _ _ next => exact next.over_zero
  | branches _ next => exact next.over_zero
  | search _ _ next => exact next.over_zero

theorem Task.over_zero (t : Task S) : t.Over 0 := by
  cases t with
  | call _ next => exact next.over_zero
  | proceed next => exact next.over_zero
  | _ => trivial

theorem Task.over_sequence (rest : List (Goal S)) {next : Continuation S} (h : next.Over n) :
    (Task.sequence rest next).Over n := by
  match rest with
  | [] => exact h
  | [_] => exact h
  | _ :: _ :: _ => exact h

theorem Task.over_ofVerdict (b : Bool) {next : Continuation S} (h : next.Over n) :
    (Task.ofVerdict b next).Over n := by
  cases b with
  | true => exact h
  | false => trivial

theorem upright_nil (h : Stepless F) : Upright [] F :=
  ⟨F, (List.append_nil F).symm, fun f hf => Activation.over_zero (h f hf)⟩

theorem Lands.stepless (h : Lands [] p F) : Stepless F := by
  rcases h with ⟨⟨upper, rfl, hupper⟩, -⟩ | h
  · rw [List.append_nil]
    exact fun f hf => (hupper f hf).kind_ne
  · exact h

theorem Upright.cons (h : Upright base F) (hf : f.activation.Over base.length) :
    Upright base (f :: F) := by
  obtain ⟨upper, rfl, hupper⟩ := h
  exact ⟨f :: upper, rfl, List.forall_mem_cons.mpr ⟨hf, hupper⟩⟩

/-- What the stack becomes after code that spares it. -/
theorem Upright.lands (h : Upright base F) (hspares : Spares F F') (hp : p.Over base.length) :
    Lands base p F' := by
  rcases hspares with rfl | hstepless
  · exact .inl ⟨h, hp⟩
  · exact .inr hstepless

theorem Upright.lands_self (h : Upright base F) (hp : p.Over base.length) : Lands base p F :=
  .inl ⟨h, hp⟩

/-- A commit of a run keeps all that lies below the run. -/
theorem Upright.drop (h : Upright base F) {height : Nat} (hheight : base.length ≤ height) :
    Upright base (F.drop (F.length - height)) := by
  obtain ⟨upper, rfl, hupper⟩ := h
  refine ⟨upper.drop ((upper ++ base).length - height), ?_, fun f hf => ?_⟩
  · exact List.drop_append_of_le_length (by rw [List.length_append]; omega)
  · exact hupper f (List.mem_of_mem_drop hf)

/-- The top of the stack of a run, whether it lies above the base or is the sentinel. -/
theorem Upright.top (hbase : Floor base) (h : Upright base (f :: F)) :
    (f.activation.Over base.length ∧ Upright base F) ∨ f.activation = .sentinel := by
  obtain ⟨upper, heq, hupper⟩ := h
  cases upper with
  | nil =>
    cases hbase with
    | sentinel mark below =>
      cases heq
      exact .inr rfl
    | nothing => cases heq
  | cons f' upper =>
    cases heq
    exact .inl ⟨hupper f (List.mem_cons_self ..), upper, rfl,
      fun g hg => hupper g (List.mem_cons_of_mem _ hg)⟩

end Upright

/-! ### Runs -/

namespace Machine

section Operations

variable {m : Machine S} {f : Frame S} {fs : List (Frame S)} {x : Action (Machine S) α}
  {post : β → Machine S → Prop}

theorem does_retire (m : Machine S) :
    Does T m retire fun _ m' => m'.engine.frames = m.engine.frames.tail := by
  cases hframes : m.engine.frames with
  | nil => exact does_of_eq_ok (retire_of_nil m hframes) .refl hframes
  | cons f fs => exact does_of_eq_ok (retire_apply m hframes) (Acts.retire hframes).acted rfl

theorem does_pop (htop : ∀ f ∈ m.engine.frames.head?, f.activation.kind ≠ .step) :
    Does T m pop fun _ m' => m'.engine.frames = m.engine.frames.tail := by
  cases hframes : m.engine.frames with
  | nil => exact does_of_eq_ok (pop_of_nil m hframes) .refl hframes
  | cons f fs =>
    have hkind : f.activation.kind ≠ .step := htop f (by rw [hframes]; rfl)
    exact does_of_eq_ok (pop_apply m hframes) (Acts.pop hframes hkind).acted rfl

theorem does_popMany (n : Nat) (hsteps : Stepless (m.engine.frames.take n)) :
    Does T m (popMany n) fun _ m' => m'.engine.frames = m.engine.frames.drop n := by
  induction n generalizing m with
  | zero => exact does_pure rfl
  | succ n ih =>
    refine does_bind (does_pop fun f hf => hsteps f ?_) fun _ m₁ h₁ => ?_
    · obtain ⟨fs, hfs⟩ := List.head?_eq_some_iff.mp hf
      rw [hfs]
      exact List.mem_cons_self ..
    · have hrest : Stepless (m₁.engine.frames.take n) := by
        intro f hf
        rw [h₁] at hf
        refine hsteps f ?_
        cases hframes : m.engine.frames with
        | nil => simp [hframes] at hf
        | cons g fs =>
          rw [hframes] at hf
          exact List.mem_cons_of_mem g hf
      refine (ih hrest).mono fun _ m₂ h₂ => ?_
      rw [h₂, h₁, List.drop_tail]

theorem does_unwind (height : Nat)
    (hsteps : Stepless (m.engine.frames.take (m.engine.frames.length - height))) :
    Does T m (unwind height) fun _ m' =>
      m'.engine.frames = m.engine.frames.drop (m.engine.frames.length - height) :=
  does_bind_of_reads (depth_apply m) (does_popMany _ hsteps)

/-- A step that is pushed, and retired after code that spares the stack. -/
theorem does_retiring {y : Action (Machine S) Unit} {mark : Nat}
    (hy : y m = .ok () (m.pushed mark .step)) (hx : SparesStack T x)
    {f : α → Action (Machine S) β}
    (hf : ∀ a m', Spares m.engine.frames m'.engine.frames → Does T m' (f a) post) :
    Does T m (do y; let a ← x; retire; f a) post := by
  refine does_bind_of_eq_ok hy (Acts.push m mark .step).acted ?_
  refine does_bind (hx _) fun a m₂ h₂ => ?_
  refine does_bind (does_retire m₂) fun _ m₃ h₃ => hf a m₃ ?_
  rw [h₃]
  exact h₂.tail

/-- A step that is pushed and retired at once. -/
theorem acted_stepped (m : Machine S) : m.Acted T m.stepped :=
  (Acts.push m _ .step).acted.trans (Acts.retire (pushed_frames m _ .step)).acted

/-- Changing the activation of a frame, but not its kind. -/
theorem apart_updated {a : Activation S} (hframes : m.engine.frames = f :: fs)
    (hkind : a.kind = f.activation.kind) :
    m.Apart (m.withFrames ({ f with activation := a } :: fs)) := by
  refine ⟨rfl, rfl, ?_, .refl _⟩
  rw [hframes]
  show a.kind :: _ = _
  rw [hkind]
  rfl

/-- A computation that begins by changing the activation on top. -/
theorem does_bind_updated {g : Activation S → Activation S} {x : Action (Machine S) β}
    (hframes : m.engine.frames = f :: fs) (hg : (g f.activation).kind = f.activation.kind)
    (hx : Does T (m.withFrames ({ f with activation := g f.activation } :: fs)) x post) :
    Does T m (do updateAt (fs.length + 1) g; x) post :=
  does_bind_of_eq_ok (updateAt_apply m hframes rfl g) (apart_updated hframes hg).acted hx

/-- Giving the activation on top another content, after code that spares the stack. -/
theorem does_updateAt {g : Activation S → Activation S} (hg : ∀ a, (g a).kind = a.kind)
    (hspares : Spares (f :: fs) m.engine.frames) {height : Nat}
    (hheight : m.engine.frames = f :: fs → height = fs.length + 1) :
    Does T m (updateAt height g) fun _ m' =>
      Spares ({ f with activation := g f.activation } :: fs) m'.engine.frames := by
  rcases hspares with hframes | hstepless
  · refine does_of_eq_ok (updateAt_apply m hframes (hheight hframes) g) ?_ (.inl rfl)
    exact (apart_updated hframes (hg _)).acted
  · -- whichever frame it is that changes, its kind does not
    have hkinds : (if height ≤ m.engine.depth then
        { m.engine with frames := m.engine.frames.modify (m.engine.depth - height) fun frame =>
            { frame with activation := g frame.activation } }
        else m.engine).frames.map (·.activation.kind) =
          m.engine.frames.map (·.activation.kind) := by
      split
      · refine List.ext_getElem (by simp) fun i h₁ h₂ => ?_
        simp only [List.getElem_map, List.getElem_modify]
        split
        · exact hg _
        · rfl
      · rfl
    refine does_of_eq_ok (modifyEngine_apply m _) (Apart.acted ?_) (.inr ?_)
    · refine ⟨?_, ?_, hkinds, .refl _⟩
      · dsimp only
        split <;> rfl
      · dsimp only
        split <;> rfl
    · exact stepless_of_kinds hkinds hstepless

/-- An exhausted frame is popped. -/
theorem does_exhausted (hspares : Spares (f :: fs) m.engine.frames)
    (hf : f.activation.kind ≠ .step) :
    Does T m (do return .task (← exhausted) : Action (Machine S) (Progress S)) fun p m' =>
      p = .task .backtrack ∧ Spares fs m'.engine.frames := by
  have htop : ∀ f' ∈ m.engine.frames.head?, f'.activation.kind ≠ .step := by
    rcases hspares with hframes | hstepless
    · rw [hframes]
      rintro _ ⟨⟩
      exact hf
    · exact fun f' hf' => hstepless f' (List.mem_of_mem_head? hf')
  have hpop : Does T m (exhausted (S := S)) fun t m' =>
      t = .backtrack ∧ Spares fs m'.engine.frames := by
    refine does_bind (does_pop htop) fun _ m' h => does_pure ⟨rfl, ?_⟩
    rw [h]
    exact hspares.tail
  refine does_bind hpop fun t m' h => does_pure ⟨?_, h.2⟩
  rw [h.1]

/-- A run that pops an exhausted frame of its own goes back on the stack below. -/
theorem does_giveUp {base : List (Frame S)} (hfs : Upright base fs)
    (hf : f.activation.Over base.length) (hspares : Spares (f :: fs) m.engine.frames) :
    Does T m (do return .task (← exhausted) : Action (Machine S) (Progress S)) fun p m' =>
      Lands base p m'.engine.frames := by
  refine (does_exhausted hspares hf.kind_ne).mono ?_
  rintro _ m' ⟨rfl, h⟩
  exact hfs.lands h trivial

end Operations

section Runs

variable {fuel : Nat} {run : Runner S} (hrun : RunsSpare T run) {m : Machine S}
  {base : List (Frame S)} {next : Continuation S}

include hrun

theorem callPredicate_does (hm : Upright base m.engine.frames) (hnext : next.Over base.length)
    (p : Predicate S (Goal S)) :
    Does T m (callPredicate T fuel run p next) fun t m' =>
      Lands base (.task t) m'.engine.frames := by
  refine does_bind_of_reads (trailLength_apply m) ?_
  cases p with
  | nondeterministic prepare validate =>
    refine does_bind (exec_spares hrun prepare m) fun draw m₁ h₁ => ?_
    refine does_bind_of_eq_ok (push_apply m₁ _ _) (Acts.push m₁ _ _).acted (does_pure ?_)
    rcases h₁ with h₁ | h₁
    · exact .inl ⟨by rw [pushed_frames, h₁]; exact hm.cons hnext, trivial⟩
    · exact .inr (h₁.cons (by simp [Activation.kind]))
  | semideterministic prepare validate =>
    refine does_retiring (push_apply m _ _) (exec_spares hrun prepare) fun _ m₁ h₁ => ?_
    refine does_bind (exec_spares hrun validate m₁) fun valid m₂ h₂ => does_pure ?_
    exact hm.lands (h₁.trans h₂) (Task.over_ofVerdict valid hnext)
  | deterministic prepare =>
    refine does_retiring (push_apply m _ _) (exec_spares hrun prepare) fun _ m₁ h₁ => does_pure ?_
    exact hm.lands h₁ hnext

theorem call_does (hm : Upright base m.engine.frames) (hnext : next.Over base.length)
    (g : Goal S) :
    Does T m (call T fuel run g next) fun t m' => Lands base (.task t) m'.engine.frames := by
  refine does_bind_of_eq_ok (count_apply m .calls) (apart_counted m .calls 1).acted ?_
  have hcounted : Upright base (m.counted .calls 1).engine.frames := hm
  generalize m.counted .calls 1 = m at hcounted
  cases g with
  | succeed => exact does_pure (hcounted.lands_self hnext)
  | fail => exact does_pure (hcounted.lands_self trivial)
  | call p => exact callPredicate_does hrun hcounted hnext p
  | sequence goals => exact does_pure (hcounted.lands_self (Task.over_sequence goals hnext))
  | disjunction branches =>
    refine does_bind_of_eq_ok (pushHere_apply m _) (Acts.push m _ _).acted (does_pure ?_)
    exact .inl ⟨hcounted.cons hnext, trivial⟩
  | once goal =>
    refine does_bind_of_eq_ok (enterStep_apply m) (acted_stepped m) ?_
    refine does_bind_of_reads (depth_apply _) (does_pure (hcounted.lands_self ⟨?_, hnext⟩))
    -- The commit goes back to the height of the call, which is above the base.
    obtain ⟨upper, hupper, -⟩ := hcounted
    show base.length ≤ m.engine.frames.length
    rw [hupper, List.length_append]
    omega
  | notNot goal =>
    refine does_retiring (pushHere_apply m _) (hrun goal .finish .finish) fun status m₁ h₁ =>
      does_pure ?_
    exact hcounted.lands h₁ (Task.over_ofVerdict _ hnext)
  | loop test body =>
    refine does_bind_of_eq_ok (enterStep_apply m) (acted_stepped m) ?_
    refine does_bind_of_reads (get_apply _) ?_
    refine does_bind (does_quietly fuel _ _) fun b m₂ h₂ => ?_
    have hm₂ : Upright base m₂.engine.frames := by
      rw [h₂]
      exact hcounted
    cases b with
    | false => exact does_pure (hm₂.lands_self hnext)
    | true =>
      refine does_bind_of_reads (get_apply _) ?_
      refine does_bind (does_quietly fuel _ _) fun goal m₃ h₃ => does_pure ?_
      rw [h₃]
      exact hm₂.lands_self hnext
  | search handler =>
    refine does_bind (does_quietly fuel _ _) fun level m₁ h₁ => ?_
    have hm₁ : Upright base m₁.engine.frames := by
      rw [h₁]
      exact hcounted
    refine does_bind_of_eq_ok (pushHere_apply m₁ _) (Acts.push m₁ _ _).acted ?_
    refine does_bind (exec_spares hrun level _) fun made m₃ h₃ => ?_
    rw [pushed_frames] at h₃
    cases made with
    | none =>
      refine does_bind (does_retire m₃) fun _ m₄ h₄ => does_pure ?_
      rw [h₄]
      exact hm₁.lands h₃.tail hnext
    | some make =>
      -- The level may have put a new engine in place, and then another frame is updated.
      refine does_bind_of_reads (depth_apply m₃) ?_
      refine does_bind (does_updateAt (fun a => ?_) h₃ fun h => ?_) fun _ m₄ h₄ => does_pure ?_
      · cases a <;> rfl
      · rw [Engine.depth, h]
        rfl
      · have hagain : Upright base
            (⟨.search handler (some (make, 0)) next, m₁.engine.trail.length⟩ :: m₁.engine.frames) :=
          hm₁.cons hnext
        exact hagain.lands h₄ trivial

theorem retryActivation_does {a : Activation S} {mark : Nat} {fs : List (Frame S)}
    (hframes : m.engine.frames = ⟨a, mark⟩ :: fs) (hfs : Upright base fs)
    (ha : a.Over base.length) :
    Does T m (retryActivation T fuel run (fs.length + 1) a) fun p m' =>
      Lands base p m'.engine.frames := by
  cases a with
  | sentinel =>
    refine does_pure (Upright.lands_self ?_ trivial)
    rw [hframes]
    exact hfs.cons ha
  | step => exact ha.elim
  | candidates draw drawn validate next =>
    refine does_bind (does_quietly fuel _ m) fun candidate m₁ h₁ => ?_
    have hframes₁ : m₁.engine.frames = ⟨.candidates draw drawn validate next, mark⟩ :: fs := by
      rw [h₁, hframes]
    cases candidate with
    | none => exact does_giveUp hfs ha (.inl hframes₁)
    | some candidate =>
      refine does_bind_updated hframes₁ rfl ?_
      have hagain : Upright base
          (⟨.candidates draw (drawn + 1) validate next, mark⟩ :: fs) := hfs.cons ha
      refine does_bind (exec_spares hrun candidate _) fun applies m₃ h₃ => ?_
      cases applies with
      | false => exact does_pure (hagain.lands h₃ trivial)
      | true =>
        refine does_bind (exec_spares hrun validate m₃) fun valid m₄ h₄ => does_pure ?_
        exact hagain.lands (h₃.trans h₄) (Task.over_ofVerdict valid ha)
  | branches rest next =>
    cases rest with
    | nil => exact does_giveUp hfs ha (.inl hframes)
    | cons branch rest =>
      refine does_bind_updated hframes rfl (does_pure ?_)
      exact Upright.lands_self (hfs.cons ha) ha
  | search handler choices next =>
    rcases choices with _ | ⟨make, made⟩
    · exact does_giveUp hfs ha (.inl hframes)
    · refine does_bind_updated hframes rfl ?_
      refine does_bind (exec_spares hrun (make made) _) fun outcome m₂ h₂ => ?_
      -- Choosing may have put a new engine in place, and then another frame is updated.
      refine does_bind (does_updateAt (fun a => ?_) h₂ fun _ => rfl) fun _ m₃ h₃ => ?_
      · cases a <;> rfl
      · have hagain : Upright base (⟨.search handler (some (make, made + 1)) next, mark⟩ :: fs) :=
          hfs.cons ha
        rcases outcome with _ | b
        · exact does_giveUp (f := ⟨.search handler (some (make, made + 1)) next, mark⟩) hfs ha h₃
        · cases b with
          | false => exact does_pure (hagain.lands h₃ trivial)
          | true => exact does_pure (hagain.lands h₃ ha)

theorem retry_does (hbase : Floor base) (hm : Upright base m.engine.frames) :
    Does T m (retry T fuel run) fun p m' => Lands base p m'.engine.frames := by
  refine does_bind_of_eq_ok (count_apply m .retries) (apart_counted m .retries 1).acted ?_
  have hcounted : Upright base (m.counted .retries 1).engine.frames := hm
  generalize m.counted .retries 1 = m at hcounted
  refine does_bind_of_reads (get_apply m) ?_
  dsimp only
  cases hframes : m.engine.frames with
  | nil => exact does_pure (hcounted.lands_self trivial)
  | cons f fs =>
    have hdepth : m.engine.depth = fs.length + 1 := by
      rw [Engine.depth, hframes]
      rfl
    rw [hframes] at hcounted
    -- A step frame is retired by the call that has pushed it, and never retried.
    have hkind : f.activation.kind ≠ .step := by
      rcases hcounted.top hbase with ⟨hover, -⟩ | hsentinel
      · exact hover.kind_ne
      · simp [hsentinel, Activation.kind]
    refine does_bind_of_eq_ok (trace_apply m _) (Acts.retry hframes hkind).acted ?_
    rw [hdepth]
    rcases hcounted.top hbase with ⟨hover, hfs⟩ | hsentinel
    · exact retryActivation_does hrun hframes hfs hover
    · rw [hsentinel]
      refine does_pure (Upright.lands_self ?_ trivial)
      show Upright base m.engine.frames
      rwa [hframes]

omit hrun in
theorem proceed_does (hm : Upright base m.engine.frames) (hnext : next.Over base.length) :
    Does T m (proceed T fuel next) fun p m' => Lands base p m'.engine.frames := by
  cases next with
  | finish => exact does_pure (hm.lands_self trivial)
  | sequence rest next => exact does_pure (hm.lands_self (Task.over_sequence rest hnext))
  | call goal next => exact does_pure (hm.lands_self hnext)
  | commit height next =>
    refine does_bind_of_eq_ok (commit_apply m height) (Acts.commit m height).acted (does_pure ?_)
    exact Upright.lands_self (hm.drop hnext.1) hnext.2
  | collect template next =>
    refine does_bind_of_eq_ok (count_apply m .calls) (apart_counted m .calls 1).acted ?_
    refine does_bind_of_eq_ok (pushHere_apply _ _) (Acts.push _ _ _).acted ?_
    refine does_bind (does_onWorld (World.resolve_apart fuel template) _) fun answer m₃ h₃ => ?_
    refine does_bind_of_eq_ok (modify_apply _ m₃) (Apart.acted ?_) ?_
    · exact apart_of_world (.refl _) rfl
    · refine does_bind (does_retire _) fun _ m₅ h₅ => does_pure ?_
      rw [h₅]
      show Lands base _ m₃.engine.frames.tail
      rw [h₃]
      exact hm.lands_self hnext
  | refuse =>
    refine does_bind_of_eq_ok (count_apply m .calls) (apart_counted m .calls 1).acted ?_
    exact does_pure (hm.lands_self trivial)

omit hrun in
theorem backtrack_does (hm : Upright base m.engine.frames) :
    Does T m (backtrack (S := S)) fun p m' => Lands base p m'.engine.frames := by
  refine does_bind_of_reads (get_apply m) ?_
  split
  · exact does_bind_of_reads (pure_apply _ m) (does_pure (hm.lands_self trivial))
  · next frame _ _ =>
    refine does_bind_of_eq_ok (undoTo_apply m frame.mark) (Acts.undo m frame.mark).acted ?_
    exact does_pure (hm.lands_self trivial)

theorem step_does (hbase : Floor base) (hm : Upright base m.engine.frames) {t : Task S}
    (ht : t.Over base.length) :
    Does T m (step T fuel run t) fun p m' => Lands base p m'.engine.frames := by
  cases t with
  | call goal next => exact does_bind (call_does hrun hm ht goal) fun _ _ h => does_pure h
  | proceed next => exact proceed_does hm ht
  | retry => exact retry_does hrun hbase hm
  | backtrack => exact backtrack_does hm

/-- The steps of a run keep its stack upright, or leave one without steps. -/
theorem drive_does (hbase : Floor base) (hm : Upright base m.engine.frames) {t : Task S}
    (ht : t.Over base.length) (n : Nat) :
    Does T m (drive T fuel run t n) fun status m' =>
      Lands base (.ended status) m'.engine.frames := by
  induction n generalizing base m t with
  | zero => exact does_throw _
  | succ n ih =>
    have hstep : Does T m (step T fuel run t) _ := step_does hrun hbase hm ht
    unfold Does Leaves at hstep ⊢
    rw [drive_succ]
    cases hs : step T fuel run t m with
    | error e m' =>
      rw [hs] at hstep
      exact hstep
    | ok p m' =>
      rw [hs] at hstep
      obtain ⟨hacted, hlands⟩ := hstep
      cases p with
      | ended status => exact ⟨hacted, hlands⟩
      | task t' =>
        have hrest : Does T m' (drive T fuel run t' n) fun status m'' =>
            Lands base (.ended status) m''.engine.frames := by
          rcases hlands with ⟨hm', ht'⟩ | hstepless
          · exact ih hbase hm' ht'
          -- no step is on the stack any more, so the rest of the run may stand on nothing
          · have hnothing := ih .nothing (upright_nil hstepless) t'.over_zero
            exact hnothing.mono fun _ _ h => .inr h.stepless
        exact Leaves.mono hrest (fun _ _ h => ⟨hacted.trans h.1, h.2⟩) fun _ h => hacted.trans h

theorem runWith_spares (g : Goal S) {k : Continuation S} (hk : k.Entry) :
    SparesStack T (runWith T fuel run g k) := by
  intro m
  refine does_bind_of_reads (depth_apply m) ?_
  refine does_bind_of_reads (trailLength_apply m) ?_
  refine does_bind_of_eq_ok (push_apply m _ _) (Acts.push m _ _).acted ?_
  have hbase : Floor (m.pushed m.engine.trail.length .sentinel).engine.frames :=
    .sentinel _ m.engine.frames
  refine does_bind (drive_does hrun hbase ⟨[], rfl, by simp⟩ (t := .call g k) (hk.over _) fuel)
    fun status m₂ h₂ => ?_
  have hunwind : Does T m₂ (unwind m.engine.depth) fun _ m' =>
      Spares m.engine.frames m'.engine.frames := by
    rcases h₂ with ⟨⟨upper, hframes, hupper⟩, -⟩ | hstepless
    · obtain ⟨htake, hdrop⟩ := unwound hframes fun f hf => (hupper f hf).kind_ne
      refine (does_unwind _ htake).mono fun _ m₃ h₃ => .inl ?_
      rw [h₃]
      exact hdrop
    · refine (does_unwind _ fun f hf => hstepless f (List.mem_of_mem_take hf)).mono
        fun _ m₃ h₃ => .inr ?_
      rw [h₃]
      exact hstepless.sublist (List.drop_suffix _ _)
  refine does_bind hunwind fun _ m₃ h₃ => ?_
  refine does_bind_of_reads (trailLength_apply m₃) ?_
  split
  · exact does_pure h₃
  · exact does_throw _

end Runs

theorem run_spares (T : Theory S) (n : Nat) : RunsSpare T (run T n) := by
  induction n with
  | zero => exact fun _ _ _ _ => does_throw _
  | succ n ih => exact fun g _ hk => runWith_spares ih g hk

/-- Whatever a program makes an engine do, and wherever it ends or stops, that is a sequence
of acts. -/
theorem exec_acted (T : Theory S) (n : Nat) {κ : Kind} (p : Program S (Goal S) κ) (m : Machine S) :
    m.Acted T ((p.exec T n (run T n)).last m) := by
  have hdoes : Does T m (p.exec T n (run T n)) _ := exec_spares (run_spares T n) p m
  unfold Does Leaves at hdoes
  rw [last]
  cases h : p.exec T n (run T n) m with
  | ok a m' =>
    rw [h] at hdoes
    exact hdoes.1
  | error e m' =>
    rw [h] at hdoes
    exact hdoes

end Machine

end GoalSearch
