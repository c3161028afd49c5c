/-
One level of unification.

Two terms are unified by what the ends of their chains are.  Identical ends
need nothing, a variable or a cell is bound to the other end, lists of one
length are unified element by element, a structure decides for itself, and
other ends clash.

* `Differing` — what the unification of two ends comes to that are not
  identical;
* `UnifyStep`, `unifyStep_spec` — what one level of unification comes to;
* `Clash` — two ends that nothing makes equal.

Design notes: this says all that one level can do, with what has decided for
it, so no proof about a single unification has to go through the cases of the
ends again.  How smaller terms are unified is left open here as well.
-/
import GoalSearch.Proofs.Plain
import GoalSearch.Proofs.Rollback

namespace GoalSearch

open GoalSearch.Action

variable {S : Vocabulary} {T : Theory S} {n : Nat} {unify : Unifier S} {c : Scope S}
  {a b : S.Term}

theorem Term.var?_eq_none {L : Type} {t : Term L} (h : ∀ v, t ≠ .var v) : t.var? = none := by
  cases t with
  | var v => exact absurd rfl (h v)
  | _ => rfl

/-- Two ends that are no variables and no structures, nor lists of one length. -/
structure Clash (a b : S.Term) : Prop where
  left : a.var? = none
  right : b.var? = none
  leftPlain : ∀ object label args, a ≠ .struct object label args
  rightPlain : ∀ object label args, b ≠ .struct object label args
  lengths : ∀ as bs, a = .list as → b = .list bs → as.length ≠ bs.length

/-- Ends of chains that clash stay apart whatever their variables stand for. -/
theorem Clash.subst_ne (h : Clash a b) {s : Store S} (ha : s.step? a = none)
    (hid : s.identical? n a b = some false) (σ : Var → S.Term) : a.subst σ ≠ b.subst σ := by
  intro heq
  have hself : (∀ items, a ≠ .list items) → a ≠ b := by
    rintro hlist rfl
    exact Store.identical?_self ha hlist n hid
  cases a with
  | var v => cases h.left
  | struct object label args => exact h.leftPlain object label args rfl
  | list as =>
    cases b with
    | list bs =>
      refine h.lengths as bs rfl rfl ?_
      rw [Term.subst_list, Term.subst_list, Term.list.injEq] at heq
      simpa using congrArg List.length heq
    | var v => cases h.right
    | struct object label args => exact h.rightPlain object label args rfl
    | _ => simp at heq
  | int i =>
    cases b with
    | int j => exact hself (by simp) heq
    | var v => cases h.right
    | struct object label args => exact h.rightPlain object label args rfl
    | _ => simp at heq
  | atom name =>
    cases b with
    | atom name' => exact hself (by simp) heq
    | var v => cases h.right
    | struct object label args => exact h.rightPlain object label args rfl
    | _ => simp at heq

/-- Of two variables the right one is bound: both are unbound, and only the left
one is restricted. -/
def Store.favours (s : Store S) (v w : Var) : Bool :=
  s.isUnbound v && s.isUnbound w && s.isRestricted v && !s.isRestricted w

variable (T n unify c) in
/-- What the unification of two ends comes to that are not identical. -/
inductive Differing (a b : S.Term) : EStateM.Result Stop (Scope S) Bool → Prop
  | left (v : Var) : a = .var v → (∀ w, b = .var w → c.world.store.favours v w = false) →
      Differing a b (Scope.bind T n unify v b c)
  | right (w : Var) : b = .var w → (∀ v, a = .var v → c.world.store.favours v w = true) →
      Differing a b (Scope.bind T n unify w a c)
  | lists (as bs : List S.Term) : a = .list as → b = .list bs → as.length = bs.length →
      Differing a b (allPairs unify as bs c)
  | structLeft (object : Nat) (label : S.Label) (args : List S.Term) :
      a = .struct object label args → Differing a b ((T.unifyWith label args b).exec T n unify c)
  | structRight (object : Nat) (label : S.Label) (args : List S.Term) :
      b = .struct object label args → Differing a b ((T.unifyWith label args a).exec T n unify c)
  | clash : Clash a b → Differing a b (.ok false c)

variable (T n unify c) in
/-- What one level of unification comes to, given the ends of the two chains. -/
inductive UnifyStep (a b : S.Term) : EStateM.Result Stop (Scope S) Bool → Prop
  | outOfFuel : c.world.store.identical? n a b = none → UnifyStep a b (.error .outOfFuel c)
  | same : c.world.store.identical? n a b = some true → UnifyStep a b (.ok true c)
  | differ {result : EStateM.Result Stop (Scope S) Bool} :
      c.world.store.identical? n a b = some false → Differing T n unify c a b result →
      UnifyStep a b result

variable (T n unify c) in
/-- One level of unification goes by the ends of the two chains. -/
theorem unifyStep_spec (t u : S.Term) :
    UnifyStep T n unify c (c.world.store.deref t) (c.world.store.deref u)
      (unifyStep T n unify t u c) := by
  rw [unifyStep, bind_ok (Scope.store_apply c)]
  generalize c.world.store.deref t = a
  generalize c.world.store.deref u = b
  cases hid : c.world.store.identical? n a b with
  | none => exact .outOfFuel hid
  | some r =>
    rw [ofOption, bind_ok (pure_apply r c)]
    cases r with
    | true => exact .same hid
    | false =>
      refine .differ hid ?_
      rw [if_neg (by simp)]
      split
      · next v w =>
        split
        · next hfavours => exact .right w rfl fun v' hv => by cases hv; exact hfavours
        · next hfavours =>
          rw [Bool.not_eq_true] at hfavours
          exact .left v rfl fun w' hw => by cases hw; exact hfavours
      · next v hb => exact .left v rfl fun w hw => (hb w hw).elim
      · next w ha => exact .right w rfl fun v hv => (ha v hv).elim
      · next as bs =>
        split
        · next hlength => exact .lists as bs rfl rfl hlength
        · next hlength =>
          refine .clash ⟨rfl, rfl, by simp, by simp, ?_⟩
          rintro as' bs' ⟨⟩ ⟨⟩
          exact hlength
      · exact .structLeft _ _ _ rfl
      · exact .structRight _ _ _ rfl
      · next hvar hstruct hvar' hstruct' _ hlists =>
        exact .clash ⟨Term.var?_eq_none hvar, Term.var?_eq_none hvar', hstruct, hstruct',
          fun as bs has hbs => (hlists as bs has hbs).elim⟩

end GoalSearch
