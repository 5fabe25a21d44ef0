import Mathlib.Data.List.Forall2
import ProofScript.Proofs.Reading

/-!
# Two inquiries side by side

Two statements, each with what is known about it, are judged in step if they come to the same cases
and their parts are again judged in step. Then the two answers are related, by any relation that the
steps of a computation keep. What is special about an application is the relation between questions
and the two ways of looking statements up.
-/

namespace ProofScript

-- ---------------------------------------------------------------- answers

abbrev AnswerRelation := (α : Type) → Except InternalFault α → Except InternalFault α → Prop

/-- The relation is kept by the steps of a computation. -/
structure Lockstep (Q : AnswerRelation) : Prop where
  ok : ∀ {α} (a : α), Q α (.ok a) (.ok a)
  bind : ∀ {α β} {x y : Except InternalFault α} {f g : α → Except InternalFault β},
    Q α x y → (∀ a, Q β (f a) (g a)) → Q β (x >>= f) (y >>= g)

namespace Lockstep

variable {Q : AnswerRelation} (hQ : Lockstep Q)
include hQ

theorem map (f : α → β) {x y : Except InternalFault α} (h : Q α x y) : Q β (f <$> x) (f <$> y) := by
  have hbind := hQ.bind h fun a => hQ.ok (f a)
  cases x <;> cases y <;> exact hbind

/-- The second parts count only where the first parts have said `b`. -/
theorem branch {x y : Except InternalFault Bool} {f g : Bool → Except InternalFault α} (h : Q Bool x y)
    (htrue : Q α (f true) (g true)) (hfalse : Q α (f false) (g false)) : Q α (x >>= f) (y >>= g) := by
  refine hQ.bind h fun b => ?_
  cases b
  · exact hfalse
  · exact htrue

theorem and {x y x' y' : Except InternalFault Bool} (h : Q Bool x y) (h' : Q Bool x' y') :
    Q Bool (x <&&> x') (y <&&> y') :=
  hQ.branch h h' (hQ.ok false)

theorem or {x y x' y' : Except InternalFault Bool} (h : Q Bool x y) (h' : Q Bool x' y') :
    Q Bool (x <||> x') (y <||> y') :=
  hQ.branch h (hQ.ok true) h'

theorem anyM {R : Expr → Expr → Prop} {test test' : Expr → Except InternalFault Bool}
    (h : List.Forall₂ R Γ Δ) (htest : ∀ f ∈ Γ, ∀ f' ∈ Δ, R f f' → Q Bool (test f) (test' f')) :
    Q Bool (Γ.anyM test) (Δ.anyM test') := by
  induction h with
  | nil => exact hQ.ok false
  | cons hR _ ih =>
    refine hQ.branch (htest _ List.mem_cons_self _ List.mem_cons_self hR) (hQ.ok true) (ih ?_)
    exact fun f hf f' hf' => htest f (List.mem_cons_of_mem _ hf) f' (List.mem_cons_of_mem _ hf')

end Lockstep

-- ---------------------------------------------------------------- questions

/-- Relates a statement and what is known on the one side to those on the other. -/
abbrev QuestionRelation := View → Expr → View → Expr → Prop

/-- Statements that analysis neither looks into nor refuses. -/
def Expr.isAtomic : Expr → Bool
  | .var _ | .call _ _ | .binary .elementOf _ _ | .binary .subset _ _ => true
  | _ => false

/-- Expressions that are no statements. -/
def Expr.isObject : Expr → Bool
  | .binary .plus _ _ | .binary .minus _ _ | .binary .times _ _ | .binary .divide _ _
  | .binary (.named _) _ _ | .bind .those _ _ | .group _ _ => true
  | _ => false

def View.refutingWith (v : View) (fact : Expr) : View := { v.assuming fact with refuting := true }

/-- Two statements come to the same case, and what is judged in it is related again. -/
inductive Stepwise (S : QuestionRelation) (depth : Nat) (v w : View) : Expr → Expr → Prop
  | implies : S v l w l' → S (v.assuming l) r (w.assuming l') r' →
    Stepwise S depth v w (.binary .implies l r) (.binary .implies l' r')
  | iff : S v l w l' → S v r w r' → Stepwise S depth v w (.binary .iff l r) (.binary .iff l' r')
  | or : S v l w l' → S v r w r' → Stepwise S depth v w (.binary .or l r) (.binary .or l' r')
  | and : v.refuting = w.refuting → S v l w l' → S v r w r' →
    S (v.refutingWith l) r (w.refutingWith l') r' → S (v.refutingWith r) l (w.refutingWith r') l' →
    Stepwise S depth v w (.binary .and l r) (.binary .and l' r')
  | equals : Expr.equalByFacts v.facts depth l r = Expr.equalByFacts w.facts depth l' r' →
    Stepwise S depth v w (.binary .equals l r) (.binary .equals l' r')
  | not : S v a w a' → Stepwise S depth v w (.not a) (.not a')
  | all : S v a w a' → Stepwise S depth v w (.bind .all x a) (.bind .all y a')
  | some : S v a w a' → Stepwise S depth v w (.bind .some x a) (.bind .some y a')
  | atomic : e.isAtomic = true → e'.isAtomic = true → Stepwise S depth v w e e'
  | object : e.isObject = true → e'.isObject = true → Stepwise S depth v w e e'

/-- Questions related by `S` are judged in step, with `known` on the one side and `known'` on the
other. `L` relates what is looked up. -/
structure Simulation (Q : AnswerRelation) (S L : QuestionRelation) (depth : Nat)
    (known known' : Expr → Reading Bool) : Prop where
  steps : S v e w e' → Stepwise S depth v w e e'
  objects : S v e w e' → e.isObject = true →
    Q Truth (.error (.notAStatement e)) (.error (.notAStatement e'))
  looks : S v e w e' → L v e w e'
  denied : L v e w e' → L v (.not e) w (.not e')
  never : L v (.bind .some x a) w (.bind .some y a') →
    L v (.bind .all x (.not a)) w (.bind .all y (.not a'))
  known : L v e w e' → Q Bool (known e v) (known' e' w)

namespace Reading

theorem evaluate_atomic {e : Expr} (h : e.isAtomic = true) :
    evaluate depth known e = settle known e fun _ => .ok .unknown := by
  cases e with
  | binary op l r => cases op <;> first | rfl | cases h
  | var x => rfl
  | call f args => rfl
  | _ => cases h

theorem evaluate_object {e : Expr} (h : e.isObject = true) :
    evaluate depth known e = settle known e fun _ => .error (.notAStatement e) := by
  cases e with
  | binary op l r => cases op <;> first | rfl | cases h
  | bind q x a => cases q <;> first | rfl | cases h
  | group g items => rfl
  | _ => cases h

end Reading

theorem Expr.not_isNegation_of_atomic {e : Expr} (h : e.isAtomic = true) : e.isNegation = false := by
  cases e <;> first | rfl | cases h

theorem Expr.not_isNegation_of_object {e : Expr} (h : e.isObject = true) : e.isNegation = false := by
  cases e <;> first | rfl | cases h

namespace Simulation

variable {Q : AnswerRelation} {S L : QuestionRelation} {known known' : Expr → Reading Bool}
  (hQ : Lockstep Q) (sim : Simulation Q S L depth known known')
include hQ sim

theorem settle (h : L v e w e') (hn : e.isNegation = e'.isNegation) {other other' : Reading Truth}
    (ho : Q Truth (other v) (other' w)) :
    Q Truth (Reading.settle known e other v) (Reading.settle known' e' other' w) := by
  unfold Reading.settle
  refine hQ.branch (sim.known h) (hQ.ok _) ?_
  rw [← hn]
  cases e.isNegation with
  | true => exact ho
  | false => exact hQ.branch (sim.known (sim.denied h)) (hQ.ok _) ho

omit sim in
theorem conjunction (hr : v.refuting = w.refuting) {jl jl' jr jr' : Reading Truth}
    (hleft : Q Truth (jl v) (jl' w)) (hright : Q Truth (jr v) (jr' w))
    (hassuming : Q Truth (jr (v.refutingWith l)) (jr' (w.refutingWith l')))
    (hassuming' : Q Truth (jl (v.refutingWith r)) (jl' (w.refutingWith r'))) :
    Q Truth (Reading.conjunction l r jl jr v) (Reading.conjunction l' r' jl' jr' w) := by
  unfold Reading.conjunction
  refine hQ.bind hleft fun left => hQ.bind hright fun right => ?_
  cases left.and right with
  | unknown =>
    show Q Truth (if v.refuting = true then _ else _) (if w.refuting = true then _ else _)
    rw [hr]
    split
    · exact hQ.ok _
    · exact hQ.branch (hQ.or (hQ.map _ hassuming) (hQ.map _ hassuming')) (hQ.ok _) (hQ.ok _)
  | _ => exact hQ.ok _

theorem evaluate_atomic (h : S v e w e') (he : e.isAtomic = true) (he' : e'.isAtomic = true) :
    Q Truth (Reading.evaluate depth known e v) (Reading.evaluate depth known' e' w) := by
  rw [Reading.evaluate_atomic he, Reading.evaluate_atomic he']
  refine sim.settle hQ (sim.looks h) ?_ (hQ.ok _)
  rw [Expr.not_isNegation_of_atomic he, Expr.not_isNegation_of_atomic he']

theorem evaluate_object (h : S v e w e') (he : e.isObject = true) (he' : e'.isObject = true) :
    Q Truth (Reading.evaluate depth known e v) (Reading.evaluate depth known' e' w) := by
  rw [Reading.evaluate_object he, Reading.evaluate_object he']
  refine sim.settle hQ (sim.looks h) ?_ (sim.objects h he)
  rw [Expr.not_isNegation_of_object he, Expr.not_isNegation_of_object he']

/-- Statements judged in step get related answers. -/
theorem evaluate (h : S v e w e') :
    Q Truth (Reading.evaluate depth known e v) (Reading.evaluate depth known' e' w) := by
  induction e using Expr.induction generalizing v w e' with
  | var x =>
    cases sim.steps h with
    | atomic he he' => exact sim.evaluate_atomic hQ h he he'
    | object he he' => exact sim.evaluate_object hQ h he he'
  | call f args =>
    cases sim.steps h with
    | atomic he he' => exact sim.evaluate_atomic hQ h he he'
    | object he he' => exact sim.evaluate_object hQ h he he'
  | binary op l r ihl ihr =>
    cases sim.steps h with
    | implies hl hr =>
      exact sim.settle hQ (sim.looks h) rfl
        (hQ.bind (ihl hl) fun _ => hQ.bind (ihr hr) fun _ => hQ.ok _)
    | iff hl hr | or hl hr =>
      exact sim.settle hQ (sim.looks h) rfl
        (hQ.bind (ihl hl) fun _ => hQ.bind (ihr hr) fun _ => hQ.ok _)
    | and hv hl hr hlr hrl =>
      exact sim.settle hQ (sim.looks h) rfl (conjunction hQ hv (ihl hl) (ihr hr) (ihr hlr) (ihl hrl))
    | equals heq =>
      refine sim.settle hQ (sim.looks h) rfl ?_
      simp only [heq]
      split <;> exact hQ.ok _
    | atomic he he' => exact sim.evaluate_atomic hQ h he he'
    | object he he' => exact sim.evaluate_object hQ h he he'
  | not a ih =>
    cases sim.steps h with
    | not ha => exact sim.settle hQ (sim.looks h) rfl (hQ.map _ (ih ha))
    | atomic he he' => exact sim.evaluate_atomic hQ h he he'
    | object he he' => exact sim.evaluate_object hQ h he he'
  | bind q x body ih =>
    cases sim.steps h with
    | all ha => exact sim.settle hQ (sim.looks h) rfl (ih ha)
    | some ha =>
      -- an existential statement is also looked up as the negation of a universal one
      have hnever := sim.never (sim.looks h)
      exact sim.settle hQ (sim.looks h) rfl <| sim.settle hQ (sim.denied hnever) rfl <|
        hQ.map _ <| sim.settle hQ hnever rfl <| sim.settle hQ (sim.denied (sim.looks ha)) rfl <|
          hQ.map _ (ih ha)
    | atomic he he' => exact sim.evaluate_atomic hQ h he he'
    | object he he' => exact sim.evaluate_object hQ h he he'
  | group g items =>
    cases sim.steps h with
    | atomic he he' => exact sim.evaluate_atomic hQ h he he'
    | object he he' => exact sim.evaluate_object hQ h he he'

end Simulation

-- ---------------------------------------------------------------- one statement, two views

/-- What can be seen on the one side and on the other makes no difference to the course of an
analysis, now and with more assumed. -/
structure Indifferent (R : View → View → Prop) : Prop where
  refuting : R v w → v.refuting = w.refuting
  assuming : R v w → R (v.assuming fact) (w.assuming fact)
  refutingWith : R v w → R (v.refutingWith fact) (w.refutingWith fact)
  equal : R v w → Expr.equalByFacts v.facts depth l r = Expr.equalByFacts w.facts depth l r

/-- The same statement on both sides. -/
def Indifferent.Asked (R : View → View → Prop) : QuestionRelation := fun v e w e' => R v w ∧ e = e'

theorem Indifferent.stepwise {R : View → View → Prop} (hR : Indifferent R) (h : R v w) (e : Expr) :
    Stepwise (Asked R) depth v w e e := by
  have part (a : Expr) : Asked R v a w a := ⟨h, rfl⟩
  cases e with
  | binary op l r =>
    cases op with
    | implies => exact .implies (part l) ⟨hR.assuming h, rfl⟩
    | iff => exact .iff (part l) (part r)
    | or => exact .or (part l) (part r)
    | and =>
      exact .and (hR.refuting h) (part l) (part r) ⟨hR.refutingWith h, rfl⟩ ⟨hR.refutingWith h, rfl⟩
    | equals => exact .equals (hR.equal h)
    | elementOf | subset => exact .atomic rfl rfl
    | _ => exact .object rfl rfl
  | not a => exact .not (part a)
  | bind q x a =>
    cases q with
    | all => exact .all (part a)
    | some => exact .some (part a)
    | those => exact .object rfl rfl
  | var x => exact .atomic rfl rfl
  | call f args => exact .atomic rfl rfl
  | group g items => exact .object rfl rfl

/-- One statement is judged in step on both sides if every statement is looked up in step. -/
theorem Indifferent.simulation {R : View → View → Prop} (hR : Indifferent R) {Q : AnswerRelation}
    (hobject : ∀ e, Q Truth (.error (.notAStatement e)) (.error (.notAStatement e)))
    {known : Expr → Reading Bool} (hknown : ∀ {v w} e, R v w → Q Bool (known e v) (known e w)) :
    Simulation Q (Asked R) (Asked R) depth known known where
  steps := by
    rintro v e w _ ⟨h, rfl⟩
    exact hR.stepwise h e
  objects := by
    rintro v e w _ ⟨_, rfl⟩ _
    exact hobject e
  looks h := h
  denied := by
    rintro v e w _ ⟨h, rfl⟩
    exact ⟨h, rfl⟩
  never := by
    rintro v x a w _ _ ⟨h, heq⟩
    cases heq
    exact ⟨h, rfl⟩
  known := by
    rintro v e w _ ⟨h, rfl⟩
    exact hknown e h

-- ---------------------------------------------------------------- through the connectives of facts

/-- Facts whose parts may prove a goal. -/
def Expr.isConnected : Expr → Bool
  | .binary op _ _ => op.role == .connective
  | _ => false

/-- Two facts lead to their parts in the same way. `F` relates the parts that may prove a goal, `J`
those that are judged to let the others hold. -/
inductive Leading (J F : Expr → Expr → Prop) : Expr → Expr → Prop
  | implies : J l l' → F r r' → Leading J F (.binary .implies l r) (.binary .implies l' r')
  | and : F l l' → F r r' → Leading J F (.binary .and l r) (.binary .and l' r')
  | or : J l l' → J r r' → F l l' → F r r' → Leading J F (.binary .or l r) (.binary .or l' r')
  | iff : J l l' → J r r' → F l l' → F r r' → Leading J F (.binary .iff l r) (.binary .iff l' r')
  | nowhere : f.isConnected = false → f'.isConnected = false → Leading J F f f'

namespace Reading

variable {judge judge' : Expr → Reading Truth}

theorem provesThrough_nowhere {fact : Expr} (h : fact.isConnected = false) :
    provesThrough judge goal fact v = .ok (directly v.facts goal fact) := by
  have hvalue : provesThrough judge goal fact v =
      if directly v.facts goal fact then .ok true else .ok false := by
    cases fact with
    | binary op l r => cases op <;> first | rfl | cases h
    | _ => rfl
  rw [hvalue]
  cases directly v.facts goal fact <;> rfl

/-- Goals are proved in step by facts that lead to their parts in the same way. -/
theorem provesThrough_simulated {Q : AnswerRelation} (hQ : Lockstep Q) {J F : Expr → Expr → Prop}
    (hleads : ∀ {f f'}, F f f' → Leading J F f f')
    (hdirect : ∀ {f f'}, F f f' → directly v.facts goal f = directly w.facts goal' f')
    (hjudge : ∀ {e e'}, J e e' → Q Truth (judge e v) (judge' e' w)) (h : F f f') :
    Q Bool (provesThrough judge goal f v) (provesThrough judge' goal' f' w) := by
  have hjudged {e e'} (t : Truth) (he : J e e') :
      Q Bool (judgedAs judge t e v) (judgedAs judge' t e' w) := hQ.map _ (hjudge he)
  have hnowhere {f f' : Expr} (h : F f f') (hf : f.isConnected = false) (hf' : f'.isConnected = false) :
      Q Bool (provesThrough judge goal f v) (provesThrough judge' goal' f' w) := by
    rw [provesThrough_nowhere hf, provesThrough_nowhere hf', hdirect h]
    exact hQ.ok _
  induction f using Expr.induction generalizing f' with
  | binary op l r ihl ihr =>
    have hroot := hdirect h
    cases hleads h with
    | nowhere hf hf' => exact hnowhere h hf hf'
    | implies hl hr =>
      rw [provesThrough.eq_def, provesThrough.eq_def, hroot]
      split
      · exact hQ.ok _
      · exact hQ.and (ihr hr) (hjudged _ hl)
    | and hl hr =>
      rw [provesThrough.eq_def, provesThrough.eq_def, hroot]
      split
      · exact hQ.ok _
      · exact hQ.or (ihl hl) (ihr hr)
    | or hjl hjr hl hr | iff hjl hjr hl hr =>
      rw [provesThrough.eq_def, provesThrough.eq_def, hroot]
      split
      · exact hQ.ok _
      · exact hQ.or (hQ.and (ihr hr) (hjudged _ hjl)) (hQ.and (ihl hl) (hjudged _ hjr))
  | _ =>
    cases hleads h with
    | nowhere hf hf' => exact hnowhere h hf hf'

/-- One goal is proved in step by one fact if the parts of the fact are judged in step. -/
theorem provesThrough_same {Q : AnswerRelation} (hQ : Lockstep Q)
    (hdirect : ∀ f, directly v.facts goal f = directly w.facts goal f)
    (hjudge : ∀ e, Q Truth (judge e v) (judge e w)) (f : Expr) :
    Q Bool (provesThrough judge goal f v) (provesThrough judge goal f w) := by
  have hleads (f f' : Expr) (h : f = f') : Leading (· = ·) (· = ·) f f' := by
    subst h
    cases f with
    | binary op l r =>
      cases op with
      | implies => exact .implies rfl rfl
      | and => exact .and rfl rfl
      | or => exact .or rfl rfl rfl rfl
      | iff => exact .iff rfl rfl rfl rfl
      | _ => exact .nowhere rfl rfl
    | _ => exact .nowhere rfl rfl
  refine provesThrough_simulated hQ (hleads _ _) ?_ ?_ rfl
  · rintro f _ rfl
    exact hdirect f
  · rintro e _ rfl
    exact hjudge e

end Reading

end ProofScript
