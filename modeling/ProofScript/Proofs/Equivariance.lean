import ProofScript.Proofs.Relabelling
import ProofScript.Proofs.Simulation

/-!
# Judging statements in other names

Names are compared for equality, and otherwise made up from other names. So statements are compared and
judged in other names as they are in the old ones. Main statement: what an analysis answers, and where
it fails, is the same once all names are exchanged, in the statement and in what is known.
-/

namespace ProofScript

/-- Pairs that are accepted at once agree, so that only the others have to be looked into. -/
theorem Expr.agree_map {accept : Expr → Expr → σ → Option σ} {accept' : Expr → Expr → τ → Option τ}
    {θ : σ → τ} (haccept : accept' a' b' (θ s) = (accept a b s).map θ)
    (h : accept a b s = none → accept' a' b' (θ s) = none →
      agree accept' a' b' (θ s) = (agree accept a b s).map θ) :
    agree accept' a' b' (θ s) = (agree accept a b s).map θ := by
  cases hr : accept a b s with
  | none => exact h hr (by rw [haccept, hr]; rfl)
  | some t =>
    rw [hr] at haccept
    rw [agree_accepted hr, agree_accepted haccept]
    rfl

theorem Expr.equations_relabel (f : String → String) (facts : List Expr) : equations (facts.map (relabel f)) =
    (equations facts).map fun (l, r) => (l.relabel f, r.relabel f) := by
  unfold equations
  rw [List.filterMap_map, List.map_filterMap]
  congr 1
  funext fact
  cases fact with
  | binary op l r => cases op <;> rfl
  | _ => rfl

/-- Which of the names that occur pass a test, each tried once. -/
theorem any_eraseDups_map {p q : String → Bool} (h : ∀ y, p (f y) = q y) (xs : List String) :
    (xs.map f).eraseDups.any p = xs.eraseDups.any q := by
  rw [Bool.eq_iff_iff]
  simp [List.any_eq_true, List.mem_eraseDups, h]

namespace Name.Equivariant

open ProofScript.Expr

variable {f : String → String} (hf : Equivariant f)
include hf

-- ---------------------------------------------------------------- comparison

theorem agree {accept : Expr → Expr → σ → Option σ} {accept' : Expr → Expr → τ → Option τ} {θ : σ → τ}
    (h : ∀ a b s, accept' (a.relabel f) (b.relabel f) (θ s) = (accept a b s).map θ) (a b : Expr) (s : σ) :
    Expr.agree accept' (a.relabel f) (b.relabel f) (θ s) = (Expr.agree accept a b s).map θ := by
  have hall {as : List Expr} (ih : ∀ a ∈ as, ∀ b s,
      Expr.agree accept' (a.relabel f) (b.relabel f) (θ s) = (Expr.agree accept a b s).map θ)
      (bs : List Expr) (s : σ) :
      agreeAll accept' (relabelAll f as) (relabelAll f bs) (θ s) = (agreeAll accept as bs s).map θ := by
    induction as generalizing bs s with
    | nil => cases bs <;> rfl
    | cons a as ihs =>
      obtain ⟨ha, has⟩ := List.forall_mem_cons.mp ih
      cases bs with
      | nil => rfl
      | cons b bs =>
        simp only [relabelAll, agreeAll, ha]
        cases Expr.agree accept a b s with
        | none => rfl
        | some s => exact ihs has bs s
  induction a using Expr.induction generalizing b s with
    -- What is accepted at once is accepted on both sides, so the rest is compared part by part.
    (refine agree_map (h _ b s) fun hr hr' => ?_
     rw [agree_refused hr, agree_refused hr'])
  | var x =>
    cases b with
    | var y =>
      simp only [relabel, hf.eq_iff]
      split <;> rfl
    | _ => rfl
  | call g as ih =>
    cases b with
    | call g' bs =>
      simp only [relabel, hf.eq_iff]
      split
      · exact hall ih bs s
      · rfl
    | _ => rfl
  | binary op l r ihl ihr =>
    cases b with
    | binary op' m n =>
      simp only [relabel, hf.operator]
      split
      · rw [ihl]
        cases Expr.agree accept l m s with
        | none => rfl
        | some t => exact ihr n t
      · rfl
    | _ => rfl
  | not e ih =>
    cases b with
    | not d => exact ih d s
    | _ => rfl
  | bind q x e ih =>
    cases b with
    | bind q' y d =>
      -- Under binders of different names the second body is renamed first, on both sides alike.
      simp only [relabel, hf.eq_iff, hf.occursFree, hf.rename]
      split
      · rfl
      split
      · exact ih d s
      split
      · rfl
      · exact ih _ s
    | _ => rfl
  | group g as ih =>
    cases b with
    | group g' bs =>
      simp only [relabel]
      split
      · exact hall ih bs s
      · rfl
    | _ => rfl

theorem agrees {accept : Expr → Expr → Unit → Option Unit} {accept' : Expr → Expr → Unit → Option Unit}
    (h : ∀ a b s, accept' (a.relabel f) (b.relabel f) s = accept a b s) (a b : Expr) :
    (Expr.agree accept' (a.relabel f) (b.relabel f) ()).isSome = (Expr.agree accept a b ()).isSome := by
  have hagree := hf.agree (θ := id) (fun a b s => by simpa using h a b s) a b ()
  simpa using congrArg Option.isSome hagree

theorem alphaEq (a b : Expr) : (a.relabel f).alphaEq (b.relabel f) = a.alphaEq b :=
  hf.agrees (fun _ _ _ => rfl) a b

theorem interchangeable (facts : List Expr) (a b : Expr) :
    Expr.interchangeable (facts.map (relabel f)) (a.relabel f) (b.relabel f) =
      Expr.interchangeable facts a b := by
  unfold Expr.interchangeable
  rw [List.any_map]
  congr 1
  funext fact
  cases fact with
  | binary op l r => cases op <;> simp [relabel, Operator.relabel, hf.alphaEq]
  | _ => rfl

theorem equalGiven (facts : List Expr) (a b : Expr) :
    Expr.equalGiven (facts.map (relabel f)) (a.relabel f) (b.relabel f) = Expr.equalGiven facts a b := by
  refine hf.agrees (fun a b _ => ?_) a b
  rw [hf.interchangeable]

-- ---------------------------------------------------------------- witnesses

theorem acceptWitness (slot : String) {bound bound' : List String}
    (hbound : ∀ t : Expr, bound'.any (t.relabel f).occursFree = bound.any t.occursFree) (p t : Expr)
    (witness : Option Expr) :
    Expr.acceptWitness (f slot) bound' (p.relabel f) (t.relabel f) (witness.map (relabel f)) =
      (Expr.acceptWitness slot bound p t witness).map (Option.map (relabel f)) := by
  unfold Expr.acceptWitness
  cases p with
  | var x =>
    simp only [relabel, ne_eq, hf.eq_iff, hbound]
    split
    · rfl
    split
    · rfl
    cases witness with
    | none => rfl
    | some w =>
      simp only [Option.map_some, hf.alphaEq]
      split <;> rfl
  | _ => rfl

theorem matchesWitness (pattern target : Expr) (x : String) :
    Expr.matchesWitness (pattern.relabel f) (target.relabel f) (f x) =
      Expr.matchesWitness pattern target x := by
  have hbound (p t : Expr) : (p.relabel f).boundNames.any (t.relabel f).occursFree =
      p.boundNames.any t.occursFree := by
    unfold boundNames
    rw [binders_relabel]
    exact any_eraseDups_map (hf.occursFree t) p.binders
  -- The slot is made up from names that are exchanged, so it is exchanged with them.
  unfold Expr.matchesWitness
  simp only [hf.free, ← List.map_append, hf.fresh, hf.rename]
  generalize Name.fresh (target.free ++ pattern.free) x = slot
  generalize pattern.rename x slot = opened
  have hagree := hf.agree (hf.acceptWitness slot (hbound opened)) opened target none
  exact (congrArg Option.isSome hagree).trans Option.isSome_map

-- ---------------------------------------------------------------- chains of equalities

theorem congruent {link link' : Expr → Expr → Bool}
    (h : ∀ a b, link' (a.relabel f) (b.relabel f) = link a b) (a b : Expr) :
    Expr.congruent link' (a.relabel f) (b.relabel f) = Expr.congruent link a b := by
  have hall {as : List Expr} (ih : ∀ a ∈ as, ∀ b,
      Expr.congruent link' (a.relabel f) (b.relabel f) = Expr.congruent link a b) (bs : List Expr) :
      congruentAll link' (relabelAll f as) (relabelAll f bs) = congruentAll link as bs := by
    induction as generalizing bs with
    | nil => cases bs <;> rfl
    | cons a as ihs =>
      obtain ⟨ha, has⟩ := List.forall_mem_cons.mp ih
      cases bs with
      | nil => rfl
      | cons b bs => simp only [relabelAll, congruentAll, ha, ihs has]
  induction a using Expr.induction generalizing b with
    (rw [Expr.congruent.eq_def link', Expr.congruent.eq_def link]
     refine congrArg₂ or ?_ (h _ _))
  | var x =>
    cases b with
    | var y => exact decide_eq_decide.mpr hf.eq_iff
    | _ => exact hf.alphaEq (.var x) _
  | call g as ih =>
    cases b with
    | call g' bs => exact congrArg₂ and (decide_eq_decide.mpr hf.eq_iff) (hall ih bs)
    | _ => exact hf.alphaEq (.call g as) _
  | binary op l r ihl ihr =>
    cases b with
    | binary op' m n =>
      exact congrArg₂ and (congrArg₂ and (decide_eq_decide.mpr hf.operator) (ihl m)) (ihr n)
    | _ => exact hf.alphaEq (.binary op l r) _
  | not e ih =>
    cases b with
    | not d => exact ih d
    | _ => exact hf.alphaEq (.not e) _
  | bind q x e ih =>
    exact hf.alphaEq (.bind q x e) b
  | group g as ih =>
    cases b with
    | group g' bs => exact congrArg₂ and rfl (hall ih bs)
    | _ => exact hf.alphaEq (.group g as) _

theorem chained (links : List (Expr × Expr)) (n : Nat) (a b : Expr) :
    Expr.chained (links.map fun (l, r) => (l.relabel f, r.relabel f)) n (a.relabel f) (b.relabel f) =
      Expr.chained links n a b := by
  induction n generalizing a b with
  | zero => exact hf.congruent (fun _ _ => rfl) a b
  | succ n ih =>
    refine hf.congruent (fun a b => ?_) a b
    rw [List.any_map]
    congr 1
    funext link
    simp only [Function.comp_apply, ih]

theorem equalByFacts (facts : List Expr) (depth : Nat) (a b : Expr) :
    Expr.equalByFacts (facts.map (relabel f)) depth (a.relabel f) (b.relabel f) =
      Expr.equalByFacts facts depth a b := by
  unfold Expr.equalByFacts
  rw [hf.equalGiven, equations_relabel, hf.chained]

-- ---------------------------------------------------------------- one fact, one goal

theorem matchesQuantified (facts : List Expr) (fact goal : Expr) :
    ProofScript.matchesQuantified (facts.map (relabel f)) (fact.relabel f) (goal.relabel f) =
      ProofScript.matchesQuantified facts fact goal := by
  have hinstances (x : String) (body : Expr) :
      (goal.relabel f).names.any (fun y =>
        Expr.equalGiven (facts.map (relabel f)) ((body.relabel f).rename (f x) y) (goal.relabel f)) =
      goal.names.any (fun y => Expr.equalGiven facts (body.rename x y) goal) := by
    unfold names
    rw [occurrences_relabel]
    refine any_eraseDups_map (fun y => ?_) goal.occurrences
    rw [hf.rename, hf.equalGiven]
  unfold ProofScript.matchesQuantified
  refine congrArg₂ or ?_ ?_
  · cases fact with
    | bind q x body =>
      cases q with
      | all =>
        refine congrArg₂ or (congrArg₂ or (hinstances x body) (hf.matchesWitness body goal x)) ?_
        have hgiven := hf.equalGiven facts (.bind .some x body) goal
        cases goal with
        | bind q y d =>
          cases q with
          | some => exact hgiven
          | _ => rfl
        | _ => rfl
      | _ => rfl
    | _ => rfl
  · cases goal with
    | bind q x body =>
      cases q with
      | some => exact hf.matchesWitness body fact x
      | _ => rfl
    | _ => rfl

theorem directly (facts : List Expr) (goal fact : Expr) :
    ProofScript.directly (facts.map (relabel f)) (goal.relabel f) (fact.relabel f) =
      ProofScript.directly facts goal fact := by
  unfold ProofScript.directly
  rw [hf.equalGiven, hf.matchesQuantified]

end Name.Equivariant

-- ---------------------------------------------------------------- one statement

/-- The same question in other names. -/
def Relabelled (f : String → String) : QuestionRelation := fun v e w e' =>
  w = v.map (Expr.relabel f) ∧ e' = e.relabel f

/-- The same answer, or a failure at the same place in other names. -/
def RelabelledAnswer (f : String → String) : AnswerRelation := fun _ x y =>
  y = x.mapError (·.map (Expr.relabel f))

theorem RelabelledAnswer.lockstep (f : String → String) : Lockstep (RelabelledAnswer f) where
  ok _ := rfl
  bind := by
    intro α β x y g g' hx hg
    subst hx
    cases x with
    | error fault => rfl
    | ok a => exact hg a

theorem RelabelledAnswer.anyM {test test' : Expr → Except InternalFault Bool}
    (h : ∀ e, RelabelledAnswer f Bool (test e) (test' (e.relabel f))) (Γ : List Expr) :
    RelabelledAnswer f Bool (Γ.anyM test) ((Γ.map (Expr.relabel f)).anyM test') := by
  have hfacts : List.Forall₂ (fun e e' => e' = e.relabel f) Γ (Γ.map (Expr.relabel f)) :=
    List.forall₂_map_right_iff.mpr (List.forall₂_same.mpr fun _ _ => rfl)
  refine (lockstep f).anyM hfacts ?_
  rintro e _ _ _ rfl
  exact h e

namespace Name.Equivariant

open ProofScript.Expr

variable {f : String → String} (hf : Equivariant f)
include hf

theorem stepwise (h : Relabelled f v e w e') : Stepwise (Relabelled f) depth v w e e' := by
  obtain ⟨rfl, rfl⟩ := h
  have part (e : Expr) : Relabelled f v e (v.map (relabel f)) (e.relabel f) := ⟨rfl, rfl⟩
  have assuming (a e : Expr) :
      Relabelled f (v.assuming a) e ((v.map (relabel f)).assuming (a.relabel f)) (e.relabel f) := by
    refine ⟨?_, rfl⟩
    simp [View.assuming, View.map]
  have refuting (a e : Expr) :
      Relabelled f (v.refutingWith a) e ((v.map (relabel f)).refutingWith (a.relabel f)) (e.relabel f) := by
    refine ⟨?_, rfl⟩
    simp [View.refutingWith, View.assuming, View.map]
  cases e with
  | binary op l r =>
    cases op with
    | implies => exact .implies (part l) (assuming l r)
    | iff => exact .iff (part l) (part r)
    | or => exact .or (part l) (part r)
    | and => exact .and rfl (part l) (part r) (refuting l r) (refuting r l)
    | equals => exact .equals (hf.equalByFacts v.facts depth l r).symm
    | elementOf | subset => exact .atomic rfl rfl
    | _ => exact .object rfl rfl
  | not a => exact .not (part a)
  | bind q x a =>
    cases q with
    | all => exact .all (part a)
    | some => exact .some (part a)
    | those => exact .object rfl rfl
  | var x => exact .atomic rfl rfl
  | call g args => exact .atomic rfl rfl
  | group g items => exact .object rfl rfl

/-- Statements are judged in step in other names if they are looked up so. -/
theorem simulation {known : Expr → Reading Bool}
    (hknown : ∀ e v, RelabelledAnswer f Bool (known e v) (known (e.relabel f) (v.map (relabel f)))) :
    Simulation (RelabelledAnswer f) (Relabelled f) (Relabelled f) depth known known where
  steps h := hf.stepwise h
  objects := by
    rintro v e w _ ⟨_, rfl⟩ _
    rfl
  looks h := h
  denied := by
    rintro v e w _ ⟨hw, rfl⟩
    exact ⟨hw, rfl⟩
  never := by
    rintro v x a w _ _ ⟨hw, heq⟩
    cases heq
    exact ⟨hw, rfl⟩
  known := by
    rintro v e w _ ⟨rfl, rfl⟩
    exact hknown e v

theorem judgeDirectly (depth : Nat) (e : Expr) (v : View) :
    RelabelledAnswer f Truth (Reading.judgeDirectly depth e v)
      (Reading.judgeDirectly depth (e.relabel f) (v.map (relabel f))) := by
  refine (hf.simulation fun goal v => ?_).evaluate (RelabelledAnswer.lockstep f) ⟨rfl, rfl⟩
  refine RelabelledAnswer.anyM (fun fact => ?_) v.facts
  exact congrArg Except.ok (hf.directly v.facts goal fact)

theorem provesThrough (depth : Nat) (goal fact : Expr) (v : View) :
    RelabelledAnswer f Bool (Reading.provesThrough (Reading.judgeDirectly depth) goal fact v)
      (Reading.provesThrough (Reading.judgeDirectly depth) (goal.relabel f) (fact.relabel f)
        (v.map (relabel f))) := by
  have hleads {d d' : Expr} (h : d' = d.relabel f) :
      Leading (fun e e' => e' = e.relabel f) (fun e e' => e' = e.relabel f) d d' := by
    subst h
    cases d with
    | binary op l r =>
      cases op with
      | implies => exact .implies rfl rfl
      | and => exact .and rfl rfl
      | or => exact .or rfl rfl rfl rfl
      | iff => exact .iff rfl rfl rfl rfl
      | _ => exact .nowhere rfl rfl
    | _ => exact .nowhere rfl rfl
  refine Reading.provesThrough_simulated (RelabelledAnswer.lockstep f) hleads ?_ ?_ rfl
  · rintro d _ rfl
    exact (hf.directly v.facts goal d).symm
  · rintro d _ rfl
    exact hf.judgeDirectly depth d v

/-- What an analysis answers, and where it fails, does not depend on the names. -/
theorem judge (depth : Nat) (e : Expr) (v : View) :
    Reading.judge depth (e.relabel f) (v.map (relabel f)) =
      (Reading.judge depth e v).mapError (·.map (relabel f)) := by
  refine (hf.simulation fun goal v => ?_).evaluate (RelabelledAnswer.lockstep f) ⟨rfl, rfl⟩
  exact RelabelledAnswer.anyM (fun fact => hf.provesThrough depth goal fact v) v.facts

end Name.Equivariant

/-- All names are exchanged. -/
def Translation.relabelling {f : String → String} (hf : Name.Equivariant f) (depth : Nat) :
    Translation depth where
  name := f
  expr := Expr.relabel f
  expr_not := rfl
  expr_some := rfl
  judge := hf.judge depth _ _

end ProofScript
