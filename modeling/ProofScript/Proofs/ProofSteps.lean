import ProofScript.Proofs.Instances

/-!
# Proofs whose questions are answered

Checking a proof comes down to questions: does this statement follow from these facts? Which
questions are asked, and among which facts, can be read off the proof and what it may cite. If each
answer is right, what the proof concludes is true of its objects and of those it has chosen on the
way.
-/

namespace ProofScript

/-- What a proof may cite. -/
structure Library where
  theorems : NameMap Theorem := {}
  definitions : NameMap Definition := {}

-- ---------------------------------------------------------------- steps

namespace Step

/-- The steps of a block are met as members of their list. -/
@[elab_as_elim] theorem induction {motive : Step → Prop}
    (claim : ∀ line e reason, motive (.claim line e reason))
    (choose : ∀ line x e reason, motive (.choose line x e reason))
    (cases : ∀ line condition yes no both, (∀ s ∈ yes, motive s) → (∀ s ∈ no, motive s) →
      (∀ s ∈ both, motive s) → motive (.cases line condition yes no both))
    (check : ∀ line, motive (.check line)) (admitted : ∀ line, motive (.admitted line)) (s : Step) :
    motive s :=
  @Step.rec motive (fun steps => ∀ s ∈ steps, motive s) claim choose cases check admitted
    (List.forall_mem_nil _) (fun _ _ hs hrest => List.forall_mem_cons.mpr ⟨hs, hrest⟩) s

mutual
/-- What a step adds to the facts. -/
def conclusions : Step → List Expr
  | claim _ e _ | choose _ _ e _ => [e]
  | cases _ _ _ _ both => conclusionsAll both
  | check _ | admitted _ => []
def conclusionsAll : List Step → List Expr
  | [] => []
  | s :: rest => s.conclusions ++ conclusionsAll rest
end

mutual
/-- The names of the objects that a step chooses. -/
def chosen : Step → List String
  | choose _ x _ _ => [x]
  | cases _ _ yes no both => chosenAll yes ++ chosenAll no ++ chosenAll both
  | claim _ _ _ | check _ | admitted _ => []
def chosenAll : List Step → List String
  | [] => []
  | s :: rest => s.chosen ++ chosenAll rest
end

end Step

/-- The arguments of a reference. -/
def Justification.args : Justification → List Expr
  | instantiation _ args => args
  | admitted | definition _ => []

namespace Step

mutual
/-- Every justification of a step and of the steps inside it. -/
def reasons : Step → List Justification
  | claim _ _ reason | choose _ _ _ reason => reason.toList
  | cases _ _ yes no both => reasonsAll yes ++ reasonsAll no ++ reasonsAll both
  | check _ | admitted _ => []
def reasonsAll : List Step → List Justification
  | [] => []
  | s :: rest => s.reasons ++ reasonsAll rest
end

mutual
/-- Every statement of a step and of the steps inside it. The choice of an object states that there
is one. -/
def statements : Step → List Expr
  | claim _ e _ => [e]
  | choose _ x e _ => [.bind .some x e]
  | cases _ condition yes no both =>
    condition :: (statementsAll yes ++ statementsAll no ++ statementsAll both)
  | check _ | admitted _ => []
def statementsAll : List Step → List Expr
  | [] => []
  | s :: rest => s.statements ++ statementsAll rest
end

theorem mem_chosenAll : x ∈ chosenAll steps ↔ ∃ s ∈ steps, x ∈ s.chosen := by
  induction steps with
  | nil => simp [chosenAll]
  | cons s rest ih => simp [chosenAll, ih]

theorem mem_reasonsAll : j ∈ reasonsAll steps ↔ ∃ s ∈ steps, j ∈ s.reasons := by
  induction steps with
  | nil => simp [reasonsAll]
  | cons s rest ih => simp [reasonsAll, ih]

theorem mem_statementsAll : e ∈ statementsAll steps ↔ ∃ s ∈ steps, e ∈ s.statements := by
  induction steps with
  | nil => simp [statementsAll]
  | cons s rest ih => simp [statementsAll, ih]

theorem mem_conclusionsAll : e ∈ conclusionsAll steps ↔ ∃ s ∈ steps, e ∈ s.conclusions := by
  induction steps with
  | nil => simp [conclusionsAll]
  | cons s rest ih => simp [conclusionsAll, ih]

/-- What a step adds stands in its statements. -/
theorem inside_of_conclusions {s : Step} (h : e ∈ s.conclusions) : e ∈ Expr.insideAll s.statements := by
  induction s using Step.induction with
  | claim line d reason | choose line x d reason =>
    obtain rfl := List.mem_singleton.mp h
    simp [statements, Expr.insideAll, Expr.inside, Expr.self_mem_inside]
  | cases line c yes no both _ _ ih =>
    obtain ⟨s, hs, he⟩ := mem_conclusionsAll.mp h
    obtain ⟨d, hd, he⟩ := Expr.mem_insideAll.mp (ih s hs he)
    refine Expr.mem_insideAll.mpr ⟨d, List.mem_cons_of_mem _ (List.mem_append_right _ ?_), he⟩
    exact mem_statementsAll.mpr ⟨s, hs, hd⟩
  | check line => cases h
  | admitted line => cases h

end Step

-- ---------------------------------------------------------------- questions

/-- `P` holds of the questions that a claim leads to: whether the requirements of a theorem hold
where it is cited, and whether the claim follows from the facts and what is cited. -/
def Library.Asks (P : List Expr → Expr → Prop) (lib : Library) (Γ : List Expr) (e : Expr) :
    Option Justification → Prop
  | none | some .admitted => P Γ e
  | some (.definition x) =>
    ∃ d, lib.definitions.find? x = some d ∧ P (Γ ++ d.rules.map Sentence.expr) e
  | some (.instantiation x args) => ∃ t, lib.theorems.find? x = some t ∧
    (∀ s ∈ t.requirements, ∃ r, (t.instantiation args).apply s.expr = .ok r ∧ P Γ r) ∧
    ∃ h, (t.instantiation args).apply t.hypothesis.expr = .ok h ∧ P (Γ ++ [h]) e

namespace Step

mutual
/-- `P` holds of all questions that a step leads to. The common block of a case distinction is asked
about twice. -/
def Asks (P : List Expr → Expr → Prop) (lib : Library) : Step → List Expr → Prop
  | claim _ e reason, Γ => lib.Asks P Γ e reason
  | choose _ x e reason, Γ => lib.Asks P Γ (.bind .some x e) reason
  | cases _ c yes no both, Γ =>
    (AsksAll P lib yes (Γ ++ [c]) ∧ AsksAll P lib both (Γ ++ [c] ++ conclusionsAll yes)) ∧
      AsksAll P lib no (Γ ++ [.not c]) ∧ AsksAll P lib both (Γ ++ [.not c] ++ conclusionsAll no)
  | check _, _ | admitted _, _ => True
def AsksAll (P : List Expr → Expr → Prop) (lib : Library) : List Step → List Expr → Prop
  | [], _ => True
  | s :: rest, Γ => s.Asks P lib Γ ∧ AsksAll P lib rest (Γ ++ s.conclusions)
end

end Step

/-- `P` holds of all questions that a theorem leads to. -/
def Theorem.Asks (P : List Expr → Expr → Prop) (lib : Library) (t : Theorem) : Prop :=
  Step.AsksAll P lib t.proof (t.requirements.map Sentence.expr) ∧
    P (t.requirements.map Sentence.expr ++ Step.conclusionsAll t.proof) t.hypothesis.expr

def Library.declare (lib : Library) : Declaration → Library
  | .ofTheorem t => { lib with theorems := lib.theorems.insert t.name t }
  | .ofDefinition d => { lib with definitions := lib.definitions.insert d.name d }

/-- `P` holds of all questions that the theorems of a script lead to, each among what was declared
before it. -/
def Script.Asks (P : List Expr → Expr → Prop) : Library → Script → Prop
  | _, [] => True
  | lib, .ofTheorem t :: rest => t.Asks P lib ∧ Script.Asks P (lib.declare (.ofTheorem t)) rest
  | lib, .ofDefinition d :: rest => Script.Asks P (lib.declare (.ofDefinition d)) rest

/-- What holds of the questions one by one holds of them together: what is cited is determined. -/
theorem Library.Asks.and {lib : Library} (hP : lib.Asks P Γ e reason) (hQ : lib.Asks Q Γ e reason) :
    lib.Asks (fun Γ e => P Γ e ∧ Q Γ e) Γ e reason := by
  cases reason with
  | none => exact ⟨hP, hQ⟩
  | some j =>
    cases j with
    | admitted => exact ⟨hP, hQ⟩
    | definition x =>
      obtain ⟨d, hd, hP⟩ := hP
      obtain ⟨d', hd', hQ⟩ := hQ
      cases hd.symm.trans hd'
      exact ⟨d, hd, hP, hQ⟩
    | instantiation x args =>
      obtain ⟨t, ht, hreqP, h, hh, hP⟩ := hP
      obtain ⟨t', ht', hreqQ, h', hh', hQ⟩ := hQ
      cases ht.symm.trans ht'
      cases hh.symm.trans hh'
      refine ⟨t, ht, fun s hs => ?_, h, hh, hP, hQ⟩
      obtain ⟨r, hr, hP⟩ := hreqP s hs
      obtain ⟨r', hr', hQ⟩ := hreqQ s hs
      cases hr.symm.trans hr'
      exact ⟨r, hr, hP, hQ⟩

theorem Step.asksAll_and {lib : Library} (h : ∀ s ∈ steps, ∀ Γ, s.Asks P lib Γ → s.Asks Q lib Γ →
      s.Asks (fun Γ e => P Γ e ∧ Q Γ e) lib Γ)
    (hP : AsksAll P lib steps Γ) (hQ : AsksAll Q lib steps Γ) :
    AsksAll (fun Γ e => P Γ e ∧ Q Γ e) lib steps Γ := by
  induction steps generalizing Γ with
  | nil => trivial
  | cons s rest ih =>
    obtain ⟨hs, hrest⟩ := List.forall_mem_cons.mp h
    exact ⟨hs Γ hP.1 hQ.1, ih hrest hP.2 hQ.2⟩

theorem Step.Asks.and {lib : Library} {s : Step} (hP : s.Asks P lib Γ) (hQ : s.Asks Q lib Γ) :
    s.Asks (fun Γ e => P Γ e ∧ Q Γ e) lib Γ := by
  induction s using Step.induction generalizing Γ with
  | claim n e reason => exact Library.Asks.and hP hQ
  | choose n x e reason => exact Library.Asks.and hP hQ
  | cases n c yes no both ihyes ihno ihboth =>
    have hyes {Γ} := asksAll_and (P := P) (Q := Q) (Γ := Γ) fun s hs _ => ihyes s hs
    have hno {Γ} := asksAll_and (P := P) (Q := Q) (Γ := Γ) fun s hs _ => ihno s hs
    have hboth {Γ} := asksAll_and (P := P) (Q := Q) (Γ := Γ) fun s hs _ => ihboth s hs
    exact ⟨⟨hyes hP.1.1 hQ.1.1, hboth hP.1.2 hQ.1.2⟩, hno hP.2.1 hQ.2.1, hboth hP.2.2 hQ.2.2⟩
  | check n | admitted n => trivial

theorem Script.Asks.and {lib : Library} {script : Script} (hP : script.Asks P lib)
    (hQ : script.Asks Q lib) : script.Asks (fun Γ e => P Γ e ∧ Q Γ e) lib := by
  induction script generalizing lib with
  | nil => trivial
  | cons d rest ih =>
    cases d with
    | ofTheorem t =>
      refine ⟨⟨?_, hP.1.2, hQ.1.2⟩, ih hP.2 hQ.2⟩
      exact Step.asksAll_and (fun s _ _ => Step.Asks.and) hP.1.1 hQ.1.1
    | ofDefinition d => exact ih hP hQ

-- ---------------------------------------------------------------- decisions

instance decidableSome {Q : α → Prop} [DecidablePred Q] : (found : Option α) → Decidable (∃ a, found = some a ∧ Q a)
  | none => isFalse nofun
  | some a => decidable_of_iff (Q a) ⟨fun h => ⟨a, rfl, h⟩, fun ⟨_, hb, h⟩ => Option.some.inj hb ▸ h⟩

instance decidableOk {Q : α → Prop} [DecidablePred Q] : (result : Except ε α) → Decidable (∃ a, result = .ok a ∧ Q a)
  | .error _ => isFalse nofun
  | .ok a => decidable_of_iff (Q a) ⟨fun h => ⟨a, rfl, h⟩, fun ⟨_, hb, h⟩ => Except.ok.inj hb ▸ h⟩

section
variable {P : List Expr → Expr → Prop} [∀ Γ e, Decidable (P Γ e)]

instance (lib : Library) : (reason : Option Justification) → Decidable (lib.Asks P Γ e reason)
  | none | some .admitted => inferInstanceAs (Decidable (P Γ e))
  | some (.definition x) => inferInstanceAs (Decidable
      (∃ d, lib.definitions.find? x = some d ∧ P (Γ ++ d.rules.map Sentence.expr) e))
  | some (.instantiation x args) => inferInstanceAs (Decidable
      (∃ t, lib.theorems.find? x = some t ∧
        (∀ s ∈ t.requirements, ∃ r, (t.instantiation args).apply s.expr = .ok r ∧ P Γ r) ∧
        ∃ h, (t.instantiation args).apply t.hypothesis.expr = .ok h ∧ P (Γ ++ [h]) e))

mutual
instance Step.decidableAsks (lib : Library) :
    (s : Step) → (Γ : List Expr) → Decidable (s.Asks P lib Γ)
  | .claim _ e reason, Γ => inferInstanceAs (Decidable (lib.Asks P Γ e reason))
  | .choose _ x e reason, Γ => inferInstanceAs (Decidable (lib.Asks P Γ (.bind .some x e) reason))
  | .cases _ c yes no both, Γ =>
    have : ∀ Γ, Decidable (Step.AsksAll P lib yes Γ) := fun Γ => Step.decidableAsksAll lib yes Γ
    have : ∀ Γ, Decidable (Step.AsksAll P lib no Γ) := fun Γ => Step.decidableAsksAll lib no Γ
    have : ∀ Γ, Decidable (Step.AsksAll P lib both Γ) := fun Γ => Step.decidableAsksAll lib both Γ
    inferInstanceAs (Decidable ((Step.AsksAll P lib yes (Γ ++ [c]) ∧
        Step.AsksAll P lib both (Γ ++ [c] ++ Step.conclusionsAll yes)) ∧
      Step.AsksAll P lib no (Γ ++ [Expr.not c]) ∧
        Step.AsksAll P lib both (Γ ++ [Expr.not c] ++ Step.conclusionsAll no)))
  | .check _, _ | .admitted _, _ => inferInstanceAs (Decidable True)
instance Step.decidableAsksAll (lib : Library) :
    (steps : List Step) → (Γ : List Expr) → Decidable (Step.AsksAll P lib steps Γ)
  | [], _ => inferInstanceAs (Decidable True)
  | s :: rest, Γ =>
    have : ∀ Γ, Decidable (s.Asks P lib Γ) := fun Γ => Step.decidableAsks lib s Γ
    have : ∀ Γ, Decidable (Step.AsksAll P lib rest Γ) := fun Γ => Step.decidableAsksAll lib rest Γ
    inferInstanceAs (Decidable (s.Asks P lib Γ ∧ Step.AsksAll P lib rest (Γ ++ s.conclusions)))
end

instance (lib : Library) (t : Theorem) : Decidable (t.Asks P lib) :=
  inferInstanceAs (Decidable (_ ∧ _))

instance Script.decidableAsks : (lib : Library) → (script : Script) → Decidable (script.Asks P lib)
  | _, [] => inferInstanceAs (Decidable True)
  | lib, .ofTheorem t :: rest =>
    have : ∀ lib, Decidable (Script.Asks P lib rest) := fun lib => Script.decidableAsks lib rest
    inferInstanceAs (Decidable (t.Asks P lib ∧ Script.Asks P (lib.declare (.ofTheorem t)) rest))
  | lib, .ofDefinition d :: rest => Script.decidableAsks (lib.declare (.ofDefinition d)) rest

end

-- ---------------------------------------------------------------- what is cited is true

open Expr

variable {D : Type u} {I : Interpretation D} {kinds : String → Bool} {general : Bool}
  {rules : List Expr} {lib : Library} {ρ : Env D}

variable (I) in
/-- In every environment where the rules hold, the requirements give the hypothesis. -/
def Theorem.Valid (general : Bool) (rules : List Expr) (t : Theorem) : Prop :=
  ∀ ρ, I.Admits general ρ → (∀ r ∈ rules, I.Holds ρ r) →
    (∀ s ∈ t.requirements, I.Holds ρ s.expr) → I.Holds ρ t.hypothesis.expr

variable (I) in
/-- The definitions add nothing but rules, and each theorem is valid, for its kind, by rules that do
not mention its parameters. -/
structure Library.Sound (kinds : String → Bool) (rules : List Expr) (lib : Library) : Prop where
  definitions : ∀ x d, lib.definitions.find? x = some d → ∀ s ∈ d.rules, s.expr ∈ rules
  theorems : ∀ x t, lib.theorems.find? x = some t →
    (∀ s ∈ t.hypothesis :: t.requirements, I.Fits (I.Admits (kinds x)) s.expr) ∧
    ∃ old, (∀ r ∈ old, r ∈ rules) ∧ (∀ p ∈ t.parameters, p ∉ freeAll old) ∧ t.Valid I (kinds x) old

/-- An instance of a valid theorem is true where the instances of its requirements are. -/
theorem Library.Sound.cited (hlib : lib.Sound I kinds rules)
    (ht : lib.theorems.find? x = some t)
    (hsuits : ∀ s ∈ t.hypothesis :: t.requirements,
      (t.instantiation args).Suits general (kinds x) s.expr)
    (hρ : I.Admits general ρ) (hrules : ∀ r ∈ rules, I.Holds ρ r)
    (hreq : ∀ s ∈ t.requirements, ∃ r, (t.instantiation args).apply s.expr = .ok r ∧ I.Holds ρ r)
    (hh : (t.instantiation args).apply t.hypothesis.expr = .ok h) : I.Holds ρ h := by
  obtain ⟨_, old, hold, hparameters, hvalid⟩ := hlib.theorems x t ht
  obtain ⟨hsuits, hsuitsReq⟩ := List.forall_mem_cons.mp hsuits
  refine (hsuits.holds hh ρ).mpr (hvalid _ (hsuits.admits _ hρ) (fun r hr => ?_) fun s hs => ?_)
  · -- the rules do not mention the parameters, so they mean the same
    have hsame : ∀ z ∈ r.free, (I.instantiated (t.instantiation args) ρ).SameAt ρ z := by
      intro z hz
      have hnot : z ∉ t.parameters := fun hp => hparameters z hp (mem_freeAll.mpr ⟨r, hr, hz⟩)
      have hplain : (t.instantiation args).plain.find? z = none :=
        Option.eq_none_iff_forall_not_mem.mpr fun e he => hnot (Theorem.instantiation_plain he).1
      have htemplate : (t.instantiation args).templates.find? z = none :=
        Option.eq_none_iff_forall_not_mem.mpr fun e he => hnot (Theorem.instantiation_template he).1
      simp [Interpretation.instantiated, Interpretation.before, Env.SameAt, hplain, htemplate,
        Interpretation.denote]
    have hr := hrules r (hold r hr)
    unfold Interpretation.Holds at hr ⊢
    rw [Interpretation.denote_congr hsame, hr]
  · obtain ⟨r, hr, hholds⟩ := hreq s hs
    exact ((hsuitsReq s hs).holds hr ρ).mp hholds

-- ---------------------------------------------------------------- what is concluded is true

variable (I) in
/-- Answers to questions can be relied on: what is affirmed is entailed, and an existence is affirmed
for a name that no fact uses. -/
structure Reliable (general : Bool) (P : List Expr → Expr → Prop) : Prop where
  entails : ∀ Γ e, P Γ e → (∀ f ∈ Γ, I.Fits (I.Admits general) f) →
    I.Fits (I.Admits general) e → I.Entails (I.Admits general) Γ e
  released : ∀ Γ x e, P Γ (.bind .some x e) → x ∉ freeAll Γ

variable (I) in
/-- What is cited fits into a theorem of the given kind. -/
structure Justification.Proper (kinds : String → Bool) (general : Bool) (lib : Library)
    (j : Justification) : Prop where
  arguments : ∀ a ∈ j.args, I.Fits (I.Admits general) a
  definitions : ∀ x, j = .definition x → ∀ d, lib.definitions.find? x = some d →
    ∀ r ∈ d.rules, I.Fits (I.Admits general) r.expr
  suits : ∀ x args, j = .instantiation x args → ∀ t, lib.theorems.find? x = some t →
    ∀ s ∈ t.hypothesis :: t.requirements, (t.instantiation args).Suits general (kinds x) s.expr

variable (I) in
/-- What the text of a step has to fulfil in a theorem of the given kind. -/
structure Step.Proper (kinds : String → Bool) (general : Bool) (rules : List Expr) (lib : Library)
    (s : Step) : Prop where
  statements : ∀ e ∈ s.statements, I.Fits (I.Admits general) e
  chosen : ∀ x ∈ s.chosen, x ∉ freeAll rules
  reasons : ∀ j ∈ s.reasons, j.Proper I kinds general lib

variable (I) in
/-- Where the facts are true, what the step concludes is true of the objects it has chosen. -/
def Step.Carries (general : Bool) (rules : List Expr) (lib : Library)
    (P : List Expr → Expr → Prop) (s : Step) : Prop :=
  ∀ Γ ρ, s.Asks P lib Γ → (∀ f ∈ Γ, I.Fits (I.Admits general) f) → I.Admits general ρ →
    (∀ r ∈ rules, I.Holds ρ r) → (∀ f ∈ Γ, I.Holds ρ f) →
    ∃ τ, I.Admits general τ ∧ (∀ x ∉ s.chosen, τ.SameAt ρ x) ∧
      ∀ f ∈ Γ ++ s.conclusions, I.Holds τ f

theorem Step.Proper.conclusions (h : Step.Proper I kinds general rules lib s) :
    ∀ e ∈ s.conclusions, I.Fits (I.Admits general) e := by
  intro e he
  obtain ⟨d, hd, he⟩ := mem_insideAll.mp (inside_of_conclusions he)
  exact (h.statements d hd).part he

theorem Step.Proper.inner {n : Nat} (h : (Step.cases n c yes no both).Proper I kinds general rules lib)
    (hs : s ∈ yes ∨ s ∈ no ∨ s ∈ both) : s.Proper I kinds general rules lib := by
  have hall {α} (f : Step → List α) (F : List Step → List α)
      (hF : ∀ steps a, a ∈ F steps ↔ ∃ s ∈ steps, a ∈ f s) (a : α) (ha : a ∈ f s) :
      a ∈ F yes ++ F no ++ F both := by
    simp only [List.mem_append, hF]
    rcases hs with hs | hs | hs
    · exact .inl (.inl ⟨s, hs, ha⟩)
    · exact .inl (.inr ⟨s, hs, ha⟩)
    · exact .inr ⟨s, hs, ha⟩
  exact {
    statements := fun e he => h.statements e
      (List.mem_cons_of_mem _ (hall Step.statements statementsAll (fun _ _ => mem_statementsAll) e he))
    chosen := fun x hx => h.chosen x (hall Step.chosen chosenAll (fun _ _ => mem_chosenAll) x hx)
    reasons := fun j hj => h.reasons j (hall Step.reasons reasonsAll (fun _ _ => mem_reasonsAll) j hj) }

section
variable {P : List Expr → Expr → Prop} (hP : Reliable I general P)
  (hlib : lib.Sound I kinds rules)
include hP hlib

/-- A claim whose questions are affirmed follows from the facts where the rules hold, and a chosen
name is one that no fact uses. -/
theorem claim_sound (hasks : lib.Asks P Γ e reason)
    (hreason : ∀ j ∈ reason.toList, j.Proper I kinds general lib)
    (hΓ : ∀ f ∈ Γ, I.Fits (I.Admits general) f) (he : I.Fits (I.Admits general) e)
    (hρ : I.Admits general ρ) (hrules : ∀ r ∈ rules, I.Holds ρ r)
    (hfacts : ∀ f ∈ Γ, I.Holds ρ f) :
    I.Holds ρ e ∧ ∀ x body, e = .bind .some x body → x ∉ freeAll Γ := by
  have hanswer (more : List Expr) (hask : P (Γ ++ more) e)
      (hmore : ∀ f ∈ more, I.Fits (I.Admits general) f ∧ I.Holds ρ f) :
      I.Holds ρ e ∧ ∀ x body, e = .bind .some x body → x ∉ freeAll Γ := by
    refine ⟨?_, fun x body hx hfree => hP.released (Γ ++ more) x body (hx ▸ hask) ?_⟩
    · exact hP.entails _ e hask (List.forall_mem_append.mpr ⟨hΓ, fun f hf => (hmore f hf).1⟩) he ρ hρ
        (List.forall_mem_append.mpr ⟨hfacts, fun f hf => (hmore f hf).2⟩)
    · rw [freeAll_append]
      exact List.mem_append_left _ hfree
  cases reason with
  | none => exact hanswer [] (by simpa [Library.Asks] using hasks) (by simp)
  | some j =>
    have hproper := hreason j (by simp)
    cases j with
    | admitted => exact hanswer [] (by simpa [Library.Asks] using hasks) (by simp)
    | definition x =>
      obtain ⟨d, hd, hask⟩ := hasks
      refine hanswer _ hask fun f hf => ?_
      obtain ⟨s, hs, rfl⟩ := List.mem_map.mp hf
      exact ⟨hproper.definitions x rfl d hd s hs, hrules _ (hlib.definitions x d hd s hs)⟩
    | instantiation x args =>
      obtain ⟨t, ht, hreq, h, hh, hask⟩ := hasks
      have hsuits := hproper.suits x args rfl t ht
      have hfits := (hlib.theorems x t ht).1
      have hinstance (s) (hs : s ∈ t.hypothesis :: t.requirements) (r)
          (hr : (t.instantiation args).apply s.expr = .ok r) : I.Fits (I.Admits general) r :=
        (hsuits s hs).fits hr (hfits s hs)
          (fun z a ha => hproper.arguments a (Theorem.instantiation_plain ha).2)
          (fun a ha => hproper.arguments a (Theorem.instantiation_templates ha).1)
      refine hanswer [h] hask (List.forall_mem_singleton.mpr ⟨hinstance _ (by simp) h hh, ?_⟩)
      refine hlib.cited ht hsuits hρ hrules (fun s hs => ?_) hh
      obtain ⟨r, hr, hask⟩ := hreq s hs
      exact ⟨r, hr, hP.entails Γ r hask hΓ (hinstance s (by simp [hs]) r hr) ρ hρ hfacts⟩

omit hP hlib in
theorem rules_same {xs : List String} (hrules : ∀ r ∈ rules, I.Holds ρ r)
    (hchosen : ∀ x ∈ xs, x ∉ freeAll rules) (hsame : ∀ x ∉ xs, τ.SameAt ρ x) : ∀ r ∈ rules, I.Holds τ r := by
  intro r hr
  have hfree (z) (hz : z ∈ r.free) : τ.SameAt ρ z :=
    hsame z fun h => hchosen z h (mem_freeAll.mpr ⟨r, hr, hz⟩)
  have hholds := hrules r hr
  unfold Interpretation.Holds at hholds ⊢
  rw [Interpretation.denote_congr hfree, hholds]

omit hP hlib in
/-- What each step does a block does. -/
theorem block_carries (hproper : ∀ s ∈ steps, s.Proper I kinds general rules lib)
    (hcarries : ∀ s ∈ steps, s.Carries I general rules lib P) (hasks : Step.AsksAll P lib steps Γ)
    (hΓ : ∀ f ∈ Γ, I.Fits (I.Admits general) f) (hρ : I.Admits general ρ)
    (hrules : ∀ r ∈ rules, I.Holds ρ r) (hfacts : ∀ f ∈ Γ, I.Holds ρ f) :
    ∃ τ, I.Admits general τ ∧ (∀ x ∉ Step.chosenAll steps, τ.SameAt ρ x) ∧
      ∀ f ∈ Γ ++ Step.conclusionsAll steps, I.Holds τ f := by
  induction steps generalizing Γ ρ with
  | nil => exact ⟨ρ, hρ, fun x _ => ⟨rfl, rfl⟩, by simpa [Step.conclusionsAll] using hfacts⟩
  | cons s rest ih =>
    obtain ⟨hs, hrest⟩ := List.forall_mem_cons.mp hproper
    obtain ⟨hsc, hrestc⟩ := List.forall_mem_cons.mp hcarries
    obtain ⟨τ, hτ, hsame, hholds⟩ := hsc Γ ρ hasks.1 hΓ hρ hrules hfacts
    have hΓ' : ∀ f ∈ Γ ++ s.conclusions, I.Fits (I.Admits general) f :=
      List.forall_mem_append.mpr
        ⟨hΓ, hs.conclusions⟩
    obtain ⟨υ, hυ, hsame', hholds'⟩ := ih hrest hrestc hasks.2 hΓ' hτ
      (rules_same hrules hs.chosen hsame) hholds
    refine ⟨υ, hυ, fun x hx => ?_, ?_⟩
    · simp only [Step.chosenAll, List.mem_append, not_or] at hx
      exact ⟨(hsame' x hx.2).1.trans (hsame x hx.1).1, (hsame' x hx.2).2.trans (hsame x hx.1).2⟩
    · simpa [Step.conclusionsAll] using hholds'

/-- A step carries an environment of its facts over to one of its conclusions too. Only the names it
chooses change their meaning. -/
theorem step_carries (s : Step) (hs : s.Proper I kinds general rules lib) :
    s.Carries I general rules lib P := by
  induction s using Step.induction with
  | claim n e reason =>
    intro Γ ρ hasks hΓ hρ hrules hfacts
    have hclaim := claim_sound hP hlib hasks hs.reasons hΓ (hs.statements e (by simp [Step.statements]))
      hρ hrules hfacts
    refine ⟨ρ, hρ, fun x _ => ⟨rfl, rfl⟩, ?_⟩
    exact Interpretation.holds_assuming.mpr ⟨hfacts, hclaim.1⟩
  | choose n x e reason =>
    intro Γ ρ hasks hΓ hρ hrules hfacts
    obtain ⟨hexists, hfresh⟩ := claim_sound hP hlib hasks hs.reasons hΓ
      (hs.statements (.bind .some x e) (by simp [Step.statements])) hρ hrules hfacts
    obtain ⟨d, hd⟩ := Interpretation.holds_some.mp hexists
    refine ⟨I.bind ρ x d, hρ.bind x d, fun y hy => ?_, ?_⟩
    · exact Interpretation.sameAt_bind_ne ρ d fun h => hy (by simp [Step.chosen, h])
    · exact Interpretation.holds_assuming.mpr
        ⟨Interpretation.holds_released (hfresh x e rfl) hfacts d, hd⟩
  | cases n c yes no both ihyes ihno ihboth =>
    intro Γ ρ hasks hΓ hρ hrules hfacts
    have hproper (s) (h : s ∈ yes ∨ s ∈ no ∨ s ∈ both) : s.Proper I kinds general rules lib := hs.inner h
    have hc : I.Fits (I.Admits general) c := hs.statements c (by simp [Step.statements])
    -- one branch: its own block, then the common one
    have hbranch (a : Expr) (own : List Step) (ha : I.Holds ρ a)
        (htwo : I.Fits (I.Admits general) a)
        (hown : ∀ s ∈ own, s.Proper I kinds general rules lib ∧ s.Carries I general rules lib P)
        (hchosen : ∀ x ∈ Step.chosenAll own, x ∈ (Step.cases n c yes no both).chosen)
        (h : Step.AsksAll P lib own (Γ ++ [a]) ∧
          Step.AsksAll P lib both (Γ ++ [a] ++ Step.conclusionsAll own)) :
        ∃ τ, I.Admits general τ ∧ (∀ x ∉ (Step.cases n c yes no both).chosen, τ.SameAt ρ x) ∧
          ∀ f ∈ Γ ++ (Step.cases n c yes no both).conclusions, I.Holds τ f := by
      have hassumed : ∀ f ∈ Γ ++ [a], I.Fits (I.Admits general) f :=
        List.forall_mem_append.mpr ⟨hΓ, List.forall_mem_singleton.mpr htwo⟩
      have hconcluded (f) (hf : f ∈ Step.conclusionsAll own) : I.Fits (I.Admits general) f := by
        obtain ⟨s, hs, hf⟩ := Step.mem_conclusionsAll.mp hf
        exact (hown s hs).1.conclusions f hf
      obtain ⟨τ, hτ, hsame, hholds⟩ := block_carries (fun s hs => (hown s hs).1)
        (fun s hs => (hown s hs).2) h.1 hassumed hρ hrules
        (Interpretation.holds_assuming.mpr ⟨hfacts, ha⟩)
      obtain ⟨υ, hυ, hsame', hholds'⟩ := block_carries (fun s h => hproper s (.inr (.inr h)))
        (fun s h => ihboth s h (hproper s (.inr (.inr h)))) h.2
        (List.forall_mem_append.mpr ⟨hassumed, hconcluded⟩) hτ
        (rules_same hrules (fun x hx => hs.chosen x (hchosen x hx)) hsame) hholds
      refine ⟨υ, hυ, fun x hx => ?_, fun f hf => hholds' f ?_⟩
      · have hboth : x ∉ Step.chosenAll both := fun h => hx (List.mem_append_right _ h)
        have hown : x ∉ Step.chosenAll own := fun h => hx (hchosen x h)
        exact ⟨(hsame' x hboth).1.trans (hsame x hown).1, (hsame' x hboth).2.trans (hsame x hown).2⟩
      · simp only [Step.conclusions, List.mem_append] at hf ⊢
        exact hf.imp_left fun h => .inl (.inl h)
    by_cases hcondition : I.Holds ρ c
    · exact hbranch c yes hcondition hc (fun s hs => ⟨hproper s (.inl hs), ihyes s hs (hproper s (.inl hs))⟩)
        (fun x hx => by simp [Step.chosen, hx]) hasks.1
    · exact hbranch (.not c) no (Interpretation.holds_not.mpr hcondition)
        (Interpretation.fits_not hc)
        (fun s hs => ⟨hproper s (.inr (.inl hs)), ihno s hs (hproper s (.inr (.inl hs)))⟩)
        (fun x hx => by simp [Step.chosen, hx]) hasks.2
  | check n =>
    exact fun Γ ρ _ _ hρ _ hfacts =>
      ⟨ρ, hρ, fun x _ => ⟨rfl, rfl⟩, by simpa [Step.conclusions] using hfacts⟩
  | admitted n =>
    exact fun Γ ρ _ _ hρ _ hfacts =>
      ⟨ρ, hρ, fun x _ => ⟨rfl, rfl⟩, by simpa [Step.conclusions] using hfacts⟩

/-- A theorem whose questions are affirmed is valid, unless its proof chooses a name of the
hypothesis. -/
theorem theorem_valid {t : Theorem} (hproper : ∀ s ∈ t.proof, s.Proper I kinds general rules lib)
    (htwo : ∀ s ∈ t.hypothesis :: t.requirements, I.Fits (I.Admits general) s.expr)
    (hchosen : ∀ x ∈ Step.chosenAll t.proof, x ∉ t.hypothesis.expr.free) (hasks : t.Asks P lib) :
    t.Valid I general rules := by
  intro ρ hρ hrules hreq
  obtain ⟨hhypothesis, hrequirements⟩ := List.forall_mem_cons.mp htwo
  have hΓ : ∀ f ∈ t.requirements.map Sentence.expr, I.Fits (I.Admits general) f := by
    simpa using hrequirements
  obtain ⟨τ, hτ, hsame, hholds⟩ := block_carries hproper
    (fun s hs => step_carries hP hlib s (hproper s hs)) hasks.1 hΓ hρ hrules (by simpa using hreq)
  have hconcluded (f) (hf : f ∈ Step.conclusionsAll t.proof) : I.Fits (I.Admits general) f := by
    obtain ⟨s, hs, hf⟩ := Step.mem_conclusionsAll.mp hf
    exact (hproper s hs).conclusions f hf
  have hgoal := hP.entails _ _ hasks.2 (List.forall_mem_append.mpr ⟨hΓ, hconcluded⟩) hhypothesis τ hτ
    hholds
  unfold Interpretation.Holds at hgoal ⊢
  rw [← hgoal]
  refine (Interpretation.denote_congr fun x hx => hsame x fun h => hchosen x h hx).symm

end

end ProofScript
