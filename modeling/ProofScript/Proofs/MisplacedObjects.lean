import ProofScript.Proofs.Rejections
import ProofScript.Proofs.Simulation

/-!
# Objects in the place of statements

Analysis refuses to judge an object. Main statement: verification meets an internal fault only where an
object stands in the place of a statement, in something that a script claims or cites, or in a premise
of something it takes for a fact. The scopes of verification always match.
-/

namespace ProofScript

-- ---------------------------------------------------------------- expressions

namespace Expr

/-- The objects that stand where a statement would be judged. -/
def misplaced : Expr → List Expr
  | binary .implies l r | binary .iff l r | binary .or l r | binary .and l r =>
    l.misplaced ++ r.misplaced
  | not e | bind .all _ e | bind .some _ e => e.misplaced
  | e => if e.isObject then [e] else []

theorem misplaced_object {e : Expr} (h : e.isObject = true) : e.misplaced = [e] := by
  cases e with
  | binary op l r => cases op <;> first | rfl | cases h
  | bind q x a => cases q <;> first | rfl | cases h
  | group g items => rfl
  | _ => cases h

/-- A premise is in the place of a statement. -/
theorem misplaced_of_premises {f : Expr} (hp : p ∈ f.premises) (hd : d ∈ p.misplaced) :
    d ∈ f.misplaced := by
  induction f using Expr.induction with
  | binary op l r ihl ihr =>
    cases op with
    | implies =>
      rcases List.mem_cons.mp hp with rfl | hp
      · exact List.mem_append_left _ hd
      · exact List.mem_append_right _ (ihr hp)
    | and => exact List.mem_append.mpr ((List.mem_append.mp hp).imp ihl ihr)
    | or | iff =>
      simp only [premises, List.mem_cons, List.mem_append] at hp
      rcases hp with rfl | rfl | hp | hp
      · exact List.mem_append_left _ hd
      · exact List.mem_append_right _ hd
      · exact List.mem_append_left _ (ihl hp)
      · exact List.mem_append_right _ (ihr hp)
    | _ => cases hp
  | _ => cases hp

end Expr

-- ---------------------------------------------------------------- questions

/-- The only faults are about objects of `B`. -/
def Blames (B : Expr → Prop) : AnswerRelation := fun _ x _ =>
  ∀ fault, x = .error fault → ∃ d, B d ∧ fault = .notAStatement d

theorem Blames.lockstep (B : Expr → Prop) : Lockstep (Blames B) where
  ok _ _ h := nomatch h
  bind := by
    intro _ _ x y f g hx hf fault h
    cases x with
    | error cause =>
      cases h
      exact hx _ rfl
    | ok a => exact hf a fault h

theorem Blames.anyM {Γ : List Expr} {test : Expr → Except InternalFault Bool}
    (h : ∀ f ∈ Γ, Blames B Bool (test f) (test f)) :
    Blames B Bool (Γ.anyM test) (Γ.anyM test) := by
  refine (Blames.lockstep B).anyM (R := (· = ·)) (List.forall₂_refl Γ) fun f hf _ _ heq => ?_
  subst heq
  exact h f hf

/-- What is true of a view stays true when something is assumed that has objects of `B` only in the
place of statements. -/
def Lasting (B : Expr → Prop) (V : View → Prop) : Prop :=
  ∀ v e, V v → (∀ d ∈ e.misplaced, B d) → V (v.assuming e) ∧ V (v.refutingWith e)

/-- The premises of the facts have objects of `B` only in the place of statements. -/
def View.Within (B : Expr → Prop) (v : View) : Prop :=
  ∀ f ∈ v.facts, ∀ p ∈ f.premises, ∀ d ∈ p.misplaced, B d

theorem View.within_lasting (B : Expr → Prop) : Lasting B (View.Within B) := by
  intro v e hv he
  have hmore : (v.assuming e).Within B := by
    intro f hf
    rcases List.mem_append.mp hf with hf | hf
    · exact hv f hf
    · obtain rfl := List.mem_singleton.mp hf
      exact fun p hp d hd => he d (Expr.misplaced_of_premises hp hd)
  exact ⟨hmore, hmore⟩

/-- A question where objects of `B` only are in the place of statements, and what can be seen is as `V`
says. -/
def WithinAt (B : Expr → Prop) (V : View → Prop) : QuestionRelation := fun v e w e' =>
  v = w ∧ e = e' ∧ V v ∧ ∀ d ∈ e.misplaced, B d

theorem WithinAt.stepwise (hV : Lasting B V) (h : WithinAt B V v e w e') :
    Stepwise (WithinAt B V) depth v w e e' := by
  obtain ⟨rfl, rfl, hv, he⟩ := h
  cases e with
  | binary op l r =>
    cases op with
    | implies =>
      obtain ⟨hl, hr⟩ := List.forall_mem_append.mp he
      exact .implies ⟨rfl, rfl, hv, hl⟩ ⟨rfl, rfl, (hV v l hv hl).1, hr⟩
    | iff =>
      obtain ⟨hl, hr⟩ := List.forall_mem_append.mp he
      exact .iff ⟨rfl, rfl, hv, hl⟩ ⟨rfl, rfl, hv, hr⟩
    | or =>
      obtain ⟨hl, hr⟩ := List.forall_mem_append.mp he
      exact .or ⟨rfl, rfl, hv, hl⟩ ⟨rfl, rfl, hv, hr⟩
    | and =>
      obtain ⟨hl, hr⟩ := List.forall_mem_append.mp he
      exact .and rfl ⟨rfl, rfl, hv, hl⟩ ⟨rfl, rfl, hv, hr⟩ ⟨rfl, rfl, (hV v l hv hl).2, hr⟩
        ⟨rfl, rfl, (hV v r hv hr).2, hl⟩
    | equals => exact .equals rfl
    | elementOf | subset => exact .atomic rfl rfl
    | _ => exact .object rfl rfl
  | not a => exact .not ⟨rfl, rfl, hv, he⟩
  | bind q x a =>
    cases q with
    | all => exact .all ⟨rfl, rfl, hv, he⟩
    | some => exact .some ⟨rfl, rfl, hv, he⟩
    | those => exact .object rfl rfl
  | var x => exact .atomic rfl rfl
  | call f args => exact .atomic rfl rfl
  | group g items => exact .object rfl rfl

/-- What is looked up where `V` says what can be seen. -/
def LookedUpWithin (V : View → Prop) : QuestionRelation := fun v e w e' => v = w ∧ e = e' ∧ V v

theorem WithinAt.simulation (hV : Lasting B V) {known : Expr → Reading Bool}
    (hknown : ∀ {v} e, V v → Blames B Bool (known e v) (known e v)) :
    Simulation (Blames B) (WithinAt B V) (LookedUpWithin V) depth known known where
  steps := stepwise hV
  objects := by
    rintro v e w _ ⟨_, _, _, he⟩ hobject _ ⟨⟩
    rw [Expr.misplaced_object hobject] at he
    exact ⟨e, he e (List.mem_singleton_self e), rfl⟩
  looks h := ⟨h.1, h.2.1, h.2.2.1⟩
  denied := by
    rintro v e _ _ ⟨rfl, rfl, hv⟩
    exact ⟨rfl, rfl, hv⟩
  never := by
    rintro v x a _ _ _ ⟨rfl, heq, hv⟩
    cases heq
    exact ⟨rfl, rfl, hv⟩
  known := by
    rintro v e _ _ ⟨rfl, rfl, hv⟩
    exact hknown e hv

namespace Reading

variable {B : Expr → Prop} {v : View} {e : Expr}

/-- Direct judgement does not come to the premises of facts. -/
theorem judgeDirectly_blames (he : ∀ d ∈ e.misplaced, B d) :
    Blames B Truth (judgeDirectly depth e v) (judgeDirectly depth e v) := by
  have hV : Lasting B fun _ => True := fun _ _ _ _ => ⟨trivial, trivial⟩
  refine (WithinAt.simulation hV fun _ _ => ?_).evaluate (Blames.lockstep B) ⟨rfl, rfl, trivial, he⟩
  exact .anyM fun _ _ => (Blames.lockstep B).ok _

/-- A fact that is tried brings in its own premises only. -/
theorem provesThrough_blames (hf : ∀ p ∈ f.premises, ∀ d ∈ p.misplaced, B d) :
    Blames B Bool (provesThrough (judgeDirectly depth) goal f v)
      (provesThrough (judgeDirectly depth) goal f v) := by
  -- the parts that are judged are premises, and the parts that may prove the goal have no others
  have hleads (f f' : Expr) (h : f = f' ∧ ∀ p ∈ f.premises, ∀ d ∈ p.misplaced, B d) :
      Leading (fun e e' => e = e' ∧ ∀ d ∈ e.misplaced, B d)
        (fun f f' => f = f' ∧ ∀ p ∈ f.premises, ∀ d ∈ p.misplaced, B d) f f' := by
    obtain ⟨rfl, h⟩ := h
    cases f with
    | binary op l r =>
      cases op with
      | implies =>
        obtain ⟨hl, hr⟩ := List.forall_mem_cons.mp h
        exact .implies ⟨rfl, hl⟩ ⟨rfl, hr⟩
      | and =>
        obtain ⟨hl, hr⟩ := List.forall_mem_append.mp h
        exact .and ⟨rfl, hl⟩ ⟨rfl, hr⟩
      | or | iff =>
        obtain ⟨hl, h⟩ := List.forall_mem_cons.mp h
        obtain ⟨hr, h⟩ := List.forall_mem_cons.mp h
        obtain ⟨hl', hr'⟩ := List.forall_mem_append.mp h
        first
          | exact .or ⟨rfl, hl⟩ ⟨rfl, hr⟩ ⟨rfl, hl'⟩ ⟨rfl, hr'⟩
          | exact .iff ⟨rfl, hl⟩ ⟨rfl, hr⟩ ⟨rfl, hl'⟩ ⟨rfl, hr'⟩
      | _ => exact .nowhere rfl rfl
    | _ => exact .nowhere rfl rfl
  refine provesThrough_simulated (Blames.lockstep B) (hleads _ _) ?_ ?_ ⟨rfl, hf⟩
  · rintro f _ ⟨rfl, _⟩
    rfl
  · rintro e _ ⟨rfl, he⟩
    exact judgeDirectly_blames he

theorem judge_blames (hv : v.Within B) (he : ∀ d ∈ e.misplaced, B d) :
    Blames B Truth (judge depth e v) (judge depth e v) := by
  refine (WithinAt.simulation (View.within_lasting B) fun _ hv => ?_).evaluate (Blames.lockstep B)
    ⟨rfl, rfl, hv, he⟩
  exact .anyM fun f hf => provesThrough_blames (hv f hf)

/-- A fault is about an object in the place of a statement, in the statement that is judged or in a
premise of a fact. -/
theorem judge_error (h : judge depth e ⟨Γ, refuting⟩ = .error fault) :
    ∃ d, fault = .notAStatement d ∧
      (d ∈ e.misplaced ∨ ∃ f ∈ Γ, ∃ p ∈ f.premises, d ∈ p.misplaced) := by
  obtain ⟨d, hd, rfl⟩ := judge_blames (v := ⟨Γ, refuting⟩)
    (B := fun d => d ∈ e.misplaced ∨ ∃ f ∈ Γ, ∃ p ∈ f.premises, d ∈ p.misplaced)
    (fun f hf p hp d hd => .inr ⟨f, hf, p, hp, hd⟩) (fun d hd => .inl hd) fault h
  exact ⟨d, rfl, hd⟩

end Reading

-- ---------------------------------------------------------------- what steps suppose

namespace Step

/-- What verification takes for a fact on its way through a block. -/
inductive Supposes (steps : List Step) : Expr → Prop
  | claim : StandsIn (.claim n e reason) steps → Supposes steps e
  | choose : StandsIn (.choose n x e reason) steps → Supposes steps e
  | condition : StandsIn (.cases n c yes no both) steps → Supposes steps c
  | negation : StandsIn (.cases n c yes no both) steps → Supposes steps (.not c)

theorem Supposes.along {steps steps' : List Step} (h : Supposes steps f)
    (hsub : ∀ {a}, StandsIn a steps → StandsIn a steps') : Supposes steps' f := by
  cases h with
  | claim ha => exact .claim (hsub ha)
  | choose ha => exact .choose (hsub ha)
  | condition ha => exact .condition (hsub ha)
  | negation ha => exact .negation (hsub ha)

theorem supposes_of_conclusionsAll {steps : List Step} (h : f ∈ conclusionsAll steps) :
    Supposes steps f := by
  induction steps using Step.blockInduction with
  | nil => cases h
  | claim n e reason rest ih =>
    rcases List.mem_cons.mp h with rfl | h
    · exact .claim .here
    · exact (ih h).along .later
  | choose n x e reason rest ih =>
    rcases List.mem_cons.mp h with rfl | h
    · exact .choose .here
    · exact (ih h).along .later
  | cases n c yes no both rest _ _ ihboth ih =>
    rcases List.mem_append.mp h with h | h
    · exact (ihboth h).along .both
    · exact (ih h).along .later
  | check n rest ih | admitted n rest ih => exact (ih h).along .later

theorem supposes_of_known {steps : List Step} (h : f ∈ known steps route) : Supposes steps f := by
  fun_induction known steps route with
  | case1 s rest route ih =>
    rcases List.mem_append.mp h with h | h
    · exact supposes_of_conclusionsAll (List.mem_append_left _ h)
    · exact (ih h).along .later
  | case2 n c yes no both rest route ih =>
    rcases List.mem_cons.mp h with rfl | h
    · exact .condition .here
    · exact (ih h).along .yes
  | case3 n c yes no both rest route ih =>
    simp only [List.cons_append, List.mem_cons, List.mem_append] at h
    rcases h with rfl | h | h
    · exact .condition .here
    · exact (supposes_of_conclusionsAll h).along .yes
    · exact (ih h).along .both
  | case4 n c yes no both rest route ih =>
    rcases List.mem_cons.mp h with rfl | h
    · exact .negation .here
    · exact (ih h).along .no
  | case5 n c yes no both rest route ih =>
    simp only [List.cons_append, List.mem_cons, List.mem_append] at h
    rcases h with rfl | h | h
    · exact .negation .here
    · exact (supposes_of_conclusionsAll h).along .no
    · exact (ih h).along .both
  | case6 => cases h

end Step

-- ---------------------------------------------------------------- what scripts judge and suppose

/-- What can be cited was declared, under its name. -/
structure Library.DeclaredIn (lib : Library) (script : Script) : Prop where
  theorems : ∀ x t, lib.theorems.find? x = some t → .ofTheorem t ∈ script ∧ t.name = x
  definitions : ∀ x d, lib.definitions.find? x = some d → .ofDefinition d ∈ script

theorem Library.DeclaredIn.declare {lib : Library} (h : lib.DeclaredIn script) (hd : d ∈ script) :
    (lib.declare d).DeclaredIn script := by
  cases d with
  | ofTheorem t => exact ⟨NameMap.forall_find?_insert h.theorems ⟨hd, rfl⟩, h.definitions⟩
  | ofDefinition d => exact ⟨h.theorems, NameMap.forall_find?_insert h.definitions hd⟩

theorem Script.library_declaredIn (before : Script) (h : before ⊆ script) :
    before.library.DeclaredIn script := by
  have hfold (lib : Library) (hlib : lib.DeclaredIn script) :
      (before.foldl Library.declare lib).DeclaredIn script := by
    induction before generalizing lib with
    | nil => exact hlib
    | cons d rest ih =>
      obtain ⟨hd, hrest⟩ := List.cons_subset.mp h
      exact ih hrest _ (hlib.declare hd)
  exact hfold _ ⟨nofun, nofun⟩

namespace Script

/-- The theorem is cited with these arguments. -/
def Instantiates (script : Script) (t : Theorem) (args : List Expr) : Prop :=
  .ofTheorem t ∈ script ∧ ∃ d ∈ script, ∃ (a : Step) (n : Nat) (e : Expr),
    a.StandsIn d.proof ∧ a.Claims n e (some (.instantiation t.name args))

/-- The statements that verification judges. -/
inductive Judges (script : Script) : Expr → Prop
  | claim {a : Step} : d ∈ script → a.StandsIn d.proof → a.Claims n e reason → Judges script e
  | hypothesis : .ofTheorem t ∈ script → Judges script t.hypothesis.expr
  | requirement : script.Instantiates t args → s ∈ t.requirements →
    (t.instantiation args).apply s.expr = .ok e → Judges script e
  | existence : .ofDefinition d ∈ script → Verify.existenceGoal? d = some e → Judges script e

/-- What verification takes for a fact. -/
inductive Supposes (script : Script) : Expr → Prop
  | assumption : d ∈ script → f ∈ d.assumptions → Supposes script f
  | step : d ∈ script → Step.Supposes d.proof f → Supposes script f
  | rule : .ofDefinition d ∈ script → s ∈ d.rules → Supposes script s.expr
  | hypothesis : script.Instantiates t args → (t.instantiation args).apply t.hypothesis.expr = .ok f →
    Supposes script f

/-- The object stands in the place of a statement, in what is judged or in a premise of a fact. -/
def Misplaces (script : Script) (d : Expr) : Prop :=
  (∃ e, script.Judges e ∧ d ∈ e.misplaced) ∨
    ∃ f, script.Supposes f ∧ ∃ p ∈ f.premises, d ∈ p.misplaced

variable {script before after : Script}

theorem misplaces_of_fault (he : script.Judges e) (hΓ : ∀ f ∈ Γ, script.Supposes f)
    (h : Reading.judge depth e ⟨Γ, refuting⟩ = .error fault) :
    ∃ d, fault = .notAStatement d ∧ script.Misplaces d := by
  obtain ⟨d, rfl, hd | ⟨f, hf, p, hp, hd⟩⟩ := Reading.judge_error h
  · exact ⟨d, rfl, .inl ⟨e, he, hd⟩⟩
  · exact ⟨d, rfl, .inr ⟨f, hΓ f hf, p, hp, hd⟩⟩

section
variable (hsplit : script = before ++ d :: after) (hexecutes : Verify.Executes depth before d route a u)
include hsplit

theorem mem_of_split : d ∈ script := by simp [hsplit]

theorem library_of_split : before.library.DeclaredIn script :=
  library_declaredIn before (by simp [hsplit])

/-- What is known along a route is supposed. -/
theorem supposes_of_split (route : List Turn) :
    ∀ f ∈ d.assumptions ++ Step.known d.proof route, script.Supposes f := by
  have hd := mem_of_split hsplit
  refine List.forall_mem_append.mpr ⟨fun f hf => .assumption hd hf, fun f hf => ?_⟩
  exact .step hd (Step.supposes_of_known hf)

include hexecutes

/-- The theorem that a reference finds is instantiated by it. -/
theorem instantiates_of_executes (ha : a.Claims n e (some (.instantiation x args)))
    (ht : before.library.theorems.find? x = some t) : script.Instantiates t args := by
  obtain ⟨hmem, rfl⟩ := (library_of_split hsplit).theorems x t ht
  obtain ⟨_, _, hreaches⟩ := hexecutes
  exact ⟨hmem, d, mem_of_split hsplit, a, n, e, hreaches.standsIn, ha⟩

/-- What a justification brings in is supposed. -/
theorem supposes_of_cites (ha : a.Claims n e reason) (hmore : before.library.Cites reason more) :
    ∀ f ∈ more, script.Supposes f := by
  cases hmore with
  | nothing => exact List.forall_mem_nil _
  | definition hd =>
    have hmem := (library_of_split hsplit).definitions _ _ hd
    exact List.forall_mem_map.mpr fun s hs => .rule hmem hs
  | instantiation ht hf =>
    exact List.forall_mem_singleton.mpr
      (.hypothesis (instantiates_of_executes hsplit hexecutes ha ht) hf)

end

/-- Verification of any script meets an internal fault only if an object stands in the place of a
statement, and then the fault is about that object. -/
theorem internal_of_misplaced (h : script.verify settings = .error (.internal fault)) :
    ∃ d, fault = .notAStatement d ∧ script.Misplaces d := by
  cases rejects_of_verify h with
  | step hsplit hexecutes ha hrejects =>
    have hknown := supposes_of_split hsplit
    cases hrejects with
    | requirementFault ht hs hr hfault =>
      have hinstantiates := instantiates_of_executes hsplit hexecutes ha ht
      exact misplaces_of_fault (.requirement hinstantiates hs hr) (hknown _) hfault
    | fault hmore hfault =>
      have hcited := supposes_of_cites hsplit hexecutes ha hmore
      obtain ⟨_, _, hreaches⟩ := hexecutes
      exact misplaces_of_fault (.claim (mem_of_split hsplit) hreaches.standsIn ha)
        (List.forall_mem_append.mpr ⟨hknown _, hcited⟩) hfault
  | hypothesis hsplit hrejects =>
    have ht := mem_of_split hsplit
    cases hrejects with
    | fault hmore hfault =>
      cases hmore
      rw [List.append_nil] at hfault
      refine misplaces_of_fault (.hypothesis ht)
        (List.forall_mem_append.mpr ⟨fun f hf => ?_, fun f hf => ?_⟩) hfault
      · exact .assumption ht hf
      · exact .step ht (Step.supposes_of_conclusionsAll hf)
  | instanceFault hsplit hgoal hfault =>
    have hd := mem_of_split hsplit
    refine misplaces_of_fault (.existence hd hgoal) (fun f hf => ?_) hfault
    exact .step hd (Step.supposes_of_conclusionsAll hf)

/-- A tuple is put in the place of a statement that a theorem requires. -/
def tupleRequired : Script := [
  .ofTheorem {
    name := "T", line := 1, parameters := ["P"]
    requirements := [⟨2, .binary .or (.var "P") (.var "P")⟩]
    hypothesis := ⟨3, .binary .equals (.var "P") (.var "P")⟩, proof := [] },
  .ofTheorem {
    name := "U", line := 6, parameters := ["a"], requirements := []
    hypothesis := ⟨7, .binary .equals (.var "a") (.var "a")⟩
    proof := [.claim 9 (.binary .equals (.var "a") (.var "a"))
      (some (.instantiation "T" [.group .tuple [.var "a"]]))] }]

theorem internal_of_misplaced_tupleRequired :
    Script.verify tupleRequired {} = .error (.internal (.notAStatement (.group .tuple [.var "a"]))) ∧
      Misplaces tupleRequired (.group .tuple [.var "a"]) := by
  have hverify : Script.verify tupleRequired {} =
      .error (.internal (.notAStatement (.group .tuple [.var "a"]))) := by decide +kernel
  obtain ⟨d, hd, hmisplaces⟩ := internal_of_misplaced hverify
  cases hd
  exact ⟨hverify, hmisplaces⟩

def sumClaimed : Script := [.ofTheorem {
  name := "T", line := 1, parameters := ["a"], requirements := []
  hypothesis := ⟨2, .binary .equals (.var "a") (.var "a")⟩
  proof := [.claim 4 (.binary .implies (.binary .plus (.var "a") (.var "a")) (.var "a")) none] }]

def tupleConcluded : Script := [.ofTheorem {
  name := "T", line := 1, parameters := ["a"], requirements := []
  hypothesis := ⟨2, .group .tuple [.var "a"]⟩, proof := [] }]

def setAsRule : Script := [.ofDefinition {
  name := "D", line := 1, rules := [⟨2, .group .set [.var "D"]⟩], proof := [] }]

def tuplePremised : Script := [.ofTheorem {
  name := "T", line := 1, parameters := ["a", "Q"]
  requirements := [⟨2, .binary .implies (.group .tuple [.var "a"]) (.var "Q")⟩]
  hypothesis := ⟨3, .var "Q"⟩, proof := [] }]

/-- The script is resolved, and then meets an internal fault about the object. -/
def MeetsObject (script : Script) (d : Expr) : Prop :=
  script.resolve {} = .ok () ∧ script.verify {} = .error (.internal (.notAStatement d))

instance : Decidable (MeetsObject script d) := inferInstanceAs (Decidable (_ ∧ _))

/-- Name resolution lets objects pass in the place of statements: in a claim, a hypothesis, a
requirement that an argument is put into, the rules of a definition and a premise of a fact. -/
theorem objects_met :
    MeetsObject sumClaimed (.binary .plus (.var "a") (.var "a")) ∧
      MeetsObject tupleConcluded (.group .tuple [.var "a"]) ∧
      MeetsObject tupleRequired (.group .tuple [.var "a"]) ∧
      MeetsObject setAsRule (.group .set [.var "_D"]) ∧
      MeetsObject tuplePremised (.group .tuple [.var "a"]) := by
  decide +kernel

end Script

end ProofScript
