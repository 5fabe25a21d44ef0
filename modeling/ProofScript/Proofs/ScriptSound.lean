import ProofScript.Proofs.Checking
import ProofScript.Proofs.NamesInScope
import ProofScript.Proofs.ParsedNames
import ProofScript.Source

/-!
# Accepted scripts are true

`fullyProved_holds`: a script that is accepted without admissions has true theorems, wherever the
rules of its definitions are true. This takes that names stay apart in the questions its proofs lead
to, and that theorems cited with templates are about functions in general.
-/

namespace ProofScript

open Expr

-- ---------------------------------------------------------------- what a script says

/-- What a theorem and its proof state, and what is passed to the theorems it cites. -/
def Theorem.expressions (t : Theorem) : List Expr :=
  (t.hypothesis :: t.requirements).map Sentence.expr ++ Step.statementsAll t.proof ++
    (Step.reasonsAll t.proof).flatMap Justification.args

/-- The theorem that is cited. -/
def Justification.cited : Justification → Option String
  | instantiation x _ => some x
  | admitted | definition _ => none

namespace Script

def theorems (script : Script) : List Theorem := script.filterMap fun
  | .ofTheorem t => some t
  | .ofDefinition _ => none

def definitions (script : Script) : List Definition := script.filterMap fun
  | .ofDefinition d => some d
  | .ofTheorem _ => none

/-- The rules of all definitions. -/
def rules (script : Script) : List Expr := script.definitions.flatMap (·.rules.map Sentence.expr)

/-- What the truth of a theorem rests on: its own expressions and the rules of the definitions that
its proof cites. -/
def basis (script : Script) (t : Theorem) : List Expr :=
  t.expressions ++ (script.definitions.filter fun d =>
    (Step.reasonsAll t.proof).contains (.definition d.name)).flatMap (·.rules.map Sentence.expr)

/-- The general theorems of a script: those that are cited with templates, and those that are cited
for general ones. They do not quantify over functions. No template calls a placeholder. -/
structure General (general : String → Bool) (script : Script) : Prop where
  cited : ∀ t ∈ script.theorems, ∀ j ∈ Step.reasonsAll t.proof,
    (general t.name || j.args.any Expr.hasPlaceholder) = true → j.cited.all general = true
  firstOrder : ∀ t ∈ script.theorems, general t.name = true → ∀ e ∈ script.basis t, e.FirstOrder
  calls : ∀ t ∈ script.theorems, ∀ j ∈ Step.reasonsAll t.proof, ∀ a ∈ j.args,
    a.hasPlaceholder = true → ∀ f ∈ a.functions, Name.isPlaceholder f = false

instance (general : String → Bool) (script : Script) : Decidable (script.General general) :=
  decidable_of_iff (_ ∧ _ ∧ _) ⟨fun ⟨h₁, h₂, h₃⟩ => ⟨h₁, h₂, h₃⟩, fun ⟨h₁, h₂, h₃⟩ => ⟨h₁, h₂, h₃⟩⟩

theorem mem_theorems {script : Script} : t ∈ script.theorems ↔ .ofTheorem t ∈ script := by
  unfold theorems
  rw [List.mem_filterMap]
  constructor
  · rintro ⟨d, hd, h⟩
    cases d with
    | ofTheorem u => exact Option.some.inj h ▸ hd
    | ofDefinition d => cases h
  · exact fun h => ⟨_, h, rfl⟩

theorem mem_definitions {script : Script} (h : .ofDefinition d ∈ script) : d ∈ script.definitions :=
  List.mem_filterMap.mpr ⟨_, h, rfl⟩

theorem mem_rules {script : Script} (hd : d ∈ script.definitions) (hr : r ∈ d.rules) :
    r.expr ∈ script.rules :=
  List.mem_flatMap.mpr ⟨d, hd, List.mem_map.mpr ⟨r, hr, rfl⟩⟩

theorem mem_basis {script : Script} (hd : d ∈ script.definitions)
    (hcited : .definition d.name ∈ Step.reasonsAll t.proof) (hr : r ∈ d.rules) :
    r.expr ∈ script.basis t := by
  refine List.mem_append_right _ (List.mem_flatMap.mpr ⟨d, List.mem_filter.mpr ⟨hd, ?_⟩, ?_⟩)
  · simpa using hcited
  · exact List.mem_map.mpr ⟨r, hr, rfl⟩

end Script

-- ---------------------------------------------------------------- names of instances

/-- Numerals and names in scope are not among names that are new and no numerals. -/
theorem not_mem_freeAll {names : List String}
    (hfree : ∀ r ∈ rules, ∀ x ∈ r.free, Name.isNumeral x = true ∨ x ∈ names) (hnew : x ∉ names)
    (hnumeral : Name.isNumeral x = false) : x ∉ freeAll rules := by
  intro hx
  obtain ⟨r, hr, hx⟩ := mem_freeAll.mp hx
  rcases hfree r hr x hx with h | h
  · exact Bool.noConfusion (hnumeral.symm.trans h)
  · exact hnew h

-- ---------------------------------------------------------------- what is known of a library

section
variable {D : Type u} {I : Interpretation D} {general : String → Bool} {script : Script}
  {names : List String} {rules : List Expr} {lib : Library} {t : Theorem}

variable (I) in
/-- A library of declarations of the script, with the names and the rules of its definitions. -/
structure Known (general : String → Bool) (script : Script) (names : List String)
    (rules : List Expr) (lib : Library) : Prop where
  sound : lib.Sound I general rules
  declared : ∀ r ∈ rules, r ∈ script.rules
  free : ∀ r ∈ rules, ∀ x ∈ r.free, Name.isNumeral x = true ∨ x ∈ names
  definitions : ∀ x d, lib.definitions.find? x = some d → d ∈ script.definitions ∧ d.name = x
  binders : ∀ x t, lib.theorems.find? x = some t → ∀ s ∈ t.hypothesis :: t.requirements,
    ∀ b ∈ s.expr.binders, Name.isNumeral b = false ∧ b ∉ t.parameters

/-- Where a theorem of the script may cite, the statements it cites suit it. -/
theorem Known.suits {u : Theorem} (hknown : Known I general script names rules lib) (hgeneral : script.General general)
    (ht : t ∈ script.theorems) (hj : .instantiation x args ∈ Step.reasonsAll t.proof)
    (hscoped : (Justification.instantiation x args).Scoped)
    (hu : lib.theorems.find? x = some u) (hs : s ∈ u.hypothesis :: u.requirements) :
    (u.instantiation args).Suits (general t.name) (general x) s.expr where
  kind := by
    have hcited : general t.name = true ∨ args.any hasPlaceholder = true → general x = true := by
      simpa [Justification.cited, Justification.args] using hgeneral.cited t ht _ hj
    by_cases hx : general x = true
    · exact .inl hx
    · have hnone := mt hcited hx
      rw [not_or, Bool.not_eq_true, List.any_eq_true, not_exists] at hnone
      refine .inr ⟨hnone.1, Theorem.instantiation_of_plain fun a ha => ?_⟩
      exact Bool.eq_false_iff.mpr fun h => hnone.2 a ⟨ha, h⟩
  calls := fun a ha =>
    have ha := Theorem.instantiation_templates ha
    hgeneral.calls t ht _ hj a ha.1 ha.2
  bound := fun b hb => by
    obtain ⟨hnumeral, hparameter⟩ := hknown.binders x u hu s hs b hb
    refine ⟨Option.eq_none_iff_forall_not_mem.mpr fun a ha => ?_, fun taken a ha hfree => ?_⟩
    · exact hparameter (Theorem.instantiation_template ha).1
    · obtain ⟨hreserved, hnumeral, hplaceholder⟩ :=
        Name.reserved_of_grown (Name.fresh_grown taken b) hnumeral
      rcases hscoped a (Theorem.instantiation_templates ha).1 _ hfree with h | h | h
      · exact Bool.noConfusion (hnumeral.symm.trans h)
      · exact Bool.noConfusion (hplaceholder.symm.trans h)
      · exact Bool.noConfusion (hreserved.symm.trans h)

/-- A theorem whose questions are affirmed is valid, given what is known before it. -/
theorem Known.valid (hknown : Known I general script names rules lib)
    (hgeneral : script.General general) (hP : Reliable I (general t.name) P)
    (hfits : ∀ e ∈ script.basis t, I.Fits (I.Admits (general t.name)) e)
    (ht : t ∈ script.theorems) (hscoped : t.Scoped names) (hnamed : t.Named)
    (hasks : t.Asks P lib) : t.Valid I (general t.name) rules := by
  have hexpression (e) (he : e ∈ t.expressions) : I.Fits (I.Admits (general t.name)) e :=
    hfits e (List.mem_append_left _ he)
  have hproper (s) (hs : s ∈ t.proof) : s.Proper I general (general t.name) rules lib := by
    have hreason (j) (hj : j ∈ s.reasons) : j ∈ Step.reasonsAll t.proof :=
      Step.mem_reasonsAll.mpr ⟨s, hs, hj⟩
    refine ⟨fun e he => hexpression e ?_, fun x hx => ?_, fun j hj => ⟨fun a ha => ?_, ?_, ?_⟩⟩
    · exact List.mem_append_left _ (List.mem_append_right _ (Step.mem_statementsAll.mpr ⟨s, hs, he⟩))
    · have hx := Step.mem_chosenAll.mpr ⟨s, hs, hx⟩
      exact not_mem_freeAll hknown.free
        (fun h => hscoped.chosen x hx (List.mem_append_left _ h)) (hnamed.chosen x hx)
    · exact hexpression a (List.mem_append_right _ (List.mem_flatMap.mpr ⟨j, hreason j hj, ha⟩))
    · rintro x rfl d hd r hr
      obtain ⟨hdeclared, rfl⟩ := hknown.definitions x d hd
      exact hfits _ (Script.mem_basis hdeclared (hreason _ hj) hr)
    · rintro x args rfl u hu r hr
      exact hknown.suits hgeneral ht (hreason _ hj) (hscoped.reasons _ (hreason _ hj)) hu hr
  refine theorem_valid hP hknown.sound hproper (fun s hs => ?_) (fun x hx hfree => ?_) hasks
  · exact hexpression _ (List.mem_append_left _ (List.mem_append_left _ (List.mem_map.mpr ⟨s, hs, rfl⟩)))
  · rcases (hscoped.statements t.hypothesis (List.mem_cons_self ..)).free x hfree with h | h
    · exact Bool.noConfusion ((hnamed.chosen x hx).symm.trans h)
    · exact hscoped.chosen x hx h

/-- What is known after a theorem. -/
theorem Known.declareTheorem (hknown : Known I general script names rules lib)
    (hfits : ∀ s ∈ t.hypothesis :: t.requirements, I.Fits (I.Admits (general t.name)) s.expr)
    (hscoped : t.Scoped names) (hnamed : t.Named) (hvalid : t.Valid I (general t.name) rules) :
    Known I general script names rules (lib.declare (.ofTheorem t)) := by
  have hparameters (p) (hp : p ∈ t.parameters) : p ∉ freeAll rules :=
    not_mem_freeAll hknown.free (hscoped.parameters p hp) (hnamed.parameters p hp)
  refine ⟨⟨hknown.sound.definitions, ?_⟩, hknown.declared, hknown.free, hknown.definitions, ?_⟩
  · exact NameMap.forall_find?_insert hknown.sound.theorems
      ⟨hfits, rules, fun _ => id, hparameters, hvalid⟩
  · refine NameMap.forall_find?_insert hknown.binders fun s hs b hb => ?_
    refine ⟨hnamed.statements s hs b hb, fun hp => ?_⟩
    exact ((hscoped.statements s hs).binders b hb).2 (List.mem_append_right _ hp)

/-- What is known after a definition. -/
theorem Known.declareDefinition {d : Definition} (hknown : Known I general script names rules lib)
    (hd : d ∈ script.definitions)
    (hscoped : ∀ r ∈ d.rules, r.expr.Scoped (names ++ [d.name])) :
    Known I general script (names ++ [d.name]) (rules ++ d.rules.map Sentence.expr)
      (lib.declare (.ofDefinition d)) := by
  have hnew {Q : Expr → Prop} (h : ∀ s ∈ d.rules, Q s.expr) : ∀ r ∈ d.rules.map Sentence.expr, Q r := by
    simpa using h
  refine ⟨⟨?_, fun x t ht => ?_⟩, ?_, ?_, ?_, hknown.binders⟩
  · refine NameMap.forall_find?_insert (fun x c hc s hs => ?_) fun s hs => ?_
    · exact List.mem_append_left _ (hknown.sound.definitions x c hc s hs)
    · exact List.mem_append_right _ (List.mem_map.mpr ⟨s, hs, rfl⟩)
  · obtain ⟨hfits, old, hold, hrest⟩ := hknown.sound.theorems x t ht
    exact ⟨hfits, old, fun r hr => List.mem_append_left _ (hold r hr), hrest⟩
  · exact List.forall_mem_append.mpr ⟨hknown.declared, hnew fun s hs => Script.mem_rules hd hs⟩
  · refine List.forall_mem_append.mpr ⟨fun r hr x hx => ?_, hnew fun s hs => (hscoped s hs).free⟩
    exact (hknown.free r hr x hx).imp_right fun h => List.mem_append_left _ h
  · exact NameMap.forall_find?_insert hknown.definitions ⟨hd, rfl⟩

/-- Every theorem from here on is valid by rules of the script. -/
theorem Known.theorems {rest : Script} (hknown : Known I general script names rules lib)
    (hgeneral : script.General general) (hP : ∀ general, Reliable I general P)
    (hfits : ∀ t ∈ script.theorems, ∀ e ∈ script.basis t, I.Fits (I.Admits (general t.name)) e)
    (hnamed : ∀ t ∈ script.theorems, t.Named) (hrest : ∀ d ∈ rest, d ∈ script)
    (hscoped : rest.Scoped names) (hasks : rest.Asks P lib) (t : Theorem)
    (ht : t ∈ rest.theorems) : t.Valid I (general t.name) script.rules := by
  induction rest generalizing names rules lib with
  | nil => cases ht
  | cons d rest ih =>
    obtain ⟨hd, hlater⟩ := List.forall_mem_cons.mp hrest
    cases d with
    | ofTheorem u =>
      have hu := Script.mem_theorems.mpr hd
      have hvalid := hknown.valid hgeneral (hP _) (hfits u hu) hu hscoped.1 (hnamed u hu) hasks.1
      rcases List.mem_cons.mp ht with rfl | ht
      · exact fun ρ hρ hrules => hvalid ρ hρ fun r hr => hrules r (hknown.declared r hr)
      · have hstatements (s) (hs : s ∈ u.hypothesis :: u.requirements) :
            I.Fits (I.Admits (general u.name)) s.expr := by
          refine hfits u hu s.expr (List.mem_append_left _ ?_)
          exact List.mem_append_left _ (List.mem_append_left _ (List.mem_map.mpr ⟨s, hs, rfl⟩))
        exact ih (hknown.declareTheorem hstatements hscoped.1 (hnamed u hu) hvalid) hlater hscoped.2
          hasks.2 ht
    | ofDefinition d =>
      exact ih (hknown.declareDefinition (Script.mem_definitions hd) hscoped.1) hlater hscoped.2 hasks ht

end

-- ---------------------------------------------------------------- scripts

/-- Affirmative answers can be relied on where names stay apart. -/
theorem reliable_of_hygienic {D : Type u} (I : Interpretation D) (depth : Nat) (general : Bool) :
    Reliable I general fun Γ e => Answered depth Γ e ∧ Hygienic Γ e where
  entails := fun Γ e ⟨hanswered, hhygienic⟩ hΓ he ρ hρ hfacts =>
    Interpretation.judge_sound (v := ⟨Γ, false⟩) (fun _ x d hρ => hρ.bind x d) hhygienic hΓ he hanswered
      ρ hρ hfacts
  released := fun Γ x e ⟨_, hhygienic⟩ =>
    hhygienic.self.1.released x (by simp [Expr.released])

theorem verifySource_eq_ok (hread : Script.parse source = .ok script) :
    verifySource source settings = .ok report ↔
      script.resolve settings = .ok () ∧ script.verify settings = .ok report := by
  unfold verifySource
  rw [hread]
  show (do
    (script.resolve settings).mapError SourceError.rejected
    (script.verify settings).mapError SourceError.rejected) = Except.ok report ↔ _
  cases script.resolve settings with
  | error cause => exact ⟨nofun, nofun⟩
  | ok =>
    cases script.verify settings with
    | error cause => exact ⟨nofun, nofun⟩
    | ok result => exact ⟨fun h => ⟨rfl, by cases h; rfl⟩, fun h => by cases h.2; rfl⟩

/-- The script is accepted without admissions. -/
def Script.Proved (script : Script) : Prop :=
  script.resolve {} = .ok () ∧ ∃ report, script.verify {} = .ok report ∧ report.isFullyProved = true

instance (script : Script) : Decidable script.Proved :=
  have : Decidable (script.resolve {} = .ok ()) :=
    match script.resolve {} with
    | .ok () => isTrue rfl
    | .error _ => isFalse nofun
  inferInstanceAs (Decidable (_ ∧ _))

theorem Script.Proved.verifySource {script : Script} (h : script.Proved)
    (hread : Script.parse source = .ok script) :
    ∃ report, verifySource source {} = .ok report ∧ report.isFullyProved = true := by
  obtain ⟨hresolve, report, hverify, hfully⟩ := h
  exact ⟨report, (verifySource_eq_ok hread).mpr ⟨hresolve, hverify⟩, hfully⟩

/-- A theorem is cited with a template, a definition is cited and an object is chosen. -/
def transportSource : String :=
"theorem Move(P,a,b):
a=b
P(a)
⇒ P(b)
\x7b
\x7d
define One:
One=1
end
\x7b
1=1
\x7d
theorem Main(F,G):
∃x(F(x,1))
G ⇔ ∃z(F(z,One))
⇒ G
\x7b
let y: F(y,1)
1=One | @One
F(y,One) | Move(F(y,_0),1,One)
∃z(F(z,One))
\x7d
"

/-- A call holds if one of its arguments does. -/
def eager : Interpretation Bool where
  yes := true
  no := false
  yes_ne_no := Bool.false_ne_true.symm
  apply _ args := args.any id
  arithmetic _ a b := a == b
  related _ a b := a = b
  group _ _ := false
  those _ := false

/-- The text is accepted without admissions, and yet one of its theorems is false: equivalences stand
between truth values, the rules of the definitions and the theorem's requirements hold, but what it
states does not. -/
def Misleading (source : String) : Prop :=
  ∃ script report, Script.parse source = .ok script ∧ verifySource source {} = .ok report ∧
    report.isFullyProved = true ∧ ∃ (D : Type) (I : Interpretation D) (objects : String → D),
      (∀ t ∈ script.theorems, ∀ e ∈ script.basis t, I.TwoValued I.Coherent e) ∧
      (∀ r ∈ script.rules, I.Holds (I.assign objects) r) ∧
      ∃ t ∈ script.theorems, (∀ s ∈ t.requirements, I.Holds (I.assign objects) s.expr) ∧
        ¬I.Holds (I.assign objects) t.hypothesis.expr

/-- Two truth values and a third object, which everything denotes that is in brackets. Calls are
statements. -/
def tests (called : Option Bool → List (Option Bool) → Bool) : Interpretation (Option Bool) where
  yes := some true
  no := some false
  yes_ne_no := by decide
  apply d args := some (called d args)
  arithmetic _ a _ := a
  related _ a b := a = b
  group _ _ := none
  those _ := none

/-- Equivalences stand between calls only. -/
def iffsBetweenCalls : Expr → Bool
  | .binary .iff (.call _ _) (.call _ _) => true
  | .binary .iff _ _ => false
  | _ => true

/-- A script without definitions and with these requirements and this hypothesis among its theorems
is accepted without admissions. -/
def Accepts (source : String) (requirements : List Expr) (hypothesis : Expr) : Prop :=
  ∃ script, Script.parse source = .ok script ∧ script.Proved ∧ script.rules = [] ∧
    (∀ t ∈ script.theorems, ∀ e ∈ script.basis t, e.inside.all iffsBetweenCalls = true) ∧
    ∃ t ∈ script.theorems, t.requirements.map Sentence.expr = requirements ∧
      t.hypothesis.expr = hypothesis

instance : Decidable (Accepts source requirements hypothesis) :=
  inferInstanceAs (Decidable (∃ _, _ ∧ _))

theorem misleading_of_accepts (requirements : List Expr) (hypothesis : Expr)
    (h : Accepts source requirements hypothesis)
    (called : Option Bool → List (Option Bool) → Bool) (objects : String → Option Bool)
    (hfalse : (∀ e ∈ requirements, (tests called).Holds ((tests called).assign objects) e) ∧
      ¬(tests called).Holds ((tests called).assign objects) hypothesis) : Misleading source := by
  obtain ⟨script, hread, hproved, hrules, hiff, t, ht, rfl, rfl⟩ := h
  obtain ⟨report, hreport, hfully⟩ := hproved.verifySource hread
  have hcall (b : Bool) : (tests called).Boolean (some b) := by
    cases b
    · exact .inr rfl
    · exact .inl rfl
  refine ⟨script, report, hread, hreport, hfully, _, tests called, objects, ?_, ?_, t, ht, ?_,
    hfalse.2⟩
  · intro u hu e he l r hlr ρ hρ
    have h := List.all_eq_true.mp (hiff u hu e he) _ hlr
    unfold iffsBetweenCalls at h
    split at h
    · rename_i f args g items heq
      cases heq
      simp only [Interpretation.denote, hρ f, hρ g]
      exact ⟨hcall _, hcall _⟩
    · cases h
    · rename_i hne
      exact absurd rfl (hne l r)
  · simp [hrules]
  · simpa using hfalse.1

/-- An equation is about a name that is bound in a fact. -/
def capturingSource : String :=
"theorem T(Q,c):
∃x(Q(x))
⇒ ∀x(x=c ⇒ ∃w(Q(c)))
\x7b
\x7d
"

theorem misleading_capturing : Misleading capturingSource := by
  refine misleading_of_accepts
    [.bind .some "x" (.call "Q" [.var "x"])]
    (.bind .all "x" (.binary .implies (.binary .equals (.var "x") (.var "c"))
      (.bind .some "w" (.call "Q" [.var "c"]))))
    (by decide +kernel) (fun d args => args == [d]) (fun x => some (x == "Q")) ?_
  simp [Interpretation.Holds, Interpretation.denote, Interpretation.denoteAll,
    Interpretation.combine, Interpretation.quantify, Interpretation.bind, Interpretation.assign,
    Interpretation.truth, tests]

/-- An object is chosen under a name that a fact from an inner block mentions. -/
def rechoosingSource : String :=
"theorem T(P,Q):
∃y(P(y))
∃y(Q(y))
⇒ ∃y(P(y) ∧ Q(y))
\x7b
if (P)
\x7b
\x7d
else
\x7b
\x7d
both
\x7b
let y: P(y)
\x7d
let y: Q(y)
P(y) ∧ Q(y)
\x7d
"

theorem misleading_rechoosing : Misleading rechoosingSource := by
  refine misleading_of_accepts
    [.bind .some "y" (.call "P" [.var "y"]), .bind .some "y" (.call "Q" [.var "y"])]
    (.bind .some "y" (.binary .and (.call "P" [.var "y"]) (.call "Q" [.var "y"])))
    (by decide +kernel) (fun d args => args == [d]) (fun x => some (x == "P")) ?_
  simp [Interpretation.Holds, Interpretation.denote, Interpretation.denoteAll,
    Interpretation.combine, Interpretation.quantify, Interpretation.bind, Interpretation.assign,
    Interpretation.truth, tests]

/-- A theorem that quantifies over functions is cited with a template. -/
def quantifyingSource : String :=
"theorem T(P,c):
∀f(f(c))
⇒ P(c)
\x7b
\x7d
theorem U(c):
∀f(f(c))
⇒ ¬(c=c)
\x7b
¬(c=c) | T(¬(_0=_0),c)
\x7d
"

theorem misleading_quantifying : Misleading quantifyingSource := by
  refine misleading_of_accepts
    [.bind .all "f" (.call "f" [.var "c"])]
    (.not (.binary .equals (.var "c") (.var "c")))
    (by decide +kernel) (fun _ _ => true) (fun _ => none) ?_
  simp [Interpretation.Holds, Interpretation.denote, Interpretation.denoteAll,
    Interpretation.combine, Interpretation.quantify, Interpretation.bind, Interpretation.assign,
    Interpretation.truth, tests]

/-- A template binds a name and is filled in twice, one instance inside the other. -/
def nestingSource : String :=
"theorem T(P,c):
P(P(c))
⇒ ∀y(P(P(c)))
\x7b
\x7d
theorem U(S,c,d):
∃w(S(w,∃v(S(v,c))))
⇒ ∃w(S(w,∃v(S(d,c))))
\x7b
∃w(S(w,∃v(S(d,c)))) | T(∃y(S(y,_0)),c)
\x7d
"

theorem misleading_nesting : Misleading nestingSource := by
  refine misleading_of_accepts
    [.bind .some "w" (.call "S" [.var "w", .bind .some "v" (.call "S" [.var "v", .var "c"])])]
    (.bind .some "w" (.call "S" [.var "w", .bind .some "v" (.call "S" [.var "d", .var "c"])]))
    (by decide +kernel) (fun _ args => args.all (· == some true)) (fun x => some (x == "c")) ?_
  simp [Interpretation.Holds, Interpretation.denote, Interpretation.denoteAll,
    Interpretation.quantify, Interpretation.bind, Interpretation.assign, Interpretation.truth,
    tests]

/-- An equivalence of calls becomes one of objects. -/
def equatingSource : String :=
"theorem T(P,F,a):
¬P(a)
¬F(a)
⇒ P(a) ⇔ F(a)
\x7b
\x7d
theorem U(F,a):
¬F(a)
¬\x7ba\x7d
⇒ \x7ba\x7d=F(a)
\x7b
\x7ba\x7d=F(a) | T(\x7b_0\x7d,F,a)
\x7d
"

theorem misleading_equating : Misleading equatingSource := by
  refine misleading_of_accepts
    [.not (.call "F" [.var "a"]), .not (.group .set [.var "a"])]
    (.binary .equals (.group .set [.var "a"]) (.call "F" [.var "a"]))
    (by decide +kernel) (fun _ _ => false) (fun _ => none) ?_
  simp [Interpretation.Holds, Interpretation.denote, Interpretation.denoteAll,
    Interpretation.combine, Interpretation.assign, Interpretation.truth, tests]

/-- A template calls its placeholder. -/
def callingSource : String :=
"theorem T(P,a,b):
a=b
P(a)
⇒ P(b)
\x7b
\x7d
theorem U(f,g,c):
f=g
f(c)
⇒ g(c)
\x7b
g=g ∧ g(c) | T(_0=_0 ∧ _0(c),f,g)
\x7d
theorem W(f,g,c):
f=g
⇒ ¬(c=c)
\x7b
¬(c=c) | U(_0=_0,¬(_0=_0),c)
\x7d
"

theorem misleading_calling : Misleading callingSource := by
  refine misleading_of_accepts
    [.binary .equals (.var "f") (.var "g")]
    (.not (.binary .equals (.var "c") (.var "c")))
    (by decide +kernel) (fun _ _ => false) (fun _ => none) ?_
  simp [Interpretation.Holds, Interpretation.denote, Interpretation.combine,
    Interpretation.assign, Interpretation.truth, tests]

end ProofScript
