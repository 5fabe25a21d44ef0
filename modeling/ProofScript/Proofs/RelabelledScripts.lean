import ProofScript.Proofs.Equivariance

/-!
# Scripts in other names

Objects are named in expressions, where they are introduced and where definitions are cited; theorems
have names of their own. Main statement: an exchange of the names of objects can be made in a script
before verification or in the outcome after it, if it respects how names are made up.
-/

namespace ProofScript

-- ---------------------------------------------------------------- scripts

/-- Theorems keep their names. -/
def Justification.relabel (f : String → String) : Justification → Justification
  | admitted => admitted
  | definition x => definition (f x)
  | instantiation x args => instantiation x (Expr.relabelAll f args)

namespace Step

mutual
def relabel (f : String → String) : Step → Step
  | claim n e reason => claim n (e.relabel f) (reason.map (·.relabel f))
  | choose n x e reason => choose n (f x) (e.relabel f) (reason.map (·.relabel f))
  | cases n c yes no both => cases n (c.relabel f) (relabelAll f yes) (relabelAll f no) (relabelAll f both)
  | check n => check n
  | admitted n => admitted n
def relabelAll (f : String → String) : List Step → List Step
  | [] => []
  | s :: rest => s.relabel f :: relabelAll f rest
end

end Step

def Theorem.relabel (f : String → String) (t : Theorem) : Theorem :=
  { t with
    parameters := t.parameters.map f
    requirements := t.requirements.map (·.map (Expr.relabel f))
    hypothesis := t.hypothesis.map (Expr.relabel f)
    proof := Step.relabelAll f t.proof }

def Definition.relabel (f : String → String) (d : Definition) : Definition :=
  { d with
    name := f d.name
    rules := d.rules.map (·.map (Expr.relabel f))
    proof := Step.relabelAll f d.proof }

def Declaration.relabel (f : String → String) : Declaration → Declaration
  | ofTheorem t => ofTheorem (t.relabel f)
  | ofDefinition d => ofDefinition (d.relabel f)

/-- The script with every object name exchanged. -/
def Script.relabel (f : String → String) (script : Script) : Script := script.map (Declaration.relabel f)

def Entry.relabel (f : String → String) (entry : Entry) : Entry :=
  { entry with
    name := match entry.kind with
      | .proposition => entry.name
      | .definition => f entry.name
    facts := entry.facts.map (Expr.relabel f) }

def Dump.relabel (f : String → String) (d : Dump) : Dump := { d with facts := d.facts.map (Expr.relabel f) }

/-- The report with the names of objects exchanged, in its facts and where definitions are named. -/
def Report.relabel (f : String → String) (report : Report) : Report where
  entries := report.entries.map (Entry.relabel f)
  dumps := report.dumps.map (Dump.relabel f)

-- ---------------------------------------------------------------- verification in other names

/-- The same can be cited and has been reported, in other names. -/
structure Books.Relabelled (f : String → String) (b b' : Books) : Prop where
  theorems : ∀ x, b'.library.theorems.find? x = (b.library.theorems.find? x).map (Theorem.relabel f)
  definitions : ∀ x,
    b'.library.definitions.find? (f x) = (b.library.definitions.find? x).map (Definition.relabel f)
  report : b'.report = b.report.relabel f

namespace Name.Equivariant

open Verify

variable {f : String → String} (hf : Equivariant f)
include hf

theorem instantiation (t : Theorem) (args : List Expr) :
    (t.relabel f).instantiation (Expr.relabelAll f args) = (t.instantiation args).relabel f := by
  unfold Theorem.instantiation Instantiation.relabel
  simp only [hf.ofList, Theorem.relabel, Expr.relabelAll_eq_map, List.zip_map, List.filter_map]
  simp only [Function.comp_def, Prod.map_def, hf.hasPlaceholder]

theorem restated (t : Theorem) (args : List Expr) :
    Theorem.Restated (.relabelling hf depth) args (Expr.relabelAll f args) t (t.relabel f) where
  name := rfl
  parameters := List.length_map f
  requirements := rfl
  hypothesis := rfl
  instances e := by
    rw [hf.instantiation]
    exact hf.apply _ e

theorem existenceGoal? (d : Definition) :
    Verify.existenceGoal? (d.relabel f) = (Verify.existenceGoal? d).map (Expr.relabel f) := by
  have hrules : ((d.relabel f).rules.map fun rule => rule.expr.rename (f d.name) ("_" ++ f d.name)) =
      (d.rules.map fun rule => rule.expr.rename d.name ("_" ++ d.name)).map (Expr.relabel f) := by
    simp only [Definition.relabel, List.map_map, Function.comp_def, Sentence.map, ← hf.underscore, hf.rename]
  have hall (first : Expr) (others : List Expr) :
      (others.map (Expr.relabel f)).foldl (.binary .and) (first.relabel f) =
        (others.foldl (.binary .and) first).relabel f := by
    rw [List.foldl_map]
    exact List.foldl_hom (Expr.relabel f) fun _ _ => rfl
  have hname : (d.relabel f).name = f d.name := rfl
  unfold Verify.existenceGoal?
  dsimp only
  rw [hname, hrules]
  cases d.rules.map fun rule => rule.expr.rename d.name ("_" ++ d.name) with
  | nil => rfl
  | cons first others =>
    simp only [List.map_cons, hall, ← hf.underscore]
    rfl

theorem cite (line : Nat) (reason : Option Justification) :
    Tandem (.relabelling hf depth) (Books.Relabelled f) id (Verify.cite depth line reason)
      (Verify.cite depth line (reason.map (·.relabel f))) := by
  cases reason with
  | none => exact .pure ()
  | some j =>
    cases j with
    | admitted => exact .pure ()
    | definition x =>
      exact .citeDefinition line (Definition.relabel f) (fun _ => rfl) fun b b' h => h.definitions x
    | instantiation x args =>
      exact .citeTheorem line (by simp [Expr.relabelAll_eq_map]) (Theorem.relabel f)
        (fun t => hf.restated t args) fun b b' h => h.theorems x

theorem claim (line : Nat) (e : Expr) (reason : Option Justification) :
    Tandem (.relabelling hf depth) (Books.Relabelled f) id (Verify.claim depth line e reason)
      (Verify.claim depth line (e.relabel f) (reason.map (·.relabel f))) := by
  refine .claim line e ?_ (hf.cite line reason)
  rcases reason with _ | _ | _ | _ <;> simp [Justification.relabel]

theorem block (depth : Nat) (steps : List Step) :
    TandemBlocks (.relabelling hf depth) (Books.Relabelled f) (Verify.block depth steps)
      (Verify.block depth (Step.relabelAll f steps)) := by
  induction steps using Step.blockInduction with
  | nil => exact .nil
  | claim n e reason rest ih => exact .cons (.conclude e (hf.claim n e reason)) ih
  | choose n x e reason rest ih => exact .cons (.conclude e (hf.claim n (.bind .some x e) reason)) ih
  | cases n c yes no both rest ihyes ihno ihboth ih => exact .cons (.cases n c ihyes ihno ihboth) ih
  | check n rest ih =>
    refine .cons (.check n fun b b' facts h => ⟨h.theorems, h.definitions, ?_⟩) ih
    simp only [Books.dump, h.report, Report.relabel, List.map_append]
    rfl
  | admitted n rest ih => exact .cons (.admitted n) ih

theorem declaration (depth : Nat) (d : Declaration) :
    Tandem (.relabelling hf depth) (Books.Relabelled f) id (Verify.declaration depth d)
      (Verify.declaration depth (d.relabel f)) := by
  have hreport {b b' : Books} (h : b.Relabelled f b') (admittedAt : Option Nat) (facts : List Expr) :
      (b'.declare (d.relabel f) admittedAt (facts.map (Expr.relabel f))).report =
        (b.declare d admittedAt facts).report.relabel f := by
    simp only [Books.declare, h.report, Report.relabel, List.map_append]
    cases d <;> rfl
  cases d with
  | ofTheorem t =>
    have hassumptions : (t.relabel f).requirements.map Sentence.expr =
        (t.requirements.map Sentence.expr).map (Expr.relabel f) := by
      simp [Theorem.relabel, Sentence.map, Function.comp_def]
    refine .declaration rfl hassumptions (hf.block depth t.proof)
      (hf.claim t.hypothesis.line t.hypothesis.expr none) fun b b' admittedAt facts h => ?_
    exact ⟨fun x => NameMap.find?_insert_map (f := id) (h.theorems x) id t, h.definitions,
      hreport h admittedAt facts⟩
  | ofDefinition d =>
    refine .declaration rfl rfl (hf.block depth d.proof)
      (.existence rfl rfl (hf.existenceGoal? d)) fun b b' admittedAt facts h => ?_
    exact ⟨h.theorems, fun x => NameMap.find?_insert_map (h.definitions x) hf.injective d,
      hreport h admittedAt facts⟩

/-- An exchange that can be extended to all names can be made before verification or after it. -/
theorem verify (script : Script) (settings : Settings) :
    (script.relabel f).verify settings =
      ((script.verify settings).map (·.relabel f)).mapError (·.map f (Expr.relabel f)) := by
  have hforM : Tandem (.relabelling hf settings.equalityDepth) (Books.Relabelled f) id
      (script.forM (Verify.declaration settings.equalityDepth))
      ((script.relabel f).forM (Verify.declaration settings.equalityDepth)) :=
    .forM fun d _ => hf.declaration settings.equalityDepth d
  have htandem := Script.verify_tandem hforM ⟨fun _ => rfl, fun _ => rfl, rfl⟩
  cases hverify : script.verify settings with
  | error cause =>
    rw [hverify] at htandem
    exact htandem
  | ok report =>
    rw [hverify] at htandem
    obtain ⟨report', _, _, hverify', h⟩ := htandem
    exact hverify'.trans (congrArg Except.ok h.report)

end Name.Equivariant

end ProofScript
