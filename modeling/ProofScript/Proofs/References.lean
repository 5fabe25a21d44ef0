import ProofScript.Proofs.NamesInScope
import ProofScript.Proofs.Rejections

/-!
# References of resolved scripts

Name resolution and verification keep track of theorems and definitions each for itself. Theorems are
known to both after their proof. Definitions are known to name resolution in their own proof already,
to verification after it. Main statement: what a resolved script cites is found with the right number
of parameters, except where the proof of a definition cites that definition.
-/

namespace ProofScript

-- ---------------------------------------------------------------- what both know

/-- The same theorems, with as many parameters, and the same definitions are known. -/
structure Visible.Matches (V : Visible) (lib : Library) : Prop where
  theorems : ∀ x, V.theorems x = (lib.theorems.find? x).map (·.parameters.length)
  definitions : ∀ x, x ∈ V.definitions ↔ (lib.definitions.find? x).isSome

namespace Visible.Matches

variable {V : Visible} {lib : Library}

theorem nothing : Visible.nothing.Matches {} :=
  ⟨fun _ => rfl, fun _ => ⟨nofun, nofun⟩⟩

theorem after (h : V.Matches lib) (d : Declaration) : (V.after d).Matches (lib.declare d) := by
  cases d with
  | ofTheorem t =>
    refine ⟨fun x => ?_, h.definitions⟩
    show (if x = t.name then some t.parameters.length else V.theorems x) =
      ((lib.theorems.insert t.name t).find? x).map (·.parameters.length)
    split
    · rename_i hx
      rw [hx, NameMap.find?_insert_self]
      rfl
    · rename_i hx
      rw [NameMap.find?_insert_ne _ _ hx, h.theorems]
  | ofDefinition d =>
    refine ⟨h.theorems, fun x => ?_⟩
    show x ∈ insert d.name V.definitions ↔ ((lib.definitions.insert d.name d).find? x).isSome
    by_cases hx : x = d.name
    · rw [hx, NameMap.find?_insert_self]
      simp
    · rw [NameMap.find?_insert_ne _ _ hx, ← h.definitions]
      simp [hx]

/-- What was declared before is known to both. -/
theorem library (before : Script) : (before.foldl Visible.after .nothing).Matches before.library := by
  have hfold (V : Visible) (lib : Library) (h : V.Matches lib) :
      (before.foldl Visible.after V).Matches (before.foldl Library.declare lib) := by
    induction before generalizing V lib with
    | nil => exact h
    | cons d rest ih => exact ih _ _ (h.after d)
  exact hfold _ _ nothing

end Visible.Matches

-- ---------------------------------------------------------------- what steps cite

/-- What is cited is visible, with the right number of arguments. -/
def Justification.Resolved (V : Visible) : Justification → Prop
  | admitted => True
  | definition x => x ∈ V.definitions
  | instantiation x args => V.theorems x = some args.length

theorem Justification.WellScoped.resolved {j : Justification} (h : j.WellScoped slots V) :
    j.Resolved V := by
  cases j with
  | admitted => trivial
  | definition x => exact h
  | instantiation x args => exact h.1

/-- Choices do not change which theorems and definitions are visible. -/
theorem Step.WellScopedAll.resolved (h : WellScopedAll slots V steps) :
    ∀ j ∈ reasonsAll steps, j.Resolved V := by
  intro j hj
  obtain ⟨xs, _, hscoped⟩ := h.reasons j hj
  have hresolved := hscoped.resolved
  cases j <;> exact hresolved

theorem Step.StandsIn.reason_mem (h : StandsIn a steps) (ha : a.Claims n e (some j)) :
    j ∈ reasonsAll steps := by
  induction h with
  | here => cases ha <;> simp [reasonsAll, reasons]
  | later _ ih => simp [reasonsAll, ih]
  | yes _ ih | no _ ih | both _ ih => simp [reasonsAll, reasons, ih]

theorem Verify.Executes.resolved {before after : Script}
    (hscript : (before ++ d :: after).resolve settings = .ok ())
    (h : Executes depth before d route a u) (ha : a.Claims n e (some j)) :
    j.Resolved ((before.foldl Visible.after .nothing).inside d) := by
  obtain ⟨_, hd, _⟩ := Script.wellScoped_append.mp (Script.wellScoped_of_resolve hscript)
  obtain ⟨_, _, hreaches⟩ := h
  exact hd.steps.resolved j (hreaches.standsIn.reason_mem ha)

/-- A definition is new where it is declared. -/
theorem Script.definition_unknown {before after : Script}
    (h : Script.resolve (before ++ .ofDefinition d :: after) settings = .ok ()) :
    before.library.definitions.find? d.name = none := by
  obtain ⟨_, hd, _⟩ := Script.wellScoped_append.mp (Script.wellScoped_of_resolve h)
  have hmatches := (Visible.Matches.library before).definitions d.name
  simpa using mt hmatches.mpr (Definition.WellScoped.name hd)

/-- A definition that is not known cannot be cited. -/
theorem Verify.claim_of_unknownDefinition (h : v.library.definitions.find? x = none) :
    ∃ w, (claim depth n e (some (.definition x))).run v =
      (.error (.name n (.unknownDefinition x)), w) := by
  have h : v.definitions.find? x = none := h
  have hcite : (citeDefinition n x).run (v.withFacts (v.knowledge.facts.enter "Statement")) =
      (.error (.name n (.unknownDefinition x)), v.withFacts (v.knowledge.facts.enter "Statement")) := by
    refine bind_run_error.mpr (.inr ⟨_, _, rfl, ?_⟩)
    simp only [Verification.withFacts, h]
    rfl
  exact ⟨_, claim_of_cite (by simp) hcite⟩

-- ---------------------------------------------------------------- what resolved scripts cite

namespace Script

/-- Verification comes to a claim in the proof of a definition that cites the definition itself. -/
inductive CitesItself (depth : Nat) (script : Script) (line : Nat) : String → Prop
  | intro {before after : Script} : script = before ++ .ofDefinition d :: after →
    Verify.Executes depth before (.ofDefinition d) route a u →
    a.Claims line e (some (.definition d.name)) → CitesItself depth script line d.name

/-- Verification comes to a reference with as many arguments as there are parameters, and they cannot be
put into one of the sentences of the theorem. -/
inductive Misfits (depth : Nat) (script : Script) (line : Nat) (cause : SubstitutionError) : Prop
  | intro {before after : Script} : script = before ++ d :: after →
    Verify.Executes depth before d route a u → a.Claims line e (some (.instantiation x args)) →
    before.library.theorems.find? x = some t → t.parameters.length = args.length →
    s ∈ t.hypothesis :: t.requirements → (t.instantiation args).apply s.expr = .error cause →
    Misfits depth script line cause

variable {script before after : Script}

/-- The theorem that a resolved reference cites is known, and has as many parameters as there are
arguments. -/
theorem theorem_found (hscript : Script.resolve (before ++ d :: after) settings = .ok ())
    (h : Verify.Executes depth before d route a u) (ha : a.Claims n e (some (.instantiation x args))) :
    ∃ t, before.library.theorems.find? x = some t ∧ t.parameters.length = args.length := by
  have hresolved : (before.foldl Visible.after .nothing).theorems x = some args.length := by
    have h := h.resolved hscript ha
    cases d <;> exact h
  rw [(Visible.Matches.library before).theorems] at hresolved
  exact Option.map_eq_some_iff.mp hresolved

/-- The definition that a resolved justification cites is known, or it is the one being proved. -/
theorem definition_found (hscript : Script.resolve (before ++ d :: after) settings = .ok ())
    (h : Verify.Executes depth before d route a u) (ha : a.Claims n e (some (.definition x))) :
    (before.library.definitions.find? x).isSome ∨ ∃ own, d = .ofDefinition own ∧ own.name = x := by
  have hmatches := (Visible.Matches.library before).definitions x
  have h := h.resolved hscript ha
  cases d with
  | ofTheorem t => exact .inl (hmatches.mp h)
  | ofDefinition d =>
    rcases h with rfl | h
    · exact .inr ⟨d, rfl, rfl⟩
    · exact .inl (hmatches.mp h)

/-- Verification of a resolved script finds all theorems that are cited, each with as many parameters as
there are arguments, and all definitions except those cited in their own proof. -/
theorem references_found (h : Script.resolve script settings = .ok ()) :
    (∀ line fault, script.verify settings = .error (.name line fault) ↔
      ∃ x, fault = .unknownDefinition x ∧ script.CitesItself settings.equalityDepth line x) ∧
    ∀ line fault, script.verify settings = .error (.arity line fault) →
      ∃ cause, fault = .misfit cause ∧ script.Misfits settings.equalityDepth line cause := by
  -- names and numbers of arguments matter in the citations of steps only, not for a hypothesis
  refine ⟨fun line fault => ⟨fun hverify => ?_, ?_⟩, fun line fault hverify => ?_⟩
  · cases rejects_of_verify hverify with
    | step hsplit hexecutes ha hrejects =>
      subst hsplit
      cases hrejects with
      | unknownDefinition hx =>
        rcases definition_found h hexecutes ha with hsome | ⟨d, rfl, rfl⟩
        · simp [hx] at hsome
        · exact ⟨_, rfl, .intro rfl hexecutes ha⟩
      | unknownTheorem hx =>
        obtain ⟨t, ht, _⟩ := theorem_found h hexecutes ha
        cases hx.symm.trans ht
    | hypothesis _ hrejects => cases hrejects
  · rintro ⟨x, rfl, hcites⟩
    cases hcites with
    | intro hsplit hexecutes ha =>
      subst hsplit
      have hunknown := definition_unknown h
      rw [← hexecutes.library] at hunknown
      obtain ⟨w, hclaim⟩ := Verify.claim_of_unknownDefinition hunknown
      exact verify_of_executes hexecutes ha hclaim
  · cases rejects_of_verify hverify with
    | step hsplit hexecutes ha hrejects =>
      subst hsplit
      cases hrejects with
      | count ht hcount =>
        obtain ⟨t, ht', hlength⟩ := theorem_found h hexecutes ha
        cases ht.symm.trans ht'
        exact absurd hlength hcount
      | misfit ht hs hcause =>
        obtain ⟨t, ht', hlength⟩ := theorem_found h hexecutes ha
        cases ht.symm.trans ht'
        exact ⟨_, rfl, .intro rfl hexecutes ha ht hlength hs hcause⟩
    | hypothesis _ hrejects => cases hrejects

/-- A theorem about a function is cited with a tuple in its place. -/
def tupleForFunction : Script := [
  .ofTheorem {
    name := "T", line := 1, parameters := ["P", "a"], requirements := [⟨2, .call "P" [.var "a"]⟩]
    hypothesis := ⟨3, .call "P" [.var "a"]⟩, proof := [] },
  .ofTheorem {
    name := "U", line := 6, parameters := ["a"], requirements := []
    hypothesis := ⟨7, .binary .equals (.var "a") (.var "a")⟩
    proof := [.claim 9 (.binary .equals (.var "a") (.var "a"))
      (some (.instantiation "T" [.group .tuple [.var "a"], .var "a"]))] }]

theorem references_found_tupleForFunction :
    Script.resolve tupleForFunction {} = .ok () ∧
      Script.verify tupleForFunction {} =
        .error (.arity 9 (.misfit (.notAFunction "P" (.group .tuple [.var "a"])))) ∧
      Misfits 2 tupleForFunction 9 (.notAFunction "P" (.group .tuple [.var "a"])) := by
  have hresolve : Script.resolve tupleForFunction {} = .ok () := by rfl
  have hverify : Script.verify tupleForFunction {} =
      .error (.arity 9 (.misfit (.notAFunction "P" (.group .tuple [.var "a"])))) := by decide +kernel
  obtain ⟨cause, hcause, hmisfits⟩ := (references_found hresolve).2 9 _ hverify
  cases hcause
  exact ⟨hresolve, hverify, hmisfits⟩

/-- A definition is cited in its own proof, where name resolution knows it and verification does
not. -/
theorem own_definition_not_found :
    let script : Script := [.ofDefinition {
      name := "D", line := 1, rules := [⟨2, .binary .equals (.var "D") (.var "D")⟩]
      proof := [.claim 5 (.binary .equals (.var "D") (.var "D")) (some (.definition "D"))] }]
    script.resolve {} = .ok () ∧ script.verify {} = .error (.name 5 (.unknownDefinition "D")) := by
  exact ⟨rfl, rfl⟩

end Script

end ProofScript
