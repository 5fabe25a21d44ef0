import Mathlib.Data.Prod.Basic
import ProofScript.Proofs.Rejections
import ProofScript.Proofs.Undisturbed

/-!
# What a proof leaves behind

Scopes open and close with claims, branches and declarations, and an admission leaves all of them at
once. Main statement: nothing of this shows afterwards. The facts recorded for a declaration are its
assumptions and what its text adds to them, no fact is left for the next declaration, and no scope is
closed out of order.
-/

namespace ProofScript

namespace Declaration

def kind : Declaration → DeclarationKind
  | ofTheorem _ => .proposition
  | ofDefinition _ => .definition

def name : Declaration → String
  | ofTheorem t => t.name
  | ofDefinition d => d.name

def line : Declaration → Nat
  | ofTheorem t => t.line
  | ofDefinition d => d.line

/-- The entry of a declaration, by its text. Only what was admitted is told by the verification. -/
def entry (d : Declaration) (admittedAt : Option Nat) : Entry where
  kind := d.kind
  name := d.name
  line := d.line
  admittedAt := admittedAt
  facts := d.assumptions ++ Step.lasting d.proof

end Declaration

/-- The same state with one more declaration to cite. -/
def Verification.declare (v : Verification) : Declaration → Verification
  | .ofTheorem t => { v with theorems := v.theorems.insert t.name t }
  | .ofDefinition d => { v with definitions := v.definitions.insert d.name d }

namespace Verify

-- ---------------------------------------------------------------- runs that succeed

theorem inquire_state {m : Inquiry α} (h : (inquire m).run v = (a, w)) :
    ∃ knowledge, w = { v with knowledge } :=
  ⟨_, (congrArg Prod.snd h).symm⟩

theorem step_run_ok {s : Step} (hs : s.Claims n e reason) (h : (step depth s).run v = (.ok outcome, w)) :
    ∃ u, (claim depth n e reason).run v = (.ok (), u) ∧ outcome.stopped = false ∧
      ∃ knowledge, w = { u with knowledge } := by
  have hclaim {d : Expr} (h : (do
      claim depth n e reason
      assume d
      return { concluded := [d] } : Verify Outcome).run v = (.ok outcome, w)) :
      ∃ u, (claim depth n e reason).run v = (.ok (), u) ∧ outcome.stopped = false ∧
        ∃ knowledge, w = { u with knowledge } := by
    obtain ⟨_, u, hclaim, h⟩ := bind_run_ok.mp h
    refine ⟨u, hclaim, ?_⟩
    cases h
    exact ⟨rfl, _, rfl⟩
  cases hs with
  | claim | choose => exact hclaim h

/-- A branch ends with its own block if that is cut short, and else with the common one. -/
theorem branch_run_ok {own common : Verify Outcome} (h : (branch tag c own common).run v = (.ok outcome, w)) :
    ∃ first u x, own.run (v.inside tag c) = (.ok first, u) ∧
      (first.stopped = true ∧ outcome = first ∧ x = u ∨
        first.stopped = false ∧ common.run u = (.ok outcome, x)) ∧
      ∃ knowledge, w = { x with knowledge } := by
  obtain ⟨_, _, henter, h⟩ := bind_run_ok.mp h
  cases henter
  obtain ⟨_, _, hassume, h⟩ := bind_run_ok.mp h
  cases hassume
  obtain ⟨first, u, hfirst, h⟩ := bind_run_ok.mp h
  have hclose {x : Verification} {o : Outcome} (h : (do
      exit tag
      return o : Verify Outcome).run x = (.ok outcome, w)) :
      outcome = o ∧ ∃ knowledge, w = { x with knowledge } := by
    obtain ⟨_, y, hexit, h⟩ := bind_run_ok.mp h
    obtain ⟨rfl, rfl⟩ := pure_run_ok.mp h
    exact ⟨rfl, inquire_state hexit⟩
  split at h
  · rename_i hstopped
    obtain ⟨_, _, hpure, h⟩ := bind_run_ok.mp h
    obtain ⟨rfl, rfl⟩ := pure_run_ok.mp hpure
    obtain ⟨rfl, hw⟩ := hclose h
    exact ⟨_, u, u, hfirst, .inl ⟨hstopped, rfl, rfl⟩, hw⟩
  · rename_i hstopped
    obtain ⟨second, x, hsecond, h⟩ := bind_run_ok.mp h
    obtain ⟨rfl, hw⟩ := hclose h
    exact ⟨first, u, x, hfirst, .inr ⟨by simpa using hstopped, hsecond⟩, hw⟩

/-- A case distinction is cut short by either branch. -/
theorem cases_run_ok (h : (step depth (.cases n c yes no both)).run v = (.ok outcome, w)) :
    ∃ first u, (branch "If" c (block depth yes) (block depth both)).run v = (.ok first, u) ∧
      (first.stopped = true ∧ w = u ∨
        first.stopped = false ∧ ∃ second x,
          (branch "Else" (.not c) (block depth no) (block depth both)).run u = (.ok second, x) ∧
          outcome.stopped = second.stopped ∧ ∃ knowledge, w = { x with knowledge }) := by
  obtain ⟨first, u, hfirst, h⟩ := bind_run_ok.mp h
  refine ⟨first, u, hfirst, ?_⟩
  split at h
  · rename_i hstopped
    obtain ⟨rfl, rfl⟩ := pure_run_ok.mp h
    exact .inl ⟨hstopped, rfl⟩
  rename_i hstopped
  obtain ⟨second, x, hsecond, h⟩ := bind_run_ok.mp h
  refine .inr ⟨by simpa using hstopped, second, x, hsecond, ?_⟩
  split at h
  · rename_i hstopped
    obtain ⟨rfl, rfl⟩ := pure_run_ok.mp h
    exact ⟨hstopped.symm, _, rfl⟩
  · obtain ⟨_, _, hforM, h⟩ := bind_run_ok.mp h
    rw [run_assumeAll] at hforM
    cases hforM
    obtain ⟨rfl, rfl⟩ := pure_run_ok.mp h
    exact ⟨rfl, _, rfl⟩

theorem cons_run_ok (h : (block depth (s :: rest)).run v = (.ok outcome, w)) :
    ∃ first u, (step depth s).run v = (.ok first, u) ∧
      (first.stopped = true ∧ outcome = first ∧ w = u ∨
        first.stopped = false ∧ ∃ second, (block depth rest).run u = (.ok second, w) ∧
          outcome.stopped = second.stopped) := by
  obtain ⟨first, u, hfirst, h⟩ := bind_run_ok.mp h
  refine ⟨first, u, hfirst, ?_⟩
  unfold Outcome.andThen at h
  split at h
  · rename_i hstopped
    obtain ⟨rfl, rfl⟩ := pure_run_ok.mp h
    exact .inl ⟨hstopped, rfl, rfl⟩
  · rename_i hstopped
    obtain ⟨second, x, hsecond, h⟩ := bind_run_ok.mp h
    obtain ⟨rfl, rfl⟩ := pure_run_ok.mp h
    exact .inr ⟨by simpa using hstopped, second, hsecond, rfl⟩

/-- A proof ends with its steps if they are cut short, and else with its goal. -/
theorem ending_run_ok {goal : Verify Unit} (h : (ending tag goal outcome).run u = (.ok known, w)) :
    ∃ x, (outcome.stopped = true ∧ x = u ∨ outcome.stopped = false ∧ goal.run u = (.ok (), x)) ∧
      ∃ knowledge, w = { x with knowledge } := by
  have hclose {x : Verification} (h : (do
      let facts ← facts
      exit tag
      return facts : Verify _).run x = (.ok known, w)) : ∃ knowledge, w = { x with knowledge } := by
    obtain ⟨_, _, hknown, h⟩ := bind_run_ok.mp h
    cases hknown
    obtain ⟨_, _, hexit, h⟩ := bind_run_ok.mp h
    obtain ⟨_, rfl⟩ := pure_run_ok.mp h
    exact inquire_state hexit
  unfold ending at h
  dsimp only at h
  split at h
  · rename_i hstopped
    exact ⟨u, .inl ⟨hstopped, rfl⟩, hclose h⟩
  · rename_i hstopped
    obtain ⟨_, x, hgoal, h⟩ := bind_run_ok.mp h
    exact ⟨x, .inr ⟨by simpa using hstopped, hgoal⟩, hclose h⟩

-- ---------------------------------------------------------------- entries

/-- Theorems and definitions are verified in the same way. -/
theorem declaration_eq (depth : Nat) (d : Declaration) : declaration depth d = (do
    let facts ← proof d.tag d.assumptions (block depth d.proof) (goal depth d)
    modify (·.declare d)
    record d.kind d.name d.line facts) := by
  cases d <;> rfl

/-- A declaration that is verified adds its entry to the report. -/
theorem declaration_records (h : (declaration depth d).run v = (.ok (), w)) (hv : v.knowledge = {}) :
    ∃ admittedAt, w.report.entries = v.report.entries ++ [d.entry admittedAt] := by
  have hflag : v.knowledge.refuting = false := by rw [hv]
  have hitems : v.knowledge.facts.items = [] := by rw [hv]; rfl
  cases d with
  | ofTheorem t =>
    obtain ⟨known, u, hproof, h⟩ := bind_run_ok.mp h
    cases h
    obtain ⟨_, rfl⟩ := proof_facts (block_leaves _ _) (tame_block _ _)
      (fun u w hflag h => claim_facts hflag h) hflag hproof
    have hentries := (proof_steady (tame_block _ _) .claim hproof).entries
    refine ⟨u.admittedAt, (congrArg (· ++ _) hentries).trans ?_⟩
    rw [hitems]
    rfl
  | ofDefinition d =>
    obtain ⟨known, u, hproof, h⟩ := bind_run_ok.mp h
    cases h
    obtain ⟨_, rfl⟩ := proof_facts (block_leaves _ _) (tame_block _ _)
      (fun u w _ h => by rw [existence_run_ok h]) hflag hproof
    have hentries := (proof_steady (tame_block _ _) (.existence d) hproof).entries
    refine ⟨u.admittedAt, (congrArg (· ++ _) hentries).trans ?_⟩
    rw [hitems]
    rfl

theorem forM_append_run_ok {as bs : List α} {f : α → Verify Unit} :
    ((as ++ bs).forM f).run v = (.ok (), w) ↔
      ∃ u, (as.forM f).run v = (.ok (), u) ∧ (bs.forM f).run u = (.ok (), w) := by
  rw [List.forM_eq_forM, List.forM_append, bind_run_ok]
  exact ⟨fun ⟨_, u, h⟩ => ⟨u, h⟩, fun ⟨u, h⟩ => ⟨(), u, h⟩⟩

/-- Declarations that are verified add their entries in order. -/
theorem declarations_record {script : Script} (h : (script.forM (declaration depth)).run v = (.ok (), w))
    (hv : v.knowledge = {}) :
    ∃ admissions, admissions.length = script.length ∧
      w.report.entries = v.report.entries ++ List.zipWith Declaration.entry script admissions := by
  induction script generalizing v with
  | nil =>
    obtain ⟨_, rfl⟩ := pure_run_ok.mp h
    exact ⟨[], rfl, by simp⟩
  | cons d rest ih =>
    obtain ⟨_, u, hd, h⟩ := bind_run_ok.mp h
    obtain ⟨admittedAt, hentries⟩ := declaration_records hd hv
    obtain ⟨admissions, hlength, hentries'⟩ := ih h (declaration_leaves hd hv).1
    refine ⟨admittedAt :: admissions, by simp [hlength], ?_⟩
    rw [hentries', hentries, List.append_assoc]
    rfl

end Verify

namespace Script

/-- Verification never closes a scope out of order. -/
theorem verify_ne_scope (script : Script) (settings : Settings) (mismatch : ScopeMismatch) :
    script.verify settings ≠ .error (.internal (.scope mismatch)) := by
  intro h
  have hjudge (e : Expr) (Γ : List Expr) :
      Reading.judge settings.equalityDepth e ⟨Γ, false⟩ ≠ .error (.scope mismatch) :=
    Reading.noMismatch_judge _ e _ mismatch
  cases rejects_of_verify h with
  | step _ _ _ hrejects =>
    cases hrejects with
    | requirementFault _ _ _ hfault | fault _ hfault => exact hjudge _ _ hfault
  | hypothesis _ hrejects =>
    cases hrejects with
    | fault _ hfault => exact hjudge _ _ hfault
  | instanceFault _ _ hfault => exact hjudge _ _ hfault

/-- What verification records of a declaration can be read off the text: the facts of its entry are its
assumptions and what its proof adds, up to the step where the rest is admitted. Before and after each
declaration there is one scope, and it is empty. No scope is ever closed out of order. -/
theorem facts_recorded (script : Script) (settings : Settings) :
    (∀ before d after, script = before ++ d :: after →
      ∀ v, (before.forM (Verify.declaration settings.equalityDepth)).run {} = (.ok (), v) →
        v.knowledge.facts = {} ∧
        ∀ w, (Verify.declaration settings.equalityDepth d).run v = (.ok (), w) →
          w.knowledge.facts = {} ∧
          ∃ admittedAt, w.report.entries = v.report.entries ++ [d.entry admittedAt]) ∧
    (∀ report, script.verify settings = .ok report →
      ∃ admissions, admissions.length = script.length ∧
        report.entries = List.zipWith Declaration.entry script admissions) ∧
    ∀ mismatch, script.verify settings ≠ .error (.internal (.scope mismatch)) := by
  refine ⟨?_, ?_, verify_ne_scope script settings⟩
  · rintro before d after rfl v hbefore
    obtain ⟨hv, _⟩ := Verify.declarations_leave hbefore rfl
    refine ⟨by rw [hv], fun w hd => ⟨?_, Verify.declaration_records hd hv⟩⟩
    rw [(Verify.declaration_leaves hd hv).1]
  · intro report hreport
    unfold Script.verify at hreport
    split at hreport
    · rename_i w hrun
      cases hreport
      exact Verify.declarations_record hrun rfl
    · cases hreport

/-- The second case distinction is left by an admission inside its first case. What is stated there and
after it is unfounded. -/
def abandoned : Theorem where
  name := "T"
  line := 1
  parameters := ["P", "a", "b"]
  requirements := [⟨2, .var "P"⟩]
  hypothesis := ⟨3, .binary .equals (.var "a") (.var "b")⟩
  proof := [
    .cases 5 (.binary .equals (.var "a") (.var "b")) [.claim 7 (.binary .equals (.var "b") (.var "a")) none]
      [] [.claim 13 (.binary .equals (.var "a") (.var "a")) none],
    .check 15,
    .cases 16 (.var "P") [.cases 18 (.var "P") [.admitted 20] [] []] []
      [.claim 31 (.binary .equals (.var "a") (.var "b")) none],
    .claim 33 (.binary .equals (.var "a") (.var "b")) none]

theorem facts_recorded_abandoned :
    ∃ w, (Verify.declaration 2 (.ofTheorem abandoned)).run {} = (.ok (), w) ∧ w.knowledge.facts = {} ∧
      w.report.entries.map Entry.facts = [[.var "P", .binary .equals (.var "a") (.var "a")]] := by
  have hrun : ((Verify.declaration 2 (.ofTheorem abandoned)).run {}).1 = .ok () := by decide +kernel
  have hrun := Prod.fst_eq_iff.mp hrun
  obtain ⟨_, h⟩ := (facts_recorded [.ofTheorem abandoned] {}).1 [] _ [] rfl {} rfl
  obtain ⟨hfacts, admittedAt, hentries⟩ := h _ hrun
  exact ⟨_, hrun, hfacts, congrArg (List.map Entry.facts) hentries⟩

end Script

end ProofScript
