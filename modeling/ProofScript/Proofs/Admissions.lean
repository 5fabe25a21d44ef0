import Mathlib.Data.List.Forall2
import ProofScript.Proofs.RecordedFacts

/-!
# What is admitted is reported

Verification keeps the line of the first admission while it goes through the blocks of a proof, and an
admission may leave many of them at once. Main statement: the line that is reported for a declaration
is the first one at which its text admits something, in the order of execution.
-/

namespace ProofScript

-- ---------------------------------------------------------------- the order of execution

namespace Step

/-- Is something accepted at this step without being shown? The blocks inside it do not count. -/
def isAdmission : Step → Bool
  | claim _ _ reason | choose _ _ _ reason => reason = some .admitted
  | cases .. | check _ => false
  | admitted _ => true

mutual
/-- The step and those inside it in the order of execution. The common block of a case distinction is
executed after each of the branches. -/
def course : Step → List Step
  | claim n e reason => [.claim n e reason]
  | choose n x e reason => [.choose n x e reason]
  | cases n c yes no both =>
    .cases n c yes no both :: (courseAll yes ++ courseAll both ++ (courseAll no ++ courseAll both))
  | check n => [.check n]
  | admitted n => [.admitted n]
def courseAll : List Step → List Step
  | [] => []
  | s :: rest => s.course ++ courseAll rest
end

/-- The line of the first admission in a list of steps. -/
def firstAdmission (steps : List Step) : Option Nat := (steps.find? isAdmission).map line

theorem firstAdmission_append (before after : List Step) :
    firstAdmission (before ++ after) = (firstAdmission before).or (firstAdmission after) := by
  unfold firstAdmission
  rw [List.find?_append]
  cases before.find? isAdmission <;> rfl

theorem firstAdmission_isSome :
    (firstAdmission steps).isSome = true ↔ ∃ s ∈ steps, s.isAdmission = true := by
  simp [firstAdmission]

/-- The steps that are executed are those of the block and of the blocks inside. -/
theorem mem_courseAll : s ∈ courseAll steps ↔ s.StandsIn steps := by
  constructor
  · intro h
    induction steps using Step.blockInduction with
    | nil => cases h
    | claim n e reason rest ih | choose n x e reason rest ih | check n rest ih | admitted n rest ih =>
      rcases List.mem_cons.mp h with rfl | h
      · exact .here
      · exact .later (ih h)
    | cases n c yes no both rest ihyes ihno ihboth ih =>
      simp only [courseAll, course, List.mem_append, List.mem_cons] at h
      rcases h with (rfl | (h | h) | h | h) | h
      · exact .here
      · exact .yes (ihyes h)
      · exact .both (ihboth h)
      · exact .no (ihno h)
      · exact .both (ihboth h)
      · exact .later (ih h)
  · intro h
    induction h with
    | here => cases s <;> simp [courseAll, course]
    | later _ ih => simp [courseAll, ih]
    | yes _ ih | no _ ih | both _ ih => simp [courseAll, course, ih]

end Step

namespace Verify

-- ---------------------------------------------------------------- what is noted

/-- A run that succeeds notes the line, if there is one and none was noted before. It is not cut short
without such a line. -/
def Notes (m : Verify Outcome) (line? : Option Nat) : Prop :=
  ∀ v w outcome, v.knowledge.refuting = false → m.run v = (.ok outcome, w) →
    w.admittedAt = v.admittedAt.or line? ∧ (outcome.stopped = true → line?.isSome = true)

theorem claim_admittedAt (hflag : v.knowledge.refuting = false)
    (h : (claim depth line e reason).run v = (.ok (), w)) :
    w.admittedAt = v.admittedAt.or (if reason = some .admitted then some line else none) := by
  split
  · rename_i hreason
    rw [hreason] at h
    cases h
    exact Option.orElse_eq_or ..
  · rename_i hreason
    obtain ⟨rfl, _⟩ := (claim_run_cases hflag h).resolve_left fun h => hreason h.1
    rw [Option.or_none]

/-- A step that makes a claim notes its line if the claim is admitted. -/
theorem claims_note {s : Step} (hs : s.Claims n e reason) :
    Notes (step depth s) (Step.firstAdmission s.course) := by
  have hline : Step.firstAdmission s.course = if reason = some .admitted then some n else none := by
    cases hs <;> by_cases hreason : reason = some .admitted <;>
      simp [Step.firstAdmission, Step.course, Step.isAdmission, Step.line, hreason]
  intro v w outcome hflag h
  obtain ⟨u, hclaim, ho, _, rfl⟩ := step_run_ok hs h
  have hu : u.admittedAt = _ := claim_admittedAt hflag hclaim
  rw [hline, ho]
  exact ⟨hu, by simp⟩

/-- A branch notes what its own block notes, and then what the common one does. -/
theorem branch_notes {own common : Verify Outcome} (htame : Tame own) (hown : Notes own line?)
    (hcommon : Notes common line'?) : Notes (branch tag c own common) (line?.or line'?) := by
  intro v w outcome hflag h
  obtain ⟨first, u, x, hfirst, hrest, _, rfl⟩ := branch_run_ok h
  obtain ⟨hu, hcut⟩ := hown (v.inside tag c) u first hflag hfirst
  have hv : (v.inside tag c).admittedAt = v.admittedAt := rfl
  rw [hv] at hu
  rcases hrest with ⟨hstopped, rfl, rfl⟩ | ⟨_, hsecond⟩
  -- The common block is not run, but its line would come second anyway.
  · rw [Option.or_of_isSome (hcut hstopped)]
    exact ⟨hu, hcut⟩
  · obtain ⟨hx, hcut'⟩ := hcommon u x outcome ((htame.steady hfirst).refuting.trans hflag) hsecond
    rw [hu, Option.or_assoc] at hx
    exact ⟨hx, fun hstopped => by simp [hcut' hstopped]⟩

/-- A case distinction notes what its two branches note. -/
theorem cases_notes {yes no both : List Step}
    (hyes : Notes (block depth yes) (Step.firstAdmission (Step.courseAll yes)))
    (hno : Notes (block depth no) (Step.firstAdmission (Step.courseAll no)))
    (hboth : Notes (block depth both) (Step.firstAdmission (Step.courseAll both))) :
    Notes (step depth (.cases n c yes no both))
      (Step.firstAdmission (Step.course (.cases n c yes no both))) := by
  have hcourse : Step.firstAdmission (Step.course (.cases n c yes no both)) =
      (Step.firstAdmission (Step.courseAll yes ++ Step.courseAll both)).or
        (Step.firstAdmission (Step.courseAll no ++ Step.courseAll both)) :=
    Step.firstAdmission_append _ _
  rw [hcourse, Step.firstAdmission_append, Step.firstAdmission_append]
  have hif : Notes (branch "If" c _ _) _ := branch_notes (tame_block depth yes) hyes hboth
  have helse : Notes (branch "Else" (.not c) _ _) _ := branch_notes (tame_block depth no) hno hboth
  intro v w outcome hflag h
  obtain ⟨first, u, hfirst, hrest⟩ := cases_run_ok h
  obtain ⟨hu, hcut⟩ := hif v u first hflag hfirst
  rcases hrest with ⟨hstopped, rfl⟩ | ⟨_, second, x, hsecond, ho, _, rfl⟩
  · rw [Option.or_of_isSome (hcut hstopped)]
    exact ⟨hu, fun _ => hcut hstopped⟩
  · obtain ⟨hx, hcut'⟩ := helse u x second ((branch_steady hfirst).refuting.trans hflag) hsecond
    rw [hu, Option.or_assoc] at hx
    exact ⟨hx, fun hstopped => by simp [hcut' (ho ▸ hstopped)]⟩

/-- A block notes what its first step notes, and then what the rest does. -/
theorem cons_notes {s : Step} {rest : List Step}
    (hs : Notes (step depth s) (Step.firstAdmission s.course))
    (hrest : Notes (block depth rest) (Step.firstAdmission (Step.courseAll rest))) :
    Notes (block depth (s :: rest)) (Step.firstAdmission (Step.courseAll (s :: rest))) := by
  rw [Step.courseAll, Step.firstAdmission_append]
  intro v w outcome hflag h
  obtain ⟨first, u, hfirst, hsecond⟩ := cons_run_ok h
  obtain ⟨hu, hcut⟩ := hs v u first hflag hfirst
  rcases hsecond with ⟨hstopped, rfl, rfl⟩ | ⟨_, second, hsecond, ho⟩
  · rw [Option.or_of_isSome (hcut hstopped)]
    exact ⟨hu, hcut⟩
  · obtain ⟨hw, hcut'⟩ := hrest u w second (step_flag hfirst hflag) hsecond
    rw [hu, Option.or_assoc] at hw
    exact ⟨hw, fun hstopped => by simp [hcut' (ho ▸ hstopped)]⟩

/-- What a block notes can be read off its text. -/
theorem block_notes (depth : Nat) (steps : List Step) :
    Notes (block depth steps) (Step.firstAdmission (Step.courseAll steps)) := by
  induction steps using Step.blockInduction with
  | nil =>
    intro v w outcome _ h
    obtain ⟨rfl, rfl⟩ := pure_run_ok.mp h
    exact ⟨Option.or_none.symm, nofun⟩
  | claim n e reason rest ih => exact cons_notes (claims_note .claim) ih
  | choose n x e reason rest ih => exact cons_notes (claims_note .choose) ih
  | cases n c yes no both rest ihyes ihno ihboth ih => exact cons_notes (cases_notes ihyes ihno ihboth) ih
  | check n rest ih =>
    refine cons_notes (fun v w outcome _ h => ?_) ih
    cases h
    exact ⟨Option.or_none.symm, nofun⟩
  | admitted n rest ih =>
    refine cons_notes (fun v w outcome _ h => ?_) ih
    cases h
    exact ⟨Option.orElse_eq_or .., fun _ => rfl⟩

-- ---------------------------------------------------------------- declarations

/-- A proof that starts with nothing noted ends with what its steps note. -/
theorem proof_admittedAt {steps : Verify Outcome} {goal : Verify Unit} (htame : Tame steps)
    (hsteps : Notes steps line?)
    (hgoal : ∀ u w, u.knowledge.refuting = false → goal.run u = (.ok (), w) → w.admittedAt = u.admittedAt)
    (hflag : v.knowledge.refuting = false)
    (h : (proof tag assumptions steps goal).run v = (.ok known, w)) : w.admittedAt = line? := by
  obtain ⟨outcome, u, houtcome, hending⟩ := proof_run_ok h
  obtain ⟨hu, _⟩ := hsteps (opening tag assumptions v) u outcome hflag houtcome
  have hopening : (opening tag assumptions v).admittedAt = none := rfl
  rw [hopening, Option.none_or] at hu
  obtain ⟨x, ⟨_, rfl⟩ | ⟨_, hrun⟩, _, rfl⟩ := ending_run_ok hending
  · exact hu
  · exact (hgoal u x ((htame.steady houtcome).refuting.trans hflag) hrun).trans hu

theorem goal_admittedAt (hflag : u.knowledge.refuting = false) (h : (goal depth d).run u = (.ok (), w)) :
    w.admittedAt = u.admittedAt := by
  cases d with
  | ofTheorem t => simpa using claim_admittedAt hflag h
  | ofDefinition d => rw [existence_run_ok h]

/-- The entry of a declaration that is verified tells the first admission in its text. -/
theorem declaration_admits (h : (declaration depth d).run v = (.ok (), w)) (hv : v.knowledge = {}) :
    w.report.entries = v.report.entries ++ [d.entry (Step.firstAdmission (Step.courseAll d.proof))] := by
  have hflag : v.knowledge.refuting = false := by rw [hv]
  obtain ⟨admittedAt, hentries⟩ := declaration_records h hv
  rw [declaration_eq] at h
  obtain ⟨known, u, hproof, h⟩ := bind_run_ok.mp h
  have hu := proof_admittedAt (tame_block _ _) (block_notes _ _) (fun _ _ => goal_admittedAt) hflag hproof
  have hrecorded : w.report.entries =
      (u.declare d).report.entries ++ [⟨d.kind, d.name, d.line, (u.declare d).admittedAt, known⟩] := by
    cases h
    rfl
  have hentry := (List.append_inj' (hentries.symm.trans hrecorded) rfl).2
  have hline : admittedAt = u.admittedAt := by
    cases d <;> exact congrArg Entry.admittedAt (List.singleton_inj.mp hentry)
  rw [hentries, hline, hu]

/-- Declarations that are verified add their entries in order. -/
theorem declarations_admit {script : Script} (h : (script.forM (declaration depth)).run v = (.ok (), w))
    (hv : v.knowledge = {}) : w.report.entries = v.report.entries ++
      script.map fun d => d.entry (Step.firstAdmission (Step.courseAll d.proof)) := by
  induction script generalizing v with
  | nil =>
    obtain ⟨_, rfl⟩ := pure_run_ok.mp h
    exact (List.append_nil _).symm
  | cons d rest ih =>
    obtain ⟨_, u, hd, h⟩ := bind_run_ok.mp h
    rw [ih h (declaration_leaves hd hv).1, declaration_admits hd hv, List.append_assoc]
    rfl

end Verify

namespace Script

/-- The entries of a report are those of the declarations, in order. An entry says that something was
admitted exactly if something is admitted in the proof, at any depth, and it tells the line of the
first such step in the order of execution. -/
theorem admissions_reported (script : Script) (settings : Settings) (report : Report)
    (h : script.verify settings = .ok report) :
    List.Forall₂ (fun d entry =>
      entry.kind = d.kind ∧ entry.name = d.name ∧ entry.line = d.line ∧
      (entry.admittedAt.isSome = true ↔ ∃ s : Step, s.StandsIn d.proof ∧ s.isAdmission = true) ∧
      entry.admittedAt = ((Step.courseAll d.proof).find? Step.isAdmission).map Step.line)
      script report.entries := by
  have hentries : report.entries =
      script.map fun d => d.entry (Step.firstAdmission (Step.courseAll d.proof)) := by
    obtain ⟨w, hrun, rfl⟩ := verify_ok_iff.mp h
    exact Verify.declarations_admit hrun rfl
  rw [hentries, List.forall₂_map_right_iff, List.forall₂_same]
  intro d _
  refine ⟨rfl, rfl, rfl, ?_, rfl⟩
  simp only [← Step.mem_courseAll]
  exact Step.firstAdmission_isSome

/-- The first admission to be executed stands in the common block, below the one in the second case. -/
def commonFirst : Theorem where
  name := "T"
  line := 1
  parameters := ["P"]
  requirements := []
  hypothesis := ⟨2, .var "P"⟩
  proof := [
    .claim 4 (.binary .equals (.var "P") (.var "P")) none,
    .cases 5 (.var "P") [.check 7] [.claim 10 (.var "P") (some .admitted), .admitted 11]
      [.claim 14 (.var "P") (some .admitted)],
    .claim 16 (.var "P") none]

theorem admissions_reported_commonFirst :
    let script : Script := [.ofTheorem commonFirst, .ofDefinition ⟨"D", 18, [], []⟩]
    ∃ report, script.verify {} = .ok report ∧ report.entries.map Entry.name = ["T", "D"] ∧
      report.entries.map Entry.admittedAt = [some 14, none] := by
  intro script
  have hverified : (script.verify {}).isOk = true := by decide +kernel
  cases hreport : script.verify {} with
  | error cause =>
    rw [hreport] at hverified
    cases hverified
  | ok report =>
    refine ⟨report, rfl, ?_⟩
    obtain ⟨first, _, ⟨_, hname, _, _, hfirst⟩, hrest, hentries⟩ :=
      List.forall₂_cons_left_iff.mp (admissions_reported script {} report hreport)
    obtain ⟨second, _, ⟨_, hname', _, _, hsecond⟩, hnone, rfl⟩ := List.forall₂_cons_left_iff.mp hrest
    rw [hentries, List.forall₂_nil_left_iff.mp hnone]
    simp only [List.map_cons, List.map_nil, hname, hname', hfirst, hsecond]
    exact ⟨rfl, rfl⟩

end Script

end ProofScript
