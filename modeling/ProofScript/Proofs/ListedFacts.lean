import Mathlib.Data.List.Induction
import ProofScript.Proofs.RecordedFacts

/-!
# What checks list

Main statement: each list of facts in a report is what was known where some check was executed. So what
checks list, too, can be read off the text.
-/

namespace ProofScript

namespace Verify

/-- The dump lists what is known at a check that `steps` come to from `v` on. -/
def Lists (depth : Nat) (steps : List Step) (v : Verification) (d : Dump) : Prop :=
  ∃ route n u, Reaches depth steps v route (.check n) u ∧ d = ⟨n, u.knowledge.facts.items⟩

theorem claim_report (hflag : v.knowledge.refuting = false)
    (h : (claim depth line e reason).run v = (.ok (), w)) : w.report = v.report := by
  rcases claim_run_cases hflag h with ⟨_, rfl⟩ | ⟨rfl, _⟩ <;> rfl

/-- Successful runs of the block list nothing but what is known at the checks it comes to. -/
def OnlyLists (depth : Nat) (steps : List Step) : Prop :=
  ∀ v outcome w, v.knowledge.refuting = false → (block depth steps).run v = (.ok outcome, w) →
    ∀ d ∈ w.report.dumps, d ∈ v.report.dumps ∨ Lists depth steps v d

/-- What a branch lists is listed by its own block or, unless that is cut short, by the common one. -/
theorem branch_lists (hown : OnlyLists depth own) (hcommon : OnlyLists depth common)
    (hflag : v.knowledge.refuting = false)
    (h : (branch tag c (block depth own) (block depth common)).run v = (.ok outcome, w))
    (hd : d ∈ w.report.dumps) :
    d ∈ v.report.dumps ∨ Lists depth own (v.inside tag c) d ∨
      ∃ first u, (block depth own).run (v.inside tag c) = (.ok first, u) ∧ first.stopped = false ∧
        Lists depth common u d := by
  obtain ⟨first, u, x, hfirst, hrest, _, rfl⟩ := branch_run_ok h
  have hu : d ∈ u.report.dumps → d ∈ v.report.dumps ∨ Lists depth own (v.inside tag c) d :=
    hown (v.inside tag c) first u hflag hfirst d
  rcases hrest with ⟨_, _, rfl⟩ | ⟨hstopped, hsecond⟩
  · exact (hu hd).imp_right .inl
  · rcases hcommon u outcome x (block_flag hfirst hflag) hsecond d hd with hd | hd
    · exact (hu hd).imp_right .inl
    · exact .inr (.inr ⟨first, u, hfirst, hstopped, hd⟩)

theorem cons_lists {s : Step} {rest : List Step}
    (hs : ∀ v first u, v.knowledge.refuting = false → (step depth s).run v = (.ok first, u) →
      ∀ d ∈ u.report.dumps, d ∈ v.report.dumps ∨ Lists depth (s :: rest) v d)
    (hrest : OnlyLists depth rest) : OnlyLists depth (s :: rest) := by
  intro v outcome w hflag h d hd
  obtain ⟨first, u, hfirst, ⟨_, _, rfl⟩ | ⟨hstopped, second, hsecond, _⟩⟩ := cons_run_ok h
  · exact hs v first w hflag hfirst d hd
  · rcases hrest u second w (step_flag hfirst hflag) hsecond d hd with hd | ⟨route, n, x, hreaches, hd⟩
    · exact hs v first u hflag hfirst d hd
    · exact .inr ⟨.past :: route, n, x, .past hfirst hstopped hreaches, hd⟩

/-- A step that makes a claim lists nothing. -/
theorem claims_list {s : Step} (hs : s.Claims n a reason) (hflag : v.knowledge.refuting = false)
    (h : (step depth s).run v = (.ok outcome, w)) : w.report = v.report := by
  obtain ⟨u, hclaim, _, _, rfl⟩ := step_run_ok hs h
  show u.report = v.report
  exact claim_report hflag hclaim

/-- Either branch of a case distinction may list something. -/
theorem cases_list (hyes : OnlyLists depth yes) (hno : OnlyLists depth no) (hboth : OnlyLists depth both)
    (hflag : v.knowledge.refuting = false)
    (h : (step depth (.cases n c yes no both)).run v = (.ok outcome, w)) (hd : d ∈ w.report.dumps) :
    d ∈ v.report.dumps ∨ Lists depth (.cases n c yes no both :: rest) v d := by
  obtain ⟨first, u, hfirst, hrest⟩ := cases_run_ok h
  have hu (hd : d ∈ u.report.dumps) :
      d ∈ v.report.dumps ∨ Lists depth (.cases n c yes no both :: rest) v d := by
    rcases branch_lists hyes hboth hflag hfirst hd with hd | ⟨route, n, x, hreaches, hd⟩ |
      ⟨o, y, hrun, ho, route, n, x, hreaches, hd⟩
    · exact .inl hd
    · exact .inr ⟨.yes :: route, n, x, .yes hreaches, hd⟩
    · exact .inr ⟨.afterYes :: route, n, x, .afterYes hrun ho hreaches, hd⟩
  rcases hrest with ⟨_, rfl⟩ | ⟨hstopped, second, x, hsecond, _, _, rfl⟩
  · exact hu hd
  · rcases branch_lists hno hboth ((branch_steady hfirst).refuting.trans hflag) hsecond hd with
      hd | ⟨route, n, x, hreaches, hd⟩ | ⟨o, y, hrun, ho, route, n, x, hreaches, hd⟩
    · exact hu hd
    · exact .inr ⟨.no :: route, n, x, .no hfirst hstopped hreaches, hd⟩
    · exact .inr ⟨.afterNo :: route, n, x, .afterNo hfirst hstopped hrun ho hreaches, hd⟩

theorem block_lists (depth : Nat) (steps : List Step) : OnlyLists depth steps := by
  induction steps using Step.blockInduction with
  | nil =>
    intro v outcome w _ h d hd
    obtain ⟨_, rfl⟩ := pure_run_ok.mp h
    exact .inl hd
  | claim n e reason rest ih =>
    exact cons_lists (fun v first u hflag h d hd => .inl (claims_list .claim hflag h ▸ hd)) ih
  | choose n x e reason rest ih =>
    exact cons_lists (fun v first u hflag h d hd => .inl (claims_list .choose hflag h ▸ hd)) ih
  | cases n c yes no both rest ihyes ihno ihboth ih =>
    exact cons_lists (fun v first u hflag h d => cases_list ihyes ihno ihboth hflag h) ih
  | check n rest ih =>
    refine cons_lists (fun v first u _ h d hd => ?_) ih
    cases h
    rcases List.mem_append.mp hd with hd | hd
    · exact .inl hd
    · exact .inr ⟨[], n, v, .here, List.mem_singleton.mp hd⟩
  | admitted n rest ih =>
    refine cons_lists (fun v first u _ h d hd => .inl ?_) ih
    cases h
    exact hd

-- ---------------------------------------------------------------- declarations

theorem goal_report (hflag : v.knowledge.refuting = false) (h : (goal depth d).run v = (.ok (), w)) :
    w.report = v.report := by
  cases d with
  | ofTheorem t => exact claim_report hflag h
  | ofDefinition d => rw [existence_run_ok h]

/-- A declaration lists nothing but what is known at the checks in its proof. -/
theorem declaration_lists (hflag : v.knowledge.refuting = false)
    (h : (declaration depth d).run v = (.ok (), w)) :
    ∀ dump ∈ w.report.dumps, dump ∈ v.report.dumps ∨
      Lists depth d.proof (opening d.tag d.assumptions v) dump := by
  rw [declaration_eq] at h
  obtain ⟨known, u, hproof, h⟩ := bind_run_ok.mp h
  have hw : w.report.dumps = u.report.dumps := by
    cases d <;> cases h <;> rfl
  obtain ⟨outcome, x, hblock, hending⟩ := proof_run_ok hproof
  have hu : u.report = x.report := by
    obtain ⟨y, hy, _, rfl⟩ := ending_run_ok hending
    show y.report = x.report
    rcases hy with ⟨_, rfl⟩ | ⟨_, hgoal⟩
    · rfl
    · exact goal_report (block_flag hblock hflag) hgoal
  rw [hw, hu]
  exact block_lists depth d.proof (opening d.tag d.assumptions v) outcome x hflag hblock

end Verify

/-- Each list of facts in a report is what was known where a check was executed. -/
theorem Script.dumps_listed {script : Script} {settings : Settings} {report : Report}
    (h : script.verify settings = .ok report) {dump : Dump} (hdump : dump ∈ report.dumps) :
    ∃ before d after route n u, script = before ++ d :: after ∧
      Verify.Executes settings.equalityDepth before d route (.check n) u ∧
      dump = ⟨n, u.knowledge.facts.items⟩ := by
  obtain ⟨w, hrun, rfl⟩ := verify_ok_iff.mp h
  clear h
  -- The declaration that lists something is the last one, or it is among those before.
  induction script using List.reverseRecOn generalizing w with
  | nil =>
    obtain ⟨_, rfl⟩ := Verify.pure_run_ok.mp hrun
    exact absurd hdump List.not_mem_nil
  | append_singleton before d ih =>
    obtain ⟨v, hbefore, hrun⟩ := Verify.forM_append_run_ok.mp hrun
    obtain ⟨_, x, hd, hrun⟩ := Verify.bind_run_ok.mp hrun
    obtain ⟨_, rfl⟩ := Verify.pure_run_ok.mp hrun
    have hflag : v.knowledge.refuting = false := by rw [(Verify.declarations_leave hbefore rfl).1]
    rcases Verify.declaration_lists hflag hd dump hdump with hdump | ⟨route, n, u, hreaches, hu⟩
    · obtain ⟨first, d', after, route, n, u, rfl, hu⟩ := ih v hbefore hdump
      exact ⟨first, d', after ++ [d], route, n, u, by simp, hu⟩
    · exact ⟨before, d, [], route, n, u, rfl, ⟨v, hbefore, hreaches⟩, hu⟩

end ProofScript
