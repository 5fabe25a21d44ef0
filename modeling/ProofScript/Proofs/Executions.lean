import ProofScript.Proofs.Checking
import ProofScript.Proofs.WellScoped

/-!
# The steps that verification comes to

A step is reached along a route: past steps that were verified, and into the blocks of case
distinctions. Main statement: the facts that are known where a route leads can be read off the text.
-/

namespace ProofScript

-- ---------------------------------------------------------------- routes

/-- One turn on the way to a step: past the step at hand, into one of its branches, or into its common
block after one of the branches. -/
inductive Turn
  | past
  | yes
  | afterYes
  | no
  | afterNo
  deriving DecidableEq, Repr

namespace Step

mutual
/-- Is all that is left of the proof admitted here, or in one of the blocks inside? -/
def admits : Step → Bool
  | admitted _ => true
  | cases _ _ yes no both => admitsAll yes || admitsAll no || admitsAll both
  | claim .. | choose .. | check _ => false
def admitsAll : List Step → Bool
  | [] => false
  | s :: rest => s.admits || admitsAll rest
end

mutual
/-- What a step adds to the facts if nothing is admitted in it. -/
def kept : Step → List Expr
  | claim _ e _ | choose _ _ e _ => [e]
  | cases _ _ _ _ both => lasting both
  | check _ | admitted _ => []
/-- What a block adds to the facts. It ends with the first step at which the rest of the proof is
admitted, and that step adds nothing. -/
def lasting : List Step → List Expr
  | [] => []
  | s :: rest => if s.admits then [] else s.kept ++ lasting rest
end

theorem lasting_cons (s : Step) (rest : List Step) :
    lasting (s :: rest) = lasting [s] ++ if s.admits then [] else lasting rest := by
  simp only [lasting]
  split <;> simp

/-- Where nothing is admitted, all conclusions last. -/
theorem lasting_eq_conclusionsAll (h : admitsAll steps = false) : lasting steps = conclusionsAll steps := by
  induction steps using Step.blockInduction with
  | nil => rfl
  | claim n e reason rest ih | choose n x e reason rest ih =>
    exact congrArg (e :: ·) (ih h)
  | cases n c yes no both rest _ _ ihboth ih =>
    simp only [admitsAll, admits, Bool.or_eq_false_iff] at h
    obtain ⟨⟨⟨hyes, hno⟩, hboth⟩, hrest⟩ := h
    simp [lasting, kept, admits, conclusionsAll, conclusions, hyes, hno, hboth, ihboth hboth, ih hrest]
  | check n rest ih => exact ih h
  | admitted n rest ih => cases h

/-- The step stands in a block, or in a block inside one of its steps. -/
inductive StandsIn (a : Step) : List Step → Prop
  | here : StandsIn a (a :: rest)
  | later : StandsIn a rest → StandsIn a (b :: rest)
  | yes : StandsIn a yes → StandsIn a (.cases n c yes no both :: rest)
  | no : StandsIn a no → StandsIn a (.cases n c yes no both :: rest)
  | both : StandsIn a both → StandsIn a (.cases n c yes no both :: rest)

/-- What has been added to the facts on the way along a route. -/
def known : List Step → List Turn → List Expr
  | s :: rest, .past :: route => s.conclusions ++ known rest route
  | .cases _ c yes _ _ :: _, .yes :: route => c :: known yes route
  | .cases _ c yes _ both :: _, .afterYes :: route => c :: conclusionsAll yes ++ known both route
  | .cases _ c _ no _ :: _, .no :: route => .not c :: known no route
  | .cases _ c _ no both :: _, .afterNo :: route => .not c :: conclusionsAll no ++ known both route
  | _, _ => []

end Step

/-- The same state inside a scope with one fact. -/
def Verification.inside (v : Verification) (tag : String) (e : Expr) : Verification :=
  v.withFacts ((v.knowledge.facts.enter tag).add e)

namespace Verify

/-- `Reaches depth steps v route a u` says that verifying `steps` from `v` on comes to the step `a`
along the route, and that the state is `u` just before `a`. -/
inductive Reaches (depth : Nat) : List Step → Verification → List Turn → Step → Verification → Prop
  | here : Reaches depth (a :: rest) v [] a v
  | past : (step depth b).run v = (.ok o, u) → o.stopped = false → Reaches depth rest u route a w →
    Reaches depth (b :: rest) v (.past :: route) a w
  | yes : Reaches depth yes (v.inside "If" c) route a w →
    Reaches depth (.cases n c yes no both :: rest) v (.yes :: route) a w
  | afterYes : (block depth yes).run (v.inside "If" c) = (.ok o, u) → o.stopped = false →
    Reaches depth both u route a w →
    Reaches depth (.cases n c yes no both :: rest) v (.afterYes :: route) a w
  | no : (branch "If" c (block depth yes) (block depth both)).run v = (.ok o, u) → o.stopped = false →
    Reaches depth no (u.inside "Else" (.not c)) route a w →
    Reaches depth (.cases n c yes no both :: rest) v (.no :: route) a w
  | afterNo : (branch "If" c (block depth yes) (block depth both)).run v = (.ok o, u) →
    o.stopped = false → (block depth no).run (u.inside "Else" (.not c)) = (.ok o', u') →
    o'.stopped = false → Reaches depth both u' route a w →
    Reaches depth (.cases n c yes no both :: rest) v (.afterNo :: route) a w

theorem Reaches.standsIn (h : Reaches depth steps v route a u) : a.StandsIn steps := by
  induction h with
  | here => exact .here
  | past _ _ _ ih => exact .later ih
  | yes _ ih => exact .yes ih
  | no _ _ _ ih => exact .no ih
  | afterYes _ _ _ ih | afterNo _ _ _ _ _ ih => exact .both ih

/-- A step that was verified without an admission is passed. -/
theorem Reaches.past_run (h : ((step depth b).run v).1.toOption.map Outcome.stopped = some false)
    (hrest : Reaches depth rest ((step depth b).run v).2 route a w) :
    Reaches depth (b :: rest) v (.past :: route) a w := by
  rcases hrun : (step depth b).run v with ⟨_ | o, u⟩ <;> rw [hrun] at h hrest
  · cases h
  · exact .past hrun (Option.some.inj h) hrest

-- ---------------------------------------------------------------- what is added to the facts

theorem tame_block (depth : Nat) (steps : List Step) : Tame (block depth steps) :=
  .block fun s _ => .step s

/-- What a run that succeeds leaves behind: it adds exactly `es` to the innermost scope, and it was cut
short by an admission exactly if `cut` says so. If not, `es` is what it concludes. -/
def Leaves (m : Verify Outcome) (cut : Bool) (es : List Expr) : Prop :=
  ∀ v w outcome, v.knowledge.refuting = false → m.run v = (.ok outcome, w) →
    w.knowledge.facts = v.knowledge.facts.addAll es ∧ outcome.stopped = cut ∧
      (cut = false → outcome.concluded = es)

/-- A claim leaves the facts alone, also when it is admitted. -/
theorem claim_facts (hflag : v.knowledge.refuting = false)
    (h : (claim depth line e reason).run v = (.ok (), w)) : w.knowledge.facts = v.knowledge.facts := by
  rcases claim_run_cases hflag h with ⟨_, rfl⟩ | ⟨rfl, _⟩ <;> rfl

theorem claim_leaves : Leaves (do
    claim depth line e reason
    assume d
    return { concluded := [d] }) false [d] := by
  intro v w outcome hflag h
  obtain ⟨_, u, hclaim, h⟩ := bind_run_ok.mp h
  obtain ⟨_, _, hassume, h⟩ := bind_run_ok.mp h
  rw [run_assume] at hassume
  cases hassume
  obtain ⟨rfl, rfl⟩ := pure_run_ok.mp h
  exact ⟨congrArg (·.addAll [d]) (claim_facts hflag hclaim), rfl, fun _ => rfl⟩

/-- A branch closes its scope, whether or not it was cut short. -/
theorem branch_leaves {own common : Verify Outcome} (hown : Leaves own cut es)
    (hcommon : Leaves common cut' fs) (htame : Tame own) (hflag : v.knowledge.refuting = false)
    (h : (branch tag a own common).run v = (.ok outcome, w)) :
    w.knowledge.facts = v.knowledge.facts ∧ outcome.stopped = (cut || cut') ∧
      ((cut || cut') = false → outcome.concluded = fs) := by
  obtain ⟨_, _, henter, h⟩ := bind_run_ok.mp h
  rw [run_enter] at henter
  cases henter
  obtain ⟨_, _, hassume, h⟩ := bind_run_ok.mp h
  rw [run_assume] at hassume
  cases hassume
  obtain ⟨first, u, hfirst, h⟩ := bind_run_ok.mp h
  obtain ⟨hu, rfl, _⟩ := hown (v.inside tag a) u first hflag hfirst
  have hinside : (v.inside tag a).knowledge.facts = (v.knowledge.facts.enter tag).addAll [a] := rfl
  rw [hinside, Scopes.addAll_addAll] at hu
  split at h
  · rename_i hstopped
    obtain ⟨_, x, hpure, h⟩ := bind_run_ok.mp h
    obtain ⟨rfl, rfl⟩ := pure_run_ok.mp hpure
    obtain ⟨_, y, hexit, h⟩ := bind_run_ok.mp h
    obtain ⟨rfl, rfl⟩ := pure_run_ok.mp h
    cases (run_exit hu).symm.trans hexit
    exact ⟨rfl, by simp [hstopped], by simp [hstopped]⟩
  · rename_i hstopped
    obtain ⟨second, x, hsecond, h⟩ := bind_run_ok.mp h
    obtain ⟨_, y, hexit, h⟩ := bind_run_ok.mp h
    obtain ⟨rfl, rfl⟩ := pure_run_ok.mp h
    obtain ⟨hx, rfl, hconcluded⟩ :=
      hcommon u x second ((htame.steady hfirst).refuting.trans hflag) hsecond
    rw [hu, Scopes.addAll_addAll] at hx
    cases (run_exit hx).symm.trans hexit
    rw [Bool.not_eq_true] at hstopped
    exact ⟨rfl, by simp [hstopped], fun h => hconcluded (by simpa [hstopped] using h)⟩

theorem steps_leave (h : ∀ s ∈ steps, Leaves (step depth s) s.admits (Step.lasting [s])) :
    Leaves (block depth steps) (Step.admitsAll steps) (Step.lasting steps) := by
  induction steps with
  | nil =>
    intro v w outcome _ h
    obtain ⟨rfl, rfl⟩ := pure_run_ok.mp h
    exact ⟨(Scopes.addAll_nil _).symm, rfl, fun _ => rfl⟩
  | cons s rest ih =>
    obtain ⟨hs, hrest⟩ := List.forall_mem_cons.mp h
    intro v w outcome hflag h
    obtain ⟨first, u, hfirst, h⟩ := bind_run_ok.mp h
    obtain ⟨hu, hcut, hconcluded⟩ := hs v u first hflag hfirst
    rw [Step.lasting_cons, Step.admitsAll]
    unfold Outcome.andThen at h
    split at h
    · rename_i hstopped
      obtain ⟨rfl, rfl⟩ := pure_run_ok.mp h
      rw [hstopped] at hcut
      exact ⟨by simp [hu, ← hcut], by simp [hstopped, ← hcut], by simp [← hcut]⟩
    · rename_i hstopped
      rw [Bool.not_eq_true] at hstopped
      obtain ⟨second, x, hsecond, h⟩ := bind_run_ok.mp h
      obtain ⟨rfl, rfl⟩ := pure_run_ok.mp h
      have hflag' := ((Tame.step s).steady hfirst).refuting.trans hflag
      obtain ⟨hx, hcut', hconcluded'⟩ := ih hrest u x second hflag' hsecond
      have hcut : s.admits = false := hcut.symm.trans hstopped
      refine ⟨?_, by simp [hcut, hcut'], fun h => ?_⟩
      · rw [hx, hu, Scopes.addAll_addAll, hcut]
        rfl
      · simp [hconcluded hcut, hconcluded' (by simpa [hcut] using h), hcut]

theorem step_leaves (depth : Nat) (s : Step) : Leaves (step depth s) s.admits (Step.lasting [s]) := by
  induction s using Step.induction with
  | claim n e reason => exact claim_leaves
  | choose n x e reason => exact claim_leaves
  | cases n c yes no both ihyes ihno ihboth =>
    have hyes := steps_leave ihyes
    have hno := steps_leave ihno
    have hboth := steps_leave ihboth
    intro v w outcome hflag h
    simp only [Step.admits, Step.lasting, Step.kept, List.append_nil]
    obtain ⟨first, u, hfirst, h⟩ := bind_run_ok.mp h
    obtain ⟨hu, hcut, _⟩ := branch_leaves hyes hboth (tame_block _ _) hflag hfirst
    split at h
    · rename_i hstopped
      obtain ⟨rfl, rfl⟩ := pure_run_ok.mp h
      rw [hstopped] at hcut
      have hadmits : (Step.admitsAll yes || Step.admitsAll no || Step.admitsAll both) = true := by
        rw [Bool.or_right_comm, ← hcut, Bool.true_or]
      simp [hadmits, hu, Scopes.addAll_nil]
    rename_i hstopped
    rw [Bool.not_eq_true] at hstopped
    rw [hstopped, eq_comm, Bool.or_eq_false_iff] at hcut
    obtain ⟨second, x, hsecond, h⟩ := bind_run_ok.mp h
    have hflag' := ((Tame.branch (tame_block _ _) (tame_block _ _)).steady hfirst).refuting.trans hflag
    obtain ⟨hx, hcut', hconcluded⟩ := branch_leaves hno hboth (tame_block _ _) hflag' hsecond
    rw [hcut.2, Bool.or_false] at hcut' hconcluded
    rw [hcut.1, hcut.2, Bool.false_or, Bool.or_false]
    split at h
    · rename_i hstopped
      obtain ⟨rfl, rfl⟩ := pure_run_ok.mp h
      simp [← hcut', hstopped, hx, hu, Scopes.addAll_nil]
    · rename_i hstopped
      rw [Bool.not_eq_true] at hstopped
      obtain ⟨_, _, hforM, h⟩ := bind_run_ok.mp h
      rw [run_assumeAll] at hforM
      cases hforM
      obtain ⟨rfl, rfl⟩ := pure_run_ok.mp h
      have hno := hcut'.symm.trans hstopped
      rw [hno, ← hconcluded hno, ← hu, ← hx]
      exact ⟨rfl, hstopped, fun _ => rfl⟩
  | check n =>
    intro v w outcome _ h
    cases h
    exact ⟨(Scopes.addAll_nil _).symm, rfl, fun _ => rfl⟩
  | admitted n =>
    intro v w outcome _ h
    cases h
    exact ⟨(Scopes.addAll_nil _).symm, rfl, fun h => nomatch h⟩

/-- What a block leaves behind can be read off its text. -/
theorem block_leaves (depth : Nat) (steps : List Step) :
    Leaves (block depth steps) (Step.admitsAll steps) (Step.lasting steps) :=
  steps_leave fun s _ => step_leaves depth s

/-- A block that was not cut short adds exactly its conclusions to the facts. -/
theorem block_facts (h : (block depth steps).run v = (.ok o, w))
    (hflag : v.knowledge.refuting = false) (ho : o.stopped = false) :
    w.knowledge.facts = v.knowledge.facts.addAll (Step.conclusionsAll steps) := by
  obtain ⟨hw, hcut, _⟩ := block_leaves depth steps v w o hflag h
  rw [hw, Step.lasting_eq_conclusionsAll (hcut.symm.trans ho)]

theorem step_facts (h : (step depth s).run v = (.ok o, w)) (hflag : v.knowledge.refuting = false)
    (ho : o.stopped = false) : w.knowledge.facts = v.knowledge.facts.addAll s.conclusions := by
  obtain ⟨hw, hcut, _⟩ := step_leaves depth s v w o hflag h
  have hadmits : Step.admitsAll [s] = false := by simp [Step.admitsAll, ← hcut, ho]
  rw [hw, Step.lasting_eq_conclusionsAll hadmits, Step.conclusionsAll, Step.conclusionsAll,
    List.append_nil]

-- ---------------------------------------------------------------- where a route leads

theorem steady_inside (v : Verification) (tag : String) (e : Expr) : Steady v (v.inside tag e) :=
  ⟨rfl, rfl, rfl, rfl, id⟩

theorem items_inside (v : Verification) (tag : String) (e : Expr) :
    (v.inside tag e).knowledge.facts.items = v.knowledge.facts.items ++ [e] := by
  simp [Verification.inside, Verification.withFacts, Scopes.add, Scopes.items_addAll,
    Scopes.items_enter]

theorem branch_steady {yes both : List Step}
    (h : (branch tag c (block depth yes) (block depth both)).run v = (a, w)) : Steady v w :=
  (Tame.branch (tame_block depth yes) (tame_block depth both)).steady h

theorem step_flag (h : (step depth s).run v = (a, w)) (hflag : v.knowledge.refuting = false) :
    w.knowledge.refuting = false :=
  ((Tame.step s).steady h).refuting.trans hflag

theorem block_flag {steps : List Step} (h : (block depth steps).run v = (a, w))
    (hflag : v.knowledge.refuting = false) : w.knowledge.refuting = false :=
  ((tame_block depth steps).steady h).refuting.trans hflag

/-- The state at the end of a route differs in the facts only. -/
theorem Reaches.steady (h : Reaches depth steps v route a u) : Steady v u := by
  induction h with
  | here => exact .refl _
  | past hrun _ _ ih => exact ((Tame.step _).steady hrun).trans ih
  | yes _ ih => exact (steady_inside ..).trans ih
  | afterYes hyes _ _ ih => exact ((steady_inside ..).trans ((tame_block _ _).steady hyes)).trans ih
  | no hyes _ _ ih => exact ((branch_steady hyes).trans (steady_inside ..)).trans ih
  | afterNo hyes _ hno _ _ ih =>
    exact ((branch_steady hyes).trans (steady_inside ..)).trans (((tame_block _ _).steady hno).trans ih)

/-- What is known at the end of a route can be read off the text. -/
theorem Reaches.items (h : Reaches depth steps v route a u) (hflag : v.knowledge.refuting = false) :
    u.knowledge.facts.items = v.knowledge.facts.items ++ Step.known steps route := by
  -- the first branch has closed its scope again, so the second starts from the same facts
  have hcommon {yes both : List Step} {c : Expr} {o} {v u : Verification}
      (hflag : v.knowledge.refuting = false)
      (h : (branch "If" c (block depth yes) (block depth both)).run v = (.ok o, u)) :
      u.knowledge.facts = v.knowledge.facts :=
    (branch_leaves (block_leaves _ _) (block_leaves _ _) (tame_block _ _) hflag h).1
  induction h with
  | here => simp [Step.known]
  | past hrun ho _ ih =>
    rw [ih (step_flag hrun hflag), step_facts hrun hflag ho, Scopes.items_addAll]
    simp [Step.known]
  | yes _ ih =>
    rw [ih hflag, items_inside]
    simp [Step.known]
  | afterYes hyes ho _ ih =>
    rw [ih (block_flag hyes hflag), block_facts hyes hflag ho,
      Scopes.items_addAll, items_inside]
    simp [Step.known]
  | no hyes _ _ ih =>
    rw [ih ((branch_steady hyes).refuting.trans hflag), items_inside, hcommon hflag hyes]
    simp [Step.known]
  | afterNo hyes _ hno ho _ ih =>
    have hflag' := (branch_steady hyes).refuting.trans hflag
    rw [ih (block_flag hno hflag'), block_facts hno hflag' ho,
      Scopes.items_addAll, items_inside, hcommon hflag hyes]
    simp [Step.known]

end Verify

-- ---------------------------------------------------------------- declarations

/-- The name of the scope that the proof is verified in. -/
def Declaration.tag : Declaration → String
  | ofTheorem _ => "Theorem"
  | ofDefinition _ => "Definition"

/-- What can be cited after the declarations of a script. -/
def Script.library (script : Script) : Library := script.foldl Library.declare {}

namespace Verify

/-- `Executes depth before d route a u` says that verification, after the declarations `before`, comes
to the step `a` of the proof of `d` along the route, and that the state is `u` just before `a`. -/
def Executes (depth : Nat) (before : Script) (d : Declaration) (route : List Turn) (a : Step)
    (u : Verification) : Prop :=
  ∃ v, (before.forM (declaration depth)).run {} = (.ok (), v) ∧
    Reaches depth d.proof (opening d.tag d.assumptions v) route a u

/-- A proof closes its scope, whether or not it was cut short, and answers with what its text adds to
the facts. -/
theorem proof_facts {steps : Verify Outcome} {goal : Verify Unit} (hsteps : Leaves steps cut es)
    (htame : Tame steps)
    (hgoal : ∀ u w, u.knowledge.refuting = false → goal.run u = (.ok (), w) →
      w.knowledge.facts = u.knowledge.facts)
    (hflag : v.knowledge.refuting = false)
    (h : (proof tag assumptions steps goal).run v = (.ok known, w)) :
    w.knowledge.facts = v.knowledge.facts ∧ known = v.knowledge.facts.items ++ assumptions ++ es := by
  obtain ⟨outcome, u, houtcome, hending⟩ := proof_run_ok h
  obtain ⟨hu, _⟩ := hsteps (opening tag assumptions v) u outcome hflag houtcome
  have hscope : u.knowledge.facts = (v.knowledge.facts.enter tag).addAll (assumptions ++ es) :=
    hu.trans (Scopes.addAll_addAll (v.knowledge.facts.enter tag) assumptions es)
  obtain ⟨x, hx, h⟩ : ∃ x, x.knowledge.facts = u.knowledge.facts ∧ (do
      let facts ← facts
      exit tag
      return facts : Verify _).run x = (.ok known, w) := by
    unfold ending at hending
    dsimp only at hending
    split at hending
    · exact ⟨u, rfl, hending⟩
    · obtain ⟨_, x, hx, h⟩ := bind_run_ok.mp hending
      exact ⟨x, hgoal u x ((htame.steady houtcome).refuting.trans hflag) hx, h⟩
  obtain ⟨_, y, hknown, h⟩ := bind_run_ok.mp h
  cases hknown
  obtain ⟨_, y, hexit, h⟩ := bind_run_ok.mp h
  obtain ⟨rfl, rfl⟩ := pure_run_ok.mp h
  cases (run_exit (hx.trans hscope)).symm.trans hexit
  refine ⟨rfl, ?_⟩
  rw [hx, hscope, Scopes.items_addAll, Scopes.items_enter, List.append_assoc]

/-- No fact is left over after a declaration, and it can be cited. -/
theorem declaration_leaves (h : (declaration depth d).run v = (.ok (), w)) (hv : v.knowledge = {}) :
    w.knowledge = {} ∧ w.library = v.library.declare d := by
  have hflag : v.knowledge.refuting = false := by rw [hv]
  cases d with
  | ofTheorem t =>
    obtain ⟨known, u, hproof, h⟩ := bind_run_ok.mp h
    cases h
    have hsteady := proof_steady (tame_block _ _) .claim hproof
    obtain ⟨hfacts, _⟩ := proof_facts (block_leaves _ _) (tame_block _ _)
      (fun u w hflag h => claim_facts hflag h) hflag hproof
    have hknown := knowledge_of_steady hv hfacts hsteady
    exact ⟨hknown, congrArg (·.declare (.ofTheorem t)) hsteady.library⟩
  | ofDefinition d =>
    obtain ⟨known, u, hproof, h⟩ := bind_run_ok.mp h
    cases h
    have hsteady := proof_steady (tame_block _ _) (.existence d) hproof
    obtain ⟨hfacts, _⟩ := proof_facts (block_leaves _ _) (tame_block _ _)
      (fun u w _ h => by rw [existence_run_ok h]) hflag hproof
    have hknown := knowledge_of_steady hv hfacts hsteady
    exact ⟨hknown, congrArg (·.declare (.ofDefinition d)) hsteady.library⟩

theorem declarations_leave {script : Script} (h : (script.forM (declaration depth)).run v = (.ok (), w))
    (hv : v.knowledge = {}) :
    w.knowledge = {} ∧ w.library = script.foldl Library.declare v.library := by
  induction script generalizing v with
  | nil =>
    obtain ⟨_, rfl⟩ := pure_run_ok.mp h
    exact ⟨hv, rfl⟩
  | cons d rest ih =>
    obtain ⟨_, u, hd, h⟩ := bind_run_ok.mp h
    obtain ⟨hu, hlibrary⟩ := declaration_leaves hd hv
    obtain ⟨hw, hlibrary'⟩ := ih h hu
    exact ⟨hw, by rw [hlibrary', hlibrary]; rfl⟩

namespace Executes

variable {before : Script} {d : Declaration} {u : Verification}

theorem refuting (h : Executes depth before d route a u) : u.knowledge.refuting = false := by
  obtain ⟨v, hv, hreaches⟩ := h
  obtain ⟨hknown, _⟩ := declarations_leave hv rfl
  have hopening : (opening d.tag d.assumptions v).knowledge.refuting = v.knowledge.refuting := rfl
  rw [hreaches.steady.refuting, hopening, hknown]

theorem library (h : Executes depth before d route a u) : u.library = before.library := by
  obtain ⟨v, hv, hreaches⟩ := h
  exact hreaches.steady.library.trans (declarations_leave hv rfl).2

/-- What is known where a step is executed can be read off the text. -/
theorem items (h : Executes depth before d route a u) :
    u.knowledge.facts.items = d.assumptions ++ Step.known d.proof route := by
  obtain ⟨v, hv, hreaches⟩ := h
  obtain ⟨hknown, _⟩ := declarations_leave hv rfl
  have hopening : (opening d.tag d.assumptions v).knowledge.facts.items =
      v.knowledge.facts.items ++ d.assumptions := by
    simp [opening, Verification.withFacts, Scopes.items_addAll, Scopes.items_enter]
  rw [hreaches.items (by show v.knowledge.refuting = false; rw [hknown]), hopening, hknown]
  rfl

end Executes

end Verify

end ProofScript
