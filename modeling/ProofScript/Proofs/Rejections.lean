import ProofScript.Proofs.Executions

/-!
# Why a script is rejected

There are only so many ways in which a claim is rejected. A proof is rejected exactly where one of the
claims it comes to is rejected. Main statement: the rejection of a script is that of a claim, or a
definition has no instance, among facts that can be read off the text.
-/

namespace ProofScript

-- ---------------------------------------------------------------- why a claim is rejected

namespace Library

/-- What a justification adds to the facts while its claim is judged. -/
inductive Cites (lib : Library) : Option Justification → List Expr → Prop
  | nothing : Cites lib none []
  | definition : lib.definitions.find? x = some d →
    Cites lib (some (.definition x)) (d.rules.map Sentence.expr)
  | instantiation : lib.theorems.find? x = some t →
    (t.instantiation args).apply t.hypothesis.expr = .ok e →
    Cites lib (some (.instantiation x args)) [e]

/-- The ways in which a claim `e` on some line is rejected, among the facts `Γ` and with what can be
cited. -/
inductive Rejects (depth line : Nat) (lib : Library) (Γ : List Expr) (e : Expr) :
    Option Justification → Rejection → Prop
  | unknownDefinition : lib.definitions.find? x = none →
    Rejects depth line lib Γ e (some (.definition x)) (.name line (.unknownDefinition x))
  | unknownTheorem : lib.theorems.find? x = none →
    Rejects depth line lib Γ e (some (.instantiation x args)) (.name line (.unknownTheorem x))
  | count : lib.theorems.find? x = some t → t.parameters.length ≠ args.length →
    Rejects depth line lib Γ e (some (.instantiation x args))
      (.arity line (.count t.parameters.length args.length t.name))
  | misfit : lib.theorems.find? x = some t → s ∈ t.hypothesis :: t.requirements →
    (t.instantiation args).apply s.expr = .error cause →
    Rejects depth line lib Γ e (some (.instantiation x args)) (.arity line (.misfit cause))
  | precondition : lib.theorems.find? x = some t → s ∈ t.requirements →
    (t.instantiation args).apply s.expr = .ok r → Reading.judge depth r ⟨Γ, false⟩ = .ok truth →
    truth ≠ .holds →
    Rejects depth line lib Γ e (some (.instantiation x args)) (.precondition t.name s.line line r)
  | requirementFault : lib.theorems.find? x = some t → s ∈ t.requirements →
    (t.instantiation args).apply s.expr = .ok r → Reading.judge depth r ⟨Γ, false⟩ = .error fault →
    Rejects depth line lib Γ e (some (.instantiation x args)) (.internal fault)
  | refuted : lib.Cites reason more → Reading.judge depth e ⟨Γ ++ more, false⟩ = .ok .fails →
    Rejects depth line lib Γ e reason (.refuted line e)
  | unproven : lib.Cites reason more → Reading.judge depth e ⟨Γ ++ more, false⟩ = .ok .unknown →
    Rejects depth line lib Γ e reason (.unproven line e)
  | fault : lib.Cites reason more → Reading.judge depth e ⟨Γ ++ more, false⟩ = .error fault →
    Rejects depth line lib Γ e reason (.internal fault)

end Library

namespace Verify

theorem bind_run_error {m : Verify α} {f : α → Verify β} : (m >>= f).run v = (.error cause, w) ↔
    m.run v = (.error cause, w) ∨ ∃ a u, m.run v = (.ok a, u) ∧ (f a).run u = (.error cause, w) :=
  run_run_bind_error

theorem throw_run_error :
    (throw cause : Verify α).run v = (.error cause', w) ↔ cause = cause' ∧ v = w := by
  show (Except.error cause, v) = (Except.error cause', w) ↔ _
  simp

theorem pure_run_error {a : α} : ¬(pure a : Verify α).run v = (.error cause, w) := nofun

/-- The first action that fails comes after actions that do not. -/
theorem forM_run_error {as : List α} {f : α → Verify Unit} :
    (as.forM f).run v = (.error cause, w) ↔ ∃ before a after u, as = before ++ a :: after ∧
      (before.forM f).run v = (.ok (), u) ∧ (f a).run u = (.error cause, w) := by
  induction as generalizing v with
  | nil => exact ⟨fun h => absurd h pure_run_error, fun ⟨_, _, _, _, h, _⟩ => by simp at h⟩
  | cons b rest ih =>
    refine bind_run_error.trans ⟨?_, ?_⟩
    · rintro (h | ⟨_, x, hb, h⟩)
      · exact ⟨[], b, rest, v, rfl, rfl, h⟩
      · obtain ⟨before, a, after, u, rfl, hbefore, ha⟩ := ih.mp h
        exact ⟨b :: before, a, after, u, rfl, bind_run_ok.mpr ⟨(), x, hb, hbefore⟩, ha⟩
    · rintro ⟨before, a, after, u, heq, hbefore, ha⟩
      cases before with
      | nil =>
        cases heq
        cases hbefore
        exact .inl ha
      | cons c before =>
        cases heq
        obtain ⟨_, x, hb, hbefore⟩ := bind_run_ok.mp hbefore
        exact .inr ⟨(), x, hb, ih.mpr ⟨before, a, after, u, rfl, hbefore, ha⟩⟩

/-- Of tests that leave the state alone, one fails. -/
theorem tests_run_error {as : List α} {f : α → Verify Unit}
    (hf : ∀ a ∈ as, ∀ w, (f a).run v = (.ok (), w) → v = w)
    (h : (as.forM f).run v = (.error cause, w)) : ∃ a ∈ as, (f a).run v = (.error cause, w) := by
  obtain ⟨before, a, after, u, rfl, hbefore, h⟩ := forM_run_error.mp h
  obtain ⟨rfl, _⟩ := forM_run_ok (Q := fun _ => True)
    (fun b hb w hrun => ⟨hf b (by simp [hb]) w hrun, trivial⟩) hbefore
  exact ⟨a, by simp, h⟩

theorem instantiate_run_error (h : (instantiate line i e).run v = (.error cause, w)) :
    ∃ fault, i.apply e = .error fault ∧ cause = .arity line (.misfit fault) := by
  unfold instantiate at h
  cases hi : i.apply e with
  | error fault =>
    rw [hi] at h
    obtain ⟨rfl, _⟩ := throw_run_error.mp h
    exact ⟨fault, rfl, rfl⟩
  | ok d =>
    rw [hi] at h
    exact absurd h pure_run_error

section
variable {v w : Verification} (hflag : v.knowledge.refuting = false)
include hflag

theorem judge_run_error (h : (inquire (judge depth e)).run v = (.error cause, w)) :
    ∃ fault, Reading.judge depth e ⟨v.knowledge.facts.items, false⟩ = .error fault ∧
      cause = .internal fault := by
  rw [run_inquire (judge_reads depth e), Knowledge.view, hflag] at h
  cases hjudge : Reading.judge depth e ⟨v.knowledge.facts.items, false⟩ with
  | error fault =>
    rw [hjudge] at h
    cases h
    exact ⟨fault, rfl, rfl⟩
  | ok t =>
    rw [hjudge] at h
    cases h

/-- A statement that has to hold is rejected for its own reason, unless it cannot be judged. -/
theorem unless_holds_run_error {reason : Rejection}
    (h : Verify.run (do if (← inquire (judge depth e)) ≠ .holds then throw reason) v =
      (.error cause, w)) :
    (∃ truth, Reading.judge depth e ⟨v.knowledge.facts.items, false⟩ = .ok truth ∧
      truth ≠ .holds ∧ cause = reason) ∨
    ∃ fault, Reading.judge depth e ⟨v.knowledge.facts.items, false⟩ = .error fault ∧
      cause = .internal fault := by
  rcases bind_run_error.mp h with h | ⟨truth, _, hjudge, h⟩
  · exact .inr (judge_run_error hflag h)
  obtain ⟨htruth, rfl⟩ := judge_run_ok hflag hjudge
  split at h
  · rename_i hfails
    obtain ⟨rfl, _⟩ := throw_run_error.mp h
    exact .inl ⟨truth, htruth, hfails, rfl⟩
  · exact absurd h pure_run_error

/-- A requirement cannot be instantiated, or its instance is not answered by yes. -/
theorem requirement_run_error (h : (requirement depth line x i s).run v = (.error cause, w)) :
    (∃ fault, i.apply s.expr = .error fault ∧ cause = .arity line (.misfit fault)) ∨
    ∃ r, i.apply s.expr = .ok r ∧
      ((∃ truth, Reading.judge depth r ⟨v.knowledge.facts.items, false⟩ = .ok truth ∧ truth ≠ .holds ∧
        cause = .precondition x s.line line r) ∨
      ∃ fault, Reading.judge depth r ⟨v.knowledge.facts.items, false⟩ = .error fault ∧
        cause = .internal fault) := by
  rcases bind_run_error.mp h with h | ⟨r, _, hinstantiate, h⟩
  · exact .inl (instantiate_run_error h)
  obtain ⟨hr, rfl⟩ := instantiate_run_ok.mp hinstantiate
  exact .inr ⟨r, hr, unless_holds_run_error hflag h⟩

/-- If the theorem takes the arguments, one of its requirements is not met, or its hypothesis cannot be
instantiated. -/
theorem citeTheorem_run_error_of_found (ht : v.theorems.find? x = some t)
    (hcount : t.parameters.length = args.length)
    (h : (citeTheorem depth line x args).run v = (.error cause, w)) :
    (∃ s ∈ t.requirements,
      (requirement depth line t.name (t.instantiation args) s).run v = (.error cause, w)) ∨
    ∃ fault, (t.instantiation args).apply t.hypothesis.expr = .error fault ∧
      cause = .arity line (.misfit fault) := by
  rcases bind_run_error.mp h with h | ⟨_, _, hget, h⟩
  · cases h
  cases hget
  simp only [ht, hcount, ne_eq, not_true_eq_false, if_false] at h
  rcases bind_run_error.mp h with hforM | ⟨_, _, hforM, h⟩
  · exact .inl (tests_run_error (fun s _ w hs => (requirement_run_ok hflag hs).1) hforM)
  · obtain ⟨rfl, _⟩ := forM_run_ok (fun s _ w hs => requirement_run_ok hflag hs) hforM
    rcases bind_run_error.mp h with h | ⟨_, _, _, h⟩
    · exact .inr (instantiate_run_error h)
    · cases h

theorem citeTheorem_run_error (h : (citeTheorem depth line x args).run v = (.error cause, w))
    (e : Expr) :
    v.library.Rejects depth line v.knowledge.facts.items e (some (.instantiation x args)) cause := by
  cases ht : v.theorems.find? x with
  | none =>
    rcases bind_run_error.mp h with h | ⟨_, _, hget, h⟩
    · cases h
    cases hget
    simp only [ht] at h
    obtain ⟨rfl, _⟩ := throw_run_error.mp h
    exact .unknownTheorem ht
  | some t =>
    by_cases hcount : t.parameters.length = args.length
    · rcases citeTheorem_run_error_of_found hflag ht hcount h with ⟨s, hs, h⟩ | ⟨fault, hfault, rfl⟩
      · rcases requirement_run_error hflag h with
          ⟨fault, hfault, rfl⟩ | ⟨r, hr, ⟨truth, htruth, hfails, rfl⟩ | ⟨fault, hfault, rfl⟩⟩
        · exact .misfit ht (List.mem_cons_of_mem _ hs) hfault
        · exact .precondition ht hs hr htruth hfails
        · exact .requirementFault ht hs hr hfault
      · exact .misfit ht (List.mem_cons_self ..) hfault
    · rcases bind_run_error.mp h with h | ⟨_, _, hget, h⟩
      · cases h
      cases hget
      simp only [ht, ne_eq, hcount, not_false_eq_true, if_true] at h
      rcases bind_run_error.mp h with h | ⟨_, _, hthrow, _⟩
      · obtain ⟨rfl, _⟩ := throw_run_error.mp h
        exact .count ht hcount
      · exact absurd hthrow throw_run_ok

omit hflag in
theorem citeDefinition_run_error (h : (citeDefinition line x).run v = (.error cause, w)) :
    v.definitions.find? x = none ∧ cause = .name line (.unknownDefinition x) := by
  rcases bind_run_error.mp h with h | ⟨_, _, hget, h⟩
  · cases h
  cases hget
  cases hd : v.definitions.find? x with
  | none =>
    simp only [hd] at h
    obtain ⟨rfl, _⟩ := throw_run_error.mp h
    exact ⟨rfl, rfl⟩
  | some d =>
    simp only [hd] at h
    rw [forM_assume, run_assumeAll] at h
    cases h

theorem cite_run_error (h : (cite depth line reason).run v = (.error cause, w)) (e : Expr) :
    v.library.Rejects depth line v.knowledge.facts.items e reason cause := by
  cases reason with
  | none => exact absurd h pure_run_error
  | some j =>
    cases j with
    | admitted => exact absurd h pure_run_error
    | definition x =>
      obtain ⟨hx, rfl⟩ := citeDefinition_run_error h
      exact .unknownDefinition hx
    | instantiation x args => exact citeTheorem_run_error hflag h e

omit hflag in
/-- A claim is rejected where its justification is. -/
theorem claim_of_cite (hreason : reason ≠ some .admitted)
    (h : (cite depth line reason).run (v.withFacts (v.knowledge.facts.enter "Statement")) = (.error cause, w)) :
    (claim depth line e reason).run v = (.error cause, w) := by
  unfold claim
  rw [if_neg hreason]
  exact bind_run_error.mpr (.inr ⟨(), _, run_enter .., bind_run_error.mpr (.inl h)⟩)

theorem cite_cites (hreason : reason ≠ some .admitted)
    (h : (cite depth line reason).run v = (.ok (), w)) :
    ∃ more, v.library.Cites reason more ∧ w = v.withFacts (v.knowledge.facts.addAll more) := by
  cases reason with
  | none =>
    obtain ⟨_, rfl⟩ := pure_run_ok.mp h
    exact ⟨[], .nothing, by rw [Scopes.addAll_nil]; rfl⟩
  | some j =>
    cases j with
    | admitted => exact absurd rfl hreason
    | definition x =>
      obtain ⟨d, hd, hw⟩ := citeDefinition_run_ok h
      exact ⟨_, .definition hd, hw⟩
    | instantiation x args =>
      obtain ⟨t, d, ht, _, hd, hw⟩ := citeTheorem_run_ok hflag h
      exact ⟨[d], .instantiation ht hd, hw⟩

/-- What happens when a claim is rejected is one of the things listed. -/
theorem claim_run_error (h : (claim depth line e reason).run v = (.error cause, w)) :
    v.library.Rejects depth line v.knowledge.facts.items e reason cause := by
  unfold claim at h
  split at h
  · cases h
  rename_i hreason
  rcases bind_run_error.mp h with h | ⟨_, _, henter, h⟩
  · cases h
  rw [run_enter] at henter
  cases henter
  rcases bind_run_error.mp h with h | ⟨_, _, hcite, h⟩
  · have hentered : (v.withFacts (v.knowledge.facts.enter "Statement")).knowledge.facts.items =
        v.knowledge.facts.items := Scopes.items_enter ..
    rw [← hentered]
    exact cite_run_error (v := v.withFacts (v.knowledge.facts.enter "Statement")) hflag h e
  obtain ⟨more, hmore, rfl⟩ :=
    cite_cites (v := v.withFacts (v.knowledge.facts.enter "Statement")) hflag hreason hcite
  have hitems : (v.withFacts ((v.knowledge.facts.enter "Statement").addAll more)).knowledge.facts.items =
      v.knowledge.facts.items ++ more := by
    simp [Verification.withFacts, Scopes.items_addAll, Scopes.items_enter]
  rcases bind_run_error.mp h with h | ⟨truth, _, htruth, h⟩
  · obtain ⟨fault, hfault, rfl⟩ := judge_run_error (v := v.withFacts
      ((v.knowledge.facts.enter "Statement").addAll more)) hflag h
    exact .fault hmore (hitems ▸ hfault)
  obtain ⟨hholds, rfl⟩ := judge_run_ok (v := v.withFacts
    ((v.knowledge.facts.enter "Statement").addAll more)) hflag htruth
  rw [hitems] at hholds
  rcases bind_run_error.mp h with h | ⟨_, _, _, h⟩
  · cases (run_exit rfl).symm.trans h
  cases truth with
  | holds => exact absurd h pure_run_error
  | fails =>
    obtain ⟨rfl, _⟩ := throw_run_error.mp h
    exact .refuted hmore hholds
  | unknown =>
    obtain ⟨rfl, _⟩ := throw_run_error.mp h
    exact .unproven hmore hholds

end

end Verify

-- ---------------------------------------------------------------- where a block is rejected

/-- The claim that a step makes, the line it stands on and its justification. -/
inductive Step.Claims : Step → Nat → Expr → Option Justification → Prop
  | claim : Claims (.claim n e reason) n e reason
  | choose : Claims (.choose n x e reason) n (.bind .some x e) reason

namespace Verify

/-- A step that makes a claim is rejected as the claim is. -/
theorem step_run_error (ha : a.Claims n e reason) :
    (step depth a).run v = (.error cause, w) ↔ (claim depth n e reason).run v = (.error cause, w) := by
  have hassume {d : Expr} {u : Verification} : ¬(do
      assume d
      return { concluded := [d] } : Verify Outcome).run u = (.error cause, w) := nofun
  cases ha with
  | claim | choose =>
    refine bind_run_error.trans (or_iff_left ?_)
    rintro ⟨_, _, _, h⟩
    exact hassume h

theorem block_cons_run_error : (block depth (s :: rest)).run v = (.error cause, w) ↔
    (step depth s).run v = (.error cause, w) ∨ ∃ o u, (step depth s).run v = (.ok o, u) ∧
      o.stopped = false ∧ (block depth rest).run u = (.error cause, w) := by
  refine bind_run_error.trans (or_congr_right (exists₂_congr fun o u => and_congr_right fun _ => ?_))
  unfold Outcome.andThen
  split
  · rename_i ho
    simp [ho, pure_run_error]
  · rename_i ho
    rw [bind_run_error]
    simp [ho, pure_run_error]

theorem cases_run_error : (step depth (.cases n c yes no both)).run v = (.error cause, w) ↔
    (branch "If" c (block depth yes) (block depth both)).run v = (.error cause, w) ∨
      ∃ o u, (branch "If" c (block depth yes) (block depth both)).run v = (.ok o, u) ∧
        o.stopped = false ∧
        (branch "Else" (.not c) (block depth no) (block depth both)).run u = (.error cause, w) := by
  refine bind_run_error.trans (or_congr_right (exists₂_congr fun o u => and_congr_right fun _ => ?_))
  split
  · rename_i ho
    simp [ho, pure_run_error]
  · rename_i ho
    rw [bind_run_error]
    simp only [Bool.not_eq_true] at ho
    rw [and_iff_right ho]
    refine or_iff_left ?_
    rintro ⟨second, x, _, h⟩
    split at h
    · exact absurd h pure_run_error
    · rcases bind_run_error.mp h with h | ⟨_, _, _, h⟩
      · rw [run_assumeAll] at h
        cases h
      · exact absurd h pure_run_error

/-- A branch is rejected where one of its blocks is. Its scope can always be closed. -/
theorem branch_run_error (hflag : v.knowledge.refuting = false) :
    (branch tag a (block depth own) (block depth common)).run v = (.error cause, w) ↔
      (block depth own).run (v.inside tag a) = (.error cause, w) ∨
        ∃ o u, (block depth own).run (v.inside tag a) = (.ok o, u) ∧ o.stopped = false ∧
          (block depth common).run u = (.error cause, w) := by
  have hinside : (v.inside tag a).knowledge.facts = (v.knowledge.facts.enter tag).addAll [a] := rfl
  constructor
  · intro h
    rcases bind_run_error.mp h with h | ⟨_, _, henter, h⟩
    · cases h
    cases henter
    rcases bind_run_error.mp h with h | ⟨_, _, hassume, h⟩
    · cases h
    cases hassume
    rcases bind_run_error.mp h with h | ⟨first, u, hfirst, h⟩
    · exact .inl h
    obtain ⟨hu, _⟩ := block_leaves depth own (v.inside tag a) u first hflag hfirst
    rw [hinside, Scopes.addAll_addAll] at hu
    split at h
    · rcases bind_run_error.mp h with h | ⟨_, _, hpure, h⟩
      · cases h
      cases hpure
      rcases bind_run_error.mp h with h | ⟨_, _, _, h⟩
      · cases (run_exit hu).symm.trans h
      · cases h
    · rename_i hstopped
      rcases bind_run_error.mp h with h | ⟨second, x, hsecond, h⟩
      · exact .inr ⟨first, u, hfirst, by simpa using hstopped, h⟩
      obtain ⟨hx, _⟩ := block_leaves depth common u x second (block_flag hfirst hflag) hsecond
      rw [hu, Scopes.addAll_addAll] at hx
      rcases bind_run_error.mp h with h | ⟨_, _, _, h⟩
      · cases (run_exit hx).symm.trans h
      · cases h
  · intro h
    refine bind_run_error.mpr (.inr ⟨(), _, rfl, bind_run_error.mpr (.inr ⟨(), _, rfl, ?_⟩)⟩)
    rcases h with h | ⟨o, u, hfirst, ho, h⟩
    · exact bind_run_error.mpr (.inl h)
    · refine bind_run_error.mpr (.inr ⟨o, u, hfirst, ?_⟩)
      simp only [ho]
      exact bind_run_error.mpr (.inl h)

/-- Verifying `steps` from `v` on comes to a claim that is rejected. -/
def Stumbles (depth : Nat) (steps : List Step) (v : Verification) (cause : Rejection)
    (w : Verification) : Prop :=
  ∃ route a u n e reason, Reaches depth steps v route a u ∧ a.Claims n e reason ∧
    (claim depth n e reason).run u = (.error cause, w)

/-- Who comes to a block stumbles where the block does. -/
theorem Stumbles.along {steps steps' : List Step} (h : Stumbles depth steps u cause w)
    (hroute : ∀ {route a x}, Reaches depth steps u route a x →
      ∃ route, Reaches depth steps' v route a x) :
    Stumbles depth steps' v cause w := by
  obtain ⟨route, a, x, n, e, reason, hreaches, h⟩ := h
  obtain ⟨route, hreaches⟩ := hroute hreaches
  exact ⟨route, a, x, n, e, reason, hreaches, h⟩

/-- A block is rejected exactly where one of the claims that it comes to is rejected. -/
theorem block_run_error (hflag : v.knowledge.refuting = false) :
    (block depth steps).run v = (.error cause, w) ↔ Stumbles depth steps v cause w := by
  constructor
  -- the claim is the first step's own, or it is met in one of the blocks inside, or in the rest
  · intro h
    induction steps using Step.blockInduction generalizing v with
    | nil => exact absurd h pure_run_error
    | claim n e reason rest ih =>
      rcases block_cons_run_error.mp h with h | ⟨o, u, hfirst, ho, h⟩
      · exact ⟨[], _, v, n, e, reason, .here, .claim, (step_run_error .claim).mp h⟩
      · exact (ih (step_flag hfirst hflag) h).along fun hrest => ⟨_, .past hfirst ho hrest⟩
    | choose n x e reason rest ih =>
      rcases block_cons_run_error.mp h with h | ⟨o, u, hfirst, ho, h⟩
      · exact ⟨[], _, v, n, _, reason, .here, .choose, (step_run_error .choose).mp h⟩
      · exact (ih (step_flag hfirst hflag) h).along fun hrest => ⟨_, .past hfirst ho hrest⟩
    | cases n c yes no both rest ihyes ihno ihboth ih =>
      rcases block_cons_run_error.mp h with h | ⟨o, u, hfirst, ho, h⟩
      · rcases cases_run_error.mp h with h | ⟨o, u, hbefore, ho, h⟩
        · rcases (branch_run_error hflag).mp h with h | ⟨o, u, hyes, ho, h⟩
          · exact (ihyes (v := v.inside "If" c) hflag h).along fun hin => ⟨_, .yes hin⟩
          · exact (ihboth (block_flag hyes hflag) h).along fun hin => ⟨_, .afterYes hyes ho hin⟩
        · have hflag := (branch_steady hbefore).refuting.trans hflag
          rcases (branch_run_error hflag).mp h with h | ⟨o', u', hno, ho', h⟩
          · exact (ihno (v := u.inside "Else" (.not c)) hflag h).along
              fun hin => ⟨_, .no hbefore ho hin⟩
          · exact (ihboth (block_flag hno hflag) h).along
              fun hin => ⟨_, .afterNo hbefore ho hno ho' hin⟩
      · exact (ih (step_flag hfirst hflag) h).along fun hrest => ⟨_, .past hfirst ho hrest⟩
    | check n rest ih | admitted n rest ih =>
      rcases block_cons_run_error.mp h with h | ⟨o, u, hfirst, ho, h⟩
      · cases h
      · exact (ih (step_flag hfirst hflag) h).along fun hrest => ⟨_, .past hfirst ho hrest⟩
  · rintro ⟨route, a, u, n, e, reason, hreaches, ha, h⟩
    induction hreaches with
    | here => exact block_cons_run_error.mpr (.inl ((step_run_error ha).mpr h))
    | past hrun ho _ ih =>
      exact block_cons_run_error.mpr (.inr ⟨_, _, hrun, ho, ih (step_flag hrun hflag) ha h⟩)
    | yes _ ih =>
      refine block_cons_run_error.mpr (.inl (cases_run_error.mpr (.inl ?_)))
      exact (branch_run_error hflag).mpr (.inl (ih hflag ha h))
    | afterYes hyes ho _ ih =>
      refine block_cons_run_error.mpr (.inl (cases_run_error.mpr (.inl ?_)))
      exact (branch_run_error hflag).mpr (.inr ⟨_, _, hyes, ho, ih (block_flag hyes hflag) ha h⟩)
    | no hyes ho _ ih =>
      have hflag := (branch_steady hyes).refuting.trans hflag
      refine block_cons_run_error.mpr (.inl (cases_run_error.mpr (.inr ⟨_, _, hyes, ho, ?_⟩)))
      exact (branch_run_error hflag).mpr (.inl (ih hflag ha h))
    | afterNo hyes ho hno ho' _ ih =>
      have hflag := (branch_steady hyes).refuting.trans hflag
      refine block_cons_run_error.mpr (.inl (cases_run_error.mpr (.inr ⟨_, _, hyes, ho, ?_⟩)))
      exact (branch_run_error hflag).mpr (.inr ⟨_, _, hno, ho', ih (block_flag hno hflag) ha h⟩)

-- ---------------------------------------------------------------- declarations

/-- A proof is rejected where its steps are, or where they were not cut short and the goal is. -/
theorem proof_run_error {steps : Verify Outcome} {goal : Verify Unit} (hsteps : Leaves steps cut es)
    (htame : Tame steps)
    (hgoal : ∀ u w, u.knowledge.refuting = false → goal.run u = (.ok (), w) →
      w.knowledge.facts = u.knowledge.facts)
    (hflag : v.knowledge.refuting = false) :
    (proof tag assumptions steps goal).run v = (.error cause, w) ↔
      steps.run (opening tag assumptions v) = (.error cause, w) ∨
        ∃ o u, steps.run (opening tag assumptions v) = (.ok o, u) ∧ o.stopped = false ∧
          goal.run u = (.error cause, w) := by
  rw [run_proof, bind_run_error]
  refine or_congr_right (exists₂_congr fun o u => and_congr_right fun hrun => ?_)
  obtain ⟨hu, _⟩ := hsteps (opening tag assumptions v) u o hflag hrun
  have hscope : u.knowledge.facts = (v.knowledge.facts.enter tag).addAll (assumptions ++ es) :=
    hu.trans (Scopes.addAll_addAll (v.knowledge.facts.enter tag) assumptions es)
  -- what follows the goal never fails, as the facts are still those of the open scope
  have hclose {x : Verification} (hx : x.knowledge.facts = u.knowledge.facts) : ¬(do
      let facts ← facts
      exit tag
      return facts : Verify _).run x = (.error cause, w) := by
    intro h
    rcases bind_run_error.mp h with h | ⟨_, _, hknown, h⟩
    · cases h
    cases hknown
    rcases bind_run_error.mp h with h | ⟨_, _, _, h⟩
    · cases (run_exit (hx.trans hscope)).symm.trans h
    · exact absurd h pure_run_error
  unfold ending
  dsimp only
  split
  · rename_i ho
    simpa [ho] using hclose rfl
  · rename_i ho
    rw [Bool.not_eq_true] at ho
    rw [and_iff_right ho, bind_run_error]
    refine or_iff_left ?_
    rintro ⟨_, x, hx, h⟩
    exact hclose (hgoal u x ((htame.steady hrun).refuting.trans hflag) hx) h

/-- What is to be shown after the proof of a declaration. -/
def goal (depth : Nat) : Declaration → Verify Unit
  | .ofTheorem t => claim depth t.hypothesis.line t.hypothesis.expr none
  | .ofDefinition d => existence depth d

theorem declaration_run_error (hflag : v.knowledge.refuting = false) :
    (declaration depth d).run v = (.error cause, w) ↔
      Stumbles depth d.proof (opening d.tag d.assumptions v) cause w ∨
        ∃ o u, (block depth d.proof).run (opening d.tag d.assumptions v) = (.ok o, u) ∧
          o.stopped = false ∧ (goal depth d).run u = (.error cause, w) := by
  have hgoal : ∀ u w, u.knowledge.refuting = false → (goal depth d).run u = (.ok (), w) →
      w.knowledge.facts = u.knowledge.facts := by
    intro u w hflag h
    cases d with
    | ofTheorem t => exact claim_facts hflag h
    | ofDefinition d => rw [existence_run_ok h]
  rw [← block_run_error (v := opening d.tag d.assumptions v) hflag]
  refine Iff.trans ?_ (proof_run_error (block_leaves _ _) (tame_block _ _) hgoal hflag)
  cases d with
  | ofTheorem t | ofDefinition d =>
    refine bind_run_error.trans (or_iff_left ?_)
    rintro ⟨_, _, _, h⟩
    cases h

theorem existence_run_error (hflag : v.knowledge.refuting = false)
    (h : (existence depth d).run v = (.error cause, w)) :
    ∃ goal, existenceGoal? d = some goal ∧
      ((∃ truth, Reading.judge depth goal ⟨v.knowledge.facts.items, false⟩ = .ok truth ∧
        truth ≠ .holds ∧ cause = .noInstance d.line d.name goal) ∨
      ∃ fault, Reading.judge depth goal ⟨v.knowledge.facts.items, false⟩ = .error fault ∧
        cause = .internal fault) := by
  unfold existence at h
  cases hgoal : existenceGoal? d with
  | none =>
    simp only [hgoal] at h
    exact absurd h pure_run_error
  | some goal =>
    simp only [hgoal] at h
    exact ⟨goal, rfl, unless_holds_run_error hflag h⟩

end Verify

-- ---------------------------------------------------------------- scripts

namespace Script

/-- The ways in which a script is rejected. -/
inductive Rejects (depth : Nat) (script : Script) : Rejection → Prop
  | step {before after : Script} : script = before ++ d :: after →
    Verify.Executes depth before d route a u → a.Claims n e reason →
    before.library.Rejects depth n (d.assumptions ++ Step.known d.proof route) e reason cause →
    Rejects depth script cause
  | hypothesis {before after : Script} : script = before ++ .ofTheorem t :: after →
    before.library.Rejects depth t.hypothesis.line
      (t.requirements.map Sentence.expr ++ Step.conclusionsAll t.proof) t.hypothesis.expr none cause →
    Rejects depth script cause
  | noInstance : script = before ++ .ofDefinition d :: after →
    Verify.existenceGoal? d = some goal →
    Reading.judge depth goal ⟨Step.conclusionsAll d.proof, false⟩ = .ok truth → truth ≠ .holds →
    Rejects depth script (.noInstance d.line d.name goal)
  | instanceFault : script = before ++ .ofDefinition d :: after →
    Verify.existenceGoal? d = some goal →
    Reading.judge depth goal ⟨Step.conclusionsAll d.proof, false⟩ = .error fault →
    Rejects depth script (.internal fault)

variable {script before after : Script}

theorem verify_ok_iff : script.verify settings = .ok report ↔
    ∃ w, (script.forM (Verify.declaration settings.equalityDepth)).run {} = (.ok (), w) ∧
      w.report = report := by
  unfold verify
  rcases (script.forM (Verify.declaration settings.equalityDepth)).run {} with ⟨_ | _, w⟩ <;> simp

theorem verify_error_iff : script.verify settings = .error cause ↔
    ∃ before d after v w, script = before ++ d :: after ∧
      (before.forM (Verify.declaration settings.equalityDepth)).run {} = (.ok (), v) ∧
      (Verify.declaration settings.equalityDepth d).run v = (.error cause, w) := by
  have hrun : script.verify settings = .error cause ↔
      ∃ w, (script.forM (Verify.declaration settings.equalityDepth)).run {} = (.error cause, w) := by
    unfold verify
    rcases (script.forM (Verify.declaration settings.equalityDepth)).run {} with ⟨_ | _, w⟩ <;> simp
  simp only [hrun, Verify.forM_run_error]
  constructor
  · rintro ⟨w, before, d, after, v, h⟩
    exact ⟨before, d, after, v, w, h⟩
  · rintro ⟨before, d, after, v, w, h⟩
    exact ⟨w, before, d, after, v, h⟩

/-- What happens when a script is rejected is one of the things listed. -/
theorem rejects_of_verify (h : script.verify settings = .error cause) :
    script.Rejects settings.equalityDepth cause := by
  obtain ⟨before, d, after, v, w, rfl, hv, hd⟩ := verify_error_iff.mp h
  obtain ⟨hknown, hlibrary⟩ := Verify.declarations_leave hv rfl
  have hflag : v.knowledge.refuting = false := by rw [hknown]
  rcases (Verify.declaration_run_error hflag).mp hd with
    ⟨route, a, u, n, e, reason, hreaches, ha, h⟩ | ⟨o, u, hblock, ho, h⟩
  · have hexecutes : Verify.Executes settings.equalityDepth before d route a u := ⟨v, hv, hreaches⟩
    have hrejects := Verify.claim_run_error hexecutes.refuting h
    rw [hexecutes.library, hexecutes.items] at hrejects
    exact .step rfl hexecutes ha hrejects
  · have hfacts := Verify.block_facts hblock hflag ho
    have hitems : u.knowledge.facts.items = d.assumptions ++ Step.conclusionsAll d.proof := by
      rw [hfacts, Scopes.items_addAll]
      simp [Verify.opening, Verification.withFacts, Scopes.items_addAll, Scopes.items_enter, hknown]
      rfl
    have hsteady := (Verify.tame_block _ _).steady hblock
    have hflag' : u.knowledge.refuting = false := hsteady.refuting.trans hflag
    cases d with
    | ofTheorem t =>
      have hrejects := Verify.claim_run_error hflag' h
      have hlibrary : u.library = library before := hsteady.library.trans hlibrary
      rw [hlibrary, hitems] at hrejects
      exact .hypothesis rfl hrejects
    | ofDefinition d =>
      obtain ⟨goal, hgoal, ⟨truth, htruth, hfails, rfl⟩ | ⟨fault, hfault, rfl⟩⟩ :=
        Verify.existence_run_error hflag' h
      · rw [hitems] at htruth
        exact .noInstance rfl hgoal htruth hfails
      · rw [hitems] at hfault
        exact .instanceFault rfl hgoal hfault

/-- A script is rejected where one of the claims that are executed is. -/
theorem verify_of_executes (h : Verify.Executes settings.equalityDepth before d route a u)
    (ha : a.Claims n e reason)
    (hclaim : (Verify.claim settings.equalityDepth n e reason).run u = (.error cause, w)) :
    Script.verify (before ++ d :: after) settings = .error cause := by
  obtain ⟨v, hv, hreaches⟩ := h
  obtain ⟨hknown, _⟩ := Verify.declarations_leave hv rfl
  refine verify_error_iff.mpr ⟨before, d, after, v, w, rfl, hv, ?_⟩
  refine (Verify.declaration_run_error (by rw [hknown])).mpr (.inl ?_)
  exact ⟨route, a, u, n, e, reason, hreaches, ha, hclaim⟩

end Script

end ProofScript
