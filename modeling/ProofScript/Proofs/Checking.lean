import ProofScript.Proofs.ProofSteps
import ProofScript.Verification

/-!
# Verified declarations have their questions answered

The success of each function of the verifier is read as what it has established. A run that admits
nothing answers every question of the proof with yes, closes all scopes it opens, and adds exactly
the conclusions to the facts.
-/

namespace ProofScript

-- ---------------------------------------------------------------- runs

def Verification.library (v : Verification) : Library := ⟨v.theorems, v.definitions⟩

/-- The same state with other facts. -/
def Verification.withFacts (v : Verification) (facts : Scopes Expr) : Verification :=
  { v with knowledge := { v.knowledge with facts } }

/-- The statement is judged to hold, given the facts. -/
def Answered (depth : Nat) (Γ : List Expr) (e : Expr) : Prop :=
  Reading.judge depth e ⟨Γ, false⟩ = .ok .holds

namespace Verify

theorem run_bind (m : Verify α) (f : α → Verify β) (v : Verification) :
    (m >>= f).run v = match m.run v with
      | (.ok a, v) => (f a).run v
      | (.error cause, v) => (.error cause, v) := by
  simp only [run, ExceptT.run_bind, StateT.run_bind]
  rcases StateT.run (ExceptT.run m) v with ⟨_ | _, _⟩ <;> rfl

theorem bind_run_ok {m : Verify α} {f : α → Verify β} :
    (m >>= f).run v = (.ok b, w) ↔ ∃ a u, m.run v = (.ok a, u) ∧ (f a).run u = (.ok b, w) :=
  run_run_bind_ok

theorem pure_run_ok {a : α} : (pure a : Verify α).run v = (.ok b, w) ↔ a = b ∧ v = w := by
  show (Except.ok a, v) = (Except.ok b, w) ↔ _
  simp

theorem throw_run_ok : ¬(throw cause : Verify α).run v = (.ok b, w) := by
  intro h
  have : (Except.error cause, v) = ((Except.ok b : Except Rejection α), w) := h
  simp at this

theorem run_enter (tag : String) (v : Verification) :
    (enter tag).run v = (.ok (), v.withFacts (v.knowledge.facts.enter tag)) := rfl

theorem run_assume (e : Expr) (v : Verification) :
    (assume e).run v = (.ok (), v.withFacts (v.knowledge.facts.add e)) := rfl

theorem run_assumeAll (es : List Expr) (v : Verification) :
    (es.forM assume).run v = (.ok (), v.withFacts (v.knowledge.facts.addAll es)) := by
  induction es generalizing v with
  | nil =>
    rw [Scopes.addAll_nil]
    rfl
  | cons e es ih =>
    show (assume e >>= fun _ => es.forM assume).run v = _
    rw [run_bind, run_assume]
    simp only [ih]
    show (Except.ok (), v.withFacts ((v.knowledge.facts.addAll [e]).addAll es)) = _
    rw [Scopes.addAll_addAll]
    rfl

theorem forM_assume (rules : List Sentence) :
    (rules.forM fun rule => assume rule.expr) = (rules.map Sentence.expr).forM assume := by
  induction rules with
  | nil => rfl
  | cons rule rest ih => exact congrArg (assume rule.expr >>= fun _ => ·) ih

theorem inquire_run (m : Inquiry α) (v : Verification) : (inquire m).run v =
    ((m.run v.knowledge).1.mapError .internal, { v with knowledge := (m.run v.knowledge).2 }) := rfl

theorem run_exit {outer : Scopes Expr} (h : v.knowledge.facts = (outer.enter tag).addAll es) :
    (exit tag).run v = (.ok (), v.withFacts outer) := by
  have hexit : (Inquiry.exit tag).run v.knowledge = (.ok (), { v.knowledge with facts := outer }) := by
    simp only [Inquiry.exit, Inquiry.run_bind, Inquiry.run_get, h, Scopes.exit_enter_addAll]
    rfl
  unfold exit
  rw [inquire_run, hexit]
  rfl

theorem run_inquire {m : Inquiry α} (hm : m.Reads r) (v : Verification) :
    (inquire m).run v = ((r v.knowledge.view).mapError .internal, v) := by
  rw [inquire_run, hm v.knowledge]

theorem inquire_run_ok {m : Inquiry α} (hm : m.Reads r) :
    (inquire m).run v = (.ok a, w) ↔ r v.knowledge.view = .ok a ∧ v = w := by
  rw [run_inquire hm]
  cases r v.knowledge.view <;> simp [Except.mapError]

theorem instantiate_run_ok :
    (instantiate line i e).run v = (.ok d, w) ↔ i.apply e = .ok d ∧ v = w := by
  unfold instantiate
  cases i.apply e with
  | error cause => exact ⟨fun h => absurd h throw_run_ok, fun h => nomatch h.1⟩
  | ok d => exact pure_run_ok.trans (by simp)

-- ---------------------------------------------------------------- claims

/-- Tests that leave the state alone all pass. -/
theorem forM_run_ok {as : List α} {f : α → Verify Unit} {Q : α → Prop}
    (hf : ∀ a ∈ as, ∀ w, (f a).run v = (.ok (), w) → v = w ∧ Q a)
    (h : (as.forM f).run v = (.ok (), w)) : v = w ∧ ∀ a ∈ as, Q a := by
  induction as with
  | nil => exact ⟨(pure_run_ok.mp h).2, List.forall_mem_nil _⟩
  | cons a as ih =>
    obtain ⟨_, u, ha, h⟩ := bind_run_ok.mp h
    obtain ⟨rfl, hqa⟩ := hf a (by simp) u ha
    obtain ⟨rfl, hq⟩ := ih (fun b hb => hf b (by simp [hb])) h
    exact ⟨rfl, List.forall_mem_cons.mpr ⟨hqa, hq⟩⟩

section
variable {v w : Verification} (hflag : v.knowledge.refuting = false)
include hflag

theorem judge_run_ok (h : (inquire (judge depth e)).run v = (.ok t, w)) :
    Reading.judge depth e ⟨v.knowledge.facts.items, false⟩ = .ok t ∧ v = w := by
  have h := (inquire_run_ok (judge_reads depth e)).mp h
  rwa [Knowledge.view, hflag] at h

theorem requirement_run_ok (h : (requirement depth line x i s).run v = (.ok (), w)) :
    v = w ∧ ∃ r, i.apply s.expr = .ok r ∧ Answered depth v.knowledge.facts.items r := by
  obtain ⟨r, u, hinstantiate, h⟩ := bind_run_ok.mp h
  obtain ⟨hr, rfl⟩ := instantiate_run_ok.mp hinstantiate
  obtain ⟨t, u, hjudge, h⟩ := bind_run_ok.mp h
  obtain ⟨ht, rfl⟩ := judge_run_ok hflag hjudge
  cases t with
  | holds => exact ⟨(pure_run_ok.mp h).2, r, hr, ht⟩
  | fails | unknown => exact absurd h throw_run_ok

theorem citeTheorem_run_ok (h : (citeTheorem depth line x args).run v = (.ok (), w)) :
    ∃ t d, v.theorems.find? x = some t ∧
      (∀ s ∈ t.requirements, ∃ r, (t.instantiation args).apply s.expr = .ok r ∧
        Answered depth v.knowledge.facts.items r) ∧
      (t.instantiation args).apply t.hypothesis.expr = .ok d ∧
      w = v.withFacts (v.knowledge.facts.addAll [d]) := by
  obtain ⟨_, _, hget, h⟩ := bind_run_ok.mp h
  cases hget
  cases ht : v.theorems.find? x with
  | none =>
    simp only [ht] at h
    exact absurd h throw_run_ok
  | some t =>
    simp only [ht] at h
    split at h
    · obtain ⟨_, _, hthrow, _⟩ := bind_run_ok.mp h
      exact absurd hthrow throw_run_ok
    · obtain ⟨_, u, hforM, h⟩ := bind_run_ok.mp h
      obtain ⟨rfl, hreq⟩ := forM_run_ok (fun s _ w hs => requirement_run_ok hflag hs) hforM
      obtain ⟨d, u, hinstantiate, h⟩ := bind_run_ok.mp h
      obtain ⟨hd, rfl⟩ := instantiate_run_ok.mp hinstantiate
      cases h
      exact ⟨t, d, rfl, hreq, hd, rfl⟩

omit hflag in
theorem citeDefinition_run_ok (h : (citeDefinition line x).run v = (.ok (), w)) :
    ∃ d, v.definitions.find? x = some d ∧
      w = v.withFacts (v.knowledge.facts.addAll (d.rules.map Sentence.expr)) := by
  obtain ⟨_, _, hget, h⟩ := bind_run_ok.mp h
  cases hget
  cases hd : v.definitions.find? x with
  | none =>
    simp only [hd] at h
    exact absurd h throw_run_ok
  | some d =>
    simp only [hd] at h
    rw [forM_assume, run_assumeAll] at h
    cases h
    exact ⟨d, rfl, rfl⟩

/-- A citation brings in facts with which a claim has all its questions answered. -/
theorem cite_run_ok (hreason : reason ≠ some .admitted)
    (h : (cite depth line reason).run v = (.ok (), w)) :
    ∃ more, w = v.withFacts (v.knowledge.facts.addAll more) ∧
      ∀ e, Answered depth (v.knowledge.facts.items ++ more) e →
        v.library.Asks (Answered depth) v.knowledge.facts.items e reason := by
  cases reason with
  | none =>
    obtain ⟨_, rfl⟩ := pure_run_ok.mp h
    refine ⟨[], ?_, fun e he => by simpa [Library.Asks] using he⟩
    rw [Scopes.addAll_nil]
    rfl
  | some j =>
    cases j with
    | admitted => exact absurd rfl hreason
    | definition x =>
      obtain ⟨d, hd, hw⟩ := citeDefinition_run_ok h
      exact ⟨_, hw, fun e he => ⟨d, hd, he⟩⟩
    | instantiation x args =>
      obtain ⟨t, d, ht, hreq, hd, hw⟩ := citeTheorem_run_ok hflag h
      exact ⟨[d], hw, fun e he => ⟨t, ht, hreq, d, hd, he⟩⟩

/-- A claim is admitted, or it has all its questions answered and leaves the state alone. -/
theorem claim_run_cases (h : (claim depth line e reason).run v = (.ok (), w)) :
    (reason = some .admitted ∧ w = { v with admittedAt := v.admittedAt <|> some line }) ∨
      (v = w ∧ v.library.Asks (Answered depth) v.knowledge.facts.items e reason) := by
  unfold claim at h
  split at h
  · rename_i hreason
    cases h
    exact .inl ⟨hreason, rfl⟩
  · rename_i hreason
    obtain ⟨_, _, henter, h⟩ := bind_run_ok.mp h
    rw [run_enter] at henter
    cases henter
    obtain ⟨_, u, hcite, h⟩ := bind_run_ok.mp h
    obtain ⟨more, rfl, hasks⟩ :=
      cite_run_ok (v := v.withFacts (v.knowledge.facts.enter "Statement")) hflag hreason hcite
    obtain ⟨t, u, hjudge, h⟩ := bind_run_ok.mp h
    obtain ⟨ht, rfl⟩ := judge_run_ok (v := v.withFacts
      ((v.knowledge.facts.enter "Statement").addAll more)) hflag hjudge
    obtain ⟨_, u, hexit, h⟩ := bind_run_ok.mp h
    have hexit := (run_exit rfl).symm.trans hexit
    cases hexit
    have hitems : (v.withFacts (v.knowledge.facts.enter "Statement")).knowledge.facts.items =
        v.knowledge.facts.items := Scopes.items_enter ..
    cases t with
    | holds =>
      obtain ⟨_, rfl⟩ := pure_run_ok.mp h
      refine .inr ⟨rfl, ?_⟩
      rw [← hitems]
      refine hasks e ?_
      simpa [Answered, Scopes.items_addAll, Verification.withFacts] using ht
    | fails | unknown => exact absurd h throw_run_ok

/-- A claim that is not admitted has all its questions answered and leaves the state alone. -/
theorem claim_run_ok (h : (claim depth line e reason).run v = (.ok (), w)) (hw : w.admittedAt = none) :
    v = w ∧ v.library.Asks (Answered depth) v.knowledge.facts.items e reason := by
  rcases claim_run_cases hflag h with ⟨_, rfl⟩ | h
  · cases hv : v.admittedAt <;> simp [hv] at hw
  · exact h

end

-- ---------------------------------------------------------------- what no proof changes

/-- The flag, the library and the entries are the same, and no admission is forgotten. -/
structure Steady (v w : Verification) : Prop where
  refuting : w.knowledge.refuting = v.knowledge.refuting
  theorems : w.theorems = v.theorems
  definitions : w.definitions = v.definitions
  entries : w.report.entries = v.report.entries
  admitted : w.admittedAt = none → v.admittedAt = none

theorem Steady.refl (v : Verification) : Steady v v := ⟨rfl, rfl, rfl, rfl, id⟩

theorem Steady.trans (h : Steady u v) (h' : Steady v w) : Steady u w where
  refuting := h'.refuting.trans h.refuting
  theorems := h'.theorems.trans h.theorems
  definitions := h'.definitions.trans h.definitions
  entries := h'.entries.trans h.entries
  admitted hw := h.admitted (h'.admitted hw)

def Tame (m : Verify α) : Prop := ∀ v, Steady v (m.run v).2

namespace Tame

theorem pure (a : α) : Tame (Pure.pure a) := fun v => .refl v

theorem throw (cause : Rejection) : Tame (MonadExcept.throw cause : Verify α) := fun v => .refl v

theorem bind {m : Verify α} {f : α → Verify β} (hm : Tame m) (hf : ∀ a, Tame (f a)) :
    Tame (m >>= f) := by
  intro v
  have hm := hm v
  rw [run_bind]
  rcases hrun : m.run v with ⟨_ | a, u⟩ <;> rw [hrun] at hm
  · exact hm
  · exact hm.trans (hf a u)

theorem inquire {m : Inquiry α} (hm : ∀ k, (m.run k).2.refuting = k.refuting) :
    Tame (Verify.inquire m) :=
  fun v => ⟨hm v.knowledge, rfl, rfl, rfl, id⟩

theorem judge (depth : Nat) (e : Expr) : Tame (Verify.inquire (judge depth e)) :=
  inquire fun k => by rw [judge_reads depth e k]

theorem enter (tag : String) : Tame (enter tag) := inquire fun _ => rfl

theorem assume (e : Expr) : Tame (assume e) := inquire fun _ => rfl

theorem exit (tag : String) : Tame (exit tag) := by
  refine inquire fun k => ?_
  simp only [Inquiry.exit, Inquiry.run_bind, Inquiry.run_get]
  cases k.facts.exit tag <;> rfl

theorem forM {f : α → Verify Unit} (hf : ∀ a, Tame (f a)) (as : List α) : Tame (as.forM f) := by
  induction as with
  | nil => exact pure _
  | cons a as ih => exact (hf a).bind fun _ => ih

theorem get : Tame (MonadState.get : Verify Verification) := fun v => .refl v

theorem admitAt (line : Nat) : Tame (admitAt line) := by
  refine fun v => ⟨rfl, rfl, rfl, rfl, fun h => ?_⟩
  have h : (v.admittedAt <|> some line) = none := h
  cases hv : v.admittedAt with
  | none => rfl
  | some _ => simp [hv] at h

theorem instantiate : Tame (instantiate line i e) := by
  unfold Verify.instantiate
  cases i.apply e with
  | error cause => exact throw _
  | ok d => exact pure _

theorem requirement : Tame (requirement depth line x i s) :=
  instantiate.bind fun r => (judge depth r).bind fun t => by
    cases t with
    | holds => exact pure _
    | fails | unknown => exact throw _

theorem citeTheorem : Tame (citeTheorem depth line x args) := by
  refine get.bind fun v => ?_
  cases v.theorems.find? x with
  | none => exact throw _
  | some t =>
    have hrest : Tame (do
        t.requirements.forM (Verify.requirement depth line t.name (t.instantiation args))
        Verify.assume (← Verify.instantiate line (t.instantiation args) t.hypothesis.expr)) :=
      (forM (fun _ => requirement) _).bind fun _ => instantiate.bind fun d => assume d
    dsimp only
    split
    · exact (throw _).bind fun _ => hrest
    · exact hrest

theorem citeDefinition : Tame (citeDefinition line x) := by
  refine get.bind fun v => ?_
  cases v.definitions.find? x with
  | none => exact throw _
  | some d => exact forM (fun rule : Sentence => assume rule.expr) _

theorem cite : Tame (cite depth line reason) := by
  cases reason with
  | none => exact pure _
  | some j =>
    cases j with
    | admitted => exact pure _
    | definition x => exact citeDefinition
    | instantiation x args => exact citeTheorem

theorem claim : Tame (claim depth line e reason) := by
  unfold Verify.claim
  split
  · exact admitAt line
  · refine (enter _).bind fun _ => cite.bind fun _ => (judge depth e).bind fun t =>
      (exit _).bind fun _ => ?_
    cases t with
    | holds => exact pure _
    | fails | unknown => exact throw _

theorem andThen {outcome : Outcome} {rest : Verify Outcome} (hrest : Tame rest) :
    Tame (outcome.andThen rest) := by
  unfold Outcome.andThen
  split
  · exact pure _
  · exact hrest.bind fun _ => pure _

theorem branch {own common : Verify Outcome} (hown : Tame own) (hcommon : Tame common) :
    Tame (branch tag a own common) := by
  refine (enter tag).bind fun _ => (assume a).bind fun _ => hown.bind fun first => ?_
  split
  · exact (pure _).bind fun _ => (exit tag).bind fun _ => pure _
  · exact hcommon.bind fun _ => (exit tag).bind fun _ => pure _

theorem block (h : ∀ s ∈ steps, Tame (step depth s)) : Tame (block depth steps) := by
  induction steps with
  | nil => exact pure _
  | cons s rest ih =>
    obtain ⟨hs, hrest⟩ := List.forall_mem_cons.mp h
    exact hs.bind fun _ => andThen (ih hrest)

theorem step (s : Step) : Tame (step depth s) := by
  induction s using Step.induction with
  | claim n e reason => exact claim.bind fun _ => (assume e).bind fun _ => pure _
  | choose n x e reason => exact claim.bind fun _ => (assume e).bind fun _ => pure _
  | cases n c yes no both ihyes ihno ihboth =>
    refine (branch (block ihyes) (block ihboth)).bind fun first => ?_
    split
    · exact pure _
    refine (branch (block ihno) (block ihboth)).bind fun second => ?_
    split
    · exact pure _
    exact (forM assume _).bind fun _ => pure _
  | check n => exact fun v => ⟨rfl, rfl, rfl, rfl, id⟩
  | admitted n => exact (admitAt n).bind fun _ => pure _

end Tame

-- ---------------------------------------------------------------- blocks

theorem Steady.library (h : Steady v w) : w.library = v.library := by
  simp [Verification.library, h.theorems, h.definitions]

theorem Tame.steady {m : Verify α} (hm : Tame m) (h : m.run v = (a, w)) : Steady v w := by
  have := hm v
  rwa [h] at this

/-- A run that admits nothing adds these facts to the known ones, and the questions are settled. -/
def Settles (m : Verify Outcome) (es : List Expr) (Q : Library → List Expr → Prop) : Prop :=
  ∀ v w outcome, v.knowledge.refuting = false → m.run v = (.ok outcome, w) → w.admittedAt = none →
    outcome = { concluded := es } ∧ w.knowledge.facts = v.knowledge.facts.addAll es ∧
      Q v.library v.knowledge.facts.items

theorem block_settles (h : ∀ s ∈ steps, Settles (step depth s) s.conclusions
      fun lib Γ => s.Asks (Answered depth) lib Γ) :
    Settles (block depth steps) (Step.conclusionsAll steps)
      fun lib Γ => Step.AsksAll (Answered depth) lib steps Γ := by
  induction steps with
  | nil =>
    intro v w outcome _ hrun _
    obtain ⟨rfl, rfl⟩ := pure_run_ok.mp hrun
    exact ⟨rfl, (Scopes.addAll_nil _).symm, trivial⟩
  | cons s rest ih =>
    intro v w outcome hflag hrun hw
    obtain ⟨hs, hrest⟩ := List.forall_mem_cons.mp h
    obtain ⟨first, u, hfirst, hrun⟩ := bind_run_ok.mp hrun
    have hsteady := (Tame.step s).steady hfirst
    have htame : Tame (block depth rest) := .block fun s _ => .step s
    have hu := ((Tame.andThen htame).steady hrun).admitted hw
    obtain ⟨rfl, hfacts, hasks⟩ := hs v u first hflag hfirst hu
    obtain ⟨second, x, hsecond, hrun⟩ := bind_run_ok.mp hrun
    obtain ⟨rfl, rfl⟩ := pure_run_ok.mp hrun
    obtain ⟨rfl, hfacts', hasks'⟩ :=
      ih hrest u x second (hsteady.refuting.trans hflag) hsecond hw
    refine ⟨rfl, ?_, hasks, ?_⟩
    · rw [hfacts', hfacts, Scopes.addAll_addAll]
      rfl
    · rwa [hsteady.library, hfacts, Scopes.items_addAll] at hasks'

/-- A branch settles the questions of both its blocks. What is known outside stays as it was. -/
theorem branch_settles {own common : Verify Outcome} (hown : Settles own es Q)
    (hcommon : Settles common fs R) (htame : Tame own) (htame' : Tame common)
    (hflag : v.knowledge.refuting = false)
    (hrun : (branch tag a own common).run v = (.ok outcome, w)) (hw : w.admittedAt = none) :
    outcome = { concluded := fs } ∧ w.knowledge.facts = v.knowledge.facts ∧
      Q v.library (v.knowledge.facts.items ++ [a]) ∧
      R v.library (v.knowledge.facts.items ++ [a] ++ es) := by
  obtain ⟨_, _, henter, hrun⟩ := bind_run_ok.mp hrun
  rw [run_enter] at henter
  cases henter
  obtain ⟨_, _, hassume, hrun⟩ := bind_run_ok.mp hrun
  rw [run_assume] at hassume
  cases hassume
  obtain ⟨first, u, hfirst, hrun⟩ := bind_run_ok.mp hrun
  have hsteady := htame.steady hfirst
  have hitems : ((v.knowledge.facts.enter tag).add a).items = v.knowledge.facts.items ++ [a] := by
    rw [Scopes.add, Scopes.items_addAll, Scopes.items_enter]
  have hadmitted : u.admittedAt = none := by
    refine Steady.admitted ?_ hw
    split at hrun
    · exact ((Tame.pure _).bind fun _ => (Tame.exit tag).bind fun _ => .pure _).steady hrun
    · exact (htame'.bind fun _ => (Tame.exit tag).bind fun _ => .pure _).steady hrun
  obtain ⟨rfl, hfacts, hq⟩ := hown (v.withFacts ((v.knowledge.facts.enter tag).add a)) u first hflag
    hfirst hadmitted
  obtain ⟨second, x, hsecond, hrun⟩ := bind_run_ok.mp hrun
  obtain ⟨_, y, hexit, hrun⟩ := bind_run_ok.mp hrun
  obtain ⟨rfl, rfl⟩ := pure_run_ok.mp hrun
  obtain ⟨rfl, hfacts', hr⟩ := hcommon u x second (hsteady.refuting.trans hflag) hsecond
    (((Tame.exit tag).steady hexit).admitted hw)
  have hscope : x.knowledge.facts = (v.knowledge.facts.enter tag).addAll (a :: (es ++ fs)) := by
    rw [hfacts', hfacts, Scopes.addAll_addAll]
    exact Scopes.addAll_addAll (v.knowledge.facts.enter tag) [a] (es ++ fs)
  cases (run_exit hscope).symm.trans hexit
  refine ⟨rfl, rfl, ?_, ?_⟩
  · exact hitems ▸ hq
  · rw [hsteady.library, hfacts, Scopes.items_addAll] at hr
    exact hitems ▸ hr

theorem step_settles (s : Step) : Settles (step depth s) s.conclusions
    fun lib Γ => s.Asks (Answered depth) lib Γ := by
  induction s using Step.induction with
  | claim n e reason | choose n x e reason =>
    intro v w outcome hflag hrun hw
    obtain ⟨_, u, hclaim, hrun⟩ := bind_run_ok.mp hrun
    obtain ⟨_, _, hassume, hrun⟩ := bind_run_ok.mp hrun
    rw [run_assume] at hassume
    cases hassume
    obtain ⟨rfl, rfl⟩ := pure_run_ok.mp hrun
    obtain ⟨rfl, hasks⟩ := claim_run_ok hflag hclaim hw
    exact ⟨rfl, rfl, hasks⟩
  | cases n c yes no both ihyes ihno ihboth =>
    intro v w outcome hflag hrun hw
    have htame (steps) : Tame (block depth steps) := .block fun s _ => .step s
    obtain ⟨first, u, hfirst, hrun⟩ := bind_run_ok.mp hrun
    have hsteady := (Tame.branch (htame yes) (htame both)).steady hfirst
    have hu : u.admittedAt = none := by
      refine Steady.admitted ?_ hw
      split at hrun
      · exact (Tame.pure _).steady hrun
      refine Tame.steady ((Tame.branch (htame no) (htame both)).bind fun second => ?_) hrun
      split
      · exact .pure _
      · exact (Tame.forM .assume _).bind fun _ => .pure _
    obtain ⟨rfl, hfacts, hyes⟩ := branch_settles (block_settles ihyes) (block_settles ihboth)
      (htame yes) (htame both) hflag hfirst hu
    obtain ⟨second, x, hsecond, hrun⟩ := bind_run_ok.mp hrun
    have hx : x.admittedAt = none := by
      refine Steady.admitted ?_ hw
      split at hrun
      · exact (Tame.pure _).steady hrun
      · exact ((Tame.forM .assume _).bind fun _ => .pure _).steady hrun
    obtain ⟨rfl, hfacts', hno⟩ := branch_settles (block_settles ihno) (block_settles ihboth)
      (htame no) (htame both) (hsteady.refuting.trans hflag) hsecond hx
    obtain ⟨_, _, hforM, hrun⟩ := bind_run_ok.mp hrun
    rw [run_assumeAll] at hforM
    cases hforM
    obtain ⟨rfl, rfl⟩ := pure_run_ok.mp hrun
    rw [hsteady.library, hfacts] at hno
    refine ⟨rfl, ?_, hyes, hno⟩
    show x.knowledge.facts.addAll _ = _
    rw [hfacts', hfacts]
    rfl
  | check n =>
    intro v w outcome _ hrun _
    cases hrun
    exact ⟨rfl, (Scopes.addAll_nil _).symm, trivial⟩
  | admitted n =>
    intro v w outcome _ hrun hw
    cases hrun
    cases hv : v.admittedAt <;> simp [hv] at hw

-- ---------------------------------------------------------------- declarations

/-- What a proof ends with. -/
def ending (tag : String) (goal : Verify Unit) (outcome : Outcome) : Verify (List Expr) := do
  unless outcome.stopped do goal
  let facts ← facts
  exit tag
  return facts

theorem Tame.ending {goal : Verify Unit} (hgoal : Tame goal) (outcome : Outcome) :
    Tame (ending tag goal outcome) := by
  unfold Verify.ending
  dsimp only
  split
  · exact (inquire fun _ => rfl).bind fun _ => (exit tag).bind fun _ => pure _
  · exact hgoal.bind fun _ => (inquire fun _ => rfl).bind fun _ => (exit tag).bind fun _ => pure _

/-- What a proof starts from. -/
def opening (tag : String) (assumptions : List Expr) (v : Verification) : Verification :=
  { v.withFacts ((v.knowledge.facts.enter tag).addAll assumptions) with admittedAt := none }

theorem run_proof (tag : String) (assumptions : List Expr) (steps : Verify Outcome) (goal : Verify Unit)
    (v : Verification) : (proof tag assumptions steps goal).run v =
      (steps >>= ending tag goal).run (opening tag assumptions v) := by
  show (assumptions.forM assume >>= fun _ => steps >>= ending tag goal).run _ = _
  rw [run_bind, run_assumeAll]
  rfl

theorem proof_run_ok {steps : Verify Outcome}
    (h : (proof tag assumptions steps goal).run v = (.ok known, w)) :
    ∃ outcome u, steps.run (opening tag assumptions v) = (.ok outcome, u) ∧
      (ending tag goal outcome).run u = (.ok known, w) := by
  rw [run_proof] at h
  exact bind_run_ok.mp h

theorem proof_steady {steps : Verify Outcome} {goal : Verify Unit} (hsteps : Tame steps)
    (hgoal : Tame goal) (h : (proof tag assumptions steps goal).run v = (.ok known, w)) :
    Steady (opening tag assumptions v) w := by
  obtain ⟨outcome, u, houtcome, hending⟩ := proof_run_ok h
  exact (hsteps.steady houtcome).trans ((hgoal.ending outcome).steady hending)

/-- A proof that admits nothing settles the questions of its steps and then its goal. What is known
outside stays as it was. -/
theorem proof_settles {steps : Verify Outcome} {goal : Verify Unit}
    {R : Library → List Expr → Prop} (hsteps : Settles steps es Q) (htame : Tame steps)
    (htame' : Tame goal)
    (hgoal : ∀ u w, u.knowledge.refuting = false → goal.run u = (.ok (), w) → w.admittedAt = none →
      u = w ∧ R u.library u.knowledge.facts.items)
    (hflag : v.knowledge.refuting = false)
    (hrun : (proof tag assumptions steps goal).run v = (.ok known, w)) (hw : w.admittedAt = none) :
    w.knowledge.facts = v.knowledge.facts ∧
      Q v.library (v.knowledge.facts.items ++ assumptions) ∧
      R v.library (v.knowledge.facts.items ++ assumptions ++ es) := by
  obtain ⟨outcome, u, houtcome, hending⟩ := proof_run_ok hrun
  have hsteady := htame.steady houtcome
  have hu := ((htame'.ending outcome).steady hending).admitted hw
  obtain ⟨rfl, hfacts, hq⟩ := hsteps (opening tag assumptions v) u outcome hflag houtcome hu
  obtain ⟨_, x, hx, hending⟩ := bind_run_ok.mp hending
  obtain ⟨_, y, hknown, hending⟩ := bind_run_ok.mp hending
  cases hknown
  obtain ⟨_, y, hexit, hending⟩ := bind_run_ok.mp hending
  obtain ⟨rfl, rfl⟩ := pure_run_ok.mp hending
  obtain ⟨rfl, hr⟩ := hgoal u x (hsteady.refuting.trans hflag) hx
    (((Tame.exit tag).steady hexit).admitted hw)
  have hitems : (opening tag assumptions v).knowledge.facts.items =
      v.knowledge.facts.items ++ assumptions := by
    simp [opening, Verification.withFacts, Scopes.items_addAll, Scopes.items_enter]
  have hscope : u.knowledge.facts = (v.knowledge.facts.enter tag).addAll (assumptions ++ es) :=
    hfacts.trans (Scopes.addAll_addAll (v.knowledge.facts.enter tag) assumptions es)
  cases (run_exit hscope).symm.trans hexit
  refine ⟨rfl, ?_, ?_⟩
  · exact hitems ▸ hq
  · rw [hsteady.library, hfacts, Scopes.items_addAll, hitems] at hr
    exact hr

theorem Tame.existence (d : Definition) : Tame (existence depth d) := by
  unfold Verify.existence
  cases existenceGoal? d with
  | none => exact pure _
  | some goal =>
    refine (judge depth goal).bind fun t => ?_
    cases t with
    | holds => exact pure _
    | fails | unknown => exact throw _

theorem existence_run_ok (h : (existence depth d).run v = (.ok (), w)) : v = w := by
  unfold existence at h
  cases hgoal : existenceGoal? d with
  | none =>
    simp only [hgoal] at h
    exact (pure_run_ok.mp h).2
  | some goal =>
    simp only [hgoal] at h
    obtain ⟨t, u, hjudge, h⟩ := bind_run_ok.mp h
    obtain ⟨_, rfl⟩ := (inquire_run_ok (judge_reads depth goal)).mp hjudge
    cases t with
    | holds => exact (pure_run_ok.mp h).2
    | fails | unknown => exact absurd h throw_run_ok

theorem knowledge_of_steady (hv : v.knowledge = {}) (hfacts : w.knowledge.facts = v.knowledge.facts)
    (hsteady : Steady (opening tag assumptions v) w) : w.knowledge = {} := by
  rw [← hv]
  cases hw : w.knowledge
  cases hv : v.knowledge
  have hrefuting := hsteady.refuting
  simp_all [opening, Verification.withFacts]

/-- A declaration adds its entry to the report. If the entry says that nothing was admitted, all
questions of a theorem are answered, and no fact is left over. -/
theorem declaration_run_ok (h : (declaration depth d).run v = (.ok (), w)) :
    ∃ entry, w.report.entries = v.report.entries ++ [entry] ∧
      (v.knowledge = {} → entry.admittedAt = none →
        w.knowledge = {} ∧ w.library = v.library.declare d ∧
          ∀ t, d = .ofTheorem t → t.Asks (Answered depth) v.library) := by
  have htame (steps) : Tame (block depth steps) := .block fun s _ => .step s
  have hsettles (steps) : Settles (block depth steps) (Step.conclusionsAll steps)
      fun lib Γ => Step.AsksAll (Answered depth) lib steps Γ := block_settles fun s _ => step_settles s
  cases d with
  | ofTheorem t =>
    obtain ⟨known, u, hproof, h⟩ := bind_run_ok.mp h
    cases h
    have hsteady := proof_steady (htame _) .claim hproof
    refine ⟨_, congrArg (· ++ _) hsteady.entries, fun hv hadmitted => ?_⟩
    obtain ⟨hfacts, hsteps, hgoal⟩ := proof_settles (hsettles _) (htame _) .claim
      (R := fun lib Γ => lib.Asks (Answered depth) Γ t.hypothesis.expr none)
      (fun u w hflag hrun hw => claim_run_ok hflag hrun hw) (by rw [hv]) hproof hadmitted
    have hknown := knowledge_of_steady hv hfacts hsteady
    refine ⟨hknown, ?_, ?_⟩
    · exact congrArg (·.declare (.ofTheorem t)) hsteady.library
    · rintro _ ⟨⟩
      rw [hv] at hsteps hgoal
      exact ⟨hsteps, hgoal⟩
  | ofDefinition d =>
    obtain ⟨known, u, hproof, h⟩ := bind_run_ok.mp h
    cases h
    have hsteady := proof_steady (htame _) (.existence d) hproof
    refine ⟨_, congrArg (· ++ _) hsteady.entries, fun hv hadmitted => ?_⟩
    obtain ⟨hfacts, _, _⟩ := proof_settles (hsettles _) (htame _) (.existence d)
      (R := fun _ _ => True) (fun u w _ hrun _ => ⟨existence_run_ok hrun, trivial⟩) (by rw [hv])
      hproof hadmitted
    have hknown := knowledge_of_steady hv hfacts hsteady
    refine ⟨hknown, ?_, fun t h => nomatch h⟩
    exact congrArg (·.declare (.ofDefinition d)) hsteady.library

/-- Declarations only add entries, and a report that is fully proved has all questions of its
theorems answered. -/
theorem declarations_run_ok {script : Script}
    (h : (script.forM (declaration depth)).run v = (.ok (), w)) :
    v.report.entries ⊆ w.report.entries ∧
      (v.knowledge = {} → w.report.isFullyProved = true →
        script.Asks (Answered depth) v.library) := by
  induction script generalizing v with
  | nil =>
    obtain ⟨_, rfl⟩ := pure_run_ok.mp h
    exact ⟨List.Subset.refl _, fun _ _ => trivial⟩
  | cons d rest ih =>
    obtain ⟨_, u, hd, h⟩ := bind_run_ok.mp h
    obtain ⟨entry, hentries, hdeclared⟩ := declaration_run_ok hd
    obtain ⟨hkept, hrest⟩ := ih h
    have hentry : entry ∈ w.report.entries := hkept (by simp [hentries])
    refine ⟨fun a ha => hkept (by simp [hentries, ha]), fun hv hproved => ?_⟩
    have hadmitted : entry.admittedAt = none :=
      Option.isNone_iff_eq_none.mp (List.all_eq_true.mp hproved entry hentry)
    obtain ⟨hknown, hlibrary, hasks⟩ := hdeclared hv hadmitted
    have hrest := hrest hknown hproved
    rw [hlibrary] at hrest
    cases d with
    | ofTheorem t => exact ⟨hasks t rfl, hrest⟩
    | ofDefinition d => exact hrest

end Verify

/-- In a script that is verified without admissions, every question of every theorem is answered. -/
theorem Script.asks_of_verify (h : Script.verify script settings = .ok report)
    (hproved : report.isFullyProved = true) :
    script.Asks (Answered settings.equalityDepth) {} := by
  unfold Script.verify at h
  split at h
  · rename_i w hrun
    cases h
    exact (Verify.declarations_run_ok hrun).2 rfl hproved
  · cases h

end ProofScript
