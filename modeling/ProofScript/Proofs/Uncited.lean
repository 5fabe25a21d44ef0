import ProofScript.Proofs.Tandem

/-!
# Declarations that are not cited

A declaration leaves an entry in the report, lists of facts where its proof has checks, and something to
cite. Main statement: where it is not cited afterwards, nothing else is left of it. Without it the rest
of the script is verified as before.
-/

namespace ProofScript

-- ---------------------------------------------------------------- reports one after the other

namespace Report

instance : Append Report := ⟨fun r s => ⟨r.entries ++ s.entries, r.dumps ++ s.dumps⟩⟩

variable (r s : Report)

theorem append_eq : r ++ s = ⟨r.entries ++ s.entries, r.dumps ++ s.dumps⟩ := rfl

theorem append_empty : r ++ ({} : Report) = r := by
  simp [append_eq]

end Report

-- ---------------------------------------------------------------- with and without

/-- Maps that agree on a name agree on it after both got the same entry. -/
theorem NameMap.find?_insert_congr {m m' : NameMap α} (h : m'.find? y = m.find? y) (x : String) (a : α) :
    (m'.insert x a).find? y = (m.insert x a).find? y := by
  by_cases hy : y = x
  · rw [hy, find?_insert_self, find?_insert_self]
  · rw [find?_insert_ne _ _ hy, find?_insert_ne _ _ hy, h]

-- A declaration can be cited under its own name only.

theorem Library.theorems_declare {lib : Library} {d : Declaration}
    (h : (DeclarationKind.proposition, x) ≠ (d.kind, d.name)) :
    (lib.declare d).theorems.find? x = lib.theorems.find? x := by
  cases d with
  | ofTheorem t => exact NameMap.find?_insert_ne _ _ fun heq => h (heq ▸ rfl)
  | ofDefinition d => rfl

theorem Library.definitions_declare {lib : Library} {d : Declaration}
    (h : (DeclarationKind.definition, x) ≠ (d.kind, d.name)) :
    (lib.declare d).definitions.find? x = lib.definitions.find? x := by
  cases d with
  | ofTheorem t => rfl
  | ofDefinition d => exact NameMap.find?_insert_ne _ _ fun heq => h (heq ▸ rfl)

/-- The same can be cited, but for what is missing, and the same has been reported after the reports `r`
and `r'`. -/
structure Books.Lacking (missing : DeclarationKind × String → Prop) (r r' : Report) (b b' : Books) : Prop where
  theorems : ∀ x, ¬missing (.proposition, x) →
    b'.library.theorems.find? x = b.library.theorems.find? x
  definitions : ∀ x, ¬missing (.definition, x) →
    b'.library.definitions.find? x = b.library.definitions.find? x
  report : ∃ s : Report, b.report = r ++ s ∧ b'.report = r' ++ s

namespace Books.Lacking

variable {missing : DeclarationKind × String → Prop}

theorem dump (h : Lacking missing r r' b b') (d : Dump) : Lacking missing r r' (b.dump d) (b'.dump d) := by
  obtain ⟨s, hb, hb'⟩ := h.report
  refine ⟨h.theorems, h.definitions, s ++ ⟨[], [d]⟩, ?_, ?_⟩
  · simp [Books.dump, hb, Report.append_eq]
  · simp [Books.dump, hb', Report.append_eq]

theorem declare (h : Lacking missing r r' b b') (d : Declaration) (admittedAt : Option Nat)
    (facts : List Expr) :
    Lacking missing r r' (b.declare d admittedAt facts) (b'.declare d admittedAt facts) := by
  obtain ⟨s, hb, hb'⟩ := h.report
  have hreport : ∃ s : Report, (b.declare d admittedAt facts).report = r ++ s ∧
      (b'.declare d admittedAt facts).report = r' ++ s := by
    refine ⟨s ++ ⟨[⟨d.kind, d.name, d.line, admittedAt, facts⟩], []⟩, ?_, ?_⟩
    · simp [Books.declare, hb, Report.append_eq]
    · simp [Books.declare, hb', Report.append_eq]
  cases d with
  | ofTheorem t =>
    exact ⟨fun x hx => NameMap.find?_insert_congr (h.theorems x hx) t.name t, h.definitions, hreport⟩
  | ofDefinition d =>
    exact ⟨h.theorems, fun x hx => NameMap.find?_insert_congr (h.definitions x hx) d.name d, hreport⟩

end Books.Lacking

namespace Verify

variable {missing : DeclarationKind × String → Prop} {r r' : Report}

/-- A block that cites nothing that is missing is verified in the same way without it. -/
theorem block_lacking {steps : List Step} (h : ∀ j ∈ Step.reasonsAll steps, ∀ c ∈ j.citation?, ¬missing c) :
    TandemBlocks (.same depth) (Books.Lacking missing r r') (block depth steps) (block depth steps) := by
  have hclaim (n : Nat) (e : Expr) {reason : Option Justification}
      (h : ∀ j ∈ reason.toList, ∀ c ∈ j.citation?, ¬missing c) :
      Tandem (.same depth) (Books.Lacking missing r r') id (claim depth n e reason)
        (claim depth n e reason) := by
    have hcited {c : DeclarationKind × String} (hc : some c = reason.bind Justification.citation?) :
        ¬missing c := by
      obtain ⟨j, hj, hc⟩ := Option.bind_eq_some_iff.mp hc.symm
      exact h j (by simp [hj]) c hc
    refine .claim n e Iff.rfl (.cite_same n (θ := Theorem.proof) (δ := Definition.proof) ?_ ?_)
    · intro x b b' hx hb
      exact (hb.theorems x (hcited hx)).trans (congrFun Option.map_id _).symm
    · intro x b b' hx hb
      exact (hb.definitions x (hcited hx)).trans (congrFun Option.map_id _).symm
  induction steps using Step.blockInduction with
  | nil => exact .nil
  | claim n e reason rest ih =>
    obtain ⟨hreason, hrest⟩ := List.forall_mem_append.mp h
    exact .cons (.conclude e (hclaim n e hreason)) (ih hrest)
  | choose n x e reason rest ih =>
    obtain ⟨hreason, hrest⟩ := List.forall_mem_append.mp h
    exact .cons (.conclude e (hclaim n (.bind .some x e) hreason)) (ih hrest)
  | cases n c yes no both rest ihyes ihno ihboth ih =>
    obtain ⟨hblocks, hrest⟩ := List.forall_mem_append.mp h
    obtain ⟨hbranches, hboth⟩ := List.forall_mem_append.mp hblocks
    obtain ⟨hyes, hno⟩ := List.forall_mem_append.mp hbranches
    exact .cons (.cases n c (ihyes hyes) (ihno hno) (ihboth hboth)) (ih hrest)
  | check n rest ih =>
    refine .cons (.check n fun b b' facts hb => ?_) (ih h)
    have hsame : facts.map (Translation.same depth).expr = facts := List.map_id facts
    rw [hsame]
    exact hb.dump ⟨n, facts⟩
  | admitted n rest ih => exact .cons (.admitted n) (ih h)

theorem declaration_lacking {d : Declaration}
    (h : ∀ j ∈ Step.reasonsAll d.proof, ∀ c ∈ j.citation?, ¬missing c) :
    Tandem (.same depth) (Books.Lacking missing r r') id (declaration depth d) (declaration depth d) := by
  have hsame : d.withProof d.proof = d := by cases d <;> rfl
  have htandem : Tandem (.same depth) (Books.Lacking missing r r') id (declaration depth d)
      (declaration depth (d.withProof d.proof)) := by
    refine .declaration_same (block_lacking h) fun b b' admittedAt facts hb => ?_
    rw [hsame]
    exact hb.declare d admittedAt facts
  rwa [hsame] at htandem

theorem declarations_lacking {script : Script}
    (h : ∀ d ∈ script, ∀ j ∈ Step.reasonsAll d.proof, ∀ c ∈ j.citation?, ¬missing c) :
    Tandem (.same depth) (Books.Lacking missing r r') id (script.forM (declaration depth))
      (script.forM (declaration depth)) := by
  have htandem : Tandem (.same depth) (Books.Lacking missing r r') id (script.forM (declaration depth))
      ((script.map id).forM (declaration depth)) := .forM fun d hd => declaration_lacking (h d hd)
  rwa [List.map_id] at htandem

/-- No admission is left noted after a declaration. -/
theorem declaration_admittedAt (h : (declaration depth d).run v = (.ok (), w)) : w.admittedAt = none := by
  rw [declaration_eq] at h
  obtain ⟨known, u, _, h⟩ := bind_run_ok.mp h
  cases h
  rfl

theorem declarations_admittedAt {script : Script}
    (h : (script.forM (declaration depth)).run v = (.ok (), w)) (hv : v.admittedAt = none) :
    w.admittedAt = none := by
  induction script generalizing v with
  | nil =>
    obtain ⟨_, rfl⟩ := pure_run_ok.mp h
    exact hv
  | cons d rest ih =>
    obtain ⟨_, u, hd, h⟩ := bind_run_ok.mp h
    exact ih h (declaration_admittedAt hd)

/-- What a declaration reports comes after what was reported before. -/
theorem declaration_reports (h : (declaration depth d).run v = (.ok (), w)) (hv : v.knowledge = {}) :
    ∃ own : Report, w.report = v.report ++ own ∧ ∃ admittedAt, own.entries = [d.entry admittedAt] := by
  have htandem : Tandem (.same depth) (Books.Lacking (fun _ => False) v.report {}) id
      (declaration depth d) (declaration depth d) := declaration_lacking fun _ _ _ _ => not_false
  have hsame : v.knowledge.map (Translation.same depth).expr = v.knowledge := by rw [hv]; rfl
  -- A second run is started with an empty report, so what it ends with is the declaration's own.
  have habreast : Abreast (.same depth) (Books.Lacking (fun _ => False) v.report {}) v
      { v with report := {} } := by
    refine ⟨hsame.symm, rfl, fun _ _ => rfl, fun _ _ => rfl, {}, ?_, ?_⟩
    · exact (Report.append_empty _).symm
    · rfl
  obtain ⟨own, hown, _⟩ := (htandem _ _ habreast).2.books.report
  rw [h] at hown
  refine ⟨own, hown, ?_⟩
  obtain ⟨admittedAt, hentries⟩ := declaration_records h hv
  have happend : v.report.entries ++ own.entries = v.report.entries ++ [d.entry admittedAt] :=
    (congrArg Report.entries hown).symm.trans hentries
  exact ⟨admittedAt, List.append_cancel_left happend⟩

end Verify

namespace Script

/-- Without a declaration that is not cited after it, a script is verified as before. Of the report only
the entry of that declaration is missing, and what the checks in its proof have listed. -/
theorem verify_without_uncited (before after : Script) (d : Declaration) (settings : Settings)
    (report : Report) (h : Script.verify (before ++ d :: after) settings = .ok report)
    (huncited : ∀ e ∈ after, ∀ j ∈ Step.reasonsAll e.proof, j.citation? ≠ some (d.kind, d.name)) :
    ∃ first own last : Report,
      Script.verify before settings = .ok first ∧
      Script.verify (before ++ [d]) settings = .ok (first ++ own) ∧
      (∃ admittedAt, own.entries = [d.entry admittedAt]) ∧
      report = first ++ own ++ last ∧
      Script.verify (before ++ after) settings = .ok (first ++ last) := by
  obtain ⟨w, hrun, rfl⟩ := verify_ok_iff.mp h
  obtain ⟨u, hbefore, hrun⟩ := Verify.forM_append_run_ok.mp hrun
  obtain ⟨_, v, hd, hafter⟩ := Verify.bind_run_ok.mp hrun
  obtain ⟨hu, _⟩ := Verify.declarations_leave hbefore rfl
  obtain ⟨hv, hlibrary⟩ := Verify.declaration_leaves hd hu
  obtain ⟨own, hown, hentry⟩ := Verify.declaration_reports hd hu
  -- The rest is run once from after the declaration and once from before it.
  have habreast : Abreast (.same settings.equalityDepth)
      (Books.Lacking (· = (d.kind, d.name)) v.report u.report) v u := by
    refine ⟨by rw [hu, hv]; rfl, ?_, ?_, ?_, {}, ?_, ?_⟩
    · rw [Verify.declarations_admittedAt hbefore rfl, Verify.declaration_admittedAt hd]
    · intro x hx
      show u.library.theorems.find? x = v.library.theorems.find? x
      rw [hlibrary, Library.theorems_declare hx]
    · intro x hx
      show u.library.definitions.find? x = v.library.definitions.find? x
      rw [hlibrary, Library.definitions_declare hx]
    · exact (Report.append_empty _).symm
    · exact (Report.append_empty _).symm
  have htandem : Verify.Tandem _ (Books.Lacking (· = (d.kind, d.name)) v.report u.report) id
      (after.forM (Verify.declaration settings.equalityDepth)) _ :=
    Verify.declarations_lacking fun e he j hj c hc heq => huncited e he j hj (heq ▸ hc)
  obtain ⟨hanswer, hstates⟩ := htandem v u habreast
  rw [hafter] at hanswer hstates
  obtain ⟨last, hw, hx⟩ := hstates.books.report
  refine ⟨u.report, own, last, verify_ok_iff.mpr ⟨u, hbefore, rfl⟩, ?_, hentry, ?_, ?_⟩
  · exact verify_ok_iff.mpr ⟨v, Verify.forM_append_run_ok.mpr ⟨u, hbefore,
      Verify.bind_run_ok.mpr ⟨(), v, hd, rfl⟩⟩, hown⟩
  · exact hown ▸ hw
  · exact verify_ok_iff.mpr ⟨_, Verify.forM_append_run_ok.mpr ⟨u, hbefore, Prod.ext hanswer rfl⟩, hx⟩

/-- A theorem whose proof cites the other one and has a check. -/
def citing : Theorem where
  name := "U"
  line := 8
  parameters := ["Q"]
  requirements := [⟨9, .var "Q"⟩]
  hypothesis := ⟨10, .binary .or (.var "Q") (.var "Q")⟩
  proof := [
    .claim 12 (.binary .or (.var "Q") (.var "Q")) (some (.instantiation "T" [.var "Q"])),
    .check 13]

/-- The definition between two theorems is not cited. -/
theorem verify_without_uncited_definition :
    let before : Script := [.ofTheorem ⟨"T", 1, ["P"], [⟨2, .var "P"⟩], ⟨3, .binary .or (.var "P") (.var "P")⟩, []⟩]
    let unused : Definition := ⟨"D", 5, [⟨6, .binary .equals (.var "D") (.var "D")⟩], [.check 7]⟩
    ∃ report first own last : Report,
      Script.verify (before ++ .ofDefinition unused :: [.ofTheorem citing]) {} = .ok report ∧
      Script.verify before {} = .ok first ∧ report = first ++ own ++ last ∧
      Script.verify (before ++ [.ofTheorem citing]) {} = .ok (first ++ last) := by
  intro before unused
  have hverified : (Script.verify (before ++ .ofDefinition unused :: [.ofTheorem citing]) {}).isOk = true := by
    decide +kernel
  cases hreport : Script.verify (before ++ .ofDefinition unused :: [.ofTheorem citing]) {} with
  | error cause =>
    rw [hreport] at hverified
    cases hverified
  | ok report =>
    obtain ⟨first, own, last, hfirst, _, _, hsplit, hrest⟩ :=
      verify_without_uncited before [.ofTheorem citing] (.ofDefinition unused) {} report hreport (by decide +kernel)
    exact ⟨report, first, own, last, rfl, hfirst, hsplit, hrest⟩

end Script

end ProofScript
