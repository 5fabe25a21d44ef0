import ProofScript.Proofs.Tandem

/-!
# Checks only report

A check lists the facts and does nothing else, wherever it stands and however often it is passed. Main
statement: without its checks a script is verified with the same entries, or rejected for the same
reason, and nothing is listed.
-/

namespace ProofScript

-- ---------------------------------------------------------------- scripts without checks

namespace Step

mutual
/-- The step without the checks inside it. Nothing is left of a check itself. -/
def silenced : Step → List Step
  | claim n e reason => [.claim n e reason]
  | choose n x e reason => [.choose n x e reason]
  | cases n c yes no both => [.cases n c (silencedAll yes) (silencedAll no) (silencedAll both)]
  | check _ => []
  | admitted n => [.admitted n]
def silencedAll : List Step → List Step
  | [] => []
  | s :: rest => s.silenced ++ silencedAll rest
end

end Step

def Declaration.silenced (d : Declaration) : Declaration := d.withProof (Step.silencedAll d.proof)

def Script.silenced (script : Script) : Script := script.map Declaration.silenced

-- ---------------------------------------------------------------- with and without checks

/-- The same is declared, but for the checks in proofs, and the same is reported, but for what the checks
have listed. -/
structure Books.Silenced (b b' : Books) : Prop where
  theorems : ∀ x, b'.library.theorems.find? x =
    (b.library.theorems.find? x).map fun t => { t with proof := Step.silencedAll t.proof }
  definitions : ∀ x, b'.library.definitions.find? x =
    (b.library.definitions.find? x).map fun d => { d with proof := Step.silencedAll d.proof }
  entries : b'.report.entries = b.report.entries
  dumps : b'.report.dumps = []

namespace Verify

/-- A check goes on to the rest of the block with one more list in the report. -/
theorem run_check (depth n : Nat) (rest : List Step) (v : Verification) :
    (block depth (.check n :: rest)).run v = (block depth rest).run
      { v with report.dumps := v.report.dumps ++ [⟨n, v.knowledge.facts.items⟩] } := by
  show (do
    let second ← block depth rest
    return { second with concluded := [] ++ second.concluded } : Verify Outcome).run _ = _
  rw [run_bind]
  rcases (block depth rest).run _ with ⟨_ | second, w⟩ <;> rfl

theorem block_silenced (depth : Nat) (steps : List Step) :
    TandemBlocks (.same depth) Books.Silenced (block depth steps) (block depth (Step.silencedAll steps)) := by
  have hcite (n : Nat) (reason : Option Justification) :
      Tandem (.same depth) Books.Silenced id (cite depth n reason) (cite depth n reason) :=
    .cite_same n (fun x b b' _ h => h.theorems x) (fun x b b' _ h => h.definitions x)
  induction steps using Step.blockInduction with
  | nil => exact .nil
  | claim n e reason rest ih => exact .cons (.conclude e (.claim n e Iff.rfl (hcite n reason))) ih
  | choose n x e reason rest ih =>
    exact .cons (.conclude e (.claim n (.bind .some x e) Iff.rfl (hcite n reason))) ih
  | cases n c yes no both rest ihyes ihno ihboth ih => exact .cons (.cases n c ihyes ihno ihboth) ih
  | check n rest ih =>
    -- Only the first run has this step. It lists something there, which is not compared.
    intro v w h
    rw [run_check]
    obtain ⟨htheorems, hdefinitions, hentries, hdumps⟩ := h.books
    exact ih _ w ⟨h.knowledge, h.admittedAt, htheorems, hdefinitions, hentries, hdumps⟩
  | admitted n rest ih => exact .cons (.admitted n) ih

theorem declaration_silenced (depth : Nat) (d : Declaration) :
    Tandem (.same depth) Books.Silenced id (declaration depth d) (declaration depth d.silenced) := by
  refine .declaration_same (block_silenced depth d.proof) fun b b' admittedAt facts h => ?_
  cases d with
  | ofTheorem t => exact {
      theorems := fun x => NameMap.find?_insert_map (f := id) (h.theorems x) id t
      definitions := h.definitions
      entries := congrArg (· ++ _) h.entries
      dumps := h.dumps }
  | ofDefinition d => exact {
      theorems := h.theorems
      definitions := fun x => NameMap.find?_insert_map (f := id) (h.definitions x) id d
      entries := congrArg (· ++ _) h.entries
      dumps := h.dumps }

end Verify

/-- Without its checks a script is verified with the same entries, and nothing is listed. If it is
rejected, it is rejected for the same reason. -/
theorem Script.verify_silenced (script : Script) (settings : Settings) :
    script.silenced.verify settings =
      (script.verify settings).map fun report => { report with dumps := [] } := by
  have hforM : Verify.Tandem _ Books.Silenced id (script.forM (Verify.declaration settings.equalityDepth))
      (script.silenced.forM (Verify.declaration settings.equalityDepth)) :=
    .forM fun d _ => Verify.declaration_silenced settings.equalityDepth d
  have htandem := verify_tandem hforM ⟨fun _ => rfl, fun _ => rfl, rfl, rfl⟩
  cases hverify : script.verify settings with
  | error cause =>
    rw [hverify] at htandem
    exact htandem.trans (congrArg Except.error (Rejection.map_id cause))
  | ok report =>
    rw [hverify] at htandem
    obtain ⟨⟨entries, dumps⟩, _, _, hverify', h⟩ := htandem
    obtain rfl : entries = report.entries := h.entries
    obtain rfl : dumps = [] := h.dumps
    exact hverify'

end ProofScript
