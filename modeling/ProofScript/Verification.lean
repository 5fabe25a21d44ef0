import ProofScript.Analysis
import ProofScript.Instantiation
import ProofScript.Report
import ProofScript.Settings

/-!
# Verification

Declarations are verified in order, each in a scope of its own, up to the first rejection. A claim
is analysed in a scope that also holds what its justification brings in. An admission stops the
proof it stands in; what was concluded before stays.
-/

namespace ProofScript

-- ---------------------------------------------------------------- state

structure Verification where
  knowledge : Knowledge := {}
  theorems : NameMap Theorem := {}
  definitions : NameMap Definition := {}
  /-- The first admission in the declaration at hand. -/
  admittedAt : Option Nat := none
  report : Report := {}
  deriving Repr

abbrev Verify := ExceptT Rejection (StateM Verification)

namespace Verify

def run (m : Verify α) (v : Verification) : Except Rejection α × Verification :=
  StateT.run (ExceptT.run m) v

/-- An inquiry into the current knowledge. -/
def inquire (m : Inquiry α) : Verify α :=
  ExceptT.mk fun v =>
    let (result, knowledge) := m.run v.knowledge
    (result.mapError .internal, { v with knowledge })

def facts : Verify (List Expr) := inquire Inquiry.facts

def enter (tag : String) : Verify Unit := inquire (Inquiry.enter tag)

def exit (tag : String) : Verify Unit := inquire (Inquiry.exit tag)

def assume (fact : Expr) : Verify Unit := inquire (modify (·.assume fact))

/-- Only the first admission counts. -/
def admitAt (line : Nat) : Verify Unit :=
  modify fun v => { v with admittedAt := v.admittedAt <|> some line }

def dumpFacts (line : Nat) : Verify Unit := do
  let facts ← facts
  modify fun v => { v with report.dumps := v.report.dumps ++ [⟨line, facts⟩] }

-- ---------------------------------------------------------------- claims

def instantiate (line : Nat) (i : Instantiation) (e : Expr) : Verify Expr :=
  MonadExcept.ofExcept ((i.apply e).mapError fun cause => .arity line (.misfit cause))

def requirement (depth line : Nat) (theoremName : String) (i : Instantiation) (s : Sentence) :
    Verify Unit := do
  let e ← instantiate line i s.expr
  if (← inquire (judge depth e)) ≠ .holds then throw (.precondition theoremName s.line line e)

/-- Every requirement must hold at the reference; then the hypothesis is a fact. -/
def citeTheorem (depth line : Nat) (x : String) (args : List Expr) : Verify Unit := do
  match (← get).theorems.find? x with
  | none => throw (.name line (.unknownTheorem x))
  | some t =>
    if t.parameters.length ≠ args.length then
      throw (.arity line (.count t.parameters.length args.length t.name))
    let i := t.instantiation args
    t.requirements.forM (requirement depth line t.name i)
    assume (← instantiate line i t.hypothesis.expr)

/-- The rules of a definition become facts as they are written. -/
def citeDefinition (line : Nat) (x : String) : Verify Unit := do
  match (← get).definitions.find? x with
  | none => throw (.name line (.unknownDefinition x))
  | some d => d.rules.forM fun rule => assume rule.expr

def cite (depth line : Nat) : Option Justification → Verify Unit
  | some (.instantiation x args) => citeTheorem depth line x args
  | some (.definition x) => citeDefinition line x
  | some .admitted | none => return

def claim (depth line : Nat) (e : Expr) (reason : Option Justification) : Verify Unit := do
  if reason = some .admitted then admitAt line
  else
    enter "Statement"
    cite depth line reason
    let truth ← inquire (judge depth e)
    exit "Statement"
    match truth with
    | .holds => return
    | .fails => throw (.refuted line e)
    | .unknown => throw (.unproven line e)

-- ---------------------------------------------------------------- blocks

/-- What a block has shown, and whether an admission cut it short. -/
structure Outcome where
  concluded : List Expr := []
  stopped : Bool := false
  deriving Repr

def Outcome.andThen (first : Outcome) (rest : Verify Outcome) : Verify Outcome := do
  if first.stopped then return first
  let second ← rest
  return { second with concluded := first.concluded ++ second.concluded }

/-- A branch is its own block and then the common one. Only the latter concludes anything for the
world outside. -/
def branch (tag : String) (assumption : Expr) (own common : Verify Outcome) : Verify Outcome := do
  enter tag
  assume assumption
  let first ← own
  let outcome ← if first.stopped then pure first else common
  exit tag
  return outcome

mutual
def step (depth : Nat) : Step → Verify Outcome
  | .claim line e reason => do
    claim depth line e reason
    assume e
    return { concluded := [e] }
  | .choose line x e reason => do
    claim depth line (.bind .some x e) reason
    assume e
    return { concluded := [e] }
  | .cases _ condition yes no both => do
    let first ← branch "If" condition (block depth yes) (block depth both)
    if first.stopped then return { stopped := true }
    let second ← branch "Else" (.not condition) (block depth no) (block depth both)
    if second.stopped then return { stopped := true }
    second.concluded.forM assume
    return second
  | .check line => do
    dumpFacts line
    return {}
  | .admitted line => do
    admitAt line
    return { stopped := true }
def block (depth : Nat) : List Step → Verify Outcome
  | [] => return {}
  | s :: rest => do
    let outcome ← step depth s
    outcome.andThen (block depth rest)
end

-- ---------------------------------------------------------------- declarations

def record (kind : DeclarationKind) (name : String) (line : Nat) (facts : List Expr) :
    Verify Unit :=
  modify fun v =>
    { v with
      admittedAt := none
      report.entries := v.report.entries ++ [⟨kind, name, line, v.admittedAt, facts⟩] }

/-- Runs a declaration's proof in its scope and, unless that was cut short, what it has to show.
Answers what is known in the end. -/
def proof (tag : String) (assumptions : List Expr) (steps : Verify Outcome) (goal : Verify Unit) :
    Verify (List Expr) := do
  modify fun v => { v with admittedAt := none }
  enter tag
  assumptions.forM assume
  let outcome ← steps
  unless outcome.stopped do goal
  let facts ← facts
  exit tag
  return facts

def theoremDeclaration (depth : Nat) (t : Theorem) : Verify Unit := do
  let facts ← proof "Theorem" (t.requirements.map Sentence.expr) (block depth t.proof)
    (claim depth t.hypothesis.line t.hypothesis.expr none)
  modify fun v => { v with theorems := v.theorems.insert t.name t }
  record .proposition t.name t.line facts

/-- Some object satisfies all the rules at once. Without rules there is nothing to satisfy. -/
def existenceGoal? (d : Definition) : Option Expr :=
  let witness := "_" ++ d.name
  match d.rules.map fun rule => rule.expr.rename d.name witness with
  | [] => none
  | first :: others => some (.bind .some witness (others.foldl (.binary .and) first))

def existence (depth : Nat) (d : Definition) : Verify Unit := do
  if let some goal := existenceGoal? d then
    if (← inquire (judge depth goal)) ≠ .holds then throw (.noInstance d.line d.name goal)

def definitionDeclaration (depth : Nat) (d : Definition) : Verify Unit := do
  let facts ← proof "Definition" [] (block depth d.proof) (existence depth d)
  modify fun v => { v with definitions := v.definitions.insert d.name d }
  record .definition d.name d.line facts

def declaration (depth : Nat) : Declaration → Verify Unit
  | .ofTheorem t => theoremDeclaration depth t
  | .ofDefinition d => definitionDeclaration depth d

end Verify

namespace Script

/-- Verifies the declarations without resolving their names first. -/
def verify (script : Script) (settings : Settings) : Except Rejection Report :=
  match (script.forM (Verify.declaration settings.equalityDepth)).run {} with
  | (.ok (), v) => .ok v.report
  | (.error cause, _) => .error cause

end Script

end ProofScript
