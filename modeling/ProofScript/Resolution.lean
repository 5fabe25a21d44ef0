import ProofScript.Error
import ProofScript.Settings

/-!
# Name resolution

Every name is declared before it is used, and never again while it is visible. Objects are scoped;
theorems and definitions are known from their declaration on. The symbols stay as they are when a
declaration is rejected, with the scopes it had opened.
-/

namespace ProofScript

structure Symbols where
  objects : Scopes String := {}
  /-- The number of parameters of each theorem. -/
  theorems : NameMap Nat := {}
  definitions : List String := []
  deriving Repr

abbrev Resolve := ExceptT Rejection (StateM Symbols)

namespace Resolve

def run (m : Resolve α) (s : Symbols) : Except Rejection α × Symbols :=
  StateT.run (ExceptT.run m) s

def enter (tag : String) : Resolve Unit :=
  modify fun s => { s with objects := s.objects.enter tag }

def exit (tag : String) : Resolve Unit := do
  match (← get).objects.exit tag with
  | .ok objects => modify fun s => { s with objects }
  | .error mismatch => throw (.internal (.scope mismatch))

/-- The scope stays open if `m` fails. -/
def within (tag : String) (m : Resolve Unit) : Resolve Unit := do
  enter tag
  m
  exit tag

def addAll (xs : List String) : Resolve Unit :=
  modify fun s => { s with objects := s.objects.addAll xs }

def add (x : String) : Resolve Unit := addAll [x]

def declare (line : Nat) (x : String) : Resolve Unit := do
  if Name.isReserved x then throw (.name line (.reserved x))
  if (← get).objects.contains x then throw (.name line (.redeclared x))
  add x

def use (line : Nat) (x : String) : Resolve Unit := do
  unless Name.isNumeral x || (← get).objects.contains x do
    throw (.name line (.undeclared x))

-- ---------------------------------------------------------------- expressions

mutual
def expr (line : Nat) : Expr → Resolve Unit
  | .var x => use line x
  | .call f args => do
    use line f
    exprs line args
  | .binary op l r => do
    expr line l
    if let .named x := op then use line x
    expr line r
  | .not e => expr line e
  | .bind _ x body => within "Binder" do
    declare line x
    expr line body
  | .group _ items => exprs line items
def exprs (line : Nat) : List Expr → Resolve Unit
  | [] => return
  | e :: es => do
    expr line e
    exprs line es
end

def sentence (s : Sentence) : Resolve Unit := expr s.line s.expr

-- ---------------------------------------------------------------- steps

/-- Placeholders are names inside the arguments of a reference only. -/
def justification (slots line : Nat) : Justification → Resolve Unit
  | .admitted => return
  | .definition x => do
    unless (← get).definitions.contains x do
      throw (.name line (.unknownDefinition x))
  | .instantiation x args => do
    match (← get).theorems.find? x with
    | none => throw (.name line (.unknownTheorem x))
    | some arity =>
      if arity ≠ args.length then throw (.arity line (.count arity args.length x))
      within "Reference" do
        addAll ((List.range slots).map Name.placeholder)
        exprs line args

mutual
def step (slots : Nat) : Step → Resolve Unit
  | .claim line e reason => do
    expr line e
    reason.forM (justification slots line)
  | .choose line x e reason => do
    declare line x
    expr line e
    reason.forM (justification slots line)
  | .cases line condition yes no both => do
    expr line condition
    within "If" (block slots yes)
    within "Else" (block slots no)
    within "Both" (block slots both)
  | .check _ | .admitted _ => return
def block (slots : Nat) : List Step → Resolve Unit
  | [] => return
  | s :: rest => do
    step slots s
    block slots rest
end

-- ---------------------------------------------------------------- declarations

def theoremDeclaration (slots : Nat) (t : Theorem) : Resolve Unit := do
  if (← get).theorems.contains t.name then throw (.name t.line (.theoremExists t.name))
  within "Theorem" do
    t.parameters.forM (declare t.line)
    t.requirements.forM sentence
    sentence t.hypothesis
    block slots t.proof
  modify fun s => { s with theorems := s.theorems.insert t.name t.parameters.length }

/-- The defined object stays visible to the end of the script. -/
def definitionDeclaration (slots : Nat) (d : Definition) : Resolve Unit := do
  if (← get).definitions.contains d.name then throw (.name d.line (.definitionExists d.name))
  declare d.line d.name
  modify fun s => { s with definitions := d.name :: s.definitions }
  within "Definition" do
    d.rules.forM sentence
    block slots d.proof

def declaration (settings : Settings) : Declaration → Resolve Unit
  | .ofTheorem t => theoremDeclaration settings.placeholderSlots t
  | .ofDefinition d => definitionDeclaration settings.placeholderSlots d

end Resolve

/-- Resolves the names of a whole script, up to the first error. -/
def Script.resolve (script : Script) (settings : Settings) : Except Rejection Unit :=
  ((script.forM (Resolve.declaration settings)).run {}).1

end ProofScript
