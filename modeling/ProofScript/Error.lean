import ProofScript.Scopes
import ProofScript.Script.Basic
import ProofScript.Substitution

/-!
# Why a script is rejected

Each cause is a value; its wording is in `message` only. Internal faults tell that an object stands
where a statement is needed, or that scopes were closed out of order.
-/

namespace ProofScript

inductive NameFault
  | theoremExists (name : String)
  | definitionExists (name : String)
  | reserved (name : String)
  | redeclared (name : String)
  | undeclared (name : String)
  | unknownTheorem (name : String)
  | unknownDefinition (name : String)
  deriving DecidableEq, Repr

def NameFault.message : NameFault → String
  | theoremExists x => s!"a theorem named `{x}` has already been defined"
  | definitionExists x => s!"a definition named `{x}` has already been defined"
  | reserved x => s!"`{x}`: names starting with `_` are reserved"
  | redeclared x => s!"`{x}` is already declared in this scope"
  | undeclared x => s!"`{x}` is not declared"
  | unknownTheorem x => s!"reference to undefined theorem `{x}`"
  | unknownDefinition x => s!"reference to undefined definition `{x}`"

/-- A reference has the wrong number of arguments, or they do not fit their places. -/
inductive ArityFault
  | count (expected found : Nat) (theoremName : String)
  | misfit (cause : SubstitutionError)
  deriving DecidableEq, Repr

def ArityFault.message : ArityFault → String
  | count expected found x =>
    s!"expected {expected} arguments but found {found} at reference to theorem `{x}`"
  | misfit cause => cause.message

inductive InternalFault
  | scope (mismatch : ScopeMismatch)
  | notAStatement (expr : Expr)
  deriving DecidableEq, Repr

def InternalFault.message : InternalFault → String
  | scope mismatch => mismatch.message
  | notAStatement e => s!"`{e.text}` is an object, not a statement"

inductive Rejection
  | name (line : Nat) (cause : NameFault)
  | arity (line : Nat) (cause : ArityFault)
  /-- A requirement of a cited theorem, as instantiated by the reference, does not hold. -/
  | precondition (theoremName : String) (requirementLine line : Nat) (requirement : Expr)
  | refuted (line : Nat) (claim : Expr)
  | unproven (line : Nat) (claim : Expr)
  /-- Nothing is known to satisfy the rules of a definition. -/
  | noInstance (line : Nat) (definitionName : String) (goal : Expr)
  | internal (cause : InternalFault)
  deriving DecidableEq, Repr

namespace Rejection

def message : Rejection → String
  | name line cause => s!"name error in line {line}: {cause.message}"
  | arity line cause => s!"arity error in line {line}: {cause.message}"
  | precondition x requirementLine line e =>
    s!"failed to verify requirement in line {requirementLine} of theorem `{x}`, " ++
      s!"referenced in line {line}\n{e.text}"
  | refuted line e => s!"statement in line {line} is false\n{e.text}"
  | unproven line e => s!"failed to verify statement in line {line}\n{e.text}"
  | noInstance line x goal =>
    s!"could not show that an object satisfying the rules of `{x}` (line {line}) exists\n{goal.text}"
  | internal cause => cause.message

def line? : Rejection → Option Nat
  | name line _ | arity line _ | precondition _ _ line _ | refuted line _ | unproven line _
  | noInstance line _ _ => some line
  | internal _ => none

end Rejection

end ProofScript
