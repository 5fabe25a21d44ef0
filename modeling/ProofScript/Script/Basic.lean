import ProofScript.Expr.Basic

/-!
# Proof scripts

A script is a sequence of theorems and definitions. Lines are those of the source, counted from
one. The word `sorry` of the language admits a claim, or all that is left of a proof, without
showing it.
-/

namespace ProofScript

/-- An expression and the line it stands on. -/
structure Sentence where
  line : Nat
  expr : Expr
  deriving DecidableEq, Repr, Inhabited

/-- What is cited after the bar. -/
inductive Justification
  | admitted
  | definition (name : String)
  | instantiation (theoremName : String) (args : List Expr)
  deriving DecidableEq, Repr

inductive Step
  | claim (line : Nat) (expr : Expr) (reason : Option Justification)
  /-- Introduces an object that satisfies the expression. -/
  | choose (line : Nat) (name : String) (expr : Expr) (reason : Option Justification)
  /-- Two branches, each followed by the common block. -/
  | cases (line : Nat) (condition : Expr) (yes no both : List Step)
  /-- Lists the facts known here. -/
  | check (line : Nat)
  | admitted (line : Nat)
  deriving Repr, Inhabited

def Step.line : Step → Nat
  | claim line .. | choose line .. | cases line .. | check line | admitted line => line

structure Theorem where
  name : String
  line : Nat
  parameters : List String
  requirements : List Sentence
  hypothesis : Sentence
  proof : List Step
  deriving Repr

structure Definition where
  name : String
  line : Nat
  rules : List Sentence
  proof : List Step
  deriving Repr

inductive Declaration
  | ofTheorem (t : Theorem)
  | ofDefinition (d : Definition)
  deriving Repr

abbrev Script := List Declaration

end ProofScript
