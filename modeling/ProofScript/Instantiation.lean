import ProofScript.Script.Basic
import ProofScript.Substitution

/-!
# Instances of theorems

A reference gives one argument for each parameter. An argument with placeholders makes a template
of its parameter: calls of the parameter become the filled template. All other arguments take the
place of their parameter.
-/

namespace ProofScript

structure Instantiation where
  plain : Substitution
  templates : NameMap Expr
  deriving Repr

def Theorem.instantiation (t : Theorem) (args : List Expr) : Instantiation :=
  let pairs := t.parameters.zip args
  { plain := .ofList (pairs.filter fun (_, e) => !e.hasPlaceholder)
    templates := .ofList (pairs.filter fun (_, e) => e.hasPlaceholder) }

def Instantiation.apply (i : Instantiation) (e : Expr) : Except SubstitutionError Expr :=
  ((e.replaceFree (.templates i.templates)).run i.plain).1

end ProofScript
