/-!
# Operators, binders and brackets

The fixed vocabulary of expressions. Precedences order the binding strength; every level groups to
the left. An identifier between two terms is an operator too and binds tightest.
-/

namespace ProofScript

inductive Operator
  | iff
  | implies
  | or
  | and
  | equals
  | elementOf
  | subset
  | plus
  | minus
  | times
  | divide
  | named (name : String)
  deriving DecidableEq, Repr

/-- Connectives combine statements, relations compare objects, arithmetic builds objects. -/
inductive Role
  | connective
  | relation
  | arithmetic
  deriving DecidableEq, Repr

namespace Operator

def precedence : Operator → Nat
  | iff => 0
  | implies => 1
  | or => 2
  | and => 3
  | equals | elementOf | subset => 5
  | plus | minus => 10
  | times | divide => 12
  | named _ => 100

def role : Operator → Role
  | iff | implies | or | and => .connective
  | equals | elementOf | subset => .relation
  | plus | minus | times | divide | named _ => .arithmetic

def symbol : Operator → String
  | iff => "⇔"
  | implies => "⇒"
  | or => "∨"
  | and => "∧"
  | equals => "="
  | elementOf => "∈"
  | subset => "⊆"
  | plus => "+"
  | minus => "-"
  | times => "⋅"
  | divide => "÷"
  | named name => name

end Operator

/-- What binds one name in a body: `∀x(…)`, `∃x(…)` and the comprehension `{x : …}`. -/
inductive Binder
  | all
  | some
  | those
  deriving DecidableEq, Repr

/-- Ordered tuples `[a, b]` and enumerated sets `{a, b}`. -/
inductive Bracket
  | tuple
  | set
  deriving DecidableEq, Repr

end ProofScript
