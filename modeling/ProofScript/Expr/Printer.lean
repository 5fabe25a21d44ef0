import ProofScript.Expr.Basic

/-!
# Text of expressions

Operands get parentheses only where the grouping would be lost: on the left of an operator that
binds tighter, on the right of one that binds as tight or tighter, and under a negation.
-/

namespace ProofScript.Expr

/-- The precedence of an operator expression; everything else never needs parentheses. -/
def level? : Expr → Option Nat
  | binary op _ _ => some op.precedence
  | _ => none

def parenthesized (needed : Bool) (text : String) : String :=
  if needed then "(" ++ text ++ ")" else text

mutual
def text : Expr → String
  | var x => x
  | call f args => f ++ "(" ++ textAll args ++ ")"
  | binary op l r =>
    parenthesized (l.level?.any (· < op.precedence)) l.text ++ " " ++ op.symbol ++ " " ++
      parenthesized (r.level?.any (· ≤ op.precedence)) r.text
  | not e => "¬" ++ parenthesized e.level?.isSome e.text
  | bind .all x e => "∀" ++ x ++ "(" ++ e.text ++ ")"
  | bind .some x e => "∃" ++ x ++ "(" ++ e.text ++ ")"
  | bind .those x e => "\x7b" ++ x ++ " : " ++ e.text ++ "\x7d"
  | group .tuple items => "[" ++ textAll items ++ "]"
  | group .set items => "\x7b" ++ textAll items ++ "\x7d"
/-- Items separated by a comma and a space. -/
def textAll : List Expr → String
  | [] => ""
  | [e] => e.text
  | e :: es => e.text ++ ", " ++ textAll es
end

end ProofScript.Expr
