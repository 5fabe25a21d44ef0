import ProofScript.Expr.Basic

/-!
# Chains of operators

A chain is what stands between brackets: terms with operators between them. Its tree puts tighter
operators lower and groups equal ones to the left. The terms stay whole, whatever operators they
hold themselves.
-/

namespace ProofScript

structure Chain where
  head : Expr
  tail : List (Operator × Expr)
  deriving Repr

inductive Chain.Tree
  | leaf (term : Expr)
  | node (op : Operator) (left right : Tree)
  deriving Repr

namespace Chain

/-- Appends an operator and a term. They take over the rightmost part of the tree that binds at
least as tight as the operator. -/
def Tree.snoc : Tree → Operator → Expr → Tree
  | leaf a, op, b => node op (leaf a) (leaf b)
  | node o l r, op, b =>
    if o.precedence < op.precedence then node o l (r.snoc op b)
    else node op (node o l r) (leaf b)

def Tree.expr : Tree → Expr
  | leaf e => e
  | node op l r => .binary op l.expr r.expr

def tree (c : Chain) : Tree :=
  c.tail.foldl (fun t (op, e) => t.snoc op e) (.leaf c.head)

def expr (c : Chain) : Expr := c.tree.expr

end Chain

end ProofScript
