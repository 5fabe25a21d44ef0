import ProofScript.Comparison

/-!
# Chains of equalities

Two expressions are equal by a chain when they have the same structure with equal parts, or when a
known equation links them. Sides of a link are compared by chains again, one link less deep; parts
of a structure at the same depth. Binders match up to bound names only.
-/

namespace ProofScript.Expr

/-- The sides of the known equations. -/
def equations (facts : List Expr) : List (Expr × Expr) :=
  facts.filterMap fun
    | binary .equals l r => some (l, r)
    | _ => none

mutual
/-- Same structure with parts that are again congruent, or a link between the two. -/
def congruent (link : Expr → Expr → Bool) (a b : Expr) : Bool :=
  (match a, b with
    | var x, var y => x = y
    | binary o l r, binary p m s => o = p && congruent link l m && congruent link r s
    | not e, not d => congruent link e d
    | call f as, call g bs => f = g && congruentAll link as bs
    | group g as, group h bs => g = h && congruentAll link as bs
    | a, b => alphaEq a b) || link a b
termination_by structural a
def congruentAll (link : Expr → Expr → Bool) (as bs : List Expr) : Bool :=
  match as, bs with
  | [], [] => true
  | a :: as, b :: bs => congruent link a b && congruentAll link as bs
  | _, _ => false
termination_by structural as
end

/-- Equality through at most `n` nested links. -/
def chained (links : List (Expr × Expr)) : Nat → Expr → Expr → Bool
  | 0 => congruent fun _ _ => false
  | n + 1 => congruent fun a b => links.any fun (l, r) =>
      (chained links n l a && chained links n r b) || (chained links n l b && chained links n r a)

/-- Equality given the facts: by exchanges, or by chains whose first link is at depth zero and whose
last is at `depth`. -/
def equalByFacts (facts : List Expr) (depth : Nat) (a b : Expr) : Bool :=
  equalGiven facts a b || chained (equations facts) (depth + 1) a b

end ProofScript.Expr
