import ProofScript.Substitution

/-!
# Comparison

Two expressions agree when they differ only in the names of bound variables. Agreement is
parameterised by a rule that may accept a pair of subexpressions at once, and that threads a state
from left to right: known equalities accept without a state, a witness is found once and then fixed.
-/

namespace ProofScript

namespace Expr

mutual
/-- Where `accept` refuses, the roots must be alike and their parts agree. Under binders of
different names the second body is renamed to the first, unless it uses that name itself. -/
def agree (accept : Expr → Expr → σ → Option σ) (a b : Expr) (s : σ) : Option σ :=
  match accept a b s with
  | some s => some s
  | none =>
    match a, b with
    | var x, var y => if x = y then some s else none
    | call f as, call g bs => if f = g then agreeAll accept as bs s else none
    | binary o l r, binary p m t =>
      if o = p then (agree accept l m s).bind fun s => agree accept r t s else none
    | not e, not d => agree accept e d s
    | bind q x e, bind r y d =>
      if q ≠ r then none
      else if x = y then agree accept e d s
      else if d.occursFree x then none
      else agree accept e (d.rename y x) s
    | group g as, group h bs => if g = h then agreeAll accept as bs s else none
    | _, _ => none
termination_by structural a
def agreeAll (accept : Expr → Expr → σ → Option σ) (as bs : List Expr) (s : σ) : Option σ :=
  match as, bs with
  | [], [] => some s
  | a :: as, b :: bs => (agree accept a b s).bind fun s => agreeAll accept as bs s
  | _, _ => none
termination_by structural as
end

/-- The same expression up to bound names. -/
def alphaEq (a b : Expr) : Bool := (agree (fun _ _ _ => none) a b ()).isSome

/-- Is `l = r` or `l ⇔ r` with the two sides, in either order, among the facts? -/
def interchangeable (facts : List Expr) (a b : Expr) : Bool :=
  facts.any fun
    | binary .equals l r | binary .iff l r =>
      (l.alphaEq a && r.alphaEq b) || (l.alphaEq b && r.alphaEq a)
    | _ => false

/-- The same expression up to bound names and exchanges of known equals at any depth. -/
def equalGiven (facts : List Expr) (a b : Expr) : Bool :=
  (agree (fun a b s => if interchangeable facts a b then some s else none) a b ()).isSome

-- ---------------------------------------------------------------- witnesses

/-- Lets the slot stand for the first expression it meets, and for that one from then on. An
expression that mentions a bound name of the pattern cannot be meant. -/
def acceptWitness (slot : String) (bound : List String) (p t : Expr) (witness : Option Expr) :
    Option (Option Expr) :=
  match p with
  | var x =>
    if x ≠ slot then none
    else if bound.any t.occursFree then none
    else match witness with
      | some w => if w.alphaEq t then some witness else none
      | none => some (some t)
  | _ => none

/-- Is the target the pattern with one expression in place of the free name `x`? The name is
exchanged for one that neither of the two uses. -/
def matchesWitness (pattern target : Expr) (x : String) : Bool :=
  let slot := Name.fresh (target.free ++ pattern.free) x
  let pattern := pattern.rename x slot
  (agree (acceptWitness slot pattern.boundNames) pattern target none).isSome

end Expr

end ProofScript
