import ProofScript.Operator

/-!
# Expressions

Statements and objects share one tree. A name in object position and a numeral are both variables;
a predicate or function is known by its name only. Operator names are constants: no function here
counts them among the names of an expression.
-/

namespace ProofScript

inductive Expr
  | var (name : String)
  | call (function : String) (args : List Expr)
  | binary (op : Operator) (left right : Expr)
  | not (inner : Expr)
  | bind (binder : Binder) (name : String) (body : Expr)
  | group (bracket : Bracket) (items : List Expr)
  deriving Repr, Inhabited

namespace Expr

-- ---------------------------------------------------------------- equality

mutual
def same : Expr → Expr → Bool
  | var x, var y => x == y
  | call f as, call g bs => f == g && sameAll as bs
  | binary o l r, binary p m s => o == p && same l m && same r s
  | not a, not b => same a b
  | bind q x a, bind r y b => q == r && x == y && same a b
  | group g as, group h bs => g == h && sameAll as bs
  | _, _ => false
def sameAll : List Expr → List Expr → Bool
  | [], [] => true
  | a :: as, b :: bs => same a b && sameAll as bs
  | _, _ => false
end

mutual
theorem same_self : (a : Expr) → same a a = true
  | var x => by simp [same]
  | call f as => by simp [same, sameAll_self as]
  | binary o l r => by simp [same, same_self l, same_self r]
  | not a => by simp [same, same_self a]
  | bind q x a => by simp [same, same_self a]
  | group g as => by simp [same, sameAll_self as]
theorem sameAll_self : (as : List Expr) → sameAll as as = true
  | [] => rfl
  | a :: as => by simp [sameAll, same_self a, sameAll_self as]
end

mutual
theorem eq_of_same : (a b : Expr) → same a b = true → a = b
  | var x, b, h => by cases b <;> simp_all [same]
  | call f as, b, h => by
    cases b <;> simp [same] at h
    rw [h.1, eq_of_sameAll as _ h.2]
  | binary o l r, b, h => by
    cases b <;> simp [same] at h
    rw [h.1.1, eq_of_same l _ h.1.2, eq_of_same r _ h.2]
  | not a, b, h => by
    cases b <;> simp [same] at h
    rw [eq_of_same a _ h]
  | bind q x a, b, h => by
    cases b <;> simp [same] at h
    rw [h.1.1, h.1.2, eq_of_same a _ h.2]
  | group g as, b, h => by
    cases b <;> simp [same] at h
    rw [h.1, eq_of_sameAll as _ h.2]
theorem eq_of_sameAll : (as bs : List Expr) → sameAll as bs = true → as = bs
  | [], bs, h => by cases bs <;> simp_all [sameAll]
  | a :: as, bs, h => by
    cases bs <;> simp [sameAll] at h
    rw [eq_of_same a _ h.1, eq_of_sameAll as _ h.2]
end

instance : DecidableEq Expr := fun a b =>
  if h : same a b then isTrue (eq_of_same a b h)
  else isFalse fun e => h (e ▸ same_self a)

-- ---------------------------------------------------------------- names

mutual
/-- The names that occur outside the binders of that name, in functions and variables, repeated as
often as they occur. -/
def free : Expr → List String
  | var x => [x]
  | call f args => f :: freeAll args
  | binary _ l r => l.free ++ r.free
  | not e => e.free
  | bind _ x e => e.free.filter (· != x)
  | group _ items => freeAll items
def freeAll : List Expr → List String
  | [] => []
  | e :: es => e.free ++ freeAll es
end

def occursFree (e : Expr) (x : String) : Bool := e.free.contains x

mutual
/-- Every function and variable in reading order, bound or not. -/
def occurrences : Expr → List String
  | var x => [x]
  | call f args => f :: occurrencesAll args
  | binary _ l r => l.occurrences ++ r.occurrences
  | not e => e.occurrences
  | bind _ _ e => e.occurrences
  | group _ items => occurrencesAll items
def occurrencesAll : List Expr → List String
  | [] => []
  | e :: es => e.occurrences ++ occurrencesAll es
end

mutual
/-- The name of every binder in reading order. -/
def binders : Expr → List String
  | var _ => []
  | call _ args => bindersAll args
  | binary _ l r => l.binders ++ r.binders
  | not e => e.binders
  | bind _ x e => x :: e.binders
  | group _ items => bindersAll items
def bindersAll : List Expr → List String
  | [] => []
  | e :: es => e.binders ++ bindersAll es
end

/-- Names of objects and functions, each at its first appearance. -/
def names (e : Expr) : List String := e.occurrences.eraseDups

/-- Names that some binder introduces, each at its first appearance. -/
def boundNames (e : Expr) : List String := e.binders.eraseDups

mutual
/-- Does the expression or one inside it satisfy `p`? -/
def any (p : Expr → Bool) : Expr → Bool
  | var x => p (var x)
  | call f args => p (call f args) || anyAll p args
  | binary o l r => p (binary o l r) || l.any p || r.any p
  | not e => p (not e) || e.any p
  | bind q x e => p (bind q x e) || e.any p
  | group g items => p (group g items) || anyAll p items
def anyAll (p : Expr → Bool) : List Expr → Bool
  | [] => false
  | e :: es => e.any p || anyAll p es
end

def isNegation : Expr → Bool
  | not _ => true
  | _ => false

end Expr

end ProofScript
