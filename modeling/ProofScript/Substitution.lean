import ProofScript.Expr.Printer
import ProofScript.Name
import ProofScript.NameMap

/-!
# Substitution

Free names are replaced by expressions, all at once. Every binder on the way down gets a fresh name
that neither its body nor any replacement uses, so nothing is captured. A function can be replaced
by a name only.

The substitution is a state that binders change for the length of their body. Calls can be expanded
on the way: an expansion sees a call before its function is looked up, and decides whether and when
the arguments are worked out.
-/

namespace ProofScript

abbrev Substitution := NameMap Expr

inductive SubstitutionError
  | notAFunction (name : String) (replacement : Expr)
  | unfilled (template result : Expr)
  deriving DecidableEq, Repr

def SubstitutionError.message : SubstitutionError → String
  | notAFunction x e => s!"`{x}` is used as a function, but `{e.text}` is not a function name"
  | unfilled t e => s!"not enough arguments to fill `{t.text}`, left with `{e.text}`"

/-- The current substitution stays known when a step fails. -/
abbrev Subst := ExceptT SubstitutionError (StateM Substitution)

def Subst.run (m : Subst α) (σ : Substitution) : Except SubstitutionError α × Substitution :=
  StateT.run (ExceptT.run m) σ

/-- Lets `x` stand for `e` during `m` and puts back what it stood for before, also after an error. -/
def Subst.letting (x : String) (e : Expr) (m : Subst α) : Subst α :=
  ExceptT.mk fun σ =>
    let (result, inner) := m.run (σ.insert x e)
    (result, inner.restore x (σ.find? x))

/-- What a call of a name becomes, given the action that works out its arguments. -/
abbrev Expansion := String → Option (Subst (List Expr) → Subst Expr)

namespace Expr

/-- The name that takes the place of a function. -/
def functionName (f : String) : Subst String := do
  match (← get).find? f with
  | none => return f
  | some (var g) => return g
  | some e => throw (.notAFunction f e)

/-- Avoids what is free in the body and in every current replacement. -/
def binderName (x : String) (body : Expr) : Subst String := do
  return Name.fresh (body.free ++ freeAll (← get).values) x

mutual
def replaceFree (expand : Expansion) : Expr → Subst Expr
  | var x => do return ((← get).find? x).getD (var x)
  | call f args =>
    match expand f with
    | some build => build (replaceFreeAll expand args)
    | none => do
      let g ← functionName f
      return call g (← replaceFreeAll expand args)
  | binary op l r => do
    let l ← replaceFree expand l
    let r ← replaceFree expand r
    return binary op l r
  | not e => return not (← replaceFree expand e)
  | bind b x body => do
    let y ← binderName x body
    return bind b y (← Subst.letting x (var y) (replaceFree expand body))
  | group g items => return group g (← replaceFreeAll expand items)
def replaceFreeAll (expand : Expansion) : List Expr → Subst (List Expr)
  | [] => return []
  | e :: es => do
    let e ← replaceFree expand e
    return e :: (← replaceFreeAll expand es)
end

def substitute (e : Expr) (σ : Substitution) : Except SubstitutionError Expr :=
  ((replaceFree (fun _ => none) e).run σ).1

/-- Replaces the free occurrences of a name by another name. This cannot fail: a name may stand
wherever the other stood. -/
def rename (e : Expr) (x y : String) : Expr :=
  match e.substitute (.ofList [(x, var y)]) with
  | .ok renamed => renamed
  | .error _ => e

-- ---------------------------------------------------------------- templates

/-- Only variables count; a function is never a placeholder. -/
def hasPlaceholder (e : Expr) : Bool :=
  e.any fun
    | var x => Name.isPlaceholder x
    | _ => false

/-- The substitution that gives `_0`, `_1`, … their arguments. -/
def positional (args : List Expr) : Substitution :=
  .ofList (args.zipIdx.map fun (e, i) => (Name.placeholder i, e))

/-- Fills a template's placeholders. All of them need an argument. -/
def fill (template : Expr) (args : List Expr) : Except SubstitutionError Expr := do
  let result ← template.substitute (positional args)
  if result.hasPlaceholder then throw (.unfilled template result)
  return result

end Expr

namespace Expansion

/-- A call of a template's name becomes the template filled with the arguments. -/
def templates (ts : NameMap Expr) : Expansion := fun f =>
  (ts.find? f).map fun template args => do
    MonadExcept.ofExcept (template.fill (← args))

/-- A call of a hidden name becomes its expression, or the tuple of it and the arguments. -/
def hide (hidden : NameMap Expr) (keepArgs : Bool) : Expansion := fun f =>
  (hidden.find? f).map fun e args =>
    if keepArgs then return .group .tuple (e :: (← args)) else return e

end Expansion

end ProofScript
