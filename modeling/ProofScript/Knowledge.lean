import ProofScript.Error
import ProofScript.Truth

/-!
# What is known during an inquiry

Facts live in scopes, so that an assumption can be withdrawn. An inquiry may change the facts for a
while; it goes on to know them when it fails.
-/

namespace ProofScript

structure Knowledge where
  facts : Scopes Expr := {}
  /-- Set while a conjunction is being refuted. Conjunctions inside are then judged by their sides
  alone. -/
  refuting : Bool := false
  deriving Repr

def Knowledge.assume (k : Knowledge) (fact : Expr) : Knowledge :=
  { k with facts := k.facts.add fact }

abbrev Inquiry := ExceptT InternalFault (StateM Knowledge)

namespace Inquiry

def run (m : Inquiry α) (k : Knowledge) : Except InternalFault α × Knowledge :=
  StateT.run (ExceptT.run m) k

def facts : Inquiry (List Expr) := return (← get).facts.items

def enter (tag : String) : Inquiry Unit :=
  modify fun k => { k with facts := k.facts.enter tag }

def exit (tag : String) : Inquiry Unit := do
  match (← get).facts.exit tag with
  | .ok facts => modify fun k => { k with facts }
  | .error mismatch => throw (.scope mismatch)

/-- Runs `m` with one more fact, in a scope that closes before an error of `m` goes on. -/
def assuming (tag : String) (fact : Expr) (m : Inquiry α) : Inquiry α := do
  enter tag
  modify (·.assume fact)
  let result ← observing m
  exit tag
  MonadExcept.ofExcept result

def setRefuting (b : Bool) : Inquiry Unit := modify fun k => { k with refuting := b }

def whileRefuting (m : Inquiry α) : Inquiry α := do
  let before := (← get).refuting
  setRefuting true
  let result ← observing m
  setRefuting before
  MonadExcept.ofExcept result

/-- Tries the facts from a cursor on, at most `n` of them, until one passes. -/
def searchFrom (test : Expr → Inquiry Bool) : Nat → Scopes.Cursor → Inquiry Bool
  | 0, _ => return false
  | n + 1, c => do
    match (← get).facts.advance c with
    | (none, _) => return false
    | (some fact, next) => if ← test fact then return true else searchFrom test n next

/-- Does some fact pass? They are tried from the outermost scope inwards. A test may open scopes as
long as it closes them, so there are as many facts to try as there are now. -/
def search (test : Expr → Inquiry Bool) : Inquiry Bool := do
  searchFrom test (← get).facts.size Scopes.cursor

end Inquiry

end ProofScript
