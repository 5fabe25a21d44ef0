import ProofScript.Toml.Parser

/-!
# Settings

Every key is optional and unknown keys do not matter. A known key stands once, at the top, and has
a value of its type.
-/

namespace ProofScript

structure Settings where
  /-- How deep equalities may be chained through known equations. -/
  equalityDepth : Nat := 2
  /-- `_0` up to one less are usable in the arguments of a reference. -/
  placeholderSlots : Nat := 5
  /-- Whether the command line prints the facts at each `check`. -/
  printChecks : Bool := true
  deriving DecidableEq, Repr

namespace Settings

open ProofScript.Toml

/-- The setting under a key, which may be absent. Anything else under that key is an error. -/
def setting (d : Document) (key : String) (ofValue : Value → Option α) (absent : α) : Option α :=
  if d.tables.any fun (h, _) => h.path.head? == some key then none
  else match d.root.filter fun (p, _) => p.head? == some key with
    | [] => some absent
    | [([_], v)] => ofValue v
    | _ => none

def natural : Value → Option Nat
  | .integer (.ofNat n) => some n
  | _ => none

def boolean : Value → Option Bool
  | .boolean b => some b
  | _ => none

def ofDocument (d : Document) : Option Settings := do
  let usual : Settings := {}
  return {
    equalityDepth := ← setting d "equality_depth" natural usual.equalityDepth
    placeholderSlots := ← setting d "placeholder_slots" natural usual.placeholderSlots
    printChecks := ← setting d "print_checks" boolean usual.printChecks }

def parse? (s : String) : Option Settings := (Toml.parse? s).bind ofDocument

end Settings

end ProofScript
