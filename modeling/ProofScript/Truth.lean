/-!
# Truth relative to what is known

A statement holds, fails, or is left open. `fails` means that the facts refute it.
-/

namespace ProofScript

inductive Truth
  | holds
  | fails
  | unknown
  deriving DecidableEq, Repr

namespace Truth

def negate : Truth → Truth
  | holds => fails
  | fails => holds
  | unknown => unknown

def or : Truth → Truth → Truth
  | holds, _ | _, holds => holds
  | fails, fails => fails
  | _, _ => unknown

def and : Truth → Truth → Truth
  | fails, _ | _, fails => fails
  | holds, holds => holds
  | _, _ => unknown

def implies : Truth → Truth → Truth
  | fails, _ | _, holds => holds
  | holds, fails => fails
  | _, _ => unknown

def iff : Truth → Truth → Truth
  | unknown, _ | _, unknown => unknown
  | a, b => if a = b then holds else fails

end Truth

end ProofScript
