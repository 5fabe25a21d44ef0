import ProofScript.Resolution
import ProofScript.Script.Parser
import ProofScript.Verification

/-!
# From source to report
-/

namespace ProofScript

inductive SourceError
  | unreadable (position : Text.Position)
  | rejected (cause : Rejection)
  deriving DecidableEq, Repr

def SourceError.message : SourceError → String
  | unreadable p => s!"unreadable text in line {p.line}, column {p.column}"
  | rejected cause => cause.message

/-- Reads, resolves and verifies a script. -/
def verifySource (source : String) (settings : Settings) : Except SourceError Report := do
  let script ← (Script.parse source).mapError .unreadable
  (script.resolve settings).mapError .rejected
  (script.verify settings).mapError .rejected

end ProofScript
