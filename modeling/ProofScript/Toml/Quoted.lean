import ProofScript.Text.Lexeme
import ProofScript.Toml.Number

/-!
# Strings of the settings format

Text between single quotes is taken as it stands, between double quotes it has escapes. Between
triple quotes it may run over lines; such text is recognised but not kept.
-/

namespace ProofScript.Toml

open ProofScript.Text ProofScript.Text.Parser

def blanks : Parser Unit := discard <| takeWhile isBlank

def isPlain (c : Char) : Bool := c == '\t' || ' ' ≤ c && c != '\x7f'

def hexEscape (length : Nat) : Parser Char := do
  let digits ← exactly (satisfy fun c => (digitValue? 16 c).isSome) length
  let n := natOfDigits 16 digits
  if n.isValidChar then return Char.ofNat n else failure

def escapes : List (Char × Char) :=
  [('\x22', '\x22'), ('\\', '\\'), ('b', '\x08'), ('f', '\x0c'), ('n', '\n'), ('r', '\r'),
   ('t', '\t')]

def escape : Parser Char := do
  literal "\\"
  let c ← satisfy fun _ => true
  match c with
  | 'u' => hexEscape 4
  | 'U' => hexEscape 8
  | _ => ofOption (escapes.lookup c)

/-- A backslash at the end of a line joins it to the next one that is not blank. -/
def continuation : Parser Unit := do
  literal "\\"
  blanks
  literal "\n"
  discard <| takeWhile fun c => isBlank c || c == '\n'

/-- Text on one line between two quotes of its kind. -/
def lineString : Parser String := firstOf [
  do
    literal "\""
    let cs ← many (escape <|> satisfy fun c => isPlain c && c != '\x22' && c != '\\')
    literal "\""
    return String.ofList cs,
  do
    literal "'"
    let cs ← takeWhile fun c => isPlain c && c != '\x27'
    literal "'"
    return String.ofList cs]

/-- Text between triple quotes. Up to two quotes more may stand right before the closing ones. -/
def blockString (quote : String) (item : Parser Unit) : Parser Unit := do
  let fence := quote ++ quote ++ quote
  literal fence
  discard <| many (firstOf [item, literal "\n", do notAhead fence; literal quote])
  literal fence
  discard <| optional (literal quote)
  discard <| optional (literal quote)

def anyString : Parser Unit := firstOf [
  blockString "\"" (firstOf [discard escape, continuation,
    discard <| satisfy fun c => isPlain c && c != '\x22' && c != '\\']),
  blockString "'" (discard <| satisfy fun c => isPlain c && c != '\x27'),
  discard lineString]

end ProofScript.Toml
