import ProofScript.Text.Lexeme
import ProofScript.Toml.Document
import ProofScript.Toml.Number

/-!
# Numbers and dates as values

Both start with a word; signs and points in them end it. A date or time is known by its shape only.
-/

namespace ProofScript.Toml

open ProofScript.Text ProofScript.Text.Parser

def isWordChar (c : Char) : Bool := c.isAlphanum || c == '-' || c == '_'

def word : Parser (List Char) := takeWhile1 isWordChar

/-- What follows the digits of a float before the point, which may be all there is. The exponent's
plus sign ends a word, so its digits are the next one. -/
def float (before : List Char) (after : Option (List Char)) : Parser Value := do
  let whole ← ofOption (leadingDigits true false 10 before)
  let fraction ← match after with
    | none => pure { negative := false, digits := [], rest := whole.rest }
    | some cs => if whole.rest.isEmpty then ofOption (leadingDigits false true 10 cs) else failure
  let exponent ← match fraction.rest with
    | [] => pure { negative := false, digits := [], rest := [] }
    | e :: rest =>
      if e != 'e' && e != 'E' then failure
      else if rest.isEmpty then do
        discard <| optional (literal "+")
        ofOption (leadingDigits false true 10 (← word))
      else ofOption (leadingDigits true true 10 rest)
  let e : Int := natOfDigits 10 exponent.digits
  let e := (if exponent.negative then -e else e) - fraction.digits.length
  if exponent.rest.isEmpty && isFinite (natOfDigits 10 (whole.digits ++ fraction.digits)) e then
    return .float
  else failure

def number (cs : List Char) : Parser Value :=
  match cs with
  | '0' :: 'x' :: rest => Value.integer <$> ofOption (integer? 16 rest)
  | '0' :: 'o' :: rest => Value.integer <$> ofOption (integer? 8 rest)
  | '0' :: 'b' :: rest => Value.integer <$> ofOption (integer? 2 rest)
  | _ =>
    if cs.contains 'e' || cs.contains 'E' then float cs none
    else firstOf [
      do
        literal "."
        float cs (some (← word)),
      do
        notAhead "."
        if ["inf", "-inf", "nan", "-nan"].contains (String.ofList cs) then return .float
        else Value.integer <$> ofOption (integer? 10 cs)]

/-- A word after a sign, or no such sign. -/
def wordAfter (sign : String) : Parser Unit :=
  (do literal sign; discard word) <|> notAhead sign

/-- The time of day from its minutes on, with a fraction and an offset. -/
def time : Parser Unit := do
  discard word
  literal ":"
  discard word
  wordAfter "."
  wordAfter "+"
  wordAfter ":"

/-- The hour may follow the day after one space. -/
def date (afterColon : Bool) : Parser Value := do
  discard <| optional do
    literal " "
    word
  if afterColon then time else (do literal ":"; time) <|> notAhead ":"
  return .date

def looksLikeDate (cs : List Char) : Bool :=
  cs.contains 'T' || cs.contains 't' ||
    cs.tail.contains '-' && !(cs.zip cs.tail).any fun p => p == ('e', '-') || p == ('E', '-')

def numberOrDate (cs : List Char) : Parser Value :=
  if looksLikeDate cs then date false
  else firstOf [
    do
      literal ":"
      date true,
    do
      notAhead ":"
      number cs]

def ofWord (cs : List Char) : Parser Value :=
  if cs == "true".toList then return .boolean true
  else if cs == "false".toList then return .boolean false
  else if cs == "inf".toList || cs == "nan".toList || cs.head?.any fun c => c == '-' || c.isDigit then
    numberOrDate cs
  else failure

end ProofScript.Toml
