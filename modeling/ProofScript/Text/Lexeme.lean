import ProofScript.Text.Letter
import ProofScript.Text.Parser

/-!
# Layout, names and numerals

Blanks are spaces and tabs. Blanks and a comment may stand before every lexeme; line ends are
lexemes themselves. Words made of keywords' letters are told apart from keywords only as whole
names: the literal `let` also begins `lety`.
-/

namespace ProofScript.Text

open ProofScript.Text.Parser

def isBlank (c : Char) : Bool := c == ' ' || c == '\t'

def isLineEnd (c : Char) : Bool := c == '\n' || c == '\r'

def isNameStart (c : Char) : Bool := isLetter c || c == '_'

def isNameChar (c : Char) : Bool := isLetter c || isNumber c || c == '_'

def keywords : List String :=
  ["theorem", "define", "end", "let", "if", "else", "both", "check", "sorry"]

/-- A name of the language: it starts with a letter or underscore and is no keyword. -/
def isName (cs : List Char) : Bool :=
  cs.head?.any isNameStart && cs.all isNameChar && !keywords.contains (String.ofList cs)

-- ---------------------------------------------------------------- layout

/-- A comment runs up to the end of its line. -/
def comment : Parser Unit := do
  literal "//"
  discard <| takeWhile (!isLineEnd ·)

def skip : Parser Unit := do
  discard <| takeWhile isBlank
  comment <|> pure ()

/-- What follows the layout; a failure counts at its first character. -/
def phrase (p : Parser α) : Parser α := do
  skip
  expecting p

def token (s : String) : Parser Unit := do
  skip
  literal s

def newline : Parser Unit :=
  firstOf [token "\n", token "\r\n", token "\r"]

def endOfInput : Parser Unit := phrase atEnd

/-- One or more line ends, or the end of the text. -/
def endOfLine : Parser Unit :=
  (do newline; discard <| many newline) <|> endOfInput

/-- Ends a keyword. Layout may stand between the two. -/
def endOfWord : Parser Unit := do
  skip
  notNext isNameChar

-- ---------------------------------------------------------------- names and numerals

def name : Parser String := phrase do
  let cs ← takeWhile isNameChar
  if isName cs then return String.ofList cs else failure

def digits : Parser (List Char) := takeWhile1 Char.isDigit

/-- Digits, perhaps with a point and more digits. -/
def numeral : Parser String := phrase do
  let whole ← digits
  let fraction ← (do literal "."; let ds ← digits; return '.' :: ds) <|> pure []
  return String.ofList (whole ++ fraction)

end ProofScript.Text
