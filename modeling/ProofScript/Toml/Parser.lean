import ProofScript.Toml.Quoted
import ProofScript.Toml.Scalar

/-!
# Reading the settings format

Line ends are line feeds, before which a carriage return is no character of its own.
-/

namespace ProofScript.Toml

open ProofScript.Text ProofScript.Text.Parser

def joinLineEnds : List Char → List Char
  | '\r' :: '\n' :: cs => '\n' :: joinLineEnds cs
  | c :: cs => c :: joinLineEnds cs
  | [] => []

def lineEnd : Parser Unit := literal "\n" <|> atEnd

/-- A comment holds no control characters but tabs. -/
def commentLine : Parser Unit := do
  literal "#"
  discard <| takeWhile fun c => c == '\t' || ' ' ≤ c
  lineEnd

-- ---------------------------------------------------------------- keys

/-- Triple quotes do not make a key. -/
def keyPart : Parser String := firstOf [
  String.ofList <$> word,
  do
    notAhead "\"\"\""
    notAhead "\x27\x27\x27"
    lineString]

def path : Parser Path := do
  let first ← keyPart
  blanks
  let others ← many do
    literal "."
    blanks
    let part ← keyPart
    blanks
    return part
  return first :: others

-- ---------------------------------------------------------------- values

/-- Blanks, line ends and comments between the items of an array. -/
def gap : Parser Unit := do
  blanks
  discard <| many do
    literal "\n" <|> commentLine
    blanks

/-- A comma may follow the last item. -/
def array (value : Parser Value) : Parser Value := do
  let item := do
    gap
    discard value
    gap
  literal "["
  discard <| optional do
    item
    discard <| many do literal ","; item
    optional (literal ",")
  gap
  literal "]"
  return .array

def entry (value : Parser Value) : Parser (Path × Value) := do
  let p ← path
  literal "="
  blanks
  return (p, ← value)

def inlineTable (value : Parser Value) : Parser Value := do
  let item := do
    blanks
    let e ← entry value
    blanks
    return e
  literal "\x7b"
  let entries ← (do
    let first ← item
    let others ← many do literal ","; item
    return first :: others) <|> pure []
  blanks
  literal "\x7d"
  if Entries.consistent entries then return .table else failure

def value : Parser Value := fix fun value => firstOf [
  do anyString; return .string,
  array value,
  inlineTable value,
  do literal "+"; number (← word),
  do ofWord (← word)]

-- ---------------------------------------------------------------- documents

inductive Line
  | header (header : Header)
  | entry (path : Path) (value : Value)
  deriving Repr

def endOfEntry : Parser Unit := do
  blanks
  commentLine <|> lineEnd

def headerLine : Parser Line := firstOf [
  do
    literal "[["
    blanks
    let p ← path
    literal "]]"
    endOfEntry
    return .header ⟨p, true⟩,
  do
    literal "["
    blanks
    let p ← path
    literal "]"
    endOfEntry
    return .header ⟨p, false⟩]

def entryLine : Parser Line := do
  let (p, v) ← entry value
  endOfEntry
  return .entry p v

/-- Gathers the entries under the header before them. -/
def gather : List Line → Document
  | [] => { root := [], tables := [] }
  | .entry p v :: rest =>
    let d := gather rest
    { d with root := (p, v) :: d.root }
  | .header h :: rest =>
    let d := gather rest
    { root := [], tables := (h, d.root) :: d.tables }

def document : Parser Document := do
  discard <| optional (literal "\uFEFF")
  gap
  let lines ← many do
    let line ← headerLine <|> entryLine
    gap
    return line
  atEnd
  let d := gather lines
  if d.consistent then return d else failure

def parse? (s : String) : Option Document :=
  match (document ⟨joinLineEnds s.toList, .start⟩).result with
  | some (d, _) => some d
  | none => none

end ProofScript.Toml
