import ProofScript.Expr.Chain
import ProofScript.Text.Lexeme

/-!
# Reading expressions

Each `phrase` is a construct whose failure counts for the place of an error.
-/

namespace ProofScript.Expr

open ProofScript.Text ProofScript.Text.Parser

def operatorSigns : List (String × Operator) :=
  [("⇔", .iff), ("⇒", .implies), ("∨", .or), ("∧", .and), ("=", .equals), ("∈", .elementOf),
   ("⊆", .subset), ("+", .plus), ("-", .minus), ("−", .minus), ("⋅", .times), ("·", .times),
   ("÷", .divide)]

def sign (s : String) (a : α) : Parser α := phrase do
  literal s
  return a

def operator : Parser Operator :=
  firstOf (operatorSigns.map fun (s, op) => sign s op) <|> phrase (Operator.named <$> name)

/-- Zero or more items with commas between them. -/
def commaSeparated (item : Parser α) : Parser (List α) :=
  (do
    let first ← item
    let others ← many do token ","; item
    return first :: others) <|> pure []

def bracketed (opening closing : String) (p : Parser α) : Parser α := do
  token opening
  let a ← p
  token closing
  return a

def quantified (expr : Parser Expr) : Parser Expr := phrase do
  let binder ← sign "∀" .all <|> sign "∃" .some
  let x ← name
  let body ← bracketed "(" ")" expr
  return .bind binder x body

def called (expr : Parser Expr) : Parser Expr := phrase do
  let f ← name
  let args ← bracketed "(" ")" (commaSeparated expr)
  return .call f args

def comprehension (expr : Parser Expr) : Parser Expr := phrase <| bracketed "\x7b" "\x7d" do
  let x ← name
  token ":"
  let body ← expr
  return .bind .those x body

def term (expr : Parser Expr) : Parser Expr := fix fun term => firstOf [
  quantified expr,
  phrase do token "¬"; return .not (← term),
  called expr,
  phrase (.group .tuple <$> bracketed "[" "]" (commaSeparated expr)),
  comprehension expr,
  phrase (.group .set <$> bracketed "\x7b" "\x7d" (commaSeparated expr)),
  .var <$> numeral,
  phrase (.var <$> name),
  bracketed "(" ")" expr]

def chain (expr : Parser Expr) : Parser Chain := do
  let head ← term expr
  let tail ← many do
    let op ← operator
    let operand ← term expr
    return (op, operand)
  return ⟨head, tail⟩

def parser : Parser Expr := fix fun expr => phrase (Chain.expr <$> chain expr)

/-- Reads a text that holds one expression and nothing else. -/
def parse (s : String) : Except Position Expr :=
  read (do let e ← parser; endOfInput; return e) s

end ProofScript.Expr
