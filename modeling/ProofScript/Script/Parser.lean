import ProofScript.Expr.Parser
import ProofScript.Script.Basic

/-!
# Reading scripts

Scripts are line oriented: a line end closes a requirement, a rule or a step. Keywords are literals
without a word boundary, except that a step of one word must end there.
-/

namespace ProofScript.Script

open ProofScript.Text ProofScript.Text.Parser ProofScript.Expr

/-- A construct, given the line of its first character. -/
def construct (p : Nat → Parser α) : Parser α := phrase do
  p (← here).line

def sentence : Parser Sentence := construct fun line => do
  let expr ← Expr.parser
  endOfLine
  return { line, expr }

-- ---------------------------------------------------------------- steps

def admission : Parser Justification := phrase do
  literal "sorry"
  notNext isNameChar
  return .admitted

def definitionReference : Parser Justification := phrase do
  token "@"
  return .definition (← name)

def theoremReference : Parser Justification := phrase do
  let theoremName ← name
  let args ← bracketed "(" ")" (commaSeparated Expr.parser)
  return .instantiation theoremName args

def justification : Parser Justification := do
  token "|"
  firstOf [admission, definitionReference, theoremReference]

def wordStep (word : String) (step : Nat → Step) : Parser Step := construct fun line => do
  token word
  endOfWord
  endOfLine
  return step line

def choice : Parser Step := construct fun line => do
  token "let"
  let x ← name
  token ":"
  let expr ← Expr.parser
  let reason ← optional justification
  endOfLine
  return .choose line x expr reason

def claim : Parser Step := construct fun line => do
  let expr ← Expr.parser
  let reason ← optional justification
  endOfLine
  return .claim line expr reason

def distinction (block : Parser (List Step)) : Parser Step := construct fun line => do
  token "if"
  let condition ← bracketed "(" ")" Expr.parser
  endOfLine
  let yes ← block
  token "else"
  endOfLine
  let no ← block
  token "both"
  endOfLine
  let both ← block
  return .cases line condition yes no both

def block : Parser (List Step) := fix fun block => phrase do
  token "\x7b"
  endOfLine
  let steps ← many (firstOf
    [wordStep "sorry" .admitted, distinction block, wordStep "check" .check, choice, claim])
  token "\x7d"
  endOfLine
  return steps

-- ---------------------------------------------------------------- declarations

def theoremDeclaration : Parser Theorem := construct fun line => do
  token "theorem"
  let theoremName ← name
  let parameters ← bracketed "(" ")" (commaSeparated name)
  token ":"
  endOfLine
  let requirements ← many sentence
  token "⇒"
  let hypothesis ← sentence
  let proof ← block
  return { name := theoremName, line, parameters, requirements, hypothesis, proof }

def definitionDeclaration : Parser Definition := construct fun line => do
  token "define"
  let definitionName ← name
  token ":"
  endOfLine
  let rules ← many sentence
  token "end"
  endOfLine
  let proof ← optional block
  return { name := definitionName, line, rules, proof := proof.getD [] }

def declaration : Parser Declaration :=
  .ofTheorem <$> theoremDeclaration <|> .ofDefinition <$> definitionDeclaration

def parser : Parser Script := do
  discard <| many newline
  let declarations ← many do
    let d ← declaration
    discard <| many newline
    return d
  endOfInput
  return declarations

def parse (s : String) : Except Position Script := read parser s

end ProofScript.Script
