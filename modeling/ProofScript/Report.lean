import ProofScript.Expr.Printer

/-!
# Reports

One entry for each declaration, and one dump for each time a `check` was passed.
-/

namespace ProofScript

inductive DeclarationKind
  | proposition
  | definition
  deriving DecidableEq, Repr

structure Entry where
  kind : DeclarationKind
  name : String
  line : Nat
  /-- The first line that was accepted without being shown, if there is one. -/
  admittedAt : Option Nat
  /-- What was known at the end of the proof. -/
  facts : List Expr
  deriving DecidableEq, Repr

structure Dump where
  line : Nat
  facts : List Expr
  deriving DecidableEq, Repr

structure Report where
  entries : List Entry := []
  dumps : List Dump := []
  deriving DecidableEq, Repr

def DeclarationKind.text : DeclarationKind → String
  | proposition => "theorem"
  | definition => "definition"

def Entry.text (e : Entry) : String :=
  s!"{e.kind.text} `{e.name}` (line {e.line}): " ++
    match e.admittedAt with
    | none => "proved"
    | some line => s!"admitted (sorry in line {line})"

def Dump.text (d : Dump) : String :=
  s!"facts at line {d.line}:" ++ String.join (d.facts.map fun e => "\n    " ++ e.text)

namespace Report

def find? (r : Report) (name : String) : Option Entry := r.entries.find? (·.name = name)

def isFullyProved (r : Report) : Bool := r.entries.all (·.admittedAt.isNone)

end Report

end ProofScript
