/-!
# Documents of the settings format

A document is a list of tables, the first of which has no header. Of the values only integers and
booleans are kept; the others are checked while they are read and remembered by their kind.
-/

namespace ProofScript.Toml

inductive Value
  | integer (value : Int)
  | boolean (value : Bool)
  | float
  | string
  | date
  | array
  | table
  deriving DecidableEq, Repr

/-- A dotted key leads through tables that it makes on the way. -/
abbrev Path := List String

abbrev Entries := List (Path × Value)

structure Header where
  path : Path
  /-- Written with double brackets: each such header begins one more element. -/
  isElement : Bool
  deriving DecidableEq, Repr

structure Document where
  root : Entries
  tables : List (Header × Entries)
  deriving Repr

-- ---------------------------------------------------------------- consistency

/-- Is `q` a value where a table is needed? What the earliest entry along `q` made of it counts. -/
def blocks (earlier : Entries) (q : Path) : Bool :=
  match earlier.find? fun (p, _) => q.isPrefixOf p with
  | some (p, _) => p == q
  | none => false

/-- The ways to the table that an entry goes into. -/
def Path.parents (p : Path) : List Path := (List.range' 1 (p.length - 1)).map p.take

/-- No dotted key leads through a value. Writing one key twice is no inconsistency here. -/
def Entries.consistent (entries : Entries) : Bool :=
  entries.zipIdx.all fun ((p, _), i) => !(Path.parents p).any (blocks (entries.take i))

/-- What the headers so far have defined. -/
abbrev Defined := List Header

/-- A table is defined once. Only elements may come again, and each begins with nothing defined
below it; the first of them must find nothing there. -/
def Header.define (defined : Defined) (h : Header) : Option Defined :=
  if h.isElement then
    if defined.contains h then
      some (defined.filter fun d => d == h || !h.path.isPrefixOf d.path)
    else if defined.any (h.path.isPrefixOf ·.path) then none
    else some (h :: defined)
  else if defined.any (·.path == h.path) then none
  else some (h :: defined)

def Document.consistent (d : Document) : Bool :=
  d.root.consistent && d.tables.all (fun (_, entries) => Entries.consistent entries) &&
    ((d.tables.map Prod.fst).foldlM Header.define []).isSome

end ProofScript.Toml
