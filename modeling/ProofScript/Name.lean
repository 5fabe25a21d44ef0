/-!
# Names

Names that start with an underscore are reserved: scripts may not declare them, binders are renamed
to them, and `_0`, `_1`, … stand for the arguments of a template.
-/

namespace ProofScript.Name

def isReserved (x : String) : Bool := x.toList.head? == some '_'

/-- Numerals are names that need no declaration. -/
def isNumeral (x : String) : Bool := x.toList.head?.any Char.isDigit

def placeholder (i : Nat) : String := "_" ++ i.repr

def isPlaceholder (x : String) : Bool :=
  match x.toList with
  | '_' :: c :: cs => (c :: cs).all Char.isDigit
  | _ => false

/-- Puts underscores in front, at most `n` of them, until the name is not taken. -/
def untaken (taken : List String) : Nat → String → String
  | 0, x => x
  | n + 1, x => if taken.contains x then untaken taken n ("_" ++ x) else x

/-- The name with one underscore in front, and as many more as it takes to avoid the taken names.
Each of these blocks one candidate at most, so their number bounds the search. -/
def fresh (taken : List String) (x : String) : String :=
  untaken taken taken.length ("_" ++ x)

end ProofScript.Name
