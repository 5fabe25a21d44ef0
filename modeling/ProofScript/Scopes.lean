/-!
# Tagged scopes

A stack of scopes, each with a tag and the items added while it was innermost. The outermost scope
is always there. Scopes close in the reverse order of opening; closing names the tag it expects.

A cursor is a place in the visible items. It stays meaningful while the stack changes: what is added
ahead of it will be met, if it is still there by then.
-/

namespace ProofScript

structure Scope (α : Type) where
  tag : String
  items : List α
  deriving Repr

/-- `opened` lists the scopes above the outermost one, the innermost first. -/
structure Scopes (α : Type) where
  base : List α := []
  opened : List (Scope α) := []
  deriving Repr

/-- Raised when a scope is closed that is not the innermost one. -/
structure ScopeMismatch where
  expected : String
  innermost : String
  deriving DecidableEq, Repr

def ScopeMismatch.message (m : ScopeMismatch) : String :=
  s!"tried to exit scope `{m.expected}`, but the innermost scope is `{m.innermost}`"

namespace Scopes

def baseTag : String := "Global"

def empty : Scopes α := {}

/-- The items of each scope, outermost first. -/
def levels (s : Scopes α) : List (List α) := s.base :: s.opened.reverse.map Scope.items

/-- Every visible item, outermost scope first. -/
def items (s : Scopes α) : List α := s.levels.flatten

def size (s : Scopes α) : Nat := s.items.length

def isEmpty (s : Scopes α) : Bool := s.items.isEmpty

def contains [BEq α] (s : Scopes α) (a : α) : Bool := s.items.contains a

def depth (s : Scopes α) : Nat := s.opened.length + 1

def enter (s : Scopes α) (tag : String) : Scopes α := { s with opened := ⟨tag, []⟩ :: s.opened }

/-- Closes the innermost scope with all its items. The outermost scope never closes. -/
def exit (s : Scopes α) (tag : String) : Except ScopeMismatch (Scopes α) :=
  match s.opened with
  | [] => .error ⟨tag, baseTag⟩
  | scope :: rest =>
    if scope.tag = tag then .ok { s with opened := rest } else .error ⟨tag, scope.tag⟩

/-- Adds to the innermost scope, in the given order. -/
def addAll (s : Scopes α) (as : List α) : Scopes α :=
  match s.opened with
  | [] => { s with base := s.base ++ as }
  | scope :: rest => { s with opened := { scope with items := scope.items ++ as } :: rest }

def add (s : Scopes α) (a : α) : Scopes α := s.addAll [a]

-- ---------------------------------------------------------------- cursors

structure Cursor where
  level : Nat := 0
  index : Nat := 0
  deriving DecidableEq, Repr

def cursor : Cursor := {}

/-- Goes on from a cursor whose level is the first of the given ones. -/
def advanceIn : List (List α) → Cursor → Option α × Cursor
  | [], c => (none, c)
  | level :: rest, c =>
    match level[c.index]? with
    | some a => (some a, { c with index := c.index + 1 })
    | none => advanceIn rest ⟨c.level + 1, 0⟩

/-- The item at the cursor, and the cursor past it. Where nothing is left the cursor stops behind
the innermost scope. -/
def advance (s : Scopes α) (c : Cursor) : Option α × Cursor := advanceIn (s.levels.drop c.level) c

end Scopes

end ProofScript
