/-!
# Backtracking parsers

A parser looks at the characters ahead and either fails or answers a value and the rest. Choices
are ordered: the second alternative is tried only where the first fails, and a choice once made is
never taken back.

Every reply also tells the furthest place where a construct was expected in vain, over all that
was tried, including alternatives and repetitions that failed without harm. It never influences
the result. That place is where an unreadable text is reported to be wrong.
-/

namespace ProofScript.Text

-- ---------------------------------------------------------------- positions

structure Position where
  line : Nat
  column : Nat
  deriving DecidableEq, Repr

namespace Position

def start : Position := ⟨1, 1⟩

/-- The position after a character. Only a line feed begins a line, so that a carriage return
before it is the last column and one alone is a column like any other. -/
def after (p : Position) (c : Char) : Position :=
  if c = '\n' then ⟨p.line + 1, 1⟩ else ⟨p.line, p.column + 1⟩

def before (p q : Position) : Bool :=
  p.line < q.line || p.line == q.line && p.column < q.column

def furthest (p q : Position) : Position := if p.before q then q else p

end Position

-- ---------------------------------------------------------------- input and replies

structure Input where
  chars : List Char
  position : Position
  deriving Repr

namespace Input

def ofString (s : String) : Input := ⟨s.toList, .start⟩

def drop (i : Input) (n : Nat) : Input :=
  ⟨i.chars.drop n, (i.chars.take n).foldl Position.after i.position⟩

end Input

structure Reply (α : Type) where
  result : Option (α × Input)
  furthest : Position

def Parser (α : Type) : Type := Input → Reply α

namespace Parser

def succeed (a : α) : Parser α := fun i => ⟨some (a, i), .start⟩

def fail : Parser α := fun _ => ⟨none, .start⟩

def andThen (p : Parser α) (f : α → Parser β) : Parser β := fun i =>
  match p i with
  | ⟨none, far⟩ => ⟨none, far⟩
  | ⟨some (a, rest), far⟩ =>
    let reply := f a rest
    ⟨reply.result, far.furthest reply.furthest⟩

def orElse (p : Parser α) (q : Unit → Parser α) : Parser α := fun i =>
  match p i with
  | ⟨some r, far⟩ => ⟨some r, far⟩
  | ⟨none, far⟩ =>
    let reply := q () i
    ⟨reply.result, far.furthest reply.furthest⟩

instance : Monad Parser where
  pure := succeed
  bind := andThen

instance : Alternative Parser where
  failure := fail
  orElse := orElse

def ofOption : Option α → Parser α
  | some a => pure a
  | none => failure

/-- Counts a failure of `p` at the place where `p` began. -/
def expecting (p : Parser α) : Parser α := fun i =>
  match p i with
  | ⟨some r, far⟩ => ⟨some r, far⟩
  | ⟨none, far⟩ => ⟨none, far.furthest i.position⟩

-- ---------------------------------------------------------------- repetition

/-- The `n`-th approximation of the parser that `f` defines in terms of itself. -/
def unfolding (f : Parser α → Parser α) : Nat → Parser α
  | 0 => fail
  | n + 1 => fun i => f (unfolding f n) i

/-- The parser that `f` defines in terms of itself. One unfolding for each character ahead is
enough as long as `f` consults its argument only after it has consumed something. -/
def fix (f : Parser α → Parser α) : Parser α := fun i => unfolding f (i.chars.length + 1) i

/-- Zero or more, as many as there are. `p` must not succeed without consuming anything. -/
def many (p : Parser α) : Parser (List α) :=
  fix fun more => (do
    let a ← p
    let as ← more
    return a :: as) <|> pure []

def exactly (p : Parser α) : Nat → Parser (List α)
  | 0 => pure []
  | n + 1 => do
    let a ← p
    let as ← exactly p n
    return a :: as

def firstOf : List (Parser α) → Parser α
  | [] => fail
  | p :: ps => p <|> firstOf ps

-- ---------------------------------------------------------------- characters

def here : Parser Position := fun i => ⟨some (i.position, i), .start⟩

/-- The longest run of characters in the class, perhaps empty. -/
def takeWhile (ok : Char → Bool) : Parser (List Char) := fun i =>
  let run := i.chars.takeWhile ok
  ⟨some (run, i.drop run.length), .start⟩

def takeWhile1 (ok : Char → Bool) : Parser (List Char) := do
  let run ← takeWhile ok
  if run.isEmpty then failure else return run

def satisfy (ok : Char → Bool) : Parser Char := fun i =>
  match i.chars with
  | [] => ⟨none, .start⟩
  | c :: _ => if ok c then ⟨some (c, i.drop 1), .start⟩ else ⟨none, .start⟩

def literal (s : String) : Parser Unit := fun i =>
  if s.toList.isPrefixOf i.chars then ⟨some ((), i.drop s.toList.length), .start⟩
  else ⟨none, .start⟩

/-- Succeeds, consuming nothing, unless a character of the class is next. -/
def notNext (ok : Char → Bool) : Parser Unit := fun i =>
  if i.chars.head?.any ok then ⟨none, .start⟩ else ⟨some ((), i), .start⟩

/-- Succeeds, consuming nothing, unless the text is next. -/
def notAhead (s : String) : Parser Unit := fun i =>
  if s.toList.isPrefixOf i.chars then ⟨none, .start⟩ else ⟨some ((), i), .start⟩

def atEnd : Parser Unit := fun i =>
  if i.chars.isEmpty then ⟨some ((), i), .start⟩ else ⟨none, .start⟩

/-- Reads a text, or answers where it went wrong. -/
def read (p : Parser α) (s : String) : Except Position α :=
  match p (.ofString s) with
  | ⟨some (a, _), _⟩ => .ok a
  | ⟨none, far⟩ => .error far

end Parser

end ProofScript.Text
