/-!
# Numbers of the settings format

Digits may have single underscores between them. Decimal integers have no leading zeros; all
integers fit 64 bits with a sign. Floats must be finite as numbers of double precision.
-/

namespace ProofScript.Toml

def digitValue? (radix : Nat) (c : Char) : Option Nat :=
  let value :=
    if '0' ≤ c ∧ c ≤ '9' then some (c.toNat - '0'.toNat)
    else if 'a' ≤ c ∧ c ≤ 'f' then some (c.toNat - 'a'.toNat + 10)
    else if 'A' ≤ c ∧ c ≤ 'F' then some (c.toNat - 'A'.toNat + 10)
    else none
  value.filter (· < radix)

def natOfDigits (radix : Nat) (digits : List Char) : Nat :=
  digits.foldl (fun n c => n * radix + (digitValue? radix c).getD 0) 0

/-- Underscores stand between digits only. -/
def wellSpaced (cs : List Char) : Bool :=
  !cs.isEmpty && cs.head? != some '_' && cs.getLast? != some '_' &&
    (cs.zip cs.tail).all (· != ('_', '_'))

structure Digits where
  negative : Bool
  digits : List Char
  rest : List Char
  deriving Repr

/-- Splits off the leading digits, of which there must be some. -/
def leadingDigits (signed leadingZeros : Bool) (radix : Nat) (cs : List Char) : Option Digits :=
  let negative := signed && cs.head? == some '-'
  let cs := if negative then cs.tail else cs
  let body := cs.takeWhile fun c => c == '_' || (digitValue? radix c).isSome
  let digits := body.filter (· != '_')
  if wellSpaced body && (leadingZeros || digits.head? != some '0' || digits.length == 1) then
    some { negative, digits, rest := cs.drop body.length }
  else none

def integer? (radix : Nat) (cs : List Char) : Option Int := do
  let d ← leadingDigits (radix == 10) (radix != 10) radix cs
  let n := natOfDigits radix d.digits
  if !d.rest.isEmpty then none
  else if d.negative then if n ≤ Nat.pow 2 63 then some (-n) else none
  else if n < Nat.pow 2 63 then some n else none

/-- Is `m · 10^e` below the middle between the largest double and the next power of two? Far from
that bound the number of digits decides. -/
def isFinite (m : Nat) (e : Int) : Bool :=
  let bound := Nat.pow 2 1024 - Nat.pow 2 970
  let size := (Nat.toDigits 10 m).length + e
  m == 0 || size < 300 || size < 320 &&
    (if 0 ≤ e then m * Nat.pow 10 e.toNat < bound else m < bound * Nat.pow 10 (-e).toNat)

end ProofScript.Toml
