import ProofScript.Equality
import ProofScript.Knowledge

/-!
# Analysis of statements

A statement is looked up among the facts, then its negation, and only then taken apart. One fact
proves a goal directly if the two compare equal, or if a quantifier of one of them can be
instantiated to give the other. It proves a goal through its connectives if a part proves the goal
and the other parts, looked up directly, let that part hold.
-/

namespace ProofScript

open ProofScript.Expr

-- ---------------------------------------------------------------- one fact, one goal

/-- One step of instantiation: a universal fact with any name of the goal or any one expression, a
universal fact for an existential goal, an existential goal with any one expression. -/
def matchesQuantified (facts : List Expr) (fact goal : Expr) : Bool :=
  (match fact with
    | .bind .all x body =>
      goal.names.any (fun y => equalGiven facts (body.rename x y) goal) ||
      matchesWitness body goal x ||
      (match goal with
        | .bind .some _ _ => equalGiven facts (.bind .some x body) goal
        | _ => false)
    | _ => false) ||
  (match goal with
    | .bind .some x body => matchesWitness body fact x
    | _ => false)

def provesDirectly (goal fact : Expr) : Inquiry Bool := do
  let facts ← Inquiry.facts
  return equalGiven facts fact goal || matchesQuantified facts fact goal

def judgedAs (judge : Expr → Inquiry Truth) (t : Truth) (e : Expr) : Inquiry Bool :=
  return (← judge e) == t

/-- Proof through the connectives of a fact. `judge` decides on the other side of a connective. -/
def provesThrough (judge : Expr → Inquiry Truth) (goal fact : Expr) : Inquiry Bool := do
  if ← provesDirectly goal fact then return true
  match fact with
  | .binary .implies l r => provesThrough judge goal r <&&> judgedAs judge .holds l
  | .binary .and l r => provesThrough judge goal l <||> provesThrough judge goal r
  | .binary .or l r =>
    (provesThrough judge goal r <&&> judgedAs judge .fails l) <||>
      (provesThrough judge goal l <&&> judgedAs judge .fails r)
  | .binary .iff l r =>
    (provesThrough judge goal r <&&> judgedAs judge .holds l) <||>
      (provesThrough judge goal l <&&> judgedAs judge .holds r)
  | _ => return false
termination_by structural fact

-- ---------------------------------------------------------------- one statement

/-- A negation is not looked up negated once more: taking it apart looks up what it denies. -/
def settle (known : Expr → Inquiry Bool) (e : Expr) (otherwise : Inquiry Truth) : Inquiry Truth := do
  if ← known e then return .holds
  if !e.isNegation then
    if ← known (.not e) then return .fails
  otherwise

def refutedAssuming (assumption : Expr) (judge : Inquiry Truth) : Inquiry Bool :=
  return (← Inquiry.assuming "And" assumption (Inquiry.whileRefuting judge)) == .fails

/-- A conjunction with an open side may still fail because its sides exclude each other. -/
def conjunction (l r : Expr) (judgeLeft judgeRight : Inquiry Truth) : Inquiry Truth := do
  let left ← judgeLeft
  let right ← judgeRight
  match left.and right with
  | .unknown =>
    if (← get).refuting then return .unknown
    if ← refutedAssuming l judgeRight <||> refutedAssuming r judgeLeft then return .fails
    else return .unknown
  | truth => return truth

/-- The value of a statement, given how single statements are looked up. An existential statement is
judged as the negation of a universal one. -/
def evaluate (depth : Nat) (known : Expr → Inquiry Bool) (e : Expr) : Inquiry Truth :=
  settle known e <| match e with
    | .binary .implies l r => do
      let antecedent ← evaluate depth known l
      let consequent ← Inquiry.assuming "Implies" l (evaluate depth known r)
      return antecedent.implies consequent
    | .binary .iff l r => return (← evaluate depth known l).iff (← evaluate depth known r)
    | .binary .or l r => return (← evaluate depth known l).or (← evaluate depth known r)
    | .binary .and l r => conjunction l r (evaluate depth known l) (evaluate depth known r)
    | .binary .equals l r => do
      if equalByFacts (← Inquiry.facts) depth l r then return .holds else return .unknown
    | .binary .elementOf _ _ | .binary .subset _ _ => return .unknown
    | .not a => Truth.negate <$> evaluate depth known a
    | .bind .all _ body => evaluate depth known body
    | .bind .some x body =>
      let never := Expr.bind .all x (.not body)
      settle known (.not never) <| Truth.negate <$>
        (settle known never <| settle known (.not body) <| Truth.negate <$> evaluate depth known body)
    | .var _ | .call _ _ => return .unknown
    | .binary .plus _ _ | .binary .minus _ _ | .binary .times _ _ | .binary .divide _ _
    | .binary (.named _) _ _ | .bind .those _ _ | .group _ _ => throw (.notAStatement e)
termination_by structural e

/-- Judges with facts as they stand. -/
def judgeDirectly (depth : Nat) : Expr → Inquiry Truth :=
  evaluate depth fun goal => Inquiry.search (provesDirectly goal)

/-- Judges with facts and what follows through their connectives. -/
def judge (depth : Nat) : Expr → Inquiry Truth :=
  evaluate depth fun goal => Inquiry.search (provesThrough (judgeDirectly depth) goal)

end ProofScript
