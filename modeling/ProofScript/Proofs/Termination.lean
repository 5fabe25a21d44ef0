import Mathlib.Data.List.Basic
import ProofScript.Proofs.Reading

/-!
# Termination of the analysis

The analysis as plain recursion: loops run until they are done, and an existential statement is
judged by asking for the negation of a universal one. Every function is given a bound on how deep its
calls may nest, and is stopped with `none` there; the bound is good for nothing else.

No argument gets smaller with every call. A `Question` is a call of one of the functions, and `Calls`
says which calls a call can lead to; a measure of four numbers decreases along it. What a call returns
follows from what the calls it leads to return, so each of them returns under all bounds but finitely
many.
-/

namespace ProofScript

-- ---------------------------------------------------------------- fresh names

/-- Puts underscores in front until the name is not taken. -/
def Name.growUntil (taken : String → Bool) (n : Nat) (x : String) : Option String :=
  match n with
  | 0 => none
  | n + 1 => if taken x then growUntil taken n ("_" ++ x) else some x

theorem Name.growUntil_untaken {names : List String} (htaken : ∀ y, taken y = names.contains y)
    (h : untaken names n x ∉ names) : Settles (growUntil taken · x) (untaken names n x) := by
  induction n generalizing x with
  | zero =>
    have hx : taken x = false := by simpa [htaken, untaken] using h
    refine .succ ?_
    simp only [growUntil, hx]
    exact .pure x
  | succ n ih =>
    refine .succ ?_
    simp only [growUntil, htaken]
    unfold untaken at h ⊢
    cases hx : names.contains x with
    | true =>
      rw [hx] at h
      exact ih h
    | false => exact .pure x

theorem Name.growUntil_fresh {names : List String} (htaken : ∀ y, taken y = names.contains y)
    (x : String) : Settles (growUntil taken · ("_" ++ x)) (fresh names x) :=
  growUntil_untaken htaken (fresh_not_mem names x)

/-- The loop that names a binder looks at its body and at the replacements. -/
theorem Expr.growUntil_binder (x : String) (body : Expr) (values : List Expr) :
    Settles (Name.growUntil (fun y => body.occursFree y || values.any (·.occursFree y)) · ("_" ++ x))
      (Name.fresh (body.free ++ freeAll values) x) := by
  refine Name.growUntil_fresh (fun y => ?_) x
  rw [Bool.eq_iff_iff]
  simp [occursFree_iff, mem_freeAll]

/-- The loop that names a slot looks at the target and at the pattern. -/
theorem Expr.growUntil_slot (x : String) (pattern target : Expr) :
    Settles (Name.growUntil (fun y => target.occursFree y || pattern.occursFree y) · ("_" ++ x))
      (Name.fresh (target.free ++ pattern.free) x) := by
  refine Name.growUntil_fresh (fun y => ?_) x
  rw [Bool.eq_iff_iff]
  simp [occursFree_iff]

-- ---------------------------------------------------------------- chains of equalities

namespace Expr

section
variable (chain : Expr → Expr → Option Bool)

def equalAll (as bs : List Expr) : Option Bool :=
  if as.length = bs.length then (as.zip bs).allM fun p => chain p.1 p.2 else return false

def equalByStructure (a b : Expr) : Option Bool :=
  match a, b with
  | var x, var y => return x = y
  | binary o l r, binary p m s => if o = p then chain l m <&&> chain r s else return false
  | not e, not f => chain e f
  | call f as, call g bs => if f = g then equalAll chain as bs else return false
  | group g as, group h bs => if g = h then equalAll chain as bs else return false
  | a, b => return alphaEq a b

def equalByLinks (facts : List Expr) (a b : Expr) : Option Bool :=
  facts.anyM fun
    | binary .equals l r => (chain l a <&&> chain r b) <||> (chain l b <&&> chain r a)
    | _ => return false

end

/-- `d` links lead here; there are no links beyond `limit`. -/
def equalByChain (limit : Nat) (facts : List Expr) (n d : Nat) (a b : Expr) : Option Bool :=
  match n with
  | 0 => none
  | n + 1 => do
    if ← equalByStructure (equalByChain limit facts n d) a b then return true
    if d > limit then return false
    equalByLinks (equalByChain limit facts n (d + 1)) facts a b

/-- The expressions right under the root. -/
def parts : Expr → List Expr
  | var _ => []
  | call _ args => args
  | binary _ l r => [l, r]
  | not e => [e]
  | bind _ _ body => [body]
  | group _ items => items

theorem sizeOf_part {a : Expr} (h : d ∈ a.parts) : sizeOf d < sizeOf a := by
  cases a with
  | var x => cases h
  | call f args =>
    have hargs : sizeOf d < sizeOf args := List.sizeOf_lt_of_mem h
    simp only [call.sizeOf_spec]
    omega
  | binary op l r =>
    simp only [parts, List.mem_cons, List.not_mem_nil, or_false] at h
    rcases h with rfl | rfl <;> simp only [binary.sizeOf_spec] <;> omega
  | not e =>
    cases List.mem_singleton.mp h
    simp only [not.sizeOf_spec]
    omega
  | bind q x body =>
    cases List.mem_singleton.mp h
    simp only [bind.sizeOf_spec]
    omega
  | group g items =>
    have hitems : sizeOf d < sizeOf items := List.sizeOf_lt_of_mem h
    simp only [group.sizeOf_spec]
    omega

/-- An existential statement weighs more than the negation it is judged by. -/
def weight : Expr → Nat
  | binary _ l r => l.weight + r.weight + 1
  | not e | bind .all _ e => e.weight + 1
  | bind .some _ body => body.weight + 4
  | var _ | call _ _ | bind .those _ _ | group _ _ => 1

theorem weight_pos (e : Expr) : 0 < e.weight := by
  unfold weight
  split <;> omega

theorem congruentAll_eq (link : Expr → Expr → Bool) (as bs : List Expr) :
    congruentAll link as bs =
      (decide (as.length = bs.length) && (as.zip bs).all fun p => congruent link p.1 p.2) := by
  induction as generalizing bs with
  | nil => cases bs <;> simp [congruentAll]
  | cons a as ih => cases bs <;> simp [congruentAll, ih, Bool.and_left_comm]

theorem allM_eq_some {f : α → Option Bool} {g : α → Bool} {as : List α} (h : ∀ a ∈ as, f a = some (g a)) :
    as.allM f = some (as.all g) := by
  induction as with
  | nil => rfl
  | cons a as ih =>
    obtain ⟨ha, has⟩ := List.forall_mem_cons.mp h
    rw [List.allM_cons, ha, ih has, List.all_cons]
    cases g a <;> rfl

theorem anyM_eq_some {f : α → Option Bool} {g : α → Bool} {as : List α} (h : ∀ a ∈ as, f a = some (g a)) :
    as.anyM f = some (as.any g) := by
  induction as with
  | nil => rfl
  | cons a as ih =>
    obtain ⟨ha, has⟩ := List.forall_mem_cons.mp h
    rw [List.anyM_cons, ha, ih has, List.any_cons]
    cases g a <;> rfl

section
variable {chain : Expr → Expr → Option Bool}

theorem equalAll_eq {link : Expr → Expr → Bool} {as bs : List Expr}
    (h : ∀ a ∈ as, ∀ b ∈ bs, chain a b = some (congruent link a b)) :
    equalAll chain as bs = some (congruentAll link as bs) := by
  have hpairs : (as.zip bs).allM (fun p => chain p.1 p.2) =
      some ((as.zip bs).all fun p => congruent link p.1 p.2) :=
    allM_eq_some fun p hp => h p.1 (List.of_mem_zip hp).1 p.2 (List.of_mem_zip hp).2
  rw [equalAll, hpairs, congruentAll_eq]
  by_cases hlength : as.length = bs.length <;> simp [hlength]

theorem equalByStructure_eq {link : Expr → Expr → Bool} (a b : Expr)
    (h : ∀ a' ∈ a.parts, ∀ b' ∈ b.parts, chain a' b' = some (congruent link a' b')) :
    ∃ same, equalByStructure chain a b = some same ∧ congruent link a b = (same || link a b) := by
  unfold equalByStructure
  split
  · exact ⟨_, rfl, by simp [congruent]⟩
  · rename_i o l r p m s
    rw [h l (by simp [parts]) m (by simp [parts]), h r (by simp [parts]) s (by simp [parts])]
    refine ⟨decide (o = p) && congruent link l m && congruent link r s, ?_, by rw [congruent]⟩
    by_cases ho : o = p <;> cases congruent link l m <;> simp [ho] <;> rfl
  · exact ⟨_, h _ (by simp [parts]) _ (by simp [parts]), by rw [congruent]⟩
  · rename_i f as g bs
    have hall : equalAll chain as bs = _ := equalAll_eq h
    refine ⟨decide (f = g) && congruentAll link as bs, ?_, by rw [congruent]⟩
    by_cases hf : f = g <;> simp [hf, hall]
  · rename_i g as g' bs
    have hall : equalAll chain as bs = _ := equalAll_eq h
    refine ⟨decide (g = g') && congruentAll link as bs, ?_, by rw [congruent]⟩
    by_cases hg : g = g' <;> simp [hg, hall]
  -- two roots of different kinds, or two binders
  · refine ⟨_, rfl, ?_⟩
    rw [congruent.eq_def]
    split <;> grind

theorem equalByLinks_eq {linked : Expr → Expr → Bool} {facts : List Expr}
    (h : ∀ p ∈ equations facts, ∀ s ∈ [p.1, p.2], ∀ t ∈ [a, b], chain s t = some (linked s t)) :
    equalByLinks chain facts a b = some ((equations facts).any fun p =>
      (linked p.1 a && linked p.2 b) || (linked p.1 b && linked p.2 a)) := by
  rw [equations, List.any_filterMap]
  refine anyM_eq_some fun fact hfact => ?_
  split
  · rename_i l r
    have hlr := h (l, r) (List.mem_filterMap.mpr ⟨_, hfact, rfl⟩)
    simp only [List.mem_cons, List.not_mem_nil, or_false, forall_eq_or_imp, forall_eq] at hlr
    obtain ⟨⟨hla, hlb⟩, hra, hrb⟩ := hlr
    rw [hla, hrb, hlb, hra]
    dsimp only
    cases linked l a <;> cases linked r b <;> cases linked l b <;> cases linked r a <;> rfl
  · split <;> simp_all

end

/-- What a chain leads to: the parts at the same depth, the sides of the equations one link deeper. -/
theorem equalByChain_step {limit d : Nat} {facts : List Expr}
    (hparts : ∀ a' ∈ a.parts, ∀ b' ∈ b.parts,
      Settles (equalByChain limit facts · d a' b') (chained (equations facts) (limit + 1 - d) a' b'))
    (hlinks : d ≤ limit → ∀ p ∈ equations facts, ∀ s ∈ [p.1, p.2], ∀ t ∈ [a, b],
      Settles (equalByChain limit facts · (d + 1) s t)
        (chained (equations facts) (limit + 1 - (d + 1)) s t)) :
    Settles (equalByChain limit facts · d a b) (chained (equations facts) (limit + 1 - d) a b) := by
  obtain ⟨N, hparts⟩ := eventually_all fun a' ha => eventually_all fun b' hb => hparts a' ha b' hb
  refine .succ ?_
  by_cases hd : d ≤ limit
  · have hleft : limit + 1 - d = limit + 1 - (d + 1) + 1 := by omega
    obtain ⟨M, hlinks⟩ := eventually_all fun p hp => eventually_all fun s hs => eventually_all fun t ht =>
      hlinks hd p hp s hs t ht
    refine ⟨max N M, fun n hn => ?_⟩
    have hparts := hparts n (Nat.le_trans (Nat.le_max_left N M) hn)
    have hlinks := hlinks n (Nat.le_trans (Nat.le_max_right N M) hn)
    rw [hleft] at hparts ⊢
    obtain ⟨same, hsame, hcongruent⟩ := equalByStructure_eq a b hparts
    dsimp only
    rw [equalByChain, hsame, equalByLinks_eq hlinks]
    simp only [chained, hcongruent]
    cases same <;> simp [Nat.not_lt.mpr hd]
  · have hleft : limit + 1 - d = 0 := by omega
    refine ⟨N, fun n hn => ?_⟩
    have hparts := hparts n hn
    rw [hleft] at hparts ⊢
    obtain ⟨same, hsame, hcongruent⟩ := equalByStructure_eq a b hparts
    dsimp only
    rw [equalByChain, hsame]
    simp only [chained, hcongruent]
    cases same <;> simp [Nat.lt_of_not_le hd]

end Expr

-- ---------------------------------------------------------------- the analysis as plain recursion

/-- An inquiry that may be stopped before it returns. -/
abbrev Attempt := ExceptT InternalFault (StateT Knowledge Option)

namespace Attempt

open ProofScript.Expr (chained equalByChain equalGiven equations)

def ofInquiry (m : Inquiry α) : Attempt α := fun k => some (m.run k)

def tooDeep : Attempt α := fun _ => none

def judged (m : Attempt Truth) (t : Truth) : Attempt Bool := return (← m) == t

mutual
def analyse (limit n : Nat) (through : Bool) (e : Expr) : Attempt Truth :=
  match n with
  | 0 => tooDeep
  | n + 1 => do
    if ← isProven limit n through e then return .holds
    if !e.isNegation then
      if ← isProven limit n through (.not e) then return .fails
    match e with
    | .binary op l r => analyseBinary limit n through op l r
    | .not a => return (← analyse limit n through a).negate
    | .bind .all _ body => analyse limit n through body
    | .bind .some x body => analyse limit n through (.not (.bind .all x (.not body)))
    | .var _ | .call _ _ => return .unknown
    | .bind .those _ _ | .group _ _ => throw (.notAStatement e)
def analyseBinary (limit n : Nat) (through : Bool) (op : Operator) (l r : Expr) : Attempt Truth :=
  match n with
  | 0 => tooDeep
  | n + 1 =>
    match op with
    | .plus | .minus | .times | .divide | .named _ => throw (.notAStatement (.binary op l r))
    | .implies => do
      let antecedent ← analyse limit n through l
      ofInquiry (Inquiry.enter "Implies")
      modify (·.assume l)
      let consequent ← observing (analyse limit n through r)
      ofInquiry (Inquiry.exit "Implies")
      return antecedent.implies (← MonadExcept.ofExcept consequent)
    | .iff => return (← analyse limit n through l).iff (← analyse limit n through r)
    | .or => return (← analyse limit n through l).or (← analyse limit n through r)
    | .and => analyseConjunction limit n through l r
    | .equals => do
      let facts ← ofInquiry Inquiry.facts
      if equalGiven facts l r then return .holds
      if ← equalByChain limit facts n 0 l r then return .holds
      return .unknown
    | .elementOf | .subset => return .unknown
def analyseConjunction (limit n : Nat) (through : Bool) (l r : Expr) : Attempt Truth :=
  match n with
  | 0 => tooDeep
  | n + 1 => do
    let left ← analyse limit n through l
    let right ← analyse limit n through r
    match left.and right with
    | .unknown =>
      if (← get).refuting then return .unknown
      if ← refutedBy limit n through l r <||> refutedBy limit n through r l then return .fails
      return .unknown
    | truth => return truth
def refutedBy (limit n : Nat) (through : Bool) (assumption e : Expr) : Attempt Bool :=
  match n with
  | 0 => tooDeep
  | n + 1 => do
    ofInquiry (Inquiry.enter "And")
    modify (·.assume assumption)
    let before := (← get).refuting
    ofInquiry (Inquiry.setRefuting true)
    let truth ← observing (analyse limit n through e)
    ofInquiry (Inquiry.setRefuting before)
    ofInquiry (Inquiry.exit "And")
    return (← MonadExcept.ofExcept truth) == .fails
def isProven (limit n : Nat) (through : Bool) (goal : Expr) : Attempt Bool :=
  match n with
  | 0 => tooDeep
  | n + 1 => provenFrom limit n through goal Scopes.cursor
/-- Goes on as long as the cursor finds facts, those that are known by then. -/
def provenFrom (limit n : Nat) (through : Bool) (goal : Expr) (c : Scopes.Cursor) : Attempt Bool :=
  match n with
  | 0 => tooDeep
  | n + 1 => do
    match (← get).facts.advance c with
    | (none, _) => return false
    | (some fact, next) =>
      if ← proves limit n through goal fact then return true
      provenFrom limit n through goal next
def proves (limit n : Nat) (through : Bool) (goal fact : Expr) : Attempt Bool :=
  match n with
  | 0 => tooDeep
  | n + 1 => do
    if ← ofInquiry (provesDirectly goal fact) then return true
    if !through then return false
    match fact with
    | .binary .implies l r =>
      proves limit n true goal r <&&> judged (analyse limit n false l) .holds
    | .binary .and l r => proves limit n true goal l <||> proves limit n true goal r
    | .binary .or l r =>
      (proves limit n true goal r <&&> judged (analyse limit n false l) .fails) <||>
        (proves limit n true goal l <&&> judged (analyse limit n false r) .fails)
    | .binary .iff l r =>
      (proves limit n true goal r <&&> judged (analyse limit n false l) .holds) <||>
        (proves limit n true goal l <&&> judged (analyse limit n false r) .holds)
    | _ => return false
end

theorem run_bind (m : Attempt α) (f : α → Attempt β) (k : Knowledge) :
    (m >>= f) k = m k >>= fun out => match out with
      | (.ok a, k) => f a k
      | (.error fault, k) => some (.error fault, k) := by
  simp only [bind, ExceptT.bind, ExceptT.mk, StateT.bind]
  rcases m k with _ | ⟨_ | _, _⟩ <;> rfl

theorem run_observing (m : Attempt α) (k : Knowledge) :
    (observing m : Attempt _) k = m k >>= fun out => some (.ok out.1, out.2) := by
  simp only [observing, tryCatch, tryCatchThe, MonadExceptOf.tryCatch, ExceptT.tryCatch, bind,
    ExceptT.bind, ExceptT.mk, StateT.bind]
  rcases m k with _ | ⟨_ | _, _⟩ <;> rfl

/-- The flag is put back before a failure of `m` goes on. -/
theorem observing_whileRefuting (m : Inquiry α) (f : Except InternalFault α → Inquiry β) :
    (observing (Inquiry.whileRefuting m) >>= f) = (do
      let before := (← get).refuting
      Inquiry.setRefuting true
      let result ← observing m
      Inquiry.setRefuting before
      f result) := by
  funext k
  show Inquiry.run _ k = Inquiry.run _ k
  simp only [Inquiry.whileRefuting, Inquiry.run_bind, Inquiry.run_observing, Inquiry.run_get,
    Inquiry.run_setRefuting]
  cases (Inquiry.run m _).1 <;> rfl

/-- Under all bounds that are large enough, the attempt returns what the inquiry gives. -/
def Returns (m : Nat → Attempt α) (i : Inquiry α) : Prop := ∀ k, Settles (m · k) (i.run k)

namespace Returns

theorem ofInquiry (i : Inquiry α) : Returns (fun _ => Attempt.ofInquiry i) i := fun _ => .pure _

theorem pure (a : α) : Returns (fun _ => Pure.pure a) (Pure.pure a) := fun _ => .pure _

theorem throw (fault : InternalFault) : Returns (fun _ => (MonadExcept.throw fault : Attempt α))
    (MonadExcept.throw fault) := fun _ => .pure _

theorem get : Returns (fun _ => MonadState.get) MonadState.get := fun _ => .pure _

theorem assume (fact : Expr) : Returns (fun _ => modify (·.assume fact)) (modify (·.assume fact)) :=
  fun _ => .pure _

theorem ofExcept (r : Except InternalFault α) :
    Returns (fun _ => MonadExcept.ofExcept r) (MonadExcept.ofExcept r) := by
  cases r with
  | ok a => exact .pure a
  | error fault => exact .throw fault

theorem bind {m : Nat → Attempt α} {f : Nat → α → Attempt β} {g : α → Inquiry β} (hm : Returns m i)
    (hf : ∀ a, Returns (f · a) (g a)) : Returns (fun n => m n >>= f n) (i >>= g) := by
  intro k
  simp only [run_bind, Inquiry.run_bind]
  refine (hm k).bind ?_
  rcases i.run k with ⟨fault | a, k⟩
  · exact .pure _
  · exact hf a k

theorem observed (hm : Returns m i) : Returns (fun n => observing (m n)) (observing i) := by
  intro k
  simp only [run_observing, Inquiry.run_observing]
  exact (hm k).bind (.pure _)

/-- A call that takes one off the bound. -/
theorem succ (h : Returns (fun n => m (n + 1)) i) : Returns m i := fun k => .succ (h k)

theorem orElse {m : Nat → Attempt α} (ht : Returns t j) (a : α) (hm : Returns m i) :
    Returns (fun n => t n >>= fun b => if b = true then Pure.pure a else m n)
      (j >>= fun b => if b = true then Pure.pure a else i) := by
  refine ht.bind fun b => ?_
  cases b with
  | true => exact .pure a
  | false => exact hm

theorem and {a b : Nat → Attempt Bool} (ha : Returns a i) (hb : Returns b j) :
    Returns (fun n => a n <&&> b n) (i <&&> j) := by
  refine ha.bind fun x => ?_
  cases x with
  | true => exact hb
  | false => exact .pure false

theorem or {a b : Nat → Attempt Bool} (ha : Returns a i) (hb : Returns b j) :
    Returns (fun n => a n <||> b n) (i <||> j) := by
  refine ha.bind fun x => ?_
  cases x with
  | true => exact .pure true
  | false => exact hb

theorem judgedAs {judge : Expr → Inquiry Truth} (hm : Returns m (judge e)) (t : Truth) :
    Returns (fun n => judged (m n) t) (ProofScript.judgedAs judge t e) :=
  hm.bind fun _ => .pure _

theorem assuming {f : Nat → α → Attempt β} {g : α → Inquiry β} (hm : Returns m i)
    (hf : ∀ a, Returns (f · a) (g a)) (tag : String) (fact : Expr) :
    Returns (fun n => do
      Attempt.ofInquiry (Inquiry.enter tag)
      modify (·.assume fact)
      let result ← observing (m n)
      Attempt.ofInquiry (Inquiry.exit tag)
      f n (← MonadExcept.ofExcept result)) (Inquiry.assuming tag fact i >>= g) := by
  simp only [Inquiry.assuming, bind_assoc]
  exact (ofInquiry _).bind fun _ => (assume fact).bind fun _ => hm.observed.bind fun result =>
    (ofInquiry _).bind fun _ => (ofExcept result).bind hf

theorem refuted {m : Nat → Attempt Truth} (hm : Returns m i) (assumption : Expr) :
    Returns (fun n => do
      Attempt.ofInquiry (Inquiry.enter "And")
      modify (·.assume assumption)
      let before := (← MonadState.get).refuting
      Attempt.ofInquiry (Inquiry.setRefuting true)
      let truth ← observing (m n)
      Attempt.ofInquiry (Inquiry.setRefuting before)
      Attempt.ofInquiry (Inquiry.exit "And")
      return (← MonadExcept.ofExcept truth) == .fails) (refutedAssuming assumption i) := by
  simp only [refutedAssuming, Inquiry.assuming, observing_whileRefuting, bind_assoc]
  refine (ofInquiry _).bind fun _ => (assume assumption).bind fun _ => get.bind fun k => ?_
  refine (ofInquiry _).bind fun _ => hm.observed.bind fun truth => ?_
  exact (ofInquiry _).bind fun _ => (ofInquiry _).bind fun _ => (ofExcept truth).bind fun _ => .pure _

theorem settle {known denied : Nat → Attempt Bool} (knows : Expr → Inquiry Bool)
    (hknown : Returns known (knows e)) (hdenied : e.isNegation = false → Returns denied (knows (.not e)))
    (hm : Returns m i) :
    Returns (fun n => do
      if ← known n then return .holds
      if !e.isNegation then
        if ← denied n then return .fails
      m n) (ProofScript.settle knows e i) := by
  unfold ProofScript.settle
  cases he : e.isNegation with
  | true =>
    simp only [Bool.not_true, Bool.false_eq_true, if_false]
    exact hknown.orElse Truth.holds hm
  | false =>
    simp only [Bool.not_false, if_true]
    exact hknown.orElse Truth.holds ((hdenied he).orElse Truth.fails hm)

end Returns

end Attempt

-- ---------------------------------------------------------------- what the program answers

def provesBy (limit : Nat) : Bool → Expr → Expr → Inquiry Bool
  | false => provesDirectly
  | true => provesThrough (judgeDirectly limit)

def knownBy (limit : Nat) (through : Bool) (goal : Expr) : Inquiry Bool :=
  Inquiry.search (provesBy limit through goal)

def judgeBy (limit : Nat) (through : Bool) : Expr → Inquiry Truth :=
  evaluate limit (knownBy limit through)

def judgeBinary (limit : Nat) (through : Bool) (op : Operator) (l r : Expr) : Inquiry Truth :=
  let judge := judgeBy limit through
  match op with
  | .plus | .minus | .times | .divide | .named _ => throw (.notAStatement (.binary op l r))
  | .implies => do
    let antecedent ← judge l
    return antecedent.implies (← Inquiry.assuming "Implies" l (judge r))
  | .iff => return (← judge l).iff (← judge r)
  | .or => return (← judge l).or (← judge r)
  | .and => conjunction l r (judge l) (judge r)
  | .equals => do
    if Expr.equalByFacts (← Inquiry.facts) limit l r then return .holds else return .unknown
  | .elementOf | .subset => return .unknown

theorem provesBy_reads (limit : Nat) (through : Bool) (goal : Expr) :
    ∃ r : Expr → Reading Bool, ∀ fact, (provesBy limit through goal fact).Reads (r fact) := by
  cases through with
  | false => exact ⟨_, provesDirectly_reads goal⟩
  | true => exact ⟨_, provesThrough_reads (judgeDirectly_reads limit) goal⟩

theorem judgeBy_binary (limit : Nat) (through : Bool) (op : Operator) (l r : Expr) :
    judgeBy limit through (.binary op l r) =
      settle (knownBy limit through) (.binary op l r) (judgeBinary limit through op l r) := by
  cases op <;> rfl

namespace Attempt

theorem get_bind (f : Knowledge → Attempt α) (k : Knowledge) : (get >>= f) k = f k k := rfl

section
variable {limit : Nat} {through : Bool} {test : Expr → Inquiry Bool} {r : Expr → Reading Bool}

/-- Each fact that the cursor finds was ahead of it, and trying it adds none. -/
theorem provenFrom_settles (hproves : ∀ fact, Returns (proves limit · through goal fact) (test fact))
    (hreads : ∀ fact, (test fact).Reads (r fact)) (k : Knowledge) (c : Scopes.Cursor) :
    Settles (provenFrom limit · through goal c k) ((k.facts.ahead c).anyM fun f => r f k.view, k) := by
  -- on what is ahead of the cursor, which no test has changed when the loop goes on
  induction hleft : k.facts.ahead c generalizing c with
  | nil =>
    rw [Scopes.ahead_advance] at hleft
    refine .succ ?_
    simp only [provenFrom, get_bind]
    rcases hadvance : k.facts.advance c with ⟨_ | fact, next⟩
    · exact .pure _
    · simp [hadvance] at hleft
  | cons fact left ih =>
    rw [Scopes.ahead_advance] at hleft
    refine .succ ?_
    simp only [provenFrom, get_bind]
    rcases hadvance : k.facts.advance c with ⟨_ | fact', next⟩
    · simp [hadvance] at hleft
    · simp only [hadvance, List.cons.injEq] at hleft
      obtain ⟨rfl, hnext⟩ := hleft
      simp only [run_bind, List.anyM_cons]
      refine (hproves fact' k).bind ?_
      rw [hreads fact' k]
      cases r fact' k.view with
      | error fault => exact .pure _
      | ok b =>
        cases b with
        | true => exact .pure _
        | false => exact ih next hnext

theorem isProven_returns (hproves : ∀ fact, Returns (proves limit · through goal fact) (test fact))
    (hreads : ∀ fact, (test fact).Reads (r fact)) :
    Returns (isProven limit · through goal) (Inquiry.search test) := by
  intro k
  rw [Inquiry.Reads.search hreads k]
  exact .succ (provenFrom_settles hproves hreads k Scopes.cursor)

end

end Attempt

-- ---------------------------------------------------------------- questions

/-- A call of one of the functions of the analysis. -/
inductive Question
  | analyse (through : Bool) (e : Expr)
  | binary (through : Bool) (op : Operator) (l r : Expr)
  | conjunction (through : Bool) (l r : Expr)
  | refuted (through : Bool) (assumption e : Expr)
  | proven (through : Bool) (goal : Expr)
  | proves (through : Bool) (goal fact : Expr)
  | chain (facts : List Expr) (d : Nat) (a b : Expr)

namespace Question

open ProofScript.Expr (chained equalByChain equalGiven equations)

abbrev Answer : Question → Type
  | analyse .. | binary .. | conjunction .. => Truth
  | refuted .. | proven .. | proves .. | chain .. => Bool

/-- Asks by plain recursion, no deeper than `n`. -/
def ask (limit n : Nat) : (q : Question) → Attempt q.Answer
  | analyse through e => Attempt.analyse limit n through e
  | binary through op l r => Attempt.analyseBinary limit n through op l r
  | conjunction through l r => Attempt.analyseConjunction limit n through l r
  | refuted through assumption e => Attempt.refutedBy limit n through assumption e
  | proven through goal => Attempt.isProven limit n through goal
  | proves through goal fact => Attempt.proves limit n through goal fact
  | chain facts d a b => liftM (equalByChain limit facts n d a b)

/-- What the program answers. -/
def answer (limit : Nat) : (q : Question) → Inquiry q.Answer
  | analyse through e => judgeBy limit through e
  | binary through op l r => judgeBinary limit through op l r
  | conjunction through l r =>
    ProofScript.conjunction l r (judgeBy limit through l) (judgeBy limit through r)
  | refuted through assumption e => refutedAssuming assumption (judgeBy limit through e)
  | proven through goal => knownBy limit through goal
  | proves through goal fact => provesBy limit through goal fact
  | chain facts d a b => return chained (equations facts) (limit + 1 - d) a b

/-- `Calls limit p q`: the function that answers `q` may call for `p`. -/
inductive Calls (limit : Nat) : Question → Question → Prop
  | lookup : Calls limit (proven through e) (analyse through e)
  | denied : e.isNegation = false → Calls limit (proven through (.not e)) (analyse through e)
  | connective : Calls limit (binary through op l r) (analyse through (.binary op l r))
  | negated : Calls limit (analyse through e) (analyse through (.not e))
  | universal : Calls limit (analyse through body) (analyse through (.bind .all x body))
  | existential : Calls limit (analyse through (.not (.bind .all x (.not body))))
      (analyse through (.bind .some x body))
  | side : e ∈ [l, r] → op ∈ [.implies, .iff, .or] →
      Calls limit (analyse through e) (binary through op l r)
  | sides : Calls limit (conjunction through l r) (binary through .and l r)
  | equation : Calls limit (chain facts 0 l r) (binary through .equals l r)
  | conjunct : e ∈ [l, r] → Calls limit (analyse through e) (conjunction through l r)
  | exclusion : (assumption, e) ∈ [(l, r), (r, l)] →
      Calls limit (refuted through assumption e) (conjunction through l r)
  | assumed : Calls limit (analyse through e) (refuted through assumption e)
  | fact : Calls limit (proves through goal fact) (proven through goal)
  | part : fact ∈ [l, r] → op ∈ [.implies, .and, .or, .iff] →
      Calls limit (proves true goal fact) (proves true goal (.binary op l r))
  | condition : e ∈ [l, r] → op ∈ [.implies, .or, .iff] →
      Calls limit (analyse false e) (proves true goal (.binary op l r))
  | parts : a' ∈ a.parts → b' ∈ b.parts → Calls limit (chain facts d a' b') (chain facts d a b)
  | link : d ≤ limit → p ∈ equations facts → s ∈ [p.1, p.2] → t ∈ [a, b] →
      Calls limit (chain facts (d + 1) s t) (chain facts d a b)

def Answered (limit : Nat) (q : Question) : Prop := Attempt.Returns (q.ask limit ·) (q.answer limit)

theorem analyse_answered (h : ∀ p, Calls limit p (analyse through e) → p.Answered limit) :
    (analyse through e).Answered limit := by
  have hproven (goal : Expr) (hcall : Calls limit (proven through goal) (analyse through e)) :
      Attempt.Returns (Attempt.isProven limit · through goal) (knownBy limit through goal) := h _ hcall
  have hsettle {m i} := Attempt.Returns.settle (knownBy limit through) (m := m) (i := i)
    (hproven e .lookup) fun he => hproven (.not e) (.denied he)
  refine .succ ?_
  cases e with
  | var x => exact hsettle (.pure _)
  | call f args => exact hsettle (.pure _)
  | binary op l r =>
    rw [answer, judgeBy_binary]
    exact hsettle (h _ .connective)
  | not a =>
    have ha : Attempt.Returns (Attempt.analyse limit · through a) (judgeBy limit through a) := h _ .negated
    exact hsettle (ha.bind fun _ => .pure _)
  | bind q x body =>
    cases q with
    | all => exact hsettle (h _ .universal)
    -- the program has unfolded these three negations and quantifiers
    | some => exact hsettle (h _ .existential)
    | those => exact hsettle (.throw _)
  | group g items => exact hsettle (.throw _)

theorem binary_answered (h : ∀ p, Calls limit p (binary through op l r) → p.Answered limit) :
    (binary through op l r).Answered limit := by
  have hside (hop : op ∈ [.implies, .iff, .or]) (e : Expr) (he : e ∈ [l, r]) :
      Attempt.Returns (Attempt.analyse limit · through e) (judgeBy limit through e) := h _ (.side he hop)
  have hl (hop) := hside hop l (by simp)
  have hr (hop) := hside hop r (by simp)
  refine .succ ?_
  cases op with
  | implies => exact (hl (by simp)).bind fun _ => .assuming (hr (by simp)) (fun _ => .pure _) _ _
  | iff => exact (hl (by simp)).bind fun _ => (hr (by simp)).bind fun _ => .pure _
  | or => exact (hl (by simp)).bind fun _ => (hr (by simp)).bind fun _ => .pure _
  | and => exact h _ .sides
  | equals =>
    refine (Attempt.Returns.ofInquiry Inquiry.facts).bind fun facts => ?_
    have hchain : Attempt.Returns (fun n => (liftM (equalByChain limit facts n 0 l r) : Attempt Bool))
        (pure (chained (equations facts) (limit + 1) l r)) := h _ .equation
    by_cases hgiven : equalGiven facts l r = true
    · simp only [Expr.equalByFacts, hgiven, Bool.true_or, if_true]
      exact .pure _
    · simp only [Expr.equalByFacts, hgiven, Bool.false_or, Bool.false_eq_true, if_false]
      rw [← pure_bind (chained (equations facts) (limit + 1) l r) fun b =>
        (if b = true then pure Truth.holds else pure Truth.unknown : Inquiry Truth)]
      exact hchain.orElse Truth.holds (.pure _)
  | elementOf | subset => exact .pure _
  | _ => exact .throw _

theorem conjunction_answered (h : ∀ p, Calls limit p (conjunction through l r) → p.Answered limit) :
    (conjunction through l r).Answered limit := by
  have hside (e : Expr) (he : e ∈ [l, r]) :
      Attempt.Returns (Attempt.analyse limit · through e) (judgeBy limit through e) := h _ (.conjunct he)
  have hrefuted (assumption e : Expr) (he : (assumption, e) ∈ [(l, r), (r, l)]) :
      Attempt.Returns (Attempt.refutedBy limit · through assumption e)
        (refutedAssuming assumption (judgeBy limit through e)) := h _ (.exclusion he)
  refine .succ ?_
  refine (hside l (by simp)).bind fun left => (hside r (by simp)).bind fun right => ?_
  cases left.and right with
  | unknown =>
    refine Attempt.Returns.get.bind fun k => ?_
    cases k.refuting with
    | true => exact .pure _
    | false =>
      have hboth := (hrefuted l r (by simp)).or (hrefuted r l (by simp))
      exact hboth.orElse Truth.fails (.pure _)
  | holds => exact .pure _
  | fails => exact .pure _

theorem refuted_answered (h : ∀ p, Calls limit p (refuted through assumption e) → p.Answered limit) :
    (refuted through assumption e).Answered limit := by
  have he : Attempt.Returns (Attempt.analyse limit · through e) (judgeBy limit through e) := h _ .assumed
  refine .succ ?_
  simp only [ask, Attempt.refutedBy]
  exact he.refuted assumption

theorem proven_answered (h : ∀ p, Calls limit p (proven through goal) → p.Answered limit) :
    (proven through goal).Answered limit := by
  obtain ⟨r, hr⟩ := provesBy_reads limit through goal
  exact Attempt.isProven_returns (fun fact => h _ .fact) hr

theorem proves_answered (h : ∀ p, Calls limit p (proves through goal fact) → p.Answered limit) :
    (proves through goal fact).Answered limit := by
  have hdirect := Attempt.Returns.ofInquiry (provesDirectly goal fact)
  refine .succ ?_
  cases through with
  | false =>
    show Attempt.Returns _ (provesDirectly goal fact)
    rw [← bind_pure (provesDirectly goal fact)]
    refine hdirect.bind fun b => ?_
    cases b <;> exact .pure _
  | true =>
    cases fact with
    | binary op l r =>
      have hpart (hop : op ∈ [.implies, .and, .or, .iff]) (e : Expr) (he : e ∈ [l, r]) :
          Attempt.Returns (Attempt.proves limit · true goal e)
            (provesThrough (judgeDirectly limit) goal e) := h _ (.part he hop)
      have hcondition (hop : op ∈ [.implies, .or, .iff]) (e : Expr) (he : e ∈ [l, r]) :
          Attempt.Returns (Attempt.analyse limit · false e) (judgeDirectly limit e) :=
        h _ (.condition he hop)
      have hl (hop) := hpart hop l (by simp)
      have hr (hop) := hpart hop r (by simp)
      have hjl (hop) := (hcondition hop l (by simp)).judgedAs
      have hjr (hop) := (hcondition hop r (by simp)).judgedAs
      cases op with
      | implies => exact hdirect.orElse true ((hr (by simp)).and (hjl (by simp) .holds))
      | and => exact hdirect.orElse true ((hl (by simp)).or (hr (by simp)))
      | or =>
        exact hdirect.orElse true (((hr (by simp)).and (hjl (by simp) .fails)).or
          ((hl (by simp)).and (hjr (by simp) .fails)))
      | iff =>
        exact hdirect.orElse true (((hr (by simp)).and (hjl (by simp) .holds)).or
          ((hl (by simp)).and (hjr (by simp) .holds)))
      | _ => exact hdirect.orElse true (.pure _)
    | _ => exact hdirect.orElse true (.pure _)

theorem lift_run_iff {o : Option α} {k : Knowledge} :
    (liftM o : Attempt α) k = some (.ok a, k) ↔ o = some a := by
  constructor
  · intro h
    cases o with
    | none => cases h
    | some b =>
      cases h
      rfl
  · rintro rfl
    rfl

theorem returns_lift_iff {o : Nat → Option α} :
    Attempt.Returns (fun n => liftM (o n)) (pure a) ↔ Settles o a := by
  constructor
  · intro h
    obtain ⟨N, h⟩ := h {}
    exact ⟨N, fun n hn => lift_run_iff.mp (h n hn)⟩
  · rintro ⟨N, h⟩ k
    exact ⟨N, fun n hn => lift_run_iff.mpr (h n hn)⟩

theorem chain_answered (h : ∀ p, Calls limit p (chain facts d a b) → p.Answered limit) :
    (chain facts d a b).Answered limit := by
  refine returns_lift_iff.mpr (Expr.equalByChain_step ?_ ?_)
  · intro a' ha b' hb
    exact returns_lift_iff.mp (h _ (.parts ha hb))
  · intro hd p hp s hs t ht
    exact returns_lift_iff.mp (h _ (.link hd hp hs ht))

/-- One case for each function. -/
theorem answered_of_calls (h : ∀ p, Calls limit p q → p.Answered limit) : q.Answered limit := by
  cases q with
  | analyse through e => exact analyse_answered h
  | binary through op l r => exact binary_answered h
  | conjunction through l r => exact conjunction_answered h
  | refuted through assumption e => exact refuted_answered h
  | proven through goal => exact proven_answered h
  | proves through goal fact => exact proves_answered h
  | chain facts d a b => exact chain_answered h

-- ---------------------------------------------------------------- the measure

/-- The flag first; then the weight of what is judged, where looking up weighs nothing; then which
function is asked, or how many links are left; last the size of the fact, or of the left side. -/
noncomputable def measure (limit : Nat) : Question → Nat × Nat × Nat × Nat
  | analyse through e => (through.toNat, e.weight, 2, 0)
  | binary through _ l r => (through.toNat, l.weight + r.weight + 1, 1, 0)
  | conjunction through l r => (through.toNat, l.weight + r.weight + 1, 0, 0)
  | refuted through _ e => (through.toNat, e.weight, 3, 0)
  | proven through _ => (through.toNat, 0, 1, 0)
  | proves through _ fact => (through.toNat, 0, 0, sizeOf fact)
  | chain _ d a _ => (0, 0, limit + 1 - d, sizeOf a)

/-- A call judges something lighter, or turns to the facts, or drops the flag; only then do the facts
and the depth count. -/
theorem measure_lt (h : Calls limit p q) :
    Prod.Lex (· < ·) (Prod.Lex (· < ·) (Prod.Lex (· < ·) (· < ·)))
      (p.measure limit) (q.measure limit) := by
  have hside {e l r : Expr} (he : e ∈ [l, r]) : e.weight < l.weight + r.weight + 1 := by
    rcases List.mem_pair.mp he with rfl | rfl <;> omega
  cases h with
  | lookup => exact .right _ (.left _ _ (Expr.weight_pos _))
  | denied _ => exact .right _ (.left _ _ (Expr.weight_pos _))
  | connective => exact .right _ (.right _ (.left _ _ Nat.one_lt_two))
  | negated => exact .right _ (.left _ _ (Nat.lt_succ_self _))
  | universal => exact .right _ (.left _ _ (Nat.lt_succ_self _))
  | existential => exact .right _ (.left _ _ (Nat.lt_succ_self _))
  | side he _ => exact .right _ (.left _ _ (hside he))
  | sides => exact .right _ (.right _ (.left _ _ Nat.one_pos))
  | @equation facts l r through =>
    cases through with
    | false => exact .right _ (.left _ _ (Nat.succ_pos _))
    | true => exact .left _ _ Nat.one_pos
  | conjunct he => exact .right _ (.left _ _ (hside he))
  | @exclusion l r assumption e through he =>
    have he : e ∈ [l, r] := by
      rcases List.mem_pair.mp he with he | he <;> cases he <;> simp
    exact .right _ (.left _ _ (hside he))
  | assumed => exact .right _ (.right _ (.left _ _ (Nat.lt_succ_self _)))
  | fact => exact .right _ (.right _ (.left _ _ Nat.one_pos))
  | part he _ => exact .right _ (.right _ (.right _ (Expr.sizeOf_part (a := .binary _ _ _) he)))
  | condition _ _ => exact .left _ _ Nat.one_pos
  | parts ha _ => exact .right _ (.right _ (.right _ (Expr.sizeOf_part ha)))
  | link hd _ _ _ => exact .right _ (.right _ (.left _ _ (by omega)))

theorem calls_wellFounded (limit : Nat) : WellFounded (Calls limit) :=
  Subrelation.wf measure_lt <| InvImage.wf (measure limit) <|
    (Prod.lex Nat.lt_wfRel (Prod.lex Nat.lt_wfRel (Prod.lex Nat.lt_wfRel Nat.lt_wfRel))).wf

theorem answered (limit : Nat) (q : Question) : q.Answered limit :=
  (calls_wellFounded limit).induction q fun _ h => answered_of_calls h

end Question

/-- No function of the analysis calls itself for ever: the calls are well-founded, whatever the facts
and the bound on the links, and every call returns the program's answer. So do the two loops that look
for a fresh name. -/
theorem analysis_returns (limit : Nat) :
    WellFounded (Question.Calls limit) ∧
    (∀ q : Question, Attempt.Returns (q.ask limit ·) (q.answer limit)) ∧
    (∀ e, Attempt.Returns (Attempt.analyse limit · true e) (judge limit e)) ∧
    (∀ e, Attempt.Returns (Attempt.analyse limit · false e) (judgeDirectly limit e)) ∧
    (∀ x body σ, ∃ y,
      Settles (Name.growUntil (fun z => body.occursFree z || σ.values.any (·.occursFree z)) · ("_" ++ x)) y ∧
      (Expr.binderName x body).run σ = (.ok y, σ)) ∧
    (∀ x pattern target, ∃ slot,
      Settles (Name.growUntil (fun z => target.occursFree z || pattern.occursFree z) · ("_" ++ x)) slot ∧
      Expr.matchesWitness pattern target x =
        (Expr.agree (Expr.acceptWitness slot (pattern.rename x slot).boundNames) (pattern.rename x slot)
          target none).isSome) :=
  ⟨Question.calls_wellFounded limit, Question.answered limit,
    fun e => Question.answered limit (.analyse true e),
    fun e => Question.answered limit (.analyse false e),
    fun x body σ => ⟨_, Expr.growUntil_binder x body σ.values, rfl⟩,
    fun x pattern target => ⟨_, Expr.growUntil_slot x pattern target, rfl⟩⟩

end ProofScript
