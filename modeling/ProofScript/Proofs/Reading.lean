import ProofScript.Analysis
import ProofScript.Proofs.FreeNames

/-!
# An inquiry only reads

The scopes that an inquiry opens it closes again, also when it fails, and it puts the flag back. So
its answer is a function of the visible facts and the flag, and what is known stays as it was. The
answers of the analysis are given here as such functions.
-/

namespace ProofScript

-- ---------------------------------------------------------------- scopes

namespace Scopes

/-- What is still to be met from a cursor on. -/
def ahead (s : Scopes α) (c : Cursor) : List α :=
  match s.levels.drop c.level with
  | [] => []
  | level :: rest => level.drop c.index ++ rest.flatten

theorem ahead_cursor (s : Scopes α) : s.ahead cursor = s.items := rfl

theorem items_addAll (s : Scopes α) (as : List α) : (s.addAll as).items = s.items ++ as := by
  unfold addAll
  split <;> simp_all [items, levels]

theorem addAll_addAll (s : Scopes α) (as bs : List α) :
    (s.addAll as).addAll bs = s.addAll (as ++ bs) := by
  unfold addAll
  cases h : s.opened <;> simp

theorem addAll_nil (s : Scopes α) : s.addAll [] = s := by
  obtain ⟨base, opened⟩ := s
  cases opened <;> simp [addAll]

theorem items_enter (s : Scopes α) (tag : String) : (s.enter tag).items = s.items := by
  simp [items, levels, enter]

theorem exit_enter_addAll (s : Scopes α) (tag : String) (as : List α) :
    ((s.enter tag).addAll as).exit tag = .ok s := by
  simp [exit, enter, addAll]

theorem aheadIn_advanceIn (levels : List (List α)) (c : Cursor) (h : levels.drop c.level = left) :
    (match left with
      | [] => []
      | level :: rest => level.drop c.index ++ rest.flatten) =
    match advanceIn left c with
    | (none, _) => []
    | (some a, next) => a :: match levels.drop next.level with
      | [] => []
      | level :: rest => level.drop next.index ++ rest.flatten := by
  induction left generalizing c with
  | nil => rfl
  | cons level rest ih =>
    simp only [advanceIn]
    cases hi : level[c.index]? with
    | some a =>
      obtain ⟨hlt, ha⟩ := List.getElem?_eq_some_iff.mp hi
      simp [h, List.drop_eq_getElem_cons hlt, ha]
    | none =>
      have hrest : levels.drop (c.level + 1) = rest := by
        rw [← List.drop_drop, h]
        rfl
      have hlevel : level.drop c.index = [] :=
        List.drop_eq_nil_of_le (List.getElem?_eq_none_iff.mp hi)
      rw [← ih ⟨c.level + 1, 0⟩ hrest, hlevel]
      cases rest <;> rfl

/-- Advancing takes the first item off what is ahead. -/
theorem ahead_advance (s : Scopes α) (c : Cursor) :
    s.ahead c = match s.advance c with
      | (none, _) => []
      | (some a, next) => a :: s.ahead next :=
  aheadIn_advanceIn s.levels c rfl

end Scopes

-- ---------------------------------------------------------------- inquiries

/-- What an inquiry can see of what is known. -/
structure View where
  facts : List Expr
  refuting : Bool

def View.assuming (v : View) (fact : Expr) : View := { v with facts := v.facts ++ [fact] }

def Knowledge.view (k : Knowledge) : View := ⟨k.facts.items, k.refuting⟩

abbrev Reading (α : Type) := View → Except InternalFault α

namespace Inquiry

/-- The inquiry answers as `r` says and leaves what is known as it was. -/
def Reads (m : Inquiry α) (r : Reading α) : Prop := ∀ k, m.run k = (r k.view, k)

theorem run_bind (m : Inquiry α) (f : α → Inquiry β) (k : Knowledge) :
    (m >>= f).run k = match m.run k with
      | (.ok a, k) => (f a).run k
      | (.error fault, k) => (.error fault, k) := by
  simp only [run, ExceptT.run_bind, StateT.run_bind]
  rcases StateT.run (ExceptT.run m) k with ⟨_ | _, _⟩ <;> rfl

theorem run_observing (m : Inquiry α) (k : Knowledge) :
    (observing m : Inquiry _).run k = (.ok (m.run k).1, (m.run k).2) :=
  run_run_observing m k

theorem run_get (k : Knowledge) : (get : Inquiry Knowledge).run k = (.ok k, k) := rfl

theorem run_setRefuting (b : Bool) (k : Knowledge) :
    (setRefuting b).run k = (.ok (), { k with refuting := b }) := rfl

namespace Reads

theorem pure (a : α) : Reads (Pure.pure a) fun _ => .ok a := fun _ => rfl

theorem throw (fault : InternalFault) : Reads (MonadExcept.throw fault : Inquiry α) fun _ => .error fault :=
  fun _ => rfl

theorem bind {m : Inquiry α} {f : α → Inquiry β} {s : α → Reading β} (hm : m.Reads r)
    (hf : ∀ a, (f a).Reads (s a)) : (m >>= f).Reads fun v => r v >>= fun a => s a v := by
  intro k
  rw [run_bind, hm k]
  show _ = (r k.view >>= fun a => s a k.view, k)
  cases r k.view with
  | error fault => rfl
  | ok a => exact hf a k

theorem ofExcept (r : Except InternalFault α) : Reads (MonadExcept.ofExcept r) fun _ => r := by
  intro k
  cases r <;> rfl

theorem facts : Reads Inquiry.facts fun v => .ok v.facts := fun _ => rfl

theorem byRefuting {f : Bool → Inquiry α} {s : Bool → Reading α} (h : ∀ b, (f b).Reads (s b)) :
    (get >>= fun k => f k.refuting).Reads fun v => s v.refuting v :=
  fun k => h k.refuting k

/-- The fact is withdrawn whatever `m` answers. -/
theorem assuming {m : Inquiry α} (hm : m.Reads r) :
    (assuming tag fact m).Reads fun v => r (v.assuming fact) := by
  intro k
  let inside : Knowledge := { k with facts := (k.facts.enter tag).add fact }
  have hview : inside.view = k.view.assuming fact := by
    simp only [inside, Knowledge.view, View.assuming, Scopes.add, Scopes.items_addAll,
      Scopes.items_enter]
  have hexit : (exit tag).run inside = (.ok (), k) := by
    simp only [exit, run_bind, run_get, inside, Scopes.add, Scopes.exit_enter_addAll]
    rfl
  have hmodify : (enter tag >>= fun _ => modify (·.assume fact)).run k = (.ok (), inside) := rfl
  show ((enter tag >>= fun _ => modify (·.assume fact)) >>= fun _ => observing m >>= fun result =>
    exit tag >>= fun _ => MonadExcept.ofExcept result).run k = (r (k.view.assuming fact), k)
  rw [run_bind, hmodify]
  simp only [run_bind, run_observing, hm inside, hexit, hview]
  exact ofExcept _ k

theorem whileRefuting {m : Inquiry α} (hm : m.Reads r) :
    (whileRefuting m).Reads fun v => r { v with refuting := true } := by
  intro k
  let inside : Knowledge := { k with refuting := true }
  show ((do
    setRefuting true
    let result ← observing m
    setRefuting k.refuting
    MonadExcept.ofExcept result : Inquiry α)).run k = (r inside.view, k)
  simp only [run_bind, run_setRefuting, run_observing, hm inside, inside]
  exact ofExcept _ k

theorem searchFrom {test : Expr → Inquiry Bool} {r : Expr → Reading Bool}
    (ht : ∀ f, (test f).Reads (r f)) (c : Scopes.Cursor) (hn : (k.facts.ahead c).length ≤ n) :
    (searchFrom test n c).run k = ((k.facts.ahead c).anyM fun f => r f k.view, k) := by
  induction n generalizing c with
  | zero =>
    rw [List.length_eq_zero_iff.mp (Nat.le_zero.mp hn)]
    rfl
  | succ n ih =>
    have hahead := k.facts.ahead_advance c
    simp only [Inquiry.searchFrom, run_bind, run_get]
    rcases hadvance : k.facts.advance c with ⟨_ | f, next⟩
    · simp only [hadvance] at hahead
      rw [hahead]
      rfl
    · simp only [hadvance] at hahead
      rw [hahead] at hn ⊢
      simp only [run_bind, ht f k, List.anyM_cons]
      rcases r f k.view with fault | _ | _
      · rfl
      · exact ih next (Nat.le_of_succ_le_succ hn)
      · rfl

/-- The facts that are visible now are tried in order, up to the first that passes. -/
theorem search {test : Expr → Inquiry Bool} {r : Expr → Reading Bool}
    (ht : ∀ f, (test f).Reads (r f)) :
    (search test).Reads fun v => v.facts.anyM fun f => r f v := by
  intro k
  exact searchFrom ht Scopes.cursor (Nat.le_refl _)

theorem and {a b : Inquiry Bool} {r s : Reading Bool} (ha : a.Reads r) (hb : b.Reads s) :
    (a <&&> b).Reads fun v => r v <&&> s v :=
  ha.bind fun x => by cases x <;> first | exact hb | exact .pure _

theorem or {a b : Inquiry Bool} {r s : Reading Bool} (ha : a.Reads r) (hb : b.Reads s) :
    (a <||> b).Reads fun v => r v <||> s v :=
  ha.bind fun x => by cases x <;> first | exact hb | exact .pure _

theorem orElse {t : Inquiry Bool} {m : Inquiry α} {r : Reading Bool} (ht : t.Reads r) (a : α)
    (hm : m.Reads s) :
    (t >>= fun b => if b = true then Pure.pure a else m).Reads
      fun v => r v >>= fun b => if b = true then Pure.pure a else s v :=
  ht.bind fun b => by cases b <;> first | exact hm | exact .pure _

end Reads

end Inquiry

-- ---------------------------------------------------------------- the analysis

open ProofScript.Expr

/-- Does one fact prove the goal, as it stands or by one instantiation? -/
def directly (facts : List Expr) (goal fact : Expr) : Bool :=
  equalGiven facts fact goal || matchesQuantified facts fact goal

namespace Reading

def judgedAs (judge : Expr → Reading Truth) (t : Truth) (e : Expr) : Reading Bool :=
  fun v => (· == t) <$> judge e v

def provesThrough (judge : Expr → Reading Truth) (goal fact : Expr) (v : View) :
    Except InternalFault Bool :=
  if directly v.facts goal fact then .ok true else
  match fact with
  | .binary .implies l r => provesThrough judge goal r v <&&> judgedAs judge .holds l v
  | .binary .and l r => provesThrough judge goal l v <||> provesThrough judge goal r v
  | .binary .or l r =>
    (provesThrough judge goal r v <&&> judgedAs judge .fails l v) <||>
      (provesThrough judge goal l v <&&> judgedAs judge .fails r v)
  | .binary .iff l r =>
    (provesThrough judge goal r v <&&> judgedAs judge .holds l v) <||>
      (provesThrough judge goal l v <&&> judgedAs judge .holds r v)
  | _ => .ok false
termination_by structural fact

def settle (known : Expr → Reading Bool) (e : Expr) (otherwise : Reading Truth) : Reading Truth :=
  fun v => do
    if ← known e v then return .holds
    if !e.isNegation then
      if ← known (.not e) v then return .fails
    otherwise v

def refutedAssuming (assumption : Expr) (judge : Reading Truth) : Reading Bool :=
  fun v => (· == .fails) <$> judge { v.assuming assumption with refuting := true }

def conjunction (l r : Expr) (judgeLeft judgeRight : Reading Truth) : Reading Truth := fun v => do
  let left ← judgeLeft v
  let right ← judgeRight v
  match left.and right with
  | .unknown =>
    if v.refuting then return .unknown
    if ← refutedAssuming l judgeRight v <||> refutedAssuming r judgeLeft v then return .fails
    else return .unknown
  | truth => return truth

def evaluate (depth : Nat) (known : Expr → Reading Bool) (e : Expr) : Reading Truth :=
  settle known e <| match e with
    | .binary .implies l r => fun v => do
      let antecedent ← evaluate depth known l v
      let consequent ← evaluate depth known r (v.assuming l)
      return antecedent.implies consequent
    | .binary .iff l r => fun v => return (← evaluate depth known l v).iff (← evaluate depth known r v)
    | .binary .or l r => fun v => return (← evaluate depth known l v).or (← evaluate depth known r v)
    | .binary .and l r => conjunction l r (evaluate depth known l) (evaluate depth known r)
    | .binary .equals l r => fun v =>
      if equalByFacts v.facts depth l r then .ok .holds else .ok .unknown
    | .binary .elementOf _ _ | .binary .subset _ _ => fun _ => .ok .unknown
    | .not a => fun v => Truth.negate <$> evaluate depth known a v
    | .bind .all _ body => evaluate depth known body
    | .bind .some x body =>
      let never := Expr.bind .all x (.not body)
      settle known (.not never) fun v => Truth.negate <$>
        settle known never (settle known (.not body) fun v =>
          Truth.negate <$> evaluate depth known body v) v
    | .var _ | .call _ _ => fun _ => .ok .unknown
    | .binary .plus _ _ | .binary .minus _ _ | .binary .times _ _ | .binary .divide _ _
    | .binary (.named _) _ _ | .bind .those _ _ | .group _ _ => fun _ => .error (.notAStatement e)
termination_by structural e

def judgeDirectly (depth : Nat) : Expr → Reading Truth :=
  evaluate depth fun goal v => v.facts.anyM fun fact => .ok (directly v.facts goal fact)

def judge (depth : Nat) : Expr → Reading Truth :=
  evaluate depth fun goal v => v.facts.anyM fun fact => provesThrough (judgeDirectly depth) goal fact v

/-- A statement is settled because it is known, because its negation is, or by what is left to do. -/
theorem settle_eq_ok {known : Expr → Reading Bool} {otherwise : Reading Truth}
    (h : settle known e otherwise v = .ok t) :
    (known e v = .ok true ∧ t = .holds) ∨
      (known e v = .ok false ∧ e.isNegation = false ∧ known (.not e) v = .ok true ∧ t = .fails) ∨
      (known e v = .ok false ∧ (e.isNegation = false → known (.not e) v = .ok false) ∧
        otherwise v = .ok t) := by
  unfold settle at h
  obtain ⟨b, hb, h⟩ := bind_eq_ok.mp h
  cases b with
  | true =>
    cases h
    exact .inl ⟨hb, rfl⟩
  | false =>
    cases hn : e.isNegation with
    | true =>
      rw [hn] at h
      exact .inr (.inr ⟨hb, nofun, h⟩)
    | false =>
      rw [hn] at h
      obtain ⟨c, hc, h⟩ := bind_eq_ok.mp h
      cases c with
      | true =>
        cases h
        exact .inr (.inl ⟨hb, rfl, hc, rfl⟩)
      | false => exact .inr (.inr ⟨hb, fun _ => hc, h⟩)

end Reading

theorem provesDirectly_reads (goal fact : Expr) :
    (provesDirectly goal fact).Reads fun v => .ok (directly v.facts goal fact) :=
  Inquiry.Reads.facts.bind fun _ => .pure _

theorem judgedAs_reads {judge : Expr → Inquiry Truth} {r : Expr → Reading Truth}
    (hj : ∀ e, (judge e).Reads (r e)) (t : Truth) (e : Expr) :
    (judgedAs judge t e).Reads (Reading.judgedAs r t e) :=
  (hj e).bind fun _ => .pure _

theorem provesThrough_reads {judge : Expr → Inquiry Truth} {j : Expr → Reading Truth}
    (hj : ∀ e, (judge e).Reads (j e)) (goal fact : Expr) :
    (provesThrough judge goal fact).Reads (Reading.provesThrough j goal fact) := by
  have hdirect := provesDirectly_reads goal
  induction fact using Expr.induction with
  | binary op l r ihl ihr =>
    have hl (t) := judgedAs_reads hj t l
    have hr (t) := judgedAs_reads hj t r
    cases op with
    | implies => exact (hdirect _).orElse true (ihr.and (hl .holds))
    | and => exact (hdirect _).orElse true (ihl.or ihr)
    | or => exact (hdirect _).orElse true ((ihr.and (hl .fails)).or (ihl.and (hr .fails)))
    | iff => exact (hdirect _).orElse true ((ihr.and (hl .holds)).or (ihl.and (hr .holds)))
    | _ => exact (hdirect _).orElse true (.pure false)
  | _ => exact (hdirect _).orElse true (.pure false)

theorem settle_reads {known : Expr → Inquiry Bool} {r : Expr → Reading Bool} {otherwise : Inquiry Truth}
    (hk : ∀ e, (known e).Reads (r e)) (e : Expr) (ho : otherwise.Reads s) :
    (settle known e otherwise).Reads (Reading.settle r e s) := by
  unfold settle Reading.settle
  cases e.isNegation with
  | true => exact (hk e).orElse .holds ho
  | false => exact (hk e).orElse .holds ((hk _).orElse .fails ho)

theorem refutedAssuming_reads {judge : Inquiry Truth} (hj : judge.Reads r) (e : Expr) :
    (refutedAssuming e judge).Reads (Reading.refutedAssuming e r) :=
  hj.whileRefuting.assuming.bind fun _ => .pure _

theorem conjunction_reads {judgeLeft judgeRight : Inquiry Truth} (hl : judgeLeft.Reads jl)
    (hr : judgeRight.Reads jr) (l r : Expr) :
    (conjunction l r judgeLeft judgeRight).Reads (Reading.conjunction l r jl jr) := by
  have hrefuted := (refutedAssuming_reads hr l).or (refutedAssuming_reads hl r)
  refine hl.bind fun left => hr.bind fun right => ?_
  cases left.and right with
  | unknown =>
    refine .byRefuting
      (f := fun refuting => if refuting = true then pure Truth.unknown else
        (refutedAssuming l judgeRight <||> refutedAssuming r judgeLeft) >>= fun b =>
          if b = true then pure Truth.fails else pure Truth.unknown)
      (s := fun refuting v => if refuting = true then pure Truth.unknown else
        (Reading.refutedAssuming l jr v <||> Reading.refutedAssuming r jl v) >>= fun b =>
          if b = true then pure Truth.fails else pure Truth.unknown) fun refuting => ?_
    cases refuting with
    | true => exact .pure _
    | false => exact hrefuted.orElse Truth.fails (.pure _)
  | _ => exact .pure _

theorem evaluate_reads {known : Expr → Inquiry Bool} {r : Expr → Reading Bool}
    (hk : ∀ e, (known e).Reads (r e)) (depth : Nat) (e : Expr) :
    (evaluate depth known e).Reads (Reading.evaluate depth r e) := by
  induction e using Expr.induction with
  | var x => exact settle_reads hk _ (.pure _)
  | call f args => exact settle_reads hk _ (.pure _)
  | binary op l m ihl ihr =>
    cases op with
    | implies => exact settle_reads hk _ (ihl.bind fun _ => ihr.assuming.bind fun _ => .pure _)
    | iff => exact settle_reads hk _ (ihl.bind fun _ => ihr.bind fun _ => .pure _)
    | or => exact settle_reads hk _ (ihl.bind fun _ => ihr.bind fun _ => .pure _)
    | and => exact settle_reads hk _ (conjunction_reads ihl ihr l m)
    | equals =>
      refine settle_reads hk _ (Inquiry.Reads.facts.bind (s := fun facts _ =>
        if equalByFacts facts depth l m then .ok Truth.holds else .ok .unknown) fun facts => ?_)
      cases equalByFacts facts depth l m <;> exact .pure _
    | elementOf | subset => exact settle_reads hk _ (.pure _)
    | _ => exact settle_reads hk _ (.throw _)
  | not a ih => exact settle_reads hk _ (ih.bind fun _ => .pure _)
  | bind q x body ih =>
    cases q with
    | all => exact settle_reads hk _ ih
    | some =>
      have hnot := ih.bind (fun t => .pure t.negate)
      exact settle_reads hk _ <| settle_reads hk _ <|
        (settle_reads hk _ <| settle_reads hk _ hnot).bind fun _ => .pure _
    | those => exact settle_reads hk _ (.throw _)
  | group g items => exact settle_reads hk _ (.throw _)

theorem judgeDirectly_reads (depth : Nat) (e : Expr) :
    (judgeDirectly depth e).Reads (Reading.judgeDirectly depth e) :=
  evaluate_reads (fun goal => .search (provesDirectly_reads goal)) depth e

theorem judge_reads (depth : Nat) (e : Expr) : (judge depth e).Reads (Reading.judge depth e) :=
  evaluate_reads (fun goal => .search (provesThrough_reads (judgeDirectly_reads depth) goal)) depth e

end ProofScript
