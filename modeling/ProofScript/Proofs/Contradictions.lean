import ProofScript.Proofs.KnownFacts

/-!
# Contradictions fail

Where nothing is known, `e ∧ ¬e` fails. If the sides are left open, each of them is judged once more
with the other one for a fact. The fact may prove what it denies: `∀x(x)` proves everything, its own
negation too, and `¬∃x(x)` is an instance of `∃x(x)`. But a fact that proves its negation is universal
or has connectives, and a negation proves the statement it denies only if that one is existential. So
one of the two attempts finds what it looks for.
-/

namespace ProofScript

theorem or_eq_false {a b : Except ε Bool} (h : (a <||> b) = .ok false) :
    a = .ok false ∧ b = .ok false := by
  rcases a with _ | _ | _
  · cases h
  · exact ⟨rfl, h⟩
  · cases h

namespace Expr

/-- No statement is its own negation, whatever the bound names. -/
theorem alphaEq_not (e : Expr) : alphaEq e (.not e) = false ∧ alphaEq (.not e) e = false := by
  have hne : e.nameless [] ≠ .not (e.nameless []) := by
    intro h
    have := congrArg sizeOf h
    simp at this
  simp only [Bool.eq_false_iff, Ne, alphaEq_iff, nameless]
  exact ⟨hne, hne.symm⟩

/-- A negation is a fact for itself and for existential statements only. -/
theorem directly_of_negation (he : e.isNegation = false) (h : ∀ x body, e ≠ .bind .some x body) :
    directly [.not e] e (.not e) = false := by
  have hequal : equalGiven [.not e] (.not e) e = false := (alphaEq_not e).2
  have hmatch : matchesQuantified [.not e] (.not e) e = false := by
    cases e with
    | bind q x body =>
      cases q with
      | some => exact absurd rfl (h x body)
      | _ => rfl
    | _ => rfl
  rw [directly, hequal, hmatch]
  rfl

end Expr

namespace Reading

open Expr

variable {depth : Nat} {refuting : Bool}

/-- A single fact is the only one to be tried. -/
theorem lookUp_single (goal fact : Expr) : lookUp depth goal ⟨[fact], refuting⟩ =
    provesThrough (judgeDirectly depth) goal fact ⟨[fact], refuting⟩ := by
  unfold lookUp
  rw [List.anyM_cons]
  rcases provesThrough (judgeDirectly depth) goal fact ⟨[fact], refuting⟩ with fault | _ | _ <;> rfl

theorem lookUp_itself (e : Expr) : lookUp depth e ⟨[e], refuting⟩ = .ok true := by
  rw [lookUp_single, provesThrough_self]

/-- Negations and existential statements are used as they stand, and prove no negation of their own. -/
theorem lookUp_denied (h : e.isNegation = true ∨ ∃ x body, e = .bind .some x body) :
    lookUp depth (.not e) ⟨[e], refuting⟩ = .ok false := by
  have hno := (alphaEq_not e).1
  rw [lookUp_single, provesThrough.eq_def]
  rcases h with h | ⟨x, body, rfl⟩
  · cases e with
    | not d =>
      have hdirect : directly [.not d] (.not (.not d)) (.not d) = false :=
        Bool.or_eq_false_iff.mpr ⟨hno, rfl⟩
      rw [if_neg (by rw [hdirect]; exact Bool.false_ne_true)]
    | _ => cases h
  · have hdirect : directly [.bind .some x body] (.not (.bind .some x body)) (.bind .some x body) = false :=
      Bool.or_eq_false_iff.mpr ⟨hno, rfl⟩
    rw [if_neg (by rw [hdirect]; exact Bool.false_ne_true)]

theorem lookUp_undenied (he : e.isNegation = false) (h : ∀ x body, e ≠ .bind .some x body) :
    lookUp depth e ⟨[.not e], refuting⟩ = .ok false := by
  rw [lookUp_single, provesThrough.eq_def,
    if_neg (by rw [directly_of_negation he h]; exact Bool.false_ne_true)]

/-- What a negation denies is known, and the negation is not. -/
theorem judge_not_fails (hn : lookUp depth (.not e) v = .ok false) (he : lookUp depth e v = .ok true) :
    judge depth (.not e) v = .ok .fails := by
  have hsettles : judge depth (.not e) =
      settle (lookUp depth) (.not e) fun v => Truth.negate <$> judge depth e v := rfl
  rw [hsettles, settle, hn, judge_of_lookUp he]
  rfl

/-- A statement that is no negation is refuted by its negation. -/
theorem judge_fails (hneg : e.isNegation = false) (he : lookUp depth e v = .ok false)
    (hn : lookUp depth (.not e) v = .ok true) : judge depth e v = .ok .fails := by
  obtain ⟨otherwise, hsettles⟩ := judge_settles depth e
  rw [hsettles, settle, he, hneg, hn]
  rfl

/-- A statement and its negation exclude each other, seen from one of the two. -/
theorem judge_excluded (depth : Nat) (e : Expr) :
    judge depth (.not e) ⟨[e], true⟩ = .ok .fails ∨ judge depth e ⟨[.not e], true⟩ = .ok .fails := by
  by_cases h : e.isNegation = true ∨ ∃ x body, e = .bind .some x body
  · exact .inl (judge_not_fails (lookUp_denied h) (lookUp_itself e))
  · simp only [not_or, Bool.not_eq_true, not_exists] at h
    exact .inr (judge_fails h.1 (lookUp_undenied h.1 h.2) (lookUp_itself (.not e)))

/-- Without facts a negation is judged by what it denies. -/
theorem judge_not_nil (depth : Nat) (e : Expr) :
    judge depth (.not e) ⟨[], refuting⟩ = Truth.negate <$> judge depth e ⟨[], refuting⟩ := rfl

theorem judge_and_nil (depth : Nat) (l r : Expr) : judge depth (.binary .and l r) ⟨[], refuting⟩ =
    conjunction l r (judge depth l) (judge depth r) ⟨[], refuting⟩ := rfl

theorem judge_contradiction (h : judge depth (.binary .and e (.not e)) ⟨[], false⟩ = .ok t) :
    t = .fails := by
  rw [judge_and_nil, conjunction, judge_not_nil] at h
  rcases hleft : judge depth e ⟨[], false⟩ with fault | _ | _ | _ <;> rw [hleft] at h
  · cases h
  · cases h
    rfl
  · cases h
    rfl
  -- both sides are open
  · have hattempts : (refutedAssuming e (judge depth (.not e)) ⟨[], false⟩ <||>
        refutedAssuming (.not e) (judge depth e) ⟨[], false⟩) >>=
          (fun b => if b = true then pure Truth.fails else pure Truth.unknown) = .ok t := h
    obtain ⟨b, hb, ht⟩ := bind_eq_ok.mp hattempts
    cases b with
    | true =>
      cases ht
      rfl
    | false =>
      obtain ⟨hfirst, hsecond⟩ := or_eq_false hb
      have hvain (x : Except InternalFault Truth) (hx : (· == Truth.fails) <$> x = .ok false) :
          x ≠ .ok .fails := by
        rintro rfl
        cases hx
      exact ((judge_excluded depth e).elim (hvain _ hfirst) (hvain _ hsecond)).elim

end Reading

/-- Where nothing is known, a statement together with its negation fails, whatever its connectives,
quantifiers and equations. If it has no truth value, there is an object in the place of a statement. -/
theorem contradiction_fails (depth : Nat) (k : Knowledge) (hfacts : k.facts.items = [])
    (hk : k.refuting = false) (e : Expr) :
    (judge depth (.binary .and e (.not e))).run k = (.ok .fails, k) ∨
      ∃ d ∈ e.misplaced, (judge depth (.binary .and e (.not e))).run k = (.error (.notAStatement d), k) := by
  have hview : k.view = ⟨[], false⟩ := by rw [Knowledge.view, hfacts, hk]
  rw [judge_reads depth _ k, hview]
  rcases h : Reading.judge depth (.binary .and e (.not e)) ⟨[], false⟩ with fault | t
  · obtain ⟨d, rfl, hd | ⟨f, hf, _⟩⟩ := Reading.judge_error h
    · exact .inr ⟨d, (List.mem_append.mp hd).elim id id, rfl⟩
    · cases hf
  · rw [Reading.judge_contradiction h]
    exact .inl rfl

/-- With `∀x(x) ∧ P(c)` for a fact everything is known, its negation as well. So it is the second
attempt that counts. -/
theorem contradiction_fails_selfDenying :
    let e : Expr := .binary .and (.bind .all "x" (.var "x")) (.call "P" [.var "c"])
    let k : Knowledge := { facts := { opened := [⟨"Implies", []⟩, ⟨"Theorem", []⟩] } }
    k.facts.items = [] ∧ k.refuting = false ∧
      (judge 2 (.not e)).run (k.assume e) = (.ok .holds, k.assume e) ∧
      (judge 2 (.binary .and e (.not e))).run k = (.ok .fails, k) := by
  intro e k
  have hmisplaced : e.misplaced = [] := rfl
  refine ⟨rfl, rfl, rfl, (contradiction_fails 2 k rfl rfl e).resolve_right ?_⟩
  rw [hmisplaced]
  rintro ⟨d, hd, _⟩
  cases hd

end ProofScript
