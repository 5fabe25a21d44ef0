import ProofScript.Proofs.MisplacedObjects
import ProofScript.Proofs.MoreFacts

/-!
# Known facts and their negations

A statement is looked up among the facts before anything else is done with it. So a known fact holds,
unless a fact that is tried earlier has an object for a premise. A statement and its negation are
looked up alike, with one exception: a negation is not refuted by the fact that denies it. Apart from
that the two verdicts are opposite to each other.
-/

namespace ProofScript

-- ---------------------------------------------------------------- looking up a fact

namespace Expr

theorem equalGiven_of_alphaEq (h : alphaEq a b = true) : equalGiven facts a b = true :=
  equalGiven_mono (List.nil_subset facts) h

theorem equalGiven_self (facts : List Expr) (e : Expr) : equalGiven facts e e = true :=
  equalGiven_of_alphaEq (alphaEq_iff.mpr rfl)

end Expr

/-- A test that one member passes is passed, unless a member before it makes the search fail. -/
theorem anyM_of_passed (test : α → Except ε Bool) (h : test a = .ok true) (before after : List α) :
    (before ++ a :: after).anyM test = .ok true ∨
      ∃ b ∈ before, ∃ c, test b = .error c ∧ (before ++ a :: after).anyM test = .error c := by
  induction before with
  | nil =>
    refine .inl ?_
    rw [List.nil_append, List.anyM_cons, h]
    rfl
  | cons b before ih =>
    rw [List.cons_append, List.anyM_cons]
    rcases hb : test b with c | _ | _
    · exact .inr ⟨b, List.mem_cons_self, c, hb, rfl⟩
    · refine ih.imp id ?_
      rintro ⟨b', hb', hc⟩
      exact ⟨b', List.mem_cons_of_mem _ hb', hc⟩
    · exact .inl rfl

namespace Reading

/-- Does some fact prove the goal, on its own or through its connectives? -/
def lookUp (depth : Nat) (goal : Expr) : Reading Bool := fun v =>
  v.facts.anyM fun fact => provesThrough (judgeDirectly depth) goal fact v

theorem provesThrough_self (judge : Expr → Reading Truth) (f : Expr) (v : View) :
    provesThrough judge f f v = .ok true := by
  have hdirect : directly v.facts f f = true :=
    Bool.or_eq_true_iff.mpr (.inl (Expr.equalGiven_self v.facts f))
  rw [provesThrough.eq_def, if_pos hdirect]

/-- A fact is found, unless an object in a premise of a fact before it is judged first. -/
theorem lookUp_fact (depth : Nat) (hv : v.facts = before ++ f :: after) :
    lookUp depth f v = .ok true ∨ ∃ g ∈ before, ∃ p ∈ g.premises, ∃ d ∈ p.misplaced,
      lookUp depth f v = .error (.notAStatement d) := by
  unfold lookUp
  rw [hv]
  refine (anyM_of_passed (fun fact => provesThrough (judgeDirectly depth) f fact v)
    (provesThrough_self _ f v) before after).imp id ?_
  rintro ⟨g, hg, fault, hfault, hanswer⟩
  obtain ⟨d, ⟨p, hp, hd⟩, rfl⟩ := provesThrough_blames (B := fun d => ∃ p ∈ g.premises, d ∈ p.misplaced)
    (fun p hp d hd => ⟨p, hp, hd⟩) fault hfault
  exact ⟨g, hg, p, hp, d, hd, hanswer⟩

theorem judge_settles (depth : Nat) (e : Expr) :
    ∃ otherwise, judge depth e = settle (lookUp depth) e otherwise :=
  ⟨_, evaluate.eq_def depth _ e⟩

theorem judge_of_lookUp (h : lookUp depth e v = .ok true) : judge depth e v = .ok .holds := by
  obtain ⟨otherwise, hsettles⟩ := judge_settles depth e
  rw [hsettles, settle, h]
  rfl

theorem judge_of_lookUp_error (h : lookUp depth e v = .error fault) : judge depth e v = .error fault := by
  obtain ⟨otherwise, hsettles⟩ := judge_settles depth e
  rw [hsettles, settle, h]
  rfl

end Reading

/-- A visible fact holds, whatever other facts there are, in any order and any scopes. There is one way
for this to fail: before the fact is reached, another fact is tried that has an object in the place of
a statement in one of its premises, and then the fault is about that object. -/
theorem known_fact_holds (depth : Nat) (k : Knowledge) (hk : k.facts.items = before ++ f :: after) :
    (judge depth f).run k = (.ok .holds, k) ∨
      ∃ g ∈ before, ∃ p ∈ g.premises, ∃ d ∈ p.misplaced,
        (judge depth f).run k = (.error (.notAStatement d), k) := by
  rw [judge_reads depth f k]
  rcases Reading.lookUp_fact depth (v := k.view) hk with h | ⟨g, hg, p, hp, d, hd, h⟩
  · rw [Reading.judge_of_lookUp h]
    exact .inl rfl
  · rw [Reading.judge_of_lookUp_error h]
    exact .inr ⟨g, hg, p, hp, d, hd, rfl⟩

/-- `P(c)` is tried after two facts that could have proved it, and before one with a tuple for a
premise. -/
theorem known_fact_holds_amongOthers :
    let P : Expr := .call "P" [.var "c"]
    let before : List Expr :=
      [.binary .implies (.var "Q") P, .bind .all "x" (.binary .or (.call "P" [.var "x"]) (.var "Q"))]
    let after : List Expr := [.binary .implies (.group .tuple [.var "a"]) P]
    let k : Knowledge := { facts := { base := before, opened := [⟨"If", after⟩, ⟨"Theorem", [P]⟩] } }
    k.facts.items = before ++ P :: after ∧ (judge 2 P).run k = (.ok .holds, k) := by
  intro P before after k
  have hk : k.facts.items = before ++ P :: after := rfl
  refine ⟨hk, (known_fact_holds 2 k hk).resolve_right ?_⟩
  rintro ⟨g, hg, p, hp, d, hd, _⟩
  have hnone : ∀ g ∈ before, ∀ p ∈ g.premises, p.misplaced = [] := by decide
  rw [hnone g hg p hp] at hd
  cases hd

/-- `P(c)` is known, but comes after `[a] ⇒ P(c)`. -/
theorem known_fact_not_reached :
    let P : Expr := .call "P" [.var "c"]
    let k : Knowledge := { facts := { base := [.binary .implies (.group .tuple [.var "a"]) P, P] } }
    P ∈ k.facts.items ∧
      (judge 2 P).run k = (.error (.notAStatement (.group .tuple [.var "a"])), k) := by
  intro P k
  exact ⟨by decide, rfl⟩

-- ---------------------------------------------------------------- a statement and its negation

namespace Truth

/-- Truths that a statement and its negation can have: each negates the other, or both hold because
the facts contradict each other. -/
def Opposite (t t' : Truth) : Prop := t' = t.negate ∨ t = .holds ∧ t' = .holds

instance (t t' : Truth) : Decidable (t.Opposite t') :=
  inferInstanceAs (Decidable (t' = t.negate ∨ t = .holds ∧ t' = .holds))

end Truth

namespace Reading

/-- A negation is known, or it is judged by what it denies. -/
theorem judge_not_eq_ok (h : judge depth (.not e) v = .ok t') :
    (lookUp depth (.not e) v = .ok true ∧ t' = .holds) ∨
      (lookUp depth (.not e) v = .ok false ∧ ∃ t, judge depth e v = .ok t ∧ t' = t.negate) := by
  have hsettles : judge depth (.not e) =
      settle (lookUp depth) (.not e) fun v => Truth.negate <$> judge depth e v := rfl
  rw [hsettles] at h
  rcases settle_eq_ok h with ⟨hk, ht⟩ | ⟨_, hn, _, _⟩ | ⟨hk, _, ht⟩
  · exact .inl ⟨hk, ht⟩
  · cases hn
  · rcases hj : judge depth e v with fault | t <;> rw [hj] at ht <;> cases ht
    exact .inr ⟨hk, t, rfl, rfl⟩

/-- What is left open although its negation is known is a negation itself. -/
theorem isNegation_of_open (h : judge depth e v = .ok .unknown)
    (hn : lookUp depth (.not e) v = .ok true) : e.isNegation = true := by
  obtain ⟨otherwise, hsettles⟩ := judge_settles depth e
  rw [hsettles] at h
  rcases settle_eq_ok h with ⟨_, ht⟩ | ⟨_, _, _, ht⟩ | ⟨_, hnot, _⟩
  · cases ht
  · cases ht
  · by_contra hstatement
    rw [hnot (Bool.not_eq_true _ ▸ hstatement)] at hn
    cases hn

theorem opposite_of_judge (h : judge depth e v = .ok t) (h' : judge depth (.not e) v = .ok t') :
    t.Opposite t' ∨
      e.isNegation = true ∧ t = .unknown ∧ t' = .holds ∧ lookUp depth (.not e) v = .ok true := by
  rcases judge_not_eq_ok h' with ⟨hn, rfl⟩ | ⟨_, s, hs, rfl⟩
  · cases t with
    | holds => exact .inl (.inr ⟨rfl, rfl⟩)
    | fails => exact .inl (.inl rfl)
    | unknown => exact .inr ⟨isNegation_of_open h hn, rfl, rfl, hn⟩
  · rw [h] at hs
    cases hs
    exact .inl (.inl rfl)

/-- A fact is found if looking it up does not fail. -/
theorem lookUp_of_mem (hf : f ∈ v.facts) (h : judge depth f v = .ok t) : lookUp depth f v = .ok true := by
  obtain ⟨before, after, hv⟩ := List.append_of_mem hf
  rcases lookUp_fact depth hv with hfound | ⟨g, hg, p, hp, d, hd, hfault⟩
  · exact hfound
  · rw [judge_of_lookUp_error hfault] at h
    cases h

end Reading

/-- Where a statement and its negation both get a verdict, the two verdicts are opposite. The one
exception is a negation that is left open although some fact proves its own negation. So a statement
that a known fact denies is never left open, unless it is a negation. -/
theorem negation_opposite (depth : Nat) (k : Knowledge) (e : Expr)
    (h : ((judge depth e).run k).1 = .ok t) (h' : ((judge depth (.not e)).run k).1 = .ok t') :
    (t.Opposite t' ∨ e.isNegation = true ∧ t = .unknown ∧ t' = .holds ∧
        (Inquiry.search (provesThrough (judgeDirectly depth) (.not e))).run k = (.ok true, k)) ∧
      (.not e ∈ k.facts.items → t = .unknown → e.isNegation = true) := by
  have hsearch : (Inquiry.search (provesThrough (judgeDirectly depth) (.not e))).run k =
      (Reading.lookUp depth (.not e) k.view, k) :=
    Inquiry.Reads.search (provesThrough_reads (judgeDirectly_reads depth) (.not e)) k
  rw [judge_reads depth e k] at h
  rw [judge_reads depth (.not e) k] at h'
  constructor
  · refine (Reading.opposite_of_judge h h').imp id ?_
    rintro ⟨hnegation, ht, ht', hn⟩
    exact ⟨hnegation, ht, ht', by rw [hsearch, hn]⟩
  · rintro hmem rfl
    exact Reading.isNegation_of_open h (Reading.lookUp_of_mem hmem h')

/-- `¬(a = b)` refutes `a = b`, which nothing else can. -/
theorem negation_opposite_equation :
    let equation : Expr := .binary .equals (.var "a") (.var "b")
    let k : Knowledge := { facts := { base := [.binary .implies (.var "Q") equation, .not equation] } }
    ((judge 2 equation).run k).1 = .ok .fails ∧ ((judge 2 (.not equation)).run k).1 = .ok .holds ∧
      Truth.fails.Opposite .holds := by
  intro equation k
  have hfails : ((judge 2 equation).run k).1 = .ok .fails := rfl
  have hholds : ((judge 2 (.not equation)).run k).1 = .ok .holds := rfl
  refine ⟨hfails, hholds, (negation_opposite 2 k equation hfails hholds).1.resolve_right ?_⟩
  rintro ⟨hnegation, _⟩
  cases hnegation

/-- `¬¬P` is known, and still `¬P` is left open. -/
theorem negation_left_open :
    let e : Expr := .not (.var "P")
    let k : Knowledge := { facts := { base := [.not e] } }
    .not e ∈ k.facts.items ∧ ((judge 2 e).run k).1 = .ok .unknown ∧
      ((judge 2 (.not e)).run k).1 = .ok .holds ∧ ¬Truth.unknown.Opposite .holds := by
  intro e k
  exact ⟨by decide, rfl, rfl, by decide⟩

end ProofScript
