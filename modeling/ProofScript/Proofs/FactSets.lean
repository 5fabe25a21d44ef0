import ProofScript.Proofs.Simulation

/-!
# Facts count as a set

A verdict depends on which facts are visible, not on their order, on how often they are visible, or
on the scopes they are in. Only whether there is a verdict can depend on it: a search that comes early
to a fact that settles it does not come to one that makes it fail.
-/

namespace ProofScript

-- ---------------------------------------------------------------- comparison

/-- The two lists hold the same facts. -/
def SameMembers (Γ Δ : List Expr) : Prop := ∀ f, f ∈ Γ ↔ f ∈ Δ

theorem SameMembers.any (h : SameMembers Γ Δ) (p : Expr → Bool) : Γ.any p = Δ.any p := by
  rw [Bool.eq_iff_iff, List.any_eq_true, List.any_eq_true]
  exact ⟨fun ⟨f, hf, hp⟩ => ⟨f, (h f).mp hf, hp⟩, fun ⟨f, hf, hp⟩ => ⟨f, (h f).mpr hf, hp⟩⟩

theorem SameMembers.append (h : SameMembers Γ Δ) (Θ : List Expr) : SameMembers (Γ ++ Θ) (Δ ++ Θ) :=
  fun f => by simp only [List.mem_append, h f]

namespace Expr

theorem interchangeable_sameMembers (h : SameMembers Γ Δ) : interchangeable Γ = interchangeable Δ := by
  funext a b
  exact h.any _

theorem equalGiven_sameMembers (h : SameMembers Γ Δ) : equalGiven Γ = equalGiven Δ := by
  funext a b
  simp only [equalGiven, interchangeable_sameMembers h]

theorem chained_sameMembers (h : SameMembers Γ Δ) (n : Nat) :
    chained (equations Γ) n = chained (equations Δ) n := by
  induction n with
  | zero => rfl
  | succ n ih =>
    have hlinks (p : Expr × Expr → Bool) : (equations Γ).any p = (equations Δ).any p := by
      simp only [equations, List.any_filterMap]
      exact h.any _
    simp only [chained, ih, hlinks]

theorem equalByFacts_sameMembers (h : SameMembers Γ Δ) (depth : Nat) (a b : Expr) :
    equalByFacts Γ depth a b = equalByFacts Δ depth a b := by
  simp only [equalByFacts, equalGiven_sameMembers h, chained_sameMembers h]

end Expr

theorem directly_sameMembers (h : SameMembers Γ Δ) (goal fact : Expr) :
    directly Γ goal fact = directly Δ goal fact := by
  simp only [directly, matchesQuantified, Expr.equalGiven_sameMembers h]

-- ---------------------------------------------------------------- answers

/-- If both sides answer, they answer the same. -/
def Consistent (x y : Except InternalFault α) : Prop := ∀ a b, x = .ok a → y = .ok b → a = b

theorem Consistent.lockstep : Lockstep fun _ x y => Consistent x y where
  ok a := by
    intro _ _ hb hc
    cases hb
    cases hc
    rfl
  bind := by
    intro _ _ x y f g hxy hfg c d hc hd
    obtain ⟨a, ha, hc⟩ := bind_eq_ok.mp hc
    obtain ⟨b, hb, hd⟩ := bind_eq_ok.mp hd
    obtain rfl := hxy a b ha hb
    exact hfg a c d hc hd

/-- A search that finds nothing has tried what the other one found. -/
theorem Consistent.anyM {test test' : Expr → Except InternalFault Bool} (hΓ : SameMembers Γ Δ)
    (h : ∀ f, Consistent (test f) (test' f)) : Consistent (Γ.anyM test) (Δ.anyM test') := by
  intro a b ha hb
  cases a <;> cases b
  · rfl
  · obtain ⟨f, hf, htrue⟩ := anyM_eq_true hb
    exact h f _ _ (anyM_eq_false ha f ((hΓ f).mpr hf)) htrue
  · obtain ⟨f, hf, htrue⟩ := anyM_eq_true ha
    exact h f _ _ htrue (anyM_eq_false hb f ((hΓ f).mp hf))
  · rfl

-- ---------------------------------------------------------------- verdicts

/-- The same facts are visible, and the flag is the same. -/
def View.SameFacts (v w : View) : Prop := v.refuting = w.refuting ∧ SameMembers v.facts w.facts

theorem indifferent_sameFacts : Indifferent View.SameFacts where
  refuting h := h.1
  assuming h := ⟨h.1, h.2.append _⟩
  refutingWith h := ⟨rfl, h.2.append _⟩
  equal h := Expr.equalByFacts_sameMembers h.2 _ _ _

namespace Reading

theorem consistent_evaluate {known : Expr → Reading Bool}
    (hk : ∀ {v w} e, View.SameFacts v w → Consistent (known e v) (known e w)) (h : View.SameFacts v w) :
    Consistent (evaluate depth known e v) (evaluate depth known e w) :=
  (indifferent_sameFacts.simulation (fun _ _ _ h => nomatch h) hk).evaluate Consistent.lockstep ⟨h, rfl⟩

theorem consistent_judgeDirectly (h : View.SameFacts v w) :
    Consistent (judgeDirectly depth e v) (judgeDirectly depth e w) := by
  refine consistent_evaluate (fun {v w} goal h => .anyM h.2 fun fact => ?_) h
  rw [directly_sameMembers h.2]
  exact Consistent.lockstep.ok _

theorem consistent_judge (h : View.SameFacts v w) :
    Consistent (judge depth e v) (judge depth e w) :=
  consistent_evaluate (fun goal h => .anyM h.2 <|
    provesThrough_same Consistent.lockstep (directly_sameMembers h.2 goal)
      fun _ => consistent_judgeDirectly h) h

end Reading

/-- Two stores with the same visible facts, in any order, any number and any scopes, never give two
different verdicts on a statement. -/
theorem verdict_of_fact_set (depth : Nat) (e : Expr) (refuting : Bool) (s t : Scopes Expr)
    (h : ∀ f, f ∈ s.items ↔ f ∈ t.items) :
    Consistent ((judge depth e).run ⟨s, refuting⟩).1 ((judge depth e).run ⟨t, refuting⟩).1 := by
  rw [judge_reads depth e ⟨s, refuting⟩, judge_reads depth e ⟨t, refuting⟩]
  exact Reading.consistent_judge ⟨rfl, h⟩

/-- `Q(a)` follows from `P(a) ⇒ Q(b)`, `a = b` and `P(b)`, also when these are assumed one inside the
other, the other way round and twice. -/
theorem verdict_of_fact_set_regrouped :
    let premise : Expr := .binary .implies (.call "P" [.var "a"]) (.call "Q" [.var "b"])
    let equation : Expr := .binary .equals (.var "a") (.var "b")
    let given : Expr := .call "P" [.var "b"]
    let goal : Expr := .call "Q" [.var "a"]
    let flat : Scopes Expr := { base := [premise, equation, given] }
    let nested : Scopes Expr :=
      { base := [given], opened := [⟨"If", [premise, given]⟩, ⟨"Theorem", [equation]⟩] }
    flat.items ≠ nested.items ∧ (∀ f, f ∈ flat.items ↔ f ∈ nested.items) ∧
      ((judge 2 goal).run ⟨flat, false⟩).1 = .ok .holds ∧
      Consistent ((judge 2 goal).run ⟨flat, false⟩).1 ((judge 2 goal).run ⟨nested, false⟩).1 := by
  intro premise equation given goal flat nested
  have hset : ∀ f, f ∈ flat.items ↔ f ∈ nested.items := by
    intro f
    simp only [Scopes.items, Scopes.levels, flat, nested, List.reverse_cons, List.reverse_nil,
      List.nil_append, List.map_cons, List.map_nil, List.cons_append, List.flatten_cons,
      List.flatten_nil, List.append_nil, List.mem_cons, List.not_mem_nil, or_false]
    grind
  exact ⟨by decide +kernel, hset, rfl, verdict_of_fact_set 2 goal false flat nested hset⟩

end ProofScript
