import ProofScript.Proofs.Symmetry

/-!
# More facts, more equalities

Comparison and chains look for facts that let a pair pass, and never for the absence of one. So an
equality that is found is found as well where more is known and where chains may be deeper.
-/

namespace ProofScript.Expr

variable {Γ Δ : List Expr}

-- ---------------------------------------------------------------- exchanges

theorem interchangeable_mono (h : Γ ⊆ Δ) (hab : interchangeable Γ a b = true) :
    interchangeable Δ a b = true := by
  obtain ⟨f, hf, hsides⟩ := List.any_eq_true.mp hab
  exact List.any_eq_true.mpr ⟨f, h hf, hsides⟩

/-- Binders are renamed in the same way whatever is known, so the comparison comes to the same pairs
until one of them passes. -/
theorem equalGiven_mono (h : Γ ⊆ Δ) (hab : equalGiven Γ a b = true) : equalGiven Δ a b = true := by
  refine agree_induction (P := fun a b _ _ => equalGiven Δ a b = true)
    (Q := fun as bs _ _ => List.Forall₂ (equalGiven Δ · · = true) as bs)
    ?_ ?_ ?_ ?_ ?_ ?_ ?_ ?_ ?_ a b () () (equalGiven_iff.mp hab)
  · intro a b _ _ haccept
    by_cases hi : interchangeable Γ a b = true
    · exact equalGiven_of_interchangeable (interchangeable_mono h hi)
    · rw [if_neg hi] at haccept
      cases haccept
  · exact fun x _ _ => equalGiven_var x
  · exact fun f as bs _ _ _ ih => equalGiven_call ih
  · exact fun op l r m n _ _ _ _ ihl ihr => equalGiven_binary ihl ihr
  · exact fun e d _ _ _ ih => equalGiven_not ih
  · exact fun q x e y d _ _ _ hx _ ih => equalGiven_bind hx ih
  · exact fun g as bs _ _ _ ih => equalGiven_group ih
  · exact fun _ => .nil
  · exact fun a b as bs _ _ _ iha ihas => .cons iha ihas

-- ---------------------------------------------------------------- chains

theorem congruent_mono {link link' : Expr → Expr → Bool}
    (hlink : ∀ {a b}, link a b = true → link' a b = true) (h : congruent link a b = true) :
    congruent link' a b = true :=
  congruent_least congruent_compatible (fun _ => congruent_var.mpr (.inl rfl))
    (fun h => congruent_bind.mpr (.inl h)) (fun h => congruent_of_link (hlink h)) h

/-- A link is used at the same place of the longer chain, with the levels below it again as many or
more. -/
theorem chained_mono {links links' : List (Expr × Expr)} (hlinks : links ⊆ links') (hnm : n ≤ m)
    (h : chained links n a b = true) : chained links' m a b = true := by
  induction n generalizing m a b with
  | zero =>
    rw [chained_eq] at h ⊢
    refine congruent_mono ?_ h
    exact fun h => nomatch h
  | succ n ih =>
    obtain ⟨m, rfl⟩ := Nat.exists_eq_add_one_of_ne_zero (Nat.ne_zero_of_lt hnm)
    have hnm := Nat.le_of_succ_le_succ hnm
    rw [chained_eq] at h ⊢
    refine congruent_mono (fun h => ?_) h
    obtain ⟨l, r, hlr, hsides⟩ := linked_succ.mp h
    exact linked_succ.mpr
      ⟨l, r, hlinks hlr, hsides.imp (And.imp (ih hnm) (ih hnm)) (And.imp (ih hnm) (ih hnm))⟩

theorem equations_mono (h : Γ ⊆ Δ) : equations Γ ⊆ equations Δ := fun _ hp =>
  mem_equations.mpr (h (mem_equations.mp hp))

/-- No equality is lost by more facts or a greater depth, be it found by exchanges, by a chain or by
either of the two. -/
theorem equality_mono (h : Γ ⊆ Δ) (hdepth : d ≤ d') (a b : Expr) :
    (equalGiven Γ a b = true → equalGiven Δ a b = true) ∧
      (chained (equations Γ) (d + 1) a b = true → chained (equations Δ) (d' + 1) a b = true) ∧
      (equalByFacts Γ d a b = true → equalByFacts Δ d' a b = true) := by
  have hchained : chained (equations Γ) (d + 1) a b = true → chained (equations Δ) (d' + 1) a b = true :=
    chained_mono (equations_mono h) (Nat.succ_le_succ hdepth)
  refine ⟨equalGiven_mono h, hchained, fun heq => ?_⟩
  exact Bool.or_eq_true_iff.mpr ((Bool.or_eq_true_iff.mp heq).imp (equalGiven_mono h) hchained)

/-- What `a = b` makes equal stays equal among other facts, some of them about the same names. -/
theorem equality_mono_buried :
    let few := [binary .equals (var "a") (var "b")]
    let many := [not (binary .equals (var "a") (var "b")), binary .iff (var "b") (var "c"),
      binary .equals (var "a") (var "b"), call "P" [var "a"]]
    let e := call "R" [call "f" [var "a"], bind .all "x" (call "P" [var "x"])]
    let d := call "R" [call "f" [var "b"], bind .all "y" (call "P" [var "y"])]
    few ⊆ many ∧ equalGiven many e d = true ∧ chained (equations many) 3 e d = true := by
  intro few many e d
  have hmore : few ⊆ many := by decide
  obtain ⟨hgiven, hchained, _⟩ := equality_mono hmore (Nat.zero_le 2) e d
  exact ⟨hmore, hgiven (by decide +kernel), hchained (by decide +kernel)⟩

end ProofScript.Expr
