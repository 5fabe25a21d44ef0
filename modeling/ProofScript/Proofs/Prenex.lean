import ProofScript.Proofs.AnalysisSound

/-!
# Prenex statements

Where all binders are leading quantifiers, names cannot get in each other's way while the goal is
taken apart: the quantifiers of the goal go first, and nothing is assumed before they are gone. So
the verdicts of the analysis are right under a condition on the names as they are written.
-/

namespace ProofScript

namespace Expr

/-- What is left when the leading quantifiers are taken off. -/
def matrix : Expr → Expr
  | bind .all _ body | bind .some _ body => body.matrix
  | e => e

/-- The names of the leading quantifiers. -/
def leading : Expr → List String
  | bind .all x body | bind .some x body => x :: body.leading
  | _ => []

theorem binders_eq_leading_append (e : Expr) : e.binders = e.leading ++ e.matrix.binders := by
  induction e using Expr.induction with
  | bind q x body ih => cases q <;> simp [leading, matrix, binders, ih]
  | _ => rfl

theorem unshadowed_of_binders_nil {e : Expr} (h : e.binders = []) : e.Unshadowed := by
  intro d hd
  cases d with
  | bind q x body =>
    have hx : x ∈ e.binders := binders_of_inside hd (by simp [binders])
    simp [h] at hx
  | _ => rfl

theorem unshadowed_of_prenex {e : Expr} (hm : e.matrix.binders = []) (hn : e.leading.Nodup) :
    e.Unshadowed := by
  induction e using Expr.induction with
  | bind q x body ih =>
    have hquantifier (hm : body.matrix.binders = []) (hn : (x :: body.leading).Nodup) :
        (bind q x body).Unshadowed := by
      obtain ⟨hx, hn⟩ := List.nodup_cons.mp hn
      refine List.forall_mem_cons.mpr ⟨?_, ih hm hn⟩
      simpa [rebinds, binders_eq_leading_append body, hm] using hx
    cases q with
    | all | some => exact hquantifier hm hn
    | those => simp [matrix, binders] at hm
  | _ => exact unshadowed_of_binders_nil hm

theorem premises_of_prenex {f : Expr} (hm : f.matrix.binders = []) (hl : l ∈ f.premises) :
    l.binders = [] := by
  cases f with
  | bind q x body => cases hl
  | _ =>
    refine List.eq_nil_iff_forall_not_mem.mpr fun x hx => ?_
    have := binders_of_inside (inside_of_premises hl) hx
    simp_all [matrix]

end Expr

open Expr

/-- Prenex facts and a prenex goal. Within a statement no name is bound twice; no bound name is also
free, in whatever statement; no free name is reserved. -/
structure PrenexQuestion (Γ : List Expr) (g : Expr) : Prop where
  matrix : ∀ e ∈ g :: Γ, e.matrix.binders = []
  distinct : ∀ e ∈ g :: Γ, e.leading.Nodup
  apart : ∀ x ∈ bindersAll (g :: Γ), x ∉ freeAll (g :: Γ)
  unreserved : ∀ x ∈ freeAll (g :: Γ), Name.isReserved x = false

-- ---------------------------------------------------------------- goals without binders

/-- What is judged to use these facts binds nothing. -/
def Plain (Γ : List Expr) : Prop := ∀ f ∈ Γ, f.Unshadowed ∧ ∀ l ∈ f.premises, l.binders = []

theorem Plain.assuming (h : Plain Γ) (hl : l.binders = []) : Plain (Γ ++ [l]) := by
  refine List.forall_mem_append.mpr ⟨h, List.forall_mem_singleton.mpr ⟨unshadowed_of_binders_nil hl, ?_⟩⟩
  intro m hm
  refine List.eq_nil_iff_forall_not_mem.mpr fun x hx => ?_
  have := binders_of_inside (inside_of_premises hm) hx
  simp [hl] at this

theorem throughout_of_plain (hP : ∀ Γ g, Plain Γ → g.binders = [] → P Γ g) (hΓ : Plain Γ)
    (hg : g.binders = []) : Throughout P Γ g := by
  induction g using Expr.induction generalizing Γ with
  | var x => exact ⟨hP _ _ hΓ hg, trivial⟩
  | call f args => exact ⟨hP _ _ hΓ hg, trivial⟩
  | binary op l r ihl ihr =>
    obtain ⟨hl, hr⟩ := List.append_eq_nil_iff.mp hg
    cases op with
    | implies => exact ⟨hP _ _ hΓ hg, ihl hΓ hl, ihr (hΓ.assuming hl) hr⟩
    | and =>
      exact ⟨hP _ _ hΓ hg, ihl hΓ hl, ihr hΓ hr, ihr (hΓ.assuming hl) hr, ihl (hΓ.assuming hr) hl⟩
    | or | iff => exact ⟨hP _ _ hΓ hg, ihl hΓ hl, ihr hΓ hr⟩
    | _ => exact ⟨hP _ _ hΓ hg, trivial⟩
  | not a ih => exact ⟨hP _ _ hΓ hg, ih hΓ hg⟩
  | bind q x body => simp [binders] at hg
  | group b items => exact ⟨hP _ _ hΓ hg, trivial⟩

theorem clear_of_plain (hΓ : Plain Γ) (hg : g.binders = []) : Clear Γ g where
  unshadowed := List.forall_mem_cons.mpr ⟨unshadowed_of_binders_nil hg, fun f hf => (hΓ f hf).1⟩
  released x hx := by
    cases g with
    | bind q y body => simp [binders] at hg
    | _ => simp [released] at hx
  links := .inl hg

theorem premises_of_plain (hΓ : Plain Γ) : ∀ f ∈ Γ, ∀ l ∈ f.premises, Throughout Clear Γ l :=
  fun f hf l hl => throughout_of_plain (fun _ _ => clear_of_plain) hΓ ((hΓ f hf).2 l hl)

-- ---------------------------------------------------------------- goals with leading quantifiers

/-- The leading quantifiers come off one by one while the facts stay as they are. -/
theorem hygienic_of_prenex (hΓ : Plain Γ) (hm : g.matrix.binders = []) (hn : g.leading.Nodup)
    (hapart : ∀ x ∈ bindersAll (g :: Γ), x ∉ freeAll Γ)
    (hunreserved : ∀ x ∈ freeAll Γ, Name.isReserved x = false) : Hygienic Γ g := by
  induction g using Expr.induction with
  | bind q x body ih =>
    have hclear : Clear Γ (.bind q x body) := {
      unshadowed := List.forall_mem_cons.mpr ⟨unshadowed_of_prenex hm hn, fun f hf => (hΓ f hf).1⟩
      released := fun y hy => hapart y (by cases q <;> simp_all [released, bindersAll, binders])
      links := .inr fun n hlink b hb => by
        obtain ⟨f, hf, _, hnf⟩ := mem_linkNames.mp hlink
        have hfree : n ∈ freeAll Γ := mem_freeAll.mpr ⟨f, hf, hnf⟩
        refine Bool.eq_false_iff.mpr fun hgrown => hapart b hb ?_
        rw [← Name.eq_of_grown hgrown (hunreserved n hfree)]
        exact hfree }
    have hrest (hm : body.matrix.binders = []) (hn : body.leading.Nodup) : Hygienic Γ body :=
      ih hm hn fun y hy => hapart y (by
        simp only [bindersAll, binders, List.mem_append, List.mem_cons] at hy ⊢
        exact hy.imp_left .inr)
    cases q with
    | all | some => exact ⟨⟨hclear, premises_of_plain hΓ⟩, hrest hm (List.nodup_cons.mp hn).2⟩
    | those => simp [matrix, binders] at hm
  | _ =>
    exact throughout_of_plain (fun _ _ hΓ hg => ⟨clear_of_plain hΓ hg, premises_of_plain hΓ⟩) hΓ hm

-- ---------------------------------------------------------------- verdicts

/-- On prenex facts and a prenex goal, with or without the connectives of facts and whether or not a
conjunction is being refuted, what is judged to hold is true and what is judged to fail is false,
wherever all visible facts are true. -/
theorem prenex_verdict_sound {D : Type u} (I : Interpretation D) (k : Knowledge) (goal : Expr)
    (hquestion : PrenexQuestion k.facts.items goal)
    (hiff : ∀ e ∈ goal :: k.facts.items, ∀ l r, .binary .iff l r ∈ e.inside → ∀ objects,
      I.Boolean (I.denote l (I.assign objects)) ∧ I.Boolean (I.denote r (I.assign objects)))
    (objects : String → D) (hfacts : ∀ f ∈ k.facts.items, I.Holds (I.assign objects) f)
    (depth : Nat) (recursion : Bool) (t : Truth)
    (h : ((if recursion then judge depth goal else judgeDirectly depth goal).run k).1 = .ok t) :
    (t = .holds → I.Holds (I.assign objects) goal) ∧
    (t = .fails → ¬I.Holds (I.assign objects) goal) := by
  have hfits (e) (he : e ∈ goal :: k.facts.items) : I.Fits I.Coherent e :=
    Interpretation.fits_of_twoValued
      (fun l r hlr ρ hρ => hρ.eq_assign ▸ hiff e he l r hlr ρ.object) (.inl fun _ => id)
  have hplain : Plain k.facts.items := fun f hf =>
    have hf := List.mem_cons_of_mem goal hf
    ⟨unshadowed_of_prenex (hquestion.matrix f hf) (hquestion.distinct f hf),
      fun l => premises_of_prenex (hquestion.matrix f hf)⟩
  have hhygienic : Hygienic k.facts.items goal :=
    hygienic_of_prenex hplain (hquestion.matrix goal (by simp)) (hquestion.distinct goal (by simp))
      (fun x hx hfree => hquestion.apart x hx (List.mem_append_right _ hfree))
      (fun x hfree => hquestion.unreserved x (List.mem_append_right _ hfree))
  have hbind : ∀ ρ x d, I.Coherent ρ → I.Coherent (I.bind ρ x d) := fun ρ x d hρ => hρ.bind x d
  have hsound : I.Sound I.Coherent k.facts.items goal t := by
    cases recursion with
    | true =>
      rw [if_pos rfl, judge_reads depth goal k] at h
      exact Interpretation.judge_sound (v := k.view) hbind hhygienic
        (fun f hf => hfits f (List.mem_cons_of_mem _ hf)) (hfits goal (by simp)) h
    | false =>
      rw [if_neg Bool.false_ne_true, judgeDirectly_reads depth goal k] at h
      exact Interpretation.judgeDirectly_sound (v := k.view) hbind (hhygienic.mono fun _ _ h => h.1)
        (fun f hf => hfits f (List.mem_cons_of_mem _ hf)) (hfits goal (by simp)) h
  have hsays := hsound _ (Interpretation.coherent_assign objects) hfacts
  exact ⟨fun ht => by rwa [ht] at hsays, fun ht => by rwa [ht] at hsays⟩

/-- A universal fact, an equation, a conditional equivalence and its left side. -/
def chainedFacts : List Expr :=
  [.bind .all "x" (.call "R" [.var "x", .var "d"]),
    .binary .equals (.var "c") (.var "d"),
    .binary .implies (.call "R" [.var "d", .var "c"])
      (.binary .iff (.call "S" [.var "c"]) (.call "U" [.var "c"])),
    .call "S" [.var "c"]]

/-- Every call denotes truth, and brackets and comprehensions denote falsehood. -/
def obliging : Interpretation Bool where
  yes := true
  no := false
  yes_ne_no := by decide
  apply _ _ := true
  arithmetic _ a b := a == b
  related _ a b := a = b
  group _ _ := false
  those _ := false

theorem prenex_verdict_sound_chained :
    PrenexQuestion chainedFacts (.bind .some "z" (.call "U" [.var "z"])) ∧
    (∀ f ∈ chainedFacts, obliging.Holds (obliging.assign fun _ => false) f) ∧
    obliging.Holds (obliging.assign fun _ => false) (.bind .some "z" (.call "U" [.var "z"])) := by
  have hquestion : PrenexQuestion chainedFacts (.bind .some "z" (.call "U" [.var "z"])) :=
    ⟨by decide, by decide, by decide, by decide⟩
  have hfacts : ∀ f ∈ chainedFacts, obliging.Holds (obliging.assign fun _ => false) f := by
    simp [chainedFacts, Interpretation.Holds, Interpretation.denote, Interpretation.combine,
      Interpretation.quantify, Interpretation.bind, Interpretation.assign, Interpretation.truth,
      obliging]
  have hboolean (b : Bool) : obliging.Boolean b := by cases b <;> simp [Interpretation.Boolean, obliging]
  exact ⟨hquestion, hfacts, (prenex_verdict_sound obliging { facts := { base := chainedFacts } } _
    hquestion (fun _ _ _ _ _ _ => ⟨hboolean _, hboolean _⟩) _ hfacts 2 true .holds rfl).1 rfl⟩

end ProofScript
