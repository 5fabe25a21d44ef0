import ProofScript.Proofs.Hygiene
import ProofScript.Proofs.RenamedFacts
import ProofScript.Proofs.Simulation

/-!
# Verdicts up to names

Two statements that differ in the names of their binders are judged in step. The names that are
released on the way differ, and so do facts that were assumed: `Twins` relates them, by a permutation
of the names in question that grows with each release. What was known before is the same on both
sides, whatever names it binds. Analysis does look at names, so this holds as long as they are kept
apart (`Apart`, `KeepsApart`); `bound_names_told_apart` shows what can happen otherwise.
-/

namespace ProofScript

open Expr

-- ---------------------------------------------------------------- questions that are alike

/-- The binders of the expression have names in `own`, each one unlike those around it. -/
structure Expr.Own (own : List String) (a : Expr) : Prop where
  binders : ∀ x ∈ a.binders, x ∈ own
  unshadowed : a.Unshadowed

/-- The two are alike, and they are the same or all their binders have names in `own`. -/
structure Twins (own : List String) (π : Equiv.Perm String) (a c : Expr) : Prop where
  alike : Alike π a c
  bound : a = c ∨ a.Own own ∧ c.Own own

/-- What the names in `own` are kept apart from in a question: all names in use are plain ones, the
goal releases no name of `own` that a fact uses, and where the goal has binders no known equation
mentions a name of `own` that has a binder. -/
structure Apart (own : List String) (Γ : List Expr) (g : Expr) : Prop where
  plain : ∀ x ∈ freeAll (g :: Γ), Name.isReserved x = false
  released : ∀ x ∈ g.released, x ∈ own → x ∉ freeAll Γ
  links : g.binders = [] ∨ ∀ x ∈ own, x ∈ linkNames Γ → x ∉ bindersAll (g :: Γ)

/-- Two questions that differ in names of `own` only. -/
structure QuestionsAlike (own : List String) (π : Equiv.Perm String) (Γ : List Expr) (g : Expr)
    (Δ : List Expr) (g' : Expr) : Prop where
  facts : List.Forall₂ (Twins own π) Γ Δ
  goal : Twins own π g g'
  fixed : ∀ z, z ∉ own → π z = z
  left : Apart own Γ g
  right : Apart own Δ g'

/-- A fact or a part of one that may prove a goal. -/
structure FactsAlike (own : List String) (π : Equiv.Perm String) (Γ : List Expr) (f : Expr)
    (Δ : List Expr) (f' : Expr) : Prop where
  twins : Twins own π f f'
  left : (∀ x ∈ f.binders, x ∈ bindersAll Γ) ∧ ∀ x ∈ f.free, x ∈ freeAll Γ
  right : (∀ x ∈ f'.binders, x ∈ bindersAll Δ) ∧ ∀ x ∈ f'.free, x ∈ freeAll Δ

section
variable {own : List String} {π τ : Equiv.Perm String} {Γ Δ : List Expr} {a c f f' g g' p p' : Expr}

-- ---------------------------------------------------------------- parts of statements

theorem Expr.Own.part (h : a.Own own) (hp : p ∈ a.inside) : Expr.Own own p :=
  ⟨fun x hx => h.binders x (binders_of_inside hp hx), h.unshadowed.part hp⟩

namespace Twins

theorem symm (h : Twins own π a c) : Twins own π.symm c a :=
  ⟨h.alike.symm, h.bound.imp Eq.symm And.symm⟩

/-- Expressions that are made from the two in the same way. -/
theorem made (h : Twins own π a c) (halike : Alike τ p p') (hsame : a = c → p = p')
    (hleft : a.Own own → p.Own own) (hright : c.Own own → p'.Own own) : Twins own τ p p' :=
  ⟨halike, h.bound.imp hsame (And.imp hleft hright)⟩

theorem binary (h : Twins own π (.binary op l r) c) :
    ∃ l' r', c = .binary op l' r' ∧ Twins own π l l' ∧ Twins own π r r' := by
  obtain ⟨l', r', rfl, hl, hr⟩ := alike_binary.mp h.alike
  have hpart {a b : Expr} (ho : (Expr.binary op a b).Own own) : a.Own own ∧ b.Own own :=
    ⟨ho.part left_mem_inside, ho.part right_mem_inside⟩
  refine ⟨l', r', rfl, ?_, ?_⟩
  · exact h.made hl (fun hsame => by cases hsame; rfl) (hpart · |>.1) (hpart · |>.1)
  · exact h.made hr (fun hsame => by cases hsame; rfl) (hpart · |>.2) (hpart · |>.2)

theorem not (h : Twins own π (.not a) c) : ∃ a', c = .not a' ∧ Twins own π a a' := by
  obtain ⟨a', rfl, ha⟩ := alike_not.mp h.alike
  have hpart {a : Expr} (ho : (Expr.not a).Own own) : a.Own own := ho.part negated_mem_inside
  exact ⟨a', rfl, h.made ha (fun hsame => by cases hsame; rfl) hpart hpart⟩

theorem denied (h : Twins own π a c) : Twins own π (.not a) (.not c) := by
  have hnot {a : Expr} (ho : a.Own own) : (Expr.not a).Own own := by
    refine ⟨ho.binders, ?_⟩
    have := ho.unshadowed
    simp only [Unshadowed, inside, List.forall_mem_cons] at this ⊢
    exact ⟨rfl, this⟩
  exact h.made (alike_not.mpr ⟨c, rfl, h.alike⟩) (congrArg _) hnot hnot

theorem binder (h : Twins own π (.bind q x p) c) : ∃ x' p', c = .bind q x' p' ∧
    (x = x' ∧ p = p' ∨ x ∉ p.binders ∧ x' ∉ p'.binders) := by
  obtain ⟨x', p', rfl, _⟩ := alike_bind.mp h.alike
  refine ⟨x', p', rfl, ?_⟩
  rcases h.bound with hsame | ⟨hleft, hright⟩
  · cases hsame
    exact .inl ⟨rfl, rfl⟩
  · exact .inr ⟨hleft.unshadowed.not_mem, hright.unshadowed.not_mem⟩

theorem opened (h : Twins own π (.bind q x p) (.bind q x' p')) : Twins own (sending π x x') p p' := by
  have hpart {x p} (ho : (Expr.bind q x p).Own own) : Expr.Own own p := ho.part body_mem_inside
  exact h.made h.alike.opened (fun hsame => by cases hsame; rfl) hpart hpart

theorem rebind (h : Twins own π (.bind q x p) (.bind q x' p')) (r : Binder) :
    Twins own π (.bind r x p) (.bind r x' p') := by
  have hrebind {x p} (ho : (Expr.bind q x p).Own own) : (Expr.bind r x p).Own own := by
    refine ⟨ho.binders, ?_⟩
    have := ho.unshadowed
    simp only [Unshadowed, inside, List.forall_mem_cons] at this ⊢
    exact this
  exact h.made (h.alike.rebind r) (fun hsame => by cases hsame; rfl) hrebind hrebind

/-- An existential statement is looked up as the negation of a universal one. -/
theorem never (h : Twins own π (.bind .some x p) (.bind .some x' p')) :
    Twins own π (.bind .all x (.not p)) (.bind .all x' (.not p')) := by
  have hnever {x p} (ho : (Expr.bind .some x p).Own own) : (Expr.bind .all x (.not p)).Own own := by
    refine ⟨ho.binders, ?_⟩
    have := ho.unshadowed
    simp only [Unshadowed, inside, List.forall_mem_cons] at this ⊢
    exact ⟨this.1, rfl, this.2⟩
  have halike : Alike π (.bind .all x (.not p)) (.bind .all x' (.not p')) := by
    obtain ⟨_, _, heq, hbody⟩ := alike_bind.mp h.alike
    cases heq
    exact alike_bind.mpr ⟨x', _, rfl, congrArg Nameless.not hbody⟩
  exact h.made halike (fun hsame => by cases hsame; rfl) hnever hnever

end Twins

-- ---------------------------------------------------------------- both ways

theorem QuestionsAlike.symm (h : QuestionsAlike own π Γ g Δ g') :
    QuestionsAlike own π.symm Δ g' Γ g where
  facts := List.Forall₂.flip (h.facts.imp fun _ _ => Twins.symm)
  goal := h.goal.symm
  fixed z hz := (Equiv.symm_apply_eq π).mpr (h.fixed z hz).symm
  left := h.right
  right := h.left

theorem FactsAlike.symm (h : FactsAlike own π Γ f Δ f') : FactsAlike own π.symm Δ f' Γ f :=
  ⟨h.twins.symm, h.right, h.left⟩

-- ---------------------------------------------------------------- comparison with known equations

/-- The names that are the same on both sides and may be in use. -/
def Kept (own : List String) (z : String) : Prop := z ∉ own ∧ Name.isReserved z = false

/-- Reserved names and names of `own` that no equation mentions can stand for each other. -/
theorem exchangeable_of_unlinked (hx : x ∉ linkNames Γ) (hy : y ∉ linkNames Δ)
    (hxown : x ∈ own ∨ Name.isReserved x = true) (hyown : y ∈ own ∨ Name.isReserved y = true) :
    Exchangeable (Kept own) Γ Δ x y := by
  have hnot {z : String} (hz : z ∈ own ∨ Name.isReserved z = true) : ¬Kept own z := by
    rintro ⟨hown, hplain⟩
    exact hz.elim hown fun hr => Bool.noConfusion (hr.symm.trans hplain)
  exact .inr ⟨⟨hx, hnot hxown⟩, hy, hnot hyown⟩

namespace QuestionsAlike

variable (h : QuestionsAlike own π Γ g Δ g')
include h

theorem linksAlike : LinksAlike (Kept own) Γ Δ π :=
  ⟨linkForms_alike (h.facts.imp fun _ _ => Twins.alike), fun z hz => h.fixed z hz.1⟩

theorem plain_links : ∀ z ∈ linkNames Γ, Name.isReserved z = false := by
  intro z hz
  obtain ⟨f, hf, _, hz⟩ := mem_linkNames.mp hz
  exact h.left.plain z (mem_freeAll.mpr ⟨f, List.mem_cons_of_mem _ hf, hz⟩)

theorem binders_ne_nil (hg : g.binders ≠ []) : g'.binders ≠ [] := by
  have hsize := h.goal.alike.sameSize.2
  simp only [bindersAll, List.append_nil] at hsize
  rwa [← List.length_pos_iff, ← hsize, List.length_pos_iff]

theorem unlinked_of_reserved (hx : Name.isReserved x = true) : x ∉ linkNames Γ :=
  fun hlink => Bool.noConfusion (hx.symm.trans (h.plain_links x hlink))

theorem unlinked (hg : g.binders ≠ []) (hx : x ∈ bindersAll (g :: Γ))
    (hown : x ∈ own ∨ Name.isReserved x = true) : x ∉ linkNames Γ := by
  rcases hown with hown | hr
  · exact fun hlink => (h.left.links.resolve_left hg) x hown hlink hx
  · exact h.unlinked_of_reserved hr

theorem parallel (hac : Twins own π a c) (ha : ∀ x ∈ a.binders, x ∈ bindersAll (g :: Γ))
    (hc : ∀ x ∈ c.binders, x ∈ bindersAll (g' :: Δ)) (hg : g.binders ≠ []) (bs : List Expr) :
    Parallel (Exchangeable (Kept own) Γ Δ) [a] [c] bs := by
  have hg' := h.binders_ne_nil hg
  have hboth {x y : String} (hx : x ∈ a.binders) (hy : y ∈ c.binders)
      (hxown : x ∈ own ∨ Name.isReserved x = true) (hyown : y ∈ own ∨ Name.isReserved y = true) :
      Exchangeable (Kept own) Γ Δ x y :=
    exchangeable_of_unlinked (h.unlinked hg (ha x hx) hxown) (h.symm.unlinked hg' (hc y hy) hyown)
      hxown hyown
  simp only [Parallel, bindersAll, List.append_nil]
  rcases hac.bound with rfl | ⟨hao, hco⟩
  · refine .inr (.inl ⟨rfl, fun x hx => ?_⟩)
    by_cases hx' : x ∈ own ∨ Name.isReserved x = true
    · exact hboth hx hx hx' hx'
    · obtain ⟨hown, hr⟩ := not_or.mp hx'
      exact .inl ⟨rfl, hown, by simpa using hr⟩
  · exact .inr (.inr fun x hx y hy => hboth hx hy (.inl (hao.binders x hx)) (.inl (hco.binders y hy)))

theorem equalGiven (hac : Twins own π a c) (hbd : Alike π b d)
    (ha : ∀ x ∈ a.binders, x ∈ bindersAll (g :: Γ)) (hc : ∀ x ∈ c.binders, x ∈ bindersAll (g' :: Δ))
    (hb : b.binders ≠ [] → g.binders ≠ []) (heq : equalGiven Γ a b = true) :
    Expr.equalGiven Δ c d = true := by
  refine h.linksAlike.equalGiven hac.alike hbd ?_ heq
  by_cases hnil : b.binders = []
  · exact .inl (by simpa [bindersAll] using hnil)
  · exact h.parallel hac ha hc (hb hnil) _

-- ---------------------------------------------------------------- instances

theorem equalGiven_instance (hp : Alike π (bind q x p) (bind q x' p')) (hy : x ∈ p.free → π y = y')
    (heq : Expr.equalGiven Γ (p.rename x y) g = true) :
    Expr.equalGiven Δ (p'.rename x' y') g' = true := by
  refine h.linksAlike.equalGiven (hp.renamed hy) h.goal.alike (.inr (.inr fun u hu w hw => ?_)) heq
  simp only [bindersAll, List.append_nil] at hu hw
  have hu := isReserved_of_binders_rename hu
  have hw := isReserved_of_binders_rename hw
  exact exchangeable_of_unlinked (h.unlinked_of_reserved hu) (h.symm.unlinked_of_reserved hw)
    (.inr hu) (.inr hw)

/-- A name of the one goal has a counterpart in the other. Where it is bound in the goal and yet
makes a difference, known equations mention it, so it is none of `own` and the goals are the same. -/
theorem name_counterpart {p : Expr} (hy : y ∈ g.names)
    (heq : Expr.equalGiven Γ (p.rename x y) g = true) :
    ∃ y' ∈ g'.names, x ∈ p.free → π y = y' := by
  have hnames {e : Expr} {z : String} : z ∈ e.names ↔ z ∈ e.occurrences := List.mem_eraseDups
  by_cases hfree : y ∈ g.free
  · exact ⟨π y, hnames.mpr (occurs_of_free (h.goal.alike.mem_free.mpr hfree)), fun _ => rfl⟩
  by_cases hx : x ∈ p.free
  · have hlink : y ∈ linkNames Γ := Decidable.byContradiction fun hlink =>
      hfree ((equalGiven_free heq hlink).mp (mem_free_rename.mpr (.inr ⟨hx, rfl⟩)))
    have hbound : y ∈ g.binders := (free_or_bound (hnames.mp hy)).resolve_left hfree
    have hown : y ∉ own := fun hown => h.unlinked (List.ne_nil_of_mem hbound)
      (mem_bindersAll.mpr ⟨g, List.mem_cons_self, hbound⟩) (.inl hown) hlink
    rcases h.goal.bound with hsame | ⟨hg, _⟩
    · exact ⟨y, hsame ▸ hy, fun _ => h.fixed y hown⟩
    · exact absurd (hg.binders y hbound) hown
  · have hsize := h.goal.alike.sameSize.1
    simp only [occurrencesAll, List.append_nil] at hsize
    have hpos : 0 < g'.occurrences.length := hsize ▸ List.length_pos_of_mem (hnames.mp hy)
    obtain ⟨y', hy'⟩ := List.exists_mem_of_length_pos hpos
    exact ⟨y', hnames.mpr hy', fun hx' => absurd hx' hx⟩

end QuestionsAlike

theorem matchesQuantified_iff : matchesQuantified Γ f g = true ↔
    (∃ x p, f = bind .all x p ∧
      ((∃ y ∈ g.names, equalGiven Γ (p.rename x y) g = true) ∨ matchesWitness p g x = true ∨
        ∃ z d, g = bind .some z d ∧ equalGiven Γ (bind .some x p) g = true)) ∨
    ∃ x p, g = bind .some x p ∧ matchesWitness p f x = true := by
  simp only [matchesQuantified, Bool.or_eq_true]
  refine or_congr ⟨fun h => ?_, ?_⟩ ⟨fun h => ?_, ?_⟩
  · split at h
    · rename_i x p
      simp only [Bool.or_eq_true, List.any_eq_true] at h
      refine ⟨x, p, rfl, ?_⟩
      rcases h with (h | h) | h
      · exact .inl h
      · exact .inr (.inl h)
      · split at h
        · exact .inr (.inr ⟨_, _, rfl, h⟩)
        · cases h
    · cases h
  · rintro ⟨x, p, rfl, h | h | ⟨z, d, rfl, h⟩⟩
    · simp only [Bool.or_eq_true, List.any_eq_true]
      exact .inl (.inl h)
    · simp [h]
    · simp [h]
  · split at h
    · exact ⟨_, _, rfl, h⟩
    · cases h
  · rintro ⟨x, p, rfl, h⟩
    exact h

namespace QuestionsAlike

variable (h : QuestionsAlike own π Γ g Δ g') (hf : FactsAlike own π Γ f Δ f')
include h hf

theorem matchesQuantified_alike (hm : matchesQuantified Γ f g = true) :
    matchesQuantified Δ f' g' = true := by
  have hgoal : ∀ z ∈ g.free, Name.isReserved z = false := fun z hz =>
    h.left.plain z (mem_freeAll.mpr ⟨g, List.mem_cons_self, hz⟩)
  have hgoal' : ∀ z ∈ g'.free, Name.isReserved z = false := fun z hz =>
    h.right.plain z (mem_freeAll.mpr ⟨g', List.mem_cons_self, hz⟩)
  have hfact : ∀ z ∈ f.free, Name.isReserved z = false := fun z hz =>
    h.left.plain z (List.mem_append_right _ (hf.left.2 z hz))
  have hfact' : ∀ z ∈ f'.free, Name.isReserved z = false := fun z hz =>
    h.right.plain z (List.mem_append_right _ (hf.right.2 z hz))
  rw [matchesQuantified_iff] at hm ⊢
  rcases hm with ⟨x, p, rfl, hm⟩ | ⟨x, p, rfl, hm⟩
  · obtain ⟨x', p', rfl, hbinders⟩ := hf.twins.binder
    refine .inl ⟨x', p', rfl, ?_⟩
    rcases hm with ⟨y, hy, hm⟩ | hm | ⟨z, d, rfl, hm⟩
    · obtain ⟨y', hy', hyy'⟩ := h.name_counterpart hy hm
      exact .inl ⟨y', hy', h.equalGiven_instance hf.twins.alike hyy' hm⟩
    · exact .inr (.inl (matchesWitness_alike hf.twins.alike h.goal.alike hfact hgoal hgoal' hbinders hm))
    · obtain ⟨z', d', rfl, _⟩ := h.goal.binder
      refine .inr (.inr ⟨z', d', rfl, ?_⟩)
      exact h.equalGiven (hf.twins.rebind .some) h.goal.alike
        (fun x hx => List.mem_append_right _ (hf.left.1 x hx))
        (fun x hx => List.mem_append_right _ (hf.right.1 x hx)) id hm
  · obtain ⟨x', p', rfl, hbinders⟩ := h.goal.binder
    exact .inr ⟨x', p', rfl,
      matchesWitness_alike h.goal.alike hf.twins.alike hgoal hfact hfact' hbinders hm⟩

theorem directly_alike (hd : directly Γ g f = true) : directly Δ g' f' = true := by
  rcases Bool.or_eq_true_iff.mp hd with hd | hd
  · refine Bool.or_eq_true_iff.mpr (.inl ?_)
    exact h.equalGiven hf.twins h.goal.alike (fun x hx => List.mem_append_right _ (hf.left.1 x hx))
      (fun x hx => List.mem_append_right _ (hf.right.1 x hx)) id hd
  · exact Bool.or_eq_true_iff.mpr (.inr (h.matchesQuantified_alike hf hd))

/-- One fact proves a goal on the one side if and only if it does on the other. -/
theorem directly_eq : directly Γ g f = directly Δ g' f' := by
  rw [Bool.eq_iff_iff]
  exact ⟨h.directly_alike hf, h.symm.directly_alike hf.symm⟩

end QuestionsAlike

theorem QuestionsAlike.equalByFacts_eq
    (h : QuestionsAlike own π Γ (.binary op l r) Δ (.binary op l' r')) :
    equalByFacts Γ depth l r = equalByFacts Δ depth l' r' := by
  have hone {π : Equiv.Perm String} {Γ Δ : List Expr} {l r l' r' : Expr}
      (h : QuestionsAlike own π Γ (.binary op l r) Δ (.binary op l' r'))
      (heq : equalByFacts Γ depth l r = true) : equalByFacts Δ depth l' r' = true := by
    obtain ⟨_, _, hsides, hl, hr⟩ := h.goal.binary
    cases hsides
    rcases Bool.or_eq_true_iff.mp heq with heq | heq
    · refine Bool.or_eq_true_iff.mpr (.inl (h.equalGiven hl hr.alike ?_ ?_ ?_ heq))
      · exact fun x hx => List.mem_append_left _ (List.mem_append_left _ hx)
      · exact fun x hx => List.mem_append_left _ (List.mem_append_left _ hx)
      · exact fun hne hnil => hne (List.append_eq_nil_iff.mp hnil).2
    · have hfacts := h.facts.imp fun _ _ => Twins.alike
      exact Bool.or_eq_true_iff.mpr (.inr (chained_alike hfacts hl.alike hr.alike heq))
  rw [Bool.eq_iff_iff]
  exact ⟨hone h, hone h.symm⟩

-- ---------------------------------------------------------------- judged in step

theorem Apart.not (h : Apart own Γ g) : Apart own Γ (.not g) where
  plain := h.plain
  released := List.forall_mem_nil _
  links := h.links

theorem Apart.never (h : Apart own Γ (.bind .some x p)) : Apart own Γ (.bind .all x (.not p)) where
  plain := h.plain
  released := h.released
  links := h.links

/-- The same answer, or on both sides the fault that an expression is no statement. The two
expressions differ in names of `own` only. -/
inductive SameAnswer (own : List String) : AnswerRelation
  | ok (a : α) : SameAnswer own α (.ok a) (.ok a)
  | notAStatement {σ : Equiv.Perm String} : (∀ z, z ∉ own → σ z = z) → Alike σ d d' →
    SameAnswer own α (.error (.notAStatement d)) (.error (.notAStatement d'))

theorem SameAnswer.lockstep : Lockstep (SameAnswer own) where
  ok := .ok
  bind := by
    intro _ _ x y f g hxy hfg
    cases hxy with
    | ok a => exact hfg a
    | notAStatement hfixed halike => exact .notAStatement hfixed halike

/-- Names that the facts do not use may be sent anywhere. -/
theorem twins_send (h : List.Forall₂ (Twins own π) Γ Δ) (hx : x ∉ freeAll Γ) (hy : y ∉ freeAll Δ) :
    List.Forall₂ (Twins own (sending π x y)) Γ Δ := by
  induction h with
  | nil => exact .nil
  | cons ht _ ih =>
    simp only [freeAll, List.mem_append, not_or] at hx hy
    exact .cons ⟨ht.alike.send hx.1 hy.1, ht.bound⟩ (ih hx.2 hy.2)

/-- Two statements, each with what is known about it, that differ in names of `own` only. Names stay
apart in all questions that they lead to, and `X` holds of the facts in all of them. -/
def JudgedAlike (own : List String) (X : List Expr → Prop) : QuestionRelation := fun v e w e' =>
  v.refuting = w.refuting ∧
  (∃ π, List.Forall₂ (Twins own π) v.facts w.facts ∧ Twins own π e e' ∧ ∀ z, z ∉ own → π z = z) ∧
  Throughout (fun Γ g => Apart own Γ g ∧ X Γ) v.facts e ∧
  Throughout (fun Γ g => Apart own Γ g ∧ X Γ) w.facts e'

/-- What is looked up about them. -/
def LookedUpAlike (own : List String) (X : List Expr → Prop) : QuestionRelation := fun v e w e' =>
  v.refuting = w.refuting ∧ (∃ π, QuestionsAlike own π v.facts e w.facts e') ∧ X v.facts ∧ X w.facts

section
variable {X : List Expr → Prop}

theorem JudgedAlike.looks (h : JudgedAlike own X v e w e') : LookedUpAlike own X v e w e' := by
  obtain ⟨hrefuting, ⟨π, hfacts, hgoal, hfixed⟩, hleft, hright⟩ := h
  exact ⟨hrefuting, ⟨π, hfacts, hgoal, hfixed, hleft.self.1, hright.self.1⟩, hleft.self.2, hright.self.2⟩

/-- A name that is released is new to the facts on its side, or it is the same on both sides. -/
theorem JudgedAlike.opened (h : JudgedAlike own X v (.bind q x p) w (.bind q x' p'))
    (hq : q = .all ∨ q = .some)
    (hleft : Throughout (fun Γ g => Apart own Γ g ∧ X Γ) v.facts p)
    (hright : Throughout (fun Γ g => Apart own Γ g ∧ X Γ) w.facts p') : JudgedAlike own X v p w p' := by
  obtain ⟨hrefuting, ⟨π, hfacts, hgoal, hfixed⟩, hv, hw⟩ := h
  have hnew {v : View} {x p} (h : Throughout (fun Γ g => Apart own Γ g ∧ X Γ) v.facts (.bind q x p))
      (hx : x ∈ own) : x ∉ freeAll v.facts :=
    h.self.1.released x (by rcases hq with rfl | rfl <;> exact List.mem_cons_self) hx
  have hcases : (x = x' ∧ x ∉ own) ∨ (x ∈ own ∧ x' ∈ own) := by
    rcases hgoal.bound with hsame | ⟨hl, hr⟩
    · cases hsame
      by_cases hx : x ∈ own
      · exact .inr ⟨hx, hx⟩
      · exact .inl ⟨rfl, hx⟩
    · exact .inr ⟨hl.binders x List.mem_cons_self, hr.binders x' List.mem_cons_self⟩
  refine ⟨hrefuting, ⟨sending π x x', ?_, hgoal.opened, fun z hz => ?_⟩, hleft, hright⟩
  · rcases hcases with ⟨rfl, hx⟩ | ⟨hx, hx'⟩
    · rwa [sending_eq (hfixed x hx)]
    · exact twins_send hfacts (hnew hv hx) (hnew hw hx')
  · rcases hcases with ⟨rfl, hx⟩ | ⟨hx, hx'⟩
    · rw [sending_eq (hfixed x hx), hfixed z hz]
    · rw [sending_of_ne, hfixed z hz]
      · rintro rfl
        exact hz hx
      · rw [hfixed z hz]
        rintro rfl
        exact hz hx'

theorem JudgedAlike.stepwise (h : JudgedAlike own X v e w e') :
    Stepwise (JudgedAlike own X) depth v w e e' := by
  obtain ⟨_, ⟨_, hquestions⟩, _⟩ := h.looks
  have hall := h
  obtain ⟨hrefuting, ⟨π, hfacts, hgoal, hfixed⟩, hleft, hright⟩ := h
  have part {a a' : Expr} (ha : Twins own π a a')
      (hl : Throughout (fun Γ g => Apart own Γ g ∧ X Γ) v.facts a)
      (hr : Throughout (fun Γ g => Apart own Γ g ∧ X Γ) w.facts a') : JudgedAlike own X v a w a' :=
    ⟨hrefuting, ⟨π, hfacts, ha, hfixed⟩, hl, hr⟩
  have more {a a' : Expr} (ha : Twins own π a a') :
      List.Forall₂ (Twins own π) (v.facts ++ [a]) (w.facts ++ [a']) :=
    List.rel_append hfacts (.cons ha .nil)
  cases e with
  | binary op l r =>
    obtain ⟨l', r', rfl, hl, hr⟩ := hgoal.binary
    cases op with
    | implies =>
      exact .implies (part hl hleft.2.1 hright.2.1)
        ⟨hrefuting, ⟨π, more hl, hr, hfixed⟩, hleft.2.2, hright.2.2⟩
    | iff => exact .iff (part hl hleft.2.1 hright.2.1) (part hr hleft.2.2 hright.2.2)
    | or => exact .or (part hl hleft.2.1 hright.2.1) (part hr hleft.2.2 hright.2.2)
    | and =>
      obtain ⟨_, hll, hlr, hllr, hlrl⟩ := hleft
      obtain ⟨_, hrl, hrr, hrlr, hrrl⟩ := hright
      exact .and hrefuting (part hl hll hrl) (part hr hlr hrr)
        ⟨rfl, ⟨π, more hl, hr, hfixed⟩, hllr, hrlr⟩ ⟨rfl, ⟨π, more hr, hl, hfixed⟩, hlrl, hrrl⟩
    | equals => exact .equals hquestions.equalByFacts_eq
    | elementOf | subset => exact .atomic rfl rfl
    | _ => exact .object rfl rfl
  | not a =>
    obtain ⟨a', rfl, ha⟩ := hgoal.not
    exact .not (part ha hleft.2 hright.2)
  | bind q x a =>
    obtain ⟨x', a', rfl, _⟩ := hgoal.binder
    cases q with
    | all => exact .all (hall.opened (.inl rfl) hleft.2 hright.2)
    | some => exact .some (hall.opened (.inr rfl) hleft.2 hright.2)
    | those => exact .object rfl rfl
  | var x =>
    rw [alike_var.mp hgoal.alike]
    exact .atomic rfl rfl
  | call f args =>
    obtain ⟨_, rfl, _⟩ := alike_call.mp hgoal.alike
    exact .atomic rfl rfl
  | group k items =>
    obtain ⟨_, rfl, _⟩ := alike_group.mp hgoal.alike
    exact .object rfl rfl

theorem JudgedAlike.simulation {known known' : Expr → Reading Bool}
    (hknown : ∀ {v w e e'}, LookedUpAlike own X v e w e' → SameAnswer own Bool (known e v) (known' e' w)) :
    Simulation (SameAnswer own) (JudgedAlike own X) (LookedUpAlike own X) depth known known' where
  steps := stepwise
  objects := by
    rintro v e w e' ⟨_, ⟨π, _, hgoal, hfixed⟩, _⟩ _
    exact .notAStatement hfixed hgoal.alike
  looks := looks
  denied := by
    rintro v e w e' ⟨hrefuting, ⟨π, h⟩, hX⟩
    exact ⟨hrefuting, ⟨π, h.facts, h.goal.denied, h.fixed, h.left.not, h.right.not⟩, hX⟩
  never := by
    rintro v x a w y a' ⟨hrefuting, ⟨π, h⟩, hX⟩
    exact ⟨hrefuting, ⟨π, h.facts, h.goal.never, h.fixed, h.left.never, h.right.never⟩, hX⟩
  known := hknown

end

-- ---------------------------------------------------------------- facts that are alike

theorem FactsAlike.of_mem (hf : f ∈ Γ) (hf' : f' ∈ Δ) (h : Twins own π f f') :
    FactsAlike own π Γ f Δ f' where
  twins := h
  left := ⟨fun _ hx => mem_bindersAll.mpr ⟨f, hf, hx⟩, fun _ hx => mem_freeAll.mpr ⟨f, hf, hx⟩⟩
  right := ⟨fun _ hx => mem_bindersAll.mpr ⟨f', hf', hx⟩, fun _ hx => mem_freeAll.mpr ⟨f', hf', hx⟩⟩

theorem FactsAlike.binary (h : FactsAlike own π Γ (.binary op l r) Δ f') :
    ∃ l' r', f' = .binary op l' r' ∧ FactsAlike own π Γ l Δ l' ∧ FactsAlike own π Γ r Δ r' := by
  obtain ⟨l', r', rfl, hl, hr⟩ := h.twins.binary
  obtain ⟨_, ⟨hbl, hfl⟩, hbr, hfr⟩ := h
  simp only [binders, free, List.forall_mem_append] at hbl hfl hbr hfr
  exact ⟨l', r', rfl, ⟨hl, ⟨hbl.1, hfl.1⟩, hbr.1, hfr.1⟩, hr, ⟨hbl.2, hfl.2⟩, hbr.2, hfr.2⟩

/-- The premises of two facts lead to questions in which names stay apart. -/
structure PremisesAlike (own : List String) (π : Equiv.Perm String) (Γ : List Expr) (f : Expr)
    (Δ : List Expr) (f' : Expr) : Prop where
  facts : FactsAlike own π Γ f Δ f'
  left : ∀ l ∈ f.premises, Throughout (Apart own) Γ l
  right : ∀ l ∈ f'.premises, Throughout (Apart own) Δ l

/-- A premise is judged in step. -/
structure PremiseAlike (own : List String) (π : Equiv.Perm String) (Γ : List Expr) (l : Expr)
    (Δ : List Expr) (l' : Expr) : Prop where
  twins : Twins own π l l'
  left : Throughout (Apart own) Γ l
  right : Throughout (Apart own) Δ l'

theorem PremisesAlike.leading (h : PremisesAlike own π Γ f Δ f') :
    Leading (fun l l' => PremiseAlike own π Γ l Δ l') (fun f f' => PremisesAlike own π Γ f Δ f') f f' := by
  cases f with
  | binary op l r =>
    obtain ⟨l', r', rfl, hl, hr⟩ := h.facts.binary
    obtain ⟨_, hleft, hright⟩ := h
    cases op with
    | implies =>
      simp only [premises, List.forall_mem_cons] at hleft hright
      exact .implies ⟨hl.twins, hleft.1, hright.1⟩ ⟨hr, hleft.2, hright.2⟩
    | and =>
      simp only [premises, List.forall_mem_append] at hleft hright
      exact .and ⟨hl, hleft.1, hright.1⟩ ⟨hr, hleft.2, hright.2⟩
    | or =>
      simp only [premises, List.forall_mem_cons, List.forall_mem_append] at hleft hright
      exact .or ⟨hl.twins, hleft.1, hright.1⟩ ⟨hr.twins, hleft.2.1, hright.2.1⟩
        ⟨hl, hleft.2.2.1, hright.2.2.1⟩ ⟨hr, hleft.2.2.2, hright.2.2.2⟩
    | iff =>
      simp only [premises, List.forall_mem_cons, List.forall_mem_append] at hleft hright
      exact .iff ⟨hl.twins, hleft.1, hright.1⟩ ⟨hr.twins, hleft.2.1, hright.2.1⟩
        ⟨hl, hleft.2.2.1, hright.2.2.1⟩ ⟨hr, hleft.2.2.2, hright.2.2.2⟩
    | _ => exact .nowhere rfl rfl
  | var x =>
    rw [alike_var.mp h.facts.twins.alike]
    exact .nowhere rfl rfl
  | call k args =>
    obtain ⟨_, rfl, _⟩ := alike_call.mp h.facts.twins.alike
    exact .nowhere rfl rfl
  | not a =>
    obtain ⟨_, rfl, _⟩ := h.facts.twins.not
    exact .nowhere rfl rfl
  | bind q x a =>
    obtain ⟨_, _, rfl, _⟩ := h.facts.twins.binder
    exact .nowhere rfl rfl
  | group k items =>
    obtain ⟨_, rfl, _⟩ := alike_group.mp h.facts.twins.alike
    exact .nowhere rfl rfl

-- ---------------------------------------------------------------- verdicts

/-- Names stay apart in all questions that the premises of the facts lead to. -/
def PremisesApart (own : List String) (Γ : List Expr) : Prop :=
  ∀ f ∈ Γ, ∀ l ∈ f.premises, Throughout (Apart own) Γ l

/-- Names stay apart in all questions that judging the statement leads to, also those about the
premises of facts. -/
def KeepsApart (own : List String) (Γ : List Expr) (e : Expr) : Prop :=
  Throughout (fun Γ g => Apart own Γ g ∧ PremisesApart own Γ) Γ e

namespace Reading

theorem judgeDirectly_alike (h : JudgedAlike own (fun _ => True) v e w e') :
    SameAnswer own Truth (judgeDirectly depth e v) (judgeDirectly depth e' w) := by
  refine (JudgedAlike.simulation ?_).evaluate SameAnswer.lockstep h
  rintro v w e e' ⟨_, ⟨π, hq⟩, _⟩
  refine SameAnswer.lockstep.anyM hq.facts fun f hf f' hf' ht => ?_
  rw [hq.directly_eq (.of_mem hf hf' ht)]
  exact .ok _

theorem judge_alike (h : JudgedAlike own (PremisesApart own) v e w e') :
    SameAnswer own Truth (judge depth e v) (judge depth e' w) := by
  refine (JudgedAlike.simulation ?_).evaluate SameAnswer.lockstep h
  rintro v w e e' ⟨hrefuting, ⟨π, hq⟩, hleft, hright⟩
  refine SameAnswer.lockstep.anyM hq.facts fun f hf f' hf' ht => ?_
  have hplain {Γ : List Expr} {l : Expr} (h : Throughout (Apart own) Γ l) :
      Throughout (fun Γ g => Apart own Γ g ∧ True) Γ l := h.mono fun _ _ h => ⟨h, trivial⟩
  refine provesThrough_simulated SameAnswer.lockstep PremisesAlike.leading
    (fun hf => hq.directly_eq hf.facts) (fun {l l'} hl => ?_)
    ⟨.of_mem hf hf' ht, hleft f hf, hright f' hf'⟩
  exact judgeDirectly_alike ⟨hrefuting, ⟨π, hq.facts, hl.twins, hq.fixed⟩, hplain hl.left, hplain hl.right⟩

end Reading

end

instance : Decidable (Apart own Γ g) :=
  decidable_of_iff ((∀ x ∈ freeAll (g :: Γ), Name.isReserved x = false) ∧
      (∀ x ∈ g.released, x ∈ own → x ∉ freeAll Γ) ∧
      (g.binders = [] ∨ ∀ x ∈ own, x ∈ linkNames Γ → x ∉ bindersAll (g :: Γ)))
    ⟨fun ⟨hp, hr, hl⟩ => ⟨hp, hr, hl⟩, fun h => ⟨h.plain, h.released, h.links⟩⟩

instance : Decidable (PremisesApart own Γ) :=
  inferInstanceAs (Decidable (∀ f ∈ Γ, ∀ l ∈ f.premises, Throughout (Apart own) Γ l))

instance : Decidable (KeepsApart own Γ e) :=
  inferInstanceAs (Decidable (Throughout _ Γ e))

/-- The same statement up to bound names, which nothing else uses, gets two different answers. -/
structure ToldApart (facts : List Expr) (e e' : Expr) : Prop where
  alpha : alphaEq e e' = true
  unused : ∀ x ∈ e.binders ++ e'.binders, x ∉ freeAll (e :: e' :: facts)
  answers : ((judge 2 e).run { facts := { base := facts } }).1 ≠
    ((judge 2 e').run { facts := { base := facts } }).1

end ProofScript
