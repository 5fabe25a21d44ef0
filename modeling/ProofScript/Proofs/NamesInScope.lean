import ProofScript.Proofs.ProofSteps
import ProofScript.Proofs.WellScoped

/-!
# Names of resolved scripts

Where the names of a script resolve, statements use names in scope and numerals only, and every name
that is introduced is new at its place and not reserved. So neither the objects that a proof chooses
nor the parameters of a theorem appear in what was stated without them.
-/

namespace ProofScript

-- ---------------------------------------------------------------- what is in scope

/-- Free names are in scope or numerals, and binders introduce new names. -/
structure Expr.Scoped (names : List String) (e : Expr) : Prop where
  free : ∀ x ∈ e.free, Name.isNumeral x = true ∨ x ∈ names
  binders : ∀ x ∈ e.binders, Name.isReserved x = false ∧ x ∉ names

/-- Of the reserved names, an argument uses placeholders only. -/
def Justification.Scoped (j : Justification) : Prop :=
  ∀ a ∈ j.args, ∀ x ∈ a.free,
    Name.isNumeral x = true ∨ Name.isPlaceholder x = true ∨ Name.isReserved x = false

/-- The objects of a theorem are new, and its statements speak of nothing else that is new. -/
structure Theorem.Scoped (names : List String) (t : Theorem) : Prop where
  parameters : ∀ p ∈ t.parameters, p ∉ names
  statements : ∀ s ∈ t.hypothesis :: t.requirements, s.expr.Scoped (names ++ t.parameters)
  chosen : ∀ x ∈ Step.chosenAll t.proof, x ∉ names ++ t.parameters
  reasons : ∀ j ∈ Step.reasonsAll t.proof, j.Scoped

/-- The declarations are in scope, one after the other. The name of a definition stays. -/
def Script.Scoped : List String → Script → Prop
  | _, [] => True
  | names, .ofTheorem t :: rest => t.Scoped names ∧ Script.Scoped names rest
  | names, .ofDefinition d :: rest =>
    (∀ r ∈ d.rules, r.expr.Scoped (names ++ [d.name])) ∧ Script.Scoped (names ++ [d.name]) rest

-- ---------------------------------------------------------------- expressions

namespace Expr

/-- The name occurs, as a variable, as a function or as an operator, outside the binders of that
name. -/
def Mentions (e : Expr) (x : String) : Prop :=
  ∃ around d, e.Part around d ∧ d.used? = some x ∧ x ∉ around

theorem mentions_of_free {e : Expr} (h : x ∈ e.free) : e.Mentions x := by
  induction e using Expr.induction with
  | var y =>
    obtain rfl := List.mem_singleton.mp h
    exact ⟨[], _, .self, rfl, List.not_mem_nil⟩
  | call f args ih =>
    rcases List.mem_cons.mp h with rfl | h
    · exact ⟨[], _, .self, rfl, List.not_mem_nil⟩
    · obtain ⟨a, ha, h⟩ := mem_freeAll.mp h
      obtain ⟨around, d, hd, hx⟩ := ih a ha h
      exact ⟨around, d, .argument ha hd, hx⟩
  | binary op l r ihl ihr =>
    rcases List.mem_append.mp h with h | h
    · obtain ⟨around, d, hd, hx⟩ := ihl h
      exact ⟨around, d, .left hd, hx⟩
    · obtain ⟨around, d, hd, hx⟩ := ihr h
      exact ⟨around, d, .right hd, hx⟩
  | not e ih =>
    obtain ⟨around, d, hd, hx⟩ := ih h
    exact ⟨around, d, .inner hd, hx⟩
  | bind q y body ih =>
    obtain ⟨h, hne⟩ := mem_free_bind.mp h
    obtain ⟨around, d, hd, hx, hbound⟩ := ih h
    exact ⟨y :: around, d, .body hd, hx, by simp [hne, hbound]⟩
  | group g items ih =>
    obtain ⟨a, ha, h⟩ := mem_freeAll.mp h
    obtain ⟨around, d, hd, hx⟩ := ih a ha h
    exact ⟨around, d, .item ha hd, hx⟩

theorem part_of_binders {e : Expr} (h : x ∈ e.binders) :
    ∃ around q body, e.Part around (.bind q x body) := by
  induction e using Expr.induction with
  | var y => cases h
  | call f args ih =>
    obtain ⟨a, ha, h⟩ := mem_bindersAll.mp h
    obtain ⟨around, q, body, hd⟩ := ih a ha h
    exact ⟨around, q, body, .argument ha hd⟩
  | binary op l r ihl ihr =>
    rcases List.mem_append.mp h with h | h
    · obtain ⟨around, q, body, hd⟩ := ihl h
      exact ⟨around, q, body, .left hd⟩
    · obtain ⟨around, q, body, hd⟩ := ihr h
      exact ⟨around, q, body, .right hd⟩
  | not e ih =>
    obtain ⟨around, q, body, hd⟩ := ih h
    exact ⟨around, q, body, .inner hd⟩
  | bind q y body ih =>
    rcases List.mem_cons.mp h with rfl | h
    · exact ⟨[], q, body, .self⟩
    · obtain ⟨around, q, body, hd⟩ := ih h
      exact ⟨y :: around, q, body, .body hd⟩
  | group g items ih =>
    obtain ⟨a, ha, h⟩ := mem_bindersAll.mp h
    obtain ⟨around, q, body, hd⟩ := ih a ha h
    exact ⟨around, q, body, .item ha hd⟩

theorem WellScoped.usable {e : Expr} (h : e.WellScoped Γ) (hx : e.Mentions x) : Usable Γ x := by
  obtain ⟨around, d, hd, hused, hbound⟩ := hx
  exact (h.uses hd hused).imp_right fun hmem => hmem.resolve_right hbound

theorem WellScoped.scoped {names : List String} {e : Expr} (h : e.WellScoped Γ)
    (hΓ : Γ = {x | x ∈ names}) : e.Scoped names := by
  subst hΓ
  refine ⟨fun x hx => h.usable (mentions_of_free hx), fun x hx => ?_⟩
  obtain ⟨around, q, body, hd⟩ := part_of_binders hx
  exact ⟨(h.binders hd).1, fun hmem => (h.binders hd).2 (.inl hmem)⟩

end Expr

-- ---------------------------------------------------------------- steps

theorem Visible.withObjects_nil (V : Visible) : V.withObjects [] = V := by
  simp [withObjects]

theorem Visible.withObjects_append (V : Visible) (xs ys : List String) :
    (V.withObjects xs).withObjects ys = V.withObjects (xs ++ ys) := by
  simp only [withObjects, List.mem_append, Set.union_assoc]
  rfl

namespace Step.WellScopedAll

variable {slots : Nat} {V : Visible}

/-- What steps choose is new. -/
theorem chosen (h : WellScopedAll slots V steps) : ∀ x ∈ chosenAll steps, x ∉ V.objects := by
  induction h with
  | nil => exact List.forall_mem_nil _
  | claim _ _ _ ih | check _ ih | admitted _ ih => exact ih
  | choose hx _ _ _ ih => exact List.forall_mem_cons.mpr ⟨hx.2, fun y hy hmem => ih y hy (.inl hmem)⟩
  | cases _ _ _ _ _ ihyes ihno ihboth ih =>
    simp only [chosenAll, Step.chosen, List.forall_mem_append]
    exact ⟨⟨⟨ihyes, ihno⟩, ihboth⟩, ih⟩

/-- The reasons of steps are well-scoped with what has been chosen at their place. -/
theorem reasons (h : WellScopedAll slots V steps) : ∀ j ∈ reasonsAll steps,
    ∃ xs, (∀ x ∈ xs, Name.isReserved x = false) ∧ j.WellScoped slots (V.withObjects xs) := by
  induction h with
  | nil => exact List.forall_mem_nil _
  | claim _ hreason _ ih =>
    refine List.forall_mem_append.mpr ⟨fun j hj => ⟨[], List.forall_mem_nil _, ?_⟩, ih⟩
    exact (Visible.withObjects_nil _).symm ▸ hreason j (Option.mem_toList.mp hj)
  | choose hx _ hreason _ ih =>
    refine List.forall_mem_append.mpr ⟨fun j hj => ?_, fun j hj => ?_⟩
    · exact ⟨_, List.forall_mem_singleton.mpr hx.1, hreason j (Option.mem_toList.mp hj)⟩
    · obtain ⟨xs, hxs, hscoped⟩ := ih j hj
      refine ⟨_, List.forall_mem_cons.mpr ⟨hx.1, hxs⟩, ?_⟩
      exact Visible.withObjects_append _ [_] xs ▸ hscoped
  | cases _ _ _ _ _ ihyes ihno ihboth ih =>
    simp only [reasonsAll, Step.reasons, List.forall_mem_append]
    exact ⟨⟨⟨ihyes, ihno⟩, ihboth⟩, ih⟩
  | check _ ih | admitted _ ih => exact ih

end Step.WellScopedAll

/-- Of the reserved names, a reason uses placeholders only. -/
theorem Justification.WellScoped.scoped {j : Justification} {V : Visible} (h : j.WellScoped slots V)
    (hnames : ∀ x ∈ V.objects, Name.isReserved x = false) : j.Scoped := by
  cases j with
  | admitted | definition x => exact List.forall_mem_nil _
  | instantiation x args =>
    intro a ha y hy
    rcases (h.2 a ha).usable (Expr.mentions_of_free hy) with hy | hy | hy
    · exact .inl hy
    · exact .inr (.inr (hnames y hy))
    · obtain ⟨i, _, rfl⟩ := List.mem_map.mp hy
      exact .inr (.inl (Name.isPlaceholder_placeholder i))

-- ---------------------------------------------------------------- declarations

/-- The names of a list are what is visible as an object. -/
theorem Visible.objects_withObjects {V : Visible} (hV : V.objects = {x | x ∈ names}) (xs : List String) :
    (V.withObjects xs).objects = {x | x ∈ names ++ xs} := by
  ext x
  simp [withObjects, hV]

theorem Theorem.WellScoped.scoped {t : Theorem} {V : Visible} (h : t.WellScoped slots V)
    (hV : V.objects = {x | x ∈ names}) (hnames : ∀ x ∈ names, Name.isReserved x = false) : t.Scoped names := by
  have hobjects := Visible.objects_withObjects hV t.parameters
  have hfresh : ∀ p ∈ t.parameters, Name.isReserved p = false ∧ p ∉ names := by
    simpa [Fresh, hV] using h.parameters
  have hchosen := h.proof.chosen
  rw [hobjects] at hchosen
  exact {
    parameters := fun p hp => (hfresh p hp).2
    statements := List.forall_mem_cons.mpr
      ⟨h.hypothesis.scoped hobjects, fun s hs => (h.requirements s hs).scoped hobjects⟩
    chosen := hchosen
    reasons := fun j hj => by
      obtain ⟨xs, hxs, hj⟩ := h.proof.reasons j hj
      refine hj.scoped ?_
      rw [Visible.objects_withObjects hobjects]
      exact List.forall_mem_append.mpr
        ⟨List.forall_mem_append.mpr ⟨hnames, fun p hp => (hfresh p hp).1⟩, hxs⟩ }

theorem Script.WellScoped.scoped {script : Script} {V : Visible} (h : script.WellScoped slots V)
    (hV : V.objects = {x | x ∈ names}) (hnames : ∀ x ∈ names, Name.isReserved x = false) :
    script.Scoped names := by
  induction script generalizing V names with
  | nil => trivial
  | cons d rest ih =>
    cases d with
    | ofTheorem t => exact ⟨h.1.scoped hV hnames, ih h.2 hV hnames⟩
    | ofDefinition d =>
      have hobjects := Visible.objects_withObjects hV [d.name]
      refine ⟨fun r hr => (h.1.rules r hr).scoped hobjects, ih h.2 hobjects ?_⟩
      exact List.forall_mem_append.mpr ⟨hnames, List.forall_mem_singleton.mpr h.1.fresh.1⟩

/-- A script whose names resolve is in scope from the first declaration on. -/
theorem Script.scoped_of_resolve (h : Script.resolve script settings = .ok ()) :
    script.Scoped [] :=
  (Script.wellScoped_of_resolve h).scoped (by simp [Visible.nothing]) (List.forall_mem_nil _)

end ProofScript
