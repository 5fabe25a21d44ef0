import ProofScript.Proofs.InstanceNames
import ProofScript.Proofs.MisplacedObjects
import ProofScript.Proofs.ParsedNames
import ProofScript.Proofs.References

/-!
# Cited theorems and their arguments

What is known of the sentences of a theorem and of the arguments it is cited with, if the names of the
script resolve and the script can be read. A theorem name is declared once, so a citation tells its
theorem by the name.
-/

namespace ProofScript

-- ---------------------------------------------------------------- what scripts declare

/-- There is a definition of this name. -/
def Script.Defines (script : Script) (x : String) : Prop := ∃ d, .ofDefinition d ∈ script ∧ d.name = x

namespace Script.WellScoped

variable {slots : Nat} {V : Visible} {script : Script}

/-- What becomes visible as an object is defined. -/
theorem objects (h : script.WellScoped slots V) : ∀ x ∈ (script.foldl Visible.after V).objects,
    x ∈ V.objects ∨ (Name.isReserved x = false ∧ script.Defines x) := by
  induction script generalizing V with
  | nil => exact fun x => .inl
  | cons d rest ih =>
    intro x hx
    rcases ih h.2 x hx with hx | ⟨hreserved, c, hc, rfl⟩
    · cases d with
      | ofTheorem t => exact .inl hx
      | ofDefinition c =>
        refine hx.imp_right fun hx => ?_
        obtain rfl := List.mem_singleton.mp hx
        exact ⟨(Definition.WellScoped.fresh h.1).1, c, by simp, rfl⟩
    · exact .inr ⟨hreserved, c, List.mem_cons_of_mem _ hc, rfl⟩

/-- The name of a theorem that is known is not declared again. -/
theorem name_ne (h : script.WellScoped slots V) (hx : V.theorems x = some n) :
    ∀ t, .ofTheorem t ∈ script → t.name ≠ x := by
  induction script generalizing V n with
  | nil => exact nofun
  | cons d rest ih =>
    obtain ⟨hd, hrest⟩ := h
    intro t ht
    rcases List.mem_cons.mp ht with rfl | hmem
    · rintro rfl
      cases (Theorem.WellScoped.name hd).symm.trans hx
    · cases d with
      | ofTheorem u =>
        refine ih (n := if x = u.name then u.parameters.length else n) hrest ?_ t hmem
        simp only [Visible.after, Visible.withTheorem, hx]
        split <;> rfl
      | ofDefinition c => exact ih hrest hx t hmem

theorem name_inj (h : script.WellScoped slots V) (ht : .ofTheorem t ∈ script)
    (hu : .ofTheorem u ∈ script) (hname : t.name = u.name) : t = u := by
  induction script generalizing V with
  | nil => cases ht
  | cons d rest ih =>
    obtain ⟨_, hrest⟩ := h
    have hknown (t : Theorem) : (V.after (.ofTheorem t)).theorems t.name = some t.parameters.length := by
      simp [Visible.after, Visible.withTheorem]
    rcases List.mem_cons.mp ht with rfl | hlater <;> rcases List.mem_cons.mp hu with hu | hu
    · exact (Declaration.ofTheorem.inj hu).symm
    · exact absurd hname.symm (hrest.name_ne (hknown t) u hu)
    · subst hu
      exact absurd hname (hrest.name_ne (hknown u) t hlater)
    · exact ih hrest hlater hu

end Script.WellScoped

/-- In the proof of a declaration no reserved names are visible, if there are none before it. -/
theorem Declaration.WellScoped.unreserved {d : Declaration} {V : Visible} (h : d.WellScoped slots V)
    (hnames : ∀ x ∈ V.objects, Name.isReserved x = false) :
    ∀ x ∈ (V.inside d).objects, Name.isReserved x = false := by
  cases d with
  | ofTheorem t =>
    rintro x (hx | hx)
    · exact hnames x hx
    · exact (Theorem.WellScoped.parameters h x hx).1
  | ofDefinition c =>
    rintro x (hx | hx)
    · exact hnames x hx
    · exact List.mem_singleton.mp hx ▸ (Definition.WellScoped.fresh h).1

-- ---------------------------------------------------------------- sentences and arguments

theorem Expr.WellScoped.operators {e : Expr} (h : e.WellScoped Γ) :
    ∀ x ∈ e.operators, Name.isNumeral x = true ∨ x ∈ Γ ∨ x ∈ e.binders := by
  induction e using Expr.induction generalizing Γ with
  | var y => exact List.forall_mem_nil _
  | call f args ih =>
    intro x hx
    obtain ⟨a, ha, hx⟩ := mem_operatorsAll.mp hx
    refine (ih a ha ((wellScoped_call.mp h).2 a ha) x hx).imp_right (Or.imp_right fun hx => ?_)
    exact mem_bindersAll.mpr ⟨a, ha, hx⟩
  | binary op l r ihl ihr =>
    obtain ⟨hl, hop, hr⟩ := wellScoped_binary.mp h
    intro x hx
    simp only [Expr.operators, List.mem_append, Option.mem_toList] at hx
    rcases hx with hx | hx | hx
    · have hnamed : op = .named x := by
        cases op <;> cases hx
        rfl
      exact (hop x hnamed).imp_right .inl
    · exact (ihl hl x hx).imp_right (Or.imp_right fun hx => List.mem_append_left _ hx)
    · exact (ihr hr x hx).imp_right (Or.imp_right fun hx => List.mem_append_right _ hx)
  | not e ih => exact ih (wellScoped_not.mp h)
  | bind q y body ih =>
    intro x hx
    rcases ih (wellScoped_bind.mp h).2 x hx with hx | (hx | hx) | hx
    · exact .inl hx
    · exact .inr (.inl hx)
    · exact .inr (.inr (List.mem_cons.mpr (.inl (List.mem_singleton.mp hx))))
    · exact .inr (.inr (List.mem_cons_of_mem _ hx))
  | group g items ih =>
    intro x hx
    obtain ⟨a, ha, hx⟩ := mem_operatorsAll.mp hx
    refine (ih a ha (wellScoped_group.mp h a ha) x hx).imp_right (Or.imp_right fun hx => ?_)
    exact mem_bindersAll.mpr ⟨a, ha, hx⟩

/-- A sentence of a theorem uses numerals, definitions and parameters, and binds other names. -/
structure Theorem.States (t : Theorem) (script : Script) (e : Expr) : Prop where
  free : ∀ x ∈ e.free, Name.isNumeral x = true ∨
    (Name.isReserved x = false ∧ (script.Defines x ∨ x ∈ t.parameters))
  operators : ∀ x ∈ e.operators, Name.isNumeral x = true ∨
    (Name.isReserved x = false ∧ (script.Defines x ∨ x ∈ t.parameters ∨ x ∈ e.binders))
  binders : ∀ x ∈ e.binders, Name.isReserved x = false ∧ x ∉ t.parameters

/-- Of the reserved names, an argument uses placeholders, and it binds none. -/
structure Expr.Passable (a : Expr) : Prop where
  free : ∀ x ∈ a.free,
    Name.isNumeral x = true ∨ Name.isPlaceholder x = true ∨ Name.isReserved x = false
  binders : ∀ x ∈ a.binders, Name.isReserved x = false

theorem Name.isPlaceholder_eq_false (h : isNumeral x = true ∨ isReserved x = false) :
    isPlaceholder x = false := by
  unfold isNumeral isReserved at h
  unfold isPlaceholder
  split
  · rename_i hx
    simp [hx] at h
  · rfl

/-- A name that a binder may be renamed to is neither a placeholder nor a name that is passed. -/
theorem Name.fresh_apart (taken : List String) (hx : isNumeral x = false) :
    isPlaceholder (fresh taken x) = false ∧ ∀ a : Expr, a.Passable → fresh taken x ∉ a.free := by
  obtain ⟨hreserved, hnumeral, hplaceholder⟩ := reserved_of_grown (fresh_grown taken x) hx
  refine ⟨hplaceholder, fun a ha hfree => ?_⟩
  rcases ha.free _ hfree with h | h | h
  · exact Bool.noConfusion (hnumeral.symm.trans h)
  · exact Bool.noConfusion (hplaceholder.symm.trans h)
  · exact Bool.noConfusion (hreserved.symm.trans h)

namespace Expr

theorem Passable.follows_clean {a : Expr} (h : a.Passable) (hplain : a.hasPlaceholder = false) :
    a.Follows clean [] where
  objects := fun _ hx => .inr (Bool.eq_false_iff.mpr fun hplaceholder =>
    Bool.noConfusion (hplain.symm.trans (hasPlaceholder_of_objects hx hplaceholder)))
  functions := fun _ _ => .inr trivial
  operators := fun _ _ => trivial
  binders := fun x hx => Name.isPlaceholder_eq_false (.inr (h.binders x hx))

theorem BindsNames.follows_clean {a : Expr} (h : a.BindsNames) : a.Follows clean.ofTemplate [] where
  objects := fun _ _ => .inr id
  functions := fun _ _ => .inr trivial
  operators := fun _ _ => trivial
  binders := fun x hx taken => (Name.fresh_apart taken (h x hx)).1

end Expr

theorem Theorem.States.follows_clean {t : Theorem} {script : Script} (h : t.States script e)
    (hbinds : e.BindsNames) : e.Follows (Expr.clean.before ts σ) [] where
  objects := fun x hx => .inr fun _ => Name.isPlaceholder_eq_false
    ((h.free x (Expr.mem_free_iff.mpr (.inl hx))).imp_right And.left)
  functions := fun _ _ => .inr fun _ _ => trivial
  operators := fun _ _ => trivial
  binders := fun x hx taken => (Name.fresh_apart taken (hbinds x hx)).1

namespace Step

theorem standsIn_of_reason (h : j ∈ reasonsAll steps) :
    ∃ a n e, StandsIn a steps ∧ a.Claims n e (some j) := by
  induction steps using Step.blockInduction with
  | nil => cases h
  | claim n e reason rest ih =>
    rcases List.mem_append.mp h with h | h
    · cases Option.mem_toList.mp h
      exact ⟨_, n, e, .here, .claim⟩
    · obtain ⟨a, n, e, ha, hclaims⟩ := ih h
      exact ⟨a, n, e, .later ha, hclaims⟩
  | choose n x e reason rest ih =>
    rcases List.mem_append.mp h with h | h
    · cases Option.mem_toList.mp h
      exact ⟨_, n, _, .here, .choose⟩
    · obtain ⟨a, n, e, ha, hclaims⟩ := ih h
      exact ⟨a, n, e, .later ha, hclaims⟩
  | cases n c yes no both rest ihyes ihno ihboth ih =>
    simp only [reasonsAll, reasons, List.mem_append] at h
    rcases h with ((h | h) | h) | h
    · obtain ⟨a, n, e, ha, hclaims⟩ := ihyes h
      exact ⟨a, n, e, .yes ha, hclaims⟩
    · obtain ⟨a, n, e, ha, hclaims⟩ := ihno h
      exact ⟨a, n, e, .no ha, hclaims⟩
    · obtain ⟨a, n, e, ha, hclaims⟩ := ihboth h
      exact ⟨a, n, e, .both ha, hclaims⟩
    · obtain ⟨a, n, e, ha, hclaims⟩ := ih h
      exact ⟨a, n, e, .later ha, hclaims⟩
  | check n rest ih | admitted n rest ih =>
    obtain ⟨a, n, e, ha, hclaims⟩ := ih h
    exact ⟨a, n, e, .later ha, hclaims⟩

end Step

theorem Script.instantiates_iff {script : Script} : script.Instantiates t args ↔
    .ofTheorem t ∈ script ∧ ∃ d ∈ script, .instantiation t.name args ∈ Step.reasonsAll d.proof := by
  refine and_congr_right fun _ => exists_congr fun d => and_congr_right fun _ => ?_
  constructor
  · rintro ⟨a, n, e, ha, hclaims⟩
    exact ha.reason_mem hclaims
  · exact Step.standsIn_of_reason

/-- A reference found in a proof instantiates the theorem that is known by its name in the end. -/
theorem Script.instantiates_of_reason {script : Script} (ht : t ∈ script.library.theorems.find? x)
    (h : ∃ d ∈ script, .instantiation x args ∈ Step.reasonsAll d.proof) : script.Instantiates t args := by
  obtain ⟨hmem, rfl⟩ := (library_declaredIn script (List.Subset.refl _)).theorems x t ht
  exact Script.instantiates_iff.mpr ⟨hmem, h⟩

namespace Script.Instantiates

variable {script : Script} {t : Theorem} {args : List Expr}

section
variable (h : script.Instantiates t args) (hresolve : script.resolve settings = .ok ())
include h hresolve

/-- The theorem is well-scoped where it was declared, and only definitions are visible there. -/
theorem declared : ∃ V, t.WellScoped settings.placeholderSlots V ∧
    ∀ x ∈ V.objects, Name.isReserved x = false ∧ script.Defines x := by
  obtain ⟨before, after, rfl⟩ := List.append_of_mem h.1
  obtain ⟨hbefore, ht, _⟩ := Script.wellScoped_append.mp (Script.wellScoped_of_resolve hresolve)
  refine ⟨_, ht, fun x hx => ?_⟩
  obtain ⟨hreserved, d, hd, rfl⟩ := (hbefore.objects x hx).resolve_left id
  exact ⟨hreserved, d, List.mem_append_left _ hd, rfl⟩

theorem distinct : t.parameters.Nodup := by
  obtain ⟨V, ht, _⟩ := h.declared hresolve
  exact ht.distinct

theorem states (hs : s ∈ t.hypothesis :: t.requirements) : t.States script s.expr := by
  obtain ⟨V, ht, hV⟩ := h.declared hresolve
  have hscoped : s.expr.WellScoped (V.withObjects t.parameters).objects := by
    rcases List.mem_cons.mp hs with rfl | hs
    · exact ht.hypothesis
    · exact ht.requirements s hs
  have hnames : ∀ x ∈ (V.withObjects t.parameters).objects,
      Name.isReserved x = false ∧ (script.Defines x ∨ x ∈ t.parameters) := by
    rintro x (hx | hx)
    · exact (hV x hx).imp_right .inl
    · exact ⟨(ht.parameters x hx).1, .inr hx⟩
  have hbinders : ∀ x ∈ s.expr.binders, Name.isReserved x = false ∧ x ∉ t.parameters := by
    intro x hx
    obtain ⟨around, q, body, hpart⟩ := Expr.part_of_binders hx
    obtain ⟨hreserved, hnew⟩ := hscoped.binders hpart
    exact ⟨hreserved, fun hp => hnew (.inl (.inr hp))⟩
  refine ⟨fun x hx => ?_, fun x hx => ?_, hbinders⟩
  · exact (hscoped.usable (Expr.mentions_of_free hx)).imp_right (hnames x)
  · rcases hscoped.operators x hx with hx | hx | hx
    · exact .inl hx
    · exact .inr ((hnames x hx).imp_right (Or.imp_right .inl))
    · exact .inr ⟨(hbinders x hx).1, .inr (.inr hx)⟩

/-- The reference is well-scoped at its place, where no reserved names are visible. -/
theorem cited : ∃ before d after V, script = before ++ d :: after ∧
    V.theorems = (before.foldl Visible.after .nothing).theorems ∧
    (∀ x ∈ V.objects, Name.isReserved x = false) ∧
    (Justification.instantiation t.name args).WellScoped settings.placeholderSlots V := by
  obtain ⟨_, d, hd, hreason⟩ := Script.instantiates_iff.mp h
  obtain ⟨before, after, rfl⟩ := List.append_of_mem hd
  obtain ⟨hbefore, hd, _⟩ := Script.wellScoped_append.mp (Script.wellScoped_of_resolve hresolve)
  obtain ⟨xs, hxs, hscoped⟩ := hd.steps.reasons _ hreason
  have hnames : ∀ x ∈ (before.foldl Visible.after .nothing).objects, Name.isReserved x = false :=
    fun x hx => ((hbefore.objects x hx).resolve_left id).1
  refine ⟨before, d, after, _, rfl, ?_, ?_, hscoped⟩
  · cases d <;> rfl
  · rintro x (hx | hx)
    · exact hd.unreserved hnames x hx
    · exact hxs x hx

theorem passable : ∀ a ∈ args, a.Passable := by
  obtain ⟨_, _, _, V, _, _, hnames, hscoped⟩ := h.cited hresolve
  intro a ha
  refine ⟨hscoped.scoped hnames a ha, fun x hx => ?_⟩
  obtain ⟨around, q, body, hpart⟩ := Expr.part_of_binders hx
  exact ((hscoped.2 a ha).binders hpart).1

theorem length : t.parameters.length = args.length := by
  obtain ⟨before, d, after, V, hsplit, htheorems, _, hscoped⟩ := h.cited hresolve
  have hknown := hscoped.1
  rw [htheorems, (Visible.Matches.library before).theorems] at hknown
  obtain ⟨u, hu, hlength⟩ := Option.map_eq_some_iff.mp hknown
  obtain ⟨hmem, hname⟩ := (library_of_split hsplit).theorems _ u hu
  have hunique := (Script.wellScoped_of_resolve hresolve).name_inj h.1 hmem hname.symm
  rw [hunique, hlength]

end

/-- What a script that can be read passes to a theorem binds no numerals. -/
theorem bindsNames (h : script.Instantiates t args) (hread : Script.parse source = .ok script) :
    (∀ s ∈ t.hypothesis :: t.requirements, s.expr.BindsNames) ∧ ∀ a ∈ args, a.BindsNames := by
  refine ⟨(Script.named_of_parse hread t h.1).statements, ?_⟩
  obtain ⟨_, d, hd, hreason⟩ := Script.instantiates_iff.mp h
  have hnamed := Script.declarations_of_parse hread d hd
  cases d with
  | ofTheorem u => exact (Theorem.Named.toNamedAll hnamed).arguments _ hreason
  | ofDefinition c => exact Step.NamedAll.arguments hnamed _ hreason

end Script.Instantiates

end ProofScript
