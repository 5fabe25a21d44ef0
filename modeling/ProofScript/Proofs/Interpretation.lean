import ProofScript.Proofs.CaptureAvoidance

/-!
# What expressions mean

An interpretation gives a meaning to everything but names: two different truth values, what is
applied when something is called, and fixed functions for arithmetic, named operators, relations,
brackets and comprehensions. Connectives, equality and quantifiers have their classical meaning and
denote one of the truth values. A statement holds if it denotes `yes`.

An environment says what a name denotes as an object and, separately, as a function. In a
`Coherent` environment the function is the object, applied; binders always bind a name in this way.
The two come apart only where a function is given by a template.
-/

namespace ProofScript

structure Interpretation (D : Type u) where
  yes : D
  no : D
  yes_ne_no : yes ≠ no
  apply : D → List D → D
  /-- Sums, differences, products, quotients and named operators. -/
  arithmetic : Operator → D → D → D
  /-- Membership and inclusion. -/
  related : Operator → D → D → Prop
  group : Bracket → List D → D
  those : (D → D) → D

structure Env (D : Type u) where
  object : String → D
  function : String → List D → D

/-- The two environments give a name the same meaning. -/
def Env.SameAt (ρ τ : Env D) (x : String) : Prop :=
  ρ.object x = τ.object x ∧ ρ.function x = τ.function x

namespace Interpretation

variable {D : Type u} (I : Interpretation D)

open Classical in
noncomputable def truth (p : Prop) : D := if p then I.yes else I.no

noncomputable def combine : Operator → D → D → D
  | .iff, a, b => I.truth (a = I.yes ↔ b = I.yes)
  | .implies, a, b => I.truth (a = I.yes → b = I.yes)
  | .or, a, b => I.truth (a = I.yes ∨ b = I.yes)
  | .and, a, b => I.truth (a = I.yes ∧ b = I.yes)
  | .equals, a, b => I.truth (a = b)
  | .elementOf, a, b => I.truth (I.related .elementOf a b)
  | .subset, a, b => I.truth (I.related .subset a b)
  | op, a, b => I.arithmetic op a b

noncomputable def quantify : Binder → (D → D) → D
  | .all, F => I.truth (∀ d, F d = I.yes)
  | .some, F => I.truth (∃ d, F d = I.yes)
  | .those, F => I.those F

/-- The environment in which `x` denotes `d`, as an object and, applied, as a function. -/
def bind (ρ : Env D) (x : String) (d : D) : Env D where
  object y := if y = x then d else ρ.object y
  function y := if y = x then I.apply d else ρ.function y

mutual
noncomputable def denote : Expr → Env D → D
  | .var x, ρ => ρ.object x
  | .call f args, ρ => ρ.function f (denoteAll args ρ)
  | .binary op l r, ρ => I.combine op (denote l ρ) (denote r ρ)
  | .not e, ρ => I.truth (denote e ρ ≠ I.yes)
  | .bind b x body, ρ => I.quantify b fun d => denote body (I.bind ρ x d)
  | .group g items, ρ => I.group g (denoteAll items ρ)
noncomputable def denoteAll : List Expr → Env D → List D
  | [], _ => []
  | e :: es, ρ => denote e ρ :: denoteAll es ρ
end

def Holds (ρ : Env D) (e : Expr) : Prop := I.denote e ρ = I.yes

/-- Every name denotes as a function what it denotes as an object, applied. -/
def Coherent (ρ : Env D) : Prop := ∀ x, ρ.function x = I.apply (ρ.object x)

/-- The coherent environment of an assignment of objects to names. -/
def assign (objects : String → D) : Env D where
  object := objects
  function x := I.apply (objects x)

variable {I}

theorem coherent_assign (objects : String → D) : I.Coherent (I.assign objects) := fun _ => rfl

theorem Coherent.eq_assign (h : I.Coherent ρ) : ρ = I.assign ρ.object := by
  obtain ⟨object, function⟩ := ρ
  exact congrArg (Env.mk object) (funext h)

theorem Coherent.bind (h : I.Coherent ρ) (x : String) (d : D) : I.Coherent (I.bind ρ x d) := by
  intro y
  by_cases hy : y = x
  · simp [Interpretation.bind, hy]
  · simp [Interpretation.bind, hy, h y]

-- ---------------------------------------------------------------- statements

@[simp] theorem truth_eq_yes : I.truth p = I.yes ↔ p := by
  unfold truth
  split
  · simp_all
  · exact ⟨fun h => absurd h.symm I.yes_ne_no, fun h => by contradiction⟩

@[simp] theorem holds_not : I.Holds ρ (.not e) ↔ ¬I.Holds ρ e := truth_eq_yes

@[simp] theorem holds_iff : I.Holds ρ (.binary .iff l r) ↔ (I.Holds ρ l ↔ I.Holds ρ r) :=
  truth_eq_yes

@[simp] theorem holds_implies :
    I.Holds ρ (.binary .implies l r) ↔ (I.Holds ρ l → I.Holds ρ r) :=
  truth_eq_yes

@[simp] theorem holds_or : I.Holds ρ (.binary .or l r) ↔ I.Holds ρ l ∨ I.Holds ρ r :=
  truth_eq_yes

@[simp] theorem holds_and : I.Holds ρ (.binary .and l r) ↔ I.Holds ρ l ∧ I.Holds ρ r :=
  truth_eq_yes

@[simp] theorem holds_equals : I.Holds ρ (.binary .equals l r) ↔ I.denote l ρ = I.denote r ρ :=
  truth_eq_yes

@[simp] theorem holds_all :
    I.Holds ρ (.bind .all x body) ↔ ∀ d, I.Holds (I.bind ρ x d) body :=
  truth_eq_yes

@[simp] theorem holds_some :
    I.Holds ρ (.bind .some x body) ↔ ∃ d, I.Holds (I.bind ρ x d) body :=
  truth_eq_yes

theorem denoteAll_eq_map : I.denoteAll es ρ = es.map (I.denote · ρ) := by
  induction es with
  | nil => rfl
  | cons e es ih => simp [denoteAll, ih]

-- ---------------------------------------------------------------- environments

theorem sameAt_bind_ne (ρ : Env D) (d : D) (h : y ≠ x) : (I.bind ρ x d).SameAt ρ y := by
  simp [Env.SameAt, bind, h]

/-- Only the objects that the free names denote matter, and the functions that those in function
position denote. -/
theorem denote_congr_functions (hobject : ∀ x ∈ e.free, ρ.object x = τ.object x)
    (hfunction : ∀ f ∈ e.functions, ρ.function f = τ.function f) : I.denote e ρ = I.denote e τ := by
  induction e using Expr.induction generalizing ρ τ with
  | var x => exact hobject x (by simp [Expr.free])
  | call f args ih =>
    have hargs : args.map (I.denote · ρ) = args.map (I.denote · τ) :=
      List.map_congr_left fun a ha => ih a ha
        (fun x hx => hobject x (List.mem_cons_of_mem _ (Expr.mem_freeAll.mpr ⟨a, ha, hx⟩)))
        (fun g hg => hfunction g (List.mem_cons_of_mem _ (Expr.mem_functionsAll.mpr ⟨a, ha, hg⟩)))
    simp only [denote, denoteAll_eq_map, hargs, hfunction f (by simp [Expr.functions])]
  | binary op l r ihl ihr =>
    simp only [Expr.free, Expr.functions, List.mem_append] at hobject hfunction
    simp only [denote]
    rw [ihl (fun x hx => hobject x (.inl hx)) fun f hf => hfunction f (.inl hf),
      ihr (fun x hx => hobject x (.inr hx)) fun f hf => hfunction f (.inr hf)]
  | not e ih =>
    simp only [denote]
    rw [ih hobject hfunction]
  | bind b x body ih =>
    simp only [denote]
    congr 1
    funext d
    refine ih (fun y hy => ?_) (fun f hf => ?_)
    · by_cases hyx : y = x
      · simp [bind, hyx]
      · simpa [bind, hyx] using hobject y (Expr.mem_free_bind.mpr ⟨hy, hyx⟩)
    · by_cases hfx : f = x
      · simp [bind, hfx]
      · simpa [bind, hfx] using hfunction f (Expr.mem_functions_bind.mpr ⟨hf, hfx⟩)
  | group g items ih =>
    have hitems : items.map (I.denote · ρ) = items.map (I.denote · τ) :=
      List.map_congr_left fun a ha => ih a ha
        (fun x hx => hobject x (Expr.mem_freeAll.mpr ⟨a, ha, hx⟩))
        (fun f hf => hfunction f (Expr.mem_functionsAll.mpr ⟨a, ha, hf⟩))
    simp only [denote, denoteAll_eq_map, hitems]

/-- Only the meaning of the free names matters. -/
theorem denote_congr (h : ∀ x ∈ e.free, ρ.SameAt τ x) : I.denote e ρ = I.denote e τ :=
  denote_congr_functions (fun x hx => (h x hx).1) fun f hf => (h f (Expr.free_of_functions hf)).2

theorem denote_bind_of_not_free (h : x ∉ e.free) (ρ : Env D) (d : D) :
    I.denote e (I.bind ρ x d) = I.denote e ρ :=
  denote_congr fun _ hy => sameAt_bind_ne ρ d fun hyx => h (hyx ▸ hy)

theorem holds_bind_of_not_free (h : x ∉ e.free) (ρ : Env D) (d : D) :
    I.Holds (I.bind ρ x d) e ↔ I.Holds ρ e := by
  simp [Holds, denote_bind_of_not_free h]

-- ---------------------------------------------------------------- substitution

variable (I) in
/-- The environment in which an expression means what its instance means in `ρ`. A name with a
template denotes the function `Φ` gives for the template. A call of a name that is replaced by what
is not a name has no instance, so any function would do for that name. -/
noncomputable def before (ts : NameMap Expr) (Φ : Expr → Env D → List D → D) (σ : Substitution)
    (ρ : Env D) : Env D where
  object x := I.denote ((σ.find? x).getD (.var x)) ρ
  function f := match ts.find? f with
    | some t => Φ t ρ
    | none => match σ.find? f with
      | some (.var g) => ρ.function g
      | some e => I.apply (I.denote e ρ)
      | none => ρ.function f

theorem coherent_before (h : I.Coherent ρ) (Φ : Expr → Env D → List D → D) (σ : Substitution) :
    I.Coherent (I.before ∅ Φ σ ρ) := by
  intro x
  simp only [before, NameMap.find?_empty]
  cases σ.find? x with
  | none => exact h x
  | some e =>
    cases e with
    | var g => exact h g
    | _ => rfl

theorem before_function_of_head (ht : NameMap.find? ts f = none) (hg : Expr.headName σ f = .ok g) :
    (I.before ts Φ σ ρ).function f = ρ.function g := by
  unfold Expr.headName at hg
  split at hg <;> cases hg <;> simp_all [before]

/-- Under a binder with a fresh name, what is said of the inner substitution is said of the outer
one with the binder's own name bound. -/
theorem sameAt_before_under (hx : NameMap.find? ts x = none)
    (hΦ : ∀ t ∈ ts.values, Φ t (I.bind ρ y d) = Φ t ρ)
    (hvalues : y ∉ Expr.freeAll σ.values) (hz : z ≠ y) :
    (I.before ts Φ (σ.insert x (.var y)) (I.bind ρ y d)).SameAt
      (I.bind (I.before ts Φ σ ρ) x d) z := by
  by_cases hzx : z = x
  · subst hzx
    simp [Env.SameAt, before, bind, hx, NameMap.find?_insert_self, denote]
  have hvalue (r) (hr : σ.find? z = some r) : y ∉ r.free := fun hy =>
    hvalues (Expr.mem_freeAll.mpr ⟨r, NameMap.mem_values hr, hy⟩)
  constructor
  · simp only [before, bind, hzx, if_false, NameMap.find?_insert_ne _ _ hzx]
    cases hr : σ.find? z with
    | none => simp [denote, hz]
    | some r => exact denote_bind_of_not_free (hvalue r hr) ρ d
  · simp only [before, bind, hzx, if_false, NameMap.find?_insert_ne _ _ hzx]
    cases ht : ts.find? z with
    | some t => exact hΦ t (NameMap.mem_values ht)
    | none =>
      cases hr : σ.find? z with
      | none => simp [hz]
      | some r =>
        have hy := hvalue r hr
        cases r with
        | var g =>
          have hg : g ≠ y := fun h => hy (by simp [Expr.free, h])
          simp [hg]
        | _ => exact congrArg I.apply (denote_bind_of_not_free hy ρ d)

/-- The binders of `e` leave the templates alone: none binds a template's name, and the names they
are given are not mentioned by a template. -/
def Spares (I : Interpretation D) (Φ : Expr → Env D → List D → D) (ts : NameMap Expr) (e : Expr) :
    Prop :=
  ∀ x ∈ e.binders, ts.find? x = none ∧
    ∀ taken ρ d, ∀ t ∈ ts.values, Φ t (I.bind ρ (Name.fresh taken x) d) = Φ t ρ

theorem spares_empty : Spares I Φ ∅ e := fun _ _ => ⟨rfl, fun _ _ _ _ ht => absurd ht List.not_mem_nil⟩

theorem Spares.part (h : Spares I Φ ts e) (hsub : ∀ x ∈ a.binders, x ∈ e.binders) :
    Spares I Φ ts a := fun x hx => h x (hsub x hx)

/-- An instance means what the expression means where the replaced names denote their
replacements. -/
theorem denote_replaced
    (hΦ : ∀ t ∈ ts.values, ∀ ρ args r, t.fill args = .ok r →
      I.denote r ρ = Φ t ρ (args.map (I.denote · ρ)))
    (hs : Spares I Φ ts e) (h : e.replaced ts σ = .ok d) (ρ : Env D) :
    I.denote d ρ = I.denote e (I.before ts Φ σ ρ) := by
  induction e using Expr.induction generalizing σ d ρ with
  | var x =>
    cases h
    rfl
  | call f args ih =>
    have hargs {ds} (hds : Expr.replacedAll ts args σ = .ok ds) :
        ds.map (I.denote · ρ) = args.map (I.denote · (I.before ts Φ σ ρ)) :=
      Expr.replacedAll_map hds _ _ fun a ha d hd => ih a ha (hs.part fun x hx => by
        simp only [Expr.binders, Expr.mem_bindersAll]
        exact ⟨a, ha, hx⟩) hd ρ
    cases ht : ts.find? f with
    | some t =>
      obtain ⟨ds, hds, hfill⟩ := (Expr.replaced_template ht).mp h
      rw [hΦ t (NameMap.mem_values ht) ρ ds d hfill, hargs hds]
      simp [denote, denoteAll_eq_map, before, ht]
    | none =>
      obtain ⟨g, hg, ds, hds, rfl⟩ := (Expr.replaced_call ht).mp h
      simp only [denote, denoteAll_eq_map, hargs hds, before_function_of_head ht hg]
  | binary op l r ihl ihr =>
    obtain ⟨l', hl, r', hr, rfl⟩ := Expr.replaced_binary.mp h
    simp only [denote]
    rw [ihl (hs.part fun x hx => by simp [Expr.binders, hx]) hl,
      ihr (hs.part fun x hx => by simp [Expr.binders, hx]) hr]
  | not e ih =>
    obtain ⟨e', he, rfl⟩ := Expr.replaced_not.mp h
    simp only [denote]
    rw [ih (hs.part fun x hx => by simpa [Expr.binders] using hx) he]
  | bind b x body ih =>
    obtain ⟨body', hbody, rfl⟩ := Expr.replaced_bind.mp h
    obtain ⟨hx, hstable⟩ := hs x (by simp [Expr.binders])
    have hfresh := Name.fresh_not_mem (body.free ++ Expr.freeAll σ.values) x
    simp only [List.mem_append, not_or] at hfresh
    simp only [denote]
    congr 1
    funext d
    rw [ih (hs.part fun z hz => by simp [Expr.binders, hz]) hbody]
    exact denote_congr fun z hz => sameAt_before_under hx (hstable _ ρ d) hfresh.2
      fun hzy => hfresh.1 (hzy ▸ hz)
  | group g items ih =>
    obtain ⟨ds, hds, rfl⟩ := Expr.replaced_group.mp h
    have hitems : ds.map (I.denote · ρ) = items.map (I.denote · (I.before ts Φ σ ρ)) :=
      Expr.replacedAll_map hds _ _ fun a ha d hd => ih a ha (hs.part fun x hx => by
        simp only [Expr.binders, Expr.mem_bindersAll]
        exact ⟨a, ha, hx⟩) hd ρ
    simp only [denote, denoteAll_eq_map, hitems]

variable (I) in
/-- The meaning of names that stand for the replacements of `σ`. -/
noncomputable def beforeSubst (σ : Substitution) (ρ : Env D) : Env D :=
  I.before ∅ (fun _ _ _ => I.yes) σ ρ

theorem denote_substitute {e : Expr} (h : e.substitute σ = .ok d) (ρ : Env D) :
    I.denote d ρ = I.denote e (I.beforeSubst σ ρ) :=
  denote_replaced (fun _ ht => absurd ht List.not_mem_nil) spares_empty (Expr.substitute_eq_replaced e σ ▸ h) ρ

/-- Renaming gives the old name the meaning of the new one. -/
theorem denote_rename (e : Expr) (x y : String) (ρ : Env D) :
    I.denote (e.rename x y) ρ = I.denote e
      { object := fun z => if z = x then ρ.object y else ρ.object z
        function := fun z => if z = x then ρ.function y else ρ.function z } := by
  rw [denote_substitute (Expr.substitute_rename e x y)]
  refine denote_congr fun z _ => ?_
  by_cases hz : z = x
  · simp [Env.SameAt, beforeSubst, before, NameMap.find?_singleton, NameMap.find?_empty, hz, denote]
  · simp [Env.SameAt, beforeSubst, before, NameMap.find?_singleton, NameMap.find?_empty, hz, denote]

end Interpretation

end ProofScript
