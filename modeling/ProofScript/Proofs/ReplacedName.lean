import ProofScript.Proofs.CaptureAvoidance

/-!
# One name replaced

Laws of the replacement of a single free name in a nameless form: it may be renamed before, it brings
the free names of what replaces it and no others, and it may be done before or after a binder of
another name is opened. A name in function position is told apart, since only a name can replace it.
-/

namespace ProofScript

-- ---------------------------------------------------------------- names of functions

namespace Nameless

mutual
/-- The free names that stand in function position. -/
def functions : Nameless → List String
  | var _ => []
  | call f args => f.names ++ functionsAll args
  | binary _ l r => l.functions ++ r.functions
  | not e => e.functions
  | bind _ body => body.functions
  | group _ items => functionsAll items
def functionsAll : List Nameless → List String
  | [] => []
  | e :: es => e.functions ++ functionsAll es
end

theorem mem_functionsAll : f ∈ functionsAll es ↔ ∃ e ∈ es, f ∈ e.functions := by
  induction es with
  | nil => simp [functionsAll]
  | cons e es ih => simp [functionsAll, ih]

theorem mem_functions_map {e : Nameless} : f ∈ (e.map g).functions ↔ ∃ y ∈ e.functions, g y = f := by
  induction e using Nameless.induction with
  | var r => simp [map, functions]
  | call r args ih =>
    have href : f ∈ (r.map g).names ↔ ∃ y ∈ r.names, g y = f := by
      cases r <;> simp [Ref.map, Ref.names, eq_comm]
    simp only [map, functions, mapAll_eq_map, List.mem_append, mem_functionsAll, List.mem_map, href]
    grind
  | binary op l r ihl ihr =>
    simp only [map, functions, List.mem_append, ihl, ihr]
    grind
  | not e ih => simpa [map, functions] using ih
  | bind b body ih => simpa [map, functions] using ih
  | group g items ih =>
    simp only [map, functions, mapAll_eq_map, mem_functionsAll, List.mem_map]
    grind

end Nameless

theorem Expr.mem_functions_nameless {e : Expr} :
    f ∈ (e.nameless context).functions ↔ f ∈ e.functions ∧ f ∉ context := by
  induction e using Expr.induction generalizing context with
  | var y => simp [nameless, Nameless.functions, functions]
  | call g args ih =>
    simp only [nameless, Nameless.functions, functions, namelessAll_eq_map, List.mem_append,
      List.mem_cons, Ref.mem_names_resolve, Nameless.mem_functionsAll, mem_functionsAll, List.mem_map]
    grind
  | binary op l r ihl ihr =>
    simp only [nameless, Nameless.functions, functions, List.mem_append, ihl, ihr]
    grind
  | not e ih => simpa only [nameless, Nameless.functions, functions] using ih
  | bind b y body ih =>
    simp only [nameless, Nameless.functions, mem_functions_bind, ih, List.mem_cons]
    grind
  | group g items ih =>
    simp only [nameless, Nameless.functions, functions, namelessAll_eq_map, Nameless.mem_functionsAll,
      mem_functionsAll, List.mem_map]
    grind

/-- A name that is new to the expression stands where the old one stood. -/
theorem Expr.mem_functions_rename {e : Expr} (hy : y ∉ e.free) :
    y ∈ (e.rename x y).functions ↔ x ∈ e.functions := by
  have h : y ∈ (e.rename x y).functions ↔ y ∈ ((e.rename x y).nameless []).functions := by
    simp [mem_functions_nameless]
  rw [h, nameless_rename, Nameless.mem_functions_map]
  simp only [mem_functions_nameless]
  constructor
  · rintro ⟨z, ⟨hz, _⟩, heq⟩
    by_cases hzx : z = x
    · exact hzx ▸ hz
    · rw [if_neg hzx] at heq
      exact absurd (free_of_functions hz) (heq ▸ hy)
  · exact fun hx => ⟨x, ⟨hx, List.not_mem_nil⟩, if_pos rfl⟩

-- ---------------------------------------------------------------- one name replaced

namespace Nameless

/-- Replaces one free name. -/
def just (x : String) (W : Nameless) : Replacement := fun z => if z = x then some W else none

@[simp] theorem just_self : just x W x = some W := if_pos rfl

theorem just_ne (h : z ≠ x) : just x W z = none := if_neg h

/-- Renaming and then replacing is replacing, where the new names are replaced by what the old ones
are. Functions have to keep their names. -/
theorem replace_map {e : Nameless} (h : ∀ z ∈ e.free, σ (f z) = τ z ∧ (τ z = none → f z = z))
    (hf : ∀ z ∈ e.functions, f z = z) : (e.map f).replace σ = e.replace τ := by
  induction e using Nameless.induction with
  | var r =>
    cases r with
    | bound i => rfl
    | free z =>
      obtain ⟨heq, hnone⟩ := h z (by simp [free, Ref.names])
      simp only [map, Ref.map, replace, heq]
      cases hτ : τ z with
      | none => simp [hnone hτ]
      | some V => rfl
  | call r args ih =>
    simp only [free, functions, List.mem_append, mem_freeAll, mem_functionsAll] at h hf
    have hhead : replaceHead σ (r.map f) = replaceHead τ r := by
      cases r with
      | bound i => rfl
      | free z =>
        have heq := (h z (.inl (by simp [Ref.names]))).1
        rw [hf z (.inl (by simp [Ref.names]))] at heq
        simp only [Ref.map, replaceHead, hf z (.inl (by simp [Ref.names])), heq]
    simp only [map, replace, mapAll_eq_map, replaceAll_eq_map, List.map_map, hhead]
    congr 1
    exact List.map_congr_left fun a ha => ih a ha (fun z hz => h z (.inr ⟨a, ha, hz⟩))
      fun z hz => hf z (.inr ⟨a, ha, hz⟩)
  | binary op l r ihl ihr =>
    simp only [free, functions, List.mem_append] at h hf
    simp only [map, replace, ihl (fun z hz => h z (.inl hz)) fun z hz => hf z (.inl hz),
      ihr (fun z hz => h z (.inr hz)) fun z hz => hf z (.inr hz)]
  | not e ih => simp only [map, replace, ih h hf]
  | bind b body ih => simp only [map, replace, ih h hf]
  | group g items ih =>
    simp only [free, functions, mem_freeAll, mem_functionsAll] at h hf
    simp only [map, replace, mapAll_eq_map, replaceAll_eq_map, List.map_map]
    congr 1
    exact List.map_congr_left fun a ha => ih a ha (fun z hz => h z ⟨a, ha, hz⟩)
      fun z hz => hf z ⟨a, ha, hz⟩

/-- The name may be exchanged for one that is not used. -/
theorem replace_just_map {e : Nameless} (hy : y ∉ e.free) (hx : x ∉ e.functions) :
    (e.map fun z => if z = x then y else z).replace (just y W) = e.replace (just x W) := by
  refine replace_map (fun z hz => ?_) fun z hz => if_neg fun (h : z = x) => hx (h ▸ hz)
  by_cases hzx : z = x
  · simp [hzx]
  · have hzy : z ≠ y := fun h => hy (h ▸ hz)
    simp [hzx, just_ne hzx, just_ne hzy]

theorem replace_just_of_not_free {e : Nameless} (hx : x ∉ e.free) : e.replace (just x W) = e := by
  have h : (e.map fun z => z).replace (just x W) = e.replace fun _ => none :=
    replace_map (fun z hz => ⟨just_ne fun h => hx (h ▸ hz), fun _ => rfl⟩) fun _ _ => rfl
  rw [map_id] at h
  exact h.trans ((replace_names (fun _ => none) e).trans (map_id e))

/-- What replaces a name brings its own free names and no other. -/
theorem mem_free_replace_just {e : Nameless} (h : z ∈ (e.replace (just x W)).free) :
    z ∈ e.free ∨ z ∈ W.free := by
  have href (r : Ref) (h : z ∈ (replaceHead (just x W) r).names) : z ∈ r.names ∨ z ∈ W.free := by
    cases r with
    | bound i => exact .inl h
    | free y =>
      by_cases hy : y = x
      · subst hy
        cases W <;> simp_all [replaceHead, free]
      · exact .inl (by simpa [replaceHead, just_ne hy] using h)
  induction e using Nameless.induction with
  | var r =>
    cases r with
    | bound i => exact .inl h
    | free y =>
      by_cases hy : y = x
      · subst hy
        exact .inr (by simpa [replace] using h)
      · exact .inl (by simpa [replace, just_ne hy] using h)
  | call r args ih =>
    simp only [replace, free, replaceAll_eq_map, List.mem_append, mem_freeAll, List.mem_map] at h ⊢
    grind
  | binary op l r ihl ihr =>
    simp only [replace, free, List.mem_append] at h ⊢
    grind
  | not e ih => exact ih h
  | bind b body ih => exact ih h
  | group g items ih =>
    simp only [replace, free, replaceAll_eq_map, mem_freeAll, List.mem_map] at h ⊢
    grind

/-- An object that is replaced brings all free names of what replaces it. -/
theorem mem_free_replace_of_mem {e : Nameless} (hx : x ∈ e.free) (hf : x ∉ e.functions)
    (hz : z ∈ W.free) : z ∈ (e.replace (just x W)).free := by
  induction e using Nameless.induction with
  | var r =>
    cases r with
    | bound i => cases hx
    | free y =>
      obtain rfl := List.mem_singleton.mp hx
      simpa [replace] using hz
  | call r args ih =>
    simp only [free, functions, List.mem_append, mem_freeAll, mem_functionsAll, not_or] at hx hf
    obtain ⟨a, ha, hxa⟩ := hx.resolve_left hf.1
    simp only [replace, free, replaceAll_eq_map, List.mem_append, mem_freeAll, List.mem_map]
    exact .inr ⟨_, ⟨a, ha, rfl⟩, ih a ha hxa fun h => hf.2 ⟨a, ha, h⟩⟩
  | binary op l r ihl ihr =>
    simp only [functions, List.mem_append, not_or] at hf
    simp only [replace, free, List.mem_append]
    exact (List.mem_append.mp hx).imp (fun hx => ihl hx hf.1) fun hx => ihr hx hf.2
  | not e ih => exact ih hx hf
  | bind b body ih => exact ih hx hf
  | group g items ih =>
    simp only [free, functions, mem_freeAll, mem_functionsAll] at hx hf
    obtain ⟨a, ha, hxa⟩ := hx
    simp only [replace, free, replaceAll_eq_map, mem_freeAll, List.mem_map]
    exact ⟨_, ⟨a, ha, rfl⟩, ih a ha hxa fun h => hf ⟨a, ha, h⟩⟩

/-- Replacing a name does not care whether a binder of another name is open. -/
theorem opened_replace_just {e : Nameless} (hne : y ≠ x) (hW : ∀ k, W.opened k y = W) :
    (e.replace (just x W)).opened k y = (e.opened k y).replace (just x W) := by
  have hhead (r : Ref) (k : Nat) :
      (replaceHead (just x W) r).opened k y = replaceHead (just x W) (r.opened k y) := by
    cases r with
    | bound i => by_cases hi : i = k <;> simp [replaceHead, Ref.opened, hi, just_ne hne]
    | free z =>
      by_cases hz : z = x
      · subst hz
        cases W with
        | var r => simpa [replaceHead, Ref.opened, opened] using hW k
        | _ => simp [replaceHead, Ref.opened]
      · simp [replaceHead, Ref.opened, just_ne hz]
  induction e using Nameless.induction generalizing k with
  | var r =>
    cases r with
    | bound i => by_cases hi : i = k <;> simp [replace, opened, Ref.opened, hi, just_ne hne]
    | free z =>
      by_cases hz : z = x
      · subst hz
        simp [replace, opened, Ref.opened, hW]
      · simp [replace, opened, Ref.opened, just_ne hz]
  | call r args ih =>
    simp only [replace, opened, replaceAll_eq_map, openedAll_eq_map, hhead, List.map_map]
    congr 1
    exact List.map_congr_left fun a ha => ih a ha
  | binary op l r ihl ihr => simp only [replace, opened, ihl, ihr]
  | not e ih => simp only [replace, opened, ih]
  | bind b body ih => simp only [replace, opened, ih]
  | group g items ih =>
    simp only [replace, opened, replaceAll_eq_map, openedAll_eq_map, List.map_map]
    congr 1
    exact List.map_congr_left fun a ha => ih a ha

end Nameless

theorem Ref.lt_of_resolve (h : resolve context x = bound i) : i < context.length := by
  induction context generalizing i with
  | nil => cases h
  | cons y context ih =>
    by_cases hx : x = y
    · subst hx
      rw [resolve_cons_self] at h
      cases h
      exact Nat.zero_lt_succ _
    · rw [resolve_cons_ne hx] at h
      cases hr : resolve context x with
      | bound j =>
        rw [hr] at h
        cases h
        exact Nat.succ_lt_succ (ih hr)
      | free z =>
        rw [hr] at h
        cases h

/-- No binder outside the context can be opened. -/
theorem Expr.nameless_opened_of_le (e : Expr) (h : context.length ≤ k) :
    (e.nameless context).opened k x = e.nameless context := by
  have href (context : List String) (k : Nat) (h : context.length ≤ k) (z : String) :
      (Ref.resolve context z).opened k x = Ref.resolve context z := by
    cases hr : Ref.resolve context z with
    | bound i =>
      have hi := Ref.lt_of_resolve hr
      exact if_neg (by omega)
    | free y => rfl
  induction e using Expr.induction generalizing context k with
  | var z => simp only [nameless, Nameless.opened, href context k h]
  | call f args ih =>
    simp only [nameless, namelessAll_eq_map, Nameless.opened, Nameless.openedAll_eq_map,
      href context k h, List.map_map]
    congr 1
    exact List.map_congr_left fun a ha => ih a ha h
  | binary op l r ihl ihr => simp only [nameless, Nameless.opened, ihl h, ihr h]
  | not e ih => simp only [nameless, Nameless.opened, ih h]
  | bind b y body ih =>
    have hunder : (y :: context).length ≤ k + 1 := Nat.succ_le_succ h
    simp only [nameless, Nameless.opened, ih hunder]
  | group g items ih =>
    simp only [nameless, namelessAll_eq_map, Nameless.opened, Nameless.openedAll_eq_map, List.map_map]
    congr 1
    exact List.map_congr_left fun a ha => ih a ha h

/-- The expression in the place of one name, as a substitution of nameless forms. -/
theorem Expr.forms_singleton (x : String) (t : Expr) :
    Substitution.forms (.ofList [(x, t)]) = Nameless.just x (t.nameless []) := by
  funext z
  by_cases hz : z = x <;> simp [Substitution.forms, NameMap.find?_singleton, Nameless.just, hz]

end ProofScript
