import ProofScript.Proofs.Agreement
import ProofScript.Proofs.CaptureAvoidance
import ProofScript.Proofs.Tandem

/-!
# Expressions in other names

Every name of an expression is exchanged for another one: those of variables, functions, operators and
binders. New names are made by putting underscores in front of old ones, and placeholders are told by
their form. An exchange that keeps names apart and respects both of these commutes with everything that
is done with expressions. This module goes up to substitution and the instances of theorems.
-/

namespace ProofScript

-- ---------------------------------------------------------------- exchanges of names

/-- Names stay apart, underscores in front stay where they are, and so do placeholders. -/
structure Name.Equivariant (f : String → String) : Prop where
  injective : f x = f y → x = y
  underscore : f ("_" ++ x) = "_" ++ f x
  placeholder : Name.isPlaceholder x = true → f x = x

namespace Name.Equivariant

variable {f : String → String} (hf : Equivariant f)
include hf

theorem eq_iff : f x = f y ↔ x = y := ⟨hf.injective, congrArg f⟩

theorem mem_map {xs : List String} : f x ∈ xs.map f ↔ x ∈ xs := by
  simp [hf.eq_iff]

theorem isPlaceholder : Name.isPlaceholder (f x) = Name.isPlaceholder x := by
  rw [Bool.eq_iff_iff]
  constructor
  · intro h
    rwa [hf.injective (hf.placeholder h)] at h
  · intro h
    rwa [hf.placeholder h]

theorem untaken (taken : List String) (n : Nat) (x : String) :
    Name.untaken (taken.map f) n (f x) = f (Name.untaken taken n x) := by
  induction n generalizing x with
  | zero => rfl
  | succ n ih =>
    simp only [Name.untaken, List.contains_iff_mem, hf.mem_map]
    split
    · rw [← hf.underscore, ih]
    · rfl

theorem fresh (taken : List String) (x : String) :
    Name.fresh (taken.map f) (f x) = f (Name.fresh taken x) := by
  unfold Name.fresh
  rw [← hf.underscore, List.length_map, hf.untaken]

end Name.Equivariant

-- ---------------------------------------------------------------- expressions

def Operator.relabel (f : String → String) : Operator → Operator
  | named x => named (f x)
  | op => op

namespace Expr

mutual
/-- The expression with every name exchanged. -/
def relabel (f : String → String) : Expr → Expr
  | var x => var (f x)
  | call g args => call (f g) (relabelAll f args)
  | binary op l r => binary (op.relabel f) (l.relabel f) (r.relabel f)
  | not e => not (e.relabel f)
  | bind b x e => bind b (f x) (e.relabel f)
  | group g items => group g (relabelAll f items)
def relabelAll (f : String → String) : List Expr → List Expr
  | [] => []
  | e :: es => e.relabel f :: relabelAll f es
end

theorem relabelAll_eq_map (f : String → String) (es : List Expr) : relabelAll f es = es.map (relabel f) := by
  induction es with
  | nil => rfl
  | cons e es ih => exact congrArg (_ :: ·) ih

mutual
theorem occurrences_relabel (f : String → String) :
    (e : Expr) → (e.relabel f).occurrences = e.occurrences.map f
  | var x => rfl
  | call g args => by simp [relabel, occurrences, occurrencesAll_relabel f args]
  | binary op l r => by simp [relabel, occurrences, occurrences_relabel f l, occurrences_relabel f r]
  | not e => occurrences_relabel f e
  | bind b x e => occurrences_relabel f e
  | group g items => occurrencesAll_relabel f items
theorem occurrencesAll_relabel (f : String → String) :
    (es : List Expr) → occurrencesAll (relabelAll f es) = (occurrencesAll es).map f
  | [] => rfl
  | e :: es => by simp [relabelAll, occurrencesAll, occurrences_relabel f e, occurrencesAll_relabel f es]
end

mutual
theorem binders_relabel (f : String → String) : (e : Expr) → (e.relabel f).binders = e.binders.map f
  | var x => rfl
  | call g args => bindersAll_relabel f args
  | binary op l r => by simp [relabel, binders, binders_relabel f l, binders_relabel f r]
  | not e => binders_relabel f e
  | bind b x e => congrArg (_ :: ·) (binders_relabel f e)
  | group g items => bindersAll_relabel f items
theorem bindersAll_relabel (f : String → String) :
    (es : List Expr) → bindersAll (relabelAll f es) = (bindersAll es).map f
  | [] => rfl
  | e :: es => by simp [relabelAll, bindersAll, binders_relabel f e, bindersAll_relabel f es]
end

mutual
theorem any_relabel {p q : Expr → Bool} (h : ∀ e, p (e.relabel f) = q e) :
    (e : Expr) → (e.relabel f).any p = e.any q
  | var x => h (var x)
  | call g args => congrArg₂ or (h (call g args)) (anyAll_relabel h args)
  | binary op l r =>
    congrArg₂ or (congrArg₂ or (h (binary op l r)) (any_relabel h l)) (any_relabel h r)
  | not e => congrArg₂ or (h (not e)) (any_relabel h e)
  | bind b x e => congrArg₂ or (h (bind b x e)) (any_relabel h e)
  | group g items => congrArg₂ or (h (group g items)) (anyAll_relabel h items)
theorem anyAll_relabel {p q : Expr → Bool} (h : ∀ e, p (e.relabel f) = q e) :
    (es : List Expr) → anyAll p (relabelAll f es) = anyAll q es
  | [] => rfl
  | e :: es => congrArg₂ or (any_relabel h e) (anyAll_relabel h es)
end

end Expr

namespace Name.Equivariant

open ProofScript.Expr

variable {f : String → String}

mutual
theorem free (hf : Equivariant f) : (e : Expr) → (e.relabel f).free = e.free.map f
  | .var x => rfl
  | .call g args => congrArg (_ :: ·) (freeAll hf args)
  | .binary op l r => by simp [relabel, Expr.free, free hf l, free hf r]
  | .not e => free hf e
  | .bind b x e => by
    have hne : ((· != f x) ∘ f : String → Bool) = (· != x) := by
      funext y
      simp [bne, Bool.beq_eq_decide_eq, hf.eq_iff]
    simp only [relabel, Expr.free, free hf e, List.filter_map, hne]
  | .group g items => freeAll hf items
theorem freeAll (hf : Equivariant f) :
    (es : List Expr) → Expr.freeAll (relabelAll f es) = (Expr.freeAll es).map f
  | [] => rfl
  | e :: es => by simp [relabelAll, Expr.freeAll, free hf e, freeAll hf es]
end

variable (hf : Equivariant f)
include hf

theorem occursFree (e : Expr) (x : String) : (e.relabel f).occursFree (f x) = e.occursFree x := by
  rw [Bool.eq_iff_iff, occursFree_iff, occursFree_iff, hf.free, hf.mem_map]

theorem operator {o p : Operator} : o.relabel f = p.relabel f ↔ o = p := by
  cases o <;> cases p <;> simp [Operator.relabel, hf.eq_iff]

theorem hasPlaceholder (e : Expr) : (e.relabel f).hasPlaceholder = e.hasPlaceholder := by
  refine any_relabel (fun e => ?_) e
  cases e with
  | var x => exact hf.isPlaceholder
  | _ => rfl

end Name.Equivariant

-- ---------------------------------------------------------------- maps on names

namespace NameMap

/-- The map with its names exchanged and its values changed. -/
def map (m : NameMap α) (f : String → String) (φ : α → β) : NameMap β :=
  ⟨m.entries.map fun (x, a) => (f x, φ a)⟩

theorem values_map (m : NameMap α) : (m.map f φ).values = m.values.map φ := by
  simp [values, map, Function.comp_def]

end NameMap

namespace Name.Equivariant

variable {f : String → String} (hf : Equivariant f)
include hf

theorem find? (m : NameMap α) (x : String) : (m.map f φ).find? (f x) = (m.find? x).map φ := by
  obtain ⟨entries⟩ := m
  simp only [NameMap.find?, NameMap.map]
  induction entries with
  | nil => rfl
  | cons entry rest ih =>
    obtain ⟨y, b⟩ := entry
    by_cases hx : x = y
    · simp [hx]
    · have hfx : f x ≠ f y := mt hf.injective hx
      simpa [List.lookup_cons, beq_eq_false_iff_ne.mpr hx, beq_eq_false_iff_ne.mpr hfx] using ih

theorem insert (m : NameMap α) (x : String) (a : α) :
    (m.insert x a).map f φ = (m.map f φ).insert (f x) (φ a) := by
  obtain ⟨entries⟩ := m
  simp only [NameMap.insert, NameMap.map, NameMap.mk.injEq]
  induction entries with
  | nil => rfl
  | cons entry rest ih =>
    by_cases hx : x = entry.1
    · simp [NameMap.insertEntry, hx]
    · have hfx : f x ≠ f entry.1 := mt hf.injective hx
      simp [NameMap.insertEntry, hx, hfx, ih]

theorem ofList (entries : List (String × α)) (φ : α → β) :
    (NameMap.ofList entries).map f φ = .ofList (entries.map fun (x, a) => (f x, φ a)) := by
  induction entries using List.reverseRecOn with
  | nil => rfl
  | append_singleton rest entry ih =>
    rw [NameMap.ofList_concat, hf.insert, ih, List.map_append, List.map_singleton, NameMap.ofList_concat]

end Name.Equivariant

-- ---------------------------------------------------------------- substitution

/-- A computation goes on in other words as before if each of its answers does. -/
theorem bind_translated {x : Except ε α} {g : α → Except ε β} {g' : α' → Except ε' β'} {φ : α → α'}
    {ψ : β → β'} {μ : ε → ε'} (h : ∀ a, g' (φ a) = ((g a).map ψ).mapError μ) :
    (x.map φ).mapError μ >>= g' = ((x >>= g).map ψ).mapError μ := by
  cases x with
  | error cause => rfl
  | ok a => exact h a

/-- The expressions of a list are worked out one after the other. -/
theorem Expr.replacedAll_relabel {ts : NameMap Expr} {σ : Substitution} {es : List Expr} {f : String → String}
    (h : ∀ e ∈ es, (e.relabel f).replaced (ts.map f (Expr.relabel f)) (σ.map f (Expr.relabel f)) =
      ((e.replaced ts σ).map (Expr.relabel f)).mapError (·.map f (Expr.relabel f))) :
    Expr.replacedAll (ts.map f (Expr.relabel f)) (Expr.relabelAll f es) (σ.map f (Expr.relabel f)) =
      ((Expr.replacedAll ts es σ).map (Expr.relabelAll f)).mapError (·.map f (Expr.relabel f)) := by
  induction es with
  | nil => rfl
  | cons e es ih =>
    obtain ⟨he, hes⟩ := List.forall_mem_cons.mp h
    simp only [Expr.relabelAll, Expr.replacedAll]
    rw [he, ih hes]
    exact bind_translated fun d => bind_translated fun ds => rfl

namespace Name.Equivariant

open ProofScript.Expr

variable {f : String → String} (hf : Equivariant f)
include hf

theorem headName (σ : Substitution) (g : String) : Expr.headName (σ.map f (relabel f)) (f g) =
    ((Expr.headName σ g).map f).mapError (·.map f (relabel f)) := by
  unfold Expr.headName
  rw [hf.find?]
  cases σ.find? g with
  | none => rfl
  | some e => cases e <;> rfl

/-- The name that a binder gets. -/
theorem binderName (σ : Substitution) (x : String) (body : Expr) :
    Name.fresh ((body.relabel f).free ++ Expr.freeAll (σ.map f (relabel f)).values) (f x) =
      f (Name.fresh (body.free ++ Expr.freeAll σ.values) x) := by
  rw [hf.free, NameMap.values_map, ← relabelAll_eq_map, hf.freeAll, ← List.map_append, hf.fresh]

/-- Substitution goes on in other words, if the templates are filled so. -/
theorem replaced {ts : NameMap Expr} (hts : ∀ x t, ts.find? x = some t → ∀ args,
      (t.relabel f).fill (relabelAll f args) = ((t.fill args).map (relabel f)).mapError (·.map f (relabel f)))
    (e : Expr) (σ : Substitution) :
    (e.relabel f).replaced (ts.map f (relabel f)) (σ.map f (relabel f)) =
      ((e.replaced ts σ).map (relabel f)).mapError (·.map f (relabel f)) := by
  induction e using Expr.induction generalizing σ with
  | var x =>
    simp only [relabel, Expr.replaced]
    rw [hf.find?]
    cases σ.find? x <;> rfl
  | call g args ih =>
    simp only [relabel, Expr.replaced]
    rw [hf.find?, replacedAll_relabel fun a ha => ih a ha σ, hf.headName]
    cases ht : ts.find? g with
    | some template => exact bind_translated (hts g template ht)
    | none => exact bind_translated fun h => bind_translated fun ds => rfl
  | binary op l r ihl ihr =>
    simp only [relabel, Expr.replaced]
    rw [ihl, ihr]
    exact bind_translated fun l => bind_translated fun r => rfl
  | not e ih =>
    simp only [relabel, Expr.replaced]
    rw [ih]
    exact bind_translated fun e => rfl
  | bind b x body ih =>
    simp only [relabel, Expr.replaced]
    -- The name that the binder gets is made up, but from names that are exchanged.
    rw [hf.binderName]
    have hinsert (y : String) : (σ.map f (relabel f)).insert (f x) (.var (f y)) =
        (σ.insert x (.var y)).map f (relabel f) := (hf.insert σ x (.var y)).symm
    rw [hinsert, ih]
    exact bind_translated fun body => rfl
  | group g items ih =>
    simp only [relabel, Expr.replaced]
    rw [replacedAll_relabel fun a ha => ih a ha σ]
    exact bind_translated fun ds => rfl

theorem substitute (e : Expr) (σ : Substitution) : (e.relabel f).substitute (σ.map f (relabel f)) =
    ((e.substitute σ).map (relabel f)).mapError (·.map f (relabel f)) := by
  rw [substitute_eq_replaced, substitute_eq_replaced]
  exact @replaced f hf ∅ nofun e σ

theorem rename (e : Expr) (x y : String) : (e.relabel f).rename (f x) (f y) = (e.rename x y).relabel f := by
  have hsubstitute : (e.relabel f).substitute (.ofList [(f x, .var (f y))]) = _ :=
    hf.substitute e (.ofList [(x, .var y)])
  rw [Expr.rename, Expr.rename, hsubstitute]
  cases e.substitute (.ofList [(x, .var y)]) <;> rfl

-- ---------------------------------------------------------------- templates and instances

theorem positional (args : List Expr) :
    Expr.positional (relabelAll f args) = (Expr.positional args).map f (relabel f) := by
  unfold Expr.positional
  rw [hf.ofList, relabelAll_eq_map, List.zipIdx_map, List.map_map, List.map_map]
  congr 1
  refine List.map_congr_left fun (e, i) _ => ?_
  -- Arguments are looked up by place, so placeholders must not be exchanged.
  have hslot : f (Name.placeholder i) = Name.placeholder i := hf.placeholder (isPlaceholder_placeholder i)
  exact congrArg (·, _) hslot.symm

theorem fill (template : Expr) (args : List Expr) : (template.relabel f).fill (relabelAll f args) =
    ((template.fill args).map (relabel f)).mapError (·.map f (relabel f)) := by
  unfold Expr.fill
  rw [hf.positional, hf.substitute]
  refine bind_translated fun result => ?_
  rw [hf.hasPlaceholder]
  split <;> rfl

end Name.Equivariant

def Instantiation.relabel (i : Instantiation) (f : String → String) : Instantiation :=
  ⟨i.plain.map f (Expr.relabel f), i.templates.map f (Expr.relabel f)⟩

/-- Instances, too, can be had in other words. -/
theorem Name.Equivariant.apply {f : String → String} (hf : Equivariant f) (i : Instantiation) (e : Expr) :
    (i.relabel f).apply (e.relabel f) =
      ((i.apply e).map (Expr.relabel f)).mapError (·.map f (Expr.relabel f)) := by
  rw [Instantiation.apply_eq_replaced, Instantiation.apply_eq_replaced]
  exact hf.replaced (fun _ t _ => hf.fill t) e i.plain

end ProofScript
