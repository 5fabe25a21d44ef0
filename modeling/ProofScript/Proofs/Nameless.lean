import ProofScript.Proofs.FreeNames

/-!
# Nameless forms

A name that is bound is told by the number of binders between it and its own. Two expressions that
differ in the names of bound variables only have the same nameless form, so `nameless [] a =
nameless [] b` is what it means to be the same up to bound names. Free names keep their names;
names of operators are constants.

Substitution needs no care here: what replaces a free name has no open indices, so no binder can
capture any of it.
-/

namespace ProofScript

/-- A binder, counted from the inside, or a free name. -/
inductive Ref
  | bound (index : Nat)
  | free (name : String)
  deriving DecidableEq, Repr

namespace Ref

/-- The same reference seen from under one more binder. -/
def under : Ref → Ref
  | bound i => bound (i + 1)
  | free x => free x

/-- What a name refers to under binders of the given names, the innermost first. -/
def resolve : List String → String → Ref
  | [], x => free x
  | y :: context, x => if x = y then bound 0 else (resolve context x).under

@[simp] theorem resolve_nil : resolve [] x = free x := rfl

@[simp] theorem resolve_cons_self : resolve (x :: context) x = bound 0 := by simp [resolve]

theorem resolve_cons_ne (h : x ≠ y) : resolve (y :: context) x = (resolve context x).under := by
  simp [resolve, h]

theorem resolve_of_not_mem (h : x ∉ context) : resolve context x = free x := by
  induction context with
  | nil => rfl
  | cons y context ih =>
    simp only [List.mem_cons, not_or] at h
    rw [resolve_cons_ne h.1, ih h.2]
    rfl

theorem resolve_free (h : resolve context x = free y) : y = x ∧ x ∉ context := by
  induction context generalizing y with
  | nil => simp_all
  | cons z context ih =>
    by_cases hx : x = z
    · subst hx
      simp at h
    · rw [resolve_cons_ne hx] at h
      cases hr : resolve context x with
      | bound i => simp [hr, under] at h
      | free w =>
        obtain ⟨rfl, hn⟩ := ih hr
        simp [hr, under] at h
        exact ⟨h.symm, by simp [hx, hn]⟩

end Ref

inductive Nameless
  | var (ref : Ref)
  | call (function : Ref) (args : List Nameless)
  | binary (op : Operator) (left right : Nameless)
  | not (inner : Nameless)
  | bind (binder : Binder) (body : Nameless)
  | group (bracket : Bracket) (items : List Nameless)
  deriving Repr

namespace Expr

mutual
/-- The nameless form under binders of the given names, the innermost first. -/
def nameless (context : List String) : Expr → Nameless
  | var x => .var (.resolve context x)
  | call f args => .call (.resolve context f) (namelessAll context args)
  | binary op l r => .binary op (l.nameless context) (r.nameless context)
  | not e => .not (e.nameless context)
  | bind b x body => .bind b (body.nameless (x :: context))
  | group g items => .group g (namelessAll context items)
def namelessAll (context : List String) : List Expr → List Nameless
  | [] => []
  | e :: es => e.nameless context :: namelessAll context es
end

theorem namelessAll_eq_map : namelessAll context es = es.map (nameless context) := by
  induction es with
  | nil => rfl
  | cons e es ih => simp [namelessAll, ih]

/-- Only the references of the free names matter. -/
theorem nameless_congr {e : Expr} (h : ∀ x ∈ e.free, Ref.resolve c x = Ref.resolve d x) :
    e.nameless c = e.nameless d := by
  induction e using Expr.induction generalizing c d with
  | var x => simp [nameless, h x (by simp [free])]
  | call f args ih =>
    simp only [nameless, namelessAll_eq_map, h f (by simp [free])]
    congr 1
    refine List.map_congr_left fun a ha => ih a ha fun x hx => h x ?_
    simp only [free, List.mem_cons, mem_freeAll]
    exact .inr ⟨a, ha, hx⟩
  | binary op l r ihl ihr =>
    simp only [nameless]
    rw [ihl fun x hx => h x (by simp [free, hx]), ihr fun x hx => h x (by simp [free, hx])]
  | not e ih =>
    simp only [nameless]
    rw [ih fun x hx => h x (by simpa [free] using hx)]
  | bind b y body ih =>
    simp only [nameless]
    congr 1
    refine ih fun x hx => ?_
    by_cases hxy : x = y
    · simp [hxy]
    · rw [Ref.resolve_cons_ne hxy, Ref.resolve_cons_ne hxy, h x (mem_free_bind.mpr ⟨hx, hxy⟩)]
  | group g items ih =>
    simp only [nameless, namelessAll_eq_map]
    congr 1
    refine List.map_congr_left fun a ha => ih a ha fun x hx => h x ?_
    simp only [free, mem_freeAll]
    exact ⟨a, ha, hx⟩

/-- Binders around an expression that uses none of their names do not show. -/
theorem nameless_of_disjoint {e : Expr} (h : ∀ x ∈ e.free, x ∉ context) :
    e.nameless context = e.nameless [] :=
  nameless_congr fun x hx => by simp [Ref.resolve_of_not_mem (h x hx)]

end Expr

-- ---------------------------------------------------------------- names

/-- The name of a free reference. -/
def Ref.names : Ref → List String
  | bound _ => []
  | free x => [x]

theorem Ref.mem_names_resolve : y ∈ (resolve context x).names ↔ y = x ∧ x ∉ context := by
  by_cases hx : x ∈ context
  · cases h : resolve context x with
    | bound i => simp [names, hx]
    | free z => exact absurd hx (resolve_free h).2
  · simp [resolve_of_not_mem hx, names, hx]

namespace Nameless

mutual
def free : Nameless → List String
  | var r => r.names
  | call f args => f.names ++ freeAll args
  | binary _ l r => l.free ++ r.free
  | not e => e.free
  | bind _ body => body.free
  | group _ items => freeAll items
def freeAll : List Nameless → List String
  | [] => []
  | e :: es => e.free ++ freeAll es
end

theorem mem_freeAll : x ∈ freeAll es ↔ ∃ e ∈ es, x ∈ e.free := by
  induction es with
  | nil => simp [freeAll]
  | cons e es ih => simp [freeAll, ih]

end Nameless

/-- The nameless form has the free names that no binder around it catches. -/
theorem Expr.mem_free_nameless {e : Expr} :
    x ∈ (e.nameless context).free ↔ x ∈ e.free ∧ x ∉ context := by
  induction e using Expr.induction generalizing context with
  | var y =>
    simp only [nameless, Nameless.free, free, Ref.mem_names_resolve, List.mem_singleton]
    grind
  | call f args ih =>
    simp only [nameless, Nameless.free, free, namelessAll_eq_map, List.mem_append, List.mem_cons,
      Ref.mem_names_resolve, Nameless.mem_freeAll, mem_freeAll, List.mem_map]
    grind
  | binary op l r ihl ihr =>
    simp only [nameless, Nameless.free, free, List.mem_append, ihl, ihr]
    grind
  | not e ih => simpa only [nameless, Nameless.free, free] using ih
  | bind b y body ih =>
    simp only [nameless, Nameless.free, mem_free_bind, ih, List.mem_cons]
    grind
  | group g items ih =>
    simp only [nameless, Nameless.free, free, namelessAll_eq_map, Nameless.mem_freeAll, mem_freeAll,
      List.mem_map]
    grind

-- ---------------------------------------------------------------- substitution

namespace Nameless

/-- What replaces a free name. -/
abbrev Replacement := String → Option Nameless

/-- The reference that takes the place of a function. Only a reference can: of any other
replacement nothing is said here, and the function stays. -/
def replaceHead (σ : Replacement) : Ref → Ref
  | .bound i => .bound i
  | .free x => match σ x with
    | some (var r) => r
    | _ => .free x

mutual
/-- Replaces all free names at once. -/
def replace (σ : Replacement) : Nameless → Nameless
  | var (.bound i) => var (.bound i)
  | var (.free x) => (σ x).getD (var (.free x))
  | call f args => call (replaceHead σ f) (replaceAll σ args)
  | binary op l r => binary op (l.replace σ) (r.replace σ)
  | not e => not (e.replace σ)
  | bind b body => bind b (body.replace σ)
  | group g items => group g (replaceAll σ items)
def replaceAll (σ : Replacement) : List Nameless → List Nameless
  | [] => []
  | e :: es => e.replace σ :: replaceAll σ es
end

theorem replaceAll_eq_map : replaceAll σ es = es.map (replace σ) := by
  induction es with
  | nil => rfl
  | cons e es ih => simp [replaceAll, ih]

section
variable {motive : Nameless → Prop}

/-- The parts of calls and groups are met as members of their list. -/
@[elab_as_elim] theorem induction (var : ∀ r, motive (.var r))
    (call : ∀ f args, (∀ a ∈ args, motive a) → motive (.call f args))
    (binary : ∀ op l r, motive l → motive r → motive (.binary op l r))
    (not : ∀ e, motive e → motive (.not e))
    (bind : ∀ b body, motive body → motive (.bind b body))
    (group : ∀ g items, (∀ a ∈ items, motive a) → motive (.group g items)) (e : Nameless) :
    motive e :=
  @Nameless.rec motive (fun es => ∀ a ∈ es, motive a) var call binary not bind group
    (List.forall_mem_nil _) (fun _ _ he hes => List.forall_mem_cons.mpr ⟨he, hes⟩) e

end

-- ---------------------------------------------------------------- renaming

end Nameless

def Ref.map (f : String → String) : Ref → Ref
  | bound i => bound i
  | free x => free (f x)

namespace Nameless

mutual
/-- Renames the free names. -/
def map (f : String → String) : Nameless → Nameless
  | var r => var (r.map f)
  | call r args => call (r.map f) (mapAll f args)
  | binary op l r => binary op (l.map f) (r.map f)
  | not e => not (e.map f)
  | bind b body => bind b (body.map f)
  | group g items => group g (mapAll f items)
def mapAll (f : String → String) : List Nameless → List Nameless
  | [] => []
  | e :: es => e.map f :: mapAll f es
end

theorem mapAll_eq_map : mapAll f es = es.map (map f) := by
  induction es with
  | nil => rfl
  | cons e es ih => simp [mapAll, ih]

theorem mem_free_map {e : Nameless} : x ∈ (e.map f).free ↔ ∃ y ∈ e.free, f y = x := by
  have href (r : Ref) : x ∈ (r.map f).names ↔ ∃ y ∈ r.names, f y = x := by
    cases r <;> simp [Ref.map, Ref.names, eq_comm]
  induction e using Nameless.induction with
  | var r => simpa [map, free] using href r
  | call r args ih =>
    simp only [map, free, mapAll_eq_map, List.mem_append, mem_freeAll, List.mem_map, href]
    grind
  | binary op l r ihl ihr =>
    simp only [map, free, List.mem_append, ihl, ihr]
    grind
  | not e ih => simpa [map, free] using ih
  | bind b body ih => simpa [map, free] using ih
  | group g items ih =>
    simp only [map, free, mapAll_eq_map, mem_freeAll, List.mem_map]
    grind

/-- Names for names is a renaming. -/
theorem replace_names (f : String → Option String) (e : Nameless) :
    e.replace (fun x => (f x).map fun y => var (.free y)) = e.map fun x => (f x).getD x := by
  have href (r : Ref) : replaceHead (fun x => (f x).map fun y => var (.free y)) r =
      r.map fun x => (f x).getD x := by
    cases r with
    | bound i => rfl
    | free x => cases h : f x <;> simp [replaceHead, Ref.map, h]
  induction e using Nameless.induction with
  | var r =>
    cases r with
    | bound i => rfl
    | free x => cases h : f x <;> simp [replace, map, Ref.map, h]
  | call r args ih => simpa [replace, map, href, replaceAll_eq_map, mapAll_eq_map] using ih
  | binary op l r ihl ihr => simp [replace, map, ihl, ihr]
  | not e ih => simp [replace, map, ih]
  | bind b body ih => simp [replace, map, ih]
  | group g items ih => simpa [replace, map, replaceAll_eq_map, mapAll_eq_map] using ih

theorem map_congr {e : Nameless} (h : ∀ x ∈ e.free, f x = g x) : e.map f = e.map g := by
  have href (r : Ref) (h : ∀ x ∈ r.names, f x = g x) : r.map f = r.map g := by
    cases r with
    | bound i => rfl
    | free x => simp [Ref.map, h x (by simp [Ref.names])]
  induction e using Nameless.induction with
  | var r => simp only [map, href r h]
  | call r args ih =>
    simp only [free, List.mem_append, mem_freeAll] at h
    simp only [map, mapAll_eq_map, href r fun x hx => h x (.inl hx)]
    congr 1
    exact List.map_congr_left fun a ha => ih a ha fun x hx => h x (.inr ⟨a, ha, hx⟩)
  | binary op l r ihl ihr =>
    simp only [free, List.mem_append] at h
    simp only [map, ihl fun x hx => h x (.inl hx), ihr fun x hx => h x (.inr hx)]
  | not e ih => simp only [map, ih h]
  | bind b body ih => simp only [map, ih h]
  | group g items ih =>
    simp only [free, mem_freeAll] at h
    simp only [map, mapAll_eq_map]
    congr 1
    exact List.map_congr_left fun a ha => ih a ha fun x hx => h x ⟨a, ha, hx⟩

theorem map_map (e : Nameless) : (e.map f).map g = e.map fun x => g (f x) := by
  have href (r : Ref) : (r.map f).map g = r.map fun x => g (f x) := by cases r <;> rfl
  induction e using Nameless.induction with
  | var r => simp only [map, href]
  | call r args ih =>
    simp only [map, mapAll_eq_map, href, List.map_map]
    congr 1
    exact List.map_congr_left ih
  | binary op l r ihl ihr => simp only [map, ihl, ihr]
  | not e ih => simp only [map, ih]
  | bind b body ih => simp only [map, ih]
  | group g items ih =>
    simp only [map, mapAll_eq_map, List.map_map]
    congr 1
    exact List.map_congr_left ih

theorem map_id (e : Nameless) : e.map (fun x => x) = e := by
  have href (r : Ref) : r.map (fun x => x) = r := by cases r <;> rfl
  induction e using Nameless.induction with
  | var r => simp [map, href]
  | call r args ih => simpa [map, href, mapAll_eq_map] using List.map_congr_left ih
  | binary op l r ihl ihr => simp [map, ihl, ihr]
  | not e ih => simp [map, ih]
  | bind b body ih => simp [map, ih]
  | group g items ih => simpa [map, mapAll_eq_map] using List.map_congr_left ih

end Nameless

-- ---------------------------------------------------------------- opening binders

/-- The reference to the binder that counts `k` becomes one to the name `x`. -/
def Ref.opened (k : Nat) (x : String) : Ref → Ref
  | bound i => if i = k then free x else bound i
  | free y => free y

theorem Ref.opened_under (r : Ref) : r.under.opened (k + 1) x = (r.opened k x).under := by
  cases r with
  | bound i => by_cases h : i = k <;> simp [under, opened, h]
  | free y => rfl

/-- The outermost binder opened, a name refers to it by its name. -/
theorem Ref.resolve_opened (context : List String) (z : String) :
    (resolve (context ++ [x]) z).opened context.length x = resolve context z := by
  induction context with
  | nil => by_cases h : z = x <;> simp [resolve, opened, under, h]
  | cons y context ih =>
    by_cases h : z = y
    · simp [resolve, opened, h]
    · simp only [List.cons_append, List.length_cons, resolve_cons_ne h, opened_under, ih]

namespace Nameless

mutual
def opened (k : Nat) (x : String) : Nameless → Nameless
  | var r => var (r.opened k x)
  | call f args => call (f.opened k x) (openedAll k x args)
  | binary op l r => binary op (l.opened k x) (r.opened k x)
  | not e => not (e.opened k x)
  | bind b body => bind b (body.opened (k + 1) x)
  | group g items => group g (openedAll k x items)
def openedAll (k : Nat) (x : String) : List Nameless → List Nameless
  | [] => []
  | e :: es => e.opened k x :: openedAll k x es
end

theorem openedAll_eq_map : openedAll k x es = es.map (opened k x) := by
  induction es with
  | nil => rfl
  | cons e es ih => simp [openedAll, ih]

theorem map_opened (e : Nameless) : (e.opened k x).map f = (e.map f).opened k (f x) := by
  have href (r : Ref) (k : Nat) : (r.opened k x).map f = (r.map f).opened k (f x) := by
    cases r with
    | bound i => by_cases h : i = k <;> simp [Ref.opened, Ref.map, h]
    | free y => rfl
  induction e using Nameless.induction generalizing k with
  | var r => simp only [opened, map, href]
  | call r args ih =>
    simp only [opened, map, openedAll_eq_map, mapAll_eq_map, href, List.map_map]
    congr 1
    exact List.map_congr_left fun a ha => ih a ha
  | binary op l r ihl ihr => simp only [opened, map, ihl, ihr]
  | not e ih => simp only [opened, map, ih]
  | bind b body ih => simp only [opened, map, ih]
  | group g items ih =>
    simp only [opened, map, openedAll_eq_map, mapAll_eq_map, List.map_map]
    congr 1
    exact List.map_congr_left fun a ha => ih a ha

end Nameless

/-- Taking the outermost binder away opens it. -/
theorem Expr.nameless_opened (e : Expr) (context : List String) (x : String) :
    (e.nameless (context ++ [x])).opened context.length x = e.nameless context := by
  induction e using Expr.induction generalizing context with
  | var z => simp only [nameless, Nameless.opened, Ref.resolve_opened]
  | call f args ih =>
    simp only [nameless, namelessAll_eq_map, Nameless.opened, Nameless.openedAll_eq_map,
      Ref.resolve_opened, List.map_map]
    congr 1
    exact List.map_congr_left fun a ha => ih a ha context
  | binary op l r ihl ihr => simp only [nameless, Nameless.opened, ihl, ihr]
  | not e ih => simp only [nameless, Nameless.opened, ih]
  | bind b y body ih =>
    simp only [nameless, Nameless.opened]
    congr 1
    exact ih (y :: context)
  | group g items ih =>
    simp only [nameless, namelessAll_eq_map, Nameless.opened, Nameless.openedAll_eq_map, List.map_map]
    congr 1
    exact List.map_congr_left fun a ha => ih a ha context

end ProofScript
