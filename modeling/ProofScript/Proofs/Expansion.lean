import Mathlib.Data.List.Nodup
import ProofScript.Proofs.Citations

/-!
# Instances are expansions

An instance of a sentence is worked out in two layers: the outer one renames the binders of the sentence
without a look at the templates, the inner one fills a template, and renames its binders, for each call.
Main statement: up to bound names this is the expansion of nameless forms, in which nothing can be
captured, and it fails exactly at the calls that have no expansion.
-/

namespace ProofScript

-- ---------------------------------------------------------------- lifting

namespace Ref

/-- The same reference from under `n` more binders, which come outside the innermost `k`. -/
def lifted (k n : Nat) : Ref → Ref
  | bound i => bound (if i < k then i else i + n)
  | free x => free x

theorem lifted_under (r : Ref) : r.under.lifted (k + 1) n = (r.lifted k n).under := by
  cases r with
  | bound i => by_cases h : i < k <;> simp [under, lifted, h, Nat.add_right_comm]
  | free x => rfl

theorem lifted_succ (r : Ref) : r.lifted 0 (n + 1) = (r.lifted 0 n).under := by
  cases r <;> rfl

/-- Binders of other names in between are counted, and nothing else changes. -/
theorem resolve_lifted {inner : List String} (context : List String) (h : x ∈ inner ∨ x ∉ more) :
    resolve (inner ++ (more ++ context)) x =
      (resolve (inner ++ context) x).lifted inner.length more.length := by
  induction inner with
  | nil =>
    have hx := h.resolve_left List.not_mem_nil
    clear h
    induction more with
    | nil => cases hr : resolve context x <;> simp [lifted, hr]
    | cons y more ih =>
      simp only [List.mem_cons, not_or] at hx
      simp only [List.nil_append, List.cons_append, List.length_cons, List.length_nil] at ih ⊢
      rw [resolve_cons_ne hx.1, ih hx.2, lifted_succ]
  | cons y inner ih =>
    by_cases hx : x = y
    · simp [hx, lifted]
    · have h : x ∈ inner ∨ x ∉ more := h.imp_left fun h => (List.mem_cons.mp h).resolve_left hx
      simp only [List.cons_append, List.length_cons, resolve_cons_ne hx, ih h, lifted_under]

/-- A bound name stays bound by the same binder when there are more around. -/
theorem resolve_append_bound (h : resolve context x = bound i) : resolve (context ++ more) x = bound i := by
  induction context generalizing i with
  | nil => cases h
  | cons y context ih =>
    by_cases hx : x = y
    · simpa [hx] using h
    · rw [resolve_cons_ne hx] at h
      rw [List.cons_append, resolve_cons_ne hx]
      cases hr : resolve context x with
      | bound j => rw [ih hr, ← hr, h]
      | free z => rw [hr] at h; cases h

end Ref

namespace Nameless

mutual
def lifted (k n : Nat) : Nameless → Nameless
  | var r => var (r.lifted k n)
  | call f args => call (f.lifted k n) (liftedAll k n args)
  | binary op l r => binary op (l.lifted k n) (r.lifted k n)
  | not e => not (e.lifted k n)
  | bind b body => bind b (body.lifted (k + 1) n)
  | group g items => group g (liftedAll k n items)
def liftedAll (k n : Nat) : List Nameless → List Nameless
  | [] => []
  | e :: es => e.lifted k n :: liftedAll k n es
end

theorem liftedAll_eq_map : liftedAll k n es = es.map (lifted k n) := by
  induction es with
  | nil => rfl
  | cons e es ih => simp [liftedAll, ih]

end Nameless

theorem Expr.nameless_lifted {e : Expr} (inner context : List String)
    (h : ∀ x ∈ e.free, x ∈ inner ∨ x ∉ more) :
    e.nameless (inner ++ (more ++ context)) =
      (e.nameless (inner ++ context)).lifted inner.length more.length := by
  induction e using Expr.induction generalizing inner with
  | var x => simp only [nameless, Nameless.lifted, Ref.resolve_lifted context (h x (by simp [free]))]
  | call f args ih =>
    simp only [nameless, namelessAll_eq_map, Nameless.lifted, Nameless.liftedAll_eq_map, List.map_map,
      Ref.resolve_lifted context (h f (by simp [free]))]
    congr 1
    refine List.map_congr_left fun a ha => ih a ha inner fun x hx => h x ?_
    exact List.mem_cons_of_mem _ (mem_freeAll.mpr ⟨a, ha, hx⟩)
  | binary op l r ihl ihr =>
    simp only [nameless, Nameless.lifted]
    rw [ihl inner fun x hx => h x (List.mem_append_left _ hx),
      ihr inner fun x hx => h x (List.mem_append_right _ hx)]
  | not e ih =>
    simp only [nameless, Nameless.lifted]
    rw [ih inner h]
  | bind b y body ih =>
    simp only [nameless, Nameless.lifted]
    congr 1
    refine ih (y :: inner) fun x hx => ?_
    by_cases hxy : x = y
    · exact .inl (by simp [hxy])
    · exact (h x (mem_free_bind.mpr ⟨hx, hxy⟩)).imp_left (List.mem_cons_of_mem _)
  | group g items ih =>
    simp only [nameless, namelessAll_eq_map, Nameless.lifted, Nameless.liftedAll_eq_map, List.map_map]
    congr 1
    refine List.map_congr_left fun a ha => ih a ha inner fun x hx => h x ?_
    exact mem_freeAll.mpr ⟨a, ha, hx⟩

-- ---------------------------------------------------------------- expansion

namespace Nameless

/-- What becomes of the calls of a name. -/
abbrev Calls := String → Option (List Nameless → Nameless)

/-- The replacements as they are under `n` binders. -/
def raised (n : Nat) (σ : Replacement) : Replacement := fun x => (σ x).map (lifted 0 n)

/-- A call that is expanded, or keeps its shape with another function. -/
def rebuilt (calls : Calls) (σ : Replacement) : Ref → List Nameless → Nameless
  | .bound i, args => call (.bound i) args
  | .free f, args => match calls f with
    | some build => build args
    | none => call (replaceHead σ (.free f)) args

mutual
/-- Replaces all free names and expands calls, at once. What is put in under binders is lifted past
them. -/
def expand (calls : Calls) (σ : Replacement) (n : Nat) : Nameless → Nameless
  | var (.bound i) => var (.bound i)
  | var (.free x) => (raised n σ x).getD (var (.free x))
  | call f args => rebuilt calls (raised n σ) f (expandAll calls σ n args)
  | binary op l r => binary op (l.expand calls σ n) (r.expand calls σ n)
  | not e => not (e.expand calls σ n)
  | bind b body => bind b (body.expand calls σ (n + 1))
  | group g items => group g (expandAll calls σ n items)
def expandAll (calls : Calls) (σ : Replacement) (n : Nat) : List Nameless → List Nameless
  | [] => []
  | e :: es => e.expand calls σ n :: expandAll calls σ n es
end

theorem expandAll_eq_map : expandAll calls σ n es = es.map (expand calls σ n) := by
  induction es with
  | nil => rfl
  | cons e es ih => simp [expandAll, ih]

/-- Each argument at its placeholder. -/
def arguments (args : List Nameless) : Replacement :=
  (NameMap.ofList ((placeholders args.length).zip args)).find?

/-- A template with arguments for its placeholders. -/
def filled (template : Nameless) (args : List Nameless) : Nameless :=
  template.expand (fun _ => none) (arguments args) 0

/-- Calls of a template's name become the filled template. -/
def Calls.filling (templates : String → Option Expr) : Calls := fun f =>
  (templates f).map fun template => (template.nameless []).filled

/-- The nameless forms of replacements under binders of the given names. -/
def Replacement.forms (context : List String) (given : String → Option Expr) : Replacement := fun x =>
  (given x).map (Expr.nameless context)

end Nameless

-- ---------------------------------------------------------------- one layer

namespace Stands

/-- In the place of an object. The binders of the context are around all of the expression: replacements
may use them, and other names do not. -/
theorem expand_var (calls : Nameless.Calls) (h : Stands σ τ xs ys z)
    (houtside : z ∉ xs → σ.find? z = none → z ∉ context) :
    ((τ.find? z).getD (.var z)).nameless (ys ++ context) =
      (Nameless.var (.resolve xs z)).expand calls (.forms context σ.find?) ys.length := by
  unfold Stands at h
  cases hr : Ref.resolve xs z with
  | bound i =>
    rw [hr] at h
    obtain ⟨y, hy, hi⟩ := h
    simp [hy, Expr.nameless, Ref.resolve_append_bound hi, Nameless.expand]
  | free w =>
    rw [hr] at h
    obtain ⟨rfl, hz⟩ := Ref.resolve_free hr
    obtain ⟨hτ, hapart⟩ := h
    rw [hτ]
    cases hσ : σ.find? w with
    | none =>
      have hw : w ∉ ys ++ context := by
        have hys : w ∉ ys := hapart w (by simp [hσ, Expr.free])
        simp [hys, houtside hz hσ]
      simp [Nameless.expand, Nameless.raised, Nameless.Replacement.forms, hσ, Expr.nameless,
        Ref.resolve_of_not_mem hw]
    | some v =>
      have hlifted : v.nameless (ys ++ context) = (v.nameless context).lifted 0 ys.length :=
        Expr.nameless_lifted [] context fun x hx => .inr (hapart x (by simpa [hσ] using hx))
      simp [Nameless.expand, Nameless.raised, Nameless.Replacement.forms, hσ, hlifted]

/-- In the place of a function, which only a name can take. -/
theorem expand_head (h : Stands σ τ xs ys f) (houtside : f ∉ xs → σ.find? f = none → f ∉ context)
    (hg : Expr.headName τ f = .ok g) :
    Ref.resolve (ys ++ context) g =
      Nameless.replaceHead (Nameless.raised ys.length (.forms context σ.find?)) (.resolve xs f) := by
  have hv := h.expand_var (fun _ => none) houtside
  rw [Expr.headName_eq_ok hg] at hv
  cases hr : Ref.resolve xs f with
  | bound i => simpa [hr, Expr.nameless, Nameless.expand, Nameless.replaceHead] using hv
  | free w =>
    simp only [hr, Expr.nameless, Nameless.expand] at hv
    cases hσ : Nameless.raised ys.length (.forms context σ.find?) w with
    | none => simpa [hσ, Nameless.replaceHead] using hv
    | some v =>
      obtain rfl : Nameless.var (.resolve (ys ++ context) g) = v := by simpa [hσ] using hv
      simp [hσ, Nameless.replaceHead]

end Stands

namespace Expr

/-- The expression stands under binders `xs`, renamed to `ys`, and these in a context of other binders.
Templates have nothing to do with any of these binders, nor with those of the expression. -/
structure Placed (ts : NameMap Expr) (σ τ : Substitution) (xs ys context : List String) (e : Expr) :
    Prop where
  stands : ∀ z ∈ e.free, Stands σ τ xs ys z
  outside : ∀ z ∈ e.free, z ∉ xs → σ.find? z = none → z ∉ context
  uncalled : ∀ x ∈ xs, ts.find? x = none
  apart : ∀ t ∈ ts.values, ∀ z ∈ t.free, z ∉ ys ++ context
  bound : ∀ x ∈ e.binders, ts.find? x = none ∧
    ∀ taken, ∀ t ∈ ts.values, Name.fresh taken x ∉ t.free

namespace Placed

theorem part {d e : Expr} (h : e.Placed ts σ τ xs ys context) (hfree : ∀ z ∈ d.free, z ∈ e.free)
    (hbinders : ∀ x ∈ d.binders, x ∈ e.binders) : d.Placed ts σ τ xs ys context where
  stands := fun z hz => h.stands z (hfree z hz)
  outside := fun z hz => h.outside z (hfree z hz)
  uncalled := h.uncalled
  apart := h.apart
  bound := fun x hx => h.bound x (hbinders x hx)

theorem argument (h : (call f args).Placed ts σ τ xs ys context) (ha : a ∈ args) :
    a.Placed ts σ τ xs ys context :=
  h.part (fun _ hz => List.mem_cons_of_mem _ (mem_freeAll.mpr ⟨a, ha, hz⟩))
    fun _ hx => mem_bindersAll.mpr ⟨a, ha, hx⟩

theorem item (h : (group g items).Placed ts σ τ xs ys context) (ha : a ∈ items) :
    a.Placed ts σ τ xs ys context :=
  h.part (fun _ hz => mem_freeAll.mpr ⟨a, ha, hz⟩) fun _ hx => mem_bindersAll.mpr ⟨a, ha, hx⟩

theorem left (h : (binary op l r).Placed ts σ τ xs ys context) : l.Placed ts σ τ xs ys context :=
  h.part (fun _ => List.mem_append_left _) fun _ => List.mem_append_left _

theorem right (h : (binary op l r).Placed ts σ τ xs ys context) : r.Placed ts σ τ xs ys context :=
  h.part (fun _ => List.mem_append_right _) fun _ => List.mem_append_right _

theorem inner (h : (not e).Placed ts σ τ xs ys context) : e.Placed ts σ τ xs ys context :=
  h.part (fun _ => id) fun _ => id

/-- The new name of a binder is fresh for its body, for the replacements and for the templates. -/
theorem body (h : (bind q x e).Placed ts σ τ xs ys context)
    (hy : y = Name.fresh (e.free ++ freeAll τ.values) x) :
    e.Placed ts σ (τ.insert x (var y)) (x :: xs) (y :: ys) context where
  stands := by
    have hfresh := Name.fresh_not_mem (e.free ++ freeAll τ.values) x
    rw [← hy, List.mem_append, not_or] at hfresh
    exact Stands.under h.stands hfresh.1 hfresh.2
  outside := fun z hz hzx => by
    obtain ⟨hne, hzx⟩ := not_or.mp (mt List.mem_cons.mpr hzx)
    exact h.outside z (mem_free_bind.mpr ⟨hz, hne⟩) hzx
  uncalled := List.forall_mem_cons.mpr ⟨(h.bound x (List.mem_cons_self ..)).1, h.uncalled⟩
  apart := fun t ht z hz => by
    have hzy : z ≠ y := fun hzy => (h.bound x (List.mem_cons_self ..)).2 _ t ht (hy ▸ hzy ▸ hz)
    simpa [hzy] using h.apart t ht z hz
  bound := fun z hz => h.bound z (List.mem_cons_of_mem _ hz)

end Placed

/-- A layer of instantiation is an expansion, if the filling of its templates is. -/
theorem nameless_expand {ts : NameMap Expr}
    (hfill : ∀ t ∈ ts.values, ∀ context args r, (∀ z ∈ t.free, z ∉ context) → t.fill args = .ok r →
      r.nameless context = (t.nameless []).filled (args.map (nameless context)))
    (hplaced : e.Placed ts σ τ xs ys context) (h : replaced ts e τ = .ok d) :
    d.nameless (ys ++ context) =
      (e.nameless xs).expand (.filling ts.find?) (.forms context σ.find?) ys.length := by
  induction e using Expr.induction generalizing τ xs ys d with
  | var x =>
    cases h
    exact (hplaced.stands x (by simp [free])).expand_var _ (hplaced.outside x (by simp [free]))
  | call f args ih =>
    have hargs {ds} (hds : replacedAll ts args τ = .ok ds) : ds.map (nameless (ys ++ context)) =
        (args.map (nameless xs)).map
          (Nameless.expand (.filling ts.find?) (.forms context σ.find?) ys.length) := by
      rw [List.map_map]
      exact replacedAll_map hds _ _ fun a ha d hd => ih a ha (hplaced.argument ha) hd
    simp only [nameless, Nameless.expand, namelessAll_eq_map, Nameless.expandAll_eq_map]
    cases ht : ts.find? f with
    | some t =>
      obtain ⟨ds, hds, h⟩ := (replaced_template ht).mp h
      -- the name of a template is not bound around the call
      have hf : f ∉ xs := fun hf => by
        rw [hplaced.uncalled f hf] at ht
        cases ht
      have hmem := NameMap.mem_values ht
      rw [hfill t hmem _ ds d (hplaced.apart t hmem) h, hargs hds, Ref.resolve_of_not_mem hf]
      simp [Nameless.rebuilt, Nameless.Calls.filling, ht]
    | none =>
      obtain ⟨g, hg, ds, hds, rfl⟩ := (replaced_call ht).mp h
      have hhead := (hplaced.stands f (by simp [free])).expand_head (hplaced.outside f (by simp [free])) hg
      simp only [nameless, namelessAll_eq_map, hargs hds, hhead]
      cases hr : Ref.resolve xs f with
      | bound i => rfl
      | free w =>
        obtain ⟨rfl, _⟩ := Ref.resolve_free hr
        simp [Nameless.rebuilt, Nameless.Calls.filling, ht]
  | binary op l r ihl ihr =>
    obtain ⟨l', hl, r', hr, rfl⟩ := replaced_binary.mp h
    simp only [nameless, Nameless.expand, ihl hplaced.left hl, ihr hplaced.right hr]
  | not e ih =>
    obtain ⟨e', he, rfl⟩ := replaced_not.mp h
    simp only [nameless, Nameless.expand, ih hplaced.inner he]
  | bind b x body ih =>
    obtain ⟨body', hbody, rfl⟩ := replaced_bind.mp h
    simp only [nameless, Nameless.expand]
    congr 1
    exact ih (hplaced.body rfl) hbody
  | group g items ih =>
    obtain ⟨ds, hds, rfl⟩ := replaced_group.mp h
    simp only [nameless, Nameless.expand, namelessAll_eq_map, Nameless.expandAll_eq_map, List.map_map]
    congr 1
    exact replacedAll_map hds _ _ fun a ha d hd => ih a ha (hplaced.item ha) hd

-- ---------------------------------------------------------------- both layers

theorem positional_entries (args : List Expr) : (args.zipIdx.map fun (e, i) => (Name.placeholder i, e)) =
    (placeholders args.length).zip args := by
  refine List.ext_getElem (by simp [placeholders]) fun i h _ => ?_
  simp [placeholders]

theorem arguments_map (f : Expr → Nameless) (args : List Expr) (x : String) :
    Nameless.arguments (args.map f) x = ((positional args).find? x).map f := by
  unfold Nameless.arguments positional
  rw [← NameMap.find?_ofList_map, positional_entries, List.length_map, List.zip_map_right]
  rfl

theorem positional_eq_none : (positional args).find? x = none ↔ x ∉ placeholders args.length := by
  unfold positional
  rw [NameMap.find?_ofList_eq_none, positional_entries, List.map_fst_zip (by simp [placeholders])]

/-- The inner layer: a filled template is the template with the arguments at its placeholders. -/
theorem nameless_fill {t : Expr} (hcontext : ∀ z ∈ t.free, z ∉ context) (h : t.fill args = .ok r) :
    r.nameless context = (t.nameless []).filled (args.map (nameless context)) := by
  have hplaced : t.Placed ∅ (positional args) (positional args) [] [] context := {
    stands := fun z _ => .outside _ z
    outside := fun z hz _ _ => hcontext z hz
    uncalled := List.forall_mem_nil _
    apart := fun _ ht => absurd ht List.not_mem_nil
    bound := fun _ _ => ⟨rfl, fun _ _ ht => absurd ht List.not_mem_nil⟩ }
  have hforms : Nameless.Replacement.forms context (positional args).find? =
      Nameless.arguments (args.map (nameless context)) :=
    funext fun x => (arguments_map _ args x).symm
  have hr := nameless_expand (fun _ ht => absurd ht List.not_mem_nil) hplaced (replaced_of_fill h)
  rw [hforms] at hr
  exact hr

/-- The outer layer: an instance is the expansion of the statement. -/
theorem nameless_instance (hplaced : e.Placed ts σ τ xs ys context) (h : replaced ts e τ = .ok d) :
    d.nameless (ys ++ context) =
      (e.nameless xs).expand (.filling ts.find?) (.forms context σ.find?) ys.length :=
  nameless_expand (fun _ _ _ _ _ hcontext hfill => nameless_fill hcontext hfill) hplaced h

-- ---------------------------------------------------------------- calls

/-- Some call in the expression is such a one. -/
def HasCall (P : List String → String → List Expr → Prop) (e : Expr) : Prop :=
  ∃ around f args, e.Part around (.call f args) ∧ P around f args

section
variable {P Q : List String → String → List Expr → Prop}

theorem HasCall.imp {e : Expr} (h : e.HasCall P)
    (hPQ : ∀ around f args, P around f args → Q around f args) : e.HasCall Q := by
  obtain ⟨around, f, args, hpart, hP⟩ := h
  exact ⟨around, f, args, hpart, hPQ around f args hP⟩

theorem hasCall_var : ¬(var x).HasCall P := by
  rintro ⟨_, _, _, ⟨⟩, _⟩

theorem hasCall_call : (call f args).HasCall P ↔ P [] f args ∨ ∃ a ∈ args, a.HasCall P := by
  constructor
  · rintro ⟨around, g, bs, hpart, h⟩
    cases hpart with
    | self => exact .inl h
    | argument ha hpart => exact .inr ⟨_, ha, around, g, bs, hpart, h⟩
  · rintro (h | ⟨a, ha, around, g, bs, hpart, h⟩)
    · exact ⟨[], f, args, .self, h⟩
    · exact ⟨around, g, bs, .argument ha hpart, h⟩

theorem hasCall_binary : (binary op l r).HasCall P ↔ l.HasCall P ∨ r.HasCall P := by
  constructor
  · rintro ⟨around, g, bs, hpart, h⟩
    cases hpart with
    | left hpart => exact .inl ⟨around, g, bs, hpart, h⟩
    | right hpart => exact .inr ⟨around, g, bs, hpart, h⟩
  · rintro (⟨around, g, bs, hpart, h⟩ | ⟨around, g, bs, hpart, h⟩)
    · exact ⟨around, g, bs, .left hpart, h⟩
    · exact ⟨around, g, bs, .right hpart, h⟩

theorem hasCall_not : (not e).HasCall P ↔ e.HasCall P := by
  constructor
  · rintro ⟨around, g, bs, ⟨⟩, h⟩
    exact ⟨around, g, bs, ‹_›, h⟩
  · rintro ⟨around, g, bs, hpart, h⟩
    exact ⟨around, g, bs, .inner hpart, h⟩

theorem hasCall_bind :
    (bind q x body).HasCall P ↔ body.HasCall fun around => P (x :: around) := by
  constructor
  · rintro ⟨_, g, bs, ⟨⟩, h⟩
    exact ⟨_, g, bs, ‹_›, h⟩
  · rintro ⟨around, g, bs, hpart, h⟩
    exact ⟨x :: around, g, bs, .body hpart, h⟩

theorem hasCall_group : (group g items).HasCall P ↔ ∃ a ∈ items, a.HasCall P := by
  constructor
  · rintro ⟨around, g, bs, hpart, h⟩
    cases hpart with
    | item ha hpart => exact ⟨_, ha, around, g, bs, hpart, h⟩
  · rintro ⟨a, ha, around, g, bs, hpart, h⟩
    exact ⟨around, g, bs, .item ha hpart, h⟩

end

-- ---------------------------------------------------------------- calls without expansion

/-- A call under binders `xs` that has no expansion: the template has a placeholder beyond the arguments, or
what is not a name would have to be called, as a replacement or as an argument of a template. -/
inductive Stuck (templates plain : String → Option Expr) (xs : List String) (f : String)
    (args : List Expr) : Prop
  | unfilled : templates f = some t → x ∈ t.objects → Name.isPlaceholder x = true →
    x ∉ placeholders args.length → Stuck templates plain xs f args
  | object : plain f = some a → (∀ g, a ≠ var g) → Stuck templates plain xs f args
  | argument : templates f = some t → x ∈ t.functions →
    Nameless.arguments (args.map fun a => (a.nameless xs).expand (.filling templates)
      (.forms [] plain) xs.length) x = some v →
    (∀ r, v ≠ .var r) → Stuck templates plain xs f args

theorem replacedAll_fails : (∃ c, replacedAll ts es σ = .error c) ↔
    ∃ e ∈ es, ∃ c, replaced ts e σ = .error c := by
  constructor
  · rintro ⟨c, h⟩
    obtain ⟨e, he, h⟩ := replacedAll_eq_error h
    exact ⟨e, he, c, h⟩
  · rintro ⟨e, he, c, h⟩
    cases hes : replacedAll ts es σ with
    | error c => exact ⟨c, rfl⟩
    | ok ds =>
      obtain ⟨d, _, hd⟩ := replacedAll_ok hes e he
      cases hd.symm.trans h

/-- Filling fails exactly if a placeholder is left or what is not a name would be called. -/
theorem fill_fails {t : Expr} (ht : t.Follows clean.ofTemplate []) (hargs : ∀ a ∈ args, a.Follows clean []) :
    (∃ c, t.fill args = .error c) ↔
      (∃ x ∈ t.objects, Name.isPlaceholder x = true ∧ x ∉ placeholders args.length) ∨
        Misapplied (positional args) t := by
  have hfill : (∃ c, t.fill args = .error c) ↔
      ∀ r, t.replaced ∅ (positional args) = .ok r → r.hasPlaceholder = true := by
    simp only [fails_iff, ne_eq, fill_eq_ok, substitute_eq_replaced, not_and, Bool.not_eq_false]
  rw [hfill]
  cases h : t.replaced ∅ (positional args) with
  | error c =>
    obtain ⟨f, hf, r, hr, hn, _⟩ := replaced_eq_error h
    exact iff_of_true nofun (.inr ⟨f, hf, r, hr, hn⟩)
  | ok r =>
    rw [or_iff_left (not_misapplied_of_ok h)]
    simp only [Except.ok.injEq, forall_eq']
    constructor
    · -- if all are filled, nothing that is put together has placeholders
      intro hr
      by_contra hnone
      have hclean : r.Follows clean [] := by
        refine follows_replaced (fun _ ht => absurd ht List.not_mem_nil)
          (ht.mono (fun x hx _ => .inr fun hfind => ?_) (fun _ _ _ => .inr fun _ _ => trivial) (fun _ => id)
            fun _ => id) (supplies_positional (fun _ _ => trivial) hargs) h
        exact Bool.eq_false_iff.mpr fun hplaceholder =>
          hnone ⟨x, hx, hplaceholder, positional_eq_none.mp hfind⟩
      exact Bool.noConfusion (hclean.hasPlaceholder.symm.trans hr)
    · rintro ⟨x, hx, hplaceholder, hbeyond⟩
      exact hasPlaceholder_of_objects (objects_replaced h hx (positional_eq_none.mpr hbeyond)) hplaceholder

theorem nameless_eq_var {e : Expr} (h : e.nameless context = .var r) : ∃ x, e = var x := by
  cases e with
  | var x => exact ⟨x, rfl⟩
  | _ => cases h

section
variable {ts : NameMap Expr} {σ τ : Substitution} {xs ys : List String}

/-- A call of a template whose arguments have instances is stuck exactly if it cannot be filled. -/
theorem fill_stuck (ht : ts.find? f = some t) (hplain : σ.find? f = none)
    (htemplate : t.Follows clean.ofTemplate []) (hclean : ∀ d ∈ ds, d.Follows clean [])
    (hforms : ds.map (nameless ys) = args.map fun a => (a.nameless xs).expand
      (.filling ts.find?) (.forms [] σ.find?) xs.length) :
    (∃ c, t.fill ds = .error c) ↔ Stuck ts.find? σ.find? xs f args := by
  have hlength : ds.length = args.length := by simpa using congrArg List.length hforms
  rw [fill_fails htemplate hclean, hlength]
  constructor
  · rintro (⟨x, hx, hplaceholder, hbeyond⟩ | ⟨x, hx, r, hr, hn⟩)
    · exact .unfilled ht hx hplaceholder hbeyond
    · refine .argument ht hx (v := r.nameless ys) ?_ fun r' hr' => ?_
      · rw [← hforms, arguments_map, hr]
        rfl
      · obtain ⟨g, rfl⟩ := nameless_eq_var hr'
        exact hn g rfl
  · rintro (⟨ht', hx, hplaceholder, hbeyond⟩ | ⟨ha, _⟩ | ⟨ht', hx, hv, hn⟩)
    · cases ht.symm.trans ht'
      exact .inl ⟨_, hx, hplaceholder, hbeyond⟩
    · cases hplain.symm.trans ha
    · cases ht.symm.trans ht'
      rw [← hforms, arguments_map] at hv
      obtain ⟨a, ha, rfl⟩ := Option.map_eq_some_iff.mp hv
      refine .inr ⟨_, hx, a, ha, ?_⟩
      rintro g rfl
      exact hn _ rfl

/-- Any other call is stuck exactly if its function cannot be replaced. -/
theorem head_stuck (args : List Expr) (ht : ts.find? f = none) (hstands : Stands σ τ xs ys f)
    (hplain : f ∈ xs → σ.find? f = none) :
    (∃ c, headName τ f = .error c) ↔ Stuck ts.find? σ.find? xs f args := by
  unfold Stands at hstands
  constructor
  · rintro ⟨c, hc⟩
    obtain ⟨r, hr, hn, _⟩ := headName_eq_error hc
    cases hresolve : Ref.resolve xs f with
    | bound i =>
      rw [hresolve, hr] at hstands
      obtain ⟨y, hy, _⟩ := hstands
      exact absurd hy (hn y)
    | free w =>
      rw [hresolve] at hstands
      exact .object (hstands.1.symm.trans hr) hn
  · rintro (⟨ht', _⟩ | ⟨ha, hn⟩ | ⟨ht', _⟩)
    · cases ht.symm.trans ht'
    · have hf : f ∉ xs := fun hf => nomatch (hplain hf).symm.trans ha
      rw [Ref.resolve_of_not_mem hf] at hstands
      unfold headName
      rw [hstands.1, ha]
      split
      · rename_i h
        cases h
      · rename_i h
        exact absurd (Option.some.inj h) (hn _)
      · exact ⟨_, rfl⟩
    · cases ht.symm.trans ht'

/-- Instantiation fails exactly if some call is stuck. -/
theorem replaced_fails (hts : ∀ t ∈ ts.values, t.Follows clean.ofTemplate [])
    (hone : ∀ f t, ts.find? f = some t → σ.find? f = none)
    (hplaced : e.Placed ts σ τ xs ys []) (hlength : ys.length = xs.length)
    (hplain : ∀ x, x ∈ xs ∨ x ∈ e.binders → σ.find? x = none)
    (hnames : e.Follows (clean.before ts τ) []) (hvalues : Supplies clean [] τ) :
    (∃ c, replaced ts e τ = .error c) ↔
      e.HasCall fun around => Stuck ts.find? σ.find? (around.reverse ++ xs) := by
  induction e using Expr.induction generalizing τ xs ys with
  | var x => exact iff_of_false nofun hasCall_var
  | call f args ih =>
    have hargs := (follows_call.mp hnames).2
    have hfails : (∃ c, replacedAll ts args τ = .error c) ↔
        ∃ a ∈ args, a.HasCall fun around => Stuck ts.find? σ.find? (around.reverse ++ xs) := by
      rw [replacedAll_fails]
      refine exists_congr fun a => and_congr_right fun ha => ?_
      exact ih a ha (hplaced.argument ha) hlength
        (fun x hx => hplain x (hx.imp_right fun hx => mem_bindersAll.mpr ⟨a, ha, hx⟩)) (hargs a ha) hvalues
    rw [hasCall_call, ← hfails]
    simp only [List.reverse_nil, List.nil_append, replaced]
    cases ht : ts.find? f with
    | some t =>
      simp only
      rw [bind_fails]
      cases hds : replacedAll ts args τ with
      | error c => simp
      | ok ds =>
        have hforms : ds.map (nameless ys) = args.map fun a => (a.nameless xs).expand
            (.filling ts.find?) (.forms [] σ.find?) xs.length :=
          replacedAll_map hds _ _ fun a ha d hd => by
            simpa [hlength] using nameless_instance (hplaced.argument ha) hd
        have hclean : ∀ d ∈ ds, d.Follows clean [] := fun d hd => by
          obtain ⟨a, ha, had⟩ := replacedAll_mem hds d hd
          exact follows_instance (fun _ _ => trivial) hts (hargs a ha) hvalues had
        have hstuck := fill_stuck ht (hone f t ht) (hts t (NameMap.mem_values ht)) hclean hforms
        simpa using hstuck
    | none =>
      simp only
      rw [pair_fails, head_stuck args ht (hplaced.stands f (by simp [free])) fun hf => hplain f (.inl hf)]
  | binary op l r ihl ihr =>
    obtain ⟨_, hl, hr⟩ := follows_binary.mp hnames
    rw [hasCall_binary, ← ihl hplaced.left hlength
        (fun x hx => hplain x (hx.imp_right (List.mem_append_left _))) hl hvalues,
      ← ihr hplaced.right hlength (fun x hx => hplain x (hx.imp_right (List.mem_append_right _))) hr hvalues]
    simp only [replaced]
    exact pair_fails
  | not e ih =>
    rw [hasCall_not, ← ih hplaced.inner hlength hplain (follows_not.mp hnames) hvalues]
    simp only [replaced]
    exact map_fails
  | bind q x body ih =>
    obtain ⟨hx, hbody⟩ := follows_bind.mp hnames
    have hvalues' (taken) : Supplies clean [] (τ.insert x (var (Name.fresh taken x))) :=
      NameMap.forall_find?_insert hvalues ⟨follows_var.mpr (.inr (hx taken)), fun _ _ => .inr trivial⟩
    have hplain' (z) (hz : z ∈ x :: xs ∨ z ∈ body.binders) : σ.find? z = none := by
      refine hplain z ?_
      simp only [binders, List.mem_cons] at hz ⊢
      tauto
    rw [hasCall_bind]
    simp only [List.reverse_cons, List.append_assoc, List.singleton_append, replaced]
    rw [map_fails, ih (hplaced.body rfl) (by simp [hlength]) hplain' hbody.under (hvalues' _)]
  | group g items ih =>
    have hitems := follows_group.mp hnames
    rw [hasCall_group]
    simp only [replaced]
    rw [map_fails, replacedAll_fails]
    refine exists_congr fun a => and_congr_right fun ha => ?_
    exact ih a ha (hplaced.item ha) hlength
      (fun x hx => hplain x (hx.imp_right fun hx => mem_bindersAll.mpr ⟨a, ha, hx⟩)) (hitems a ha) hvalues

end

end Expr

-- ---------------------------------------------------------------- theorems

namespace NameMap

theorem find?_ofList_iff {entries : List (String × α)} (h : (entries.map Prod.fst).Nodup) :
    (ofList entries).find? z = some a ↔ (z, a) ∈ entries := by
  refine ⟨find?_ofList_mem, fun hmem => ?_⟩
  cases hfind : (ofList entries).find? z with
  | none => exact absurd (List.mem_map_of_mem hmem) (find?_ofList_eq_none.mp hfind)
  | some b =>
    have hpair := List.inj_on_of_nodup_map h hmem (find?_ofList_mem hfind) rfl
    rw [(Prod.mk.inj hpair).2]

theorem find?_ofList_filter {entries : List (String × α)} (h : (entries.map Prod.fst).Nodup)
    (q : α → Bool) (z : String) :
    (ofList (entries.filter fun (_, a) => q a)).find? z = ((ofList entries).find? z).filter q := by
  have hfilter : ((entries.filter fun (_, a) => q a).map Prod.fst).Nodup :=
    h.sublist (List.filter_sublist.map _)
  refine Option.ext fun a => ?_
  rw [find?_ofList_iff hfilter, Option.filter_eq_some_iff, find?_ofList_iff h, List.mem_filter]

end NameMap

namespace Theorem

/-- The argument for a parameter. -/
def argument? (t : Theorem) (args : List Expr) : String → Option Expr :=
  (NameMap.ofList (t.parameters.zip args)).find?

/-- The argument for an ordinary parameter. -/
def plain? (t : Theorem) (args : List Expr) (p : String) : Option Expr :=
  (t.argument? args p).filter fun a => !a.hasPlaceholder

/-- The argument for a parameter that is called with arguments of its own. -/
def template? (t : Theorem) (args : List Expr) (p : String) : Option Expr :=
  (t.argument? args p).filter Expr.hasPlaceholder

/-- A sentence with its ordinary parameters replaced and the calls of the others expanded. -/
def expansion (t : Theorem) (args : List Expr) (e : Nameless) : Nameless :=
  e.expand (.filling (t.template? args)) (.forms [] (t.plain? args)) 0

/-- A call in a sentence, inside binders of the names `around`, that has no expansion. -/
def Stuck (t : Theorem) (args : List Expr) (around : List String) : String → List Expr → Prop :=
  Expr.Stuck (t.template? args) (t.plain? args) around.reverse

theorem find?_instantiation (hdistinct : t.parameters.Nodup) (hlength : t.parameters.length = args.length) :
    (instantiation t args).plain.find? = t.plain? args ∧
      (instantiation t args).templates.find? = t.template? args := by
  have hkeys : ((t.parameters.zip args).map Prod.fst).Nodup := by
    rwa [List.map_fst_zip hlength.le]
  exact ⟨funext (NameMap.find?_ofList_filter hkeys fun a => !a.hasPlaceholder),
    funext (NameMap.find?_ofList_filter hkeys Expr.hasPlaceholder)⟩

/-- A parameter is of one kind. -/
theorem plain?_eq_none (h : template? t args p = some a) : t.plain? args p = none := by
  unfold template? at h
  unfold plain?
  obtain ⟨harg, htemplate⟩ := Option.filter_eq_some_iff.mp h
  simp [harg, htemplate]

end Theorem

namespace Script

namespace Instantiates

variable {script : Script} (h : script.Instantiates t args) (hresolve : script.resolve settings = .ok ())
include h hresolve

/-- Plain arguments have no placeholders. -/
theorem supplies_clean : Expr.Supplies Expr.clean [] (t.instantiation args).plain :=
  Theorem.supplies_instantiation (fun _ _ => trivial) fun a ha => (h.passable hresolve a ha).follows_clean

variable (hread : Script.parse source = .ok script)
include hread

/-- The binders of a sentence are no parameters, and whatever they are renamed to is not used by
arguments. -/
theorem placed (hs : s ∈ t.hypothesis :: t.requirements) :
    s.expr.Placed (t.instantiation args).templates (t.instantiation args).plain
      (t.instantiation args).plain [] [] [] where
  stands := fun z _ => .outside _ z
  outside := fun _ _ _ _ => List.not_mem_nil
  uncalled := List.forall_mem_nil _
  apart := fun _ _ _ _ => List.not_mem_nil
  bound := fun x hx => by
    refine ⟨Option.eq_none_iff_forall_not_mem.mpr fun a ha => ?_, fun taken a ha => ?_⟩
    · exact ((h.states hresolve hs).binders x hx).2 (Theorem.instantiation_template ha).1
    · have hnumeral := (h.bindsNames hread).1 s hs x hx
      exact (Name.fresh_apart taken hnumeral).2 a
        (h.passable hresolve a (Theorem.instantiation_templates ha).1)

theorem fails_iff_stuck (hs : s ∈ t.hypothesis :: t.requirements) :
    (∃ cause, (t.instantiation args).apply s.expr = .error cause) ↔ s.expr.HasCall (t.Stuck args) := by
  obtain ⟨hplain, htemplates⟩ := Theorem.find?_instantiation (h.distinct hresolve) (h.length hresolve)
  have hbinders := (h.states hresolve hs).binders
  have hfails := Expr.replaced_fails
    (fun a ha => ((h.bindsNames hread).2 a (Theorem.instantiation_templates ha).1).follows_clean)
    (fun f a ha => by
      rw [htemplates] at ha
      rw [hplain, Theorem.plain?_eq_none ha])
    (h.placed hresolve hread hs) rfl
    (fun x hx => Option.eq_none_iff_forall_not_mem.mpr fun a ha =>
      (hbinders x (hx.resolve_left List.not_mem_nil)).2 (Theorem.instantiation_plain ha).1)
    ((h.states hresolve hs).follows_clean ((h.bindsNames hread).1 s hs)) (h.supplies_clean hresolve)
  rw [Instantiation.apply_eq_replaced]
  simp only [hplain, htemplates, List.append_nil] at hfails
  exact hfails

theorem nameless_apply (hs : s ∈ t.hypothesis :: t.requirements)
    (hd : (t.instantiation args).apply s.expr = .ok d) :
    d.nameless [] = t.expansion args (s.expr.nameless []) := by
  obtain ⟨hplain, htemplates⟩ := Theorem.find?_instantiation (h.distinct hresolve) (h.length hresolve)
  rw [Instantiation.apply_eq_replaced] at hd
  have hexpand := Expr.nameless_instance (h.placed hresolve hread hs) hd
  rw [hplain, htemplates] at hexpand
  exact hexpand

end Instantiates

/-- An instance of a sentence of a cited theorem is, up to bound names, its expansion. There is none exactly
if some call in the sentence is stuck. -/
theorem instances_expand (hread : Script.parse source = .ok script)
    (hresolve : script.resolve settings = .ok ()) (h : script.Instantiates t args)
    (hs : s ∈ t.hypothesis :: t.requirements) :
    ((∃ cause, (t.instantiation args).apply s.expr = .error cause) ↔ s.expr.HasCall (t.Stuck args)) ∧
    (¬s.expr.HasCall (t.Stuck args) → ∃ d, (t.instantiation args).apply s.expr = .ok d ∧
      d.nameless [] = t.expansion args (s.expr.nameless [])) := by
  have hfails := h.fails_iff_stuck hresolve hread hs
  refine ⟨hfails, fun hstuck => ?_⟩
  cases hd : (t.instantiation args).apply s.expr with
  | error cause => exact absurd (hfails.mp ⟨cause, hd⟩) hstuck
  | ok d => exact ⟨d, rfl, h.nameless_apply hresolve hread hs hd⟩

/-- A parameter is called inside a call of itself, and once without arguments. The template for it binds
the name that the sentence binds around these calls. -/
def nestedSource : String := "theorem T(F,a):
∀x(F(F(x)) = x)
⇒ a = F()
\x7b
\x7d
theorem U(b):
⇒ b = b
\x7b
b = b | T(\x7bx : x ∈ _0\x7d,b)
\x7d
"

theorem instances_expand_nested : ∃ script t args, Script.parse nestedSource = .ok script ∧
    script.resolve {} = .ok () ∧ script.Instantiates t args ∧
    (∃ s ∈ t.requirements, ∃ d, (t.instantiation args).apply s.expr = .ok d ∧
      d = .bind .all "_x" (.binary .equals
        (.bind .those "__x" (.binary .elementOf (.var "__x")
          (.bind .those "__x" (.binary .elementOf (.var "__x") (.var "_x"))))) (.var "_x")) ∧
      d.nameless [] = t.expansion args (s.expr.nameless [])) ∧
    t.hypothesis.expr.HasCall (t.Stuck args) := by
  have hdecided : ∃ script, Script.parse nestedSource = .ok script ∧ script.resolve {} = .ok () ∧
      ∃ args ∈ [[.bind .those "x" (.binary .elementOf (.var "x") (.var "_0")), .var "b"]],
      (∃ d ∈ script, .instantiation "T" args ∈ Step.reasonsAll d.proof) ∧
      ∃ t ∈ script.library.theorems.find? "T",
        (∃ s ∈ t.requirements, (t.instantiation args).apply s.expr = .ok (.bind .all "_x" (.binary .equals
          (.bind .those "__x" (.binary .elementOf (.var "__x")
            (.bind .those "__x" (.binary .elementOf (.var "__x") (.var "_x"))))) (.var "_x")))) ∧
        ((t.instantiation args).apply t.hypothesis.expr).isOk = false := by
    decide +kernel
  obtain ⟨script, hread, hresolve, args, _, hreference, t, ht, ⟨s, hs, hd⟩, hfails⟩ := hdecided
  have h := instantiates_of_reason ht hreference
  have hrequirement := instances_expand hread hresolve h (List.mem_cons_of_mem _ hs)
  have hhypothesis := instances_expand hread hresolve h (List.mem_cons_self ..)
  refine ⟨script, t, args, hread, hresolve, h, ⟨s, hs, _, hd, rfl, ?_⟩, hhypothesis.1.mp ?_⟩
  · have hstuck : ¬s.expr.HasCall (t.Stuck args) := by
      rw [← hrequirement.1, hd]
      exact nofun
    obtain ⟨d, hd', hform⟩ := hrequirement.2 hstuck
    cases hd.symm.trans hd'
    exact hform
  · cases hcause : (t.instantiation args).apply t.hypothesis.expr with
    | error cause => exact ⟨cause, rfl⟩
    | ok d =>
      rw [hcause] at hfails
      cases hfails

end Script

end ProofScript
