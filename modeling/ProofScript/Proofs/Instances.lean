import ProofScript.Proofs.AnalysisSound

/-!
# What instances of theorems mean

An instance of a statement means in an environment what the statement itself means in the
environment that gives each parameter the meaning of its argument. For a template this is a function
that belongs to no object, so that environment need not be coherent.
-/

namespace ProofScript

-- ---------------------------------------------------------------- placeholders

theorem NameMap.find?_ofList_map (f : α → β) (entries : List (String × α)) (z : String) :
    (ofList (entries.map fun (x, a) => (x, f a))).find? z = ((ofList entries).find? z).map f := by
  induction entries using List.reverseRecOn with
  | nil => rfl
  | append_singleton rest entry ih =>
    obtain ⟨x, a⟩ := entry
    rw [List.map_append, List.map_singleton, ofList_concat, ofList_concat]
    by_cases hz : z = x
    · subst hz
      rw [find?_insert_self, find?_insert_self, Option.map_some]
    · rw [find?_insert_ne _ _ hz, find?_insert_ne _ _ hz, ih]

theorem NameMap.find?_ofList_mem {entries : List (String × α)}
    (h : (ofList entries).find? z = some a) : (z, a) ∈ entries := by
  induction entries using List.reverseRecOn with
  | nil => cases h
  | append_singleton rest entry ih =>
    obtain ⟨x, b⟩ := entry
    rw [ofList_concat] at h
    rcases find?_insert_eq_some.mp h with ⟨rfl, rfl⟩ | ⟨_, h⟩
    · exact List.mem_append_right _ (List.mem_singleton.mpr rfl)
    · exact List.mem_append_left _ (ih h)

theorem NameMap.find?_ofList_eq_none {entries : List (String × α)} :
    (ofList entries).find? z = none ↔ z ∉ entries.map Prod.fst := by
  induction entries using List.reverseRecOn with
  | nil => exact iff_of_true rfl List.not_mem_nil
  | append_singleton rest entry ih =>
    obtain ⟨x, b⟩ := entry
    rw [ofList_concat, find?_insert_eq_none, ih]
    simp [and_comm]

theorem NameMap.mem_values_insert {m : NameMap α} (h : b ∈ (m.insert x a).values) :
    b = a ∨ b ∈ m.values := by
  simp only [values, insert] at h ⊢
  generalize m.entries = entries at h ⊢
  induction entries with
  | nil => simpa [insertEntry] using h
  | cons entry rest ih =>
    obtain ⟨y, c⟩ := entry
    simp only [insertEntry] at h
    split at h
    · simp only [List.map_cons, List.mem_cons] at h ⊢
      exact h.imp_right .inr
    · simp only [List.map_cons, List.mem_cons] at h ⊢
      rcases h with rfl | h
      · exact .inr (.inl rfl)
      · exact (ih h).imp_right .inr

theorem NameMap.mem_values_ofList {entries : List (String × α)} (h : a ∈ (ofList entries).values) :
    ∃ x, (x, a) ∈ entries := by
  induction entries using List.reverseRecOn with
  | nil => cases h
  | append_singleton rest entry ih =>
    obtain ⟨x, b⟩ := entry
    rw [ofList_concat] at h
    rcases mem_values_insert h with rfl | h
    · exact ⟨x, List.mem_append_right _ (List.mem_singleton_self _)⟩
    · obtain ⟨y, hy⟩ := ih h
      exact ⟨y, List.mem_append_left _ hy⟩

namespace Name

/-- The number of each of the first `n` placeholders. -/
def positions (n : Nat) : NameMap Nat := .ofList ((List.range n).map fun i => (placeholder i, i))

theorem isPlaceholder_placeholder (i : Nat) : isPlaceholder (placeholder i) = true := by
  have hlist : (placeholder i).toList = '_' :: Nat.toDigits 10 i := by
    simp [placeholder, String.toList_append, Nat.repr_eq_ofList_toDigits]
  unfold isPlaceholder
  rw [hlist]
  cases hdigits : Nat.toDigits 10 i with
  | nil => exact absurd hdigits Nat.toDigits_ne_nil
  | cons c cs =>
    refine List.all_eq_true.mpr fun d hd => ?_
    exact Nat.isDigit_of_mem_toDigits (by omega) (by omega) (hdigits ▸ hd)

end Name

theorem Expr.find?_positional (args : List Expr) (z : String) :
    (positional args).find? z = ((Name.positions args.length).find? z).map (args.getD · (.var z)) := by
  unfold Name.positions
  rw [← NameMap.find?_ofList_map]
  refine congrArg (NameMap.find? · z) (congrArg NameMap.ofList ?_)
  refine List.ext_getElem (by simp) fun i h _ => ?_
  have hi : i < args.length := by simpa using h
  simp [List.getD_eq_getElem?_getD, hi]

/-- A filled template has no placeholder as an object. -/
theorem Expr.fill_eq_ok {t : Expr} : t.fill args = .ok r ↔
    t.substitute (positional args) = .ok r ∧ r.hasPlaceholder = false := by
  unfold fill
  rw [bind_eq_ok]
  constructor
  · rintro ⟨d, hd, h⟩
    split at h
    · cases h
    · rename_i hnone
      cases h
      exact ⟨hd, by simpa using hnone⟩
  · rintro ⟨hr, hnone⟩
    exact ⟨r, hr, by simp [hnone]; rfl⟩

theorem Expr.replaced_of_fill {t : Expr} (h : t.fill args = .ok r) :
    t.replaced ∅ (positional args) = .ok r :=
  substitute_eq_replaced t _ ▸ (fill_eq_ok.mp h).1

/-- Arguments stand for placeholders. -/
theorem Expr.of_positional (h : (positional args).find? z = some e) :
    Name.isPlaceholder z = true ∧ e ∈ args := by
  obtain ⟨⟨a, i⟩, ha, hi⟩ := List.mem_map.mp (NameMap.find?_ofList_mem h)
  obtain ⟨rfl, rfl⟩ := Prod.mk.inj hi
  exact ⟨Name.isPlaceholder_placeholder i, List.fst_mem_of_mem_zipIdx ha⟩

namespace Expr

-- ---------------------------------------------------------------- functions of instances

/-- Where a function of an instance comes from, given the functions of the statement. -/
inductive Supplied (ts : NameMap Expr) (σ : Substitution) (fs : List String) (f : String) : Prop
  | kept (hf : f ∈ fs) (hσ : σ.find? f = none)
  | renamed (hg : g ∈ fs) (hσ : σ.find? g = some (var f))
  | replacement (hσ : σ.find? z = some r) (hf : f ∈ r.functions)
  | template (ht : t ∈ ts.values) (hf : f ∈ t.free)

theorem Supplied.mono (h : Supplied ts σ fs f) (hsub : ∀ g ∈ fs, g ∈ gs) : Supplied ts σ gs f := by
  cases h with
  | kept hf hσ => exact .kept (hsub f hf) hσ
  | renamed hg hσ => exact .renamed (hsub _ hg) hσ
  | replacement hσ hf => exact .replacement hσ hf
  | template ht hf => exact .template ht hf

/-- Under a binder its own name stands for the new one. -/
theorem Supplied.outside (h : Supplied ts (σ.insert x (var y)) fs f) (hne : f ≠ y)
    (hsub : ∀ g ∈ fs, g ≠ x → g ∈ gs) : Supplied ts σ gs f := by
  cases h with
  | kept hf hσ =>
    obtain ⟨hfx, hσ⟩ := NameMap.find?_insert_eq_none.mp hσ
    exact .kept (hsub f hf hfx) hσ
  | renamed hg hσ =>
    rcases NameMap.find?_insert_eq_some.mp hσ with ⟨_, hy⟩ | ⟨hgx, hσ⟩
    · cases hy
      exact absurd rfl hne
    · exact .renamed (hsub _ hg hgx) hσ
  | replacement hσ hf =>
    rcases NameMap.find?_insert_eq_some.mp hσ with ⟨_, rfl⟩ | ⟨_, hσ⟩
    · cases hf
    · exact .replacement hσ hf
  | template ht hf => exact .template ht hf

theorem supplied_headName (hf : f ∈ fs) (h : headName σ f = .ok g) : Supplied ts σ fs g := by
  unfold headName at h
  split at h
  · rename_i hnone
    cases h
    exact .kept hf hnone
  · rename_i g hsome
    cases h
    exact .renamed hf hsome
  · cases h

theorem functions_replaced (hfill : ∀ t ∈ ts.values, ∀ args r, t.fill args = .ok r →
      ∀ f ∈ r.functions, f ∈ t.free ∨ f ∈ functionsAll args)
    (h : replaced ts e σ = .ok d) : ∀ f ∈ d.functions, Supplied ts σ e.functions f := by
  induction e using Expr.induction generalizing σ d with
  | var x =>
    cases h
    intro f hf
    cases hx : σ.find? x with
    | none => simp [hx, functions] at hf
    | some r => exact .replacement hx (by simpa [hx] using hf)
  | call f args ih =>
    have hargs {ds} (hds : replacedAll ts args σ = .ok ds) :
        ∀ f ∈ functionsAll ds, Supplied ts σ (functionsAll args) f := by
      intro f hf
      obtain ⟨d, hd, hf⟩ := mem_functionsAll.mp hf
      obtain ⟨a, ha, had⟩ := replacedAll_mem hds d hd
      exact (ih a ha had f hf).mono fun g hg => mem_functionsAll.mpr ⟨a, ha, hg⟩
    intro g hg
    cases ht : ts.find? f with
    | some t =>
      obtain ⟨ds, hds, h⟩ := (replaced_template ht).mp h
      rcases hfill t (NameMap.mem_values ht) ds d h g hg with hg | hg
      · exact .template (NameMap.mem_values ht) hg
      · exact (hargs hds g hg).mono fun g hg => List.mem_cons_of_mem _ hg
    | none =>
      obtain ⟨f', hf', ds, hds, rfl⟩ := (replaced_call ht).mp h
      rcases List.mem_cons.mp hg with rfl | hg
      · exact supplied_headName (List.mem_cons_self ..) hf'
      · exact (hargs hds g hg).mono fun g hg => List.mem_cons_of_mem _ hg
  | binary op l r ihl ihr =>
    obtain ⟨l', hl, r', hr, rfl⟩ := replaced_binary.mp h
    intro f hf
    rcases List.mem_append.mp hf with hf | hf
    · exact (ihl hl f hf).mono fun g hg => List.mem_append_left _ hg
    · exact (ihr hr f hf).mono fun g hg => List.mem_append_right _ hg
  | not e ih =>
    obtain ⟨e', he', rfl⟩ := replaced_not.mp h
    exact fun f hf => ih he' f hf
  | bind q x body ih =>
    obtain ⟨body', hbody, rfl⟩ := replaced_bind.mp h
    intro f hf
    obtain ⟨hf, hne⟩ := mem_functions_bind.mp hf
    exact (ih hbody f hf).outside hne fun g hg hgx => mem_functions_bind.mpr ⟨hg, hgx⟩
  | group g items ih =>
    obtain ⟨ds, hds, rfl⟩ := replaced_group.mp h
    intro f hf
    obtain ⟨d, hd, hf⟩ := mem_functionsAll.mp hf
    obtain ⟨a, ha, had⟩ := replacedAll_mem hds d hd
    exact (ih a ha had f hf).mono fun g hg => mem_functionsAll.mpr ⟨a, ha, hg⟩

/-- A template that calls no placeholder, filled, has its own functions and those of the arguments. -/
theorem functions_fill {t : Expr} (hcalls : ∀ f ∈ t.functions, Name.isPlaceholder f = false)
    (h : t.fill args = .ok r) : ∀ f ∈ r.functions, f ∈ t.free ∨ f ∈ functionsAll args := by
  intro f hf
  cases functions_replaced (fun _ ht => absurd ht List.not_mem_nil) (replaced_of_fill h) f hf with
  | kept hf _ => exact .inl (free_of_functions hf)
  | renamed hg hσ =>
    exact Bool.noConfusion ((hcalls _ hg).symm.trans (of_positional hσ).1)
  | replacement hσ hf => exact .inr (mem_functionsAll.mpr ⟨_, (of_positional hσ).2, hf⟩)
  | template ht _ => exact absurd ht List.not_mem_nil

/-- The new name of a binder is not called in its body, if the old one was not. -/
theorem fresh_not_called {body : Expr} {σ : Substitution}
    (hfill : ∀ t ∈ ts.values, ∀ args r, t.fill args = .ok r →
      ∀ f ∈ r.functions, f ∈ t.free ∨ f ∈ functionsAll args)
    (hy : ∀ t ∈ ts.values, Name.fresh (body.free ++ freeAll σ.values) x ∉ t.free)
    (hx : x ∉ body.functions)
    (h : replaced ts body
      (σ.insert x (var (Name.fresh (body.free ++ freeAll σ.values) x))) = .ok d) :
    Name.fresh (body.free ++ freeAll σ.values) x ∉ d.functions := by
  have hfresh := Name.fresh_not_mem (body.free ++ freeAll σ.values) x
  rw [List.mem_append, not_or] at hfresh
  have hvalue {z r} (hr : σ.find? z = some r) :
      Name.fresh (body.free ++ freeAll σ.values) x ∉ r.free :=
    fun hfree => hfresh.2 (mem_freeAll.mpr ⟨r, NameMap.mem_values hr, hfree⟩)
  intro hcalled
  cases functions_replaced hfill h _ hcalled with
  | kept hf _ => exact hfresh.1 (free_of_functions hf)
  | @renamed g hg hr =>
    have hgx : g ≠ x := fun hgx => hx (hgx ▸ hg)
    rw [NameMap.find?_insert_ne _ _ hgx] at hr
    exact hvalue hr (List.mem_singleton.mpr rfl)
  | replacement hr hf =>
    rcases NameMap.find?_insert_eq_some.mp hr with ⟨_, rfl⟩ | ⟨_, hr⟩
    · cases hf
    · exact hvalue hr (free_of_functions hf)
  | template ht hf => exact hy _ ht hf

end Expr

namespace Interpretation

open Expr

variable {D : Type u} {I : Interpretation D} {E : Env D → Prop}

-- ---------------------------------------------------------------- templates

variable (I) in
/-- The function of a template: what the template denotes with the arguments at its placeholders. -/
noncomputable def filled (t : Expr) (ρ : Env D) (values : List D) : D :=
  I.denote t { ρ with
    object := fun z => ((Name.positions values.length).find? z).elim (ρ.object z)
      (values.getD · (ρ.object z)) }

/-- A template that calls no placeholder gives, filled, the value of its function. -/
theorem denote_fill {t : Expr} (hcalls : ∀ f ∈ t.functions, Name.isPlaceholder f = false)
    (h : t.fill args = .ok r) (ρ : Env D) :
    I.denote r ρ = I.filled t ρ (args.map (I.denote · ρ)) := by
  rw [denote_substitute (fill_eq_ok.mp h).1]
  refine denote_congr_functions (fun z _ => ?_) (fun f hf => ?_)
  · show I.denote (((positional args).find? z).getD (.var z)) ρ =
      ((Name.positions (args.map (I.denote · ρ)).length).find? z).elim (ρ.object z)
        ((args.map (I.denote · ρ)).getD · (ρ.object z))
    rw [find?_positional, List.length_map]
    cases (Name.positions args.length).find? z with
    | none => rfl
    | some i =>
      simp only [Option.map_some, Option.getD_some, Option.elim_some, List.getD_eq_getElem?_getD,
        List.getElem?_map]
      cases args[i]? <;> rfl
  · have hnone : (positional args).find? f = none := by
      cases hfind : (positional args).find? f with
      | none => rfl
      | some a =>
        exact Bool.noConfusion ((hcalls f hf).symm.trans (of_positional hfind).1)
    simp [beforeSubst, before, NameMap.find?_empty, hnone]

theorem filled_bind {t : Expr} (hy : y ∉ t.free) (ρ : Env D) (d : D) :
    I.filled t (I.bind ρ y d) = I.filled t ρ := by
  funext values
  refine denote_congr fun z hz => ?_
  have hzy : z ≠ y := fun h => hy (h ▸ hz)
  simp [Env.SameAt, bind, hzy]

-- ---------------------------------------------------------------- parts of instances

theorem sits_of_not_bind (hbind : e.bindsFunction = false) (hiff : ∀ l r, e ≠ binary .iff l r) :
    I.Sits E e :=
  ⟨fun l r h => absurd h (hiff l r), .inr hbind⟩

theorem fitsAll (h : ∀ e ∈ es, I.Fits E e) : ∀ d ∈ insideAll es, I.Sits E d := by
  intro d hd
  obtain ⟨e, he, hd⟩ := mem_insideAll.mp hd
  exact h e he d hd

theorem fits_var : I.Fits E (.var x) :=
  List.forall_mem_singleton.mpr (sits_of_not_bind rfl nofun)

theorem fits_not (h : I.Fits E e) : I.Fits E (.not e) :=
  List.forall_mem_cons.mpr ⟨sits_of_not_bind rfl nofun, h⟩

theorem fits_some (h : I.Fits E body) (hx : (∀ ρ, E ρ → I.Coherent ρ) ∨ x ∉ body.functions) :
    I.Fits E (.bind q x body) := by
  refine List.forall_mem_cons.mpr ⟨⟨nofun, hx.imp_right fun hx => ?_⟩, h⟩
  simpa [bindsFunction] using hx

variable (I) in
/-- A statement that the templates can be put into: it fits, and its binders and their new names have
nothing to do with the templates. -/
structure Ready (F : Env D → Prop) (Φ : Expr → Env D → List D → D) (ts : NameMap Expr) (e : Expr) :
    Prop where
  spares : Spares I Φ ts e
  bound : ∀ x ∈ e.binders, ∀ taken, ∀ t ∈ ts.values, Name.fresh taken x ∉ t.free
  fits : I.Fits F e

theorem Ready.part {F : Env D → Prop} (h : I.Ready F Φ ts e) (hp : p ∈ e.inside) :
    I.Ready F Φ ts p where
  spares := h.spares.part fun _ => binders_of_inside hp
  bound := fun x hx => h.bound x (binders_of_inside hp hx)
  fits := h.fits.part hp

/-- An instance fits if the statement, the replacements and the filled templates do. Its equivalences
are those of the statement in another environment, and its binders have names that nothing put into
them uses. -/
theorem fits_replaced {F : Env D → Prop} {Φ : Expr → Env D → List D → D}
    (hΦ : ∀ t ∈ ts.values, ∀ ρ args r, t.fill args = .ok r →
      I.denote r ρ = Φ t ρ (args.map (I.denote · ρ)))
    (hfunctions : ∀ t ∈ ts.values, ∀ args r, t.fill args = .ok r →
      ∀ f ∈ r.functions, f ∈ t.free ∨ f ∈ functionsAll args)
    (hfill : ∀ t ∈ ts.values, ∀ args r, (∀ a ∈ args, I.Fits E a) → t.fill args = .ok r →
      I.Fits E r)
    (hbefore : ∀ σ ρ, E ρ → F (I.before ts Φ σ ρ))
    (hcoherent : (∀ ρ, F ρ → I.Coherent ρ) → ∀ ρ, E ρ → I.Coherent ρ) (he : I.Ready F Φ ts e)
    (hσ : ∀ z r, σ.find? z = some r → I.Fits E r) (h : e.replaced ts σ = .ok d) :
    I.Fits E d := by
  induction e using Expr.induction generalizing σ d with
  | var x =>
    cases h
    cases hx : σ.find? x with
    | none => exact fits_var
    | some r => exact hσ x r hx
  | call f args ih =>
    have hargs {ds} (hds : replacedAll ts args σ = .ok ds) : ∀ d ∈ ds, I.Fits E d := by
      intro d hd
      obtain ⟨a, ha, had⟩ := replacedAll_mem hds d hd
      exact ih a ha (he.part (arg_mem_inside ha)) hσ had
    cases ht : ts.find? f with
    | some t =>
      obtain ⟨ds, hds, h⟩ := (replaced_template ht).mp h
      exact hfill t (NameMap.mem_values ht) ds d (hargs hds) h
    | none =>
      obtain ⟨g, _, ds, hds, rfl⟩ := (replaced_call ht).mp h
      exact List.forall_mem_cons.mpr ⟨sits_of_not_bind rfl (by simp), fitsAll (hargs hds)⟩
  | binary op l r ihl ihr =>
    obtain ⟨l', hl, r', hr, rfl⟩ := replaced_binary.mp h
    have hleft : I.Ready F Φ ts l := he.part left_mem_inside
    have hright : I.Ready F Φ ts r := he.part right_mem_inside
    refine List.forall_mem_cons.mpr ⟨⟨?_, .inr rfl⟩, List.forall_mem_append.mpr ⟨?_, ?_⟩⟩
    · rintro _ _ ⟨⟩ ρ hρ
      rw [denote_replaced hΦ hleft.spares hl, denote_replaced hΦ hright.spares hr]
      exact (he.fits _ (self_mem_inside _)).boolean l r rfl _ (hbefore σ ρ hρ)
    · exact ihl hleft hσ hl
    · exact ihr hright hσ hr
  | not e ih =>
    obtain ⟨e', he', rfl⟩ := replaced_not.mp h
    exact fits_not (ih (he.part negated_mem_inside) hσ he')
  | bind q x body ih =>
    have hroot := (he.fits _ (self_mem_inside _)).instances
    obtain ⟨body', hbody, rfl⟩ := replaced_bind.mp h
    refine fits_some (ih (he.part body_mem_inside) (NameMap.forall_find?_insert hσ fits_var) hbody)
      (hroot.imp hcoherent fun hx => ?_)
    have hx : x ∉ body.functions := by simpa [bindsFunction] using hx
    exact fresh_not_called hfunctions (he.bound x (List.mem_cons_self ..) _) hx hbody
  | group g items ih =>
    obtain ⟨ds, hds, rfl⟩ := replaced_group.mp h
    refine List.forall_mem_cons.mpr ⟨sits_of_not_bind rfl (by simp), fitsAll fun d hd => ?_⟩
    obtain ⟨a, ha, had⟩ := replacedAll_mem hds d hd
    exact ih a ha (he.part (item_mem_inside ha)) hσ had

-- ---------------------------------------------------------------- instances of statements

variable (I) in
/-- The environments that a theorem is about. A name denotes one object, which is applied where the
name is used as a function; a theorem of the general kind is about any functions. -/
def Admits (general : Bool) (ρ : Env D) : Prop := general = true ∨ I.Coherent ρ

theorem Admits.bind (h : I.Admits general ρ) (x : String) (d : D) :
    I.Admits general (I.bind ρ x d) :=
  h.imp_right fun h => h.bind x d

variable (I) in
/-- The environment in which a theorem is used by an instance of it. -/
noncomputable def instantiated (i : Instantiation) (ρ : Env D) : Env D :=
  I.before i.templates I.filled i.plain ρ

end Interpretation

namespace Instantiation

open Expr

theorem apply_eq_replaced (i : Instantiation) (e : Expr) :
    i.apply e = e.replaced i.templates i.plain := by
  rw [apply, replaceFree_answers i.templates e]

/-- A statement of a theorem may be used in a proof. Unless the theorem is of the general kind,
neither is the proof, and no template is used. A template calls no placeholder and has nothing to do
with the binders of the statement or the names these may get. -/
structure Suits (inGeneral ofGeneral : Bool) (i : Instantiation) (e : Expr) : Prop where
  kind : ofGeneral = true ∨ inGeneral = false ∧ i.templates = ∅
  calls : ∀ t ∈ i.templates.values, ∀ f ∈ t.functions, Name.isPlaceholder f = false
  bound : ∀ x ∈ e.binders, i.templates.find? x = none ∧
    ∀ taken, ∀ t ∈ i.templates.values, Name.fresh taken x ∉ t.free

variable {D : Type u} {I : Interpretation D} {i : Instantiation} {inGeneral ofGeneral : Bool}

theorem Suits.spares (h : i.Suits inGeneral ofGeneral e) :
    Interpretation.Spares I I.filled i.templates e := fun x hx =>
  ⟨(h.bound x hx).1, fun taken ρ d t ht =>
    Interpretation.filled_bind ((h.bound x hx).2 taken t ht) ρ d⟩

theorem Suits.holds (h : i.Suits inGeneral ofGeneral e) (hd : i.apply e = .ok d) (ρ : Env D) :
    I.Holds ρ d ↔ I.Holds (I.instantiated i ρ) e := by
  unfold Interpretation.Holds Interpretation.instantiated
  rw [Interpretation.denote_replaced (fun t ht _ _ _ hfill => Interpretation.denote_fill (h.calls t ht) hfill _)
    h.spares (apply_eq_replaced i e ▸ hd) ρ]

theorem Suits.admits (h : i.Suits inGeneral ofGeneral e) (σ : Substitution)
    (hρ : I.Admits inGeneral ρ) : I.Admits ofGeneral (I.before i.templates I.filled σ ρ) := by
  refine h.kind.imp id fun ⟨hgeneral, hnone⟩ => ?_
  rw [hnone]
  exact Interpretation.coherent_before (hρ.resolve_left (by simp [hgeneral])) _ _

/-- A filled template fits if the template and the arguments do. -/
theorem fits_fill {t : Expr} (ht : I.Fits (I.Admits general) t)
    (hargs : ∀ a ∈ args, I.Fits (I.Admits general) a) (h : t.fill args = .ok r) :
    I.Fits (I.Admits general) r := by
  refine Interpretation.fits_replaced (Φ := I.filled) (fun _ h => absurd h List.not_mem_nil)
    (fun _ h => absurd h List.not_mem_nil) (fun _ h => absurd h List.not_mem_nil) (fun σ ρ hρ => ?_) id
    ⟨Interpretation.spares_empty, fun _ _ _ _ h => absurd h List.not_mem_nil, ht⟩ (fun z a ha => ?_)
    (replaced_of_fill h)
  · exact hρ.imp_right fun hρ => Interpretation.coherent_before hρ _ _
  · exact hargs a (of_positional ha).2

/-- An instance fits if the statement and the arguments do. -/
theorem Suits.fits (h : i.Suits inGeneral ofGeneral e) (hd : i.apply e = .ok d)
    (he : I.Fits (I.Admits ofGeneral) e)
    (hplain : ∀ z r, i.plain.find? z = some r → I.Fits (I.Admits inGeneral) r)
    (htemplates : ∀ t ∈ i.templates.values, I.Fits (I.Admits inGeneral) t) :
    I.Fits (I.Admits inGeneral) d := by
  refine Interpretation.fits_replaced (F := I.Admits ofGeneral) (Φ := I.filled)
    (fun t ht ρ _ _ hfill => Interpretation.denote_fill (h.calls t ht) hfill ρ)
    (fun t ht _ _ hfill => functions_fill (h.calls t ht) hfill)
    (fun t ht _ _ hargs hfill => fits_fill (htemplates t ht) hargs hfill)
    (fun σ ρ => h.admits σ) (fun hcoherent ρ hρ => ?_)
    ⟨h.spares, fun x hx taken => (h.bound x hx).2 taken, he⟩ hplain (apply_eq_replaced i e ▸ hd)
  rcases h.kind with hgeneral | ⟨hgeneral, _⟩
  · exact hcoherent ρ (.inl hgeneral)
  · exact hρ.resolve_left (by simp [hgeneral])

end Instantiation

-- ---------------------------------------------------------------- arguments

namespace Theorem

theorem instantiation_plain (h : (instantiation t args).plain.find? x = some e) :
    x ∈ t.parameters ∧ e ∈ args :=
  List.of_mem_zip (List.mem_filter.mp (NameMap.find?_ofList_mem h)).1

theorem instantiation_template (h : (instantiation t args).templates.find? x = some e) :
    x ∈ t.parameters ∧ e ∈ args :=
  List.of_mem_zip (List.mem_filter.mp (NameMap.find?_ofList_mem h)).1

theorem instantiation_templates (h : e ∈ (instantiation t args).templates.values) :
    e ∈ args ∧ e.hasPlaceholder = true := by
  obtain ⟨x, hx⟩ := NameMap.mem_values_ofList h
  obtain ⟨hzip, htemplate⟩ := List.mem_filter.mp hx
  exact ⟨(List.of_mem_zip hzip).2, htemplate⟩

theorem instantiation_of_plain (h : ∀ e ∈ args, e.hasPlaceholder = false) :
    (instantiation t args).templates = ∅ := by
  refine congrArg NameMap.ofList (List.filter_eq_nil_iff.mpr fun p hp => ?_)
  simp [h p.2 (List.of_mem_zip hp).2]

end Theorem

end ProofScript
