import ProofScript.Proofs.Instances

/-!
# Names of instances

Where the names of an instance come from, role by role: as objects, as functions, as operators and as
binders. `follows_replaced` is the one induction; what is said about names of instances elsewhere
chooses what it asks of a name in each role. Templates are filled in the same way, and a filled
template is known to have no placeholder among its objects.
-/

namespace ProofScript

-- ---------------------------------------------------------------- names and their roles

def Operator.name? : Operator → Option String
  | named x => some x
  | _ => none

namespace Expr

mutual
/-- The names that stand free as objects. -/
def objects : Expr → List String
  | var x => [x]
  | call _ args => objectsAll args
  | binary _ l r => l.objects ++ r.objects
  | not e => e.objects
  | bind _ x body => body.objects.filter (· != x)
  | group _ items => objectsAll items
def objectsAll : List Expr → List String
  | [] => []
  | e :: es => e.objects ++ objectsAll es
end

mutual
/-- The names that stand as operators. No binder has anything to do with them. -/
def operators : Expr → List String
  | var _ => []
  | call _ args => operatorsAll args
  | binary op l r => op.name?.toList ++ (l.operators ++ r.operators)
  | not e => e.operators
  | bind _ _ body => body.operators
  | group _ items => operatorsAll items
def operatorsAll : List Expr → List String
  | [] => []
  | e :: es => e.operators ++ operatorsAll es
end

theorem mem_objectsAll : x ∈ objectsAll es ↔ ∃ e ∈ es, x ∈ e.objects := by
  induction es with
  | nil => simp [objectsAll]
  | cons e es ih => simp [objectsAll, ih]

theorem mem_operatorsAll : x ∈ operatorsAll es ↔ ∃ e ∈ es, x ∈ e.operators := by
  induction es with
  | nil => simp [operatorsAll]
  | cons e es ih => simp [operatorsAll, ih]

/-- A free name stands as an object or as a function. -/
theorem mem_free_iff {e : Expr} : x ∈ e.free ↔ x ∈ e.objects ∨ x ∈ e.functions := by
  induction e using Expr.induction with
  | var y => simp [free, objects, functions]
  | call f args ih =>
    simp only [free, objects, functions, List.mem_cons, mem_freeAll, mem_objectsAll, mem_functionsAll]
    grind
  | binary op l r ihl ihr =>
    simp only [free, objects, functions, List.mem_append, ihl, ihr]
    grind
  | not e ih => exact ih
  | bind q y body ih =>
    simp only [free, objects, functions, List.mem_filter, ih]
    grind
  | group g items ih =>
    simp only [free, objects, functions, mem_freeAll, mem_objectsAll, mem_functionsAll]
    grind

end Expr

/-- What is asked of a name in each of its roles. -/
structure Roles where
  object : String → Prop
  function : String → Prop
  operator : String → Prop
  binder : String → Prop

namespace Expr

/-- The names of the expression have what is asked of them. Nothing is asked of the free names that the
binders around bind. -/
structure Follows (R : Roles) (bound : List String) (e : Expr) : Prop where
  objects : ∀ x ∈ e.objects, x ∈ bound ∨ R.object x
  functions : ∀ f ∈ e.functions, f ∈ bound ∨ R.function f
  operators : ∀ o ∈ e.operators, R.operator o
  binders : ∀ x ∈ e.binders, R.binder x

section
variable {R S : Roles} {bound : List String}

theorem Follows.mono {e : Expr} (h : e.Follows R bound)
    (hobject : ∀ x ∈ e.objects, x ∈ bound ∨ R.object x → x ∈ more ∨ S.object x)
    (hfunction : ∀ f ∈ e.functions, f ∈ bound ∨ R.function f → f ∈ more ∨ S.function f)
    (hoperator : ∀ o, R.operator o → S.operator o) (hbinder : ∀ x, R.binder x → S.binder x) :
    e.Follows S more where
  objects := fun x hx => hobject x hx (h.objects x hx)
  functions := fun f hf => hfunction f hf (h.functions f hf)
  operators := fun o ho => hoperator o (h.operators o ho)
  binders := fun x hx => hbinder x (h.binders x hx)

theorem follows_var : (var x).Follows R bound ↔ x ∈ bound ∨ R.object x := by
  refine ⟨fun h => h.objects x (List.mem_singleton.mpr rfl), fun h => ⟨?_, ?_, ?_, ?_⟩⟩
  · exact List.forall_mem_singleton.mpr h
  all_goals exact List.forall_mem_nil _

/-- Parts follow the roles one by one, and all together. -/
theorem follows_all : (∀ a ∈ es, a.Follows R bound) ↔
    (∀ x ∈ objectsAll es, x ∈ bound ∨ R.object x) ∧ (∀ f ∈ functionsAll es, f ∈ bound ∨ R.function f) ∧
      (∀ o ∈ operatorsAll es, R.operator o) ∧ ∀ x ∈ bindersAll es, R.binder x := by
  constructor
  · intro h
    refine ⟨fun x hx => ?_, fun f hf => ?_, fun o ho => ?_, fun x hx => ?_⟩
    · obtain ⟨a, ha, hx⟩ := mem_objectsAll.mp hx
      exact (h a ha).objects x hx
    · obtain ⟨a, ha, hf⟩ := mem_functionsAll.mp hf
      exact (h a ha).functions f hf
    · obtain ⟨a, ha, ho⟩ := mem_operatorsAll.mp ho
      exact (h a ha).operators o ho
    · obtain ⟨a, ha, hx⟩ := mem_bindersAll.mp hx
      exact (h a ha).binders x hx
  · rintro ⟨hobjects, hfunctions, hoperators, hbinders⟩ a ha
    exact {
      objects := fun x hx => hobjects x (mem_objectsAll.mpr ⟨a, ha, hx⟩)
      functions := fun f hf => hfunctions f (mem_functionsAll.mpr ⟨a, ha, hf⟩)
      operators := fun o ho => hoperators o (mem_operatorsAll.mpr ⟨a, ha, ho⟩)
      binders := fun x hx => hbinders x (mem_bindersAll.mpr ⟨a, ha, hx⟩) }

theorem follows_call : (call f args).Follows R bound ↔
    (f ∈ bound ∨ R.function f) ∧ ∀ a ∈ args, a.Follows R bound := by
  rw [follows_all]
  constructor
  · rintro ⟨hobjects, hfunctions, hoperators, hbinders⟩
    obtain ⟨hf, hfunctions⟩ := List.forall_mem_cons.mp hfunctions
    exact ⟨hf, hobjects, hfunctions, hoperators, hbinders⟩
  · rintro ⟨hf, hobjects, hfunctions, hoperators, hbinders⟩
    exact ⟨hobjects, List.forall_mem_cons.mpr ⟨hf, hfunctions⟩, hoperators, hbinders⟩

theorem follows_group : (group g items).Follows R bound ↔ ∀ a ∈ items, a.Follows R bound := by
  rw [follows_all]
  exact ⟨fun ⟨hobjects, hfunctions, hoperators, hbinders⟩ => ⟨hobjects, hfunctions, hoperators, hbinders⟩,
    fun ⟨hobjects, hfunctions, hoperators, hbinders⟩ => ⟨hobjects, hfunctions, hoperators, hbinders⟩⟩

theorem follows_binary : (binary op l r).Follows R bound ↔
    (∀ o ∈ op.name?, R.operator o) ∧ l.Follows R bound ∧ r.Follows R bound := by
  constructor
  · rintro ⟨hobjects, hfunctions, hoperators, hbinders⟩
    simp only [objects, functions, operators, binders, List.forall_mem_append, Option.mem_toList] at *
    exact ⟨hoperators.1, ⟨hobjects.1, hfunctions.1, hoperators.2.1, hbinders.1⟩,
      hobjects.2, hfunctions.2, hoperators.2.2, hbinders.2⟩
  · rintro ⟨hop, hl, hr⟩
    constructor <;>
      simp only [objects, functions, operators, binders, List.forall_mem_append, Option.mem_toList]
    · exact ⟨hl.objects, hr.objects⟩
    · exact ⟨hl.functions, hr.functions⟩
    · exact ⟨hop, hl.operators, hr.operators⟩
    · exact ⟨hl.binders, hr.binders⟩

theorem follows_not : (not e).Follows R bound ↔ e.Follows R bound :=
  ⟨fun ⟨hobjects, hfunctions, hoperators, hbinders⟩ => ⟨hobjects, hfunctions, hoperators, hbinders⟩,
    fun ⟨hobjects, hfunctions, hoperators, hbinders⟩ => ⟨hobjects, hfunctions, hoperators, hbinders⟩⟩

theorem follows_bind : (bind q y body).Follows R bound ↔ R.binder y ∧ body.Follows R (y :: bound) := by
  have hmem (x : String) (P : Prop) : (x ≠ y → x ∈ bound ∨ P) ↔ x ∈ y :: bound ∨ P := by
    by_cases hx : x = y <;> simp [hx]
  constructor
  · rintro ⟨hobjects, hfunctions, hoperators, hbinders⟩
    refine ⟨hbinders y (List.mem_cons_self ..), fun x hx => ?_, fun f hf => ?_, hoperators, fun x hx => ?_⟩
    · exact (hmem x _).mp fun hne => hobjects x (by simp [objects, hx, hne])
    · exact (hmem f _).mp fun hne => hfunctions f (mem_functions_bind.mpr ⟨hf, hne⟩)
    · exact hbinders x (List.mem_cons_of_mem _ hx)
  · rintro ⟨hy, hobjects, hfunctions, hoperators, hbinders⟩
    refine ⟨fun x hx => ?_, fun f hf => ?_, hoperators, List.forall_mem_cons.mpr ⟨hy, hbinders⟩⟩
    · obtain ⟨hx, hne⟩ : x ∈ body.objects ∧ x ≠ y := by simpa [objects] using hx
      exact (hmem x _).mpr (hobjects x hx) hne
    · obtain ⟨hf, hne⟩ := mem_functions_bind.mp hf
      exact (hmem f _).mpr (hfunctions f hf) hne

end

-- ---------------------------------------------------------------- placeholders

theorem any_eq_any_inside (p : Expr → Bool) (e : Expr) : e.any p = e.inside.any p := by
  have hall {es : List Expr} (h : ∀ a ∈ es, a.any p = a.inside.any p) :
      anyAll p es = (insideAll es).any p := by
    induction es with
    | nil => rfl
    | cons e es ih =>
      obtain ⟨he, hes⟩ := List.forall_mem_cons.mp h
      simp [anyAll, insideAll, he, ih hes]
  induction e using Expr.induction with
  | var x => simp [any, inside]
  | call f args ih => simp [any, inside, hall ih]
  | binary op l r ihl ihr => simp [any, inside, ihl, ihr, Bool.or_assoc]
  | not e ih => simp [any, inside, ih]
  | bind q x body ih => simp [any, inside, ih]
  | group g items ih => simp [any, inside, hall ih]

theorem hasPlaceholder_iff {e : Expr} :
    e.hasPlaceholder = true ↔ ∃ x, var x ∈ e.inside ∧ Name.isPlaceholder x = true := by
  unfold hasPlaceholder
  rw [any_eq_any_inside, List.any_eq_true]
  constructor
  · rintro ⟨d, hd, h⟩
    cases d with
    | var x => exact ⟨x, hd, h⟩
    | _ => cases h
  · rintro ⟨x, hx, h⟩
    exact ⟨_, hx, h⟩

theorem inside_of_objects {e : Expr} (hx : x ∈ e.objects) : var x ∈ e.inside := by
  induction e using Expr.induction with
  | var y =>
    obtain rfl := List.mem_singleton.mp hx
    exact self_mem_inside _
  | call f args ih | group g args ih =>
    obtain ⟨a, ha, hx⟩ := mem_objectsAll.mp hx
    exact List.mem_cons_of_mem _ (mem_insideAll.mpr ⟨a, ha, ih a ha hx⟩)
  | binary op l r ihl ihr =>
    refine List.mem_cons_of_mem _ (List.mem_append.mpr ?_)
    exact (List.mem_append.mp hx).imp ihl ihr
  | not e ih => exact List.mem_cons_of_mem _ (ih hx)
  | bind q y body ih => exact List.mem_cons_of_mem _ (ih (List.mem_filter.mp hx).1)

theorem objects_of_inside {e : Expr} (hx : var x ∈ e.inside) : x ∈ e.objects ∨ x ∈ e.binders := by
  induction e using Expr.induction with
  | var y => exact .inl (by simpa [inside, objects] using hx)
  | call f args ih | group g args ih =>
    obtain ⟨a, ha, hx⟩ := mem_insideAll.mp ((List.mem_cons.mp hx).resolve_left (by simp))
    refine (ih a ha hx).imp (fun hx => ?_) fun hx => mem_bindersAll.mpr ⟨a, ha, hx⟩
    exact mem_objectsAll.mpr ⟨a, ha, hx⟩
  | binary op l r ihl ihr =>
    simp only [objects, binders, List.mem_append]
    rcases List.mem_append.mp ((List.mem_cons.mp hx).resolve_left (by simp)) with hx | hx
    · exact (ihl hx).imp .inl .inl
    · exact (ihr hx).imp .inr .inr
  | not e ih => exact ih ((List.mem_cons.mp hx).resolve_left (by simp))
  | bind q y body ih =>
    by_cases hxy : x = y
    · exact .inr (by simp [binders, hxy])
    · refine (ih ((List.mem_cons.mp hx).resolve_left (by simp))).imp (fun hx => ?_) (List.mem_cons_of_mem _)
      simp [objects, hx, hxy]

theorem hasPlaceholder_of_objects {e : Expr} (hx : x ∈ e.objects)
    (hplaceholder : Name.isPlaceholder x = true) : e.hasPlaceholder = true :=
  hasPlaceholder_iff.mpr ⟨x, inside_of_objects hx, hplaceholder⟩

/-- What is asked of the names of an expression that is to have no placeholders as objects. -/
def clean : Roles where
  object x := Name.isPlaceholder x = false
  function _ := True
  operator _ := True
  binder x := Name.isPlaceholder x = false

theorem Follows.hasPlaceholder {e : Expr} (h : e.Follows clean []) : e.hasPlaceholder = false := by
  refine Bool.eq_false_iff.mpr fun hp => ?_
  obtain ⟨x, hx, hp⟩ := hasPlaceholder_iff.mp hp
  rcases objects_of_inside hx with hx | hx
  · have hclean : Name.isPlaceholder x = false := (h.objects x hx).resolve_left List.not_mem_nil
    exact Bool.noConfusion (hclean.symm.trans hp)
  · have hclean : Name.isPlaceholder x = false := h.binders x hx
    exact Bool.noConfusion (hclean.symm.trans hp)

-- ---------------------------------------------------------------- instances

end Expr

namespace Roles

/-- What has to be asked of a statement, if its instances are to follow the roles: nothing of a name that
is replaced, and of a binder whatever it may be renamed to. -/
def before (R : Roles) (ts : NameMap Expr) (σ : Substitution) : Roles where
  object x := σ.find? x = none → R.object x
  function f := σ.find? f = none → ts.find? f = none → R.function f
  operator := R.operator
  binder x := ∀ taken, R.binder (Name.fresh taken x)

/-- What has to be asked of a template: nothing of placeholders as objects, because all are filled. -/
def ofTemplate (R : Roles) : Roles where
  object x := Name.isPlaceholder x = false → R.object x
  function := R.function
  operator := R.operator
  binder x := ∀ taken, R.binder (Name.fresh taken x)

end Roles

namespace Expr

section
variable {R : Roles} {bound : List String} {ts : NameMap Expr} {σ : Substitution}

/-- What replaces a name may stand in its place, also as a function if it is a name itself. -/
def Supplies (R : Roles) (bound : List String) (σ : Substitution) : Prop :=
  ∀ z r, σ.find? z = some r → r.Follows R bound ∧ ∀ g, r = var g → g ∈ bound ∨ R.function g

theorem Supplies.under (h : Supplies R bound σ) (x y : String) :
    Supplies R (y :: bound) (σ.insert x (var y)) := by
  refine NameMap.forall_find?_insert (fun z r hr => ⟨?_, fun g hg => ?_⟩) ⟨?_, fun g hg => ?_⟩
  · refine (h z r hr).1.mono (fun _ _ => ?_) (fun _ _ => ?_) (fun _ => id) fun _ => id
    all_goals exact Or.imp_left (List.mem_cons_of_mem _)
  · exact ((h z r hr).2 g hg).imp_left (List.mem_cons_of_mem _)
  · exact follows_var.mpr (.inl (List.mem_cons_self ..))
  · cases hg
    exact .inl (List.mem_cons_self ..)

/-- Under a binder its own name is replaced, so nothing more has to be asked of the body. -/
theorem Follows.under {body : Expr} (h : body.Follows (R.before ts σ) [x]) :
    body.Follows (R.before ts (σ.insert x (var y))) [] := by
  refine h.mono (fun z _ hz => .inr fun hnone => ?_) (fun f _ hf => .inr fun hnone => ?_)
    (fun _ => id) fun _ => id
  · obtain ⟨hne, hnone⟩ := NameMap.find?_insert_eq_none.mp hnone
    exact hz.resolve_left (by simp [hne]) hnone
  · obtain ⟨hne, hnone⟩ := NameMap.find?_insert_eq_none.mp hnone
    exact hf.resolve_left (by simp [hne]) hnone

theorem follows_headName (hf : R.before ts σ |>.function f) (hσ : Supplies R bound σ)
    (ht : ts.find? f = none) (h : headName σ f = .ok g) : g ∈ bound ∨ R.function g := by
  unfold headName at h
  split at h
  · rename_i hnone
    cases h
    exact .inr (hf hnone ht)
  · rename_i g hsome
    cases h
    exact (hσ f _ hsome).2 g rfl
  · cases h

/-- The names of an instance follow the roles, if those of the statement, of the replacements and of
filled templates do. -/
theorem follows_replaced (hfill : ∀ t ∈ ts.values, ∀ bound args r, (∀ a ∈ args, a.Follows R bound) →
      t.fill args = .ok r → r.Follows R bound)
    (he : e.Follows (R.before ts σ) []) (hσ : Supplies R bound σ) (h : replaced ts e σ = .ok d) :
    d.Follows R bound := by
  induction e using Expr.induction generalizing σ bound d with
  | var x =>
    cases h
    cases hx : σ.find? x with
    | none => exact follows_var.mpr (.inr ((follows_var.mp he).resolve_left List.not_mem_nil hx))
    | some r => exact (hσ x r hx).1
  | call f args ih =>
    obtain ⟨hf, hargs⟩ := follows_call.mp he
    have hparts {ds} (hds : replacedAll ts args σ = .ok ds) : ∀ d ∈ ds, d.Follows R bound := by
      intro d hd
      obtain ⟨a, ha, had⟩ := replacedAll_mem hds d hd
      exact ih a ha (hargs a ha) hσ had
    cases ht : ts.find? f with
    | some t =>
      obtain ⟨ds, hds, h⟩ := (replaced_template ht).mp h
      exact hfill t (NameMap.mem_values ht) bound ds d (hparts hds) h
    | none =>
      obtain ⟨g, hg, ds, hds, rfl⟩ := (replaced_call ht).mp h
      have hg := follows_headName (hf.resolve_left List.not_mem_nil) hσ ht hg
      exact follows_call.mpr ⟨hg, hparts hds⟩
  | binary op l r ihl ihr =>
    obtain ⟨hop, hl, hr⟩ := follows_binary.mp he
    obtain ⟨l', hl', r', hr', rfl⟩ := replaced_binary.mp h
    exact follows_binary.mpr ⟨hop, ihl hl hσ hl', ihr hr hσ hr'⟩
  | not e ih =>
    obtain ⟨e', he', rfl⟩ := replaced_not.mp h
    exact follows_not.mpr (ih (follows_not.mp he) hσ he')
  | bind q x body ih =>
    obtain ⟨hx, hbody⟩ := follows_bind.mp he
    obtain ⟨body', hbody', rfl⟩ := replaced_bind.mp h
    exact follows_bind.mpr ⟨hx _, ih hbody.under (hσ.under _ _) hbody'⟩
  | group g items ih =>
    obtain ⟨ds, hds, rfl⟩ := replaced_group.mp h
    refine follows_group.mpr fun d hd => ?_
    obtain ⟨a, ha, had⟩ := replacedAll_mem hds d hd
    exact ih a ha (follows_group.mp he a ha) hσ had

/-- An object may get into the place of a function. -/
theorem supplies_of_follows (hobject : ∀ x, R.object x → R.function x)
    (h : ∀ z r, σ.find? z = some r → r.Follows R bound) : Supplies R bound σ := by
  refine fun z r hr => ⟨h z r hr, fun g hg => ?_⟩
  subst hg
  exact (follows_var.mp (h z _ hr)).imp_right (hobject g)

theorem supplies_positional (hobject : ∀ x, R.object x → R.function x)
    (hargs : ∀ a ∈ args, a.Follows R bound) : Supplies R bound (positional args) :=
  supplies_of_follows hobject fun _ r hr => hargs r (of_positional hr).2

/-- A template follows the roles when it is filled. -/
theorem follows_fill {t : Expr} (hobject : ∀ x, R.object x → R.function x) (ht : t.Follows R.ofTemplate [])
    (hargs : ∀ a ∈ args, a.Follows R bound) (h : t.fill args = .ok r) : r.Follows R bound := by
  have hfilled := (fill_eq_ok.mp h).2
  -- first without regard to placeholders that are left, then there are none
  have hloose : r.Follows { R with object := fun x => Name.isPlaceholder x = false → R.object x } bound := by
    refine follows_replaced (fun _ h => absurd h List.not_mem_nil) (ht.mono ?_ ?_ ?_ ?_) ?_ (replaced_of_fill h)
    · exact fun x _ => Or.imp_right fun hx _ => hx
    · exact fun f _ => Or.imp_right fun hf _ _ => hf
    · exact fun _ => id
    · exact fun _ => id
    · intro z a ha
      obtain ⟨hfollows, hname⟩ := supplies_positional hobject hargs z a ha
      exact ⟨hfollows.mono (fun x _ => Or.imp_right fun hx _ => hx) (fun _ _ => id) (fun _ => id)
        fun _ => id, hname⟩
  refine ⟨fun x hx => (hloose.objects x hx).imp_right fun h => h ?_, hloose.functions, hloose.operators,
    hloose.binders⟩
  exact Bool.eq_false_iff.mpr fun hplaceholder =>
    Bool.noConfusion (hfilled.symm.trans (hasPlaceholder_of_objects hx hplaceholder))

/-- An instance follows the roles, if the statement, the arguments and the templates do. -/
theorem follows_instance (hobject : ∀ x, R.object x → R.function x)
    (ht : ∀ t ∈ ts.values, t.Follows R.ofTemplate []) (he : e.Follows (R.before ts σ) [])
    (hσ : Supplies R bound σ) (h : replaced ts e σ = .ok d) : d.Follows R bound :=
  follows_replaced (fun t hmem _ _ _ hargs hfill => follows_fill hobject (ht t hmem) hargs hfill) he hσ h

/-- An object that is not replaced is still there. -/
theorem objects_replaced (h : replaced ∅ e σ = .ok d) (hx : x ∈ e.objects) (hσ : σ.find? x = none) :
    x ∈ d.objects := by
  induction e using Expr.induction generalizing σ d with
  | var y =>
    cases h
    obtain rfl := List.mem_singleton.mp hx
    simp [hσ, objects]
  | call f args ih =>
    obtain ⟨g, _, ds, hds, rfl⟩ := (replaced_call (NameMap.find?_empty f)).mp h
    obtain ⟨a, ha, hx⟩ := mem_objectsAll.mp hx
    obtain ⟨d, hd, had⟩ := replacedAll_ok hds a ha
    exact mem_objectsAll.mpr ⟨d, hd, ih a ha had hx hσ⟩
  | binary op l r ihl ihr =>
    obtain ⟨l', hl, r', hr, rfl⟩ := replaced_binary.mp h
    exact List.mem_append.mpr ((List.mem_append.mp hx).imp (ihl hl · hσ) (ihr hr · hσ))
  | not e ih =>
    obtain ⟨e', he, rfl⟩ := replaced_not.mp h
    exact ih (d := e') he hx hσ
  | bind q y body ih =>
    obtain ⟨body', hbody, rfl⟩ := replaced_bind.mp h
    obtain ⟨hx, hxy⟩ : x ∈ body.objects ∧ x ≠ y := by simpa [objects] using hx
    have hfresh : x ≠ Name.fresh (body.free ++ freeAll σ.values) y := by
      intro hx'
      refine Name.fresh_not_mem (body.free ++ freeAll σ.values) y (List.mem_append_left _ ?_)
      exact hx' ▸ mem_free_iff.mpr (.inl hx)
    simpa [objects, hfresh] using ih hbody hx (by rwa [NameMap.find?_insert_ne _ _ hxy])
  | group g items ih =>
    obtain ⟨ds, hds, rfl⟩ := replaced_group.mp h
    obtain ⟨a, ha, hx⟩ := mem_objectsAll.mp hx
    obtain ⟨d, hd, had⟩ := replacedAll_ok hds a ha
    exact mem_objectsAll.mpr ⟨d, hd, ih a ha had hx hσ⟩

end

end Expr

namespace Theorem

variable {R : Roles} {args : List Expr} (hobject : ∀ x, R.object x → R.function x)
  (hplain : ∀ a ∈ args, a.hasPlaceholder = false → a.Follows R [])
include hobject hplain

theorem supplies_instantiation : Expr.Supplies R [] (instantiation t args).plain := by
  refine Expr.supplies_of_follows hobject fun p a ha => ?_
  obtain ⟨hmem, ha⟩ := List.mem_filter.mp (NameMap.find?_ofList_mem ha)
  exact hplain a (List.of_mem_zip hmem).2 (by simpa using ha)

/-- An instance of a sentence follows the roles, if the sentence and the arguments do. -/
theorem follows_apply (htemplate : ∀ a ∈ args, a.Follows R.ofTemplate [])
    (he : e.Follows (R.before (instantiation t args).templates (instantiation t args).plain) [])
    (hd : (instantiation t args).apply e = .ok d) : d.Follows R [] := by
  rw [Instantiation.apply_eq_replaced] at hd
  exact Expr.follows_instance hobject (fun a ha => htemplate a (instantiation_templates ha).1) he
    (supplies_instantiation hobject hplain) hd

end Theorem

end ProofScript
