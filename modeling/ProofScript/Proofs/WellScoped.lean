import Mathlib.Data.Set.Insert
import ProofScript.Proofs.Reading
import ProofScript.Resolution

/-!
# Well-scoped scripts

Which names may be used and introduced at a place of a script, said without the scopes that name
resolution opens and closes. Main statement: name resolution accepts exactly the well-scoped
scripts. The lemmas on the way say of each part of a script when it resolves and which objects it
leaves in scope.
-/

namespace ProofScript

-- ---------------------------------------------------------------- expressions

/-- Names that may be introduced where the names of `Γ` are visible. -/
def Fresh (Γ : Set String) (x : String) : Prop := Name.isReserved x = false ∧ x ∉ Γ

/-- Names that may be used where the names of `Γ` are visible. -/
def Usable (Γ : Set String) (x : String) : Prop := Name.isNumeral x = true ∨ x ∈ Γ

namespace Expr

/-- `e.Part around d` says that `d` stands in `e`, inside binders of the names `around`. -/
inductive Part : Expr → List String → Expr → Prop
  | self : Part e [] e
  | argument : a ∈ args → Part a around d → Part (.call f args) around d
  | left : Part l around d → Part (.binary op l r) around d
  | right : Part r around d → Part (.binary op l r) around d
  | inner : Part e around d → Part (.not e) around d
  | body : Part e around d → Part (.bind q x e) (x :: around) d
  | item : a ∈ items → Part a around d → Part (.group g items) around d

/-- The name that an expression itself uses, as a variable, as a function or as an operator. -/
def used? : Expr → Option String
  | var x => some x
  | call f _ => some f
  | binary (.named x) _ _ => some x
  | _ => none

/-- Every name that is used is visible or bound around its place, and every binder introduces a name
that is neither. -/
structure WellScoped (Γ : Set String) (e : Expr) : Prop where
  uses : e.Part around d → d.used? = some x → Usable (Γ ∪ {y | y ∈ around}) x
  binders : e.Part around (.bind q x body) → Fresh (Γ ∪ {y | y ∈ around}) x

-- The parts of an expression are itself and the parts of its immediate parts.

section
variable {Γ : Set String}

theorem wellScoped_var : (var x).WellScoped Γ ↔ Usable Γ x := by
  constructor
  · intro h
    simpa using h.uses .self rfl
  · intro hx
    constructor
    · rintro _ _ _ ⟨⟩ ⟨⟩
      simpa using hx
    · rintro _ _ _ _ ⟨⟩

theorem wellScoped_call :
    (call f args).WellScoped Γ ↔ Usable Γ f ∧ ∀ a ∈ args, a.WellScoped Γ := by
  constructor
  · intro h
    refine ⟨by simpa using h.uses .self rfl, fun a ha => ⟨fun hd => ?_, fun hd => ?_⟩⟩
    · exact h.uses (.argument ha hd)
    · exact h.binders (.argument ha hd)
  · rintro ⟨hf, hargs⟩
    constructor
    · rintro _ _ _ hd hx
      cases hd with
      | self =>
        cases hx
        simpa using hf
      | argument ha hd => exact (hargs _ ha).uses hd hx
    · rintro _ _ _ _ ⟨⟩
      rename_i ha hd
      exact (hargs _ ha).binders hd

theorem wellScoped_binary : (binary op l r).WellScoped Γ ↔
    l.WellScoped Γ ∧ (∀ x, op = .named x → Usable Γ x) ∧ r.WellScoped Γ := by
  constructor
  · intro h
    refine ⟨⟨fun hd => h.uses (.left hd), fun hd => h.binders (.left hd)⟩, ?_,
      ⟨fun hd => h.uses (.right hd), fun hd => h.binders (.right hd)⟩⟩
    rintro x rfl
    simpa using h.uses .self rfl
  · rintro ⟨hl, hop, hr⟩
    constructor
    · intro _ _ x hd hx
      cases hd with
      | self =>
        have hnamed : op = .named x := by
          cases op <;> cases hx
          rfl
        simpa using hop x hnamed
      | left hd => exact hl.uses hd hx
      | right hd => exact hr.uses hd hx
    · intro _ _ _ _ hd
      cases hd with
      | left hd => exact hl.binders hd
      | right hd => exact hr.binders hd

theorem wellScoped_not : (not e).WellScoped Γ ↔ e.WellScoped Γ := by
  refine ⟨fun h => ⟨fun hd => h.uses (.inner hd), fun hd => h.binders (.inner hd)⟩, fun h => ⟨?_, ?_⟩⟩
  · rintro _ _ _ ⟨⟩ hx
    · cases hx
    · exact h.uses ‹_› hx
  · rintro _ _ _ _ ⟨⟩
    exact h.binders ‹_›

/-- The names around a part of the body are those around it there and the name of the binder. -/
theorem wellScoped_bind :
    (bind q x body).WellScoped Γ ↔ Fresh Γ x ∧ body.WellScoped (Γ ∪ {y | y ∈ [x]}) := by
  have hnames (around : List String) :
      Γ ∪ {y | y ∈ x :: around} = Γ ∪ {y | y ∈ [x]} ∪ {y | y ∈ around} := by
    ext y
    simp only [Set.mem_union, Set.mem_ofPred_eq, List.mem_cons, List.not_mem_nil, or_false, or_assoc]
  constructor
  · intro h
    refine ⟨by simpa using h.binders .self, fun hd hx => ?_, fun hd => ?_⟩
    · exact hnames _ ▸ h.uses (.body hd) hx
    · exact hnames _ ▸ h.binders (.body hd)
  · rintro ⟨hfresh, hbody⟩
    constructor
    · intro _ _ _ hd hx
      cases hd with
      | self => cases hx
      | body hd => exact hnames _ ▸ hbody.uses hd hx
    · intro _ _ _ _ hd
      cases hd with
      | self => simpa using hfresh
      | body hd => exact hnames _ ▸ hbody.binders hd

theorem wellScoped_group : (group g items).WellScoped Γ ↔ ∀ a ∈ items, a.WellScoped Γ := by
  constructor
  · exact fun h a ha => ⟨fun hd => h.uses (.item ha hd), fun hd => h.binders (.item ha hd)⟩
  · intro h
    constructor
    · rintro _ _ _ ⟨⟩ hx
      · cases hx
      · rename_i ha hd
        exact (h _ ha).uses hd hx
    · rintro _ _ _ _ ⟨⟩
      rename_i ha hd
      exact (h _ ha).binders hd

end

end Expr

-- ---------------------------------------------------------------- scripts

/-- What can be named at a place of a script. -/
structure Visible where
  objects : Set String
  /-- The number of parameters of each theorem. -/
  theorems : String → Option Nat
  definitions : Set String

namespace Visible

def nothing : Visible := ⟨∅, fun _ => none, ∅⟩

def withObjects (V : Visible) (xs : List String) : Visible :=
  { V with objects := V.objects ∪ {x | x ∈ xs} }

def withTheorem (V : Visible) (t : Theorem) : Visible :=
  { V with theorems := fun x => if x = t.name then some t.parameters.length else V.theorems x }

/-- A definition is visible as an object, too. -/
def withDefinition (V : Visible) (d : Definition) : Visible :=
  { V.withObjects [d.name] with definitions := insert d.name V.definitions }

/-- What is visible after a declaration. -/
def after (V : Visible) : Declaration → Visible
  | .ofTheorem t => V.withTheorem t
  | .ofDefinition d => V.withDefinition d

end Visible

/-- The names that stand for the arguments of a template. -/
def placeholders (slots : Nat) : List String := (List.range slots).map Name.placeholder

/-- What is cited is visible. A reference has as many arguments as the theorem has parameters, and
placeholders are visible in them. -/
def Justification.WellScoped (slots : Nat) (V : Visible) : Justification → Prop
  | admitted => True
  | definition x => x ∈ V.definitions
  | instantiation x args => V.theorems x = some args.length ∧
    ∀ a ∈ args, a.WellScoped (V.withObjects (placeholders slots)).objects

namespace Step

/-- An object that is chosen is visible in the expression it satisfies, in its justification and to
the end of the block. What the blocks of a case distinction choose is visible nowhere else. -/
inductive WellScopedAll (slots : Nat) : Visible → List Step → Prop
  | nil : WellScopedAll slots V []
  | claim : e.WellScoped V.objects → (∀ j ∈ reason, j.WellScoped slots V) →
    WellScopedAll slots V rest → WellScopedAll slots V (.claim n e reason :: rest)
  | choose : Fresh V.objects x → e.WellScoped (V.withObjects [x]).objects →
    (∀ j ∈ reason, j.WellScoped slots (V.withObjects [x])) →
    WellScopedAll slots (V.withObjects [x]) rest →
    WellScopedAll slots V (.choose n x e reason :: rest)
  | cases : c.WellScoped V.objects → WellScopedAll slots V yes → WellScopedAll slots V no →
    WellScopedAll slots V both → WellScopedAll slots V rest →
    WellScopedAll slots V (.cases n c yes no both :: rest)
  | check : WellScopedAll slots V rest → WellScopedAll slots V (.check n :: rest)
  | admitted : WellScopedAll slots V rest → WellScopedAll slots V (.admitted n :: rest)

end Step

/-- Parameters are new, and visible in all of the theorem. It cannot cite itself. -/
structure Theorem.WellScoped (slots : Nat) (V : Visible) (t : Theorem) : Prop where
  name : V.theorems t.name = none
  distinct : t.parameters.Nodup
  parameters : ∀ p ∈ t.parameters, Fresh V.objects p
  requirements : ∀ s ∈ t.requirements, s.expr.WellScoped (V.withObjects t.parameters).objects
  hypothesis : t.hypothesis.expr.WellScoped (V.withObjects t.parameters).objects
  proof : Step.WellScopedAll slots (V.withObjects t.parameters) t.proof

/-- A definition is visible in its own rules and can be cited in its own proof. -/
structure Definition.WellScoped (slots : Nat) (V : Visible) (d : Definition) : Prop where
  name : d.name ∉ V.definitions
  fresh : Fresh V.objects d.name
  rules : ∀ s ∈ d.rules, s.expr.WellScoped (V.withDefinition d).objects
  proof : Step.WellScopedAll slots (V.withDefinition d) d.proof

def Declaration.WellScoped (slots : Nat) (V : Visible) : Declaration → Prop
  | .ofTheorem t => t.WellScoped slots V
  | .ofDefinition d => d.WellScoped slots V

/-- What is visible in the proof of a declaration. -/
def Visible.inside (V : Visible) : Declaration → Visible
  | .ofTheorem t => V.withObjects t.parameters
  | .ofDefinition d => V.withDefinition d

namespace Declaration

/-- The proof of a theorem, or that there is what is defined. -/
def proof : Declaration → List Step
  | ofTheorem t => t.proof
  | ofDefinition d => d.proof

/-- What the proof may assume. -/
def assumptions : Declaration → List Expr
  | ofTheorem t => t.requirements.map Sentence.expr
  | ofDefinition _ => []

variable {V : Visible} {d : Declaration}

theorem WellScoped.steps (h : d.WellScoped slots V) : Step.WellScopedAll slots (V.inside d) d.proof := by
  cases d with
  | ofTheorem t => exact Theorem.WellScoped.proof h
  | ofDefinition d => exact Definition.WellScoped.proof h

theorem WellScoped.assumptions (h : d.WellScoped slots V) :
    ∀ e ∈ d.assumptions, e.WellScoped (V.inside d).objects := by
  cases d with
  | ofTheorem t => exact List.forall_mem_map.mpr (Theorem.WellScoped.requirements h)
  | ofDefinition d => exact List.forall_mem_nil _

end Declaration

/-- Each declaration is well-scoped with what was declared before it. -/
def Script.WellScoped (slots : Nat) : Visible → Script → Prop
  | _, [] => True
  | V, d :: rest => d.WellScoped slots V ∧ Script.WellScoped slots (V.after d) rest

theorem Script.wellScoped_append {slots : Nat} {before after : Script} {V : Visible} :
    Script.WellScoped slots V (before ++ after) ↔
      before.WellScoped slots V ∧ after.WellScoped slots (before.foldl Visible.after V) := by
  induction before generalizing V with
  | nil => exact (and_iff_right trivial).symm
  | cons d before ih => exact (and_congr_right fun _ => ih).trans and_assoc.symm

-- ---------------------------------------------------------------- blocks

namespace Step

/-- Induction over a block: its first step decides the case, and the blocks inside that step are met
like the rest. -/
@[elab_as_elim] theorem blockInduction {motive : List Step → Prop} (nil : motive [])
    (claim : ∀ line e reason rest, motive rest → motive (.claim line e reason :: rest))
    (choose : ∀ line x e reason rest, motive rest → motive (.choose line x e reason :: rest))
    (cases : ∀ line c yes no both rest, motive yes → motive no → motive both → motive rest →
      motive (.cases line c yes no both :: rest))
    (check : ∀ line rest, motive rest → motive (.check line :: rest))
    (admitted : ∀ line rest, motive rest → motive (.admitted line :: rest)) (steps : List Step) :
    motive steps :=
  @Step.rec_1 (fun s => ∀ rest, motive rest → motive (s :: rest)) motive claim choose
    (fun line c yes no both hyes hno hboth rest hrest =>
      cases line c yes no both rest hyes hno hboth hrest)
    check admitted nil (fun _ _ hs hrest => hs _ hrest) steps

/-- The object that a step adds to those in scope. -/
def introduced? : Step → Option String
  | choose _ x _ _ => some x
  | _ => none

/-- The objects in scope at the end of a block that were not in scope at its start. -/
def introduced (steps : List Step) : List String := steps.filterMap introduced?

end Step

-- ---------------------------------------------------------------- what name resolution sees

def Symbols.visible (s : Symbols) : Visible where
  objects := {x | x ∈ s.objects.items}
  theorems := s.theorems.find?
  definitions := {x | x ∈ s.definitions}

namespace Symbols

def entered (s : Symbols) (tag : String) : Symbols := { s with objects := s.objects.enter tag }

/-- The same symbols with more objects in the innermost scope. -/
def extended (s : Symbols) (xs : List String) : Symbols := { s with objects := s.objects.addAll xs }

def withTheorem (s : Symbols) (t : Theorem) : Symbols :=
  { s with theorems := s.theorems.insert t.name t.parameters.length }

def withDefinition (s : Symbols) (d : Definition) : Symbols :=
  { s.extended [d.name] with definitions := d.name :: s.definitions }

def after (s : Symbols) : Declaration → Symbols
  | .ofTheorem t => s.withTheorem t
  | .ofDefinition d => s.withDefinition d

theorem visible_nothing : ({} : Symbols).visible = .nothing := by
  simp only [visible, Visible.nothing, Visible.mk.injEq, Set.eq_empty_iff_forall_notMem]
  exact ⟨fun _ => List.not_mem_nil, rfl, fun _ => List.not_mem_nil⟩

theorem visible_entered (s : Symbols) (tag : String) : (s.entered tag).visible = s.visible := by
  simp [visible, entered, Scopes.items_enter]

theorem visible_extended (s : Symbols) (xs : List String) :
    (s.extended xs).visible = s.visible.withObjects xs := by
  simp [visible, extended, Visible.withObjects, Scopes.items_addAll, Set.ext_iff]

theorem extended_nil (s : Symbols) : s.extended [] = s := by
  simp [extended, Scopes.addAll_nil]

theorem extended_extended (s : Symbols) (xs ys : List String) :
    (s.extended xs).extended ys = s.extended (xs ++ ys) := by
  simp [extended, Scopes.addAll_addAll]

theorem visible_withTheorem (s : Symbols) (t : Theorem) :
    (s.withTheorem t).visible = s.visible.withTheorem t := by
  have hfind (x : String) : (s.theorems.insert t.name t.parameters.length).find? x =
      if x = t.name then some t.parameters.length else s.theorems.find? x := by
    split
    · rename_i h
      rw [h, NameMap.find?_insert_self]
    · rename_i h
      exact NameMap.find?_insert_ne _ _ h
  simp [visible, withTheorem, Visible.withTheorem, funext hfind]

theorem visible_withDefinition (s : Symbols) (d : Definition) :
    (s.withDefinition d).visible = s.visible.withDefinition d := by
  have hextended := s.visible_extended [d.name]
  have hdefinitions : {x | x ∈ d.name :: s.definitions} = insert d.name {x | x ∈ s.definitions} := by
    ext x
    simp
  show { (s.extended [d.name]).visible with definitions := {x | x ∈ d.name :: s.definitions} } = _
  rw [hextended, hdefinitions]
  rfl

theorem visible_after (s : Symbols) (d : Declaration) : (s.after d).visible = s.visible.after d := by
  cases d with
  | ofTheorem t => exact s.visible_withTheorem t
  | ofDefinition d => exact s.visible_withDefinition d

theorem visible_foldl_after (script : Script) (s : Symbols) :
    (script.foldl after s).visible = script.foldl Visible.after s.visible := by
  induction script generalizing s with
  | nil => rfl
  | cons d rest ih => rw [List.foldl_cons, List.foldl_cons, ih, s.visible_after]

end Symbols

namespace Resolve

-- ---------------------------------------------------------------- runs

theorem bind_run_ok {m : Resolve α} {f : α → Resolve β} :
    (m >>= f).run s = (.ok b, w) ↔ ∃ a u, m.run s = (.ok a, u) ∧ (f a).run u = (.ok b, w) :=
  run_run_bind_ok

theorem throw_run_ok : ¬(throw cause : Resolve α).run s = (.ok b, w) := nofun

theorem get_run_ok {f : Symbols → Resolve α} :
    (get >>= f).run s = (.ok a, w) ↔ (f s).run s = (.ok a, w) := Iff.rfl

/-- A test before an action. -/
theorem guard_run_ok {p : Prop} [Decidable p] {m : Unit → Resolve α} :
    (if p then throw cause >>= fun u => m u else m ()).run s = (.ok a, w) ↔
      ¬p ∧ (m ()).run s = (.ok a, w) := by
  split
  · exact ⟨nofun, fun h => absurd ‹p› h.1⟩
  · exact ⟨fun h => ⟨‹_›, h⟩, fun h => h.2⟩

/-- The action succeeds exactly where `P` holds of what is visible, and then `xs` are the objects that
it has added to the innermost scope. -/
def Resolves (m : Resolve Unit) (xs : List String) (P : Visible → Prop) : Prop :=
  ∀ s w, m.run s = (.ok (), w) ↔ w = s.extended xs ∧ P s.visible

namespace Resolves

theorem congr {m : Resolve Unit} (hm : Resolves m xs P) (h : ∀ V, P V ↔ Q V) : Resolves m xs Q :=
  fun s w => (hm s w).trans (and_congr_right fun _ => h s.visible)

theorem pure : Resolves (Pure.pure ()) [] fun _ => True := by
  intro s w
  show (Except.ok (), s) = (Except.ok (), w) ↔ _
  simp [Symbols.extended_nil, eq_comm]

theorem throw (cause : Rejection) : Resolves (MonadExcept.throw cause) [] fun _ => False :=
  fun _ _ => ⟨fun h => absurd h throw_run_ok, fun h => h.2.elim⟩

theorem bind {m n : Resolve Unit} (hm : Resolves m xs P) (hn : Resolves n ys Q) :
    Resolves (m >>= fun _ => n) (xs ++ ys) fun V => P V ∧ Q (V.withObjects xs) := by
  intro s w
  rw [bind_run_ok]
  constructor
  · rintro ⟨_, u, hrun, hrun'⟩
    obtain ⟨rfl, hP⟩ := (hm s u).mp hrun
    obtain ⟨rfl, hQ⟩ := (hn _ w).mp hrun'
    rw [Symbols.visible_extended] at hQ
    exact ⟨Symbols.extended_extended .., hP, hQ⟩
  · rintro ⟨rfl, hP, hQ⟩
    rw [← Symbols.visible_extended] at hQ
    refine ⟨(), s.extended xs, (hm s _).mpr ⟨rfl, hP⟩, (hn _ _).mpr ⟨?_, hQ⟩⟩
    exact (Symbols.extended_extended ..).symm

/-- An action that adds nothing comes first. -/
theorem andThen {m n : Resolve Unit} (hm : Resolves m [] P) (hn : Resolves n ys Q) :
    Resolves (m >>= fun _ => n) ys fun V => P V ∧ Q V :=
  (hm.bind hn).congr fun V => by simp [Visible.withObjects]

/-- What is added in a scope is gone after it. -/
theorem within {m : Resolve Unit} (hm : Resolves m xs P) : Resolves (within tag m) [] P := by
  have hexit (s : Symbols) : (exit tag).run ((s.entered tag).extended xs) = (.ok (), s) := by
    refine get_run_ok.mpr ?_
    simp only [Symbols.entered, Symbols.extended, Scopes.exit_enter_addAll]
    rfl
  intro s w
  rw [Symbols.extended_nil]
  show (m >>= fun _ => exit tag).run (s.entered tag) = (.ok (), w) ↔ _
  rw [bind_run_ok]
  constructor
  · rintro ⟨_, u, hrun, hrun'⟩
    obtain ⟨rfl, hP⟩ := (hm _ u).mp hrun
    rw [hexit] at hrun'
    cases hrun'
    exact ⟨rfl, s.visible_entered tag ▸ hP⟩
  · rintro ⟨rfl, hP⟩
    exact ⟨(), _, (hm _ _).mpr ⟨rfl, (w.visible_entered tag).symm ▸ hP⟩, hexit w⟩

theorem forM {f : α → Resolve Unit} {Q : α → Visible → Prop} (hf : ∀ a, Resolves (f a) [] (Q a))
    (as : List α) : Resolves (as.forM f) [] fun V => ∀ a ∈ as, Q a V := by
  induction as with
  | nil => exact pure.congr fun V => by simp
  | cons a as ih => exact ((hf a).andThen ih).congr fun V => by simp

theorem addAll (xs : List String) : Resolves (addAll xs) xs fun _ => True := by
  intro s w
  show (Except.ok (), s.extended xs) = (Except.ok (), w) ↔ _
  simp [eq_comm]

theorem declare (line : Nat) (x : String) :
    Resolves (declare line x) [x] fun V => Fresh V.objects x := by
  intro s w
  dsimp only [Resolve.declare]
  rw [guard_run_ok, get_run_ok, guard_run_ok, add, addAll [x] s w]
  rw [← and_assoc, and_comm]
  simp [Fresh, Symbols.visible, Scopes.contains]

theorem use (line : Nat) (x : String) : Resolves (use line x) [] fun V => Usable V.objects x := by
  intro s w
  unfold Resolve.use
  rw [get_run_ok]
  split
  · rename_i h
    rw [pure s w]
    simpa [Usable, Symbols.visible, Scopes.contains] using fun _ => h
  · rename_i h
    rw [throw _ s w]
    simpa [Usable, Symbols.visible, Scopes.contains] using fun _ => h

/-- Parameters are declared one after the other, so none of them is there twice. -/
theorem parameters (line : Nat) (xs : List String) : Resolves (xs.forM (Resolve.declare line)) xs
    fun V => xs.Nodup ∧ ∀ x ∈ xs, Fresh V.objects x := by
  induction xs with
  | nil => exact pure.congr fun V => by simp
  | cons x xs ih =>
    refine ((declare line x).bind ih).congr fun V => ?_
    simp only [Fresh, Visible.withObjects, List.nodup_cons, List.forall_mem_cons, Set.mem_union,
      Set.mem_ofPred_eq, List.mem_singleton, not_or]
    constructor
    · rintro ⟨hx, hnodup, hxs⟩
      exact ⟨⟨fun hmem => (hxs x hmem).2.2 rfl, hnodup⟩, hx, fun y hy => ⟨(hxs y hy).1, (hxs y hy).2.1⟩⟩
    · rintro ⟨⟨hmem, hnodup⟩, hx, hxs⟩
      exact ⟨hx, hnodup, fun y hy => ⟨(hxs y hy).1, (hxs y hy).2, fun heq => hmem (heq ▸ hy)⟩⟩

end Resolves

-- ---------------------------------------------------------------- expressions

theorem exprs_resolves (h : ∀ e ∈ es, Resolves (expr line e) [] fun V => e.WellScoped V.objects) :
    Resolves (exprs line es) [] fun V => ∀ e ∈ es, e.WellScoped V.objects := by
  induction es with
  | nil => exact Resolves.pure.congr fun V => by simp
  | cons e es ih =>
    obtain ⟨he, hes⟩ := List.forall_mem_cons.mp h
    exact (he.andThen (ih hes)).congr fun V => by simp

theorem expr_resolves (line : Nat) (e : Expr) :
    Resolves (expr line e) [] fun V => e.WellScoped V.objects := by
  induction e using Expr.induction with
  | var x => exact (Resolves.use line x).congr fun V => Expr.wellScoped_var.symm
  | call f args ih =>
    exact ((Resolves.use line f).andThen (exprs_resolves ih)).congr fun V => Expr.wellScoped_call.symm
  | binary op l r ihl ihr =>
    refine (ihl.andThen (Q := fun V => (∀ x, op = .named x → Usable V.objects x) ∧ r.WellScoped V.objects)
      ?_).congr fun V => Expr.wellScoped_binary.symm
    cases op with
    | named x => exact ((Resolves.use line x).andThen ihr).congr fun V => by simp
    | _ => exact ihr.congr fun V => by simp
  | not e ih => exact ih.congr fun V => Expr.wellScoped_not.symm
  | bind q x body ih =>
    refine ((Resolves.declare line x).bind ih).within.congr fun V => ?_
    exact Expr.wellScoped_bind.symm
  | group g items ih => exact (exprs_resolves ih).congr fun V => Expr.wellScoped_group.symm

theorem sentences_resolves (sentences : List Sentence) : Resolves (sentences.forM sentence) []
    fun V => ∀ s ∈ sentences, s.expr.WellScoped V.objects :=
  Resolves.forM (f := sentence) (fun s => expr_resolves s.line s.expr) sentences

-- ---------------------------------------------------------------- steps

theorem justification_resolves (slots line : Nat) (j : Justification) :
    Resolves (justification slots line j) [] (j.WellScoped slots) := by
  cases j with
  | admitted => exact .pure
  | definition x =>
    intro s w
    unfold justification
    rw [get_run_ok]
    split
    · rename_i h
      rw [Resolves.pure s w]
      simpa [Justification.WellScoped, Symbols.visible] using fun _ => h
    · rename_i h
      rw [Resolves.throw _ s w]
      simpa [Justification.WellScoped, Symbols.visible] using fun _ => h
  | instantiation x args =>
    have hargs : Resolves (within "Reference" do
        addAll (placeholders slots)
        exprs line args) []
        fun V => ∀ a ∈ args, a.WellScoped (V.withObjects (placeholders slots)).objects :=
      ((Resolves.addAll _).bind (exprs_resolves fun e _ => expr_resolves line e)).within.congr
        fun V => by simp
    intro s w
    unfold justification
    rw [get_run_ok]
    cases hx : s.theorems.find? x with
    | none =>
      rw [Resolves.throw _ s w]
      simp [Justification.WellScoped, Symbols.visible, hx]
    | some arity =>
      dsimp only
      rw [guard_run_ok]
      refine (and_congr_right fun _ => hargs s w).trans ?_
      simp only [Justification.WellScoped, Symbols.visible, hx, Option.some.injEq, not_not, ne_eq]
      exact and_left_comm

theorem reason_resolves (slots line : Nat) (reason : Option Justification) :
    Resolves (reason.forM (justification slots line)) []
      fun V => ∀ j ∈ reason, j.WellScoped slots V := by
  cases reason with
  | none => exact Resolves.pure.congr fun V => by simp
  | some j => exact (justification_resolves slots line j).congr fun V => by simp

theorem block_resolves (slots : Nat) (steps : List Step) : Resolves (block slots steps)
    (Step.introduced steps) fun V => Step.WellScopedAll slots V steps := by
  induction steps using Step.blockInduction with
  | nil => exact Resolves.pure.congr fun V => by simp [Step.WellScopedAll.nil]
  | claim n e reason rest ih =>
    refine (((expr_resolves n e).andThen (reason_resolves slots n reason)).andThen ih).congr fun V => ?_
    exact ⟨fun ⟨⟨he, hreason⟩, hrest⟩ => .claim he hreason hrest,
      fun | .claim he hreason hrest => ⟨⟨he, hreason⟩, hrest⟩⟩
  | choose n x e reason rest ih =>
    refine (((Resolves.declare n x).bind ((expr_resolves n e).andThen
      (reason_resolves slots n reason))).bind ih).congr fun V => ?_
    exact ⟨fun ⟨⟨hx, he, hreason⟩, hrest⟩ => .choose hx he hreason hrest,
      fun | .choose hx he hreason hrest => ⟨⟨hx, he, hreason⟩, hrest⟩⟩
  | cases n c yes no both rest ihyes ihno ihboth ih =>
    refine (((expr_resolves n c).andThen (ihyes.within.andThen (ihno.within.andThen
      ihboth.within))).andThen ih).congr fun V => ?_
    exact ⟨fun ⟨⟨hc, hyes, hno, hboth⟩, hrest⟩ => .cases hc hyes hno hboth hrest,
      fun | .cases hc hyes hno hboth hrest => ⟨⟨hc, hyes, hno, hboth⟩, hrest⟩⟩
  | check n rest ih =>
    refine (Resolves.pure.andThen ih).congr fun V => ?_
    exact ⟨fun h => .check h.2, fun | .check h => ⟨trivial, h⟩⟩
  | admitted n rest ih =>
    refine (Resolves.pure.andThen ih).congr fun V => ?_
    exact ⟨fun h => .admitted h.2, fun | .admitted h => ⟨trivial, h⟩⟩

-- ---------------------------------------------------------------- declarations

theorem theoremDeclaration_run_ok {t : Theorem} :
    (theoremDeclaration slots t).run s = (.ok (), w) ↔
      w = s.withTheorem t ∧ t.WellScoped slots s.visible := by
  have hwithin : Resolves (within "Theorem" _) [] _ :=
    ((Resolves.parameters t.line t.parameters).bind ((sentences_resolves t.requirements).andThen
      ((expr_resolves t.hypothesis.line t.hypothesis.expr).andThen
        (block_resolves slots t.proof)))).within
  have hknown : s.theorems.contains t.name = false ↔ s.visible.theorems t.name = none := by
    simp [NameMap.contains, Symbols.visible]
  dsimp only [theoremDeclaration]
  rw [get_run_ok, guard_run_ok, bind_run_ok, Bool.not_eq_true, hknown]
  constructor
  · rintro ⟨hname, _, u, hrun, hmodify⟩
    obtain ⟨rfl, ⟨hdistinct, hparameters⟩, hrequirements, hhypothesis, hproof⟩ := (hwithin s u).mp hrun
    rw [Symbols.extended_nil] at hmodify
    cases hmodify
    exact ⟨rfl, hname, hdistinct, hparameters, hrequirements, hhypothesis, hproof⟩
  · rintro ⟨rfl, h⟩
    refine ⟨h.name, (), s, (hwithin s s).mpr ⟨s.extended_nil.symm, ?_⟩, rfl⟩
    exact ⟨⟨h.distinct, h.parameters⟩, h.requirements, h.hypothesis, h.proof⟩

theorem definitionDeclaration_run_ok {d : Definition} :
    (definitionDeclaration slots d).run s = (.ok (), w) ↔
      w = s.withDefinition d ∧ d.WellScoped slots s.visible := by
  have hwithin : Resolves (within "Definition" _) [] _ :=
    ((sentences_resolves d.rules).andThen (block_resolves slots d.proof)).within
  have hknown : s.definitions.contains d.name = false ↔ d.name ∉ s.visible.definitions := by
    simp [Symbols.visible]
  dsimp only [definitionDeclaration]
  rw [get_run_ok, guard_run_ok, bind_run_ok, Bool.not_eq_true, hknown]
  constructor
  · rintro ⟨hname, _, u, hdeclare, hrun⟩
    obtain ⟨rfl, hfresh⟩ := (Resolves.declare d.line d.name s u).mp hdeclare
    obtain ⟨_, _, hmodify, hrun⟩ := bind_run_ok.mp hrun
    cases hmodify
    obtain ⟨rfl, hrules, hproof⟩ := (hwithin (s.withDefinition d) w).mp hrun
    rw [Symbols.visible_withDefinition] at hrules hproof
    exact ⟨Symbols.extended_nil _, hname, hfresh, hrules, hproof⟩
  · rintro ⟨rfl, h⟩
    refine ⟨h.name, (), _, (Resolves.declare d.line d.name s _).mpr ⟨rfl, h.fresh⟩, ?_⟩
    refine bind_run_ok.mpr ⟨(), s.withDefinition d, rfl, (hwithin _ _).mpr ⟨?_, ?_⟩⟩
    · exact (Symbols.extended_nil _).symm
    · rw [Symbols.visible_withDefinition]
      exact ⟨h.rules, h.proof⟩

theorem declaration_run_ok : (declaration settings d).run s = (.ok (), w) ↔
    w = s.after d ∧ d.WellScoped settings.placeholderSlots s.visible := by
  cases d with
  | ofTheorem t => exact theoremDeclaration_run_ok
  | ofDefinition d => exact definitionDeclaration_run_ok

theorem declarations_run_ok {script : Script} :
    (script.forM (declaration settings)).run s = (.ok (), w) ↔
      w = script.foldl Symbols.after s ∧ script.WellScoped settings.placeholderSlots s.visible := by
  induction script generalizing s with
  | nil =>
    show (Except.ok (), s) = (Except.ok (), w) ↔ _
    simp [Script.WellScoped, eq_comm]
  | cons d rest ih =>
    show (declaration settings d >>= fun _ => rest.forM (declaration settings)).run s = _ ↔ _
    rw [bind_run_ok]
    constructor
    · rintro ⟨_, u, hrun, hrun'⟩
      obtain ⟨rfl, hd⟩ := declaration_run_ok.mp hrun
      obtain ⟨rfl, hrest⟩ := ih.mp hrun'
      exact ⟨rfl, hd, s.visible_after d ▸ hrest⟩
    · rintro ⟨rfl, hd, hrest⟩
      refine ⟨(), s.after d, declaration_run_ok.mpr ⟨rfl, hd⟩, ih.mpr ⟨rfl, ?_⟩⟩
      exact (s.visible_after d).symm ▸ hrest

end Resolve

theorem Script.wellScoped_of_resolve {script : Script} (h : script.resolve settings = .ok ()) :
    script.WellScoped settings.placeholderSlots .nothing :=
  Symbols.visible_nothing ▸ (Resolve.declarations_run_ok.mp (Prod.ext h rfl)).2

/-- Name resolution accepts exactly the well-scoped scripts. -/
theorem Script.resolve_iff_wellScoped (script : Script) (settings : Settings) :
    script.resolve settings = .ok () ↔ script.WellScoped settings.placeholderSlots .nothing := by
  have hrun : script.resolve settings = .ok () ↔
      ∃ w, (script.forM (Resolve.declaration settings)).run {} = (.ok (), w) :=
    ⟨fun h => ⟨_, Prod.ext h rfl⟩, fun ⟨_, h⟩ => congrArg Prod.fst h⟩
  rw [hrun, ← Symbols.visible_nothing]
  simp only [Resolve.declarations_run_ok, exists_eq_left]

end ProofScript
