import ProofScript.Proofs.CursorWalks
import ProofScript.Proofs.WellScoped

/-!
# The scopes of name resolution

Name resolution is a sequence of single actions, so that one can speak of the symbols at every
moment of it. In the actions of a declaration each scope that is opened is closed again under the
same tag. Main statement: whatever declarations came before, also rejected ones that left scopes
open, no declaration fails at closing a scope, an accepted one leaves the scopes as they were (but
for the name of a definition), and declared names that are visible are distinct at every moment.
-/

namespace ProofScript

namespace Resolve

-- ---------------------------------------------------------------- actions

/-- What name resolution does, one thing at a time. -/
inductive Action
  | enter (tag : String)
  | exit (tag : String)
  | add (x : String)
  | declare (line : Nat) (x : String)
  | use (line : Nat) (x : String)
  | newTheorem (line : Nat) (x : String)
  | newDefinition (line : Nat) (x : String)
  | citeTheorem (line : Nat) (x : String) (count : Nat)
  | citeDefinition (line : Nat) (x : String)
  | registerTheorem (x : String) (parameters : Nat)
  | registerDefinition (x : String)

namespace Action

def perform : Action → Resolve Unit
  | enter tag => Resolve.enter tag
  | exit tag => Resolve.exit tag
  | add x => Resolve.add x
  | declare line x => Resolve.declare line x
  | use line x => Resolve.use line x
  | newTheorem line x => do
    if (← get).theorems.contains x then throw (.name line (.theoremExists x))
  | newDefinition line x => do
    if (← get).definitions.contains x then throw (.name line (.definitionExists x))
  | citeTheorem line x count => do
    match (← get).theorems.find? x with
    | none => throw (.name line (.unknownTheorem x))
    | some arity => if arity ≠ count then throw (.arity line (.count arity count x))
  | citeDefinition line x => do
    unless (← get).definitions.contains x do throw (.name line (.unknownDefinition x))
  | registerTheorem x parameters =>
    modify fun s => { s with theorems := s.theorems.insert x parameters }
  | registerDefinition x => modify fun s => { s with definitions := x :: s.definitions }

/-- Actions with a scope of their own. -/
def within (tag : String) (actions : List Action) : List Action := enter tag :: actions ++ [exit tag]

end Action

def performAll (actions : List Action) : Resolve Unit := actions.forM Action.perform

end Resolve

open Resolve (Action)

def Operator.actions (line : Nat) : Operator → List Action
  | named x => [.use line x]
  | _ => []

mutual
def Expr.actions (line : Nat) : Expr → List Action
  | .var x => [.use line x]
  | .call f args => .use line f :: Expr.actionsAll line args
  | .binary op l r => l.actions line ++ op.actions line ++ r.actions line
  | .not e => e.actions line
  | .bind _ x body => Action.within "Binder" (.declare line x :: body.actions line)
  | .group _ items => Expr.actionsAll line items
def Expr.actionsAll (line : Nat) : List Expr → List Action
  | [] => []
  | e :: es => e.actions line ++ Expr.actionsAll line es
end

def Sentence.actions (s : Sentence) : List Action := s.expr.actions s.line

def Justification.actions (slots line : Nat) : Justification → List Action
  | admitted => []
  | definition x => [.citeDefinition line x]
  | instantiation x args => .citeTheorem line x args.length ::
    Action.within "Reference" ((placeholders slots).map .add ++ Expr.actionsAll line args)

/-- The actions for a reason that may be missing. -/
def Justification.actions? (slots line : Nat) : Option Justification → List Action
  | none => []
  | some reason => reason.actions slots line

mutual
def Step.actions (slots : Nat) : Step → List Action
  | .claim line e reason => e.actions line ++ Justification.actions? slots line reason
  | .choose line x e reason =>
    .declare line x :: e.actions line ++ Justification.actions? slots line reason
  | .cases line condition yes no both =>
    condition.actions line ++ Action.within "If" (Step.actionsAll slots yes) ++
      Action.within "Else" (Step.actionsAll slots no) ++ Action.within "Both" (Step.actionsAll slots both)
  | .check _ | .admitted _ => []
def Step.actionsAll (slots : Nat) : List Step → List Action
  | [] => []
  | s :: rest => s.actions slots ++ Step.actionsAll slots rest
end

def Declaration.actions (slots : Nat) : Declaration → List Action
  | .ofTheorem t => .newTheorem t.line t.name ::
    Action.within "Theorem" (t.parameters.map (.declare t.line) ++
      t.requirements.flatMap Sentence.actions ++ t.hypothesis.actions ++ Step.actionsAll slots t.proof) ++
    [.registerTheorem t.name t.parameters.length]
  | .ofDefinition d => .newDefinition d.line d.name :: .declare d.line d.name ::
    .registerDefinition d.name ::
    Action.within "Definition" (d.rules.flatMap Sentence.actions ++ Step.actionsAll slots d.proof)

namespace Resolve

-- ---------------------------------------------------------------- performing them is name resolution

theorem performAll_cons (a : Action) (as : List Action) :
    performAll (a :: as) = a.perform >>= fun _ => performAll as := rfl

theorem performAll_append (as bs : List Action) :
    performAll (as ++ bs) = performAll as >>= fun _ => performAll bs := by
  induction as with
  | nil => exact (pure_bind () fun _ => performAll bs).symm
  | cons a as ih => simp only [List.cons_append, performAll_cons, ih, bind_assoc]

theorem performAll_single (a : Action) : performAll [a] = a.perform :=
  bind_pure_unit

theorem performAll_within (tag : String) (as : List Action) :
    performAll (Action.within tag as) = within tag (performAll as) := by
  rw [Action.within, List.cons_append, performAll_cons, performAll_append, performAll_single]
  rfl

theorem performAll_flatMap {actions : α → List Action} {resolve : α → Resolve Unit}
    (h : ∀ a, performAll (actions a) = resolve a) (as : List α) :
    performAll (as.flatMap actions) = as.forM resolve := by
  induction as with
  | nil => rfl
  | cons a as ih =>
    rw [List.flatMap_cons, performAll_append, h, ih]
    rfl

theorem performAll_map (action : α → Action) (as : List α) :
    performAll (as.map action) = as.forM fun a => (action a).perform := by
  rw [List.map_eq_flatMap]
  exact performAll_flatMap (fun a => performAll_single _) as

theorem performAll_adds (xs : List String) : performAll (xs.map .add) = addAll xs := by
  induction xs with
  | nil =>
    funext s
    show (Except.ok (), s) = (Except.ok (), { s with objects := s.objects.addAll [] })
    rw [Scopes.addAll_nil]
  | cons x xs ih =>
    rw [List.map_cons, performAll_cons, ih]
    funext s
    show (Except.ok (), { s with objects := (s.objects.addAll [x]).addAll xs }) =
      (Except.ok (), { s with objects := s.objects.addAll (x :: xs) })
    rw [Scopes.addAll_addAll]
    rfl

theorem performAll_exprs (h : ∀ e ∈ es, performAll (e.actions line) = expr line e) :
    performAll (Expr.actionsAll line es) = exprs line es := by
  induction es with
  | nil => rfl
  | cons e es ih =>
    obtain ⟨he, hes⟩ := List.forall_mem_cons.mp h
    rw [Expr.actionsAll, performAll_append, he, ih hes]
    rfl

theorem performAll_expr (line : Nat) (e : Expr) : performAll (e.actions line) = expr line e := by
  induction e using Expr.induction with
  | var x => exact performAll_single _
  | call f args ih =>
    rw [Expr.actions, performAll_cons, performAll_exprs ih]
    rfl
  | binary op l r ihl ihr =>
    rw [Expr.actions, performAll_append, performAll_append, ihl, ihr, bind_assoc]
    cases op with
    | named x =>
      rw [Operator.actions, performAll_single]
      rfl
    | _ => rfl
  | not e ih => exact ih
  | bind q x body ih =>
    rw [Expr.actions, performAll_within, performAll_cons, ih]
    rfl
  | group g items ih => exact performAll_exprs ih

theorem performAll_justification (slots line : Nat) (j : Justification) :
    performAll (j.actions slots line) = justification slots line j := by
  cases j with
  | admitted => rfl
  | definition x => exact performAll_single _
  | instantiation x args =>
    rw [Justification.actions, performAll_cons, performAll_within, performAll_append, performAll_adds,
      performAll_exprs fun e _ => performAll_expr line e]
    simp only [Action.perform, justification, bind_assoc]
    refine bind_congr fun s => ?_
    cases s.theorems.find? x with
    | none => rfl
    | some arity =>
      dsimp only
      split <;> rfl

theorem performAll_reason (slots line : Nat) (reason : Option Justification) :
    performAll (Justification.actions? slots line reason) = reason.forM (justification slots line) := by
  cases reason with
  | none => rfl
  | some j => exact performAll_justification slots line j

theorem performAll_block (slots : Nat) (steps : List Step) :
    performAll (Step.actionsAll slots steps) = block slots steps := by
  induction steps using Step.blockInduction with
  | nil => rfl
  | claim line e reason rest ih =>
    rw [Step.actionsAll, Step.actions, performAll_append, performAll_append, performAll_expr,
      performAll_reason, ih]
    rfl
  | choose line x e reason rest ih =>
    rw [Step.actionsAll, Step.actions, performAll_append, List.cons_append, performAll_cons,
      performAll_append, performAll_expr, performAll_reason, ih]
    rfl
  | cases line c yes no both rest ihyes ihno ihboth ih =>
    rw [Step.actionsAll, Step.actions, performAll_append, performAll_append, performAll_append,
      performAll_append, performAll_within, performAll_within, performAll_within, performAll_expr, ihyes,
      ihno, ihboth, ih]
    simp only [block, step, bind_assoc]
  | check line rest ih =>
    rw [Step.actionsAll, performAll_append, ih]
    rfl
  | admitted line rest ih =>
    rw [Step.actionsAll, performAll_append, ih]
    rfl

/-- The actions of a declaration, one after the other, are its resolution. -/
theorem performAll_declaration (settings : Settings) (d : Declaration) :
    performAll (d.actions settings.placeholderSlots) = declaration settings d := by
  have hsentence (s : Sentence) : performAll s.actions = sentence s := performAll_expr s.line s.expr
  have hsentences := performAll_flatMap hsentence
  cases d with
  | ofTheorem t =>
    simp only [Declaration.actions, List.cons_append, performAll_cons, performAll_append, performAll_within,
      performAll_map, hsentences, hsentence, performAll_block, declaration, theoremDeclaration,
      Action.perform, bind_assoc]
    refine bind_congr fun s => ?_
    cases s.theorems.contains t.name <;> rfl
  | ofDefinition d =>
    simp only [Declaration.actions, performAll_cons, performAll_append, performAll_within, hsentences,
      performAll_block, declaration, definitionDeclaration, Action.perform, bind_assoc]
    refine bind_congr fun s => ?_
    cases s.definitions.contains d.name <;> rfl

-- ---------------------------------------------------------------- scopes close as they opened

/-- Actions that open and close no scope. Only reserved names come into scope undeclared. -/
def Action.Plain : Action → Prop
  | enter _ | exit _ => False
  | add x => Name.isReserved x = true
  | _ => True

/-- Every scope that is opened is closed under the same tag, one inside the other. -/
inductive Balanced : List Action → Prop
  | nil : Balanced []
  | plain : a.Plain → Balanced as → Balanced (a :: as)
  | within : Balanced as → Balanced bs → Balanced (Action.within tag as ++ bs)

namespace Balanced

theorem append (ha : Balanced as) (hb : Balanced bs) : Balanced (as ++ bs) := by
  induction ha with
  | nil => exact hb
  | plain hplain _ ih => exact .plain hplain ih
  | within has _ _ ih =>
    rw [List.append_assoc]
    exact .within has ih

theorem inScope (ha : Balanced as) (tag : String) : Balanced (Action.within tag as) :=
  List.append_nil (Action.within tag as) ▸ ha.within .nil

theorem flatMap {actions : α → List Action} (h : ∀ a, Balanced (actions a)) (as : List α) :
    Balanced (as.flatMap actions) := by
  induction as with
  | nil => exact .nil
  | cons a as ih => exact (h a).append ih

theorem map {action : α → Action} (h : ∀ a, (action a).Plain) (as : List α) :
    Balanced (as.map action) := by
  induction as with
  | nil => exact .nil
  | cons a as ih => exact .plain (h a) ih

theorem exprs (h : ∀ e ∈ es, Balanced (e.actions line)) : Balanced (Expr.actionsAll line es) := by
  induction es with
  | nil => exact .nil
  | cons e es ih =>
    obtain ⟨he, hes⟩ := List.forall_mem_cons.mp h
    exact he.append (ih hes)

theorem expr (line : Nat) (e : Expr) : Balanced (e.actions line) := by
  induction e using Expr.induction with
  | var x => exact .plain trivial .nil
  | call f args ih => exact .plain trivial (exprs ih)
  | binary op l r ihl ihr =>
    have hop : Balanced (op.actions line) := by
      cases op with
      | named x => exact .plain trivial .nil
      | _ => exact .nil
    exact (ihl.append hop).append ihr
  | not e ih => exact ih
  | bind q x body ih =>
    have hbody : Balanced (.declare line x :: body.actions line) := .plain trivial ih
    exact hbody.inScope "Binder"
  | group g items ih => exact exprs ih

theorem reason (slots line : Nat) (reason : Option Justification) :
    Balanced (Justification.actions? slots line reason) := by
  rcases reason with _ | (_ | x | ⟨x, args⟩)
  · exact .nil
  · exact .nil
  · exact .plain trivial .nil
  · have hreserved (i : Nat) : Action.Plain (.add (Name.placeholder i)) :=
      Name.isReserved_underscore i.repr
    have hslots : Balanced ((placeholders slots).map .add) := by
      rw [placeholders, List.map_map]
      exact map hreserved _
    exact .plain trivial ((hslots.append (exprs fun e _ => expr line e)).inScope "Reference")

theorem block (slots : Nat) (steps : List Step) : Balanced (Step.actionsAll slots steps) := by
  induction steps using Step.blockInduction with
  | nil => exact .nil
  | claim line e r rest ih => exact ((expr line e).append (reason slots line r)).append ih
  | choose line x e r rest ih =>
    exact .plain trivial (((expr line e).append (reason slots line r)).append ih)
  | cases line c yes no both rest ihyes ihno ihboth ih =>
    exact ((((expr line c).append (ihyes.inScope "If")).append (ihno.inScope "Else")).append
      (ihboth.inScope "Both")).append ih
  | check line rest ih => exact ih
  | admitted line rest ih => exact ih

theorem declaration (slots : Nat) (d : Declaration) : Balanced (d.actions slots) := by
  have hsentence (s : Sentence) : Balanced s.actions := expr s.line s.expr
  cases d with
  | ofTheorem t =>
    have hparameter (x : String) : Action.Plain (.declare t.line x) := trivial
    have hparameters := map hparameter t.parameters
    have hinside := ((hparameters.append (flatMap hsentence t.requirements)).append
      (hsentence t.hypothesis)).append (block slots t.proof)
    exact .plain trivial ((hinside.inScope "Theorem").append (.plain trivial .nil))
  | ofDefinition d =>
    have hinside := (flatMap hsentence d.rules).append (block slots d.proof)
    exact .plain trivial (.plain trivial (.plain trivial (hinside.inScope "Definition")))

end Balanced

-- ---------------------------------------------------------------- runs

/-- An action that opens and closes no scope is refused for the text of the declaration, or it lets
a name into scope at most, which is reserved or new. -/
theorem perform_run {a : Action} (h : a.Plain) (s : Symbols) :
    (∃ cause, a.perform.run s = (.error cause, s) ∧ ∀ fault, cause ≠ .internal fault) ∨
      ∃ w, a.perform.run s = (.ok (), w) ∧ (w.objects = s.objects ∨
        ∃ x, w.objects = s.objects.add x ∧ (Name.isReserved x = true ∨ x ∉ s.objects.items)) := by
  have hget (f : Symbols → Resolve Unit) : (get >>= f).run s = (f s).run s := rfl
  cases a with
  | enter tag | exit tag => exact h.elim
  | add x => exact .inr ⟨_, rfl, .inr ⟨x, rfl, .inl h⟩⟩
  | declare line x =>
    simp only [Action.perform, Resolve.declare]
    split
    · exact .inl ⟨_, rfl, by simp⟩
    · rw [hget]
      split
      · exact .inl ⟨_, rfl, by simp⟩
      · rename_i hnew
        exact .inr ⟨_, rfl, .inr ⟨x, rfl, .inr (by simpa [Scopes.contains] using hnew)⟩⟩
  | citeTheorem line x count =>
    simp only [Action.perform, hget]
    cases s.theorems.find? x with
    | none => exact .inl ⟨_, rfl, by simp⟩
    | some arity =>
      dsimp only
      split
      · exact .inl ⟨_, rfl, by simp⟩
      · exact .inr ⟨_, rfl, .inl rfl⟩
  | use line x | citeDefinition line x =>
    simp only [Action.perform, Resolve.use, hget]
    split
    · exact .inr ⟨_, rfl, .inl rfl⟩
    · exact .inl ⟨_, rfl, by simp⟩
  | newTheorem line x | newDefinition line x =>
    simp only [Action.perform, hget]
    split
    · exact .inl ⟨_, rfl, by simp⟩
    · exact .inr ⟨_, rfl, .inl rfl⟩
  | registerTheorem x n | registerDefinition x => exact .inr ⟨_, rfl, .inl rfl⟩

theorem bind_run_error {m : Resolve α} {f : α → Resolve β} :
    (m >>= f).run s = (.error cause, w) ↔ m.run s = (.error cause, w) ∨
      ∃ a u, m.run s = (.ok a, u) ∧ (f a).run u = (.error cause, w) :=
  run_run_bind_error

theorem bind_run {m : Resolve α} {f : α → Resolve β} (h : m.run s = (.ok a, w)) :
    (m >>= f).run s = (f a).run w := by
  simp only [run, ExceptT.run_bind, StateT.run_bind] at h ⊢
  rw [h]
  rfl

/-- Where the action succeeds, the innermost scope has grown at most; where it fails, the cause is
not an internal one. -/
structure Tidy (m : Resolve Unit) : Prop where
  grown : m.run s = (.ok (), w) → ∃ xs, w.objects = s.objects.addAll xs
  not_internal : m.run s = (.error cause, w) → ∀ fault, cause ≠ .internal fault

namespace Tidy

theorem perform {a : Action} (h : a.Plain) : Tidy a.perform := by
  constructor
  · intro s w hok
    obtain ⟨cause, hrun, -⟩ | ⟨w', hrun, hw⟩ := perform_run h s <;> cases hrun.symm.trans hok
    rcases hw with hw | ⟨x, hw, -⟩
    · exact ⟨[], hw.trans s.objects.addAll_nil.symm⟩
    · exact ⟨[x], hw⟩
  · intro s cause w herror
    obtain ⟨cause', hrun, hcause⟩ | ⟨w', hrun, -⟩ := perform_run h s <;> cases hrun.symm.trans herror
    exact hcause

theorem bind {m n : Resolve Unit} (hm : Tidy m) (hn : Tidy n) : Tidy (m >>= fun _ => n) := by
  constructor
  · intro s w hok
    obtain ⟨_, u, hfirst, hsecond⟩ := bind_run_ok.mp hok
    obtain ⟨xs, hu⟩ := hm.grown hfirst
    obtain ⟨ys, hw⟩ := hn.grown hsecond
    exact ⟨xs ++ ys, by rw [hw, hu, Scopes.addAll_addAll]⟩
  · intro s cause w herror
    obtain hfirst | ⟨_, u, -, hsecond⟩ := bind_run_error.mp herror
    · exact hm.not_internal hfirst
    · exact hn.not_internal hsecond

/-- What was added inside is closed away, and the tag is the one that was opened. -/
theorem within {m : Resolve Unit} (hm : Tidy m) (tag : String) : Tidy (within tag m) := by
  have hexit {s u : Symbols} (hok : m.run (s.entered tag) = (.ok (), u)) :
      (exit tag).run u = (.ok (), { u with objects := s.objects }) := by
    obtain ⟨xs, hu⟩ := hm.grown hok
    refine get_run_ok.mpr ?_
    rw [hu]
    simp only [Symbols.entered, Scopes.exit_enter_addAll]
    rfl
  constructor
  · intro s w hok
    obtain ⟨_, u, hinside, hclose⟩ :=
      bind_run_ok.mp (show (m >>= fun _ => exit tag).run (s.entered tag) = _ from hok)
    cases (hexit hinside).symm.trans hclose
    exact ⟨[], s.objects.addAll_nil.symm⟩
  · intro s cause w herror
    obtain hinside | ⟨_, u, hinside, hclose⟩ :=
      bind_run_error.mp (show (m >>= fun _ => exit tag).run (s.entered tag) = _ from herror)
    · exact hm.not_internal hinside
    · cases (hexit hinside).symm.trans hclose

end Tidy

theorem Balanced.tidy (h : Balanced as) : Tidy (performAll as) := by
  induction h with
  | nil =>
    constructor
    · intro s w hok
      cases hok
      exact ⟨[], s.objects.addAll_nil.symm⟩
    · intro s cause w herror
      cases herror
  | plain ha _ ih => exact (Tidy.perform ha).bind ih
  | @within as bs tag _ _ iha ihb =>
    rw [performAll_append, performAll_within]
    exact (iha.within tag).bind ihb

-- ---------------------------------------------------------------- distinct names

end Resolve

/-- Declared names that are visible are all distinct. -/
def Symbols.Distinct (s : Symbols) : Prop :=
  (s.objects.items.filter fun x => !Name.isReserved x).Nodup

namespace Resolve

theorem distinct_plain {a : Action} (h : a.Plain) {s : Symbols} (hs : s.Distinct) :
    (a.perform.run s).2.Distinct := by
  obtain ⟨cause, hrun, -⟩ | ⟨w, hrun, hw⟩ := perform_run h s <;> rw [hrun]
  · exact hs
  · unfold Symbols.Distinct at *
    rcases hw with hw | ⟨x, hw, hx⟩
    · rwa [hw]
    · rw [hw, Scopes.add, Scopes.items_addAll, List.filter_append]
      rcases hx with hx | hx
      · simpa [hx] using hs
      · refine hs.append ((List.nodup_singleton x).filter _) ?_
        intro y hy hy'
        simp only [List.mem_filter, List.mem_singleton] at hy hy'
        exact hx (hy'.1 ▸ hy.1)

theorem distinct_exit (tag : String) {s : Symbols} (hs : s.Distinct) :
    ((exit tag).run s).2.Distinct := by
  have hget (f : Symbols → Resolve Unit) : (get >>= f).run s = (f s).run s := rfl
  unfold exit
  rw [hget]
  cases hexit : s.objects.exit tag with
  | error mismatch => exact hs
  | ok objects =>
    obtain ⟨closed, hlevels⟩ := Scopes.levels_exit hexit
    have hitems : s.objects.items = objects.items ++ closed := by
      simp [Scopes.items, hlevels]
    unfold Symbols.Distinct at *
    rw [hitems, List.filter_append] at hs
    exact hs.of_append_left

theorem Balanced.forall_mem (h : Balanced as) :
    ∀ a ∈ as, a.Plain ∨ (∃ tag, a = .enter tag) ∨ ∃ tag, a = .exit tag := by
  induction h with
  | nil => simp
  | plain ha _ ih => exact List.forall_mem_cons.mpr ⟨.inl ha, ih⟩
  | within _ _ iha ihb =>
    simp only [Action.within, List.mem_append, List.mem_cons, List.not_mem_nil, or_false]
    rintro a (((rfl | ha) | rfl) | hb)
    · exact .inr (.inl ⟨_, rfl⟩)
    · exact iha a ha
    · exact .inr (.inr ⟨_, rfl⟩)
    · exact ihb a hb

/-- At every moment of some actions that are balanced as a whole, declared names are distinct. -/
theorem Balanced.distinct (h : Balanced as) {s : Symbols} (hs : s.Distinct) (n : Nat) :
    ((performAll (as.take n)).run s).2.Distinct := by
  have hactions : ∀ a ∈ as.take n, ∀ s : Symbols, s.Distinct → (a.perform.run s).2.Distinct := by
    intro a ha s hs
    rcases h.forall_mem a (List.mem_of_mem_take ha) with ha | ⟨tag, rfl⟩ | ⟨tag, rfl⟩
    · exact distinct_plain ha hs
    · show (s.entered tag).Distinct
      rwa [Symbols.Distinct, Symbols.entered, Scopes.items_enter]
    · exact distinct_exit tag hs
  generalize as.take n = bs at hactions
  induction bs generalizing s with
  | nil => exact hs
  | cons b bs ih =>
    obtain ⟨hb, hbs⟩ := List.forall_mem_cons.mp hactions
    have hfirst := hb s hs
    rw [performAll_cons]
    rcases hrun : b.perform.run s with ⟨cause | ⟨⟩, w⟩ <;> rw [hrun] at hfirst
    · rwa [bind_run_error.mpr (.inl hrun)]
    · rw [bind_run hrun]
      exact ih hfirst hbs

-- ---------------------------------------------------------------- declarations one after the other

/-- The symbols after some declarations. A declaration that is rejected leaves them as they are then. -/
def given (settings : Settings) (ds : List Declaration) : Symbols :=
  ds.foldl (fun s d => ((declaration settings d).run s).2) {}

theorem given_concat (settings : Settings) (ds : List Declaration) (d : Declaration) :
    given settings (ds ++ [d]) = ((declaration settings d).run (given settings ds)).2 := by
  simp [given]

theorem given_distinct (settings : Settings) (ds : List Declaration) : (given settings ds).Distinct := by
  induction ds using List.reverseRecOn with
  | nil => exact .nil
  | append_singleton ds d ih =>
    have hbalanced := Balanced.declaration settings.placeholderSlots d
    have hdistinct := hbalanced.distinct ih (d.actions settings.placeholderSlots).length
    rwa [List.take_length, performAll_declaration, ← given_concat] at hdistinct

/-- Whatever declarations came before, accepted or not: a declaration is never rejected for an
internal fault; one that is accepted leaves the scopes as they were, except that the name of a
definition is added to the innermost one; and at every moment of its resolution the visible names
that are not reserved are distinct. -/
theorem scopes_kept (settings : Settings) (ds : List Declaration) (d : Declaration) :
    let s := given settings ds
    let actions := d.actions settings.placeholderSlots
    declaration settings d = performAll actions ∧
      (∀ fault w, (declaration settings d).run s ≠ (.error (.internal fault), w)) ∧
      (∀ w, (declaration settings d).run s = (.ok (), w) → w.objects = match d with
        | .ofTheorem _ => s.objects
        | .ofDefinition d => s.objects.add d.name) ∧
      ∀ n, ((performAll (actions.take n)).run s).2.Distinct := by
  intro s actions
  have hbalanced := Balanced.declaration settings.placeholderSlots d
  have hactions := performAll_declaration settings d
  refine ⟨hactions.symm, fun fault w hrun => ?_, fun w hrun => ?_, ?_⟩
  · rw [← hactions] at hrun
    exact hbalanced.tidy.not_internal hrun fault rfl
  · obtain ⟨rfl, -⟩ := declaration_run_ok.mp hrun
    cases d <;> rfl
  · exact hbalanced.distinct (given_distinct settings ds)

/-- A theorem that binds its parameter again leaves two scopes open, and a definition goes into the
innermost of them. -/
theorem scopes_kept_afterRejection :
    let rebound : Theorem := {
      line := 1, name := "T", parameters := ["a"], requirements := []
      hypothesis := ⟨2, .bind .all "a" (.binary .equals (.var "a") (.var "a"))⟩, proof := [] }
    let definition : Definition := {
      line := 5, name := "D", rules := [⟨6, .binary .equals (.var "D") (.var "a")⟩], proof := [] }
    let s := given {} [.ofTheorem rebound]
    let outcome := (declaration {} (.ofDefinition definition)).run s
    s.objects.opened = [⟨"Binder", []⟩, ⟨"Theorem", ["a"]⟩] ∧ outcome.1 = .ok () ∧
      outcome.2.objects = s.objects.add "D" := by
  intro rebound definition s outcome
  have hok : outcome.1 = .ok () := by
    simp only [outcome, s, rebound, definition]
    rfl
  have hkept := (scopes_kept {} [.ofTheorem rebound] (.ofDefinition definition)).2.2.1
  exact ⟨rfl, hok, hkept _ (Prod.ext hok rfl)⟩

end Resolve

end ProofScript
