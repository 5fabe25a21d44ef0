import ProofScript.Proofs.CaptureAvoidance

/-!
# Mappings are restored

A hook sees every expression before it is taken apart. It may look at the substitution, have
expressions rewritten as often as it likes, go on after their errors, and answer with a replacement,
an error or nothing. Nothing makes a hook come to an end, so rewriting is given a bound on how deep its
calls may nest, and is stopped with `none` there. Where it returns, the substitution is what it was.
`Expansion`s that only work out the arguments are hooks that answer at calls.
-/

namespace ProofScript

open ProofScript.Expr (freeAll headName)

/-- What a hook does next. -/
inductive Hook.Step
  | answer (result : Except SubstitutionError (Option Expr))
  | inspect (next : Substitution → Step)
  | rewrite (e : Expr) (next : Except SubstitutionError Expr → Step)

abbrev Hook := Expr → Hook.Step

namespace Hook

mutual
def rewrite (hook : Hook) (n : Nat) (e : Expr) (σ : Substitution) :
    Option (Except SubstitutionError Expr × Substitution) :=
  match n with
  | 0 => none
  | n + 1 => do
    match ← consult hook n (hook e) σ with
    | (.error cause, σ) => return (.error cause, σ)
    | (.ok (some replacement), σ) => return (.ok replacement, σ)
    | (.ok none, σ) =>
      match e with
      | .var x => return (.ok ((σ.find? x).getD (.var x)), σ)
      | .call f args =>
        match headName σ f with
        | .error cause => return (.error cause, σ)
        | .ok g =>
          let (args, σ) ← rewriteAll hook n args σ
          return (Expr.call g <$> args, σ)
      | .binary op l r =>
        match ← rewrite hook n l σ with
        | (.error cause, σ) => return (.error cause, σ)
        | (.ok l, σ) =>
          let (r, σ) ← rewrite hook n r σ
          return (Expr.binary op l <$> r, σ)
      | .not e =>
        let (e, σ) ← rewrite hook n e σ
        return (Expr.not <$> e, σ)
      | .bind b x body =>
        let y := Name.fresh (body.free ++ freeAll σ.values) x
        let (body, inner) ← rewrite hook n body (σ.insert x (.var y))
        return (Expr.bind b y <$> body, inner.restore x (σ.find? x))
      | .group g items =>
        let (items, σ) ← rewriteAll hook n items σ
        return (Expr.group g <$> items, σ)
def rewriteAll (hook : Hook) (n : Nat) (es : List Expr) (σ : Substitution) :
    Option (Except SubstitutionError (List Expr) × Substitution) :=
  match n with
  | 0 => none
  | n + 1 =>
    match es with
    | [] => return (.ok [], σ)
    | e :: es => do
      match ← rewrite hook n e σ with
      | (.error cause, σ) => return (.error cause, σ)
      | (.ok e, σ) =>
        let (es, σ) ← rewriteAll hook n es σ
        return ((e :: ·) <$> es, σ)
def consult (hook : Hook) (n : Nat) (step : Step) (σ : Substitution) :
    Option (Except SubstitutionError (Option Expr) × Substitution) :=
  match n with
  | 0 => none
  | n + 1 =>
    match step with
    | .answer result => return (result, σ)
    | .inspect next => consult hook n (next σ) σ
    | .rewrite e next => do
      let (result, σ) ← rewrite hook n e σ
      consult hook n (next result) σ
end

/-- Rewrites one expression after the other with the same substitution, going on after errors. -/
def rewriteInTurn (hook : Hook) (n : Nat) : List Expr → Substitution →
    Option (List (Except SubstitutionError Expr) × Substitution)
  | [], σ => return ([], σ)
  | e :: es, σ => do
    let (result, σ) ← hook.rewrite n e σ
    let (results, σ) ← hook.rewriteInTurn n es σ
    return (result :: results, σ)

-- ---------------------------------------------------------------- what a return leaves

/-- Where the first computation returns, it leaves `σ`, and the second returns the same. -/
def Restores (σ : Substitution) (o o' : Option (α × Substitution)) : Prop :=
  ∀ out, o = some out → out.2 = σ ∧ o' = some out

theorem Restores.none (σ : Substitution) (o : Option (α × Substitution)) : Restores σ none o := by
  rintro _ ⟨⟩

theorem Restores.pure (a : α) (σ : Substitution) : Restores σ (Pure.pure (a, σ)) (Pure.pure (a, σ)) := by
  rintro _ ⟨⟩
  exact ⟨rfl, rfl⟩

theorem Restores.bind {f f' : α × Substitution → Option (β × Substitution)} (ho : Restores σ o o')
    (hf : ∀ a, Restores τ (f (a, σ)) (f' (a, σ))) : Restores τ (o >>= f) (o' >>= f') := by
  intro out h
  obtain ⟨⟨a, σ'⟩, ha, hout⟩ := Option.bind_eq_some_iff.mp h
  obtain ⟨hσ, ha'⟩ := ho _ ha
  cases hσ
  obtain ⟨hτ, hout'⟩ := hf a out hout
  exact ⟨hτ, Option.bind_eq_some_iff.mpr ⟨_, ha', hout'⟩⟩

section
variable {hook : Hook} (hrewrite : ∀ e σ, Restores σ (hook.rewrite n e σ) (hook.rewrite m e σ))
  (hall : ∀ es σ, Restores σ (hook.rewriteAll n es σ) (hook.rewriteAll m es σ))
  (hconsult : ∀ step σ, Restores σ (hook.consult n step σ) (hook.consult m step σ))
include hrewrite

include hall hconsult in
/-- A binder takes its own mapping back. What is there again may be a mapping it has hidden, or none. -/
theorem rewrite_restores (e : Expr) (σ : Substitution) :
    Restores σ (hook.rewrite (n + 1) e σ) (hook.rewrite (m + 1) e σ) := by
  rw [rewrite.eq_def, rewrite.eq_def]
  refine (hconsult _ σ).bind fun result => ?_
  rcases result with cause | _ | replacement
  · exact .pure _ _
  · cases e with
    | var x => exact .pure _ _
    | call f args =>
      dsimp only
      cases headName σ f with
      | error cause => exact .pure _ _
      | ok g => exact (hall args σ).bind fun _ => .pure _ _
    | binary op l r =>
      refine (hrewrite l σ).bind fun result => ?_
      rcases result with cause | l
      · exact .pure _ _
      · exact (hrewrite r σ).bind fun _ => .pure _ _
    | not e => exact (hrewrite e σ).bind fun _ => .pure _ _
    | bind b x body =>
      refine (hrewrite body _).bind fun body => ?_
      dsimp only
      rw [NameMap.restore_insert]
      exact .pure _ _
    | group g items => exact (hall items σ).bind fun _ => .pure _ _
  · exact .pure _ _

include hall in
theorem rewriteAll_restores (es : List Expr) (σ : Substitution) :
    Restores σ (hook.rewriteAll (n + 1) es σ) (hook.rewriteAll (m + 1) es σ) := by
  rw [rewriteAll.eq_def, rewriteAll.eq_def]
  cases es with
  | nil => exact .pure _ _
  | cons e es =>
    refine (hrewrite e σ).bind fun result => ?_
    rcases result with cause | e
    · exact .pure _ _
    · exact (hall es σ).bind fun _ => .pure _ _

include hconsult in
theorem consult_restores (step : Step) (σ : Substitution) :
    Restores σ (hook.consult (n + 1) step σ) (hook.consult (m + 1) step σ) := by
  rw [consult.eq_def, consult.eq_def]
  cases step with
  | answer result => exact .pure _ _
  | inspect next => exact hconsult (next σ) σ
  | rewrite e next => exact (hrewrite e σ).bind fun result => hconsult (next result) σ

end

/-- Whatever the hook has rewritten, and at whatever depth, mappings are restored, and a larger bound
changes no answer. -/
theorem restores (hook : Hook) (h : n ≤ m) :
    (∀ e σ, Restores σ (hook.rewrite n e σ) (hook.rewrite m e σ)) ∧
    (∀ es σ, Restores σ (hook.rewriteAll n es σ) (hook.rewriteAll m es σ)) ∧
    ∀ step σ, Restores σ (hook.consult n step σ) (hook.consult m step σ) := by
  induction n generalizing m with
  | zero => exact ⟨fun _ _ => .none _ _, fun _ _ => .none _ _, fun _ _ => .none _ _⟩
  | succ n ih =>
    cases m with
    | zero => cases h
    | succ m =>
      obtain ⟨hrewrite, hall, hconsult⟩ := ih (Nat.le_of_succ_le_succ h)
      exact ⟨rewrite_restores hrewrite hall hconsult, rewriteAll_restores hrewrite hall,
        consult_restores hrewrite hconsult⟩

/-- Rewriting again starts where rewriting before started. -/
theorem rewriteInTurn_eq (hook : Hook) (n : Nat) (es : List Expr) (σ : Substitution) :
    hook.rewriteInTurn n es σ = (·, σ) <$> es.mapM fun e => Prod.fst <$> hook.rewrite n e σ := by
  induction es with
  | nil => rfl
  | cons e es ih =>
    rw [rewriteInTurn, List.mapM_cons]
    cases he : hook.rewrite n e σ with
    | none => rfl
    | some out =>
      obtain ⟨result, σ'⟩ := out
      have hσ : σ' = σ := ((hook.restores n.le_refl).1 e σ _ he).1
      subst hσ
      simp only [Option.bind_eq_bind, Option.bind_some, Option.map_eq_map, Option.map_some, ih]
      cases es.mapM fun e => (hook.rewrite n e σ').map Prod.fst <;> rfl

-- ---------------------------------------------------------------- expansions as hooks

/-- Has all the expressions rewritten, up to the first error. -/
def Step.rewriteAll : List Expr → (Except SubstitutionError (List Expr) → Step) → Step
  | [], next => next (.ok [])
  | e :: es, next => .rewrite e fun
    | .error cause => next (.error cause)
    | .ok e => rewriteAll es fun rest => next ((e :: ·) <$> rest)

end Hook

/-- How an expansion makes its answer: it may look at the substitution and work out the arguments, as
often as it likes. -/
inductive Plan
  | answer (result : Except SubstitutionError Expr)
  | inspect (next : Substitution → Plan)
  | workOut (next : Except SubstitutionError (List Expr) → Plan)

namespace Plan

def build (args : Subst (List Expr)) : Plan → Subst Expr
  | answer result => MonadExcept.ofExcept result
  | inspect next => do (next (← get)).build args
  | workOut next => do (next (← observing args)).build args

def steps (args : List Expr) : Plan → Hook.Step
  | answer result => .answer (some <$> result)
  | inspect next => .inspect fun σ => (next σ).steps args
  | workOut next => .rewriteAll args fun results => (next results).steps args

/-- Works out the arguments once and goes on with them. -/
def withArgs (f : List Expr → Except SubstitutionError Expr) : Plan :=
  workOut fun args => answer (args >>= f)

def templates (ts : NameMap Expr) (f : String) : Option Plan :=
  (ts.find? f).map fun template => withArgs template.fill

def hide (hidden : NameMap Expr) (keepArgs : Bool) (f : String) : Option Plan :=
  (hidden.find? f).map fun e =>
    if keepArgs then withArgs fun args => .ok (.group .tuple (e :: args)) else answer (.ok e)

end Plan

def Hook.ofPlans (plans : String → Option Plan) : Hook
  | .call f args => match plans f with
    | some plan => plan.steps args
    | none => .answer (.ok none)
  | _ => .answer (.ok none)

def Expansion.ofPlans (plans : String → Option Plan) : Expansion := fun f =>
  (plans f).map fun plan args => plan.build args

theorem Subst.run_bind (m : Subst α) (f : α → Subst β) (σ : Substitution) :
    (m >>= f).run σ = match m.run σ with
      | (.ok a, σ) => (f a).run σ
      | (.error cause, σ) => (.error cause, σ) := by
  simp only [run, ExceptT.run_bind, StateT.run_bind]
  rcases StateT.run (ExceptT.run m) σ with ⟨_ | _, _⟩ <;> rfl

theorem Subst.run_observing (m : Subst α) (σ : Substitution) :
    (observing m : Subst _).run σ = (.ok (m.run σ).1, (m.run σ).2) :=
  run_run_observing m σ

theorem Subst.run_letting (x : String) (e : Expr) (m : Subst α) (σ : Substitution) :
    (letting x e m).run σ =
      ((m.run (σ.insert x e)).1, (m.run (σ.insert x e)).2.restore x (σ.find? x)) := rfl

theorem Plan.build_withArgs (f : List Expr → Except SubstitutionError Expr) (args : Subst (List Expr)) :
    (withArgs f).build args = (do MonadExcept.ofExcept (f (← args))) := by
  funext σ
  show Subst.run (observing args >>= fun r => MonadExcept.ofExcept (r >>= f)) σ = Subst.run _ σ
  rw [Subst.run_bind, Subst.run_observing, Subst.run_bind]
  rcases args.run σ with ⟨_ | args, σ⟩ <;> rfl

theorem Expansion.ofPlans_templates (ts : NameMap Expr) :
    ofPlans (Plan.templates ts) = templates ts := by
  funext f
  simp only [ofPlans, Plan.templates, templates, Option.map_map]
  congr 1
  funext template args
  exact Plan.build_withArgs template.fill args

theorem Expansion.ofPlans_hide (hidden : NameMap Expr) (keepArgs : Bool) :
    ofPlans (Plan.hide hidden keepArgs) = hide hidden keepArgs := by
  funext f
  simp only [ofPlans, Plan.hide, hide, Option.map_map]
  congr 1
  funext e args
  cases keepArgs with
  | false => rfl
  | true => exact Plan.build_withArgs (fun args => .ok (.group .tuple (e :: args))) args

-- ---------------------------------------------------------------- the program's own rewriting

namespace Hook

section
variable {hook : Hook} {expand : Expansion} {es : List Expr}
  (h : ∀ e ∈ es, ∀ σ, Settles (hook.rewrite · e σ) ((e.replaceFree expand).run σ))
include h

theorem rewriteAll_settles (σ : Substitution) :
    Settles (hook.rewriteAll · es σ) ((Expr.replaceFreeAll expand es).run σ) := by
  induction es generalizing σ with
  | nil => exact .succ (.pure _)
  | cons e es ih =>
    obtain ⟨he, hes⟩ := List.forall_mem_cons.mp h
    rw [Expr.replaceFreeAll, Subst.run_bind]
    refine .succ (.bind (he σ) ?_)
    rcases (e.replaceFree expand).run σ with ⟨_ | e, σ⟩
    · exact .pure _
    · refine .bind (ih hes σ) ?_
      dsimp only
      rw [Subst.run_bind]
      rcases (Expr.replaceFreeAll expand es).run σ with ⟨_ | es, σ⟩ <;> exact .pure _

/-- A hook that has expressions rewritten goes on with what the program makes of them. -/
theorem consult_rewriteAll_settles {next : Except SubstitutionError (List Expr) → Step}
    (hnext : Settles (hook.consult · (next ((Expr.replaceFreeAll expand es).run σ).1)
      ((Expr.replaceFreeAll expand es).run σ).2) out) :
    Settles (hook.consult · (.rewriteAll es next) σ) out := by
  induction es generalizing next σ with
  | nil => exact hnext
  | cons e es ih =>
    obtain ⟨he, hes⟩ := List.forall_mem_cons.mp h
    rw [Expr.replaceFreeAll, Subst.run_bind] at hnext
    refine .succ (.bind (he σ) ?_)
    generalize (e.replaceFree expand).run σ = first at hnext ⊢
    rcases first with ⟨_ | e, σ⟩
    · exact hnext
    · refine ih hes ?_
      dsimp only at hnext
      rw [Subst.run_bind] at hnext
      generalize (Expr.replaceFreeAll expand es).run σ = rest at hnext ⊢
      rcases rest with ⟨_ | es, σ⟩ <;> exact hnext

/-- Consulting a hook that follows a plan is following it. -/
theorem consult_steps_settles (plan : Plan) (σ : Substitution) :
    Settles (hook.consult · (plan.steps es) σ)
      (some <$> ((plan.build (Expr.replaceFreeAll expand es)).run σ).1,
        ((plan.build (Expr.replaceFreeAll expand es)).run σ).2) := by
  induction plan generalizing σ with
  | answer result =>
    refine .succ ?_
    cases result <;> exact .pure _
  | inspect next ih => exact .succ (ih σ σ)
  | workOut next ih =>
    rw [Plan.steps, Plan.build, Subst.run_bind, Subst.run_observing]
    exact consult_rewriteAll_settles h (ih _ _)

end

theorem consult_nothing {hook : Hook} (h : hook e = .answer (.ok none)) (σ : Substitution) :
    Settles (fun n => hook.consult n (hook e) σ) (.ok none, σ) := by
  rw [h]
  exact .succ (.pure _)

theorem rewrite_ofPlans (plans : String → Option Plan) (e : Expr) (σ : Substitution) :
    Settles ((ofPlans plans).rewrite · e σ) ((e.replaceFree (Expansion.ofPlans plans)).run σ) := by
  induction e using Expr.induction generalizing σ with
  | var x => exact .succ (.bind (consult_nothing rfl σ) (.pure _))
  | call f args ih =>
    rw [Expr.replaceFree]
    cases hf : plans f with
    | some plan =>
      have hsteps : ofPlans plans (.call f args) = plan.steps args := by simp only [ofPlans, hf]
      have hplan := consult_steps_settles ih plan σ
      rw [← hsteps] at hplan
      simp only [Expansion.ofPlans, hf, Option.map_some]
      refine .succ (.bind hplan ?_)
      rcases (plan.build (Expr.replaceFreeAll _ args)).run σ with ⟨_ | e, σ⟩ <;> exact .pure _
    | none =>
      have hnothing : ofPlans plans (.call f args) = .answer (.ok none) := by simp only [ofPlans, hf]
      simp only [Expansion.ofPlans, hf, Option.map_none, Subst.run_bind, Expr.functionName_answers f σ]
      refine .succ (.bind (consult_nothing hnothing σ) ?_)
      dsimp only
      cases headName σ f with
      | error cause => exact .pure _
      | ok g =>
        refine .bind (rewriteAll_settles ih σ) ?_
        dsimp only
        rcases (Expr.replaceFreeAll _ args).run σ with ⟨_ | args, σ⟩ <;> exact .pure _
  | binary op l r ihl ihr =>
    simp only [Expr.replaceFree, Subst.run_bind]
    refine .succ (.bind (consult_nothing rfl σ) (.bind (ihl σ) ?_))
    rcases (l.replaceFree _).run σ with ⟨_ | l, σ⟩
    · exact .pure _
    · refine .bind (ihr σ) ?_
      dsimp only
      rcases (r.replaceFree _).run σ with ⟨_ | r, σ⟩ <;> exact .pure _
  | not e ih =>
    simp only [Expr.replaceFree, Subst.run_bind]
    refine .succ (.bind (consult_nothing rfl σ) (.bind (ih σ) ?_))
    rcases (e.replaceFree _).run σ with ⟨_ | e, σ⟩ <;> exact .pure _
  | bind b x body ih =>
    have hname : (Expr.binderName x body).run σ =
        (.ok (Name.fresh (body.free ++ freeAll σ.values) x), σ) := rfl
    simp only [Expr.replaceFree, Subst.run_bind, hname, Subst.run_letting]
    refine .succ (.bind (consult_nothing rfl σ) (.bind (ih _) ?_))
    rcases (body.replaceFree _).run (σ.insert x _) with ⟨_ | body, σ⟩ <;> exact .pure _
  | group g items ih =>
    simp only [Expr.replaceFree, Subst.run_bind]
    refine .succ (.bind (consult_nothing rfl σ) (.bind (rewriteAll_settles ih σ) ?_))
    rcases (Expr.replaceFreeAll _ items).run σ with ⟨_ | items, σ⟩ <;> exact .pure _

end Hook

/-- Rewriting can be repeated. Where it returns, be it with an error, the substitution is what it was,
whatever the hook did; so a list that is rewritten in turn gets the answers that each expression gets
alone, under all bounds that are large enough to answer. The program's substitution is this rewriting,
which settles, for all expansions that only work out arguments; these are templates and what is hidden. -/
theorem rewriting_restores (hook : Hook) (σ : Substitution) :
    (∀ n e result τ, hook.rewrite n e σ = some (result, τ) →
      τ = σ ∧ ∀ m ≥ n, hook.rewrite m e σ = some (result, σ)) ∧
    (∀ n es, hook.rewriteInTurn n es σ =
      (·, σ) <$> es.mapM fun e => Prod.fst <$> hook.rewrite n e σ) ∧
    (∀ plans e, Settles ((Hook.ofPlans plans).rewrite · e σ)
        ((e.replaceFree (Expansion.ofPlans plans)).run σ) ∧
      ((e.replaceFree (Expansion.ofPlans plans)).run σ).2 = σ) ∧
    (∀ ts, Expansion.ofPlans (Plan.templates ts) = Expansion.templates ts) ∧
    ∀ hidden keepArgs,
      Expansion.ofPlans (Plan.hide hidden keepArgs) = Expansion.hide hidden keepArgs := by
  refine ⟨fun n e result τ h => ?_, fun n es => hook.rewriteInTurn_eq n es σ, fun plans e => ?_,
    Expansion.ofPlans_templates, Expansion.ofPlans_hide⟩
  · have hτ : τ = σ := ((hook.restores n.le_refl).1 e σ _ h).1
    subst hτ
    exact ⟨rfl, fun m hm => ((hook.restores hm).1 e _ _ h).2⟩
  · obtain ⟨N, hN⟩ := Hook.rewrite_ofPlans plans e σ
    exact ⟨⟨N, hN⟩, (((Hook.ofPlans plans).restores N.le_refl).1 e σ _ (hN N N.le_refl)).1⟩

/-- `P` says that its two arguments are equal. -/
def equating : Hook :=
  .ofPlans (Plan.templates (.ofList [("P", .binary .equals (.var "_0") (.var "_1"))]))

def xAsA : Substitution := .ofList [("x", .var "a")]

/-- `∀x(P(x))` lacks an argument, under a binder that hides a mapping. The mapping is there again for
`P(x, b)`. -/
theorem rewriting_restores_afterError : ∃ cause,
    (∃ τ, equating.rewrite 9 (.bind .all "x" (.call "P" [.var "x"])) xAsA = some (.error cause, τ) ∧
      τ = xAsA ∧
      ∀ m ≥ 9, equating.rewrite m (.bind .all "x" (.call "P" [.var "x"])) xAsA =
        some (.error cause, xAsA)) ∧
    equating.rewriteInTurn 9
        [.bind .all "x" (.call "P" [.var "x"]), .call "P" [.var "x", .var "b"]] xAsA =
      some ([.error cause, .ok (.binary .equals (.var "a") (.var "b"))], xAsA) := by
  obtain ⟨hleaves, hturn, -, -, -⟩ := rewriting_restores equating xAsA
  have hlacking : equating.rewrite 9 (.bind .all "x" (.call "P" [.var "x"])) xAsA =
      some (.error (.unfilled (.binary .equals (.var "_0") (.var "_1"))
        (.binary .equals (.var "_x") (.var "_1"))), xAsA) := rfl
  have hfilled : equating.rewrite 9 (.call "P" [.var "x", .var "b"]) xAsA =
      some (.ok (.binary .equals (.var "a") (.var "b")), xAsA) := rfl
  refine ⟨_, ⟨_, hlacking, hleaves _ _ _ _ hlacking⟩, ?_⟩
  rw [hturn]
  simp [hlacking, hfilled]

end ProofScript
