import ProofScript.Instantiation
import ProofScript.Proofs.Nameless

/-!
# Substitution avoids capture

`substitute_correct`: substitution fails exactly when an object would have to stand where a function
stands, and gives otherwise, up to bound names, the substitution of nameless forms.

A binder gets a name that is fresh for its body and for the replacements current at that place, and
for nothing else. This is enough: the invariant `Stands` speaks of the names free in the body only.
-/

namespace ProofScript

-- ---------------------------------------------------------------- the state of a substitution

namespace Subst

/-- The action only reads the substitution: its answer is `r`, and the state is the same after it,
also where it fails. -/
def Answers (m : Subst α) (r : Substitution → Except SubstitutionError α) : Prop :=
  ∀ σ, m.run σ = (r σ, σ)

namespace Answers

theorem pure (a : α) : Answers (Pure.pure a) fun _ => .ok a := fun _ => rfl

theorem get : Answers MonadState.get fun σ => .ok σ := fun _ => rfl

theorem ofExcept (r : Except SubstitutionError α) : Answers (MonadExcept.ofExcept r) fun _ => r := by
  intro σ
  cases r <;> rfl

theorem bind {m : Subst α} {f : α → Subst β} {s : α → Substitution → Except SubstitutionError β}
    (hm : m.Answers r) (hf : ∀ a, (f a).Answers (s a)) :
    (m >>= f).Answers fun σ => r σ >>= fun a => s a σ := by
  intro σ
  have hσ := hm σ
  simp only [run] at hσ
  simp only [run, ExceptT.run_bind, StateT.run_bind, hσ]
  cases r σ with
  | error cause => rfl
  | ok a => exact hf a σ

/-- What a binder changes is put back. -/
theorem letting (hm : Answers m r) : (letting x e m).Answers fun σ => r (σ.insert x e) := by
  intro σ
  show ((m.run (σ.insert x e)).1, (m.run (σ.insert x e)).2.restore x (σ.find? x)) = _
  rw [hm]
  exact congrArg (Prod.mk _) (NameMap.restore_insert σ x e)

end Answers

end Subst

namespace Expr

/-- The name that takes the place of a function under `σ`. -/
def headName (σ : Substitution) (f : String) : Except SubstitutionError String :=
  match σ.find? f with
  | none => .ok f
  | some (var g) => .ok g
  | some e => .error (.notAFunction f e)

mutual
/-- What `replaceFree` answers, with the substitution as an argument. -/
def replaced (ts : NameMap Expr) : Expr → Substitution → Except SubstitutionError Expr
  | var x, σ => .ok ((σ.find? x).getD (var x))
  | call f args, σ =>
    match ts.find? f with
    | some template => do template.fill (← replacedAll ts args σ)
    | none => do
      let g ← headName σ f
      return call g (← replacedAll ts args σ)
  | binary op l r, σ => do
    let l ← replaced ts l σ
    let r ← replaced ts r σ
    return binary op l r
  | not e, σ => return not (← replaced ts e σ)
  | bind b x body, σ => do
    let y := Name.fresh (body.free ++ freeAll σ.values) x
    return bind b y (← replaced ts body (σ.insert x (var y)))
  | group g items, σ => return group g (← replacedAll ts items σ)
def replacedAll (ts : NameMap Expr) : List Expr → Substitution → Except SubstitutionError (List Expr)
  | [], _ => return []
  | e :: es, σ => do
    let e ← replaced ts e σ
    return e :: (← replacedAll ts es σ)
end

theorem functionName_answers (f : String) : (functionName f).Answers fun σ => headName σ f := by
  intro σ
  show (match σ.find? f with
    | none => pure f
    | some (var g) => pure g
    | some e => throw (.notAFunction f e) : Subst String).run σ = _
  simp only [headName]
  cases σ.find? f with
  | none => rfl
  | some e => cases e <;> rfl

theorem replaceFreeAll_answers
    (h : ∀ e ∈ es, (replaceFree (.templates ts) e).Answers (replaced ts e)) :
    (replaceFreeAll (.templates ts) es).Answers (replacedAll ts es) := by
  induction es with
  | nil => exact .pure []
  | cons e es ih =>
    simp only [replaceFreeAll]
    exact (h e (by simp)).bind fun e => (ih fun d hd => h d (by simp [hd])).bind fun _ => .pure _

/-- Substitution reads its state and leaves it as it was. -/
theorem replaceFree_answers (ts : NameMap Expr) (e : Expr) :
    (replaceFree (.templates ts) e).Answers (replaced ts e) := by
  induction e using Expr.induction with
  | var x => exact Subst.Answers.get.bind fun σ => .pure _
  | call f args ih =>
    have hargs := replaceFreeAll_answers ih
    intro σ
    cases ht : ts.find? f with
    | some template =>
      simp only [replaceFree, replaced, Expansion.templates, ht, Option.map_some]
      exact hargs.bind (fun args => .ofExcept (template.fill args)) σ
    | none =>
      simp only [replaceFree, replaced, Expansion.templates, ht, Option.map_none]
      exact (functionName_answers f).bind (fun g => hargs.bind fun _ => .pure _) σ
  | binary op l r ihl ihr => exact ihl.bind fun l => ihr.bind fun r => .pure _
  | not e ih => exact ih.bind fun e => .pure _
  | bind b x body ih =>
    intro σ
    exact (ih.letting.bind fun body => .pure _) σ
  | group g items ih => exact (replaceFreeAll_answers ih).bind fun _ => .pure _

theorem substitute_eq_replaced (e : Expr) (σ : Substitution) :
    e.substitute σ = e.replaced ∅ σ := by
  exact congrArg Prod.fst (replaceFree_answers ∅ e σ)

-- ---------------------------------------------------------------- where it succeeds

-- One law for each shape of an expression. Calls of a template's name have a law of their own.

section
variable {ts : NameMap Expr} {σ : Substitution}

theorem replaced_template (ht : ts.find? f = some t) : replaced ts (call f args) σ = .ok d ↔
    ∃ ds, replacedAll ts args σ = .ok ds ∧ t.fill ds = .ok d := by
  simp only [replaced, ht, bind_eq_ok]

theorem replaced_call (ht : ts.find? f = none) : replaced ts (call f args) σ = .ok d ↔
    ∃ g, headName σ f = .ok g ∧ ∃ ds, replacedAll ts args σ = .ok ds ∧ call g ds = d := by
  simp only [replaced, ht, bind_eq_ok, pure_eq_ok]

theorem replaced_binary : replaced ts (binary op l r) σ = .ok d ↔
    ∃ l', replaced ts l σ = .ok l' ∧ ∃ r', replaced ts r σ = .ok r' ∧ binary op l' r' = d := by
  simp only [replaced, bind_eq_ok, pure_eq_ok]

theorem replaced_not : replaced ts (not e) σ = .ok d ↔ ∃ e', replaced ts e σ = .ok e' ∧ not e' = d := by
  simp only [replaced, bind_eq_ok, pure_eq_ok]

theorem replaced_bind : replaced ts (bind b x body) σ = .ok d ↔
    ∃ body', replaced ts body (σ.insert x (var (Name.fresh (body.free ++ freeAll σ.values) x))) = .ok body' ∧
      bind b (Name.fresh (body.free ++ freeAll σ.values) x) body' = d := by
  simp only [replaced, bind_eq_ok, pure_eq_ok]

theorem replaced_group : replaced ts (group g items) σ = .ok d ↔
    ∃ ds, replacedAll ts items σ = .ok ds ∧ group g ds = d := by
  simp only [replaced, bind_eq_ok, pure_eq_ok]

theorem replacedAll_cons : replacedAll ts (e :: es) σ = .ok ds ↔
    ∃ d, replaced ts e σ = .ok d ∧ ∃ rest, replacedAll ts es σ = .ok rest ∧ d :: rest = ds := by
  simp only [replacedAll, bind_eq_ok, pure_eq_ok]

/-- What relates each expression to its result relates the lists. -/
theorem replacedAll_map (h : replacedAll ts es σ = .ok ds) (F G : Expr → γ)
    (hp : ∀ e ∈ es, ∀ d, replaced ts e σ = .ok d → F d = G e) : ds.map F = es.map G := by
  induction es generalizing ds with
  | nil =>
    cases pure_eq_ok.mp h
    rfl
  | cons e es ih =>
    obtain ⟨d, hd, ds, hds, rfl⟩ := replacedAll_cons.mp h
    simp only [List.map_cons, hp e (by simp) d hd, ih hds fun e he => hp e (by simp [he])]

theorem replacedAll_ok (h : replacedAll ts es σ = .ok ds) :
    ∀ e ∈ es, ∃ d ∈ ds, replaced ts e σ = .ok d := by
  induction es generalizing ds with
  | nil => simp
  | cons e es ih =>
    obtain ⟨d, hd, ds, hds, rfl⟩ := replacedAll_cons.mp h
    refine List.forall_mem_cons.mpr ⟨⟨d, by simp, hd⟩, fun a ha => ?_⟩
    obtain ⟨c, hc, hac⟩ := ih hds a ha
    exact ⟨c, List.mem_cons_of_mem _ hc, hac⟩

theorem replacedAll_mem (h : replacedAll ts es σ = .ok ds) :
    ∀ d ∈ ds, ∃ e ∈ es, replaced ts e σ = .ok d := by
  induction es generalizing ds with
  | nil =>
    cases pure_eq_ok.mp h
    simp
  | cons e es ih =>
    obtain ⟨d, hd, ds, hds, rfl⟩ := replacedAll_cons.mp h
    refine List.forall_mem_cons.mpr ⟨⟨e, by simp, hd⟩, fun c hc => ?_⟩
    obtain ⟨e', he, hc⟩ := ih hds c hc
    exact ⟨e', by simp [he], hc⟩

end

-- ---------------------------------------------------------------- when it fails

mutual
/-- The names that stand free in function position. -/
def functions : Expr → List String
  | var _ => []
  | call f args => f :: functionsAll args
  | binary _ l r => l.functions ++ r.functions
  | not e => e.functions
  | bind _ x body => body.functions.filter (· != x)
  | group _ items => functionsAll items
def functionsAll : List Expr → List String
  | [] => []
  | e :: es => e.functions ++ functionsAll es
end

/-- Some function would be replaced by what is not a name. -/
def Misapplied (σ : Substitution) (e : Expr) : Prop :=
  ∃ f ∈ e.functions, ∃ r, σ.find? f = some r ∧ ∀ g, r ≠ var g

theorem mem_functionsAll : f ∈ functionsAll es ↔ ∃ e ∈ es, f ∈ e.functions := by
  induction es with
  | nil => simp [functionsAll]
  | cons e es ih => simp [functionsAll, ih]

theorem mem_functions_bind : f ∈ (bind b x body).functions ↔ f ∈ body.functions ∧ f ≠ x := by
  simp [functions]

theorem free_of_functions {e : Expr} (h : f ∈ e.functions) : f ∈ e.free := by
  induction e using Expr.induction with
  | var x => simp [functions] at h
  | call g args ih =>
    rcases List.mem_cons.mp h with rfl | h
    · simp [free]
    · obtain ⟨a, ha, hf⟩ := mem_functionsAll.mp h
      exact List.mem_cons_of_mem _ (mem_freeAll.mpr ⟨a, ha, ih a ha hf⟩)
  | binary op l r ihl ihr => exact List.mem_append.mpr ((List.mem_append.mp h).imp ihl ihr)
  | not e ih => exact ih h
  | bind b x body ih =>
    obtain ⟨hf, hfx⟩ := mem_functions_bind.mp h
    exact mem_free_bind.mpr ⟨ih hf, hfx⟩
  | group g items ih =>
    obtain ⟨a, ha, hf⟩ := mem_functionsAll.mp h
    exact mem_freeAll.mpr ⟨a, ha, ih a ha hf⟩

/-- The name of a binder stands for a name inside it, so what is not a name stands for another. -/
theorem find?_under_binder {σ : Substitution} (h : (σ.insert x (var y)).find? f = some r)
    (hn : ∀ g, r ≠ var g) : f ≠ x ∧ σ.find? f = some r :=
  (NameMap.find?_insert_eq_some.mp h).resolve_left fun ⟨_, hy⟩ => hn y hy.symm

theorem headName_eq_error (h : headName σ f = .error cause) :
    ∃ r, σ.find? f = some r ∧ (∀ g, r ≠ var g) ∧ cause = .notAFunction f r := by
  unfold headName at h
  split at h
  · cases h
  · cases h
  · rename_i r hr hf
    exact ⟨r, hf, hr, (Except.error.inj h).symm⟩

theorem headName_eq_ok (h : headName σ f = .ok g) : (σ.find? f).getD (var f) = var g := by
  unfold headName at h
  split at h <;> cases h <;> simp_all

theorem replacedAll_eq_error (h : replacedAll ts es σ = .error cause) :
    ∃ e ∈ es, replaced ts e σ = .error cause := by
  induction es with
  | nil => exact absurd h pure_ne_error
  | cons e es ih =>
    simp only [replacedAll, bind_eq_error] at h
    obtain he | ⟨_, _, hes | ⟨_, _, hp⟩⟩ := h
    · exact ⟨e, by simp, he⟩
    · obtain ⟨d, hd, herr⟩ := ih hes
      exact ⟨d, by simp [hd], herr⟩
    · exact absurd hp pure_ne_error

/-- The only failure is an object in the place of a function. -/
theorem replaced_eq_error (h : replaced ∅ e σ = .error cause) :
    ∃ f ∈ e.functions, ∃ r, σ.find? f = some r ∧ (∀ g, r ≠ var g) ∧ cause = .notAFunction f r := by
  induction e using Expr.induction generalizing σ with
  | var x => cases h
  | call f args ih =>
    simp only [replaced, NameMap.find?_empty, bind_eq_error] at h
    obtain hf | ⟨_, _, hargs | ⟨_, _, hp⟩⟩ := h
    · exact ⟨f, by simp [functions], headName_eq_error hf⟩
    · obtain ⟨a, ha, herr⟩ := replacedAll_eq_error hargs
      obtain ⟨g, hg, hr⟩ := ih a ha herr
      exact ⟨g, List.mem_cons_of_mem _ (mem_functionsAll.mpr ⟨a, ha, hg⟩), hr⟩
    · exact absurd hp pure_ne_error
  | binary op l r ihl ihr =>
    simp only [replaced, bind_eq_error] at h
    obtain hl | ⟨_, _, hr | ⟨_, _, hp⟩⟩ := h
    · obtain ⟨g, hg, hr⟩ := ihl hl
      exact ⟨g, List.mem_append_left _ hg, hr⟩
    · obtain ⟨g, hg, hr⟩ := ihr hr
      exact ⟨g, List.mem_append_right _ hg, hr⟩
    · exact absurd hp pure_ne_error
  | not e ih =>
    simp only [replaced, bind_eq_error] at h
    obtain he | ⟨_, _, hp⟩ := h
    · exact ih he
    · exact absurd hp pure_ne_error
  | bind b x body ih =>
    simp only [replaced, bind_eq_error] at h
    obtain hbody | ⟨_, _, hp⟩ := h
    · obtain ⟨f, hf, r, hr, hn, hc⟩ := ih hbody
      obtain ⟨hfx, hr⟩ := find?_under_binder hr hn
      exact ⟨f, mem_functions_bind.mpr ⟨hf, hfx⟩, r, hr, hn, hc⟩
    · exact absurd hp pure_ne_error
  | group g items ih =>
    simp only [replaced, bind_eq_error] at h
    obtain hitems | ⟨_, _, hp⟩ := h
    · obtain ⟨a, ha, herr⟩ := replacedAll_eq_error hitems
      obtain ⟨f, hf, hr⟩ := ih a ha herr
      exact ⟨f, mem_functionsAll.mpr ⟨a, ha, hf⟩, hr⟩
    · exact absurd hp pure_ne_error

theorem not_misapplied_of_ok (h : replaced ∅ e σ = .ok d) : ¬Misapplied σ e := by
  rintro ⟨f, hf, r, hr, hn⟩
  induction e using Expr.induction generalizing σ d with
  | var x => simp [functions] at hf
  | call g args ih =>
    obtain ⟨k, hk, ds, hds, _⟩ := (replaced_call (NameMap.find?_empty g)).mp h
    rcases List.mem_cons.mp hf with rfl | hf
    · have := headName_eq_ok hk
      rw [hr] at this
      exact hn k this
    · obtain ⟨a, ha, hfa⟩ := mem_functionsAll.mp hf
      obtain ⟨d, _, hd⟩ := replacedAll_ok hds a ha
      exact ih a ha hd hfa hr
  | binary op l r ihl ihr =>
    obtain ⟨_, hl, _, hr', _⟩ := replaced_binary.mp h
    rcases List.mem_append.mp hf with hf | hf
    · exact ihl hl hf hr
    · exact ihr hr' hf hr
  | not e ih =>
    obtain ⟨_, he, _⟩ := replaced_not.mp h
    exact ih he hf hr
  | bind b x body ih =>
    obtain ⟨_, hbody, _⟩ := replaced_bind.mp h
    obtain ⟨hf, hfx⟩ := mem_functions_bind.mp hf
    exact ih hbody hf (by rwa [NameMap.find?_insert_ne _ _ hfx])
  | group g items ih =>
    obtain ⟨ds, hds, _⟩ := replaced_group.mp h
    obtain ⟨a, ha, hfa⟩ := mem_functionsAll.mp hf
    obtain ⟨d, _, hd⟩ := replacedAll_ok hds a ha
    exact ih a ha hd hfa hr

-- ---------------------------------------------------------------- what it gives

end Expr

/-- The nameless forms of the replacements. -/
def Substitution.forms (σ : Substitution) : Nameless.Replacement := fun x =>
  (σ.find? x).map (Expr.nameless [])

/-- Under binders `xs`, renamed to `ys`, the current substitution `τ` does to the name `z` what `σ`
does outside: a bound name stands for the new name of its binder, a free name for its replacement,
which mentions none of the new names. -/
def Stands (σ τ : Substitution) (xs ys : List String) (z : String) : Prop :=
  match Ref.resolve xs z with
  | .bound i => ∃ y, (τ.find? z).getD (.var z) = .var y ∧ Ref.resolve ys y = .bound i
  | .free _ => τ.find? z = σ.find? z ∧ ∀ w ∈ ((σ.find? z).getD (.var z)).free, w ∉ ys

namespace Stands

theorem outside (σ : Substitution) (z : String) : Stands σ σ [] [] z := by
  simp [Stands]

theorem under (h : ∀ z ∈ (Expr.bind b x body).free, Stands σ τ xs ys z)
    (hbody : y ∉ body.free) (hvalues : y ∉ Expr.freeAll τ.values) :
    ∀ z ∈ body.free, Stands σ (τ.insert x (.var y)) (x :: xs) (y :: ys) z := by
  intro z hz
  by_cases hzx : z = x
  · subst hzx
    simp [Stands, NameMap.find?_insert_self]
  · have hs := h z (Expr.mem_free_bind.mpr ⟨hz, hzx⟩)
    have hvalue (r) (hr : τ.find? z = some r) : y ∉ r.free := fun hy =>
      hvalues (Expr.mem_freeAll.mpr ⟨r, NameMap.mem_values hr, hy⟩)
    unfold Stands at hs ⊢
    rw [Ref.resolve_cons_ne hzx, NameMap.find?_insert_ne _ _ hzx]
    cases hr : Ref.resolve xs z with
    | bound i =>
      rw [hr] at hs
      obtain ⟨w, hw, hi⟩ := hs
      have hwy : w ≠ y := by
        rintro rfl
        cases hτ : τ.find? z with
        | none =>
          simp only [hτ, Option.getD_none, Expr.var.injEq] at hw
          exact hbody (hw ▸ hz)
        | some r =>
          simp only [hτ, Option.getD_some] at hw
          exact hvalue r hτ (by simp [hw, Expr.free])
      exact ⟨w, hw, by rw [Ref.resolve_cons_ne hwy, hi]; rfl⟩
    | free _ =>
      rw [hr] at hs
      refine ⟨hs.1, fun w hw => ?_⟩
      have hwy : w ≠ y := by
        rintro rfl
        cases hσ : σ.find? z with
        | none =>
          simp [hσ, Expr.free] at hw
          exact hbody (hw ▸ hz)
        | some r =>
          simp only [hσ, Option.getD_some] at hw
          exact hvalue r (hs.1.trans hσ) hw
      simpa [hwy] using hs.2 w hw

/-- In the place of an object. -/
theorem nameless_var (h : Stands σ τ xs ys z) :
    ((τ.find? z).getD (.var z)).nameless ys = (Nameless.var (.resolve xs z)).replace σ.forms := by
  unfold Stands at h
  cases hr : Ref.resolve xs z with
  | bound i =>
    rw [hr] at h
    obtain ⟨y, hy, hi⟩ := h
    simp [hy, Expr.nameless, hi, Nameless.replace]
  | free w =>
    rw [hr] at h
    obtain ⟨rfl, hz⟩ := Ref.resolve_free hr
    rw [h.1, Expr.nameless_of_disjoint h.2]
    cases hσ : σ.find? w <;> simp [Nameless.replace, Substitution.forms, hσ, Expr.nameless]

/-- In the place of a function, which only a name can take. -/
theorem resolve_head (h : Stands σ τ xs ys f) (hg : Expr.headName τ f = .ok g) :
    Ref.resolve ys g = Nameless.replaceHead σ.forms (.resolve xs f) := by
  have hv := h.nameless_var
  rw [Expr.headName_eq_ok hg] at hv
  cases hr : Ref.resolve xs f with
  | bound i => simpa [hr, Expr.nameless, Nameless.replace, Nameless.replaceHead] using hv
  | free w =>
    simp only [hr, Expr.nameless, Nameless.replace] at hv
    cases hσ : σ.forms w with
    | none => simpa [hσ, Nameless.replaceHead] using hv
    | some v =>
      obtain rfl : Nameless.var (.resolve ys g) = v := by simpa [hσ] using hv
      simp [hσ, Nameless.replaceHead]

end Stands

namespace Expr

theorem nameless_replaced (h : replaced ∅ e τ = .ok d) (hs : ∀ z ∈ e.free, Stands σ τ xs ys z) :
    d.nameless ys = (e.nameless xs).replace σ.forms := by
  induction e using Expr.induction generalizing τ xs ys d with
  | var x =>
    cases h
    exact (hs x (by simp [free])).nameless_var
  | call f args ih =>
    obtain ⟨g, hg, ds, hds, rfl⟩ := (replaced_call (NameMap.find?_empty f)).mp h
    have hargs := replacedAll_map hds (nameless ys) (fun a => (a.nameless xs).replace σ.forms)
      fun a ha d hd => ih a ha hd fun z hz => hs z (by
        simp only [free, List.mem_cons, mem_freeAll]
        exact .inr ⟨a, ha, hz⟩)
    simp [nameless, Nameless.replace, namelessAll_eq_map, Nameless.replaceAll_eq_map, hargs,
      (hs f (by simp [free])).resolve_head hg]
  | binary op l r ihl ihr =>
    obtain ⟨l', hl, r', hr, rfl⟩ := replaced_binary.mp h
    simp only [nameless, Nameless.replace]
    rw [ihl hl fun z hz => hs z (by simp [free, hz]), ihr hr fun z hz => hs z (by simp [free, hz])]
  | not e ih =>
    obtain ⟨e', he, rfl⟩ := replaced_not.mp h
    simp only [nameless, Nameless.replace]
    rw [ih he fun z hz => hs z (by simpa [free] using hz)]
  | bind b x body ih =>
    obtain ⟨body', hbody, rfl⟩ := replaced_bind.mp h
    -- the only place where freshness is used
    have hfresh := Name.fresh_not_mem (body.free ++ freeAll τ.values) x
    simp only [List.mem_append, not_or] at hfresh
    simp only [nameless, Nameless.replace]
    rw [ih hbody (Stands.under hs hfresh.1 hfresh.2)]
  | group g items ih =>
    obtain ⟨ds, hds, rfl⟩ := replaced_group.mp h
    have hitems := replacedAll_map hds (nameless ys) (fun a => (a.nameless xs).replace σ.forms)
      fun a ha d hd => ih a ha hd fun z hz => hs z (by
        simp only [free, mem_freeAll]
        exact ⟨a, ha, hz⟩)
    simp [nameless, Nameless.replace, namelessAll_eq_map, Nameless.replaceAll_eq_map, hitems]

theorem nameless_substitute {e : Expr} (h : e.substitute σ = .ok d) :
    d.nameless [] = (e.nameless []).replace σ.forms :=
  nameless_replaced (substitute_eq_replaced e σ ▸ h) fun z _ => .outside σ z

theorem not_misapplied_rename (e : Expr) (x y : String) :
    ¬Misapplied (.ofList [(x, var y)]) e := by
  rintro ⟨f, _, r, hr, hn⟩
  rw [NameMap.find?_singleton] at hr
  split at hr
  · exact hn y (Option.some.inj hr).symm
  · cases hr

theorem substitute_rename (e : Expr) (x y : String) :
    e.substitute (.ofList [(x, var y)]) = .ok (e.rename x y) := by
  cases h : e.substitute (.ofList [(x, var y)]) with
  | ok d => simp [rename, h]
  | error cause =>
    rw [substitute_eq_replaced] at h
    obtain ⟨f, hf, r, hr, hn, _⟩ := replaced_eq_error h
    exact absurd ⟨f, hf, r, hr, hn⟩ (not_misapplied_rename e x y)

/-- Renaming does to the free names of the nameless form what it says. -/
theorem nameless_rename (e : Expr) (x y : String) :
    (e.rename x y).nameless [] = (e.nameless []).map fun z => if z = x then y else z := by
  rw [nameless_substitute (substitute_rename e x y)]
  have hforms : Substitution.forms (.ofList [(x, var y)]) =
      fun z => (if z = x then some y else none).map fun y => Nameless.var (.free y) := by
    funext z
    by_cases hz : z = x <;> simp [Substitution.forms, NameMap.find?_singleton, hz, nameless]
  rw [hforms, Nameless.replace_names]
  congr 1
  funext z
  by_cases hz : z = x <;> simp [hz]

theorem mem_free_rename {e : Expr} :
    z ∈ (e.rename x y).free ↔ (z ∈ e.free ∧ z ≠ x) ∨ (x ∈ e.free ∧ z = y) := by
  have h : z ∈ (e.rename x y).free ↔ z ∈ ((e.rename x y).nameless []).free := by
    simp [mem_free_nameless]
  rw [h, nameless_rename, Nameless.mem_free_map]
  simp only [mem_free_nameless]
  grind

/-- Under a binder of the new name a renamed body has the form it had under one of the old name. -/
theorem nameless_rename_under {e : Expr} (hx : x ∉ e.free) :
    (e.rename y x).nameless (x :: context) = e.nameless (y :: context) := by
  have hstands : ∀ z ∈ e.free,
      Stands ∅ (.ofList [(y, var x)]) (y :: context) (x :: context) z := by
    intro z hz
    have hzx : z ≠ x := fun e => hx (e ▸ hz)
    by_cases hzy : z = y
    · subst hzy
      simp [Stands, NameMap.find?_singleton]
    · simp only [Stands, Ref.resolve_cons_ne hzy, NameMap.find?_singleton, hzy, if_false]
      cases hr : Ref.resolve context z with
      | bound i => exact ⟨z, rfl, by rw [Ref.resolve_cons_ne hzx, hr]; rfl⟩
      | free w =>
        have hc := (Ref.resolve_free hr).2
        refine ⟨rfl, fun v hv => ?_⟩
        simp [NameMap.find?_empty, free] at hv
        subst hv
        simp [hzx, hc]
  have h := substitute_eq_replaced e (.ofList [(y, var x)]) ▸ substitute_rename e y x
  rw [nameless_replaced h hstands]
  exact (Nameless.replace_names (fun _ => none) _).trans (Nameless.map_id _)

/-- A name that a binder of one of the names `bs` may get: grown from the name it has, and none that
a name left alone by the binders stands for. -/
structure NewName (σ : Substitution) (bs : List String) (y : String) : Prop where
  grown : ∃ b ∈ bs, Name.grown ("_" ++ b) y = true
  apart : ∀ x s, x ∉ bs → σ.find? x = some (var s) → y ≠ s

theorem NewName.mono (h : NewName σ bs y) (hsub : ∀ b ∈ bs, b ∈ cs) : NewName σ cs y where
  grown := by
    obtain ⟨b, hb, hgrown⟩ := h.grown
    exact ⟨b, hsub b hb, hgrown⟩
  apart := fun x s hx => h.apart x s fun hxb => hx (hsub x hxb)

/-- The name that a binder itself gets. -/
theorem newName_fresh (σ : Substitution) (free : List String) :
    NewName σ (x :: bs) (Name.fresh (free ++ freeAll σ.values) x) where
  grown := ⟨x, List.mem_cons_self .., Name.fresh_grown _ _⟩
  apart := by
    intro z s _ hs hy
    refine Name.fresh_not_mem (free ++ freeAll σ.values) x (List.mem_append_right _ ?_)
    rw [hy]
    exact mem_freeAll.mpr ⟨var s, NameMap.mem_values hs, by simp [Expr.free]⟩

/-- Inside a binder only its own name stands for something else. -/
theorem NewName.outside (h : NewName (σ.insert x e) bs y) : NewName σ (x :: bs) y where
  grown := by
    obtain ⟨b, hb, hgrown⟩ := h.grown
    exact ⟨b, List.mem_cons_of_mem _ hb, hgrown⟩
  apart := by
    intro z s hz hs
    obtain ⟨hne, hz⟩ := not_or.mp (mt List.mem_cons.mpr hz)
    exact h.apart z s hz (by rwa [NameMap.find?_insert_ne _ _ hne])

/-- Where names stand for names, the binders of the result are those of the expression with new
names. -/
theorem binders_replaced (h : replaced ∅ e σ = .ok d)
    (hnames : ∀ z r, σ.find? z = some r → ∃ g, r = var g) :
    ∀ y ∈ d.binders, NewName σ e.binders y := by
  induction e using Expr.induction generalizing σ d with
  | var x =>
    cases h
    cases hr : σ.find? x with
    | none => simp [binders]
    | some r =>
      obtain ⟨g, rfl⟩ := hnames x r hr
      simp [binders]
  | call f args ih =>
    obtain ⟨g, _, ds, hds, rfl⟩ := (replaced_call (NameMap.find?_empty f)).mp h
    intro y hy
    obtain ⟨d, hd, hy⟩ := mem_bindersAll.mp hy
    obtain ⟨a, ha, had⟩ := replacedAll_mem hds d hd
    exact (ih a ha had hnames y hy).mono fun b hb => mem_bindersAll.mpr ⟨a, ha, hb⟩
  | binary op l r ihl ihr =>
    obtain ⟨l', hl, r', hr, rfl⟩ := replaced_binary.mp h
    intro y hy
    rcases List.mem_append.mp hy with hy | hy
    · exact (ihl hl hnames y hy).mono fun _ => List.mem_append_left _
    · exact (ihr hr hnames y hy).mono fun _ => List.mem_append_right _
  | not e ih =>
    obtain ⟨e', he, rfl⟩ := replaced_not.mp h
    intro y hy
    exact ih he hnames y hy
  | bind b z body ih =>
    obtain ⟨body', hbody, rfl⟩ := replaced_bind.mp h
    refine List.forall_mem_cons.mpr ⟨newName_fresh σ body.free, fun y hy => ?_⟩
    exact (ih hbody (NameMap.forall_find?_insert hnames ⟨_, rfl⟩) y hy).outside
  | group g items ih =>
    obtain ⟨ds, hds, rfl⟩ := replaced_group.mp h
    intro y hy
    obtain ⟨d, hd, hy⟩ := mem_bindersAll.mp hy
    obtain ⟨a, ha, had⟩ := replacedAll_mem hds d hd
    exact (ih a ha had hnames y hy).mono fun b hb => mem_bindersAll.mpr ⟨a, ha, hb⟩

theorem binders_rename (e : Expr) (x y : String) : ∀ z ∈ (e.rename x y).binders,
    (∃ b ∈ e.binders, Name.grown ("_" ++ b) z = true) ∧ (x ∉ e.binders → z ≠ y) := by
  have h := substitute_eq_replaced e (.ofList [(x, var y)]) ▸ substitute_rename e x y
  have hnames : ∀ z r, (NameMap.ofList [(x, var y)]).find? z = some r → ∃ g, r = var g := by
    intro z r hr
    rw [NameMap.find?_singleton] at hr
    split at hr
    · exact ⟨y, (Option.some.inj hr).symm⟩
    · cases hr
  intro z hz
  obtain ⟨hgrown, hne⟩ := binders_replaced h hnames z hz
  exact ⟨hgrown, fun hx => hne x y hx (by simp [NameMap.find?_singleton])⟩

/-- Substitution fails, and then with the name and its replacement, exactly when a free function
would be replaced by an object. Otherwise it gives the simultaneous substitution of nameless forms,
in which nothing can be captured. Renaming is never the failing case. -/
theorem substitute_correct (e : Expr) (σ : Substitution) :
    ((∃ f r, e.substitute σ = .error (.notAFunction f r)) ↔ e.Misapplied σ) ∧
    (¬e.Misapplied σ →
      ∃ d, e.substitute σ = .ok d ∧ d.nameless [] = (e.nameless []).replace σ.forms) ∧
    ∀ x y, e.substitute (.ofList [(x, var y)]) = .ok (e.rename x y) := by
  have herror (cause) (h : e.substitute σ = .error cause) :
      e.Misapplied σ ∧ ∃ f r, cause = .notAFunction f r := by
    rw [substitute_eq_replaced] at h
    obtain ⟨f, hf, r, hr, hn, hc⟩ := replaced_eq_error h
    exact ⟨⟨f, hf, r, hr, hn⟩, f, r, hc⟩
  refine ⟨⟨fun ⟨f, r, h⟩ => (herror _ h).1, fun hm => ?_⟩, fun hm => ?_, substitute_rename e⟩
  · cases h : e.substitute σ with
    | error cause =>
      obtain ⟨-, f, r, rfl⟩ := herror _ h
      exact ⟨f, r, rfl⟩
    | ok d => exact absurd hm (not_misapplied_of_ok (substitute_eq_replaced e σ ▸ h))
  · cases h : e.substitute σ with
    | error cause => exact absurd (herror _ h).1 hm
    | ok d => exact ⟨d, rfl, nameless_substitute h⟩

end Expr

end ProofScript
