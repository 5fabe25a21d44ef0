import ProofScript.Proofs.Expansion

/-!
# Names that survive instantiation

An instance of a sentence keeps the operators of the sentence, and what it says about objects and functions it
takes from definitions and from the arguments. Placeholders do not survive as objects: a call that leaves one
unfilled is rejected. They survive as functions and operators, where they are not looked for.
-/

namespace ProofScript

-- ---------------------------------------------------------------- parameters

/-- A name that an expression mentions is free in it or an operator of it. -/
theorem Expr.free_or_operator_of_mentions {e : Expr} (h : e.Mentions x) : x ∈ e.free ∨ x ∈ e.operators := by
  obtain ⟨around, d, hpart, hused, hx⟩ := h
  induction hpart with
  | @self e =>
    cases e with
    | var y => exact .inl (by cases hused; simp [free])
    | call f args => exact .inl (by cases hused; simp [free])
    | binary op l r =>
      cases op <;> cases hused
      exact .inr (by simp [operators, Operator.name?])
    | not | bind | group => cases hused
  | argument ha _ ih =>
    refine (ih hused hx).imp (fun h => ?_) fun h => mem_operatorsAll.mpr ⟨_, ha, h⟩
    exact List.mem_cons_of_mem _ (mem_freeAll.mpr ⟨_, ha, h⟩)
  | item ha _ ih =>
    exact (ih hused hx).imp (fun h => mem_freeAll.mpr ⟨_, ha, h⟩) fun h => mem_operatorsAll.mpr ⟨_, ha, h⟩
  | left _ ih => exact (ih hused hx).imp (by simp +contextual [free]) (by simp +contextual [operators])
  | right _ ih => exact (ih hused hx).imp (by simp +contextual [free]) (by simp +contextual [operators])
  | inner _ ih => exact ih hused hx
  | body _ ih =>
    obtain ⟨hne, hx⟩ := not_or.mp (mt List.mem_cons.mpr hx)
    exact (ih hused hx).imp_left fun h => mem_free_bind.mpr ⟨h, hne⟩

namespace Theorem

/-- The free name of a sentence is not replaced. Templates replace functions only. -/
def Keeps (t : Theorem) (args : List Expr) (e : Expr) (x : String) : Prop :=
  t.plain? args x = none ∧ (x ∈ e.objects ∨ x ∈ e.functions ∧ t.template? args x = none)

/-- Where the names of an instance come from: from the arguments and from the sentence. -/
def origins (t : Theorem) (args : List Expr) (e : Expr) : Roles where
  object x := (∃ a ∈ args, x ∈ a.free) ∨ t.Keeps args e x
  function f := (∃ a ∈ args, f ∈ a.free) ∨ t.Keeps args e f
  operator o := o ∈ e.operators ∨ ∃ a ∈ args, o ∈ a.operators
  binder _ := True

theorem follows_origins (hdistinct : t.parameters.Nodup) (hlength : t.parameters.length = args.length)
    (hd : (instantiation t args).apply e = .ok d) : d.Follows (t.origins args e) [] := by
  obtain ⟨hplain, htemplates⟩ := find?_instantiation hdistinct hlength
  have hargs : ∀ a ∈ args, a.Follows (t.origins args e) [] := fun a ha => {
    objects := fun x hx => .inr (.inl ⟨a, ha, Expr.mem_free_iff.mpr (.inl hx)⟩)
    functions := fun f hf => .inr (.inl ⟨a, ha, Expr.mem_free_iff.mpr (.inr hf)⟩)
    operators := fun o ho => .inr ⟨a, ha, ho⟩
    binders := fun _ _ => trivial }
  refine follows_apply (fun _ => id) (fun a ha _ => hargs a ha) (fun a ha => ?_) ?_ hd
  · exact (hargs a ha).mono (fun x _ => Or.imp_right fun hx _ => hx) (fun _ _ => id) (fun _ => id)
      fun _ _ _ => trivial
  · refine ⟨fun x hx => .inr fun hnone => ?_, fun f hf => .inr fun hnone hnot => ?_,
      fun o ho => .inl ho, fun _ _ _ => trivial⟩
    · exact .inr ⟨hplain ▸ hnone, .inl hx⟩
    · exact .inr ⟨hplain ▸ hnone, .inr ⟨hf, htemplates ▸ hnot⟩⟩

/-- A parameter is kept only if it stands for a template and is used as an object. -/
theorem Keeps.of_parameter (h : Keeps t args e p) (hlength : t.parameters.length = args.length)
    (hp : p ∈ t.parameters) : p ∈ e.objects ∧ (t.template? args p).isSome := by
  obtain ⟨a, ha⟩ : ∃ a, t.argument? args p = some a := by
    refine Option.ne_none_iff_exists'.mp fun h => NameMap.find?_ofList_eq_none.mp h ?_
    rwa [List.map_fst_zip hlength.le]
  obtain ⟨hnone, hrole⟩ := h
  have htemplate : (t.template? args p).isSome := by
    unfold plain? at hnone
    unfold template?
    simpa [ha, Option.filter_some] using hnone
  refine ⟨hrole.resolve_right fun ⟨_, hnot⟩ => ?_, htemplate⟩
  rw [hnot] at htemplate
  cases htemplate

end Theorem

namespace Script

/-- The free names and the operators of an instance are numerals, definitions and names of the arguments, except
for what the sentence uses as an operator, which is neither replaced nor renamed. A parameter is free only if it
is free in an argument, unless it stands for a template and the sentence uses it as an object. -/
theorem instance_names {script : Script} (hresolve : script.resolve settings = .ok ())
    (h : script.Instantiates t args) (hs : s ∈ t.hypothesis :: t.requirements)
    (hd : (t.instantiation args).apply s.expr = .ok d) :
    (∀ x ∈ d.free, ((Name.isNumeral x = true ∨ script.Defines x) ∧ x ∉ t.parameters) ∨
      (∃ a ∈ args, x ∈ a.free) ∨ (x ∈ t.parameters ∧ x ∈ s.expr.objects ∧ (t.template? args x).isSome)) ∧
    ∀ o ∈ d.operators, (Name.isNumeral o = true ∨ script.Defines o) ∨ (∃ a ∈ args, o ∈ a.operators) ∨
      (o ∈ s.expr.operators ∧ (o ∈ t.parameters ∨ o ∈ s.expr.binders)) := by
  have hlength := h.length hresolve
  have hstates := h.states hresolve hs
  have horigins := Theorem.follows_origins (h.distinct hresolve) hlength hd
  refine ⟨fun x hx => ?_, fun o ho => ?_⟩
  · have hfrom : (∃ a ∈ args, x ∈ a.free) ∨ t.Keeps args s.expr x := by
      rcases Expr.mem_free_iff.mp hx with hx | hx
      · exact (horigins.objects x hx).resolve_left List.not_mem_nil
      · exact (horigins.functions x hx).resolve_left List.not_mem_nil
    rcases hfrom with harg | hkept
    · exact .inr (.inl harg)
    by_cases hp : x ∈ t.parameters
    · exact .inr (.inr ⟨hp, hkept.of_parameter hlength hp⟩)
    · have hfree : x ∈ s.expr.free := Expr.mem_free_iff.mpr (hkept.2.imp_right And.left)
      exact .inl ⟨(hstates.free x hfree).imp_right fun hx => hx.2.resolve_right hp, hp⟩
  · rcases horigins.operators o ho with ho | harg
    · rcases hstates.operators o ho with hnumeral | ⟨_, hdefined | hother⟩
      · exact .inl (.inl hnumeral)
      · exact .inl (.inr hdefined)
      · exact .inr (.inr ⟨ho, hother⟩)
    · exact .inr (.inl harg)

/-- One parameter is an operator of the requirement. Another one stands for a template, and the requirement
compares it. A name that is bound is an operator, too. -/
def keptSource : String := "theorem T(f,P,a):
∀h(a f P = P(a h a))
⇒ a = a
\x7b
\x7d
theorem U(g,b):
⇒ b = b
\x7b
b = b | T(g,_0,b)
\x7d
"

/-- None of the three is replaced in the instance. -/
theorem keptSource_instance : ∃ script t s, Script.parse keptSource = .ok script ∧
    script.resolve {} = .ok () ∧ (∀ c, .ofDefinition c ∉ script) ∧
    script.Instantiates t [.var "g", .var "_0", .var "b"] ∧ t.parameters = ["f", "P", "a"] ∧
    s ∈ t.requirements ∧ (t.instantiation [.var "g", .var "_0", .var "b"]).apply s.expr =
      .ok (.bind .all "_h" (.binary .equals (.binary (.named "f") (.var "b") (.var "P"))
        (.binary (.named "h") (.var "b") (.var "b")))) := by
  have hdecided : ∃ script, Script.parse keptSource = .ok script ∧ script.resolve {} = .ok () ∧
      (script.all fun d => d.casesOn (fun _ => true) fun _ => false) = true ∧
      (∃ d ∈ script, .instantiation "T" [.var "g", .var "_0", .var "b"] ∈ Step.reasonsAll d.proof) ∧
      ∃ t ∈ script.library.theorems.find? "T", t.parameters = ["f", "P", "a"] ∧
        ∃ s ∈ t.requirements, (t.instantiation [.var "g", .var "_0", .var "b"]).apply s.expr =
          .ok (.bind .all "_h" (.binary .equals (.binary (.named "f") (.var "b") (.var "P"))
            (.binary (.named "h") (.var "b") (.var "b")))) := by
    decide +kernel
  obtain ⟨script, hread, hresolve, htheorems, hreference, t, ht, hparameters, s, hs, hd⟩ := hdecided
  refine ⟨script, t, s, hread, hresolve, fun c hc => ?_, instantiates_of_reason ht hreference,
    hparameters, hs, hd⟩
  exact Bool.noConfusion (List.all_eq_true.mp htheorems _ hc)

theorem instance_names_kept : ∃ script t s d, Script.parse keptSource = .ok script ∧
    script.resolve {} = .ok () ∧ script.Instantiates t [.var "g", .var "_0", .var "b"] ∧ s ∈ t.requirements ∧
    (t.instantiation [.var "g", .var "_0", .var "b"]).apply s.expr = .ok d ∧
    d.free = ["b", "P", "b", "b"] ∧ "P" ∈ s.expr.objects ∧
    (t.template? [.var "g", .var "_0", .var "b"] "P").isSome ∧
    d.operators = ["f", "h"] ∧ "f" ∈ s.expr.operators ∧ "h" ∈ s.expr.operators ∧ "h" ∈ s.expr.binders := by
  obtain ⟨script, t, s, hread, hresolve, hnone, h, hparameters, hs, hd⟩ := keptSource_instance
  obtain ⟨hfree, hoperators⟩ := instance_names hresolve h (List.mem_cons_of_mem _ hs) hd
  have hobject : "P" ∈ s.expr.objects ∧ (t.template? [.var "g", .var "_0", .var "b"] "P").isSome := by
    rcases hfree "P" (by decide) with ⟨_, hp⟩ | harg | ⟨_, hkept⟩
    · simp [hparameters] at hp
    · exact absurd harg (by decide)
    · exact hkept
  have hargs : ∀ o ∈ ["f", "h"], ¬Name.isNumeral o = true ∧
      ¬∃ a ∈ [Expr.var "g", .var "_0", .var "b"], o ∈ a.operators := by
    decide
  have hkept : ∀ o ∈ ["f", "h"], o ∈ s.expr.operators ∧ (o ∈ t.parameters ∨ o ∈ s.expr.binders) := by
    intro o ho
    rcases hoperators o ho with (hnumeral | ⟨c, hc, _⟩) | harg | hkept
    · exact absurd hnumeral (hargs o ho).1
    · exact absurd hc (hnone c)
    · exact absurd harg (hargs o ho).2
    · exact hkept
  obtain ⟨hh, hbound⟩ := hkept "h" (by decide)
  refine ⟨script, t, s, _, hread, hresolve, h, hs, hd, by decide, hobject.1, hobject.2, by decide,
    (hkept "f" (by decide)).1, hh, hbound.resolve_left ?_⟩
  simp [hparameters]

/-- The arguments do not mention the names, and the instance does. Two of them are parameters. -/
theorem parameters_kept : ∃ script t args s d, Script.parse keptSource = .ok script ∧
    script.resolve {} = .ok () ∧ script.Instantiates t args ∧ s ∈ t.requirements ∧
    (t.instantiation args).apply s.expr = .ok d ∧ "f" ∈ t.parameters ∧ "P" ∈ t.parameters ∧
    ∀ x ∈ ["f", "P", "h"], d.Mentions x ∧
      ¬(Name.isNumeral x = true ∨ script.Defines x ∨ ∃ a ∈ args, a.Mentions x) := by
  obtain ⟨script, t, s, hread, hresolve, hnone, h, hparameters, hs, hd⟩ := keptSource_instance
  have hfree : ∀ x ∈ ["f", "P", "h"], ∀ a ∈ [Expr.var "g", .var "_0", .var "b"],
      ¬(x ∈ a.free ∨ x ∈ a.operators) := by
    decide
  refine ⟨script, t, _, s, _, hread, hresolve, h, hs, hd, by simp [hparameters], by simp [hparameters],
    fun x hx => ⟨?_, ?_⟩⟩
  · simp only [List.mem_cons, List.not_mem_nil, or_false] at hx
    rcases hx with rfl | rfl | rfl
    · exact ⟨["_h"], _, .body (.left .self), rfl, by decide⟩
    · exact ⟨["_h"], _, .body (.left (.right .self)), rfl, by decide⟩
    · exact ⟨["_h"], _, .body (.right .self), rfl, by decide⟩
  · rintro (hnumeral | ⟨c, hc, _⟩ | ⟨a, ha, hmentions⟩)
    · revert x
      decide
    · exact hnone c hc
    · exact hfree x hx a ha (Expr.free_or_operator_of_mentions hmentions)

end Script

-- ---------------------------------------------------------------- placeholders

/-- What is asked of the names of an instance: a placeholder is no object and no binder, and in another role it
comes from an argument. -/
def Roles.filledFrom (args : List Expr) : Roles where
  object x := Name.isPlaceholder x = false
  function f := Name.isPlaceholder f = true → ∃ a ∈ args, f ∈ a.functions
  operator o := Name.isPlaceholder o = true → ∃ a ∈ args, o ∈ a.operators
  binder x := Name.isPlaceholder x = false

/-- Sentences do not use placeholders in any role. -/
theorem Theorem.States.follows_filledFrom {t : Theorem} {script : Script} (h : t.States script e)
    (hbinds : e.BindsNames) : e.Follows ((Roles.filledFrom args).before ts σ) [] := by
  have hfree : ∀ x ∈ e.free, Name.isPlaceholder x = false := fun x hx =>
    Name.isPlaceholder_eq_false ((h.free x hx).imp_right And.left)
  have hoperators : ∀ x ∈ e.operators, Name.isPlaceholder x = false := fun x hx =>
    Name.isPlaceholder_eq_false ((h.operators x hx).imp_right And.left)
  refine ⟨fun x hx => .inr fun _ => ?_, fun f hf => .inr fun _ _ hplaceholder => ?_,
    fun o ho hplaceholder => ?_, fun x hx taken => (Name.fresh_apart taken (hbinds x hx)).1⟩
  · exact hfree x (Expr.mem_free_iff.mpr (.inl hx))
  · exact Bool.noConfusion ((hfree f (Expr.mem_free_iff.mpr (.inr hf))).symm.trans hplaceholder)
  · exact Bool.noConfusion ((hoperators o ho).symm.trans hplaceholder)

theorem Script.Instantiates.follows_filledFrom {script : Script} (h : script.Instantiates t args)
    (hresolve : script.resolve settings = .ok ()) (hread : Script.parse source = .ok script)
    (hs : s ∈ t.hypothesis :: t.requirements) (hd : (t.instantiation args).apply s.expr = .ok d) :
    d.Follows (Roles.filledFrom args) [] := by
  refine Theorem.follows_apply ?_ (fun a ha hplain => ?_) (fun a ha => ?_)
    ((h.states hresolve hs).follows_filledFrom ((h.bindsNames hread).1 s hs)) hd
  · exact fun x hx hplaceholder => Bool.noConfusion (hx.symm.trans hplaceholder)
  · have hclean := (h.passable hresolve a ha).follows_clean hplain
    exact ⟨hclean.objects, fun f hf => .inr fun _ => ⟨a, ha, hf⟩, fun o ho _ => ⟨a, ha, ho⟩, hclean.binders⟩
  · have hclean := ((h.bindsNames hread).2 a ha).follows_clean
    exact ⟨hclean.objects, fun f hf => .inr fun _ => ⟨a, ha, hf⟩, fun o ho _ => ⟨a, ha, ho⟩, hclean.binders⟩

/-- A call of a template that does not fill one of its placeholders. -/
def Theorem.Unfilled (t : Theorem) (args : List Expr) (_ : List String) (f : String) (given : List Expr) :
    Prop :=
  ∃ a x, t.template? args f = some a ∧ x ∈ a.objects ∧ Name.isPlaceholder x = true ∧
    x ∉ placeholders given.length

/-- A citation is rejected because a sentence has no instance, or because the instance of a requirement is not
answered by yes. -/
def Theorem.Refuses (t : Theorem) (args : List Expr) (depth line : Nat) (Γ : List Expr) (cause : Rejection) :
    Prop :=
  (∃ fault, cause = .arity line (.misfit fault)) ∨
    ∃ s ∈ t.requirements, ∃ r, (t.instantiation args).apply s.expr = .ok r ∧ ¬Answered depth Γ r ∧
      (cause = .precondition t.name s.line line r ∨ ∃ fault, cause = .internal fault)

section
variable {v : Verification} (hflag : v.knowledge.refuting = false) (ht : v.theorems.find? x = some t)
  (hcount : t.parameters.length = args.length) (hs : s ∈ t.hypothesis :: t.requirements)
  (hfault : (t.instantiation args).apply s.expr = .error fault)
include hflag ht hcount hs hfault

/-- A theorem is not cited if one of its sentences has no instance. The requirements are instantiated and judged
one after the other, so another one may be the first that is not met. -/
theorem Verify.citeTheorem_of_misfit : ∃ cause w, (citeTheorem depth line x args).run v = (.error cause, w) ∧
    t.Refuses args depth line v.knowledge.facts.items cause := by
  rcases hrun : (citeTheorem depth line x args).run v with ⟨cause | _, w⟩
  · refine ⟨cause, w, rfl, ?_⟩
    rcases citeTheorem_run_error_of_found hflag ht hcount hrun with ⟨s, hs, h⟩ | ⟨fault, _, rfl⟩
    · rcases requirement_run_error hflag h with
        ⟨fault, _, rfl⟩ | ⟨r, hr, ⟨truth, htruth, hfails, rfl⟩ | ⟨fault, hfault, rfl⟩⟩
      · exact .inl ⟨fault, rfl⟩
      · exact .inr ⟨s, hs, r, hr, fun h => hfails (Except.ok.inj (htruth.symm.trans h)), .inl rfl⟩
      · exact .inr ⟨s, hs, r, hr, fun h => (by cases hfault.symm.trans h), .inr ⟨fault, rfl⟩⟩
    · exact .inl ⟨fault, rfl⟩
  · obtain ⟨t', d, ht', hrequirements, hd, _⟩ := citeTheorem_run_ok hflag hrun
    cases ht.symm.trans ht'
    rcases List.mem_cons.mp hs with rfl | hs
    · cases hd.symm.trans hfault
    · obtain ⟨r, hr, _⟩ := hrequirements s hs
      cases hr.symm.trans hfault

theorem Verify.claim_of_misfit (e : Expr) :
    ∃ cause w, (claim depth line e (some (.instantiation x args))).run v = (.error cause, w) ∧
      t.Refuses args depth line v.knowledge.facts.items cause := by
  have hitems : (v.withFacts (v.knowledge.facts.enter "Statement")).knowledge.facts.items =
      v.knowledge.facts.items := Scopes.items_enter ..
  obtain ⟨cause, w, hcite, hrefuses⟩ := citeTheorem_of_misfit
    (v := v.withFacts (v.knowledge.facts.enter "Statement")) hflag ht hcount hs hfault
  exact ⟨cause, w, claim_of_cite nofun hcite, hitems ▸ hrefuses⟩

end

namespace Script

/-- Verification comes to a claim on the line with this justification, among the facts listed. -/
inductive ComesTo (depth : Nat) (script : Script) (line : Nat) : List Expr → Justification → Prop
  | intro {before after : Script} : script = before ++ d :: after →
    Verify.Executes depth before d route a u → a.Claims line e (some j) →
    ComesTo depth script line (d.assumptions ++ Step.known d.proof route) j

/-- A script is rejected where it comes to a reference that has no instance. -/
theorem verify_of_misfit {script : Script} (hresolve : script.resolve settings = .ok ())
    (h : script.Instantiates t args) (hs : s ∈ t.hypothesis :: t.requirements)
    (hfault : (t.instantiation args).apply s.expr = .error fault)
    (hcomes : script.ComesTo settings.equalityDepth line Γ (.instantiation t.name args)) :
    ∃ cause, script.verify settings = .error cause ∧ t.Refuses args settings.equalityDepth line Γ cause := by
  obtain ⟨hsplit, hexecutes, ha⟩ := hcomes
  obtain ⟨found, ht, hcount⟩ := theorem_found (hsplit ▸ hresolve) hexecutes ha
  obtain ⟨hmem, hname⟩ := (library_of_split hsplit).theorems _ _ ht
  obtain rfl := (Script.wellScoped_of_resolve hresolve).name_inj h.1 hmem hname.symm
  rw [← hexecutes.library] at ht
  obtain ⟨cause, w, hclaim, hrefuses⟩ := Verify.claim_of_misfit hexecutes.refuting ht hcount hs hfault _
  rw [hexecutes.items] at hrefuses
  refine ⟨cause, ?_, hrefuses⟩
  rw [hsplit]
  exact verify_of_executes hexecutes ha hclaim

/-- No placeholder is left among the objects of an instance, and one that is left as a function or as an
operator has that role in an argument. A reference with a call that leaves a placeholder of its template
unfilled is rejected, and the cause is in the arguments unless a requirement is not met before. -/
theorem placeholders_filled {script : Script} (hread : Script.parse source = .ok script)
    (hresolve : script.resolve settings = .ok ()) (h : script.Instantiates t args) :
    (∀ s ∈ t.hypothesis :: t.requirements, ∀ d, (t.instantiation args).apply s.expr = .ok d →
      d.hasPlaceholder = false ∧ ∀ x, Name.isPlaceholder x = true → x ∉ d.binders ∧
        (x ∈ d.functions → ∃ a ∈ args, x ∈ a.functions) ∧
        (x ∈ d.operators → ∃ a ∈ args, x ∈ a.operators)) ∧
    ∀ line Γ, script.ComesTo settings.equalityDepth line Γ (.instantiation t.name args) →
      (∃ s ∈ t.hypothesis :: t.requirements, s.expr.HasCall (t.Unfilled args)) →
      ∃ cause, script.verify settings = .error cause ∧
        t.Refuses args settings.equalityDepth line Γ cause := by
  constructor
  · intro s hs d hd
    have hfilled := h.follows_filledFrom hresolve hread hs hd
    have hclean : d.Follows Expr.clean [] :=
      ⟨hfilled.objects, fun _ _ => .inr trivial, fun _ _ => trivial, hfilled.binders⟩
    refine ⟨hclean.hasPlaceholder, fun x hplaceholder => ⟨fun hx => ?_, fun hx => ?_, fun hx => ?_⟩⟩
    · exact Bool.noConfusion ((hfilled.binders x hx).symm.trans hplaceholder)
    · exact (hfilled.functions x hx).resolve_left List.not_mem_nil hplaceholder
    · exact hfilled.operators x hx hplaceholder
  · rintro line Γ hcomes ⟨s, hs, hcall⟩
    obtain ⟨fault, hfault⟩ := (h.fails_iff_stuck hresolve hread hs).mpr
      (hcall.imp fun _ _ _ ⟨_, _, ha, hx, hplaceholder, hbeyond⟩ => .unfilled ha hx hplaceholder hbeyond)
    exact verify_of_misfit hresolve h hs hfault hcomes

/-- The requirement gives the template an argument, the hypothesis gives it none. A placeholder of the template
stands as a function. -/
def lackingSource : String := "theorem T(P,a):
P(a) = P(a)
⇒ P() = P()
\x7b
\x7d
theorem U(b):
⇒ b = b
\x7b
b = b | T([_0,_1(b)],b)
\x7d
"

theorem placeholders_filled_lacking : ∃ script t args, Script.parse lackingSource = .ok script ∧
    script.resolve {} = .ok () ∧ script.Instantiates t args ∧
    (∃ s ∈ t.requirements, ∃ d, (t.instantiation args).apply s.expr = .ok d ∧ d.hasPlaceholder = false ∧
      "_1" ∈ d.functions ∧ ∃ a ∈ args, "_1" ∈ a.functions) ∧
    ∃ Γ, script.ComesTo 2 9 Γ (.instantiation t.name args) ∧ t.hypothesis.expr.HasCall (t.Unfilled args) ∧
      ∃ cause, script.verify {} = .error cause ∧ t.Refuses args 2 9 Γ cause := by
  have hdecided : ∃ script, Script.parse lackingSource = .ok script ∧ script.resolve {} = .ok () ∧
      ∃ template ∈ [Expr.group .tuple [.var "_0", .call "_1" [.var "b"]]], "_0" ∈ template.objects ∧
      ∃ args ∈ [[template, .var "b"]],
      (∀ d ∈ script, ∀ j ∈ Step.reasonsAll d.proof, j = .instantiation "T" args) ∧
      script.verify {} = .error (.arity 9 (.misfit (.unfilled template template))) ∧
      ∃ t ∈ script.library.theorems.find? "T", t.template? args "P" = some template ∧
        t.hypothesis.expr = .binary .equals (.call "P" []) (.call "P" []) ∧
        ∃ s ∈ t.requirements, (t.instantiation args).apply s.expr =
          .ok (.binary .equals (.group .tuple [.var "b", .call "_1" [.var "b"]])
            (.group .tuple [.var "b", .call "_1" [.var "b"]])) := by
    decide +kernel
  obtain ⟨script, hread, hresolve, template, _, hvariable, args, _, hreasons, hverify, t, ht, htemplate,
    hhypothesis, s, hs, hd⟩ := hdecided
  have hname := ((library_declaredIn script (List.Subset.refl _)).theorems "T" t ht).2
  have hunfilled : t.hypothesis.expr.HasCall (t.Unfilled args) := by
    rw [hhypothesis]
    exact ⟨[], "P", [], .left .self, template, "_0", htemplate, hvariable, by decide, by decide⟩
  -- verification has come to what it rejects
  cases rejects_of_verify hverify with
  | hypothesis _ hrejects => cases hrejects
  | @step d _ _ _ _ _ _ _ _ _ hsplit hexecutes ha hrejects =>
    cases hrejects with
    | misfit =>
      obtain ⟨_, _, hreaches⟩ := id hexecutes
      have hreason := hreaches.standsIn.reason_mem ha
      rw [hreasons d (mem_of_split hsplit) _ hreason] at ha hreason
      have h := instantiates_of_reason ht ⟨d, mem_of_split hsplit, hreason⟩
      rw [← hname] at ha
      obtain ⟨hinstances, hrejected⟩ := placeholders_filled hread hresolve h
      obtain ⟨hnone, hleft⟩ := hinstances s (List.mem_cons_of_mem _ hs) _ hd
      refine ⟨script, t, args, hread, hresolve, h, ⟨s, hs, _, hd, hnone, by decide, ?_⟩, _,
        .intro hsplit hexecutes ha, hunfilled, ?_⟩
      · exact (hleft "_1" (by decide)).2.1 (by decide)
      · exact hrejected 9 _ (.intro hsplit hexecutes ha) ⟨_, List.mem_cons_self .., hunfilled⟩

/-- A placeholder is a function of one argument, and one is an operator of another. -/
def leftSource : String := "theorem T(P,a):
⇒ P(a) = P(a)
\x7b
\x7d
theorem U(b):
⇒ b = b
\x7b
b = b | T([_0,_1(b)],b)
b = b | T([_0,b _2 b],b)
\x7d
"

/-- Both placeholders are left in what is added to the facts, and the script is accepted. -/
theorem placeholders_left : ∃ script, Script.parse leftSource = .ok script ∧ script.resolve {} = .ok () ∧
    (∃ report, script.verify {} = .ok report) ∧ ∃ t first second d e,
    script.Instantiates t first ∧ (t.instantiation first).apply t.hypothesis.expr = .ok d ∧
    script.Instantiates t second ∧ (t.instantiation second).apply t.hypothesis.expr = .ok e ∧
    (Name.isPlaceholder "_1" = true ∧ "_1" ∈ d.functions) ∧
    (Name.isPlaceholder "_2" = true ∧ "_2" ∈ e.operators) := by
  have hdecided : ∃ script, Script.parse leftSource = .ok script ∧ script.resolve {} = .ok () ∧
      (script.verify {}).isOk = true ∧
      ∃ first ∈ [[Expr.group .tuple [.var "_0", .call "_1" [.var "b"]], .var "b"]],
      ∃ second ∈ [[Expr.group .tuple [.var "_0", .binary (.named "_2") (.var "b") (.var "b")], .var "b"]],
      (∃ d ∈ script, .instantiation "T" first ∈ Step.reasonsAll d.proof) ∧
      (∃ d ∈ script, .instantiation "T" second ∈ Step.reasonsAll d.proof) ∧
      ∃ t ∈ script.library.theorems.find? "T",
        (t.instantiation first).apply t.hypothesis.expr = .ok (.binary .equals
          (.group .tuple [.var "b", .call "_1" [.var "b"]])
          (.group .tuple [.var "b", .call "_1" [.var "b"]])) ∧
        (t.instantiation second).apply t.hypothesis.expr = .ok (.binary .equals
          (.group .tuple [.var "b", .binary (.named "_2") (.var "b") (.var "b")])
          (.group .tuple [.var "b", .binary (.named "_2") (.var "b") (.var "b")])) := by
    decide +kernel
  obtain ⟨script, hread, hresolve, hverify, first, _, second, _, hfirst, hsecond, t, ht, hd, he⟩ := hdecided
  refine ⟨script, hread, hresolve, ?_, t, first, second, _, _, instantiates_of_reason ht hfirst, hd,
    instantiates_of_reason ht hsecond, he, by decide, by decide⟩
  cases hreport : script.verify {} with
  | ok report => exact ⟨report, rfl⟩
  | error cause =>
    rw [hreport] at hverify
    cases hverify

end Script

end ProofScript
