import ProofScript.Proofs.Executions
import ProofScript.Proofs.NamesInScope

/-!
# Names that outlive their scope

Name resolution closes the scopes of all three blocks of a case distinction. Verification keeps what
the common block has concluded, and reads the common block with what the branch before it has
concluded. Main statement: where a step of a resolved script is executed, the facts speak about names
that are in scope there and, apart from these, only about objects that were chosen in such blocks.
-/

namespace ProofScript

-- ---------------------------------------------------------------- objects whose scope is closed

namespace Step

mutual
/-- The objects that are out of scope after a step although its conclusions may speak about them. -/
def escaping : Step → List String
  | cases _ _ _ _ both => introduced both ++ escapingAll both
  | claim .. | choose .. | check _ | admitted _ => []
def escapingAll : List Step → List String
  | [] => []
  | s :: rest => s.escaping ++ escapingAll rest
end

/-- The objects that are out of scope at the end of a route although the facts may speak about
them. -/
def escapedBefore : List Step → List Turn → List String
  | s :: rest, .past :: route => s.escaping ++ escapedBefore rest route
  | .cases _ _ yes _ _ :: _, .yes :: route => escapedBefore yes route
  | .cases _ _ yes _ both :: _, .afterYes :: route =>
    introduced yes ++ escapingAll yes ++ escapedBefore both route
  | .cases _ _ _ no _ :: _, .no :: route => escapedBefore no route
  | .cases _ _ _ no both :: _, .afterNo :: route =>
    introduced no ++ escapingAll no ++ escapedBefore both route
  | _, _ => []

end Step

-- ---------------------------------------------------------------- name resolution along a route

namespace Resolve

/-- `Reaches slots steps s route a t` says that resolving `steps` from `s` on comes to the step `a`
along the route, and that the symbols are `t` just before `a`. The common block of a case distinction
is resolved once, with neither branch in scope. -/
inductive Reaches (slots : Nat) : List Step → Symbols → List Turn → Step → Symbols → Prop
  | here : Reaches slots (a :: rest) s [] a s
  | past : (step slots b).run s = (.ok (), t) → Reaches slots rest t route a u →
    Reaches slots (b :: rest) s (.past :: route) a u
  | yes : (expr n c).run s = (.ok (), t) → Reaches slots yes (t.entered "If") route a u →
    Reaches slots (.cases n c yes no both :: rest) s (.yes :: route) a u
  | no : (expr n c >>= fun _ => within "If" (block slots yes)).run s = (.ok (), t) →
    Reaches slots no (t.entered "Else") route a u →
    Reaches slots (.cases n c yes no both :: rest) s (.no :: route) a u
  | both : turn = .afterYes ∨ turn = .afterNo →
    (expr n c >>= fun _ => within "If" (block slots yes) >>= fun _ =>
      within "Else" (block slots no)).run s = (.ok (), t) →
    Reaches slots both (t.entered "Both") route a u →
    Reaches slots (.cases n c yes no both :: rest) s (turn :: route) a u

/-- What is resolved before the proof of a declaration. -/
def heading : Declaration → Resolve Unit
  | .ofTheorem t => do
    enter "Theorem"
    t.parameters.forM (declare t.line)
    t.requirements.forM sentence
    sentence t.hypothesis
  | .ofDefinition d => do
    declare d.line d.name
    modify fun s => { s with definitions := d.name :: s.definitions }
    enter "Definition"
    d.rules.forM sentence

/-- `Executes settings before d route a s` says that name resolution, after the declarations `before`,
comes to the step `a` of the proof of `d` along the route, and that the symbols are `s` just before
`a`. -/
def Executes (settings : Settings) (before : Script) (d : Declaration) (route : List Turn) (a : Step)
    (s : Symbols) : Prop :=
  ∃ t u, (before.forM (declaration settings)).run {} = (.ok (), t) ∧ (heading d).run t = (.ok (), u) ∧
    Reaches settings.placeholderSlots d.proof u route a s

end Resolve

-- ---------------------------------------------------------------- what facts speak about

/-- Every name that the facts speak about may be used, or it is among the strays. -/
def Covers (Γ : Set String) (strays : List String) (facts : List Expr) : Prop :=
  ∀ fact ∈ facts, ∀ x, fact.Mentions x → Usable Γ x ∨ x ∈ strays

theorem Usable.mono {Γ Δ : Set String} (h : Usable Γ x) (hsub : Γ ⊆ Δ) : Usable Δ x :=
  h.imp_right fun hx => hsub hx

namespace Covers

variable {Γ Δ : Set String} {strays more : List String} {facts : List Expr}

theorem mono (h : Covers Γ strays facts) (hΓ : Γ ⊆ Δ) (hstrays : strays ⊆ more) : Covers Δ more facts :=
  fun fact hfact x hx => (h fact hfact x hx).imp (·.mono hΓ) (hstrays ·)

theorem append (h : Covers Γ strays facts) (h' : Covers Γ more facts') :
    Covers Γ (strays ++ more) (facts ++ facts') := by
  refine fun fact hfact x hx => ?_
  rcases List.mem_append.mp hfact with hfact | hfact
  · exact (h fact hfact x hx).imp_right (List.mem_append_left _)
  · exact (h' fact hfact x hx).imp_right (List.mem_append_right _)

theorem cons {e : Expr} (he : e.WellScoped Δ) (hsub : Δ ⊆ Γ) (h : Covers Γ strays facts) :
    Covers Γ strays (e :: facts) := by
  refine fun fact hfact x hx => ?_
  rcases List.mem_cons.mp hfact with rfl | hfact
  · exact .inl ((he.usable hx).mono hsub)
  · exact h fact hfact x hx

/-- When their scope is closed, objects are among the strays. -/
theorem closed {V : Visible} (h : Covers (V.withObjects xs).objects strays facts) :
    Covers V.objects (xs ++ strays) facts := by
  intro fact hfact x hx
  rcases h fact hfact x hx with (hx | hx | hx) | hx
  · exact .inl (.inl hx)
  · exact .inl (.inr hx)
  · exact .inr (List.mem_append_left _ hx)
  · exact .inr (List.mem_append_right _ hx)

end Covers

theorem Visible.subset_withObjects (V : Visible) (xs : List String) :
    V.objects ⊆ (V.withObjects xs).objects :=
  fun _ => .inl

namespace Step

variable {slots : Nat} {V : Visible} {steps : List Step}

theorem introduced_cons (s : Step) (rest : List Step) :
    introduced (s :: rest) = s.introduced?.toList ++ introduced rest := by
  cases s <;> rfl

/-- A block is well-scoped if its first step is and the rest is where that step has come first. -/
theorem wellScopedAll_cons : WellScopedAll slots V (s :: rest) ↔
    WellScopedAll slots V [s] ∧ WellScopedAll slots (V.withObjects s.introduced?.toList) rest := by
  cases s with
  | claim n e reason =>
    rw [show (claim n e reason).introduced?.toList = [] from rfl, V.withObjects_nil]
    exact ⟨fun | .claim he hreason hrest => ⟨.claim he hreason .nil, hrest⟩,
      fun | ⟨.claim he hreason _, hrest⟩ => .claim he hreason hrest⟩
  | choose n x e reason =>
    exact ⟨fun | .choose hx he hreason hrest => ⟨.choose hx he hreason .nil, hrest⟩,
      fun | ⟨.choose hx he hreason _, hrest⟩ => .choose hx he hreason hrest⟩
  | cases n c yes no both =>
    rw [show (cases n c yes no both).introduced?.toList = [] from rfl, V.withObjects_nil]
    exact ⟨fun | .cases hc hyes hno hboth hrest => ⟨.cases hc hyes hno hboth .nil, hrest⟩,
      fun | ⟨.cases hc hyes hno hboth _, hrest⟩ => .cases hc hyes hno hboth hrest⟩
  | check n =>
    rw [show (check n).introduced?.toList = [] from rfl, V.withObjects_nil]
    exact ⟨fun | .check hrest => ⟨.check .nil, hrest⟩, fun | ⟨.check _, hrest⟩ => .check hrest⟩
  | admitted n =>
    rw [show (admitted n).introduced?.toList = [] from rfl, V.withObjects_nil]
    exact ⟨fun | .admitted hrest => ⟨.admitted .nil, hrest⟩,
      fun | ⟨.admitted _, hrest⟩ => .admitted hrest⟩

/-- Where a block is well-scoped, its conclusions speak about what is in scope at its end and about
objects that escape from it. -/
theorem WellScopedAll.covers (h : WellScopedAll slots V steps) :
    Covers (V.withObjects (introduced steps)).objects (escapingAll steps) (conclusionsAll steps) := by
  induction h with
  | nil => exact fun _ h => nomatch h
  | claim he _ _ ih => exact ih.cons he (Visible.subset_withObjects ..)
  | choose _ he _ _ ih =>
    rw [Visible.withObjects_append] at ih
    refine ih.cons he ?_
    rw [introduced_cons, ← Visible.withObjects_append]
    exact Visible.subset_withObjects ..
  | cases _ _ _ _ _ _ _ ihboth ih =>
    exact (ihboth.closed.mono (Visible.subset_withObjects ..) (List.Subset.refl _)).append ih
  | check _ ih | admitted _ ih => exact ih

/-- Where a step is well-scoped, so it is for its own conclusions. -/
theorem WellScopedAll.covers_first (h : WellScopedAll slots V [s]) :
    Covers (V.withObjects s.introduced?.toList).objects s.escaping s.conclusions := by
  have h := h.covers
  rw [introduced_cons] at h
  simpa [introduced, escapingAll, conclusionsAll] using h

end Step

-- ---------------------------------------------------------------- both along one route

namespace Resolve

variable {slots : Nat}

theorem step_run_ok : (step slots b).run s = (.ok (), t) ↔
    t = s.extended b.introduced?.toList ∧ Step.WellScopedAll slots s.visible [b] := by
  have hblock := block_resolves slots [b] s t
  rw [Step.introduced_cons, Step.introduced, List.filterMap_nil, List.append_nil] at hblock
  rw [← hblock]
  constructor
  · exact fun h => bind_run_ok.mpr ⟨(), t, h, rfl⟩
  · intro h
    obtain ⟨_, u, h, hpure⟩ := bind_run_ok.mp h
    cases hpure
    exact h

/-- What adds nothing leaves the symbols alone. -/
theorem Resolves.unchanged {m : Resolve Unit} {s : Symbols} (hm : Resolves m [] P) (h : P s.visible) :
    m.run s = (.ok (), s) :=
  (hm s s).mpr ⟨s.extended_nil.symm, h⟩

section
variable {s : Symbols} {c : Expr} (hc : c.WellScoped s.visible.objects)
  (hyes : Step.WellScopedAll slots s.visible yes)
include hc hyes

theorem run_before_no : (expr n c >>= fun _ => within "If" (block slots yes)).run s = (.ok (), s) :=
  ((expr_resolves n c).andThen (block_resolves slots yes).within).unchanged ⟨hc, hyes⟩

theorem run_before_both (hno : Step.WellScopedAll slots s.visible no) :
    (expr n c >>= fun _ => within "If" (block slots yes) >>= fun _ =>
      within "Else" (block slots no)).run s = (.ok (), s) :=
  ((expr_resolves n c).andThen ((block_resolves slots yes).within.andThen
    (block_resolves slots no).within)).unchanged ⟨hc, hyes, hno⟩

end

/-- Where verification comes along a route, name resolution comes along it, too. The facts that are
added on the way speak about what is in scope at its end and about objects that have escaped. -/
theorem reaches_of_verify (h : Verify.Reaches depth steps v route a u)
    (hsteps : Step.WellScopedAll slots s.visible steps) :
    ∃ t, Reaches slots steps s route a t ∧ s.visible.objects ⊆ t.visible.objects ∧
      Covers t.visible.objects (Step.escapedBefore steps route) (Step.known steps route) := by
  induction h generalizing s with
  | here => exact ⟨s, .here, subset_rfl, fun _ h => nomatch h⟩
  | @past b rest _ _ _ _ _ _ _ _ _ ih =>
    obtain ⟨hb, hrest⟩ := Step.wellScopedAll_cons.mp hsteps
    rw [← s.visible_extended] at hrest
    obtain ⟨t, ht, hsub, hcovers⟩ := ih hrest
    rw [s.visible_extended] at hsub
    refine ⟨t, .past (step_run_ok.mpr ⟨rfl, hb⟩) ht, (Visible.subset_withObjects ..).trans hsub, ?_⟩
    exact (hb.covers_first.mono hsub (List.Subset.refl _)).append hcovers
  | yes _ ih =>
    cases hsteps with
    | cases hc hyes _ _ _ =>
      obtain ⟨t, ht, hsub, hcovers⟩ := ih (s := s.entered "If") (by rwa [s.visible_entered])
      rw [s.visible_entered] at hsub
      exact ⟨t, .yes ((expr_resolves _ _).unchanged hc) ht, hsub, hcovers.cons hc hsub⟩
  | no _ _ _ ih =>
    cases hsteps with
    | cases hc hyes hno _ _ =>
      obtain ⟨t, ht, hsub, hcovers⟩ := ih (s := s.entered "Else") (by rwa [s.visible_entered])
      rw [s.visible_entered] at hsub
      exact ⟨t, .no (run_before_no hc hyes) ht, hsub, hcovers.cons (Expr.wellScoped_not.mpr hc) hsub⟩
  | afterYes _ _ _ ih =>
    cases hsteps with
    | cases hc hyes hno hboth _ =>
      obtain ⟨t, ht, hsub, hcovers⟩ := ih (s := s.entered "Both") (by rwa [s.visible_entered])
      rw [s.visible_entered] at hsub
      -- the branch is out of scope now, and what it has concluded is still known
      refine ⟨t, .both (.inl rfl) (run_before_both hc hyes hno) ht, hsub, ?_⟩
      exact ((hyes.covers.closed.mono hsub (List.Subset.refl _)).append hcovers).cons hc hsub
  | afterNo _ _ _ _ _ ih =>
    cases hsteps with
    | cases hc hyes hno hboth _ =>
      obtain ⟨t, ht, hsub, hcovers⟩ := ih (s := s.entered "Both") (by rwa [s.visible_entered])
      rw [s.visible_entered] at hsub
      refine ⟨t, .both (.inr rfl) (run_before_both hc hyes hno) ht, hsub, ?_⟩
      exact ((hno.covers.closed.mono hsub (List.Subset.refl _)).append hcovers).cons
        (Expr.wellScoped_not.mpr hc) hsub

end Resolve

theorem Declaration.WellScoped.heading {d : Declaration} {s : Symbols}
    (h : d.WellScoped slots s.visible) :
    ∃ u, (Resolve.heading d).run s = (.ok (), u) ∧ u.visible = s.visible.inside d := by
  cases d with
  | ofTheorem t =>
    have h : t.WellScoped slots (s.entered "Theorem").visible := s.visible_entered _ ▸ h
    refine ⟨(s.entered "Theorem").extended (t.parameters ++ []),
      ((Resolve.Resolves.parameters t.line t.parameters).bind
        ((Resolve.sentences_resolves t.requirements).andThen
          (Resolve.expr_resolves t.hypothesis.line t.hypothesis.expr)) _ _).mpr
      ⟨rfl, ⟨h.distinct, h.parameters⟩, h.requirements, h.hypothesis⟩, ?_⟩
    rw [List.append_nil, Symbols.visible_extended, Symbols.visible_entered]
    rfl
  | ofDefinition d =>
    have hvisible : ((s.withDefinition d).entered "Definition").visible = s.visible.withDefinition d :=
      (Symbols.visible_entered ..).trans (s.visible_withDefinition d)
    refine ⟨(s.withDefinition d).entered "Definition", ?_, hvisible⟩
    refine Resolve.bind_run_ok.mpr ⟨(), _, (Resolve.Resolves.declare d.line d.name s _).mpr
      ⟨rfl, Definition.WellScoped.fresh h⟩, ?_⟩
    refine (Resolve.sentences_resolves d.rules).unchanged
      (s := (s.withDefinition d).entered "Definition") ?_
    rw [hvisible]
    exact Definition.WellScoped.rules h

/-- Where a step of a resolved script is executed, the facts speak about names that are in scope for
name resolution at that step and, apart from these, only about objects that have escaped from the
blocks of case distinctions. So a name that can be introduced there is new to the facts, too, unless it
is the name of such an object. -/
theorem Script.facts_within_scope {before after : Script}
    (h : Script.resolve (before ++ d :: after) settings = .ok ())
    (hexecutes : Verify.Executes settings.equalityDepth before d route a v) :
    ∃ s, Resolve.Executes settings before d route a s ∧
      (∀ fact ∈ v.knowledge.facts.items, ∀ x, fact.Mentions x →
        Usable s.visible.objects x ∨ x ∈ Step.escapedBefore d.proof route) ∧
      ∀ y, Fresh s.visible.objects y → Name.isNumeral y = false →
        y ∉ Step.escapedBefore d.proof route → ∀ fact ∈ v.knowledge.facts.items, ¬fact.Mentions y := by
  obtain ⟨hbefore, hd, _⟩ := Script.wellScoped_append.mp (Script.wellScoped_of_resolve h)
  rw [← Symbols.visible_nothing] at hbefore hd
  rw [← Symbols.visible_foldl_after] at hd
  obtain ⟨u, hu, hvisible⟩ := hd.heading
  have hitems := hexecutes.items
  obtain ⟨_, _, hreaches⟩ := hexecutes
  obtain ⟨s, hs, hsub, hknown⟩ := Resolve.reaches_of_verify hreaches (hvisible ▸ hd.steps)
  have hcovers : Covers s.visible.objects (Step.escapedBefore d.proof route) v.knowledge.facts.items := by
    rw [hitems]
    intro fact hfact x hx
    rcases List.mem_append.mp hfact with hfact | hfact
    · exact .inl (((hvisible ▸ hd.assumptions fact hfact).usable hx).mono hsub)
    · exact hknown fact hfact x hx
  refine ⟨s, ⟨_, u, Resolve.declarations_run_ok.mpr ⟨rfl, hbefore⟩, hu, hs⟩, hcovers, ?_⟩
  intro y hfresh hnumeral hescaped fact hfact hy
  rcases hcovers fact hfact y hy with (hy | hy) | hy
  · simp [hnumeral] at hy
  · exact hfresh.2 hy
  · exact hescaped hy

def secondChoice : Step := .choose 17 "y" (.call "Q" [.var "y"]) none

/-- An object is chosen in the common block of a case distinction, and then another one by the same
name after it. -/
def chosenTwice : Theorem where
  name := "T"
  line := 1
  parameters := ["P", "Q"]
  requirements :=
    [⟨2, .bind .some "y" (.call "P" [.var "y"])⟩, ⟨3, .bind .some "y" (.call "Q" [.var "y"])⟩]
  hypothesis := ⟨4, .binary .equals (.var "P") (.var "P")⟩
  proof := [
    .cases 6 (.var "P") [] [] [.choose 14 "y" (.call "P" [.var "y"]) none], .check 16, secondChoice]

theorem executes_secondChoice :
    ∃ v, Verify.Executes 2 [] (.ofTheorem chosenTwice) [.past, .past] secondChoice v :=
  ⟨_, _, rfl, .past_run (by decide +kernel) (.past_run (by decide +kernel) .here)⟩

theorem facts_within_scope_chosenTwice :
    Script.resolve [.ofTheorem chosenTwice] {} = .ok () ∧
      ∃ v, Verify.Executes 2 [] (.ofTheorem chosenTwice) [.past, .past] secondChoice v ∧
        ∃ s, Resolve.Executes {} [] (.ofTheorem chosenTwice) [.past, .past] secondChoice s ∧
          (∀ fact ∈ v.knowledge.facts.items, ∀ x, fact.Mentions x →
            Usable s.visible.objects x ∨ x ∈ ["y"]) ∧
          ∀ y, Fresh s.visible.objects y → Name.isNumeral y = false → y ∉ ["y"] →
            ∀ fact ∈ v.knowledge.facts.items, ¬fact.Mentions y := by
  have hresolve : Script.resolve ([] ++ .ofTheorem chosenTwice :: []) {} = .ok () := rfl
  obtain ⟨v, hexecutes⟩ := executes_secondChoice
  exact ⟨hresolve, v, hexecutes, Script.facts_within_scope hresolve hexecutes⟩

/-- The name of the second choice is new for name resolution. A fact speaks about it all the same. -/
theorem choice_outlives_scope :
    Script.resolve [.ofTheorem chosenTwice] {} = .ok () ∧
      ∃ v s, Verify.Executes 2 [] (.ofTheorem chosenTwice) [.past, .past] secondChoice v ∧
        Resolve.Executes {} [] (.ofTheorem chosenTwice) [.past, .past] secondChoice s ∧
        (∃ fact ∈ v.knowledge.facts.items, fact.Mentions "y") ∧
        ¬Usable s.visible.objects "y" ∧ Fresh s.visible.objects "y" := by
  obtain ⟨v, hexecutes⟩ := executes_secondChoice
  refine ⟨rfl, v, _, hexecutes, ⟨_, _, rfl, rfl, .past rfl (.past rfl .here)⟩, ?_, ?_⟩
  · refine ⟨.call "P" [.var "y"], ?_, Expr.mentions_of_free (by decide)⟩
    rw [hexecutes.items]
    decide
  · simp only [Usable, Fresh, Symbols.visible, Set.mem_ofPred_eq]
    decide

end ProofScript
