import ProofScript.Proofs.RoundTrip

/-!
# Substitution and the written language

Substitution moves names about and makes up names for binders. The names it makes up can be written:
an underscore may stand before every name. What it moves can be written where it goes, with one
exception. Numerals are objects like any other, and a function is replaced by whatever name an object
has, so that a numeral may come to stand for a function, as in `1(a)`. Main statement: this is the only
way for a result of substitution to be one that could not have been written.
-/

namespace ProofScript

open Text

-- ---------------------------------------------------------------- names that are made up

theorem Text.isName_underscore {cs : List Char} (h : isName cs = true) : isName ('_' :: cs) = true := by
  have hchars : cs.all isNameChar = true := by
    simp only [isName, Bool.and_eq_true] at h
    exact h.1.2
  have hstart : isNameStart '_' = true := by decide +kernel
  have hchar : isNameChar '_' = true := by decide +kernel
  -- no keyword starts like that
  have hfirst : ∀ word ∈ keywords, word.toList.head? ≠ some '_' := by decide +kernel
  have hword : String.ofList ('_' :: cs) ∉ keywords := by
    intro hmem
    exact hfirst _ hmem (by rw [String.toList_ofList]; rfl)
  simp only [isName, Bool.and_eq_true, Bool.not_eq_true', List.contains_eq_mem, decide_eq_false_iff_not]
  exact ⟨⟨hstart, List.all_cons.trans (by rw [hchar, hchars]; rfl)⟩, hword⟩

namespace Name

theorem isName_untaken {x : String} (h : isName x.toList = true) (taken : List String) (n : Nat) :
    isName (untaken taken n x).toList = true := by
  induction n generalizing x with
  | zero => exact h
  | succ n ih =>
    simp only [untaken]
    split
    · exact ih (by rw [String.toList_append]; exact isName_underscore h)
    · exact h

theorem isName_fresh {x : String} (h : isName x.toList = true) (taken : List String) :
    isName (fresh taken x).toList = true :=
  isName_untaken (by rw [String.toList_append]; exact isName_underscore h) taken _

end Name

-- ---------------------------------------------------------------- what takes the place of functions

/-- Everything that stands for a name can be written. -/
def Substitution.Spelled (σ : Substitution) : Prop := ∀ x r, σ.find? x = some r → r.Spelled

namespace Expr

/-- Whatever is to stand for a free function is a name, and no numeral. -/
def CallsNames (σ : Substitution) (e : Expr) : Prop :=
  ∀ f ∈ e.functions, ∀ g, σ.find? f = some (var g) → isName g.toList = true

theorem callsNames_all : (∀ f ∈ functionsAll es, ∀ g, σ.find? f = some (var g) → isName g.toList = true) ↔
    ∀ e ∈ es, CallsNames σ e := by
  simp only [mem_functionsAll, CallsNames]
  exact ⟨fun h e he f hf => h f ⟨e, he, hf⟩, fun h f ⟨e, he, hf⟩ => h e he f hf⟩

theorem callsNames_call : CallsNames σ (call f args) ↔
    (∀ g, σ.find? f = some (var g) → isName g.toList = true) ∧ ∀ a ∈ args, CallsNames σ a :=
  List.forall_mem_cons.trans (and_congr .rfl callsNames_all)

theorem callsNames_binary : CallsNames σ (binary op l r) ↔ CallsNames σ l ∧ CallsNames σ r :=
  List.forall_mem_append

/-- Inside a binder its name stands for a name. -/
theorem callsNames_bind {σ : Substitution} (hy : isName y.toList = true) :
    CallsNames (σ.insert x (var y)) body ↔ CallsNames σ (bind q x body) := by
  constructor
  · intro h f hf g hg
    obtain ⟨hf, hne⟩ := mem_functions_bind.mp hf
    exact h f hf g (by rwa [NameMap.find?_insert_ne _ _ hne])
  · intro h f hf g hg
    rcases NameMap.find?_insert_eq_some.mp hg with ⟨_, hyg⟩ | ⟨hne, hg⟩
    · cases hyg
      exact hy
    · exact h f (mem_functions_bind.mpr ⟨hf, hne⟩) g hg

-- ---------------------------------------------------------------- results

theorem spelled_replacedAll (h : replacedAll ts es σ = .ok ds)
    (hes : ∀ e ∈ es, ∀ d, replaced ts e σ = .ok d → (d.Spelled ↔ CallsNames σ e)) :
    (∀ d ∈ ds, d.Spelled) ↔ ∀ e ∈ es, CallsNames σ e := by
  constructor
  · intro hds e he
    obtain ⟨d, hd, hed⟩ := replacedAll_ok h e he
    exact (hes e he d hed).mp (hds d hd)
  · intro hcalls d hd
    obtain ⟨e, he, hed⟩ := replacedAll_mem h d hd
    exact (hes e he d hed).mpr (hcalls e he)

/-- What stands for a function can be written there, unless it is a numeral. -/
theorem isName_headName (hf : isName f.toList = true) (h : headName σ f = .ok g) :
    isName g.toList = true ↔ ∀ g', σ.find? f = some (var g') → isName g'.toList = true := by
  have hg := headName_eq_ok h
  cases hr : σ.find? f with
  | none =>
    rw [hr] at hg
    cases hg
    simp [hf]
  | some r =>
    rw [hr] at hg
    cases hg
    simp

theorem spelled_replaced {e : Expr} (he : e.Spelled) (hσ : Substitution.Spelled σ)
    (h : replaced ∅ e σ = .ok d) : d.Spelled ↔ CallsNames σ e := by
  induction e using Expr.induction generalizing σ d with
  | var x =>
    cases h
    have hvalue : ((σ.find? x).getD (var x)).Spelled := by
      cases hr : σ.find? x with
      | none => exact he
      | some r => exact hσ x r hr
    exact iff_of_true hvalue (List.forall_mem_nil _)
  | call f args ih =>
    obtain ⟨hf, hargs⟩ := spelled_call.mp he
    obtain ⟨g, hg, ds, hds, rfl⟩ := (replaced_call (NameMap.find?_empty f)).mp h
    rw [spelled_call, callsNames_call, isName_headName hf hg,
      spelled_replacedAll hds fun a ha d => ih a ha (hargs a ha) hσ]
  | binary op l r ihl ihr =>
    obtain ⟨hop, hl, hr⟩ := spelled_binary.mp he
    obtain ⟨l', hl', r', hr', rfl⟩ := replaced_binary.mp h
    rw [spelled_binary, callsNames_binary, ihl hl hσ hl', ihr hr hσ hr', and_iff_right hop]
  | not e ih =>
    obtain ⟨d, hd, rfl⟩ := replaced_not.mp h
    rw [spelled_not]
    exact ih (spelled_not.mp he) hσ hd
  | bind q x body ih =>
    obtain ⟨hx, hbody⟩ := spelled_bind.mp he
    obtain ⟨d, hd, rfl⟩ := replaced_bind.mp h
    have hy := Name.isName_fresh hx (body.free ++ freeAll σ.values)
    have hσ' := NameMap.forall_find?_insert hσ (spelled_var.mpr (.inl hy)) (x := x)
    rw [spelled_bind, ih hbody hσ' hd, and_iff_right hy, callsNames_bind hy]
  | group g items ih =>
    obtain ⟨ds, hds, rfl⟩ := replaced_group.mp h
    rw [spelled_group,
      spelled_replacedAll hds fun a ha d => ih a ha (spelled_group.mp he a ha) hσ]
    exact callsNames_all.symm

/-- The result of substitution in an expression of the language, by expressions of the language, is one
of the language if and only if no free function is replaced by a numeral, and so its text is then, and
only then, read back as it is. -/
theorem spelled_substitute (he : e.Spelled) (hσ : Substitution.Spelled σ)
    (h : e.substitute σ = .ok d) :
    (d.Spelled ↔ CallsNames σ e) ∧ (parse d.text = .ok d ↔ CallsNames σ e) := by
  rw [substitute_eq_replaced] at h
  rw [← spelled_replaced he hσ h]
  exact ⟨.rfl, spelled_of_parse, parse_of_spelled⟩

/-- `a` becomes a numeral, and `P` another function. Inside the quantifier `f` is not the `f` that a
numeral stands for. -/
theorem spelled_substitute_bound :
    let e : Expr := .bind .all "f" (.call "P" [.call "f" [.var "a"], .var "2"])
    let σ : Substitution := .ofList [("P", .var "Q"), ("a", .var "1.5"), ("f", .var "2")]
    let d : Expr := .bind .all "_f" (.call "Q" [.call "_f" [.var "1.5"], .var "2"])
    e.Spelled ∧ Substitution.Spelled σ ∧ e.substitute σ = .ok d ∧ CallsNames σ e ∧
      d.Spelled ∧ d.text = "∀_f(Q(_f(1.5), 2))" ∧ parse d.text = .ok d := by
  intro e σ d
  have hnames : ∀ x ∈ [['f'], ['P'], ['a'], ['Q']], isName x = true := by decide +kernel
  simp only [List.forall_mem_cons] at hnames
  have hone : IsNumeral ['1', '.', '5'] :=
    ⟨['1'], ['5'], List.cons_ne_nil _ _, List.forall_mem_singleton.mpr rfl,
      List.forall_mem_singleton.mpr rfl, .inr ⟨List.cons_ne_nil _ _, rfl⟩⟩
  have htwo : IsNumeral ['2'] :=
    ⟨['2'], [], List.cons_ne_nil _ _, List.forall_mem_singleton.mpr rfl, List.forall_mem_nil _, .inl rfl⟩
  have he : e.Spelled := by simp [e, spelled_bind, spelled_call, spelled_var, hnames, htwo]
  have hσ : Substitution.Spelled σ :=
    NameMap.forall_find?_insert (NameMap.forall_find?_insert (NameMap.forall_find?_insert
      (by rintro x r ⟨⟩) (spelled_var.mpr (.inl hnames.2.2.2.1))) (spelled_var.mpr (.inr hone)))
      (spelled_var.mpr (.inr htwo))
  have hd : e.substitute σ = .ok d := rfl
  have hcalls : CallsNames σ e := by
    have hfunctions : e.functions = ["P"] := by decide
    have hP : σ.find? "P" = some (.var "Q") := rfl
    simp only [CallsNames, hfunctions, List.forall_mem_singleton, hP]
    rintro g ⟨⟩
    exact hnames.2.2.2.1
  obtain ⟨hspelled, hparse⟩ := spelled_substitute he hσ hd
  exact ⟨he, hσ, hd, hcalls, hspelled.mpr hcalls, by decide +kernel, hparse.mpr hcalls⟩

/-- `1` is an object and stands for the function of `P(a)`. Nobody could write the result. -/
theorem numeral_called :
    let e : Expr := .call "P" [.var "a"]
    let σ : Substitution := .ofList [("P", .var "1")]
    let d : Expr := .call "1" [.var "a"]
    e.Spelled ∧ Substitution.Spelled σ ∧ e.substitute σ = .ok d ∧ ¬d.Spelled ∧ d.text = "1(a)" ∧
      ∀ e', parse d.text ≠ .ok e' := by
  intro e σ d
  have hnames : ∀ x ∈ [['P'], ['a']], isName x = true := by decide +kernel
  simp only [List.forall_mem_cons] at hnames
  have hone : IsNumeral ['1'] :=
    ⟨['1'], [], List.cons_ne_nil _ _, List.forall_mem_singleton.mpr rfl, List.forall_mem_nil _, .inl rfl⟩
  have hd : ¬d.Spelled := by
    have hno : isName ['1'] = false := by decide +kernel
    simp [d, spelled_call, hno]
  refine ⟨?_, ?_, rfl, hd, by decide +kernel, ?_⟩
  · simp [e, spelled_call, spelled_var, hnames]
  · exact NameMap.forall_find?_insert (by rintro x r ⟨⟩) (spelled_var.mpr (.inr hone))
  · have herror : parse d.text = .error ⟨1, 2⟩ := by decide +kernel
    intro e' he'
    rw [herror] at he'
    cases he'

end Expr

end ProofScript
