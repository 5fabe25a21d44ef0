import Mathlib.Logic.Equiv.Basic
import ProofScript.Proofs.ListedFacts
import ProofScript.Proofs.RelabelledScripts

/-!
# The names of objects do not matter

Main statement: with its objects renamed consistently, a script is verified with the same report in other
names, or it is rejected for the same kind of reason at the same line.

A script may not use reserved names, so a renaming says nothing about them, but verification makes them
up. Hence the renaming is extended to them first. What a report lists can be read off the text, so of
the extension nothing shows in the end.
-/

namespace ProofScript

-- ---------------------------------------------------------------- what can be read off the text

namespace Step

variable (f : String → String)

mutual
theorem admits_relabel : (s : Step) → (s.relabel f).admits = s.admits
  | claim .. | choose .. | check _ | admitted _ => rfl
  | cases n c yes no both => by
    simp only [relabel, admits, admitsAll_relabel yes, admitsAll_relabel no, admitsAll_relabel both]
theorem admitsAll_relabel : (steps : List Step) → admitsAll (relabelAll f steps) = admitsAll steps
  | [] => rfl
  | s :: rest => by simp only [relabelAll, admitsAll, admits_relabel s, admitsAll_relabel rest]
end

mutual
theorem kept_relabel : (s : Step) → (s.relabel f).kept = s.kept.map (Expr.relabel f)
  | claim .. | choose .. | check _ | admitted _ => rfl
  | cases _ _ _ _ both => lasting_relabel both
theorem lasting_relabel :
    (steps : List Step) → lasting (relabelAll f steps) = (lasting steps).map (Expr.relabel f)
  | [] => rfl
  | s :: rest => by
    simp only [relabelAll, lasting, admits_relabel, kept_relabel s, lasting_relabel rest]
    split <;> simp
end

mutual
theorem conclusions_relabel : (s : Step) → (s.relabel f).conclusions = s.conclusions.map (Expr.relabel f)
  | claim .. | choose .. | check _ | admitted _ => rfl
  | cases _ _ _ _ both => conclusionsAll_relabel both
theorem conclusionsAll_relabel :
    (steps : List Step) → conclusionsAll (relabelAll f steps) = (conclusionsAll steps).map (Expr.relabel f)
  | [] => rfl
  | s :: rest => by
    simp only [relabelAll, conclusionsAll, conclusions_relabel s, conclusionsAll_relabel rest, List.map_append]
end

theorem known_relabel (steps : List Step) (route : List Turn) :
    known (relabelAll f steps) route = (known steps route).map (Expr.relabel f) := by
  induction route generalizing steps with
  | nil => rcases steps with _ | ⟨_ | _ | _ | _ | _, rest⟩ <;> rfl
  | cons turn route ih =>
    cases steps with
    | nil => rfl
    | cons s rest =>
      cases turn with
      | past => simp only [relabelAll, known, conclusions_relabel, ih, List.map_append]
      | yes | no =>
        cases s with
        | cases n c yes no both => exact congrArg (_ :: ·) (ih _)
        | _ => rfl
      | afterYes | afterNo =>
        cases s with
        | cases n c yes no both =>
          simp only [relabelAll, relabel, Expr.relabel, known, conclusionsAll_relabel, ih, List.map_cons,
            List.map_append]
        | _ => rfl

end Step

namespace Declaration

variable (f : String → String) (d : Declaration)

theorem proof_relabel : (d.relabel f).proof = Step.relabelAll f d.proof := by
  cases d <;> rfl

theorem assumptions_relabel : (d.relabel f).assumptions = d.assumptions.map (Expr.relabel f) := by
  cases d with
  | ofTheorem t => simp [relabel, assumptions, Theorem.relabel, Sentence.map, Function.comp_def]
  | ofDefinition d => rfl

theorem entry_relabel (admittedAt : Option Nat) :
    (d.relabel f).entry admittedAt = (d.entry admittedAt).relabel f := by
  unfold entry Entry.relabel
  rw [assumptions_relabel, proof_relabel, Step.lasting_relabel, List.map_append]
  cases d <;> rfl

end Declaration

/-- Exchanges that do the same to a script do the same to its report. -/
theorem Report.relabel_congr {script : Script} {settings : Settings} {report : Report}
    (hverify : script.verify settings = .ok report) (h : ∀ d ∈ script, d.relabel f = d.relabel g) :
    report.relabel f = report.relabel g := by
  have hentries : report.entries.map (Entry.relabel f) = report.entries.map (Entry.relabel g) := by
    obtain ⟨w, hrun, rfl⟩ := Script.verify_ok_iff.mp hverify
    obtain ⟨admissions, _, hentries⟩ := Verify.declarations_record hrun rfl
    have hmap (f : String → String) :
        (List.zipWith Declaration.entry script admissions).map (Entry.relabel f) =
        List.zipWith Declaration.entry (script.map (Declaration.relabel f)) admissions := by
      simp only [List.map_zipWith, List.zipWith_map_left, Declaration.entry_relabel]
    rw [hentries, List.nil_append, hmap f, hmap g, List.map_congr_left h]
  have hdumps : report.dumps.map (Dump.relabel f) = report.dumps.map (Dump.relabel g) := by
    refine List.map_congr_left fun dump hdump => ?_
    -- The facts listed at a check are assumptions and conclusions from the text of its declaration.
    obtain ⟨before, d, after, route, n, u, rfl, hexecutes, rfl⟩ := Script.dumps_listed hverify hdump
    have hd := h d (by simp)
    have hknown (f : String → String) : (d.assumptions ++ Step.known d.proof route).map (Expr.relabel f) =
        (d.relabel f).assumptions ++ Step.known (d.relabel f).proof route := by
      rw [List.map_append, d.assumptions_relabel, d.proof_relabel, Step.known_relabel]
    unfold Dump.relabel
    dsimp only
    rw [hexecutes.items, hknown f, hknown g, hd]
  unfold relabel
  rw [hentries, hdumps]

-- ---------------------------------------------------------------- the names of a script

namespace Name

/-- Of the reserved names, a script may contain placeholders only. -/
def isRegular (x : String) : Bool := !isReserved x || isPlaceholder x

theorem isReserved_of_isNumeral (h : isNumeral x = true) : isReserved x = false := by
  unfold isNumeral at h
  unfold isReserved
  cases hx : x.toList with
  | nil => rfl
  | cons c cs =>
    rw [hx] at h
    have hc : c ≠ '_' := by
      rintro rfl
      cases h
    simpa using hc

theorem isRegular_of_not_reserved (h : isReserved x = false) : isRegular x = true := by
  simp [isRegular, h]

end Name

/-- All that is visible has a regular name. -/
structure Visible.Regular (V : Visible) : Prop where
  objects : ∀ x ∈ V.objects, Name.isRegular x = true
  definitions : ∀ x ∈ V.definitions, Name.isRegular x = true

theorem Usable.regular {Γ : Set String} (h : Usable Γ x) (hΓ : ∀ y ∈ Γ, Name.isRegular y = true) :
    Name.isRegular x = true := by
  rcases h with hx | hx
  · exact Name.isRegular_of_not_reserved (Name.isReserved_of_isNumeral hx)
  · exact hΓ x hx

theorem Visible.Regular.withObjects {V : Visible} (hV : V.Regular) (h : ∀ x ∈ xs, Name.isRegular x = true) :
    (V.withObjects xs).Regular :=
  ⟨fun x hx => hx.elim (hV.objects x) (h x), hV.definitions⟩

theorem Visible.Regular.withDefinition {V : Visible} (hV : V.Regular) {d : Definition}
    (h : Name.isRegular d.name = true) : (V.withDefinition d).Regular where
  objects := (hV.withObjects (List.forall_mem_singleton.mpr h)).objects
  definitions x hx := hx.elim (fun heq => heq ▸ h) (hV.definitions x)

section
variable {f g : String → String} (hfg : ∀ x, Name.isRegular x = true → f x = g x)
include hfg

theorem Expr.WellScoped.relabel_congr {e : Expr} {Γ : Set String} (h : e.WellScoped Γ)
    (hΓ : ∀ x ∈ Γ, Name.isRegular x = true) : e.relabel f = e.relabel g := by
  induction e using Expr.induction generalizing Γ with
  | var x => exact congrArg var (hfg x ((wellScoped_var.mp h).regular hΓ))
  | call k args ih =>
    obtain ⟨hk, hargs⟩ := wellScoped_call.mp h
    simp only [relabel, relabelAll_eq_map]
    rw [hfg k (hk.regular hΓ), List.map_congr_left fun a ha => ih a ha (hargs a ha) hΓ]
  | binary op l r ihl ihr =>
    obtain ⟨hl, hop, hr⟩ := wellScoped_binary.mp h
    have hop : op.relabel f = op.relabel g := by
      cases op with
      | named x => exact congrArg Operator.named (hfg x ((hop x rfl).regular hΓ))
      | _ => rfl
    simp only [relabel, hop, ihl hl hΓ, ihr hr hΓ]
  | not e ih => exact congrArg Expr.not (ih (wellScoped_not.mp h) hΓ)
  | bind b x body ih =>
    obtain ⟨hx, hbody⟩ := wellScoped_bind.mp h
    have hregular := Name.isRegular_of_not_reserved hx.1
    have hbody := ih hbody fun y hy => hy.elim (hΓ y) fun hy => List.mem_singleton.mp hy ▸ hregular
    simp only [relabel, hfg x hregular, hbody]
  | group k items ih =>
    simp only [relabel, relabelAll_eq_map]
    rw [List.map_congr_left fun a ha => ih a ha (wellScoped_group.mp h a ha) hΓ]

theorem Justification.WellScoped.relabel_congr {j : Justification} {V : Visible} (h : j.WellScoped slots V)
    (hV : V.Regular) : j.relabel f = j.relabel g := by
  cases j with
  | admitted => rfl
  | definition x => exact congrArg Justification.definition (hfg x (hV.definitions x h))
  | instantiation x args =>
    have hslots : ∀ y ∈ placeholders slots, Name.isRegular y = true := by
      intro y hy
      obtain ⟨i, _, rfl⟩ := List.mem_map.mp hy
      simp [Name.isRegular, Name.isPlaceholder_placeholder]
    simp only [relabel, Expr.relabelAll_eq_map]
    rw [List.map_congr_left fun a ha => (h.2 a ha).relabel_congr hfg (hV.withObjects hslots).objects]

theorem Step.WellScopedAll.relabel_congr {V : Visible} {steps : List Step} (h : WellScopedAll slots V steps)
    (hV : V.Regular) : relabelAll f steps = relabelAll g steps := by
  have hreason {reason : Option Justification} {V : Visible} (hreason : ∀ j ∈ reason, j.WellScoped slots V)
      (hV : V.Regular) : reason.map (·.relabel f) = reason.map (·.relabel g) :=
    Option.map_congr fun j hj => (hreason j hj).relabel_congr hfg hV
  induction h with
  | nil => rfl
  | claim he hj _ ih =>
    simp only [relabelAll, relabel, he.relabel_congr hfg hV.objects, hreason hj hV, ih hV]
  | choose hx he hj _ ih =>
    have hregular := Name.isRegular_of_not_reserved hx.1
    have hV := hV.withObjects (List.forall_mem_singleton.mpr hregular)
    simp only [relabelAll, relabel, hfg _ hregular, he.relabel_congr hfg hV.objects, hreason hj hV, ih hV]
  | cases hc _ _ _ _ ihyes ihno ihboth ih =>
    simp only [relabelAll, relabel, hc.relabel_congr hfg hV.objects, ihyes hV, ihno hV, ihboth hV, ih hV]
  | check _ ih | admitted _ ih => simp only [relabelAll, relabel, ih hV]

theorem Sentence.relabel_congr {sentences : List Sentence} {Γ : Set String}
    (h : ∀ s ∈ sentences, s.expr.WellScoped Γ) (hΓ : ∀ x ∈ Γ, Name.isRegular x = true) :
    sentences.map (·.map (Expr.relabel f)) = sentences.map (·.map (Expr.relabel g)) :=
  List.map_congr_left fun s hs => congrArg (Sentence.mk s.line) ((h s hs).relabel_congr hfg hΓ)

theorem Declaration.WellScoped.relabel_congr {V : Visible} {d : Declaration} (h : d.WellScoped slots V)
    (hV : V.Regular) : d.relabel f = d.relabel g ∧ (V.after d).Regular := by
  cases d with
  | ofTheorem t =>
    have h : t.WellScoped slots V := h
    have hparameters : ∀ p ∈ t.parameters, Name.isRegular p = true :=
      fun p hp => Name.isRegular_of_not_reserved (h.parameters p hp).1
    have hinside := hV.withObjects hparameters
    have hhypothesis : t.hypothesis.map (Expr.relabel f) = t.hypothesis.map (Expr.relabel g) :=
      congrArg (Sentence.mk _) (h.hypothesis.relabel_congr hfg hinside.objects)
    refine ⟨?_, hV.objects, hV.definitions⟩
    simp only [relabel, Theorem.relabel, List.map_congr_left fun p hp => hfg p (hparameters p hp),
      Sentence.relabel_congr hfg h.requirements hinside.objects, hhypothesis,
      h.proof.relabel_congr hfg hinside]
  | ofDefinition d =>
    have h : d.WellScoped slots V := h
    have hname := Name.isRegular_of_not_reserved h.fresh.1
    have hinside := hV.withDefinition hname
    refine ⟨?_, hinside⟩
    simp only [relabel, Definition.relabel, hfg d.name hname,
      Sentence.relabel_congr hfg h.rules hinside.objects, h.proof.relabel_congr hfg hinside]

theorem Script.WellScoped.relabel_congr {V : Visible} {script : Script} (h : script.WellScoped slots V)
    (hV : V.Regular) : ∀ d ∈ script, d.relabel f = d.relabel g := by
  induction script generalizing V with
  | nil => exact List.forall_mem_nil _
  | cons d rest ih =>
    obtain ⟨hd, hafter⟩ := h.1.relabel_congr hfg hV
    exact List.forall_mem_cons.mpr ⟨hd, ih h.2 hafter⟩

end

-- ---------------------------------------------------------------- exchanges on names that can be declared

namespace Name

/-- Names that can be declared, numerals apart. -/
def isPlain (x : String) : Bool := !isReserved x && !isNumeral x

theorem ofList_underscore (cs : List Char) : String.ofList ('_' :: cs) = "_" ++ .ofList cs := by
  apply String.toList_inj.mp
  simp

theorem eq_underscore_of_isReserved (h : isReserved x = true) : ∃ y, x = "_" ++ y := by
  have hx : x = .ofList x.toList := by simp
  unfold isReserved at h
  cases hcs : x.toList with
  | nil =>
    rw [hcs] at h
    cases h
  | cons c cs =>
    obtain rfl : c = '_' := by simpa [hcs] using h
    exact ⟨.ofList cs, by rw [hx, hcs, ofList_underscore]⟩

theorem eq_underscore_of_isPlaceholder (h : isPlaceholder x = true) :
    ∃ y, x = "_" ++ y ∧ isNumeral y = true := by
  have hx : x = .ofList x.toList := by simp
  unfold isPlaceholder at h
  split at h
  · rename_i c cs hcs
    have hc : c.isDigit = true := by
      simp only [List.all_cons, Bool.and_eq_true] at h
      exact h.1
    exact ⟨.ofList (c :: cs), by rw [hx, hcs, ofList_underscore], by simp [isNumeral, hc]⟩
  · cases h

/-- Every name is one that is not reserved, with underscores in front. -/
theorem underscoreInduction {motive : String → Prop} (unreserved : ∀ x, isReserved x = false → motive x)
    (underscore : ∀ x, motive x → motive ("_" ++ x)) (x : String) : motive x := by
  cases hx : isReserved x with
  | false => exact unreserved x hx
  | true =>
    obtain ⟨y, hy⟩ := eq_underscore_of_isReserved hx
    have hshorter : y.length < x.length := by
      rw [hy, String.length_append]
      exact Nat.lt_add_of_pos_left Nat.one_pos
    rw [hy]
    exact underscore y (underscoreInduction unreserved underscore y)
termination_by x.length
decreasing_by exact hshorter

end Name

/-- Names that can be declared are exchanged for such names, and numerals and placeholders stay. -/
structure Relabelling where
  name : String → String
  plain : Name.isPlain x = true → Name.isPlain (name x) = true
  injective : Name.isPlain x = true → Name.isPlain y = true → name x = name y → x = y
  numeral : Name.isNumeral x = true → name x = x
  placeholder : Name.isPlaceholder x = true → name x = x

namespace Relabelling

variable (π : Relabelling)

/-- Exchanges what follows the underscores. -/
def extendedFrom : List Char → List Char
  | [] => (π.name "").toList
  | c :: cs => if c = '_' then '_' :: extendedFrom cs else (π.name (.ofList (c :: cs))).toList

/-- Does the same to reserved names as to what they are made from. -/
def extended (x : String) : String := .ofList (π.extendedFrom x.toList)

theorem extended_underscore (x : String) : π.extended ("_" ++ x) = "_" ++ π.extended x := by
  apply String.toList_inj.mp
  simp [extended, extendedFrom]

theorem extended_unreserved (h : Name.isReserved x = false) : π.extended x = π.name x := by
  unfold extended
  unfold Name.isReserved at h
  cases hx : x.toList with
  | nil =>
    obtain rfl : x = "" := String.toList_inj.mp hx
    simp [extendedFrom]
  | cons c cs =>
    have hc : c ≠ '_' := by simpa [hx] using h
    have hcs : String.ofList (c :: cs) = x := by rw [← hx, String.ofList_toList]
    simp [extendedFrom, hc, hcs]

theorem plain_or_numeral (h : Name.isReserved x = false) :
    Name.isPlain x = true ∨ Name.isNumeral x = true := by
  cases hx : Name.isNumeral x with
  | true => exact .inr rfl
  | false => exact .inl (by simp [Name.isPlain, h, hx])

theorem isReserved_name (h : Name.isReserved x = false) : Name.isReserved (π.name x) = false := by
  rcases plain_or_numeral h with hx | hx
  · have hplain := π.plain hx
    simp only [Name.isPlain, Bool.and_eq_true, Bool.not_eq_true'] at hplain
    exact hplain.1
  · rwa [π.numeral hx]

/-- No name becomes a numeral, so numerals stay apart from all others. -/
theorem injective_unreserved (hx : Name.isReserved x = false) (hy : Name.isReserved y = false)
    (h : π.name x = π.name y) : x = y := by
  have hapart {x y : String} (hx : Name.isPlain x = true) (hy : Name.isNumeral y = true) :
      π.name x ≠ π.name y := by
    intro h
    have hplain := π.plain hx
    rw [h, π.numeral hy] at hplain
    simp [Name.isPlain, hy] at hplain
  rcases plain_or_numeral hx with hx | hx <;> rcases plain_or_numeral hy with hy | hy
  · exact π.injective hx hy h
  · exact absurd h (hapart hx hy)
  · exact absurd h.symm (hapart hy hx)
  · rwa [π.numeral hx, π.numeral hy] at h

theorem extended_injective (h : π.extended x = π.extended y) : x = y := by
  have hapart {x y : String} (hx : Name.isReserved x = false) : π.extended x ≠ π.extended ("_" ++ y) := by
    intro h
    have hreserved := π.isReserved_name hx
    rw [← π.extended_unreserved hx, h, extended_underscore, Name.isReserved_underscore] at hreserved
    cases hreserved
  induction x using Name.underscoreInduction generalizing y with
  | unreserved x hx =>
    cases hy : Name.isReserved y with
    | false =>
      rw [π.extended_unreserved hx, π.extended_unreserved hy] at h
      exact π.injective_unreserved hx hy h
    | true =>
      obtain ⟨z, rfl⟩ := Name.eq_underscore_of_isReserved hy
      exact absurd h (hapart hx)
  | underscore x ih =>
    cases hy : Name.isReserved y with
    | false => exact absurd h.symm (hapart hy)
    | true =>
      obtain ⟨z, rfl⟩ := Name.eq_underscore_of_isReserved hy
      rw [extended_underscore, extended_underscore] at h
      rw [ih (String.append_right_inj _ |>.mp h)]

theorem extended_placeholder (h : Name.isPlaceholder x = true) : π.extended x = x := by
  obtain ⟨y, rfl, hy⟩ := Name.eq_underscore_of_isPlaceholder h
  rw [extended_underscore, π.extended_unreserved (Name.isReserved_of_isNumeral hy), π.numeral hy]

theorem equivariant : Name.Equivariant π.extended where
  injective := π.extended_injective
  underscore := π.extended_underscore _
  placeholder := π.extended_placeholder

theorem extended_regular (h : Name.isRegular x = true) : π.extended x = π.name x := by
  simp only [Name.isRegular, Bool.or_eq_true, Bool.not_eq_true'] at h
  rcases h with h | h
  · exact π.extended_unreserved h
  · rw [π.extended_placeholder h, π.placeholder h]

/-- Exchanges one name for another, and the other way round. -/
def swap (x y : String) (hx : Name.isPlain x = true) (hy : Name.isPlain y = true) : Relabelling where
  name := Equiv.swap x y
  plain h := by
    rw [Equiv.swap_apply_def]
    split
    · exact hy
    split
    · exact hx
    · exact h
  injective _ _ h := (Equiv.swap x y).injective h
  numeral h := by
    refine Equiv.swap_apply_of_ne_of_ne ?_ ?_ <;> rintro rfl
    · simp [Name.isPlain, h] at hx
    · simp [Name.isPlain, h] at hy
  placeholder h := by
    refine Equiv.swap_apply_of_ne_of_ne ?_ ?_ <;> rintro rfl <;>
      obtain ⟨z, rfl, _⟩ := Name.eq_underscore_of_isPlaceholder h
    · simp [Name.isPlain, Name.isReserved_underscore] at hx
    · simp [Name.isPlain, Name.isReserved_underscore] at hy

end Relabelling

-- ---------------------------------------------------------------- the main statement

/-- The rejection without the object names and the statements that it tells: its kind and its lines. -/
def Rejection.outline (cause : Rejection) : Rejection := cause.map (fun _ => "") fun _ => .var ""

theorem Rejection.outline_map (cause : Rejection) (f : String → String) (φ : Expr → Expr) :
    (cause.map f φ).outline = cause.outline := by
  cases cause with
  | name n cause => cases cause <;> rfl
  | arity n cause =>
    cases cause with
    | count => rfl
    | misfit cause => cases cause <;> rfl
  | internal cause => cases cause <;> rfl
  | _ => rfl

namespace Script

/-- The names of objects do not matter: with all of them exchanged, a script whose names resolve is
verified with the report in other names, or rejected for the same kind of reason at the same line. -/
theorem verify_relabelled (script : Script) (settings : Settings) (π : Relabelling)
    (hresolve : script.resolve settings = .ok ()) :
    (∀ report, script.verify settings = .ok report →
      (script.relabel π.name).verify settings = .ok (report.relabel π.name)) ∧
    ∀ cause, script.verify settings = .error cause →
      ∃ cause', (script.relabel π.name).verify settings = .error cause' ∧ cause'.outline = cause.outline := by
  -- All names in the script are regular, so the extension does nothing else to it.
  have hnothing : Visible.nothing.Regular := ⟨nofun, nofun⟩
  have hsame : ∀ d ∈ script, d.relabel π.extended = d.relabel π.name :=
    (wellScoped_of_resolve hresolve).relabel_congr (fun _ => π.extended_regular) hnothing
  have hscript : script.relabel π.extended = script.relabel π.name := List.map_congr_left hsame
  have hverify := π.equivariant.verify script settings
  rw [hscript] at hverify
  constructor
  · intro report hreport
    rw [hverify, hreport]
    exact congrArg Except.ok (Report.relabel_congr hreport hsame)
  · intro cause hcause
    rw [hverify, hcause]
    exact ⟨_, rfl, cause.outline_map _ _⟩

/-- A theorem is cited with a template, and a definition after it. -/
def templated : Script := [
  .ofTheorem {
    name := "T"
    line := 1
    parameters := ["P", "a"]
    requirements := [⟨2, .bind .all "x" (.call "P" [.var "x"])⟩]
    hypothesis := ⟨3, .call "P" [.var "a"]⟩
    proof := [.claim 4 (.call "P" [.var "a"]) none] },
  .ofDefinition ⟨"D", 5, [⟨6, .binary .equals (.var "D") (.var "D")⟩], [.check 7]⟩,
  .ofTheorem {
    name := "U"
    line := 8
    parameters := ["Q", "b"]
    requirements := [⟨9, .bind .all "y" (.call "Q" [.var "y", .var "b"])⟩]
    hypothesis := ⟨10, .call "Q" [.var "D", .var "b"]⟩
    proof := [
      .claim 11 (.call "Q" [.var "D", .var "b"])
        (some (.instantiation "T" [.call "Q" [.var "_0", .var "b"], .var "D"])),
      .claim 12 (.binary .equals (.var "D") (.var "D")) (some (.definition "D")),
      .check 13] }]

/-- The definition and the parameter of the second theorem exchange their names. -/
theorem verify_relabelled_templated :
    let π := Relabelling.swap "D" "b" (by decide) (by decide)
    templated.resolve {} = .ok () ∧ ∃ report, templated.verify {} = .ok report ∧
      (templated.relabel π.name).verify {} = .ok (report.relabel π.name) ∧
      (report.relabel π.name).entries.map Entry.name = ["T", "b", "U"] := by
  intro π
  have hresolve : templated.resolve {} = .ok () := by decide +kernel
  have hnames : (templated.verify {}).map (fun report => (report.relabel π.name).entries.map Entry.name) =
      .ok ["T", "b", "U"] := by decide +kernel
  cases hreport : templated.verify {} with
  | error cause =>
    rw [hreport] at hnames
    cases hnames
  | ok report =>
    rw [hreport] at hnames
    exact ⟨hresolve, report, rfl, (verify_relabelled templated {} π hresolve).1 report hreport,
      Except.ok.inj hnames⟩

end Script

end ProofScript
