import ProofScript.Proofs.Lexemes
import ProofScript.Proofs.ProofSteps
import ProofScript.Script.Parser

/-!
# Names of parsed scripts

What is read where a name is expected is a name of the language: `Spelled` says so of all names in an
expression. Names start with a letter or an underscore, so no parameter, chosen object or binder of a
script that was read is a numeral.
-/

namespace ProofScript

-- ---------------------------------------------------------------- what parsers give

namespace Text.Parser

/-- Whatever is read has the property. -/
def Gives (p : Parser α) (P : α → Prop) : Prop := ∀ i a rest, (p i).result = some (a, rest) → P a

namespace Gives

theorem any (p : Parser α) : p.Gives fun _ => True := fun _ _ _ _ => trivial

theorem pure {P : α → Prop} (h : P a) : (Pure.pure a : Parser α).Gives P := by
  intro i b rest hb
  cases hb
  exact h

theorem failure (P : α → Prop) : (Alternative.failure : Parser α).Gives P := nofun

theorem bind {p : Parser α} {f : α → Parser β} (hp : p.Gives P) (hf : ∀ a, P a → (f a).Gives Q) :
    (p >>= f).Gives Q := by
  intro i b rest h
  obtain ⟨a, mid, ha, hb⟩ := result_bind_eq_some h
  exact hf a (hp i a mid ha) mid b rest hb

theorem mono {p : Parser α} (hp : p.Gives P) (h : ∀ a, P a → Q a) : p.Gives Q :=
  fun i a rest ha => h a (hp i a rest ha)

/-- What was read before does not matter. -/
theorem after {p : Parser α} {f : α → Parser β} (hf : ∀ a, (f a).Gives Q) : (p >>= f).Gives Q :=
  (any p).bind fun a _ => hf a

theorem map {p : Parser α} {f : α → β} {Q : β → Prop} (hp : p.Gives P) (hf : ∀ a, P a → Q (f a)) :
    (f <$> p).Gives Q :=
  hp.bind fun a ha => pure (hf a ha)

theorem orElse {p q : Parser α} (hp : p.Gives P) (hq : q.Gives P) : (p <|> q).Gives P := by
  intro i a rest h
  rw [result_orElse] at h
  rcases Option.or_eq_some_iff.mp h with h | ⟨_, h⟩
  · exact hp i a rest h
  · exact hq i a rest h

theorem expecting {p : Parser α} (hp : p.Gives P) : (expecting p).Gives P := by
  intro i a rest h
  rw [result_expecting] at h
  exact hp i a rest h

theorem phrase {p : Parser α} (hp : p.Gives P) : (phrase p).Gives P := after fun _ => hp.expecting

theorem firstOf {ps : List (Parser α)} (h : ∀ p ∈ ps, p.Gives P) : (firstOf ps).Gives P := by
  induction ps with
  | nil => exact nofun
  | cons p ps ih =>
    obtain ⟨hp, hps⟩ := List.forall_mem_cons.mp h
    exact hp.orElse (ih hps)

/-- Each approximation gives what the next one needs. -/
theorem fix {f : Parser α → Parser α} (h : ∀ p, p.Gives P → (f p).Gives P) : (fix f).Gives P := by
  have hunfolding (n : Nat) : (unfolding f n).Gives P := by
    induction n with
    | zero => exact nofun
    | succ n ih => exact h _ ih
  exact fun i => hunfolding (i.chars.length + 1) i

theorem many {p : Parser α} (hp : p.Gives P) : (many p).Gives fun as => ∀ a ∈ as, P a :=
  fix fun _ hmore => orElse
    (hp.bind fun _ ha => hmore.bind fun _ has => pure (List.forall_mem_cons.mpr ⟨ha, has⟩))
    (pure (List.forall_mem_nil _))

theorem optional {p : Parser α} (hp : p.Gives P) : (optional p).Gives fun o => ∀ a ∈ o.toList, P a :=
  orElse (hp.map fun a ha => by simpa using ha) (pure (by simp))

theorem read (hp : Gives p P) (h : Parser.read p s = .ok a) : P a := by
  obtain ⟨rest, h⟩ := read_eq_ok_iff.mp h
  exact hp (.ofString s) a rest h

end Gives

end Text.Parser

open Text Text.Parser

-- ---------------------------------------------------------------- names

theorem Text.isNameStart_of_isDigit (h : c.isDigit = true) : isNameStart c = false := by
  have hlt : c.toNat < 0x41 := by
    simp only [Char.isDigit, Bool.and_eq_true, decide_eq_true_eq] at h
    have hle : c.val.toNat ≤ 57 := UInt32.le_iff_toNat_le.mp h.2
    show c.val.toNat < 65
    omega
  have hletter : isLetter c = false := if_pos hlt
  have hne : c ≠ '_' := by
    rintro rfl
    cases h
  simp [isNameStart, hletter, hne]

theorem Text.isNumeral_of_isName {x : String} (h : isName x.toList = true) :
    Name.isNumeral x = false := by
  obtain ⟨c, cs, hcs, hstart, _⟩ := isName_cons h
  cases hdigit : c.isDigit with
  | true => rw [isNameStart_of_isDigit hdigit] at hstart; cases hstart
  | false => simp [Name.isNumeral, hcs, hdigit]

theorem Text.name_gives : name.Gives fun x => isName x.toList = true := by
  refine .phrase (.after fun cs => ?_)
  split
  · rename_i h
    exact .pure (by rwa [String.toList_ofList])
  · exact .failure _

/-- Where a name is read there is no numeral. -/
theorem Text.name_gives_word : name.Gives fun x => Name.isNumeral x = false :=
  name_gives.mono fun _ => isNumeral_of_isName

theorem Text.digits_gives : digits.Gives fun ds => ds ≠ [] ∧ ∀ c ∈ ds, c.isDigit = true := by
  have hrun : (takeWhile Char.isDigit).Gives fun ds => ∀ c ∈ ds, c.isDigit = true := by
    intro i ds rest h
    cases h
    exact List.all_eq_true.mp List.all_takeWhile
  refine hrun.bind fun ds hds => ?_
  split
  · exact .failure _
  · rename_i hne
    exact .pure ⟨by simpa using hne, hds⟩

theorem Text.numeral_gives : numeral.Gives fun x => IsNumeral x.toList := by
  refine .phrase (digits_gives.bind fun whole hwhole => ?_)
  have hfraction : Gives ((do literal "."; let ds ← digits; return '.' :: ds) <|> pure [])
      fun cs => cs = [] ∨ ∃ ds, cs = '.' :: ds ∧ ds ≠ [] ∧ ∀ c ∈ ds, c.isDigit = true :=
    .orElse (.after fun _ => digits_gives.bind fun ds hds => .pure (.inr ⟨ds, rfl, hds⟩)) (.pure (.inl rfl))
  refine hfraction.bind fun fraction hf => .pure ?_
  rw [String.toList_ofList]
  rcases hf with rfl | ⟨ds, rfl, hne, hds⟩
  · exact ⟨whole, [], hwhole.1, hwhole.2, by simp, .inl (List.append_nil _)⟩
  · exact ⟨whole, ds, hwhole.1, hwhole.2, hds, .inr ⟨hne, rfl⟩⟩

-- ---------------------------------------------------------------- expressions

/-- An operator with a name has one of the language. -/
def Operator.Spelled : Operator → Prop
  | named x => isName x.toList = true
  | _ => True

/-- The name at the root, if there is one, is a name of the language; a variable may be a numeral. -/
def Expr.NamedWell : Expr → Prop
  | var x => isName x.toList = true ∨ IsNumeral x.toList
  | call x _ | bind _ x _ => isName x.toList = true
  | binary op _ _ => op.Spelled
  | _ => True

/-- All names in the expression are names of the language. -/
def Expr.Spelled (e : Expr) : Prop := ∀ d ∈ e.inside, d.NamedWell

/-- No binder introduces a numeral. -/
def Expr.BindsNames (e : Expr) : Prop := ∀ x ∈ e.binders, Name.isNumeral x = false

namespace Expr

theorem spelled_all : (∀ d ∈ insideAll es, d.NamedWell) ↔ ∀ e ∈ es, e.Spelled := by
  simp only [mem_insideAll, Spelled]
  exact ⟨fun h e he d hd => h d ⟨e, he, hd⟩, fun h d ⟨e, he, hd⟩ => h e he d hd⟩

theorem spelled_var : (var x).Spelled ↔ isName x.toList = true ∨ IsNumeral x.toList := by
  simp [Spelled, inside, NamedWell]

theorem spelled_call : (call f args).Spelled ↔ isName f.toList = true ∧ ∀ a ∈ args, a.Spelled :=
  List.forall_mem_cons.trans (and_congr .rfl spelled_all)

theorem spelled_binary : (binary op l r).Spelled ↔ op.Spelled ∧ l.Spelled ∧ r.Spelled := by
  simp [Spelled, inside, NamedWell, or_imp, forall_and]

theorem spelled_not : (not e).Spelled ↔ e.Spelled := by
  simp [Spelled, inside, NamedWell]

theorem spelled_bind : (bind q x body).Spelled ↔ isName x.toList = true ∧ body.Spelled := by
  simp [Spelled, inside, NamedWell]

theorem spelled_group : (group g items).Spelled ↔ ∀ a ∈ items, a.Spelled :=
  List.forall_mem_cons.trans ((and_iff_right trivial).trans spelled_all)

theorem Spelled.bindsNames {e : Expr} (h : e.Spelled) : e.BindsNames := by
  induction e using Expr.induction with
  | var x => exact List.forall_mem_nil _
  | call f args ih =>
    intro x hx
    obtain ⟨a, ha, hx⟩ := mem_bindersAll.mp hx
    exact ih a ha ((spelled_call.mp h).2 a ha) x hx
  | binary op l r ihl ihr =>
    obtain ⟨_, hl, hr⟩ := spelled_binary.mp h
    exact List.forall_mem_append.mpr ⟨ihl hl, ihr hr⟩
  | not e ih => exact ih (spelled_not.mp h)
  | bind q x body ih =>
    obtain ⟨hx, hbody⟩ := spelled_bind.mp h
    exact List.forall_mem_cons.mpr ⟨isNumeral_of_isName hx, ih hbody⟩
  | group g items ih =>
    intro x hx
    obtain ⟨a, ha, hx⟩ := mem_bindersAll.mp hx
    exact ih a ha (spelled_group.mp h a ha) x hx

theorem spelled_snoc (t : Chain.Tree) (ht : t.expr.Spelled) (hop : op.Spelled) (hb : b.Spelled) :
    (t.snoc op b).expr.Spelled := by
  induction t with
  | leaf a => exact spelled_binary.mpr ⟨hop, ht, hb⟩
  | node o l r _ ihr =>
    obtain ⟨ho, hl, hr⟩ := spelled_binary.mp ht
    simp only [Chain.Tree.snoc]
    split
    · exact spelled_binary.mpr ⟨ho, hl, ihr hr⟩
    · exact spelled_binary.mpr ⟨hop, ht, hb⟩

theorem spelled_chain (c : Chain) (hhead : c.head.Spelled)
    (htail : ∀ link ∈ c.tail, link.1.Spelled ∧ link.2.Spelled) : c.expr.Spelled := by
  have hfold (t : Chain.Tree) (ht : t.expr.Spelled) :
      (c.tail.foldl (fun t link => t.snoc link.1 link.2) t).expr.Spelled := by
    generalize c.tail = tail at htail
    induction tail generalizing t with
    | nil => exact ht
    | cons link rest ih =>
      obtain ⟨hlink, hrest⟩ := List.forall_mem_cons.mp htail
      exact ih _ (spelled_snoc t ht hlink.1 hlink.2) hrest
  exact hfold (.leaf c.head) hhead

theorem bracketed_gives {p : Parser α} (hp : p.Gives P) : (bracketed opening closing p).Gives P :=
  .after fun _ => hp.bind fun _ ha => .after fun _ => .pure ha

theorem commaSeparated_gives {p : Parser α} (hp : p.Gives P) :
    (commaSeparated p).Gives fun as => ∀ a ∈ as, P a :=
  .orElse (hp.bind fun _ ha => (Gives.many (.after fun _ => hp)).bind fun _ has =>
    .pure (List.forall_mem_cons.mpr ⟨ha, has⟩)) (.pure (List.forall_mem_nil _))

theorem operator_gives : operator.Gives Operator.Spelled := by
  refine .orElse (.firstOf fun p hp => ?_) (.phrase (name_gives.map fun _ hx => hx))
  obtain ⟨⟨s, op⟩, hs, rfl⟩ := List.mem_map.mp hp
  have hsign : ∀ link ∈ operatorSigns, link.2.Spelled := by
    simp only [operatorSigns, List.forall_mem_cons, Operator.Spelled]
    simp
  exact .phrase (.after fun _ => .pure (hsign _ hs))

section
variable {expr : Parser Expr} (hexpr : expr.Gives Spelled)
include hexpr

theorem term_gives : (term expr).Gives Spelled := by
  have hlist := commaSeparated_gives hexpr
  refine .fix fun term hterm => .firstOf fun p hp => ?_
  simp only [List.mem_cons, List.not_mem_nil, or_false] at hp
  rcases hp with rfl | rfl | rfl | rfl | rfl | rfl | rfl | rfl | rfl
  · refine .phrase (.after fun q => name_gives.bind fun x hx => ?_)
    exact (bracketed_gives hexpr).bind fun body hbody => .pure (spelled_bind.mpr ⟨hx, hbody⟩)
  · exact .phrase (.after fun _ => hterm.bind fun e he => .pure (spelled_not.mpr he))
  · exact .phrase (name_gives.bind fun f hf => (bracketed_gives hlist).bind fun args hargs =>
      .pure (spelled_call.mpr ⟨hf, hargs⟩))
  · exact .phrase ((bracketed_gives hlist).map fun items => spelled_group.mpr)
  · refine .phrase (bracketed_gives (name_gives.bind fun x hx => .after fun _ => ?_))
    exact hexpr.bind fun body hbody => .pure (spelled_bind.mpr ⟨hx, hbody⟩)
  · exact .phrase ((bracketed_gives hlist).map fun items => spelled_group.mpr)
  · exact numeral_gives.map fun x hx => spelled_var.mpr (.inr hx)
  · exact .phrase (name_gives.map fun x hx => spelled_var.mpr (.inl hx))
  · exact bracketed_gives hexpr

theorem chain_gives : (chain expr).Gives fun c => c.expr.Spelled := by
  refine (term_gives hexpr).bind fun head hhead => ?_
  have hlink : Gives (do
      let op ← operator
      let operand ← term expr
      return (op, operand)) fun link => link.1.Spelled ∧ link.2.Spelled :=
    operator_gives.bind fun op hop => (term_gives hexpr).bind fun e he => .pure ⟨hop, he⟩
  exact (Gives.many hlink).bind fun tail htail => .pure (spelled_chain _ hhead htail)

end

theorem parser_gives : parser.Gives Spelled :=
  .fix fun _ hexpr => .phrase ((chain_gives hexpr).map fun _ h => h)

end Expr

-- ---------------------------------------------------------------- scripts

/-- The objects that steps choose are not numerals, nor are those bound in what is passed to theorems. -/
structure Step.NamedAll (steps : List Step) : Prop where
  chosen : ∀ x ∈ chosenAll steps, Name.isNumeral x = false
  arguments : ∀ j ∈ reasonsAll steps, ∀ a ∈ j.args, a.BindsNames

/-- The objects that a theorem introduces are not numerals. -/
structure Theorem.Named (t : Theorem) : Prop extends Step.NamedAll t.proof where
  parameters : ∀ p ∈ t.parameters, Name.isNumeral p = false
  statements : ∀ s ∈ t.hypothesis :: t.requirements, s.expr.BindsNames

def Declaration.Named : Declaration → Prop
  | ofTheorem t => t.Named
  | ofDefinition d => Step.NamedAll d.proof

namespace Step

theorem namedAll_nil : NamedAll [] := ⟨List.forall_mem_nil _, List.forall_mem_nil _⟩

theorem NamedAll.append (h : NamedAll steps) (h' : NamedAll more) : NamedAll (steps ++ more) := by
  constructor
  · intro x hx
    obtain ⟨s, hs, hx⟩ := mem_chosenAll.mp hx
    rcases List.mem_append.mp hs with hs | hs
    · exact h.chosen x (mem_chosenAll.mpr ⟨s, hs, hx⟩)
    · exact h'.chosen x (mem_chosenAll.mpr ⟨s, hs, hx⟩)
  · intro j hj
    obtain ⟨s, hs, hj⟩ := mem_reasonsAll.mp hj
    rcases List.mem_append.mp hs with hs | hs
    · exact h.arguments j (mem_reasonsAll.mpr ⟨s, hs, hj⟩)
    · exact h'.arguments j (mem_reasonsAll.mpr ⟨s, hs, hj⟩)

theorem namedAll_of_forall (h : ∀ s ∈ steps, NamedAll [s]) : NamedAll steps := by
  induction steps with
  | nil => exact namedAll_nil
  | cons s rest ih =>
    obtain ⟨hs, hrest⟩ := List.forall_mem_cons.mp h
    exact hs.append (ih hrest)

/-- A step with a justification, which may choose an object. -/
theorem namedAll_justified {reason : Option Justification}
    (hchosen : ∀ x ∈ chosen s, Name.isNumeral x = false) (hs : s.reasons = reason.toList)
    (hreason : ∀ j ∈ reason.toList, ∀ a ∈ j.args, a.BindsNames) : NamedAll [s] := by
  constructor
  · simpa [chosenAll] using hchosen
  · simpa [reasonsAll, hs] using hreason

theorem namedAll_cases (hyes : NamedAll yes) (hno : NamedAll no) (hboth : NamedAll both) :
    NamedAll [.cases n c yes no both] := by
  obtain ⟨hchosen, harguments⟩ := (hyes.append hno).append hboth
  constructor
  · simpa [chosenAll, chosen, mem_chosenAll, or_imp, forall_and] using hchosen
  · simpa [reasonsAll, reasons, mem_reasonsAll, or_imp, forall_and] using harguments

end Step

namespace Script

open Expr

theorem construct_gives {p : Nat → Parser α} (hp : ∀ line, (p line).Gives P) : (construct p).Gives P :=
  .phrase (.after fun _ => hp _)

theorem sentence_gives : sentence.Gives fun s => s.expr.BindsNames :=
  construct_gives fun _ => parser_gives.bind fun _ he => .after fun _ => .pure he.bindsNames

theorem justification_gives : justification.Gives fun j => ∀ a ∈ j.args, a.BindsNames := by
  refine .after fun _ => .firstOf fun p hp => ?_
  simp only [List.mem_cons, List.not_mem_nil, or_false] at hp
  rcases hp with rfl | rfl | rfl
  · exact .phrase (.after fun _ => .after fun _ => .pure (List.forall_mem_nil _))
  · exact .phrase (.after fun _ => .after fun _ => .pure (List.forall_mem_nil _))
  · refine .phrase (.after fun _ => ?_)
    exact (bracketed_gives (commaSeparated_gives parser_gives)).bind fun args hargs =>
      .pure fun a ha => (hargs a ha).bindsNames

theorem step_gives {block : Parser (List Step)} (hblock : block.Gives Step.NamedAll) :
    (firstOf [wordStep "sorry" .admitted, distinction block, wordStep "check" .check, choice,
      claim]).Gives fun s => Step.NamedAll [s] := by
  have hreason := Gives.optional justification_gives
  refine .firstOf fun p hp => ?_
  simp only [List.mem_cons, List.not_mem_nil, or_false] at hp
  rcases hp with rfl | rfl | rfl | rfl | rfl
  · exact construct_gives fun _ => .after fun _ => .after fun _ => .after fun _ =>
      .pure ⟨List.forall_mem_nil _, List.forall_mem_nil _⟩
  · refine construct_gives fun _ => .after fun _ => .after fun _ => .after fun _ => ?_
    refine hblock.bind fun yes hyes => .after fun _ => .after fun _ => ?_
    refine hblock.bind fun no hno => .after fun _ => .after fun _ => ?_
    exact hblock.bind fun both hboth => .pure (Step.namedAll_cases hyes hno hboth)
  · exact construct_gives fun _ => .after fun _ => .after fun _ => .after fun _ =>
      .pure ⟨List.forall_mem_nil _, List.forall_mem_nil _⟩
  · refine construct_gives fun _ => .after fun _ => name_gives_word.bind fun x hx => .after fun _ => ?_
    refine .after fun _ => hreason.bind fun reason hreason => .after fun _ => .pure ?_
    exact Step.namedAll_justified (List.forall_mem_singleton.mpr hx) rfl hreason
  · refine construct_gives fun _ => .after fun _ => hreason.bind fun reason hreason => ?_
    exact .after fun _ => .pure (Step.namedAll_justified (List.forall_mem_nil _) rfl hreason)

theorem block_gives : block.Gives Step.NamedAll := by
  refine .fix fun block hblock => .phrase (.after fun _ => .after fun _ => ?_)
  refine (Gives.many (step_gives hblock)).bind fun steps hsteps => .after fun _ => .after fun _ => ?_
  exact .pure (Step.namedAll_of_forall hsteps)

theorem theoremDeclaration_gives : theoremDeclaration.Gives Theorem.Named := by
  refine construct_gives fun _ => .after fun _ => .after fun _ => ?_
  refine (bracketed_gives (commaSeparated_gives name_gives_word)).bind fun parameters hparameters => ?_
  refine .after fun _ => .after fun _ => ?_
  refine (Gives.many sentence_gives).bind fun requirements hrequirements => .after fun _ => ?_
  refine sentence_gives.bind fun hypothesis hhypothesis => ?_
  refine block_gives.bind fun proof hproof => .pure ?_
  exact ⟨hproof, hparameters, List.forall_mem_cons.mpr ⟨hhypothesis, hrequirements⟩⟩

theorem definitionDeclaration_gives :
    definitionDeclaration.Gives fun d => Step.NamedAll d.proof := by
  refine construct_gives fun _ => .after fun _ => .after fun _ => .after fun _ => .after fun _ => ?_
  refine .after fun _ => .after fun _ => .after fun _ => ?_
  refine (Gives.optional block_gives).bind fun proof hproof => .pure ?_
  cases proof with
  | none => exact Step.namedAll_nil
  | some steps => exact hproof steps (by simp)

theorem declaration_gives : declaration.Gives Declaration.Named :=
  .orElse (theoremDeclaration_gives.map fun _ ht => ht) (definitionDeclaration_gives.map fun _ hd => hd)

/-- The declarations of a script that can be read introduce names, not numerals. -/
theorem declarations_of_parse (h : parse source = .ok script) : ∀ d ∈ script, d.Named := by
  have hparser : parser.Gives fun script => ∀ d ∈ script, d.Named := by
    refine .after fun _ => (Gives.many ?_).bind fun declarations h => .after fun _ => .pure h
    exact declaration_gives.bind fun d hd => .after fun _ => .pure hd
  exact hparser.read h

theorem named_of_parse (h : parse source = .ok script) : ∀ t, .ofTheorem t ∈ script → t.Named :=
  fun _ => declarations_of_parse h _

end Script

end ProofScript
