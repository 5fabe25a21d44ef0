import Mathlib.Data.List.Forall2
import ProofScript.Proofs.SteadyParsers
import ProofScript.Script.Parser

/-!
# Scripts in other layouts

The grammar of scripts goes through layout and line ends in many places: heads of declarations,
sentences, steps, blocks inside of blocks. Each of its parsers is steady, and so is the whole. Main
statement: if a script can be read, then it can be read in every other layout, and what is read is the
same apart from the numbers of the lines.
-/

namespace ProofScript

open Text Text.Parser

-- ---------------------------------------------------------------- scripts without lines

def Sentence.unnumbered (s : Sentence) : Sentence := { s with line := 0 }

namespace Step

mutual
def unnumbered : Step → Step
  | claim _ e reason => claim 0 e reason
  | choose _ x e reason => choose 0 x e reason
  | cases _ c yes no both => cases 0 c (unnumberedAll yes) (unnumberedAll no) (unnumberedAll both)
  | check _ => check 0
  | admitted _ => admitted 0
def unnumberedAll : List Step → List Step
  | [] => []
  | s :: rest => s.unnumbered :: unnumberedAll rest
end

theorem unnumberedAll_eq_map (steps : List Step) : unnumberedAll steps = steps.map unnumbered := by
  induction steps with
  | nil => rfl
  | cons s rest ih => rw [unnumberedAll, ih, List.map_cons]

end Step

def Theorem.unnumbered (t : Theorem) : Theorem :=
  { t with
    line := 0
    requirements := t.requirements.map Sentence.unnumbered
    hypothesis := t.hypothesis.unnumbered
    proof := Step.unnumberedAll t.proof }

def Definition.unnumbered (d : Definition) : Definition :=
  { d with
    line := 0
    rules := d.rules.map Sentence.unnumbered
    proof := Step.unnumberedAll d.proof }

def Declaration.unnumbered : Declaration → Declaration
  | ofTheorem t => ofTheorem t.unnumbered
  | ofDefinition d => ofDefinition d.unnumbered

/-- The script with zero for the number of every line. -/
def Script.unnumbered (script : Script) : Script := script.map Declaration.unnumbered

-- ---------------------------------------------------------------- expressions

namespace Expr

theorem sign_steady (hs : isToken s = true) (a : α) : Steady n m 1 id (sign s a) (sign s a) :=
  phrase_steady ((literal_steady_of_isToken hs).andThen fun _ => .pure rfl)

theorem operator_steady : Steady n m 1 id operator operator := by
  have hsigns : ∀ x ∈ operatorSigns, isToken x.1 = true := forall_mem_of_all (by decide +kernel)
  refine .orElse (.firstOf (List.forall₂_same.mpr fun p hp => ?_)) (phrase_steady (name_steady.map ?_))
  · obtain ⟨x, hx, rfl⟩ := List.mem_map.mp hp
    exact sign_steady (hsigns x hx) x.2
  · exact fun _ _ => congrArg Operator.named

theorem commaSeparated_steady {p q : Parser α} (h : Steady n m 1 id p q) :
    Steady n m 0 id (commaSeparated p) (commaSeparated q) := by
  have hothers : Steady n m 0 id (many do token ","; p) (many do token ","; q) :=
    .manySame ((token_steady rfl).andThen fun _ => h)
  exact .orElse (.weaken (h.andThen fun _ => hothers.andThen fun _ => .pure rfl) (Nat.zero_le _)) (.pure rfl)

/-- What stands between brackets is shorter. -/
theorem bracketed_steady {view : α → γ} {p q : Parser α} (ho : isToken opening = true)
    (hc : isToken closing = true) (h : Steady n m c view p q) :
    Steady (n + 1) (m + 1) 1 view (bracketed opening closing p) (bracketed opening closing q) :=
  (token_steady ho).guard fun _ => h.bind fun _ _ hab => (token_steady hc).andThen fun _ => .pure hab

theorem arguments_steady {p q : Parser α} (ho : isToken opening = true) (hc : isToken closing = true)
    (h : Steady n m 1 id p q) : Steady (n + 1) (m + 1) 1 id
      (bracketed opening closing (commaSeparated p)) (bracketed opening closing (commaSeparated q)) :=
  bracketed_steady ho hc (commaSeparated_steady h)

section
variable {expr expr' : Parser Expr} (h : Steady n m 1 id expr expr')
include h

theorem quantified_steady : Steady (n + 1) (m + 1) 1 id (quantified expr) (quantified expr') := by
  have hbinder {n m : Nat} : Steady n m 1 id (sign "∀" Binder.all <|> sign "∃" Binder.some)
      (sign "∀" Binder.all <|> sign "∃" Binder.some) :=
    (sign_steady rfl _).orElse (sign_steady rfl _)
  exact phrase_steady <| hbinder.andThen fun _ => name_steady.andThen fun _ =>
    (bracketed_steady rfl rfl h).andThen fun _ => .pure rfl

theorem called_steady : Steady (n + 1) (m + 1) 1 id (called expr) (called expr') :=
  phrase_steady <| name_steady.andThen fun _ => (arguments_steady rfl rfl h).andThen fun _ => .pure rfl

theorem comprehension_steady : Steady (n + 1) (m + 1) 1 id (comprehension expr) (comprehension expr') :=
  phrase_steady <| bracketed_steady rfl rfl <| name_steady.andThen fun _ =>
    (token_steady rfl).andThen fun _ => h.andThen fun _ => .pure rfl

theorem term_steady : Steady (n + 1) (m + 1) 1 id (term expr) (term expr') := by
  refine .fixWithin fun {k l p q} hk hl hterm => ?_
  have h : Steady k l 1 id expr expr' := h.mono hk hl (Nat.le_refl 1)
  have hgroup (bracket : Bracket) {opening closing : String} (ho : isToken opening = true)
      (hc : isToken closing = true) : Steady (k + 1) (l + 1) 1 id
        (phrase (Expr.group bracket <$> bracketed opening closing (commaSeparated expr)))
        (phrase (Expr.group bracket <$> bracketed opening closing (commaSeparated expr'))) :=
    phrase_steady ((arguments_steady ho hc h).map fun _ _ => congrArg _)
  exact .firstOf <|
    .cons (quantified_steady h) <|
    .cons (phrase_steady ((token_steady rfl).guard fun _ => hterm.andThen fun _ => .pure rfl)) <|
    .cons (called_steady h) <|
    .cons (hgroup _ rfl rfl) <|
    .cons (comprehension_steady h) <|
    .cons (hgroup _ rfl rfl) <|
    .cons (numeral_steady.map fun _ _ => congrArg _) <|
    .cons (phrase_steady (name_steady.map fun _ _ => congrArg _)) <|
    .cons (bracketed_steady rfl rfl h) .nil

theorem chain_steady : Steady (n + 1) (m + 1) 1 id (chain expr) (chain expr') :=
  (term_steady h).andThen fun _ =>
    Steady.andThen (.manySame (operator_steady.andThen fun _ => (term_steady h).andThen fun _ => .pure rfl))
      fun _ => .pure rfl

end

theorem parser_steady : Steady n m 1 id parser parser :=
  .fixed fun h => phrase_steady ((chain_steady h).map fun _ _ => congrArg _)

end Expr

-- ---------------------------------------------------------------- steps

namespace Script

open Expr

theorem construct_steady {view : α → γ} {p q : Nat → Parser α}
    (h : ∀ line line', Steady n m c view (p line) (q line')) :
    Steady n m c view (construct p) (construct q) :=
  phrase_steady (here_steady.before fun a b _ => h a.line b.line)

theorem sentence_steady : Steady n m 1 Sentence.unnumbered sentence sentence :=
  construct_steady fun _ _ => parser_steady.andThen fun _ => endOfLine_steady.andThen fun _ => .pure rfl

theorem justification_steady : Steady n m 1 id justification justification := by
  have hadmission : Steady n m 1 id admission admission :=
    phrase_steady ((literal_steady_of_isToken rfl).andThen fun _ =>
      (notNext_steady isInk_of_isNameChar).andThen fun _ => .pure rfl)
  have hdefinition : Steady n m 1 id definitionReference definitionReference :=
    phrase_steady ((token_steady rfl).andThen fun _ => name_steady.andThen fun _ => .pure rfl)
  have htheorem : Steady n m 1 id theoremReference theoremReference :=
    phrase_steady (name_steady.andThen fun _ =>
      (arguments_steady rfl rfl parser_steady).lower.andThen fun _ => .pure rfl)
  exact (token_steady rfl).andThen fun _ =>
    .firstOf (.cons hadmission (.cons hdefinition (.cons htheorem .nil)))

theorem wordStep_steady {step : Nat → Step} (hword : isToken word = true)
    (hstep : ∀ line line', (step line).unnumbered = (step line').unnumbered) :
    Steady n m 1 Step.unnumbered (wordStep word step) (wordStep word step) :=
  construct_steady fun line line' => (token_steady hword).andThen fun _ =>
    endOfWord_steady.andThen fun _ => endOfLine_steady.andThen fun _ => .pure (hstep line line')

theorem choice_steady : Steady n m 1 Step.unnumbered choice choice :=
  construct_steady fun _ _ => (token_steady rfl).andThen fun _ => name_steady.andThen fun _ =>
    (token_steady rfl).andThen fun _ => parser_steady.andThen fun _ =>
      justification_steady.maybeSame.andThen fun _ => endOfLine_steady.andThen fun _ => .pure rfl

theorem claim_steady : Steady n m 1 Step.unnumbered claim claim :=
  construct_steady fun _ _ => parser_steady.andThen fun _ =>
    justification_steady.maybeSame.andThen fun _ => endOfLine_steady.andThen fun _ => .pure rfl

/-- The blocks stand behind a word and are shorter. -/
theorem distinction_steady {block block' : Parser (List Step)}
    (h : Steady n m c (List.map Step.unnumbered) block block') :
    Steady (n + 1) (m + 1) 1 Step.unnumbered (distinction block) (distinction block') := by
  refine construct_steady fun line line' => (token_steady rfl).guard fun _ =>
    (bracketed_steady rfl rfl parser_steady).lower.andThen fun condition =>
    endOfLine_steady.andThen fun _ => h.bind fun yes yes' hyes =>
    (token_steady rfl).andThen fun _ => endOfLine_steady.andThen fun _ => h.bind fun no no' hno =>
    (token_steady rfl).andThen fun _ => endOfLine_steady.andThen fun _ => h.bind fun both both' hboth =>
    .pure ?_
  simp only [Step.unnumbered, Step.unnumberedAll_eq_map, hyes, hno, hboth]

theorem block_steady : Steady n m 1 (List.map Step.unnumbered) block block := by
  refine .fixed fun h => phrase_steady <| (token_steady rfl).guard fun _ =>
    endOfLine_steady.andThen fun _ => Steady.bind (.many ?_) fun steps steps' hsteps =>
    (token_steady rfl).andThen fun _ => endOfLine_steady.andThen fun _ => .pure hsteps
  exact .firstOf <|
    .cons (wordStep_steady rfl fun _ _ => rfl) <|
    .cons (distinction_steady h).lower <|
    .cons (wordStep_steady rfl fun _ _ => rfl) <|
    .cons choice_steady <|
    .cons claim_steady .nil

-- ---------------------------------------------------------------- declarations

theorem theoremDeclaration_steady :
    Steady n m 1 Theorem.unnumbered theoremDeclaration theoremDeclaration := by
  refine construct_steady fun _ _ => (token_steady rfl).andThen fun _ => name_steady.andThen fun _ =>
    (arguments_steady rfl rfl name_steady).lower.andThen fun _ => (token_steady rfl).andThen fun _ => endOfLine_steady.andThen fun _ =>
    sentence_steady.many.bind fun requirements requirements' hrequirements =>
    (token_steady rfl).andThen fun _ => sentence_steady.bind fun hypothesis hypothesis' hhypothesis =>
    block_steady.bind fun proof proof' hproof => .pure ?_
  simp only [Theorem.unnumbered, Step.unnumberedAll_eq_map, hrequirements, hhypothesis, hproof]

theorem definitionDeclaration_steady :
    Steady n m 1 Definition.unnumbered definitionDeclaration definitionDeclaration := by
  refine construct_steady fun _ _ => (token_steady rfl).andThen fun _ => name_steady.andThen fun _ =>
    (token_steady rfl).andThen fun _ => endOfLine_steady.andThen fun _ =>
    sentence_steady.many.bind fun rules rules' hrules =>
    (token_steady rfl).andThen fun _ => endOfLine_steady.andThen fun _ =>
    block_steady.maybe.bind fun proof proof' hproof => .pure ?_
  have hproof : (proof.getD []).map Step.unnumbered = (proof'.getD []).map Step.unnumbered := by
    calc (proof.getD []).map Step.unnumbered
        = (proof.map (List.map Step.unnumbered)).getD [] := (Option.getD_map _ [] proof).symm
      _ = (proof'.map (List.map Step.unnumbered)).getD [] := by rw [hproof]
      _ = (proof'.getD []).map Step.unnumbered := Option.getD_map _ [] proof'
  simp only [Definition.unnumbered, Step.unnumberedAll_eq_map, hrules, hproof]

theorem declaration_steady : Steady n m 1 Declaration.unnumbered declaration declaration :=
  .orElse (theoremDeclaration_steady.map fun _ _ => congrArg _)
    (definitionDeclaration_steady.map fun _ _ => congrArg _)

theorem parser_steady : Steady n m 0 unnumbered parser parser :=
  newlines_steady.andThen fun _ =>
    Steady.bind (.many (declaration_steady.bind fun _ _ hd => newlines_steady.andThen fun _ => .pure hd))
      fun _ _ hscript => endOfInput_steady.andThen fun _ => .pure hscript

/-- A script is read up to its end, and so no slash has been passed over but those of comments. -/
theorem tidy_of_read (h : (parser i).result = some (script, rest)) : Tidy i.chars := by
  have hrest : rest.chars = [] := by
    obtain ⟨_, _, -, h⟩ := result_bind_eq_some h
    obtain ⟨_, _, -, h⟩ := result_bind_eq_some h
    obtain ⟨_, _, hend, h⟩ := result_bind_eq_some h
    cases h
    exact endOfInput_finishes hend
  have hsteady : Steady 0 0 0 unnumbered parser parser := parser_steady
  refine (hsteady.left i script rest h).2 ?_
  rw [hrest]
  exact .nil

/-- Layout does not matter: a script that can be read is read as the same script in every other layout,
apart from the numbers of the lines. -/
theorem parse_relaid (h : parse source = .ok script) (hrelaid : Relaid source.toList source'.toList) :
    ∃ script', parse source' = .ok script' ∧ script'.unnumbered = script.unnumbered := by
  obtain ⟨rest, hread⟩ := read_eq_ok_iff.mp h
  have haligned : Aligned (Input.ofString source).chars (Input.ofString source').chars :=
    ⟨hrelaid, tidy_of_read hread⟩
  have hboth := parser_steady.both _ _ (Nat.lt_succ_self _) (Nat.lt_succ_self _) haligned
  rw [hread] at hboth
  rcases hread' : (parser (.ofString source')).result with _ | ⟨script', rest'⟩ <;> rw [hread'] at hboth
  · cases hboth
  · cases hboth with
    | some hsame => exact ⟨script', read_eq_ok_iff.mpr ⟨rest', hread'⟩, hsame.1.symm⟩

/-- There are comments behind the head, on a line of their own, behind another comment and at the end. A
line feed has been put behind a carriage return, and the step stands before an empty line. -/
theorem parse_relaid_commented :
    let source := "theorem T(x):\n⇒ x = x // given/\n\x7b\rsorry\n\x7d"
    let source' := "theorem T(x):\t// about x\n // \n⇒ x = x // given/// for all\n\x7b\r\nsorry \n\n\x7d//"
    Relaid source.toList source'.toList ∧
      ∃ script script', parse source = .ok script ∧ parse source' = .ok script' ∧
        script'.unnumbered = script.unnumbered := by
  intro source source'
  have hcomment (text : String) (h : text.toList.all (!isLineEnd ·) = true) :
      IsLayout ('/' :: '/' :: text.toList) := .comment (by simpa using h)
  have hlines : ∃ s t, Relaid s t ∧ s = source.toList ∧ t = source'.toList := by
    refine ⟨_, _,
      .append_left "theorem T(x):".toList <|
        .line (c := '\n') rfl (.blank (c := '\t') rfl (hcomment " about x" rfl))
          (.line (c := '\n') (.blank (c := ' ') rfl (hcomment " " rfl)) rfl .nil) <|
      .append_left "⇒ x = x // given/".toList <|
        .line (c := '\n') rfl (hcomment " for all" rfl) .nil <|
      .append_left "\x7b".toList <|
        .line (c := '\r') rfl .nil (.line (c := '\n') .nil rfl .nil) <|
      .append_left "sorry".toList <|
        .line (c := '\n') rfl (.blank (c := ' ') rfl .nil) (.line (c := '\n') .nil rfl .nil) <|
      .append_left "\x7d".toList (.finish (hcomment "" rfl)), ?_, ?_⟩
    · decide +kernel
    · decide +kernel
  obtain ⟨_, _, hrelaid, rfl, rfl⟩ := hlines
  have hok : (parse source).isOk = true := by decide +kernel
  cases hscript : parse source with
  | error _ => rw [hscript] at hok; cases hok
  | ok script =>
    obtain ⟨script', hscript', hsame⟩ := parse_relaid hscript hrelaid
    exact ⟨hrelaid, script, script', rfl, hscript', hsame⟩

end Script

end ProofScript
