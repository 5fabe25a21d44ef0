import ProofScript.Proofs.ParsedNames

/-!
# Printing and parsing are inverse

A printed expression is a row of terms with operators between them: the printer writes no parentheses
around what the chain of these operators groups in the same way. So reading it back takes two steps.
The parser finds the terms and operators again (`term_takes`, `chain_takes`), since what is printed
after a term never continues it; and the tree of the chain is what was printed (`chainOf_grouped`).
-/

namespace ProofScript

open Text Text.Parser

-- ---------------------------------------------------------------- chains

namespace Chain

/-- Two chains with an operator between them. -/
def append (c : Chain) (op : Operator) (d : Chain) : Chain :=
  ⟨c.head, c.tail ++ (op, d.head) :: d.tail⟩

/-- Appends operators and terms one after the other. -/
def Tree.snocAll (t : Tree) (links : List (Operator × Expr)) : Tree :=
  links.foldl (fun t (op, e) => t.snoc op e) t

theorem tree_eq_snocAll (c : Chain) : c.tree = (Tree.leaf c.head).snocAll c.tail := rfl

/-- What binds tighter than the root goes into its right side. -/
theorem Tree.snocAll_node {links : List (Operator × Expr)}
    (h : ∀ link ∈ links, o.precedence < link.1.precedence) :
    (node o l r).snocAll links = node o l (r.snocAll links) := by
  induction links generalizing r with
  | nil => rfl
  | cons link links ih =>
    obtain ⟨hlink, hlinks⟩ := List.forall_mem_cons.mp h
    have hstep : (node o l r).snoc link.1 link.2 = node o l (r.snoc link.1 link.2) := by
      simp [snoc, hlink]
    calc (node o l r).snocAll (link :: links)
        = ((node o l r).snoc link.1 link.2).snocAll links := rfl
      _ = node o l (r.snocAll (link :: links)) := by rw [hstep, ih hlinks]; rfl

/-- An operator that binds no tighter than the root takes the whole tree over. -/
theorem Tree.snoc_eq_node {t : Tree} (h : ∀ o l r, t = node o l r → op.precedence ≤ o.precedence) :
    t.snoc op e = node op t (leaf e) := by
  cases t with
  | leaf a => rfl
  | node o l r =>
    have := h o l r rfl
    simp only [snoc, if_neg (Nat.not_lt.mpr this)]

theorem tree_append {c d : Chain} (hc : ∀ o l r, c.tree = .node o l r → op.precedence ≤ o.precedence)
    (hd : ∀ link ∈ d.tail, op.precedence < link.1.precedence) :
    (c.append op d).tree = .node op c.tree d.tree := by
  have hsplit : (c.append op d).tree = (c.tree.snoc op d.head).snocAll d.tail := by
    simp [append, tree_eq_snocAll, Tree.snocAll]
  rw [hsplit, Tree.snoc_eq_node hc, Tree.snocAll_node hd]
  rfl

end Chain

namespace Expr

/-- The terms and operators that an expression is printed as. -/
def chainOf : Expr → Chain
  | binary op l r =>
    (if l.level?.any (· < op.precedence) then ⟨l, []⟩ else l.chainOf).append op
      (if r.level?.any (· ≤ op.precedence) then ⟨r, []⟩ else r.chainOf)
  | e => ⟨e, []⟩

/-- The chain is a way to print the expression: its tree is the expression, and no operator in it
binds less than the one at the root. -/
structure Grouped (c : Chain) (e : Expr) : Prop where
  expr : c.expr = e
  root : ∀ o l r, c.tree = .node o l r → e.level? = some o.precedence
  links : ∀ link ∈ c.tail, ∃ p, e.level? = some p ∧ p ≤ link.1.precedence

theorem Grouped.term (e : Expr) : Grouped ⟨e, []⟩ e where
  expr := rfl
  root _ _ _ h := nomatch h
  links := List.forall_mem_nil _

theorem Grouped.append (hc : Grouped c l) (hd : Grouped d r)
    (hroot : ∀ o a b, c.tree = .node o a b → op.precedence ≤ o.precedence)
    (hleft : ∀ link ∈ c.tail, op.precedence ≤ link.1.precedence)
    (hright : ∀ link ∈ d.tail, op.precedence < link.1.precedence) :
    Grouped (c.append op d) (binary op l r) := by
  have htree := Chain.tree_append hroot hright
  refine ⟨?_, fun o a b h => ?_, fun link hlink => ⟨op.precedence, rfl, ?_⟩⟩
  · calc (c.append op d).expr = binary op c.expr d.expr := by rw [Chain.expr, htree]; rfl
      _ = binary op l r := by rw [hc.expr, hd.expr]
  · cases htree.symm.trans h
    rfl
  · rcases List.mem_append.mp hlink with hlink | hlink
    · exact hleft link hlink
    · rcases List.mem_cons.mp hlink with rfl | hlink
      · exact Nat.le_refl _
      · exact Nat.le_of_lt (hright link hlink)

/-- The parentheses that are left out are not needed. -/
theorem chainOf_grouped (e : Expr) : Grouped e.chainOf e := by
  induction e using Expr.induction with
  | binary op l r ihl ihr =>
    simp only [chainOf]
    refine .append (l := l) (r := r) ?_ ?_ (fun o a b h => ?_) (fun link h => ?_) fun link h => ?_
    · split
      · exact .term l
      · exact ihl
    · split
      · exact .term r
      · exact ihr
    · split at h
      · cases h
      · rename_i hl
        rw [ihl.root o a b h] at hl
        simpa using hl
    · split at h
      · cases h
      · rename_i hl
        obtain ⟨p, hp, hle⟩ := ihl.links link h
        simp only [hp, Option.any_some, decide_eq_true_eq] at hl
        omega
    · split at h
      · cases h
      · rename_i hr
        obtain ⟨p, hp, hle⟩ := ihr.links link h
        simp only [hp, Option.any_some, decide_eq_true_eq] at hr
        omega
  | _ => exact .term _

-- ---------------------------------------------------------------- printed chains

/-- A term between operators: an operator expression is put in parentheses. -/
def termText (e : Expr) : String := parenthesized e.level?.isSome e.text

def linkText (link : Operator × Expr) : List Char :=
  ' ' :: link.1.symbol.toList ++ ' ' :: link.2.termText.toList

end Expr

def Chain.chars (c : Chain) : List Char := c.head.termText.toList ++ c.tail.flatMap Expr.linkText

theorem Chain.chars_append (c : Chain) (op : Operator) (d : Chain) :
    (c.append op d).chars = c.chars ++ ' ' :: op.symbol.toList ++ ' ' :: d.chars := by
  simp [chars, append, Expr.linkText, List.flatMap_append]

namespace Expr

theorem chars_chainOf (e : Expr) : e.chainOf.chars = e.text.toList := by
  have hside (d : Expr) (p : Nat → Bool) (ih : d.chainOf.chars = d.text.toList) :
      (if d.level?.any p then ⟨d, []⟩ else d.chainOf : Chain).chars =
        (parenthesized (d.level?.any p) d.text).toList := by
    cases hp : d.level?.any p with
    | false => simpa [parenthesized] using ih
    | true =>
      have hsome : d.level?.isSome = true := by
        cases hlevel : d.level? with
        | none => rw [hlevel] at hp; cases hp
        | some q => rfl
      simp [Chain.chars, termText, hsome]
  induction e using Expr.induction with
  | binary op l r ihl ihr =>
    simp only [chainOf, Chain.chars_append, text, hside l _ ihl, hside r _ ihr]
    simp
  | _ => simp [chainOf, Chain.chars, termText, level?, parenthesized]

-- ---------------------------------------------------------------- printed terms

section
attribute [local simp] termText text level? parenthesized

theorem termText_var : (var x).termText.toList = x.toList := by
  simp

theorem termText_call :
    (call f args).termText.toList = f.toList ++ '(' :: (textAll args).toList ++ [')'] := by
  simp

theorem termText_binary :
    (binary op l r).termText.toList = '(' :: (binary op l r).text.toList ++ [')'] := by
  simp [-text]

theorem termText_not : (not e).termText.toList = '¬' :: e.termText.toList := by
  simp

theorem termText_all :
    (bind .all x e).termText.toList = '∀' :: x.toList ++ '(' :: e.text.toList ++ [')'] := by
  simp

theorem termText_some :
    (bind .some x e).termText.toList = '∃' :: x.toList ++ '(' :: e.text.toList ++ [')'] := by
  simp

theorem termText_those : (bind .those x e).termText.toList =
    '\x7b' :: x.toList ++ ' ' :: ':' :: ' ' :: e.text.toList ++ ['\x7d'] := by
  simp

theorem termText_tuple :
    (group .tuple items).termText.toList = '[' :: (textAll items).toList ++ [']'] := by
  simp

theorem termText_set :
    (group .set items).termText.toList = '\x7b' :: (textAll items).toList ++ ['\x7d'] := by
  simp

end

/-- The items after the first, each with the comma before it. -/
def othersText (items : List Expr) : List Char := items.flatMap fun e => ',' :: ' ' :: e.text.toList

theorem textAll_cons (e : Expr) (items : List Expr) :
    (textAll (e :: items)).toList = e.text.toList ++ othersText items := by
  induction items generalizing e with
  | nil => simp [textAll, othersText]
  | cons d items ih => simp [textAll, othersText, ih]

-- ---------------------------------------------------------------- what follows

/-- The brackets that close. -/
def closings : List Char := [')', ']', '\x7d']

/-- The characters that end an expression. -/
def endings : List Char := ',' :: closings

theorem mem_endings (h : c ∈ closings) : c ∈ endings := List.mem_cons_of_mem _ h

/-- After a whole expression there is nothing, or a bracket or comma that ends it. -/
def Ends (rest : List Char) : Prop := ∀ c ∈ rest.head?, c ∈ endings

theorem ends_cons (h : c ∈ closings) (rest : List Char) : Ends (c :: rest) := by
  intro d hd
  cases hd
  exact mem_endings h

/-- What follows a term does not go on with it: a name does not become longer or a call, a numeral
gets no fraction, and no comprehension begins. -/
structure Stops (rest : List Char) : Prop where
  word : rest.head?.any isNameChar = false
  point : rest.head? ≠ some '.'
  after : ∃ text, Spaced rest text ∧ Solid text ∧ text.head? ≠ some '(' ∧ text.head? ≠ some ':'

theorem Stops.digit (h : Stops rest) : rest.head?.any Char.isDigit = false := by
  cases rest with
  | nil => rfl
  | cons c cs =>
    have hword : isNameChar c = false := by simpa using h.word
    cases hdigit : c.isDigit with
    | false => exact hdigit
    | true => rw [isNameChar_of_isDigit hdigit] at hword; cases hword

theorem Ends.cases (h : Ends rest) :
    rest = [] ∨ ∃ c text, rest = c :: text ∧ c ∈ endings := by
  cases rest with
  | nil => exact .inl rfl
  | cons c text => exact .inr ⟨c, text, rfl, h c rfl⟩

theorem isSolid_of_endings : ∀ c ∈ endings, isSolid c = true := forall_mem_of_all (by decide)

theorem Ends.solid (h : Ends rest) : Solid rest := by
  rcases h.cases with rfl | ⟨c, text, rfl, hc⟩
  · rfl
  · exact solid_cons (isSolid_of_endings c hc) text

theorem Ends.stops (h : Ends rest) : Stops rest := by
  have hending : ∀ c ∈ endings, c ∈ special ∧ c ≠ '.' ∧ c ≠ '(' ∧ c ≠ ':' :=
    forall_mem_of_all (by decide)
  rcases h.cases with rfl | ⟨c, text, rfl, hc⟩
  · exact ⟨rfl, nofun, [], .self _, rfl, nofun, nofun⟩
  · obtain ⟨hspecial, hpoint, hopen, hcolon⟩ := hending c hc
    refine ⟨?_, ?_, _, .self _, h.solid, ?_, ?_⟩
    · simp [not_isNameChar_of_special c hspecial]
    all_goals simpa

-- ---------------------------------------------------------------- operators

/-- The characters that are signs of operators. -/
def signChars : List Char := operatorSigns.flatMap fun link => link.1.toList

theorem special_of_signChars : ∀ c ∈ signChars, c ∈ special := forall_mem_of_all (by decide +kernel)

theorem single_of_operatorSigns : ∀ link ∈ operatorSigns, ∃ c ∈ signChars, link.1.toList = [c] := by
  have hany : ∀ link ∈ operatorSigns, (signChars.any fun c => link.1.toList == [c]) = true :=
    forall_mem_of_all (by decide +kernel)
  intro link hlink
  simpa using List.any_eq_true.mp (hany link hlink)

/-- The sign of an operator is one character and stands first for that operator. -/
theorem symbol_cases (op : Operator) (h : op.Spelled) :
    (∃ c, op.symbol.toList = [c] ∧ c ∈ signChars ∧
      ∃ s, operatorSigns.find? (fun link => link.1.toList == [c]) = some (s, op)) ∨
    ∃ x, op = .named x ∧ isName x.toList = true := by
  cases op with
  | named x => exact .inr ⟨x, rfl, h⟩
  | _ => exact .inl ⟨_, rfl, by decide +kernel, _, rfl⟩

theorem sign_refuses (h : Spaced ahead cs) (hs : Solid cs) (hc : s.toList.head? = some c)
    (hne : cs.head? ≠ some c) (a : α) : Refuses (sign s a) ahead :=
  phrase_refuses h hs ((literal_refuses hc hne).bind _)

theorem sign_takes {s : String} (h : Spaced ahead (s.toList ++ rest)) (hs : Solid (s.toList ++ rest))
    (a : α) : Takes (sign s a) ahead a rest :=
  phrase_takes h hs ((literal_takes s rest).bind (.pure a))

section
variable {signs : List (String × Operator)} (hsingle : ∀ link ∈ signs, ∃ c, link.1.toList = [c])
include hsingle

theorem signs_take (hfind : signs.find? (fun link => link.1.toList == [c]) = some (s, op))
    (h : Spaced ahead (c :: rest)) (hs : Solid (c :: rest)) :
    Takes (firstOf (signs.map fun (s, op) => sign s op)) ahead op rest := by
  induction signs with
  | nil => cases hfind
  | cons link signs ih =>
    obtain ⟨⟨d, hd⟩, hsingle⟩ := List.forall_mem_cons.mp hsingle
    by_cases hc : d = c
    · subst hc
      have hlink : link = (s, op) := by simpa [List.find?_cons, hd] using hfind
      subst hlink
      have htext : d :: rest = s.toList ++ rest := by simp [show s.toList = [d] from hd]
      exact (sign_takes (htext ▸ h) (htext ▸ hs) op).left _
    · have hrest : signs.find? (fun link => link.1.toList == [c]) = some (s, op) := by
        simpa [List.find?_cons, hd, hc] using hfind
      refine .right (sign_refuses h hs (by rw [hd]; rfl) ?_ _) (ih hsingle hrest)
      simpa using Ne.symm hc

end

theorem operator_takes (hop : op.Spelled) (cs : List Char) :
    Takes operator (' ' :: op.symbol.toList ++ ' ' :: cs) op (' ' :: cs) := by
  have hsingle : ∀ link ∈ operatorSigns, ∃ c, link.1.toList = [c] := fun link hlink =>
    (single_of_operatorSigns link hlink).imp fun _ h => h.2
  rcases symbol_cases op hop with ⟨c, hsymbol, hc, s, hfind⟩ | ⟨x, rfl, hx⟩
  · have hsolid : ∀ c ∈ signChars, isSolid c = true := forall_mem_of_all (by decide +kernel)
    rw [hsymbol]
    exact (signs_take hsingle hfind (.space _) (solid_cons (hsolid c hc) _)).left _
  · obtain ⟨c, rest, hcs, hstart, _⟩ := isName_cons hx
    have hc := not_special_of_isNameChar (isNameChar_of_isNameStart hstart)
    have hsolid : Solid (x.toList ++ ' ' :: cs) := by
      rw [hcs]
      exact solid_of_not_special hc
    have hname : Takes name (x.toList ++ ' ' :: cs) x (' ' :: cs) := name_takes hx rfl (.self _)
    refine .right (.firstOf ?_) (phrase_takes (.space _) hsolid (hname.map _))
    intro p hp
    obtain ⟨link, hlink, rfl⟩ := List.mem_map.mp hp
    obtain ⟨d, hd, htext⟩ := single_of_operatorSigns link hlink
    refine sign_refuses (.space _) hsolid (by rw [htext]; rfl) ?_ _
    rw [hcs]
    rintro ⟨⟩
    exact hc (special_of_signChars _ hd)

theorem operator_refuses (h : Ends rest) : Refuses operator rest := by
  have hending : ∀ c ∈ endings, c ∉ signChars ∧ isNameStart c = false :=
    forall_mem_of_all (by decide +kernel)
  refine .orElse (.firstOf fun p hp => ?_)
    (phrase_refuses (.self _) h.solid ((?_ : Refuses name rest).map _))
  · obtain ⟨link, hlink, rfl⟩ := List.mem_map.mp hp
    obtain ⟨d, hd, htext⟩ := single_of_operatorSigns link hlink
    exact sign_refuses (.self _) h.solid (by rw [htext]; rfl)
      (fun hrest => (hending d (h d hrest)).1 hd) _
  · refine name_refuses (.self _) h.solid ?_
    rcases h.cases with rfl | ⟨c, cs, rfl, hc⟩
    · rfl
    · simpa using (hending c hc).2

theorem stops_link (hop : op.Spelled) (rest : List Char) : Stops (linkText (op, e) ++ rest) := by
  refine ⟨rfl, by simp [linkText], op.symbol.toList ++ ' ' :: (e.termText.toList ++ rest), ?_, ?_⟩
  · exact .inr (by simp [linkText])
  · rcases symbol_cases op hop with ⟨c, hsymbol, hc, _⟩ | ⟨x, rfl, hx⟩
    · have hsign : ∀ c ∈ signChars, isSolid c = true ∧ c ≠ '(' ∧ c ≠ ':' :=
        forall_mem_of_all (by decide +kernel)
      obtain ⟨hsolid, hopen, hcolon⟩ := hsign c hc
      rw [hsymbol]
      exact ⟨solid_cons hsolid _, by simpa, by simpa⟩
    · obtain ⟨c, cs, hcs, hstart, _⟩ := isName_cons hx
      have hc := not_special_of_isNameChar (isNameChar_of_isNameStart hstart)
      have hne (d) (hd : d ∈ special) : some c ≠ some d := by
        rintro ⟨⟩
        exact hc hd
      show Solid (x.toList ++ _) ∧ (x.toList ++ _).head? ≠ _ ∧ (x.toList ++ _).head? ≠ _
      rw [hcs]
      exact ⟨solid_of_not_special hc, hne _ (by decide), hne _ (by decide)⟩

-- ---------------------------------------------------------------- brackets and lists

theorem bracketed_takes {opening closing : String} {p : Parser α} (ho : opening.toList = [o])
    (hc : closing.toList = [c]) (hos : isSolid o = true) (hcs : isSolid c = true)
    (h : Spaced ahead (o :: cs)) (hp : Takes p cs a (c :: rest)) :
    Takes (bracketed opening closing p) ahead a rest := by
  have hopen : opening.toList ++ cs = o :: cs := by rw [ho]; rfl
  have hclose : closing.toList ++ rest = c :: rest := by rw [hc]; rfl
  refine (token_takes (hopen ▸ h) (hopen ▸ solid_cons hos cs)).bind (hp.bind ?_)
  exact (token_takes (hclose ▸ .self _) (hclose ▸ solid_cons hcs rest)).bind (.pure a)

theorem bracketed_refuses {opening : String} (h : Spaced ahead cs) (hs : Solid cs)
    (ho : opening.toList.head? = some o) (hne : cs.head? ≠ some o) (p : Parser α) :
    Refuses (bracketed opening closing p) ahead :=
  (token_refuses h hs ho hne).bind _

/-- Reads what is printed for expressions that take less than `m` characters, and nothing where a
bracket closes. -/
structure ReadsBelow (m : Nat) (expr : Parser Expr) : Prop where
  takes {e : Expr} {ahead rest : List Char} : e.Spelled → e.text.toList.length < m → Ends rest →
    Spaced ahead (e.text.toList ++ rest) → Takes expr ahead e rest
  refuses {c : Char} {rest : List Char} : c ∈ closings → Refuses expr (c :: rest)

theorem ends_othersText (hc : c ∈ closings) (items : List Expr) (rest : List Char) :
    Ends (othersText items ++ c :: rest) := by
  cases items with
  | nil => exact ends_cons hc rest
  | cons e items =>
    intro d hd
    cases hd
    exact List.mem_cons_self

section
variable {expr : Parser Expr} (hexpr : ReadsBelow m expr)
include hexpr

theorem others_take (hc : c ∈ closings) (hitems : ∀ e ∈ items, e.Spelled)
    (hlen : (othersText items).length ≤ m) (rest : List Char) :
    Row (do token ","; expr) (othersText items ++ c :: rest) items (c :: rest) := by
  induction items with
  | nil =>
    have hcomma : ∀ c ∈ closings, c ≠ ',' := forall_mem_of_all (by decide)
    have hne : (c :: rest).head? ≠ some ',' := by simpa using hcomma c hc
    exact .nil ((token_refuses (.self _) (ends_cons hc rest).solid rfl hne).bind _)
  | cons e items ih =>
    obtain ⟨he, hitems⟩ := List.forall_mem_cons.mp hitems
    have htext : othersText (e :: items) ++ c :: rest =
        ',' :: ' ' :: (e.text.toList ++ (othersText items ++ c :: rest)) := by simp [othersText]
    have hlength : (othersText (e :: items)).length =
        2 + e.text.toList.length + (othersText items).length := by
      simp [othersText]
      omega
    rw [htext]
    refine .cons ((token_takes (.self _) (solid_cons rfl _)).bind
      (hexpr.takes he (by omega) (ends_othersText hc items rest) (.space _))) ?_ (ih hitems (by omega))
    simp
    omega

theorem commaSeparated_takes (hc : c ∈ closings) (hitems : ∀ e ∈ items, e.Spelled)
    (hlen : (textAll items).toList.length < m) :
    Takes (commaSeparated expr) ((textAll items).toList ++ c :: rest) items (c :: rest) := by
  cases items with
  | nil => exact .right ((hexpr.refuses hc).bind _) (.pure [])
  | cons e items =>
    obtain ⟨he, hitems⟩ := List.forall_mem_cons.mp hitems
    rw [textAll_cons, List.length_append] at hlen
    rw [textAll_cons, List.append_assoc]
    have hfirst := hexpr.takes he (by omega) (ends_othersText hc items rest) (.self _)
    have hothers := (others_take hexpr hc hitems (by omega) rest).many
    exact (hfirst.bind (hothers.map _)).left _

end

-- ---------------------------------------------------------------- kinds of terms

/-- The kinds of terms in the order in which they are tried, each with the characters it may begin
with. -/
def kinds (expr term : Parser Expr) : List ((Char → Bool) × Parser Expr) := [
  ((fun c => c == '∀' || c == '∃'), quantified expr),
  ((· == '¬'), phrase do token "¬"; return .not (← term)),
  (isNameStart, called expr),
  ((· == '['), phrase (.group .tuple <$> bracketed "[" "]" (commaSeparated expr))),
  ((· == '\x7b'), comprehension expr),
  ((· == '\x7b'), phrase (.group .set <$> bracketed "\x7b" "\x7d" (commaSeparated expr))),
  (Char.isDigit, .var <$> numeral),
  (isNameStart, phrase (.var <$> name)),
  ((· == '('), bracketed "(" ")" expr)]

/-- What the kinds of terms begin with. -/
def openings : List (Char → Bool) := [
  fun c => c == '∀' || c == '∃', (· == '¬'), isNameStart, (· == '['), (· == '\x7b'), (· == '\x7b'),
  Char.isDigit, isNameStart, (· == '(')]

theorem openings_of_kinds (expr term : Parser Expr) : (kinds expr term).map (·.1) = openings := rfl

/-- One more level of negations than `term`. -/
def oneTerm (expr term : Parser Expr) : Parser Expr := firstOf ((kinds expr term).map (·.2))

theorem term_eq_fix (expr : Parser Expr) : term expr = fix (oneTerm expr) := rfl

theorem head_ne {cs : List Char} {opens : Char → Bool} (h : cs.head?.any opens = false)
    (hc : opens c = true) : cs.head? ≠ some c := by
  intro hcs
  rw [hcs, Option.any_some, hc] at h
  cases h

section
variable {ahead cs : List Char} (h : Spaced ahead cs) (hs : Solid cs) (expr term : Parser Expr)
include h hs

/-- A kind of term does not begin with any other character. -/
theorem kinds_refuse :
    ∀ kind ∈ kinds expr term, cs.head?.any kind.1 = false → Refuses kind.2 ahead := by
  have hgroup {opening closing : String} {o : Char} {b : Bracket} (ho : opening.toList.head? = some o)
      (hne : cs.head? ≠ some o) :
      Refuses (phrase (Expr.group b <$> bracketed opening closing (commaSeparated expr))) ahead :=
    phrase_refuses h hs ((bracketed_refuses (.self _) hs ho hne _).map _)
  simp only [kinds, List.forall_mem_cons]
  refine ⟨fun hc => ?_, fun hc => ?_, fun hc => ?_, fun hc => hgroup rfl (head_ne hc rfl), fun hc => ?_,
    fun hc => hgroup rfl (head_ne hc rfl), fun hc => (numeral_refuses h hs hc).map _, fun hc => ?_,
    fun hc => bracketed_refuses h hs rfl (head_ne hc rfl) _, List.forall_mem_nil _⟩
  · exact phrase_refuses h hs (.bind (.orElse (sign_refuses (.self _) hs rfl (head_ne hc rfl) _)
      (sign_refuses (.self _) hs rfl (head_ne hc rfl) _)) _)
  · exact phrase_refuses h hs ((token_refuses (.self _) hs rfl (head_ne hc rfl)).bind _)
  · exact phrase_refuses h hs ((name_refuses (.self _) hs hc).bind _)
  · exact phrase_refuses h hs (bracketed_refuses (.self _) hs rfl (head_ne hc rfl) _)
  · exact phrase_refuses h hs ((name_refuses (.self _) hs hc).map _)

theorem oneTerm_refuses (hc : ∀ opens ∈ openings, cs.head?.any opens = false) :
    Refuses (oneTerm expr term) ahead := by
  refine .firstOf fun p hp => ?_
  obtain ⟨kind, hkind, rfl⟩ := List.mem_map.mp hp
  have hopens : kind.1 ∈ openings := openings_of_kinds expr term ▸ List.mem_map_of_mem hkind
  exact kinds_refuse h hs expr term kind hkind (hc _ hopens)

/-- The first kind that may begin so counts, unless it refuses for another reason. -/
theorem oneTerm_takes (i : Nat) {expr term : Parser Expr} (hp : (kinds expr term)[i]? = some kind)
    (hbefore : ∀ k ∈ (kinds expr term).take i, cs.head?.any k.1 = false ∨ Refuses k.2 ahead)
    (htakes : Takes kind.2 ahead e rest) : Takes (oneTerm expr term) ahead e rest := by
  refine .firstOf i (p := kind.2) (by simp [hp]) (fun q hq => ?_) htakes
  rw [← List.map_take] at hq
  obtain ⟨k, hk, rfl⟩ := List.mem_map.mp hq
  rcases hbefore k hk with hc | hc
  · exact kinds_refuse h hs expr term k (List.mem_of_mem_take hk) hc
  · exact hc

theorem oneTerm_takes_first (i : Nat) {expr term : Parser Expr}
    (hp : (kinds expr term)[i]? = some kind)
    (hbefore : ∀ opens ∈ openings.take i, cs.head?.any opens = false)
    (htakes : Takes kind.2 ahead e rest) : Takes (oneTerm expr term) ahead e rest := by
  refine oneTerm_takes h hs i hp (fun k hk => .inl (hbefore _ ?_)) htakes
  rw [← openings_of_kinds expr term, ← List.map_take]
  exact List.mem_map_of_mem hk

end

-- ---------------------------------------------------------------- terms

theorem name_cons {x : String} (hx : isName x.toList = true) :
    ∃ c cs, x.toList = c :: cs ∧ isNameStart c = true ∧ c ∉ special := by
  obtain ⟨c, cs, hcs, hstart, _⟩ := isName_cons hx
  exact ⟨c, cs, hcs, hstart, not_special_of_isNameChar (isNameChar_of_isNameStart hstart)⟩

theorem numeral_cons {cs : List Char} (h : IsNumeral cs) :
    ∃ c rest, cs = c :: rest ∧ c.isDigit = true := by
  obtain ⟨whole, fraction, hne, hwhole, _, htext⟩ := h
  obtain ⟨c, more, rfl⟩ := List.exists_cons_of_ne_nil hne
  rcases htext with rfl | ⟨_, rfl⟩
  · exact ⟨c, more, rfl, hwhole c (by simp)⟩
  · exact ⟨c, _, rfl, hwhole c (by simp)⟩

theorem word_ends_at_paren (cs : List Char) : ('(' :: cs).head?.any isNameChar = false :=
  not_isNameChar_of_special '(' (by decide)

/-- What a printed term begins with: a name that is all of it or is called, a numeral, or a
character of its own. -/
theorem termText_cases {e : Expr} (he : e.Spelled) :
    (∃ x, e = var x ∧ isName x.toList = true) ∨ (∃ x, e = var x ∧ IsNumeral x.toList) ∨
    (∃ f args, e = call f args ∧ isName f.toList = true) ∨
    ∃ c ∈ ['(', '¬', '∀', '∃', '\x7b', '['], ∃ cs, e.termText.toList = c :: cs := by
  cases e with
  | var x =>
    rcases spelled_var.mp he with hx | hx
    · exact .inl ⟨x, rfl, hx⟩
    · exact .inr (.inl ⟨x, rfl, hx⟩)
  | call f args => exact .inr (.inr (.inl ⟨f, args, rfl, (spelled_call.mp he).1⟩))
  | binary op l r => exact .inr (.inr (.inr ⟨'(', by decide, _, termText_binary⟩))
  | not e => exact .inr (.inr (.inr ⟨'¬', by decide, _, termText_not⟩))
  | bind q x body =>
    cases q with
    | all => exact .inr (.inr (.inr ⟨'∀', by decide, _, termText_all⟩))
    | some => exact .inr (.inr (.inr ⟨'∃', by decide, _, termText_some⟩))
    | those => exact .inr (.inr (.inr ⟨'\x7b', by decide, _, termText_those⟩))
  | group g items =>
    cases g with
    | tuple => exact .inr (.inr (.inr ⟨'[', by decide, _, termText_tuple⟩))
    | set => exact .inr (.inr (.inr ⟨'\x7b', by decide, _, termText_set⟩))

/-- No printed term begins with a blank or a comment. -/
theorem solid_term {e : Expr} (he : e.Spelled) (rest : List Char) :
    Solid (e.termText.toList ++ rest) := by
  rcases termText_cases he with ⟨x, rfl, hx⟩ | ⟨x, rfl, hx⟩ | ⟨f, args, rfl, hf⟩ | ⟨c, hc, cs, htext⟩
  · obtain ⟨c, cs, hcs, _, hc⟩ := name_cons hx
    rw [termText_var, hcs]
    exact solid_of_not_special hc
  · obtain ⟨c, cs, hcs, hc⟩ := numeral_cons hx
    rw [termText_var, hcs]
    exact solid_of_not_special (not_special_of_isDigit hc)
  · obtain ⟨c, cs, hcs, _, hc⟩ := name_cons hf
    rw [termText_call, hcs]
    exact solid_of_not_special hc
  · have hopen : ∀ c ∈ ['(', '¬', '∀', '∃', '\x7b', '['], isSolid c = true :=
      forall_mem_of_all (by decide)
    rw [htext]
    exact solid_cons (hopen c hc) _

/-- No term is printed as a name with a colon behind it, so that a set with its elements is not
mistaken for a comprehension. -/
theorem declared_refuses {e : Expr} (he : e.Spelled) (hrest : Stops rest) (f : String → Parser α) :
    Refuses (do let x ← name; token ":"; f x) (e.termText.toList ++ rest) := by
  have hsolid := solid_term he rest
  rcases termText_cases he with ⟨x, rfl, hx⟩ | ⟨x, rfl, hx⟩ | ⟨g, args, rfl, hg⟩ | ⟨c, hc, cs, htext⟩
  · obtain ⟨after, hspaced, hafter, _, hcolon⟩ := hrest.after
    rw [termText_var]
    exact .after (name_takes hx hrest.word (.self _)) ((token_refuses hspaced hafter rfl hcolon).bind _)
  · obtain ⟨c, cs, hcs, hc⟩ := numeral_cons hx
    refine (name_refuses (.self _) hsolid ?_).bind _
    rw [termText_var, hcs]
    simpa using isNameStart_of_isDigit hc
  · rw [termText_call, List.append_assoc, List.append_assoc]
    refine .after (name_takes hg (word_ends_at_paren _) (.self _)) ?_
    exact (token_refuses (c := ':') (.self _) (solid_cons rfl _) rfl (by simp)).bind _
  · have hopen : ∀ c ∈ ['(', '¬', '∀', '∃', '\x7b', '['], isNameStart c = false :=
      forall_mem_of_all (by decide +kernel)
    refine (name_refuses (.self _) hsolid ?_).bind _
    rw [htext]
    simpa using hopen c hc

theorem stops_links {links : List (Operator × Expr)} (hlinks : ∀ link ∈ links, link.1.Spelled)
    (hrest : Ends rest) : Stops (links.flatMap linkText ++ rest) := by
  cases links with
  | nil => exact hrest.stops
  | cons link links =>
    rw [List.flatMap_cons, List.append_assoc]
    exact stops_link (hlinks link (by simp)) _

end Expr

/-- All names in the chain are names of the language. -/
structure Chain.Spelled (c : Chain) : Prop where
  head : c.head.Spelled
  tail : ∀ link ∈ c.tail, link.1.Spelled ∧ link.2.Spelled

theorem Chain.Spelled.append (hc : Chain.Spelled c) (hop : Operator.Spelled op) (hd : Chain.Spelled d) :
    (c.append op d).Spelled :=
  ⟨hc.head, List.forall_mem_append.mpr ⟨hc.tail, List.forall_mem_cons.mpr ⟨⟨hop, hd.head⟩, hd.tail⟩⟩⟩

namespace Expr

theorem chainOf_spelled {e : Expr} (he : e.Spelled) : e.chainOf.Spelled := by
  induction e using Expr.induction with
  | binary op l r ihl ihr =>
    obtain ⟨hop, hl, hr⟩ := spelled_binary.mp he
    have hside (d : Expr) (p : Bool) (hd : d.Spelled) (ih : d.chainOf.Spelled) :
        (if p then ⟨d, []⟩ else d.chainOf : Chain).Spelled := by
      split
      · exact ⟨hd, List.forall_mem_nil _⟩
      · exact ih
    exact (hside l _ hl (ihl hl)).append hop (hside r _ hr (ihr hr))
  | _ => exact ⟨he, List.forall_mem_nil _⟩

theorem text_eq_links (e : Expr) (rest : List Char) : e.text.toList ++ rest =
    e.chainOf.head.termText.toList ++ (e.chainOf.tail.flatMap linkText ++ rest) := by
  rw [← chars_chainOf, Chain.chars, List.append_assoc]

theorem solid_text {e : Expr} (he : e.Spelled) (rest : List Char) : Solid (e.text.toList ++ rest) := by
  rw [text_eq_links]
  exact solid_term (chainOf_spelled he).head _

theorem declared_refuses_items (hitems : ∀ e ∈ items, Spelled e) (f : String → Parser α)
    (rest : List Char) : Refuses (do let x ← name; token ":"; f x)
      ((textAll items).toList ++ '\x7d' :: rest) := by
  cases items with
  | nil =>
    have hstart : ('\x7d' :: rest).head?.any isNameStart = false :=
      (by decide +kernel : isNameStart '\x7d' = false)
    exact (name_refuses (.self _) (solid_cons rfl _) hstart).bind _
  | cons e items =>
    obtain ⟨he, _⟩ := List.forall_mem_cons.mp hitems
    have hchain := chainOf_spelled he
    rw [textAll_cons, List.append_assoc, text_eq_links]
    refine declared_refuses hchain.head (stops_links (fun link hlink => (hchain.tail link hlink).1) ?_) f
    exact ends_othersText (by decide) items rest

section
variable {expr : Parser Expr} (hexpr : ReadsBelow m expr)
include hexpr

theorem body_takes {body : Expr} (hbody : body.Spelled) (hlen : body.text.toList.length < m) :
    Takes (bracketed "(" ")" expr) ('(' :: (body.text.toList ++ ')' :: rest)) body rest :=
  bracketed_takes rfl rfl rfl rfl (.self _)
    (hexpr.takes hbody hlen (ends_cons (by decide) _) (.self _))

theorem items_take (opening closing : String) (ho : opening.toList = [o]) (hc : closing.toList = [c])
    (hos : isSolid o = true) (hcs : isSolid c = true)
    (hclose : c ∈ closings) (hitems : ∀ e ∈ items, e.Spelled)
    (hlen : (textAll items).toList.length < m) (rest : List Char) :
    Takes (bracketed opening closing (commaSeparated expr))
      (o :: ((textAll items).toList ++ c :: rest)) items rest :=
  bracketed_takes ho hc hos hcs (.self _) (commaSeparated_takes hexpr hclose hitems hlen)

theorem quantified_takes {sign : Char} {q : Binder}
    (hq : (sign, q) = ('∀', .all) ∨ (sign, q) = ('∃', .some))
    (hx : isName x.toList = true) (hbody : body.Spelled) (hlen : body.text.toList.length < m)
    (h : Spaced ahead (sign :: (x.toList ++ '(' :: (body.text.toList ++ ')' :: rest)))) :
    Takes (quantified expr) ahead (bind q x body) rest := by
  have hafter (q : Binder) : Takes (do
      let x ← name
      let body ← bracketed "(" ")" expr
      return bind q x body)
        (x.toList ++ '(' :: (body.text.toList ++ ')' :: rest)) (bind q x body) rest :=
    (name_takes hx (word_ends_at_paren _) (.self _)).bind
      ((body_takes hexpr hbody hlen).map _)
  rcases hq with hq | hq <;> cases hq
  · refine phrase_takes h (solid_cons rfl _) (.bind (.left ?_ _) (hafter .all))
    exact sign_takes (.self _) (solid_cons rfl _) _
  · refine phrase_takes h (solid_cons rfl _) (.bind (.right ?_ ?_) (hafter .some))
    · exact sign_refuses (c := '∀') (.self _) (solid_cons rfl _) rfl (by simp) _
    · exact sign_takes (.self _) (solid_cons rfl _) _

theorem comprehension_takes (hx : isName x.toList = true) (hbody : body.Spelled)
    (hlen : body.text.toList.length < m)
    (h : Spaced ahead
      ('\x7b' :: (x.toList ++ ' ' :: ':' :: ' ' :: (body.text.toList ++ '\x7d' :: rest)))) :
    Takes (comprehension expr) ahead (bind .those x body) rest := by
  refine phrase_takes h (solid_cons rfl _)
    (bracketed_takes rfl rfl rfl rfl (.self _) ?_)
  refine (name_takes hx (by rfl) (.self _)).bind
    ((token_takes (.space _) (solid_cons rfl _)).bind ?_)
  exact (hexpr.takes hbody hlen (ends_cons (by decide) _) (.space _)).map _

end

section
variable {expr : Parser Expr} {ahead rest : List Char}

/-- A name that is not called is a variable. -/
theorem word_takes (hx : isName x.toList = true) (hrest : Stops rest)
    (h : Spaced ahead (x.toList ++ rest)) (term : Parser Expr) : Takes (oneTerm expr term) ahead (var x) rest := by
  obtain ⟨c, cs, hcs, hstart, hc⟩ := name_cons hx
  have hsolid : Solid (x.toList ++ rest) := by
    rw [hcs]
    exact solid_of_not_special hc
  have hname := name_takes hx hrest.word (.self _)
  have hcalled : Refuses (called expr) ahead := by
    obtain ⟨after, hspaced, hafter, hopen, _⟩ := hrest.after
    exact phrase_refuses h hsolid (.after hname ((bracketed_refuses hspaced hafter rfl hopen _).bind _))
  have hdigit : c.isDigit = false := by
    cases hd : c.isDigit with
    | true => rw [isNameStart_of_isDigit hd] at hstart; cases hstart
    | false => rfl
  refine oneTerm_takes h hsolid 7 rfl ?_ (phrase_takes h hsolid (hname.map _))
  simp only [special, List.mem_cons, not_or] at hc
  simp [kinds, hcs, hc, hdigit, hcalled]

theorem numeral_is_term (hx : IsNumeral x.toList) (hrest : Stops rest)
    (h : Spaced ahead (x.toList ++ rest)) (term : Parser Expr) :
    Takes (oneTerm expr term) ahead (var x) rest := by
  obtain ⟨c, cs, hcs, hdigit⟩ := numeral_cons hx
  have hc := not_special_of_isDigit hdigit
  have hsolid : Solid (x.toList ++ rest) := by
    rw [hcs]
    exact solid_of_not_special hc
  refine oneTerm_takes_first h hsolid 6 rfl ?_ ((numeral_takes hx hrest.digit hrest.point h).map _)
  simp only [special, List.mem_cons, not_or] at hc
  simp [openings, hcs, hc, isNameStart_of_isDigit hdigit]

end

section
variable {expr : Parser Expr} (hexpr : ReadsBelow m expr)
include hexpr

theorem call_takes (he : (call f args).Spelled) (hm : (call f args).termText.toList.length ≤ m)
    (h : Spaced ahead ((call f args).termText.toList ++ rest)) (term : Parser Expr) :
    Takes (oneTerm expr term) ahead (call f args) rest := by
  have hsolid := solid_term he rest
  obtain ⟨hf, hargs⟩ := spelled_call.mp he
  obtain ⟨c, cs, hcs, _, hc⟩ := name_cons hf
  simp only [termText_call, List.length_append, List.length_cons] at hm
  simp only [termText_call, List.append_assoc, List.cons_append, List.nil_append] at h hsolid
  have hitems := items_take hexpr "(" ")" rfl rfl rfl rfl (by decide) hargs
    (by omega) rest
  refine oneTerm_takes_first h hsolid 2 rfl ?_
    (phrase_takes h hsolid ((name_takes hf (word_ends_at_paren _) (.self _)).bind (hitems.map _)))
  simp only [special, List.mem_cons, not_or] at hc
  simp [openings, hcs, hc]

theorem bind_takes (he : (bind q x body).Spelled) (hm : (bind q x body).termText.toList.length ≤ m)
    (h : Spaced ahead ((bind q x body).termText.toList ++ rest)) (term : Parser Expr) :
    Takes (oneTerm expr term) ahead (bind q x body) rest := by
  have hsolid := solid_term he rest
  obtain ⟨hx, hbody⟩ := spelled_bind.mp he
  cases q with
  | all =>
    simp only [termText_all, List.length_append, List.length_cons] at hm
    simp only [termText_all, List.append_assoc, List.cons_append, List.nil_append] at h hsolid
    have htakes := quantified_takes hexpr (.inl rfl) hx hbody (by omega) h
    exact oneTerm_takes_first h hsolid 0 rfl (List.forall_mem_nil _) htakes
  | some =>
    simp only [termText_some, List.length_append, List.length_cons] at hm
    simp only [termText_some, List.append_assoc, List.cons_append, List.nil_append] at h hsolid
    have htakes := quantified_takes hexpr (.inr rfl) hx hbody (by omega) h
    exact oneTerm_takes_first h hsolid 0 rfl (List.forall_mem_nil _) htakes
  | those =>
    simp only [termText_those, List.length_append, List.length_cons] at hm
    simp only [termText_those, List.append_assoc, List.cons_append, List.nil_append] at h hsolid
    have hclosed : ∀ opens ∈ openings.take 4, opens '\x7b' = false :=
      forall_mem_of_all (by decide +kernel)
    have htakes := comprehension_takes hexpr hx hbody (by omega) h
    exact oneTerm_takes_first h hsolid 4 rfl hclosed htakes

theorem group_takes (he : (group g items).Spelled) (hm : (group g items).termText.toList.length ≤ m)
    (h : Spaced ahead ((group g items).termText.toList ++ rest)) (term : Parser Expr) :
    Takes (oneTerm expr term) ahead (group g items) rest := by
  have hsolid := solid_term he rest
  have hitems := spelled_group.mp he
  cases g with
  | tuple =>
    simp only [termText_tuple, List.length_append, List.length_cons] at hm
    simp only [termText_tuple, List.append_assoc, List.cons_append, List.nil_append] at h hsolid
    have hclosed : ∀ opens ∈ openings.take 3, opens '[' = false :=
      forall_mem_of_all (by decide +kernel)
    have htakes := items_take hexpr "[" "]" rfl rfl rfl rfl (by decide) hitems
      (by omega) rest
    exact oneTerm_takes_first h hsolid 3 rfl hclosed (phrase_takes h hsolid (htakes.map _))
  | set =>
    simp only [termText_set, List.length_append, List.length_cons] at hm
    simp only [termText_set, List.append_assoc, List.cons_append, List.nil_append] at h hsolid
    have hcomprehension : Refuses (comprehension expr) ahead := phrase_refuses h hsolid
      (.after (token_takes (.self _) hsolid) ((declared_refuses_items hitems _ rest).bind _))
    have hstart : isNameStart '\x7b' = false := by decide +kernel
    have htakes := items_take hexpr "\x7b" "\x7d" rfl rfl rfl rfl (by decide) hitems
      (by omega) rest
    refine oneTerm_takes h hsolid 5 rfl ?_ (phrase_takes h hsolid (htakes.map _))
    simp [kinds, hstart, hcomprehension]

/-- A printed term is read back, if as many negations may be nested as it has characters. -/
theorem nested_takes {e : Expr} (he : e.Spelled) (hm : e.termText.toList.length ≤ m)
    (hn : e.termText.toList.length < n) (hrest : Stops rest)
    (h : Spaced ahead (e.termText.toList ++ rest)) :
    Takes (unfolding (oneTerm expr) n) ahead e rest := by
  induction n generalizing e ahead with
  | zero => cases hn
  | succ n ih =>
    have hsolid := solid_term he rest
    cases e with
    | var x =>
      rw [termText_var] at h
      rcases spelled_var.mp he with hx | hx
      · exact word_takes hx hrest h _
      · exact numeral_is_term hx hrest h _
    | call f args => exact call_takes hexpr he hm h _
    | binary op l r =>
      simp only [termText_binary, List.length_append, List.length_cons] at hm
      simp only [termText_binary, List.append_assoc, List.cons_append, List.nil_append] at h hsolid
      have hclosed : ∀ opens ∈ openings.take 8, opens '(' = false :=
        forall_mem_of_all (by decide +kernel)
      exact oneTerm_takes_first h hsolid 8 rfl hclosed (bracketed_takes rfl rfl rfl rfl h
        (hexpr.takes he (by omega) (ends_cons (by decide) _) (.self _)))
    | not e =>
      simp only [termText_not, List.length_cons] at hm hn
      simp only [termText_not, List.cons_append] at h hsolid
      have hclosed : ∀ opens ∈ openings.take 1, opens '¬' = false :=
        forall_mem_of_all (by decide +kernel)
      have hterm := ih (spelled_not.mp he) (by omega) (by omega) (.self _)
      exact oneTerm_takes_first h hsolid 1 rfl hclosed
        (phrase_takes h hsolid ((token_takes (.self _) hsolid).bind (hterm.map _)))
    | bind q x body => exact bind_takes hexpr he hm h _
    | group g items => exact group_takes hexpr he hm h _

theorem term_takes {e : Expr} (he : e.Spelled) (hm : e.termText.toList.length ≤ m)
    (hrest : Stops rest) (h : Spaced ahead (e.termText.toList ++ rest)) :
    Takes (term expr) ahead e rest := by
  have hlen : e.termText.toList.length < ahead.length + 1 := by
    rcases h with rfl | rfl <;> simp <;> omega
  rw [term_eq_fix]
  exact .fix (nested_takes hexpr he hm hlen hrest h)

-- ---------------------------------------------------------------- expressions

theorem links_take {links : List (Operator × Expr)}
    (hlinks : ∀ link ∈ links, link.1.Spelled ∧ link.2.Spelled)
    (hlen : (links.flatMap linkText).length ≤ m) (hrest : Ends rest) :
    Row (do let op ← operator; let operand ← term expr; return (op, operand))
      (links.flatMap linkText ++ rest) links rest := by
  induction links with
  | nil => exact .nil ((operator_refuses hrest).bind _)
  | cons link links ih =>
    obtain ⟨⟨hop, he⟩, hlinks⟩ := List.forall_mem_cons.mp hlinks
    have htext : (link :: links).flatMap linkText ++ rest = ' ' :: link.1.symbol.toList ++
        ' ' :: (link.2.termText.toList ++ (links.flatMap linkText ++ rest)) := by simp [linkText]
    have hlength : ((link :: links).flatMap linkText).length = 2 + link.1.symbol.toList.length +
        link.2.termText.toList.length + (links.flatMap linkText).length := by
      simp [linkText]
      omega
    have hstops := stops_links (fun link h => (hlinks link h).1) hrest
    rw [htext]
    refine .cons ((operator_takes hop _).bind ((term_takes hexpr he (by omega) hstops (.space _)).map _))
      ?_ (ih hlinks (by omega))
    simp
    omega

theorem chain_takes {c : Chain} (hc : c.Spelled) (hlen : c.chars.length ≤ m) (hrest : Ends rest)
    (h : Spaced ahead (c.chars ++ rest)) : Takes (chain expr) ahead c rest := by
  simp only [Chain.chars, List.length_append] at hlen
  rw [Chain.chars, List.append_assoc] at h
  have hstops := stops_links (fun link h => (hc.tail link h).1) hrest
  have hlinks := (links_take hexpr hc.tail (by omega) hrest).many
  exact (term_takes hexpr hc.head (by omega) hstops h).bind (hlinks.map _)

end

theorem term_refuses (expr : Parser Expr) (hc : c ∈ closings) (rest : List Char) :
    Refuses (term expr) (c :: rest) := by
  have hclosed : ∀ c ∈ closings, (openings.all fun opens => !opens c) = true :=
    forall_mem_of_all (by decide +kernel)
  refine .fix fun term => oneTerm_refuses (.self _) (ends_cons hc rest).solid expr term fun opens ho => ?_
  simpa using List.all_eq_true.mp (hclosed c hc) opens ho

/-- Each approximation of the parser reads what is shorter than its depth. -/
theorem parser_reads (n : Nat) :
    ReadsBelow n (unfolding (fun expr => phrase (Chain.expr <$> chain expr)) n) := by
  induction n with
  | zero => exact ⟨nofun, fun _ _ => rfl⟩
  | succ n ih =>
    refine ⟨fun {e ahead rest} he hlen hrest h => ?_, fun {c rest} hc => ?_⟩
    · have hchars := chars_chainOf e
      have hchain := chain_takes ih (chainOf_spelled he) (by rw [hchars]; omega) hrest (.self _)
      rw [hchars] at hchain
      have htakes := phrase_takes h (solid_text he rest) (hchain.map Chain.expr)
      rwa [(chainOf_grouped e).expr] at htakes
    · exact phrase_refuses (.self _) (ends_cons hc rest).solid (((term_refuses _ hc rest).bind _).map _)

theorem parser_takes {e : Expr} (he : e.Spelled) : Takes parser e.text.toList e [] := by
  have hspaced : Spaced e.text.toList (e.text.toList ++ []) := .inl (List.append_nil _).symm
  exact .fix ((parser_reads _).takes he (Nat.lt_succ_self _) nofun hspaced)

theorem endOfInput_takes : Takes endOfInput [] () [] :=
  phrase_takes (.self []) rfl fun place => ⟨place, rfl⟩

theorem parse_of_spelled {e : Expr} (he : e.Spelled) : parse e.text = .ok e :=
  Takes.read ((parser_takes he).bind (endOfInput_takes.map _))

theorem spelled_of_parse {e : Expr} (h : parse source = .ok e) : e.Spelled :=
  Gives.read (parser_gives.bind fun _ he => .after fun _ => .pure he) h

/-- What is printed is read back as it was, and whatever is read can be printed so. -/
theorem parse_text : (∀ e : Expr, e.Spelled → parse e.text = .ok e) ∧
    ∀ source e, parse source = .ok e → e.Spelled :=
  ⟨fun _ he => parse_of_spelled he, fun _ _ h => spelled_of_parse h⟩

/-- Negations, calls, names between terms, numerals with a fraction and sets next to each other. -/
theorem parse_text_mixed :
    let e : Expr := .binary .and
      (.not (.binary (.named "in") (.var "f")
        (.binary .minus (.var "x") (.binary .minus (.var "1.5") (.var "y")))))
      (.binary .elementOf (.call "g" []) (.group .set [.bind .those "y" (.var "y"), .group .tuple []]))
    e.Spelled ∧ e.text = "¬(f in (x - (1.5 - y))) ∧ g() ∈ \x7b\x7by : y\x7d, []\x7d" ∧
      parse e.text = .ok e := by
  intro e
  have he : e.Spelled := by
    have hnames : ∀ x ∈ [['i', 'n'], ['f'], ['x'], ['y'], ['g']], isName x = true := by decide +kernel
    have hnumeral : IsNumeral ['1', '.', '5'] :=
      ⟨['1'], ['5'], List.cons_ne_nil _ _, List.forall_mem_singleton.mpr rfl,
        List.forall_mem_singleton.mpr rfl, .inr ⟨List.cons_ne_nil _ _, rfl⟩⟩
    simp only [List.forall_mem_cons] at hnames
    simp [e, spelled_binary, spelled_not, spelled_var, spelled_call, spelled_group, spelled_bind,
      Operator.Spelled, hnames, hnumeral]
  exact ⟨he, by decide +kernel, parse_text.1 e he⟩

end Expr

end ProofScript
