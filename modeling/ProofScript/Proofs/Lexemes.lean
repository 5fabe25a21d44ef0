import ProofScript.Expr.Parser
import ProofScript.Proofs.FreeNames

/-!
# What parsers take

`Takes p ahead a rest` says that `p` reads `a` off the characters ahead and leaves `rest`, at any
place in a text; `Refuses p ahead` that it does not read anything. Choices are ordered, so that what
a parser takes depends on what the parsers before it refuse: each lexeme comes with both laws.
-/

namespace ProofScript.Text

namespace Parser

def Takes (p : Parser α) (ahead : List Char) (a : α) (rest : List Char) : Prop :=
  ∀ place, ∃ next, (p ⟨ahead, place⟩).result = some (a, ⟨rest, next⟩)

def Refuses (p : Parser α) (ahead : List Char) : Prop :=
  ∀ place, (p ⟨ahead, place⟩).result = none

-- ---------------------------------------------------------------- combinators

theorem result_bind (p : Parser α) (f : α → Parser β) (i : Input) :
    ((p >>= f) i).result = (p i).result.bind fun (a, rest) => (f a rest).result := by
  show (andThen p f i).result = _
  unfold andThen
  rcases p i with ⟨_ | ⟨a, rest⟩, far⟩ <;> rfl

theorem result_bind_eq_some {p : Parser α} {f : α → Parser β} (h : ((p >>= f) i).result = some (b, rest)) :
    ∃ a mid, (p i).result = some (a, mid) ∧ (f a mid).result = some (b, rest) := by
  rw [result_bind] at h
  obtain ⟨⟨a, mid⟩, ha, hb⟩ := Option.bind_eq_some_iff.mp h
  exact ⟨a, mid, ha, hb⟩

theorem result_orElse (p q : Parser α) (i : Input) :
    ((p <|> q) i).result = (p i).result.or (q i).result := by
  show (orElse p (fun _ => q) i).result = _
  unfold orElse
  rcases p i with ⟨_ | r, far⟩ <;> rfl

theorem result_expecting (p : Parser α) (i : Input) : (expecting p i).result = (p i).result := by
  unfold expecting
  rcases h : p i with ⟨_ | r, far⟩ <;> rfl

theorem Takes.pure (a : α) : Takes (Pure.pure a) rest a rest := fun place => ⟨place, rfl⟩

theorem Takes.bind {p : Parser α} {f : α → Parser β} (hp : Takes p ahead a mid)
    (hf : Takes (f a) mid b rest) : Takes (p >>= f) ahead b rest := by
  intro place
  obtain ⟨next, hp⟩ := hp place
  obtain ⟨last, hf⟩ := hf next
  exact ⟨last, by rw [result_bind, hp]; exact hf⟩

theorem Takes.map {p : Parser α} (f : α → β) (hp : Takes p ahead a rest) :
    Takes (f <$> p) ahead (f a) rest :=
  hp.bind (.pure _)

theorem Takes.left {p : Parser α} (hp : Takes p ahead a rest) (q : Parser α) :
    Takes (p <|> q) ahead a rest := by
  intro place
  obtain ⟨next, hp⟩ := hp place
  exact ⟨next, by rw [result_orElse, hp]; rfl⟩

theorem Takes.right {p q : Parser α} (hp : Refuses p ahead) (hq : Takes q ahead a rest) :
    Takes (p <|> q) ahead a rest := by
  intro place
  obtain ⟨next, hq⟩ := hq place
  exact ⟨next, by rw [result_orElse, hp place, hq]; rfl⟩

theorem Takes.expecting (hp : Takes p ahead a rest) : Takes (expecting p) ahead a rest := by
  intro place
  obtain ⟨next, hp⟩ := hp place
  exact ⟨next, by rw [result_expecting, hp]⟩

theorem Takes.fix {f : Parser α → Parser α} (h : Takes (unfolding f (ahead.length + 1)) ahead a rest) :
    Takes (fix f) ahead a rest := h

theorem read_eq_ok_iff {p : Parser α} :
    read p s = .ok a ↔ ∃ rest, (p (.ofString s)).result = some (a, rest) := by
  unfold read
  rcases p (.ofString s) with ⟨_ | ⟨b, rest⟩, far⟩ <;> simp

theorem Takes.read {p : Parser α} (h : Takes p s.toList a rest) : read p s = .ok a := by
  obtain ⟨next, h⟩ := h .start
  exact read_eq_ok_iff.mpr ⟨⟨rest, next⟩, h⟩

theorem Takes.not_refuses {p : Parser α} (h : Takes p s a r) : ¬Refuses p s := by
  intro hno
  obtain ⟨_, h⟩ := h .start
  cases (hno .start).symm.trans h

theorem Refuses.failure (ahead : List Char) : Refuses (Alternative.failure : Parser α) ahead :=
  fun _ => rfl

theorem Refuses.bind {p : Parser α} (hp : Refuses p ahead) (f : α → Parser β) :
    Refuses (p >>= f) ahead := by
  intro place
  rw [result_bind, hp place]
  rfl

theorem Refuses.after {p : Parser α} {f : α → Parser β} (hp : Takes p ahead a mid)
    (hf : Refuses (f a) mid) : Refuses (p >>= f) ahead := by
  intro place
  obtain ⟨next, hp⟩ := hp place
  rw [result_bind, hp]
  exact hf next

theorem Refuses.map {p : Parser α} (f : α → β) (hp : Refuses p ahead) : Refuses (f <$> p) ahead :=
  hp.bind _

theorem Refuses.orElse {p q : Parser α} (hp : Refuses p ahead) (hq : Refuses q ahead) :
    Refuses (p <|> q) ahead := by
  intro place
  rw [result_orElse, hp place, hq place]
  rfl

theorem Refuses.expecting (hp : Refuses p ahead) : Refuses (expecting p) ahead := by
  intro place
  rw [result_expecting, hp place]

theorem Refuses.firstOf {ps : List (Parser α)} (h : ∀ p ∈ ps, Refuses p ahead) :
    Refuses (firstOf ps) ahead := by
  induction ps with
  | nil => exact fun _ => rfl
  | cons p ps ih =>
    obtain ⟨hp, hps⟩ := List.forall_mem_cons.mp h
    exact hp.orElse (ih hps)

/-- The first parser that does not refuse counts. -/
theorem Takes.firstOf {ps : List (Parser α)} (i : Nat) (hp : ps[i]? = some p)
    (hbefore : ∀ q ∈ ps.take i, Refuses q ahead) (h : Takes p ahead a rest) :
    Takes (firstOf ps) ahead a rest := by
  induction i generalizing ps with
  | zero =>
    cases ps with
    | nil => cases hp
    | cons q ps =>
      cases hp
      exact h.left _
  | succ i ih =>
    cases ps with
    | nil => cases hp
    | cons q ps =>
      obtain ⟨hq, hbefore⟩ := List.forall_mem_cons.mp hbefore
      exact .right hq (ih hp hbefore)

theorem Refuses.fix {f : Parser α → Parser α} (h : ∀ p, Refuses (f p) ahead) : Refuses (fix f) ahead :=
  h (unfolding f ahead.length)

-- ---------------------------------------------------------------- repetition

/-- Items that `p` takes one after the other, each with at least one character, until it refuses. -/
inductive Row (p : Parser α) : List Char → List α → List Char → Prop
  | nil : Refuses p rest → Row p rest [] rest
  | cons : Takes p ahead a mid → mid.length < ahead.length → Row p mid as rest →
    Row p ahead (a :: as) rest

theorem Row.many {p : Parser α} (h : Row p ahead as rest) : Takes (many p) ahead as rest := by
  -- one unfolding for each item and one more for the refusal
  have hfuel (n : Nat) (hn : ahead.length < n) : Takes (unfolding (fun more => (do
      let a ← p
      let as ← more
      return a :: as) <|> Pure.pure []) n) ahead as rest := by
    induction h generalizing n with
    | nil hp =>
      cases n with
      | zero => cases hn
      | succ n => exact .right (hp.bind _) (.pure [])
    | cons hp hlt _ ih =>
      cases n with
      | zero => cases hn
      | succ n => exact (hp.bind ((ih n (by omega)).map _)).left _
  exact .fix (hfuel _ (Nat.lt_succ_self _))

-- ---------------------------------------------------------------- characters

theorem takeWhile_takes {ok : Char → Bool} {rest : List Char} (run : List Char)
    (hrun : ∀ c ∈ run, ok c = true)
    (hrest : rest.head?.any ok = false) : Takes (takeWhile ok) (run ++ rest) run rest := by
  have htake : (run ++ rest).takeWhile ok = run := by
    rw [List.takeWhile_append_of_pos hrun]
    cases rest with
    | nil => simp
    | cons c rest =>
      have hc : ok c = false := by simpa using hrest
      simp [hc]
  intro place
  simp only [takeWhile, Input.drop, htake, List.drop_left]
  exact ⟨_, rfl⟩

theorem takeWhile_takes_run (s : List Char) :
    Takes (takeWhile ok) s (s.takeWhile ok) (s.dropWhile ok) := by
  have hrun : ∀ c ∈ s.takeWhile ok, ok c = true := List.all_eq_true.mp List.all_takeWhile
  have hstop : (s.dropWhile ok).head?.any ok = false := by
    have := List.head?_dropWhile_not ok s
    cases hd : (s.dropWhile ok).head? with
    | none => rfl
    | some c => simpa [hd] using this
  have htakes := takeWhile_takes _ hrun hstop
  rwa [List.takeWhile_append_dropWhile] at htakes

theorem literal_takes (s : String) (rest : List Char) : Takes (literal s) (s.toList ++ rest) () rest := by
  have hprefix : s.toList.isPrefixOf (s.toList ++ rest) = true :=
    List.isPrefixOf_iff_prefix.mpr (List.prefix_append _ _)
  intro place
  simp only [literal, hprefix, if_true, Input.drop, List.drop_left]
  exact ⟨_, rfl⟩

theorem literal_refuses_text {w : String} (h : w.toList.isPrefixOf s = false) : Refuses (literal w) s := by
  intro place
  simp [literal, h]

theorem literal_refuses {s : String} (hs : s.toList.head? = some c) (h : ahead.head? ≠ some c) :
    Refuses (literal s) ahead := by
  refine literal_refuses_text (Bool.eq_false_iff.mpr fun hstarts => ?_)
  obtain ⟨after, rfl⟩ := List.isPrefixOf_iff_prefix.mp hstarts
  rw [List.head?_append, hs] at h
  exact h rfl

theorem notNext_takes (h : s.head?.any ok = false) : Takes (notNext ok) s () s := by
  intro place
  exact ⟨place, by simp [notNext, h]⟩

theorem notNext_refuses (h : s.head?.any ok = true) : Refuses (notNext ok) s := by
  intro place
  simp [notNext, h]

end Parser

open ProofScript.Text.Parser

-- ---------------------------------------------------------------- layout

/-- Neither a blank nor the sign of a comment. -/
def isSolid (c : Char) : Bool := !isBlank c && c != '/'

def Solid (text : List Char) : Prop := text.head?.all isSolid = true

theorem solid_cons (h : isSolid c = true) (text : List Char) : Solid (c :: text) := h

/-- The text stands ahead, at once or after a space. -/
def Spaced (ahead text : List Char) : Prop := ahead = text ∨ ahead = ' ' :: text

theorem Spaced.self (text : List Char) : Spaced text text := .inl rfl

theorem Spaced.space (text : List Char) : Spaced (' ' :: text) text := .inr rfl

section
variable {ahead text : List Char} (h : Spaced ahead text) (hs : Solid text)
include h hs

theorem skip_takes : Takes skip ahead () text := by
  have hblank : text.head?.any isBlank = false := by
    cases text with
    | nil => rfl
    | cons c text =>
      have hc : isSolid c = true := hs
      simp_all [isSolid]
  have hcomment : Refuses comment text := by
    refine Refuses.bind (literal_refuses (c := '/') rfl ?_) _
    intro hc
    rw [Solid, hc] at hs
    cases hs
  have hblanks : ∃ run, Takes (takeWhile isBlank) ahead run text := by
    rcases h with rfl | rfl
    · exact ⟨[], takeWhile_takes [] (by simp) hblank⟩
    · exact ⟨[' '], takeWhile_takes [' '] (List.forall_mem_singleton.mpr rfl) hblank⟩
  obtain ⟨run, hrun⟩ := hblanks
  exact (hrun.map _).bind (.right hcomment (.pure ()))

theorem phrase_takes {p : Parser α} (hp : Takes p text a rest) : Takes (phrase p) ahead a rest :=
  (skip_takes h hs).bind hp.expecting

theorem phrase_refuses {p : Parser α} (hp : Refuses p text) : Refuses (phrase p) ahead :=
  .after (skip_takes h hs) hp.expecting

theorem token_refuses {s : String} (hc : s.toList.head? = some c) (hne : text.head? ≠ some c) :
    Refuses (token s) ahead :=
  .after (skip_takes h hs) (literal_refuses hc hne)

end

theorem token_takes {s : String} (h : Spaced ahead (s.toList ++ rest)) (hs : Solid (s.toList ++ rest)) :
    Takes (token s) ahead () rest :=
  (skip_takes h hs).bind (literal_takes s rest)

-- ---------------------------------------------------------------- classes of characters

/-- The characters that have a meaning of their own: blanks, brackets, quantifiers, separators and
the signs of operators. -/
def special : List Char :=
  [' ', '\t', '/', '.', ',', ':', '(', ')', '[', ']', '\x7b', '\x7d', '∀', '∃', '¬', '⇔', '⇒', '∨', '∧',
   '=', '∈', '⊆', '+', '-', '−', '⋅', '·', '÷']

/-- A finite table is checked entry by entry. -/
theorem forall_mem_of_all {p : α → Prop} [DecidablePred p] {as : List α}
    (h : (as.all fun a => decide (p a)) = true) : ∀ a ∈ as, p a := by
  simpa using h

theorem not_isNameChar_of_special : ∀ c ∈ special, isNameChar c = false :=
  forall_mem_of_all (by decide +kernel)

theorem not_isDigit_of_special : ∀ c ∈ special, c.isDigit = false :=
  forall_mem_of_all (by decide)

theorem isNameChar_of_isNameStart (h : isNameStart c = true) : isNameChar c = true := by
  unfold isNameStart at h
  unfold isNameChar
  simp only [Bool.or_eq_true] at h ⊢
  exact h.imp_left .inl

theorem inRanges_first (hlo : lo ≤ n) (hhi : n ≤ hi) : inRanges ((lo, hi) :: ranges) n = true := by
  simp [inRanges, Nat.not_lt.mpr hlo, hhi]

theorem isNameChar_of_isDigit (h : c.isDigit = true) : isNameChar c = true := by
  simp only [Char.isDigit, Bool.and_eq_true, decide_eq_true_eq] at h
  have hle : c.val.toNat ≤ 0x39 := UInt32.le_iff_toNat_le.mp h.2
  have hge : 0x30 ≤ c.val.toNat := UInt32.le_iff_toNat_le.mp h.1
  -- the digits are the first range of numbers
  have hnumber : isNumber c = true := inRanges_first hge hle
  simp [isNameChar, hnumber]

theorem not_special_of_isNameChar (h : isNameChar c = true) : c ∉ special := by
  intro hc
  rw [not_isNameChar_of_special c hc] at h
  cases h

theorem not_special_of_isDigit (h : c.isDigit = true) : c ∉ special := by
  intro hc
  rw [not_isDigit_of_special c hc] at h
  cases h

theorem solid_of_not_special (h : c ∉ special) : Solid (c :: text) := by
  simp only [special, List.mem_cons, not_or] at h
  exact solid_cons (by simp [isSolid, isBlank, h.1, h.2.1, h.2.2.1]) text

-- ---------------------------------------------------------------- names and numerals

theorem isName_cons (h : isName cs = true) :
    ∃ c rest, cs = c :: rest ∧ isNameStart c = true ∧ ∀ d ∈ cs, isNameChar d = true := by
  simp only [isName, Bool.and_eq_true, List.all_eq_true] at h
  cases cs with
  | nil => simp at h
  | cons c rest => exact ⟨c, rest, rfl, by simpa using h.1.1, h.1.2⟩

theorem name_takes {x : String} (hx : isName x.toList = true) (hrest : rest.head?.any isNameChar = false)
    (h : Spaced ahead (x.toList ++ rest)) : Takes name ahead x rest := by
  obtain ⟨c, cs, hcs, hstart, hall⟩ := isName_cons hx
  have hsolid : Solid (x.toList ++ rest) := by
    rw [hcs]
    exact solid_of_not_special (not_special_of_isNameChar (isNameChar_of_isNameStart hstart))
  refine phrase_takes h hsolid ((takeWhile_takes _ hall hrest).bind ?_)
  rw [hx, String.ofList_toList]
  exact .pure x

theorem name_refuses (h : Spaced ahead text) (hs : Solid text)
    (hstart : text.head?.any isNameStart = false) : Refuses name ahead := by
  have hrun : isName (text.takeWhile isNameChar) = false := by
    cases text with
    | nil => rfl
    | cons c text =>
      have hc : isNameStart c = false := by simpa using hstart
      by_cases hchar : isNameChar c = true <;> simp [isName, hchar, hc]
  refine phrase_refuses h hs fun place => ?_
  rw [result_bind]
  simp only [takeWhile, Option.bind_some, hrun]
  rfl

/-- Digits, perhaps with a point and more digits. -/
def IsNumeral (cs : List Char) : Prop :=
  ∃ whole fraction, whole ≠ [] ∧ (∀ c ∈ whole, c.isDigit = true) ∧ (∀ c ∈ fraction, c.isDigit = true) ∧
    (cs = whole ∨ fraction ≠ [] ∧ cs = whole ++ '.' :: fraction)

theorem digits_takes {ds : List Char} (hne : ds ≠ []) (hds : ∀ c ∈ ds, c.isDigit = true)
    (hrest : rest.head?.any Char.isDigit = false) : Takes digits (ds ++ rest) ds rest := by
  refine (takeWhile_takes _ hds hrest).bind ?_
  rw [if_neg (by simpa using hne)]
  exact .pure ds

theorem digits_refuses (h : ahead.head?.any Char.isDigit = false) : Refuses digits ahead := by
  refine .after (takeWhile_takes [] (by simp) h) ?_
  exact .failure ahead

theorem numeral_takes {x : String} (hx : IsNumeral x.toList)
    (hdigit : rest.head?.any Char.isDigit = false) (hpoint : rest.head? ≠ some '.')
    (h : Spaced ahead (x.toList ++ rest)) : Takes numeral ahead x rest := by
  obtain ⟨whole, fraction, hne, hwhole, hfraction, htext⟩ := hx
  have hsolid : Solid (x.toList ++ rest) := by
    obtain ⟨c, cs, rfl⟩ := List.exists_cons_of_ne_nil hne
    have hc := not_special_of_isDigit (hwhole c (by simp))
    rcases htext with htext | ⟨_, htext⟩ <;> rw [htext] <;> exact solid_of_not_special hc
  refine phrase_takes h hsolid ?_
  rcases htext with htext | ⟨hne', htext⟩
  · have hno : Refuses (literal ".") rest := literal_refuses rfl hpoint
    rw [htext]
    refine (digits_takes hne hwhole hdigit).bind ((Takes.right (hno.bind _) (.pure [])).bind ?_)
    rw [List.append_nil, ← htext, String.ofList_toList]
    exact .pure x
  · have hpart : Takes (do literal "."; let ds ← digits; return '.' :: ds)
        ('.' :: (fraction ++ rest)) ('.' :: fraction) rest :=
      (literal_takes "." _).bind ((digits_takes hne' hfraction hdigit).map _)
    rw [htext, List.append_assoc]
    refine (digits_takes hne hwhole rfl).bind ((hpart.left _).bind ?_)
    rw [← htext, String.ofList_toList]
    exact .pure x

theorem numeral_refuses (h : Spaced ahead text) (hs : Solid text)
    (hdigit : text.head?.any Char.isDigit = false) : Refuses numeral ahead :=
  phrase_refuses h hs ((digits_refuses hdigit).bind _)

end ProofScript.Text
