import ProofScript.Proofs.Lexemes

/-!
# Layout

A text can be laid out in other ways: blanks and a comment may be put before every line end and before
the end of the text, and empty lines, with comments or without, after every line end. `Relaid` says so
of two texts, character by character. A carriage return and a line feed are a line end each, so that
something may be put between the two as well.

A comment that is put right behind a slash moves the place where the comment begins. This does no harm
inside of comments, and outside of them no slash stands alone in a text that can be read: `Tidy`. The
laws here say what is left of a tidy text and of another layout of it when layout is passed over, when
characters with a meaning are taken off, and when lines end.
-/

namespace ProofScript.Text

-- ---------------------------------------------------------------- other layouts

/-- Spaces and tabs, and perhaps a comment behind them. -/
inductive IsLayout : List Char → Prop
  | nil : IsLayout []
  | comment : (∀ c ∈ text, isLineEnd c = false) → IsLayout ('/' :: '/' :: text)
  | blank : isBlank c = true → IsLayout pad → IsLayout (c :: pad)

/-- Lines that hold nothing but layout. -/
inductive EmptyLines : List Char → Prop
  | nil : EmptyLines []
  | line : IsLayout pad → isLineEnd c = true → EmptyLines rest → EmptyLines (pad ++ c :: rest)

/-- The second text is the first one with layout before line ends and before the end, and with empty
lines after line ends. -/
inductive Relaid : List Char → List Char → Prop
  | finish : IsLayout pad → Relaid [] pad
  | line : isLineEnd c = true → IsLayout pad → EmptyLines lines → Relaid s t →
    Relaid (c :: s) (pad ++ c :: (lines ++ t))
  | char : isLineEnd c = false → Relaid s t → Relaid (c :: s) (c :: t)

/-- At the end of a line or of the text. -/
def AtLineEnd (s : List Char) : Prop := s.head?.all isLineEnd = true

/-- Outside of comments every slash begins a comment. -/
inductive Tidy : List Char → Prop
  | nil : Tidy []
  | char : c ≠ '/' → Tidy s → Tidy (c :: s)
  | comment : (∀ c ∈ text, isLineEnd c = false) → AtLineEnd s → Tidy s →
    Tidy ('/' :: '/' :: (text ++ s))

/-- A tidy text and another layout of it. -/
structure Aligned (s t : List Char) : Prop where
  relaid : Relaid s t
  tidy : Tidy s

-- ---------------------------------------------------------------- characters

theorem not_lineEnd_of_blank (h : isBlank c = true) : isLineEnd c = false := by
  simp only [isBlank, Bool.or_eq_true, beq_iff_eq] at h
  rcases h with rfl | rfl <;> rfl

theorem ne_slash_of_blank (h : isBlank c = true) : c ≠ '/' := by
  rintro rfl
  cases h

theorem not_blank_of_lineEnd (h : isLineEnd c = true) : isBlank c = false := by
  cases hb : isBlank c with
  | false => rfl
  | true => rw [not_lineEnd_of_blank hb] at h; cases h

theorem ne_slash_of_lineEnd (h : isLineEnd c = true) : c ≠ '/' := by
  rintro rfl
  cases h

theorem atLineEnd_cons (h : isLineEnd c = true) (s : List Char) : AtLineEnd (c :: s) := h

/-- A character with a meaning of its own: neither a blank, nor the sign of a comment, nor a line end. -/
def isInk (c : Char) : Bool := isSolid c && !isLineEnd c

theorem not_ink_of_blank (h : isBlank c = true) : isInk c = false := by
  simp [isInk, isSolid, h]

theorem not_ink_of_lineEnd (h : isLineEnd c = true) : isInk c = false := by
  simp [isInk, h]

theorem ne_slash_of_ink (h : isInk c = true) : c ≠ '/' := by
  rintro rfl
  cases h

-- ---------------------------------------------------------------- layout is passed over

/-- What follows the layout. -/
def afterLayout : List Char → List Char
  | [] => []
  | c :: s =>
    if isBlank c then afterLayout s
    else if c = '/' ∧ s.head? = some '/' then s.dropWhile (!isLineEnd ·)
    else c :: s

theorem afterLayout_blank (h : isBlank c = true) : afterLayout (c :: s) = afterLayout s := by
  simp [afterLayout, h]

theorem afterLayout_comment (s : List Char) :
    afterLayout ('/' :: '/' :: s) = s.dropWhile (!isLineEnd ·) := by
  have hslash : isBlank '/' = false := rfl
  have hline : isLineEnd '/' = false := rfl
  simp [afterLayout, hslash, hline]

theorem afterLayout_char (hb : isBlank c = false) (hc : c ≠ '/') : afterLayout (c :: s) = c :: s := by
  simp [afterLayout, hb, hc]

theorem afterLayout_atLineEnd (h : AtLineEnd s) : afterLayout s = s := by
  cases s with
  | nil => rfl
  | cons c s => exact afterLayout_char (not_blank_of_lineEnd h) (ne_slash_of_lineEnd h)

/-- A comment goes up to the end of the line. -/
theorem dropWhile_comment (htext : ∀ c ∈ text, isLineEnd c = false) (h : AtLineEnd s) :
    (text ++ s).dropWhile (!isLineEnd ·) = s := by
  have hall : ∀ c ∈ text, (!isLineEnd c) = true := by simpa using htext
  rw [List.dropWhile_append_of_pos hall]
  cases s with
  | nil => rfl
  | cons c s =>
    have hc : isLineEnd c = true := h
    simp [hc]

namespace IsLayout

theorem lineEnd (h : IsLayout pad) : ∀ c ∈ pad, isLineEnd c = false := by
  induction h with
  | nil => exact List.forall_mem_nil _
  | comment htext => simpa [isLineEnd] using htext
  | blank hc _ ih => exact List.forall_mem_cons.mpr ⟨not_lineEnd_of_blank hc, ih⟩

theorem append (h : IsLayout pad) (h' : IsLayout more) : IsLayout (pad ++ more) := by
  induction h with
  | nil => exact h'
  | comment htext => exact .comment (List.forall_mem_append.mpr ⟨htext, h'.lineEnd⟩)
  | blank hc _ ih => exact .blank hc ih

theorem afterLayout (h : IsLayout pad) (hs : AtLineEnd s) : afterLayout (pad ++ s) = s := by
  induction h with
  | nil => exact afterLayout_atLineEnd hs
  | comment htext => exact (afterLayout_comment _).trans (dropWhile_comment htext hs)
  | blank hc _ ih => exact (afterLayout_blank hc).trans ih

theorem not_ink (h : IsLayout pad) (hs : AtLineEnd s) : (pad ++ s).head?.any isInk = false := by
  cases h with
  | nil =>
    cases s with
    | nil => rfl
    | cons c s => exact not_ink_of_lineEnd hs
  | comment => rfl
  | blank hc => exact not_ink_of_blank hc

end IsLayout

/-- What is passed over is layout. If there is a comment in it, it goes up to the end of the line. -/
theorem afterLayout_split (s : List Char) : ∃ pad, IsLayout pad ∧ s = pad ++ afterLayout s ∧
    (Tidy (afterLayout s) → Tidy s) := by
  fun_induction afterLayout s with
  | case1 => exact ⟨[], .nil, rfl, id⟩
  | case2 c s hc ih =>
    obtain ⟨pad, hpad, hs, htidy⟩ := ih
    exact ⟨c :: pad, .blank hc hpad, congrArg (c :: ·) hs, fun h => .char (ne_slash_of_blank hc) (htidy h)⟩
  | case3 c s _ hslash =>
    obtain ⟨rfl, hs⟩ := hslash
    obtain ⟨s, rfl⟩ := List.head?_eq_some_iff.mp hs
    have hslash : ('/' :: s).dropWhile (!isLineEnd ·) = s.dropWhile (!isLineEnd ·) := rfl
    have htext : ∀ c ∈ s.takeWhile (!isLineEnd ·), isLineEnd c = false := by
      intro c hc
      simpa using List.all_eq_true.mp List.all_takeWhile c hc
    have hend : AtLineEnd (s.dropWhile (!isLineEnd ·)) := by
      have hstop := List.head?_dropWhile_not (!isLineEnd ·) s
      unfold AtLineEnd
      cases hd : (s.dropWhile (!isLineEnd ·)).head? with
      | none => rfl
      | some c => simpa [hd] using hstop
    have hsplit : s = s.takeWhile (!isLineEnd ·) ++ s.dropWhile (!isLineEnd ·) :=
      List.takeWhile_append_dropWhile.symm
    rw [hslash]
    refine ⟨_, .comment htext, congrArg ('/' :: '/' :: ·) hsplit, fun h => ?_⟩
    rw [hsplit]
    exact .comment htext hend h
  | case4 c s => exact ⟨[], .nil, rfl, id⟩

theorem length_afterLayout (s : List Char) : (afterLayout s).length ≤ s.length := by
  obtain ⟨pad, -, hs, -⟩ := afterLayout_split s
  have := congrArg List.length hs
  rw [List.length_append] at this
  omega

theorem tidy_of_afterLayout (h : Tidy (afterLayout s)) : Tidy s := by
  obtain ⟨-, -, -, htidy⟩ := afterLayout_split s
  exact htidy h

-- ---------------------------------------------------------------- layouts side by side

namespace Relaid

/-- Nothing has to be put in. -/
theorem append_left (text : List Char) (h : Relaid s t) : Relaid (text ++ s) (text ++ t) := by
  induction text with
  | nil => exact h
  | cons c text ih =>
    cases hc : isLineEnd c with
    | true =>
      show Relaid (c :: (text ++ s)) ([] ++ c :: ([] ++ (text ++ t)))
      exact .line hc .nil .nil ih
    | false => exact .char hc ih

/-- Inside of a line nothing is put in. -/
theorem inLine (text : List Char) (htext : ∀ c ∈ text, isLineEnd c = false) (h : Relaid (text ++ s) t) :
    ∃ t', t = text ++ t' ∧ Relaid s t' := by
  induction text generalizing t with
  | nil => exact ⟨t, rfl, h⟩
  | cons c text ih =>
    obtain ⟨hc, htext⟩ := List.forall_mem_cons.mp htext
    cases h with
    | line hend => rw [hc] at hend; cases hend
    | char _ h =>
      obtain ⟨t', rfl, hrest⟩ := ih htext h
      exact ⟨t', rfl, hrest⟩

/-- At the end of a line there may be layout before the same line end. -/
theorem atLineEnd (hs : AtLineEnd s) (h : Relaid s t) :
    ∃ pad t', t = pad ++ t' ∧ IsLayout pad ∧ AtLineEnd t' ∧ s.head? = t'.head? ∧ Relaid s t' := by
  cases h with
  | finish hpad => exact ⟨t, [], by simp, hpad, rfl, rfl, .finish .nil⟩
  | line hc hpad hlines h => exact ⟨_, _, rfl, hpad, hc, rfl, .line hc .nil hlines h⟩
  | char hc =>
    have hend : isLineEnd _ = true := hs
    rw [hc] at hend
    cases hend

end Relaid

theorem Tidy.ofSlash (h : Tidy ('/' :: s)) :
    ∃ text r, s = '/' :: (text ++ r) ∧ (∀ c ∈ text, isLineEnd c = false) ∧ AtLineEnd r ∧ Tidy r := by
  cases h with
  | char hne => exact absurd rfl hne
  | comment htext hr h => exact ⟨_, _, rfl, htext, hr, h⟩

theorem Tidy.append {text : List Char} (htext : ∀ c ∈ text, isInk c = true) (h : Tidy s) :
    Tidy (text ++ s) := by
  induction text with
  | nil => exact h
  | cons c text ih =>
    obtain ⟨hc, htext⟩ := List.forall_mem_cons.mp htext
    exact .char (ne_slash_of_ink hc) (ih htext)

theorem Tidy.tail (hc : c ≠ '/') (h : Tidy (c :: s)) : Tidy s := by
  cases h with
  | char _ h => exact h
  | comment => exact absurd rfl hc

namespace Aligned

/-- A character inside of a line, and not at the beginning of a comment. -/
theorem tail (h : Aligned (c :: s) t) (hc : c ≠ '/') (hend : isLineEnd c = false) :
    ∃ t', t = c :: t' ∧ Aligned s t' := by
  obtain ⟨t', rfl, hrelaid⟩ := Relaid.inLine [c] (List.forall_mem_singleton.mpr hend) h.relaid
  exact ⟨t', rfl, hrelaid, h.tidy.tail hc⟩

theorem atLineEnd (h : Aligned s t) (hs : AtLineEnd s) :
    ∃ pad t', t = pad ++ t' ∧ IsLayout pad ∧ AtLineEnd t' ∧ s.head? = t'.head? ∧ Aligned s t' := by
  obtain ⟨pad, t', rfl, hpad, ht', hhead, hrelaid⟩ := h.relaid.atLineEnd hs
  exact ⟨pad, t', rfl, hpad, ht', hhead, hrelaid, h.tidy⟩

/-- Behind the layout the texts go on in the same way. -/
theorem afterLayout (h : Aligned s t) : Aligned (afterLayout s) (afterLayout t) ∧
    (Text.afterLayout s).head? = (Text.afterLayout t).head? := by
  have hend (s t) (hs : AtLineEnd s) (h : Aligned s t) :
      Aligned s (Text.afterLayout t) ∧ s.head? = (Text.afterLayout t).head? := by
    obtain ⟨pad, t', rfl, hpad, ht', hhead, h⟩ := h.atLineEnd hs
    rw [hpad.afterLayout ht']
    exact ⟨h, hhead⟩
  fun_induction Text.afterLayout s generalizing t with
  | case1 => exact hend [] t rfl h
  | case2 c s hc ih =>
    obtain ⟨t', rfl, hrest⟩ := h.tail (ne_slash_of_blank hc) (not_lineEnd_of_blank hc)
    rw [afterLayout_blank hc]
    exact ih hrest
  | case3 c s _ hslash =>
    -- the comment may have become longer
    obtain ⟨rfl, -⟩ := hslash
    obtain ⟨text, r, rfl, htext, hr, htidy⟩ := h.tidy.ofSlash
    obtain ⟨t', rfl, hrelaid⟩ := Relaid.inLine ('/' :: '/' :: text)
      (by simpa [isLineEnd] using htext) h.relaid
    obtain ⟨pad, t', rfl, hpad, ht', hhead, hrest⟩ := Aligned.atLineEnd ⟨hrelaid, htidy⟩ hr
    have hleft : ('/' :: (text ++ r)).dropWhile (!isLineEnd ·) = r :=
      dropWhile_comment htext hr
    have hright : Text.afterLayout ('/' :: '/' :: text ++ (pad ++ t')) = t' := by
      rw [List.cons_append, List.cons_append, afterLayout_comment, ← List.append_assoc]
      exact dropWhile_comment (List.forall_mem_append.mpr ⟨htext, hpad.lineEnd⟩) ht'
    rw [hleft, hright]
    exact ⟨hrest, hhead⟩
  | case4 c s hb hc =>
    cases hline : isLineEnd c with
    | true => exact hend (c :: s) t hline h
    | false =>
      have hne : c ≠ '/' := by
        rintro rfl
        obtain ⟨text, r, rfl, _⟩ := h.tidy.ofSlash
        exact hc ⟨rfl, rfl⟩
      obtain ⟨t', rfl, -⟩ := h.tail hne hline
      rw [afterLayout_char (by simpa using hb) hne]
      exact ⟨h, rfl⟩

/-- Either both texts go on with the same character with a meaning, or neither has one next. -/
theorem uncons (h : Aligned s t) :
    (∃ c s' t', isInk c = true ∧ s = c :: s' ∧ t = c :: t' ∧ Aligned s' t') ∨
      (s.head?.any isInk = false ∧ t.head?.any isInk = false) := by
  cases s with
  | nil =>
    obtain ⟨pad, t', rfl, hpad, ht', -⟩ := h.atLineEnd rfl
    exact .inr ⟨rfl, hpad.not_ink ht'⟩
  | cons c s =>
    cases hline : isLineEnd c with
    | true =>
      obtain ⟨pad, t', rfl, hpad, ht', -⟩ := h.atLineEnd hline
      exact .inr ⟨not_ink_of_lineEnd hline, hpad.not_ink ht'⟩
    | false =>
      cases hink : isInk c with
      | true =>
        obtain ⟨t', rfl, hrest⟩ := h.tail (ne_slash_of_ink hink) hline
        exact .inl ⟨c, s, t', hink, rfl, rfl, hrest⟩
      | false =>
        obtain ⟨t', rfl, -⟩ := Relaid.inLine [c] (List.forall_mem_singleton.mpr hline) h.relaid
        exact .inr ⟨hink, hink⟩

end Aligned

-- ---------------------------------------------------------------- empty lines

/-- Does a line end here, apart from layout? -/
def endsLine (s : List Char) : Bool := (afterLayout s).head?.any isLineEnd

theorem endsLine_cons (h : endsLine s = true) : ∃ c r, afterLayout s = c :: r ∧ isLineEnd c = true := by
  unfold endsLine at h
  cases hs : afterLayout s with
  | nil => rw [hs] at h; cases h
  | cons c r =>
    rw [hs] at h
    exact ⟨c, r, rfl, h⟩

theorem Aligned.endsLine (h : Aligned s t) : endsLine s = endsLine t := by
  unfold Text.endsLine
  rw [h.afterLayout.2]

namespace EmptyLines

theorem append (h : EmptyLines lines) (h' : EmptyLines more) : EmptyLines (lines ++ more) := by
  induction h with
  | nil => exact h'
  | line hpad hc _ ih =>
    rw [List.append_assoc]
    exact .line hpad hc ih

theorem tidy (h : EmptyLines lines) (hs : Tidy s) : Tidy (lines ++ s) := by
  induction h with
  | nil => exact hs
  | line hpad hc _ ih =>
    rw [List.append_assoc, List.cons_append]
    refine tidy_of_afterLayout ?_
    rw [hpad.afterLayout (atLineEnd_cons hc _)]
    exact .char (ne_slash_of_lineEnd hc) ih

/-- A line end that stands first is the end of a line without layout. -/
theorem uncons (h : EmptyLines lines) (hc : isLineEnd c = true) (hr : endsLine r = false)
    (heq : lines ++ r = c :: s) :
    ∃ lines', EmptyLines lines' ∧ s = lines' ++ r ∧ lines'.length < lines.length := by
  cases h with
  | nil =>
    cases heq
    rw [endsLine, afterLayout_atLineEnd (atLineEnd_cons hc s)] at hr
    exact Bool.noConfusion (hc.symm.trans hr)
  | @line pad d rest hpad _ hrest =>
    cases hpad with
    | nil =>
      cases heq
      exact ⟨rest, hrest, rfl, Nat.lt_succ_self _⟩
    | comment =>
      cases heq
      cases hc
    | blank hb =>
      cases heq
      rw [not_lineEnd_of_blank hb] at hc
      cases hc

end EmptyLines

/-- A text begins with as many empty lines as there are. -/
theorem exists_emptyLines (s : List Char) :
    ∃ lines r, s = lines ++ r ∧ EmptyLines lines ∧ endsLine r = false := by
  induction hn : s.length using Nat.strongRecOn generalizing s with
  | ind n ih =>
    obtain ⟨pad, hpad, hs, -⟩ := afterLayout_split s
    cases hend : endsLine s with
    | false => exact ⟨[], s, rfl, .nil, hend⟩
    | true =>
      obtain ⟨c, rest, hafter, hc⟩ := endsLine_cons hend
      rw [hafter] at hs
      have hlt : rest.length < n := by
        rw [← hn, hs, List.length_append, List.length_cons]
        omega
      obtain ⟨lines, r, rfl, hlines, hr⟩ := ih _ hlt rest rfl
      exact ⟨pad ++ c :: lines, r, by simp [hs], .line hpad hc hlines, hr⟩

/-- Empty lines at the beginning of a text are empty lines of any layout of it. -/
theorem Aligned.emptyLines (hlines : EmptyLines lines) (h : Aligned (lines ++ r) t) :
    ∃ lines' r', t = lines' ++ r' ∧ EmptyLines lines' ∧ Aligned r r' := by
  induction hlines generalizing t with
  | nil => exact ⟨[], t, rfl, .nil, h⟩
  | @line pad c rest hpad hc _ ih =>
    rw [List.append_assoc, List.cons_append] at h
    have htidy : Tidy (c :: (rest ++ r)) := by
      have := h.afterLayout.1.tidy
      rwa [hpad.afterLayout (atLineEnd_cons hc _)] at this
    obtain ⟨t', rfl, hrelaid⟩ := Relaid.inLine pad hpad.lineEnd h.relaid
    cases hrelaid with
    | char hno => rw [hc] at hno; cases hno
    | @line _ pad' lines _ t _ hpad' hlines hrelaid =>
      obtain ⟨lines', r', rfl, hlines', hr'⟩ := ih ⟨hrelaid, htidy.tail (ne_slash_of_lineEnd hc)⟩
      refine ⟨(pad ++ pad') ++ c :: (lines ++ lines'), r', by simp, ?_, hr'⟩
      exact .line (hpad.append hpad') hc (hlines.append hlines')

end ProofScript.Text
