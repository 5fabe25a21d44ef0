import ProofScript.Proofs.Layout

/-!
# Parsers that layout does not disturb

`Steady` compares two parsers on a tidy text and another layout of it. Both read something or neither
does, what they read is the same up to a view of it, and what they leave is aligned again. The two are
mostly one and the same parser. They differ where parsers are defined in terms of themselves: the
longer text has more approximations to go through, and so the comparison is bounded by the length of
the texts, which a parser that has consumed something may lower.
-/

namespace ProofScript.Text

namespace Parser

-- ---------------------------------------------------------------- progress

/-- Whatever is read has at least `c` characters, and it is tidy if what is left is. -/
def Advances (c : Nat) (p : Parser α) : Prop :=
  ∀ i a rest, (p i).result = some (a, rest) →
    rest.chars.length + c ≤ i.chars.length ∧ (Tidy rest.chars → Tidy i.chars)

namespace Advances

theorem pure (a : α) : Advances 0 (Pure.pure a) := by
  intro i b rest h
  cases h
  exact ⟨Nat.le_refl _, id⟩

theorem failure (c : Nat) : Advances c (Alternative.failure : Parser α) := by
  intro i a rest h
  cases h

theorem mono {p : Parser α} (h : p.Advances d) (hc : c ≤ d) : p.Advances c := by
  intro i a rest ha
  obtain ⟨hlen, htidy⟩ := h i a rest ha
  exact ⟨by omega, htidy⟩

theorem bind {p : Parser α} {f : α → Parser β} (hp : p.Advances c) (hf : ∀ a, (f a).Advances d) :
    (p >>= f).Advances (c + d) := by
  intro i b rest h
  obtain ⟨a, mid, ha, hb⟩ := result_bind_eq_some h
  obtain ⟨hlen, htidy⟩ := hp i a mid ha
  obtain ⟨hlen', htidy'⟩ := hf a mid b rest hb
  exact ⟨by omega, htidy ∘ htidy'⟩

theorem orElse {p q : Parser α} (hp : p.Advances c) (hq : q.Advances c) : (p <|> q).Advances c := by
  intro i a rest h
  rw [result_orElse] at h
  rcases Option.or_eq_some_iff.mp h with h | ⟨_, h⟩
  · exact hp i a rest h
  · exact hq i a rest h

theorem expecting {p : Parser α} (hp : p.Advances c) : (expecting p).Advances c := by
  intro i a rest h
  rw [result_expecting] at h
  exact hp i a rest h

theorem unfolding {f : Parser α → Parser α} (hf : ∀ p, p.Advances c → (f p).Advances c) (n : Nat) :
    (unfolding f n).Advances c := by
  induction n with
  | zero => exact failure c
  | succ n ih => exact hf _ ih

end Advances

-- ---------------------------------------------------------------- two parsers

/-- The answers are alike up to `view`, and what is left is aligned. -/
def Agreeing (view : α → γ) : Option (α × Input) → Option (α × Input) → Prop :=
  Option.Rel fun x y => view x.1 = view y.1 ∧ Aligned x.2.chars y.2.chars

/-- On texts that are shorter than `n` and `m` the parsers read the same, up to `view`. -/
structure Steady (n m c : Nat) (view : α → γ) (p q : Parser α) : Prop where
  left : p.Advances c
  right : q.Advances c
  both : ∀ i j, i.chars.length < n → j.chars.length < m → Aligned i.chars j.chars →
    Agreeing view (p i).result (q j).result

namespace Steady

variable {n m c d : Nat} {view : α → γ} {view' : β → δ} {p q : Parser α}

theorem mono (h : Steady n' m' d view p q) (hn : n ≤ n') (hm : m ≤ m') (hc : c ≤ d) :
    Steady n m c view p q where
  left := h.left.mono hc
  right := h.right.mono hc
  both i j hi hj := h.both i j (by omega) (by omega)

theorem weaken (h : Steady n m d view p q) (hc : c ≤ d) : Steady n m c view p q :=
  h.mono (Nat.le_refl _) (Nat.le_refl _) hc

theorem lower (h : Steady (n + 1) (m + 1) c view p q) : Steady n m c view p q :=
  h.mono (Nat.le_succ _) (Nat.le_succ _) (Nat.le_refl _)

theorem coarser (h : Steady n m c view p q) (hview : ∀ a b, view a = view b → view'' a = view'' b) :
    Steady n m c view'' p q where
  left := h.left
  right := h.right
  both i j hi hj hij := by
    have hread := h.both i j hi hj hij
    revert hread
    generalize (p i).result = x
    generalize (q j).result = y
    rintro (⟨hab, hrest⟩ | _)
    · exact .some ⟨hview _ _ hab, hrest⟩
    · exact .none

/-- There are no texts to compare. -/
theorem ofAdvances (hp : p.Advances c) (hq : q.Advances c) : Steady 0 m c view p q :=
  ⟨hp, hq, fun _ _ hi => absurd hi (Nat.not_lt_zero _)⟩

theorem pure {a b : α} (h : view a = view b) : Steady n m 0 view (Pure.pure a) (Pure.pure b) where
  left := .pure a
  right := .pure b
  both _ _ _ _ hij := .some ⟨h, hij⟩

theorem failure (view : α → γ) :
    Steady n m c view (Alternative.failure : Parser α) Alternative.failure where
  left := .failure c
  right := .failure c
  both _ _ _ _ _ := .none

/-- What comes after may be compared on texts that are shorter by what was read. -/
theorem bindWithin {f g : α → Parser β} (hp : Steady n m c view p q) (hn : n ≤ n' + c) (hm : m ≤ m' + c)
    (hf : ∀ a b, view a = view b → Steady n' m' d view' (f a) (g b)) :
    Steady n m (c + d) view' (p >>= f) (q >>= g) where
  left := hp.left.bind fun a => (hf a a rfl).left
  right := hp.right.bind fun a => (hf a a rfl).right
  both i j hi hj hij := by
    rw [result_bind, result_bind]
    have hread := hp.both i j hi hj hij
    rcases hpi : (p i).result with _ | ⟨a, i'⟩ <;> rcases hqj : (q j).result with _ | ⟨b, j'⟩ <;>
      rw [hpi, hqj] at hread
    · exact .none
    · cases hread
    · cases hread
    · obtain ⟨hab, hij'⟩ : view a = view b ∧ Aligned i'.chars j'.chars := by
        cases hread with
        | some h => exact h
      have hi' := (hp.left i a i' hpi).1
      have hj' := (hp.right j b j' hqj).1
      exact (hf a b hab).both i' j' (by omega) (by omega) hij'

theorem bind {f g : α → Parser β} (hp : Steady n m c view p q)
    (hf : ∀ a b, view a = view b → Steady n m d view' (f a) (g b)) :
    Steady n m c view' (p >>= f) (q >>= g) :=
  (hp.bindWithin (Nat.le_add_right _ _) (Nat.le_add_right _ _) hf).weaken (Nat.le_add_right _ _)

/-- What comes after takes as much. -/
theorem before {f g : α → Parser β} (hp : Steady n m c view p q)
    (hf : ∀ a b, view a = view b → Steady n m d view' (f a) (g b)) :
    Steady n m d view' (p >>= f) (q >>= g) :=
  (hp.bindWithin (Nat.le_add_right _ _) (Nat.le_add_right _ _) hf).weaken (Nat.le_add_left _ _)

/-- What both have read is the same. -/
theorem andThen {f g : α → Parser β} (hp : Steady n m c id p q)
    (hf : ∀ a, Steady n m d view' (f a) (g a)) : Steady n m c view' (p >>= f) (q >>= g) := by
  have hsame (a b : α) (hab : id a = id b) : Steady n m d view' (f a) (g b) := by
    cases hab
    exact hf a
  exact hp.bind hsame

/-- After one character the texts are shorter. -/
theorem guard {f g : α → Parser β} (hp : Steady (n + 1) (m + 1) 1 id p q)
    (hf : ∀ a, Steady n m d view' (f a) (g a)) : Steady (n + 1) (m + 1) 1 view' (p >>= f) (q >>= g) := by
  have hsame (a b : α) (hab : id a = id b) : Steady n m d view' (f a) (g b) := by
    cases hab
    exact hf a
  exact (hp.bindWithin (Nat.le_refl _) (Nat.le_refl _) hsame).weaken (Nat.le_add_right _ _)

theorem map {f : α → β} (hp : Steady n m c view p q)
    (hf : ∀ a b, view a = view b → view' (f a) = view' (f b)) : Steady n m c view' (f <$> p) (f <$> q) :=
  hp.bind fun a b hab => pure (hf a b hab)

theorem orElse {p' q' : Parser α} (hp : Steady n m c view p q) (hp' : Steady n m c view p' q') :
    Steady n m c view (p <|> p') (q <|> q') where
  left := hp.left.orElse hp'.left
  right := hp.right.orElse hp'.right
  both i j hi hj hij := by
    rw [result_orElse, result_orElse]
    have hread := hp.both i j hi hj hij
    rcases hpi : (p i).result with _ | x <;> rcases hqj : (q j).result with _ | y <;>
      rw [hpi, hqj] at hread
    · exact hp'.both i j hi hj hij
    · cases hread
    · cases hread
    · exact hread

theorem firstOf {ps qs : List (Parser α)} (h : List.Forall₂ (Steady n m c view) ps qs) :
    Steady n m c view (firstOf ps) (firstOf qs) := by
  induction h with
  | nil => exact failure view
  | cons hp _ ih => exact hp.orElse ih

theorem expecting (hp : Steady n m c view p q) : Steady n m c view (expecting p) (expecting q) where
  left := hp.left.expecting
  right := hp.right.expecting
  both i j hi hj hij := by
    rw [result_expecting, result_expecting]
    exact hp.both i j hi hj hij

/-- Approximations are compared on texts that are shorter than their depth. -/
theorem fix {f g : Parser α → Parser α} (hl : ∀ p, p.Advances c → (f p).Advances c)
    (hr : ∀ q, q.Advances c → (g q).Advances c)
    (hf : ∀ {k l p q}, k < n → l < m → Steady k l c view p q → Steady (k + 1) (l + 1) c view (f p) (g q)) :
    Steady n m c view (fix f) (fix g) := by
  have happrox (k l : Nat) (hk : k ≤ n) (hl' : l ≤ m) :
      Steady k l c view (unfolding f k) (unfolding g l) := by
    induction k generalizing l with
    | zero => exact ofAdvances (.unfolding hl 0) (.unfolding hr l)
    | succ k ih =>
      cases l with
      | zero => exact ⟨.unfolding hl (k + 1), .unfolding hr 0, fun _ j _ hj => absurd hj (Nat.not_lt_zero _)⟩
      | succ l => exact hf hk hl' (ih l (Nat.le_of_succ_le hk) (Nat.le_of_succ_le hl'))
  exact {
    left := fun i => Advances.unfolding hl (i.chars.length + 1) i
    right := fun j => Advances.unfolding hr (j.chars.length + 1) j
    both := fun i j hi hj => (happrox _ _ hi hj).both i j (Nat.lt_succ_self _) (Nat.lt_succ_self _) }

/-- What the definitions consult is bounded as well. -/
theorem fixWithin {f g : Parser α → Parser α}
    (hf : ∀ {k l p q}, k ≤ n → l ≤ m → Steady k l c view p q → Steady (k + 1) (l + 1) c view (f p) (g q)) :
    Steady (n + 1) (m + 1) c view (Parser.fix f) (Parser.fix g) := by
  refine fix (fun p hp => ?_) (fun q hq => ?_) fun hk hl => hf (Nat.le_of_lt_succ hk) (Nat.le_of_lt_succ hl)
  · exact (hf (Nat.zero_le n) (Nat.zero_le m) (ofAdvances hp (.failure c))).left
  · exact (hf (Nat.zero_le n) (Nat.zero_le m) (ofAdvances (.failure c) hq)).right

/-- A parser that is defined in terms of itself. -/
theorem fixed {f : Parser α → Parser α}
    (hf : ∀ {k l p q}, Steady k l c view p q → Steady (k + 1) (l + 1) c view (f p) (f q)) :
    Steady n m c view (Parser.fix f) (Parser.fix f) :=
  (fixWithin fun _ _ => hf).lower

/-- Each item takes at least one character. -/
theorem many (hp : Steady n m 1 view p q) : Steady n m 0 (List.map view) (many p) (many q) := by
  have hadvances {p : Parser α} (hp : p.Advances 1) (more : Parser (List α)) (hmore : more.Advances 0) :
      ((do let a ← p; let as ← more; return a :: as) <|> Pure.pure []).Advances 0 :=
    ((hp.bind fun _ => hmore.bind fun _ => .pure _).mono (Nat.zero_le _)).orElse (.pure [])
  refine fix (hadvances hp.left) (hadvances hp.right) fun {k l more more'} hk hl hmore => ?_
  have hitems : Steady (k + 1) (l + 1) (1 + 0) (List.map view)
      (do let a ← p; let as ← more; return a :: as) (do let a ← q; let as ← more'; return a :: as) := by
    refine (hp.mono hk hl (Nat.le_refl 1)).bindWithin (Nat.le_refl _) (Nat.le_refl _) fun a b hab => ?_
    exact hmore.bind fun as bs habs => .pure (by simp [hab, habs])
  exact .orElse (hitems.weaken (Nat.zero_le _)) (.pure rfl)

theorem maybe (hp : Steady n m c view p q) :
    Steady n m 0 (Option.map view) (optional p) (optional q) :=
  .orElse ((hp.map fun a b hab => by simp [hab]).weaken (Nat.zero_le _)) (.pure rfl)

theorem manySame (hp : Steady n m 1 id p q) : Steady n m 0 id (Parser.many p) (Parser.many q) :=
  hp.many.coarser fun _ _ hab => by simpa using hab

theorem maybeSame (hp : Steady n m c id p q) : Steady n m 0 id (optional p) (optional q) :=
  hp.maybe.coarser fun _ _ hab => by simpa using hab

end Steady

-- ---------------------------------------------------------------- characters

/-- A parser that goes by the characters ahead is steady if it takes the same off aligned texts. -/
theorem Steady.ofTakes {view : α → γ} {p : Parser α}
    (hp : ∀ s, Refuses p s ∨ ∃ a r, Takes p s a r ∧ r.length + c ≤ s.length ∧ (Tidy r → Tidy s))
    (hboth : ∀ s t, Aligned s t → Refuses p s ∧ Refuses p t ∨
      ∃ a b r r', Takes p s a r ∧ Takes p t b r' ∧ view a = view b ∧ Aligned r r') :
    Steady n m c view p p := by
  have hadvances : p.Advances c := by
    intro i a rest h
    rcases hp i.chars with hno | ⟨b, r, hr, hadvance⟩
    · cases (hno i.position).symm.trans h
    · obtain ⟨next, hnext⟩ := hr i.position
      cases hnext.symm.trans h
      exact hadvance
  refine ⟨hadvances, hadvances, fun i j _ _ hij => ?_⟩
  rcases hboth i.chars j.chars hij with ⟨hi, hj⟩ | ⟨a, b, r, r', hr, hr', hab, haligned⟩
  · have hi : (p i).result = none := hi i.position
    have hj : (p j).result = none := hj j.position
    rw [hi, hj]
    exact .none
  · obtain ⟨_, hr⟩ : ∃ next, (p i).result = some (a, ⟨r, next⟩) := hr i.position
    obtain ⟨_, hr'⟩ : ∃ next, (p j).result = some (b, ⟨r', next⟩) := hr' j.position
    rw [hr, hr']
    exact .some ⟨hab, haligned⟩

theorem here_steady : Steady n m 0 (fun _ => ()) here here := by
  have hadvances : here.Advances 0 := by
    intro i a rest h
    cases h
    exact ⟨Nat.le_refl _, id⟩
  exact ⟨hadvances, hadvances, fun i j _ _ hij => .some ⟨rfl, hij⟩⟩

section
variable {ok : Char → Bool} (hok : ∀ c, ok c = true → isInk c = true)
include hok

theorem not_ok_of_not_ink {s : List Char} (h : s.head?.any isInk = false) : s.head?.any ok = false := by
  cases s with
  | nil => rfl
  | cons c s =>
    cases hc : ok c with
    | false => exact hc
    | true =>
      have hink : isInk c = false := h
      rw [hok c hc] at hink
      cases hink

theorem aligned_dropWhile {s t : List Char} (h : Aligned s t) :
    s.takeWhile ok = t.takeWhile ok ∧ Aligned (s.dropWhile ok) (t.dropWhile ok) := by
  have hstop {s : List Char} (hs : s.head?.any ok = false) : s.takeWhile ok = [] ∧ s.dropWhile ok = s := by
    cases s with
    | nil => exact ⟨rfl, rfl⟩
    | cons c s =>
      have hc : ok c = false := hs
      simp [hc]
  induction s generalizing t with
  | nil =>
    rcases h.uncons with ⟨c, s', t', -, hs, -⟩ | ⟨-, ht⟩
    · cases hs
    · obtain ⟨htake, hdrop⟩ := hstop (not_ok_of_not_ink hok ht)
      rw [htake, hdrop]
      exact ⟨rfl, h⟩
  | cons c s ih =>
    rcases h.uncons with ⟨c, s', t', -, ⟨⟩, rfl, htail⟩ | ⟨hs, ht⟩
    · cases hc : ok c with
      | true =>
        obtain ⟨htake, hdrop⟩ := ih htail
        simp [hc, htake, hdrop]
      | false => simpa [hc] using h
    · obtain ⟨hs, hs'⟩ := hstop (not_ok_of_not_ink hok hs)
      obtain ⟨ht, ht'⟩ := hstop (not_ok_of_not_ink hok ht)
      rw [hs, ht, hs', ht']
      exact ⟨rfl, h⟩

/-- Characters of a class without blanks, slashes and line ends are taken alike. -/
theorem takeWhile_steady : Steady n m 0 id (takeWhile ok) (takeWhile ok) := by
  refine .ofTakes (fun s => .inr ⟨_, _, takeWhile_takes_run s, ?_, fun htidy => ?_⟩) fun s t h => .inr ?_
  · exact (List.dropWhile_sublist _).length_le
  · have hrun : ∀ c ∈ s.takeWhile ok, isInk c = true := fun c hc =>
      hok c (List.all_eq_true.mp List.all_takeWhile c hc)
    rw [← List.takeWhile_append_dropWhile (p := ok) (l := s)]
    exact htidy.append hrun
  · obtain ⟨htake, hdrop⟩ := aligned_dropWhile hok h
    exact ⟨_, _, _, _, takeWhile_takes_run s, takeWhile_takes_run t, htake, hdrop⟩

/-- A run of one or more characters, where what comes after fails if there is none. -/
theorem run_steady {next : List Char → Parser β} (hnil : next [] = failure)
    (hnext : ∀ run, Steady n m 0 view (next run) (next run)) :
    Steady n m 1 view (takeWhile ok >>= next) (takeWhile ok >>= next) := by
  have hboth : Steady n m 0 view (takeWhile ok >>= next) (takeWhile ok >>= next) :=
    (takeWhile_steady hok).andThen hnext
  have hadvances : (takeWhile ok >>= next).Advances 1 := by
    intro i b rest h
    refine ⟨?_, (hboth.left i b rest h).2⟩
    obtain ⟨run, mid, hrun, hb⟩ := result_bind_eq_some h
    have hle := ((hnext run).left mid b rest hb).1
    cases run with
    | nil => rw [hnil] at hb; cases hb
    | cons c run =>
      obtain ⟨hchars, hmid⟩ :
          i.chars.takeWhile ok = c :: run ∧ mid.chars = i.chars.drop (run.length + 1) := by
        simp only [takeWhile, Option.some.injEq, Prod.mk.injEq] at hrun
        exact ⟨hrun.1, by rw [← hrun.2, hrun.1]; rfl⟩
      have hlen := (List.takeWhile_sublist (l := i.chars) ok).length_le
      rw [hchars, List.length_cons] at hlen
      rw [hmid, List.length_drop] at hle
      omega
  exact ⟨hadvances, hadvances, hboth.both⟩

theorem notNext_steady : Steady n m 0 id (notNext ok) (notNext ok) := by
  have hcases (s : List Char) : Refuses (notNext ok) s ∨
      ∃ a r, Takes (notNext ok) s a r ∧ r.length + 0 ≤ s.length ∧ (Tidy r → Tidy s) := by
    cases h : s.head?.any ok with
    | true => exact .inl (notNext_refuses h)
    | false => exact .inr ⟨(), s, notNext_takes h, Nat.le_refl _, id⟩
  refine .ofTakes hcases fun s t h => ?_
  have hnext : s.head?.any ok = t.head?.any ok := by
    rcases h.uncons with ⟨c, s', t', -, rfl, rfl, -⟩ | ⟨hs, ht⟩
    · rfl
    · rw [not_ok_of_not_ink hok hs, not_ok_of_not_ink hok ht]
  cases hs : s.head?.any ok with
  | true => exact .inl ⟨notNext_refuses hs, notNext_refuses (hnext ▸ hs)⟩
  | false => exact .inr ⟨(), (), s, t, notNext_takes hs, notNext_takes (hnext ▸ hs), rfl, h⟩

end

/-- A word without blanks, slashes and line ends is found alike. -/
theorem aligned_drop {w : List Char} (hw : ∀ c ∈ w, isInk c = true) (h : Aligned s t) :
    w.isPrefixOf s = w.isPrefixOf t ∧
      (w.isPrefixOf s = true → Aligned (s.drop w.length) (t.drop w.length)) := by
  induction w generalizing s t with
  | nil => exact ⟨rfl, fun _ => h⟩
  | cons c w ih =>
    obtain ⟨hc, hw⟩ := List.forall_mem_cons.mp hw
    have hno {s : List Char} (hs : s.head?.any isInk = false) : (c :: w).isPrefixOf s = false := by
      cases s with
      | nil => rfl
      | cons d s =>
        have hne : c ≠ d := by
          rintro rfl
          have hd : isInk c = false := hs
          rw [hc] at hd
          cases hd
        simp [List.isPrefixOf, hne]
    rcases h.uncons with ⟨d, s', t', -, rfl, rfl, htail⟩ | ⟨hs, ht⟩
    · obtain ⟨hstarts, hdrop⟩ := ih hw htail
      refine ⟨by simp only [List.isPrefixOf, hstarts], fun h => hdrop ?_⟩
      exact (Bool.and_eq_true_iff.mp h).2
    · rw [hno hs, hno ht]
      exact ⟨rfl, by simp⟩

theorem literal_steady {w : String} (hw : ∀ c ∈ w.toList, isInk c = true) :
    Steady n m w.toList.length id (literal w) (literal w) := by
  refine .ofTakes (fun s => ?_) fun s t h => ?_
  · cases hs : w.toList.isPrefixOf s with
    | false => exact .inl (literal_refuses_text hs)
    | true =>
      obtain ⟨r, rfl⟩ := List.isPrefixOf_iff_prefix.mp hs
      exact .inr ⟨(), r, literal_takes w r, by rw [List.length_append]; omega, .append hw⟩
  · obtain ⟨hstarts, hdrop⟩ := aligned_drop hw h
    cases hs : w.toList.isPrefixOf s with
    | false => exact .inl ⟨literal_refuses_text hs, literal_refuses_text (hstarts ▸ hs)⟩
    | true =>
      have hrest := hdrop hs
      obtain ⟨r, rfl⟩ := List.isPrefixOf_iff_prefix.mp hs
      obtain ⟨r', rfl⟩ := List.isPrefixOf_iff_prefix.mp (hstarts ▸ hs)
      rw [List.drop_left, List.drop_left] at hrest
      exact .inr ⟨(), (), r, r', literal_takes w r, literal_takes w r', rfl, hrest⟩

end Parser

open ProofScript.Text.Parser

-- ---------------------------------------------------------------- layout

theorem skip_takes_layout (s : List Char) : Takes skip s () (afterLayout s) := by
  have hcomment : Takes (comment <|> pure ()) (s.dropWhile isBlank) () (afterLayout s) := by
    fun_induction afterLayout s with
    | case1 => exact .right ((literal_refuses_text rfl).bind _) (.pure ())
    | case2 c s hc ih => rwa [List.dropWhile_cons_of_pos hc]
    | case3 c s hc hslash =>
      obtain ⟨rfl, hs⟩ := hslash
      obtain ⟨s, rfl⟩ := List.head?_eq_some_iff.mp hs
      exact .left ((literal_takes "//" s).bind ((takeWhile_takes_run s).map _)) _
    | case4 c s hc hslash =>
      rw [List.dropWhile_cons_of_neg hc]
      have hno : "//".toList.isPrefixOf (c :: s) = false := by
        by_contra h
        obtain ⟨r, hr⟩ := List.isPrefixOf_iff_prefix.mp (Bool.not_eq_false _ ▸ h)
        cases hr
        exact hslash ⟨rfl, rfl⟩
      exact .right ((literal_refuses_text hno).bind _) (.pure ())
  exact ((takeWhile_takes_run s).map _).bind hcomment

theorem skip_steady : Steady n m 0 id skip skip := by
  refine .ofTakes (fun s => .inr ⟨(), _, skip_takes_layout s, ?_⟩) fun s t h => .inr ?_
  · exact ⟨length_afterLayout s, tidy_of_afterLayout⟩
  · exact ⟨(), (), _, _, skip_takes_layout s, skip_takes_layout t, rfl, h.afterLayout.1⟩

theorem phrase_steady {view : α → γ} {p q : Parser α} (h : Steady n m c view p q) :
    Steady n m c view (phrase p) (phrase q) :=
  (skip_steady.before fun _ _ _ => h.expecting)

/-- A token is one or more characters with a meaning. -/
def isToken (s : String) : Bool := !s.toList.isEmpty && s.toList.all isInk

theorem literal_steady_of_isToken (h : isToken s = true) : Steady n m 1 id (literal s) (literal s) := by
  simp only [isToken, Bool.and_eq_true, Bool.not_eq_true', List.isEmpty_eq_false_iff,
    List.all_eq_true] at h
  exact (literal_steady h.2).weaken (List.length_pos_iff.mpr h.1)

theorem token_steady (h : isToken s = true) : Steady n m 1 id (token s) (token s) :=
  skip_steady.before fun _ _ _ => literal_steady_of_isToken h

-- ---------------------------------------------------------------- line ends

theorem newline_refuses (h : endsLine s = false) : Refuses newline s := by
  have hhead (c : Char) (hc : isLineEnd c = true) : (afterLayout s).head? ≠ some c := by
    intro hs
    rw [endsLine, hs] at h
    exact Bool.noConfusion (hc.symm.trans h)
  refine .firstOf fun p hp => ?_
  simp only [List.mem_cons, List.not_mem_nil, or_false] at hp
  rcases hp with rfl | rfl | rfl
  · exact .after (skip_takes_layout s) (literal_refuses rfl (hhead '\n' rfl))
  · exact .after (skip_takes_layout s) (literal_refuses rfl (hhead '\r' rfl))
  · exact .after (skip_takes_layout s) (literal_refuses rfl (hhead '\r' rfl))

/-- A line feed is taken together with the carriage return before it. -/
theorem newline_takes (h : afterLayout s = c :: r) (hc : isLineEnd c = true) :
    Takes newline s () r ∨ ∃ r', r = '\n' :: r' ∧ Takes newline s () r' := by
  have hskip := h ▸ skip_takes_layout s
  simp only [isLineEnd, Bool.or_eq_true, beq_iff_eq] at hc
  rcases hc with rfl | rfl
  · exact .inl ((hskip.bind (literal_takes "\n" r)).left _)
  have hfeed : Refuses (token "\n") s := .after hskip (literal_refuses (c := '\n') rfl (by simp))
  by_cases hr : ∃ r', r = '\n' :: r'
  · obtain ⟨r', rfl⟩ := hr
    exact .inr ⟨r', rfl, .right hfeed ((hskip.bind (literal_takes "\r\n" r')).left _)⟩
  · have hpair : Refuses (token "\r\n") s := by
      refine .after hskip (literal_refuses_text (Bool.eq_false_iff.mpr fun hstarts => ?_))
      obtain ⟨r', hr'⟩ := List.isPrefixOf_iff_prefix.mp hstarts
      cases hr'
      exact hr ⟨r', rfl⟩
    exact .inl (.right hfeed (.right hpair ((hskip.bind (literal_takes "\r" r)).left _)))

/-- All empty lines are taken. -/
theorem row_newline (hlines : EmptyLines lines) (hr : endsLine r = false) :
    ∃ us, Row newline (lines ++ r) us r := by
  induction hn : lines.length using Nat.strongRecOn generalizing lines with
  | ind n ih =>
    cases hlines with
    | nil => exact ⟨[], .nil (newline_refuses hr)⟩
    | @line pad c rest hpad hc hrest =>
      have hafter : afterLayout (pad ++ c :: rest ++ r) = c :: (rest ++ r) := by
        rw [List.append_assoc, List.cons_append]
        exact hpad.afterLayout (atLineEnd_cons hc _)
      have hlen : rest.length < n := by
        rw [← hn, List.length_append, List.length_cons]
        omega
      rcases newline_takes hafter hc with htakes | ⟨r', hr', htakes⟩
      · obtain ⟨us, hus⟩ := ih _ hlen hrest rfl
        exact ⟨() :: us, .cons htakes (by simp; omega) hus⟩
      · -- the line feed ends an empty line of its own
        obtain ⟨lines', hlines', rfl, hlt⟩ := hrest.uncons (c := '\n') rfl hr hr'
        obtain ⟨us, hus⟩ := ih _ (Nat.lt_trans hlt hlen) hlines' rfl
        exact ⟨() :: us, .cons htakes (by simp; omega) hus⟩

/-- Where lines end, the empty lines are taken and all else is left. -/
theorem newlines_take (s : List Char) : ∃ lines us r, s = lines ++ r ∧ EmptyLines lines ∧
    endsLine r = false ∧ Row newline s us r := by
  obtain ⟨lines, r, rfl, hlines, hr⟩ := exists_emptyLines s
  obtain ⟨us, hus⟩ := row_newline hlines hr
  exact ⟨lines, us, r, rfl, hlines, hr, hus⟩

theorem newlines_take_aligned (h : Aligned s t) :
    ∃ us us' r r', Row newline s us r ∧ Row newline t us' r' ∧ Aligned r r' := by
  obtain ⟨lines, us, r, rfl, hlines, hr, hus⟩ := newlines_take s
  obtain ⟨lines', r', rfl, hlines', hrest⟩ := h.emptyLines hlines
  obtain ⟨us', hus'⟩ := row_newline hlines' (hrest.endsLine ▸ hr)
  exact ⟨us, us', r, r', hus, hus', hrest⟩

theorem newlines_steady : Steady n m 0 id (discard (many newline)) (discard (many newline)) := by
  refine .ofTakes (fun s => .inr ?_) fun s t h => .inr ?_
  · obtain ⟨lines, us, r, rfl, hlines, -, hus⟩ := newlines_take s
    exact ⟨(), r, hus.many.map _, by rw [List.length_append]; omega, hlines.tidy⟩
  · obtain ⟨us, us', r, r', hus, hus', hrest⟩ := newlines_take_aligned h
    exact ⟨(), (), r, r', hus.many.map _, hus'.many.map _, rfl, hrest⟩

/-- If a line ends here, there is at least one line end. -/
theorem lineEnds_take (hus : Row newline s us r) (h : endsLine s = true) :
    Takes (do newline; discard (many newline)) s () r := by
  cases hus with
  | cons htakes _ hus => exact htakes.bind (hus.many.map _)
  | nil hno =>
    obtain ⟨c, rest, hafter, hc⟩ := endsLine_cons h
    rcases newline_takes hafter hc with htakes | ⟨_, -, htakes⟩
    · exact (htakes.not_refuses hno).elim
    · exact (htakes.not_refuses hno).elim

theorem lineEnds_steady : Steady n m 0 id (do newline; discard (many newline))
    (do newline; discard (many newline)) := by
  refine .ofTakes (fun s => ?_) fun s t h => ?_
  · cases hs : endsLine s with
    | false => exact .inl ((newline_refuses hs).bind _)
    | true =>
      obtain ⟨lines, us, r, rfl, hlines, -, hus⟩ := newlines_take s
      exact .inr ⟨(), r, lineEnds_take hus hs, by rw [List.length_append]; omega, hlines.tidy⟩
  · have hends := h.endsLine
    cases hs : endsLine s with
    | false => exact .inl ⟨(newline_refuses hs).bind _, (newline_refuses (hends ▸ hs)).bind _⟩
    | true =>
      obtain ⟨us, us', r, r', hus, hus', hrest⟩ := newlines_take_aligned h
      exact .inr ⟨(), (), r, r', lineEnds_take hus hs, lineEnds_take hus' (hends ▸ hs), rfl, hrest⟩

theorem endOfInput_takes (h : afterLayout s = []) : Takes endOfInput s () [] :=
  (h ▸ skip_takes_layout s).bind (.expecting fun place => ⟨place, rfl⟩)

theorem endOfInput_refuses (h : afterLayout s = c :: r) : Refuses endOfInput s :=
  .after (h ▸ skip_takes_layout s) (.expecting fun _ => rfl)

theorem endOfInput_finishes (h : (endOfInput i).result = some (u, rest)) : rest.chars = [] := by
  cases hi : afterLayout i.chars with
  | nil =>
    obtain ⟨next, hnext⟩ := endOfInput_takes hi i.position
    cases hnext.symm.trans h
    rfl
  | cons c r => cases (endOfInput_refuses hi i.position).symm.trans h

theorem endOfInput_steady : Steady n m 0 id endOfInput endOfInput := by
  refine .ofTakes (fun s => ?_) fun s t h => ?_
  · cases hs : afterLayout s with
    | nil => exact .inr ⟨(), [], endOfInput_takes hs, Nat.zero_le _, fun h => tidy_of_afterLayout (hs ▸ h)⟩
    | cons c r => exact .inl (endOfInput_refuses hs)
  · obtain ⟨hrest, hhead⟩ := h.afterLayout
    rcases hs : afterLayout s with _ | ⟨c, r⟩ <;> rcases ht : afterLayout t with _ | ⟨c', r'⟩ <;>
      rw [hs, ht] at hhead
    · exact .inr ⟨(), (), [], [], endOfInput_takes hs, endOfInput_takes ht, rfl, by rwa [hs, ht] at hrest⟩
    · cases hhead
    · cases hhead
    · exact .inl ⟨endOfInput_refuses hs, endOfInput_refuses ht⟩

theorem endOfLine_steady : Steady n m 0 id endOfLine endOfLine := lineEnds_steady.orElse endOfInput_steady

-- ---------------------------------------------------------------- names and numerals

theorem isInk_of_isNameChar (c : Char) (h : isNameChar c = true) : isInk c = true := by
  have hplain : ∀ d ∈ [' ', '\t', '/', '\n', '\r'], isNameChar d = false :=
    forall_mem_of_all (by decide +kernel)
  by_contra hink
  have hc : c ∈ [' ', '\t', '/', '\n', '\r'] := by
    simp [isInk, isSolid, isBlank, isLineEnd] at hink
    grind
  rw [hplain c hc] at h
  cases h

theorem isInk_of_isDigit (c : Char) (h : c.isDigit = true) : isInk c = true :=
  isInk_of_isNameChar c (isNameChar_of_isDigit h)

theorem endOfWord_steady : Steady n m 0 id endOfWord endOfWord :=
  skip_steady.andThen fun _ => notNext_steady isInk_of_isNameChar

theorem name_steady : Steady n m 1 id name name := by
  refine phrase_steady (run_steady isInk_of_isNameChar rfl fun run => ?_)
  split
  · exact .pure rfl
  · exact .failure id

theorem digits_steady : Steady n m 1 id digits digits := by
  refine run_steady isInk_of_isDigit rfl fun run => ?_
  split
  · exact .failure id
  · exact .pure rfl

theorem numeral_steady : Steady n m 1 id numeral numeral := by
  have hfraction : Steady n m 0 id (do literal "."; let ds ← digits; return '.' :: ds)
      (do literal "."; let ds ← digits; return '.' :: ds) :=
    ((literal_steady_of_isToken rfl).andThen fun _ => digits_steady.andThen fun _ => .pure rfl).weaken
      (Nat.zero_le _)
  exact phrase_steady <| digits_steady.andThen fun _ =>
    (hfraction.orElse (.pure rfl)).andThen fun _ => .pure rfl

end ProofScript.Text
