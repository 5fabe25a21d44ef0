import Mathlib.Data.List.Sort
import ProofScript.Scopes

/-!
# Cursor walks

A cursor goes on while the scopes under it open, close and grow. Main statement: over any history of
calls the places at which it yields increase strictly, what it yields stands at that place at that
moment, and once it has nothing left to yield, the items that have been there from the start have
each been yielded once, in their order.
-/

namespace ProofScript.Scopes

-- ---------------------------------------------------------------- places

namespace Cursor

/-- A cursor names the place it stands at. Places are ordered by level, and by index in a level. -/
def Before (p q : Cursor) : Prop := p.level < q.level ∨ p.level = q.level ∧ p.index < q.index

/-- Where a cursor goes that yields the item at `p`. -/
def next (p : Cursor) : Cursor := { p with index := p.index + 1 }

/-- The place at which a cursor has last yielded. -/
def last (c : Cursor) : Cursor := { c with index := c.index - 1 }

theorem before_irrefl (p : Cursor) : ¬p.Before p := by
  unfold Before
  omega

theorem Before.asymm {p q : Cursor} (h : p.Before q) : ¬q.Before p := by
  unfold Before at *
  omega

/-- Nothing is before the place where a cursor starts. -/
theorem not_before_cursor (p : Cursor) : ¬p.Before cursor := by
  simp [Before, cursor]

theorem Before.trans_not {p q r : Cursor} (h : p.Before q) (h' : ¬r.Before q) : p.Before r := by
  unfold Before at *
  omega

theorem before_trichotomy (p q : Cursor) : p.Before q ∨ p = q ∨ q.Before p := by
  obtain ⟨n, i⟩ := p
  obtain ⟨m, j⟩ := q
  simp only [Before, mk.injEq]
  omega

theorem not_before_next {p q : Cursor} : ¬q.Before p.next ↔ p.Before q := by
  simp only [Before, next]
  omega

end Cursor

def at? (s : Scopes α) (p : Cursor) : Option α := s.levels[p.level]?.bind fun level => level[p.index]?

/-- The items of some levels with their places; `n` is the first of these levels. -/
def placesFrom (n : Nat) : List (List α) → List (Cursor × α)
  | [] => []
  | level :: rest => level.zipIdx.map (fun (a, i) => (⟨n, i⟩, a)) ++ placesFrom (n + 1) rest

/-- The visible items with their places, outermost scope first. -/
def places (s : Scopes α) : List (Cursor × α) := placesFrom 0 s.levels

theorem placesFrom_items (n : Nat) (levels : List (List α)) :
    (placesFrom n levels).map Prod.snd = levels.flatten := by
  induction levels generalizing n with
  | nil => rfl
  | cons level rest ih => simp [placesFrom, ih, Function.comp_def]

theorem mem_placesFrom {levels : List (List α)} : (p, a) ∈ placesFrom n levels ↔
    n ≤ p.level ∧ levels[p.level - n]?.bind (fun level => level[p.index]?) = some a := by
  induction levels generalizing n with
  | nil => simp [placesFrom]
  | cons level rest ih =>
    obtain ⟨l, i⟩ := p
    simp only [placesFrom, List.mem_append, ih, List.mem_map, Prod.exists, List.mem_zipIdx_iff_getElem?,
      Prod.mk.injEq, Cursor.mk.injEq]
    constructor
    · rintro (⟨b, j, hb, ⟨rfl, rfl⟩, rfl⟩ | ⟨hle, ha⟩)
      · simpa using hb
      · have hsub : l - n = l - (n + 1) + 1 := by omega
        exact ⟨by omega, by simpa [hsub] using ha⟩
    · rintro ⟨hle, ha⟩
      rcases Nat.eq_or_lt_of_le hle with rfl | hlt
      · exact .inl ⟨a, i, by simpa using ha, ⟨rfl, rfl⟩, rfl⟩
      · have hsub : l - n = l - (n + 1) + 1 := by omega
        exact .inr ⟨hlt, by simpa [hsub] using ha⟩

theorem mem_places {s : Scopes α} : (p, a) ∈ s.places ↔ s.at? p = some a := by
  simp [places, at?, mem_placesFrom]

theorem placesFrom_increase (n : Nat) (levels : List (List α)) :
    (placesFrom n levels).Pairwise fun p q => p.1.Before q.1 := by
  induction levels generalizing n with
  | nil => exact .nil
  | cons level rest ih =>
    refine List.pairwise_append.mpr ⟨?_, ih (n + 1), ?_⟩
    · have hindices : (level.zipIdx.map Prod.snd).Pairwise (· < ·) := by
        rw [List.zipIdx_map_snd]
        exact List.pairwise_lt_range'
      exact List.pairwise_map.mpr ((List.pairwise_map.mp hindices).imp fun h => .inr ⟨rfl, h⟩)
    · rintro _ hp ⟨q, b⟩ hq
      obtain ⟨_, _, rfl⟩ := List.mem_map.mp hp
      exact .inl (mem_placesFrom.mp hq).1

-- ---------------------------------------------------------------- what calls do to the places

theorem levels_enter (s : Scopes α) (tag : String) : (s.enter tag).levels = s.levels ++ [[]] := by
  simp [levels, enter]

theorem levels_exit {s s' : Scopes α} (h : s.exit tag = .ok s') :
    ∃ closed, s.levels = s'.levels ++ [closed] := by
  unfold exit at h
  split at h
  · cases h
  · rename_i scope rest hopened
    split at h
    · cases h
      exact ⟨scope.items, by simp [levels, hopened]⟩
    · cases h

theorem levels_add (s : Scopes α) (a : α) :
    ∃ outer innermost, s.levels = outer ++ [innermost] ∧
      (s.add a).levels = outer ++ [innermost ++ [a]] := by
  unfold add addAll
  cases h : s.opened with
  | nil => exact ⟨[], s.base, by simp [levels, h]⟩
  | cons scope rest => exact ⟨s.base :: rest.reverse.map Scope.items, scope.items, by simp [levels, h]⟩

/-- Levels that come on top leave the places below as they are. -/
theorem at?_of_levels {s s' : Scopes α} (hlevels : s'.levels = s.levels ++ more) (h : s.at? p = some a) :
    s'.at? p = some a := by
  obtain ⟨level, hlevel, ha⟩ := Option.bind_eq_some_iff.mp h
  refine Option.bind_eq_some_iff.mpr ⟨level, ?_, ha⟩
  rw [hlevels, List.getElem?_append_left (List.getElem?_eq_some_iff.mp hlevel).1, hlevel]

theorem at?_add {s : Scopes α} (h : s.at? p = some a) (b : α) : (s.add b).at? p = some a := by
  obtain ⟨outer, innermost, hlevels, hadd⟩ := s.levels_add b
  obtain ⟨level, hlevel, ha⟩ := Option.bind_eq_some_iff.mp h
  unfold at?
  rw [hlevels] at hlevel
  rw [hadd]
  grind

/-- A cursor that advances from `c` yields what it finds at the first place from `c` on where it
finds anything. -/
def YieldsNext (found : Cursor → Option α) (c : Cursor) : Option α × Cursor → Prop
  | (some a, c') => ∃ p, c' = p.next ∧ ¬p.Before c ∧ found p = some a ∧
      ∀ q, ¬q.Before c → q.Before p → found q = none
  | (none, c') => ¬c'.Before c ∧ ∀ q, ¬q.Before c → found q = none

/-- Nothing is left at the level of `c`, so the search goes on at the start of the one above. -/
theorem YieldsNext.levelUp {found : Cursor → Option α} {result : Option α × Cursor}
    (h : YieldsNext found ⟨c.level + 1, 0⟩ result)
    (hlevel : ∀ q : Cursor, q.level = c.level → ¬q.Before c → found q = none) :
    YieldsNext found c result := by
  have hup {q : Cursor} (hq : ¬q.Before ⟨c.level + 1, 0⟩) : ¬q.Before c := by
    simp only [Cursor.Before] at *
    omega
  have hfound (q : Cursor) (hc : ¬q.Before c) (hq : ¬q.Before ⟨c.level + 1, 0⟩ → found q = none) :
      found q = none := by
    by_cases hlt : q.Before ⟨c.level + 1, 0⟩
    · refine hlevel q ?_ hc
      simp only [Cursor.Before] at *
      omega
    · exact hq hlt
  obtain ⟨_ | a, c'⟩ := result
  · exact ⟨hup h.1, fun q hc => hfound q hc (h.2 q)⟩
  · obtain ⟨p, hc', hp, ha, hbelow⟩ := h
    exact ⟨p, hc', hup hp, ha, fun q hc hq => hfound q hc fun hlt => hbelow q hlt hq⟩

theorem advanceIn_yieldsNext (levels : List (List α)) (c : Cursor) (h : levels.drop c.level = left) :
    YieldsNext (fun p => levels[p.level]?.bind fun level => level[p.index]?) c (advanceIn left c) := by
  induction left generalizing c with
  | nil =>
    refine ⟨c.before_irrefl, fun q hq => ?_⟩
    have hlength : levels.length ≤ q.level := by
      have := List.drop_eq_nil_iff.mp h
      unfold Cursor.Before at hq
      omega
    simp [List.getElem?_eq_none hlength]
  | cons level rest ih =>
    have hlevel : levels[c.level]? = some level := by
      rw [← List.head?_drop, h, List.head?_cons]
    simp only [advanceIn]
    cases hi : level[c.index]? with
    | some a =>
      refine ⟨c, rfl, c.before_irrefl, by simp [hlevel, hi], fun q hq hq' => absurd hq' hq⟩
    | none =>
      have hrest : levels.drop (c.level + 1) = rest := by
        rw [← List.drop_drop, h]
        rfl
      refine (ih ⟨c.level + 1, 0⟩ hrest).levelUp fun q hq hc => ?_
      have hindex : level.length ≤ q.index := by
        have := List.getElem?_eq_none_iff.mp hi
        unfold Cursor.Before at hc
        omega
      simp [hq, hlevel, List.getElem?_eq_none hindex]

theorem advance_yieldsNext (s : Scopes α) (c : Cursor) : YieldsNext s.at? c (s.advance c) :=
  advanceIn_yieldsNext s.levels c rfl

/-- A cursor with nothing left to yield is past every item. -/
theorem before_of_advance_eq_none {s : Scopes α} (h : (s.advance c).1 = none) (hp : (s.at? p).isSome) :
    p.Before c := by
  have hnext := s.advance_yieldsNext c
  rcases hadvance : s.advance c with ⟨_ | a, c'⟩ <;> rw [hadvance] at h hnext
  · by_contra hc
    rw [hnext.2 p hc] at hp
    cases hp
  · cases h

-- ---------------------------------------------------------------- histories

/-- What can happen to scopes that a cursor walks. -/
inductive Call (α : Type)
  | enter (tag : String)
  | exit (tag : String)
  | add (item : α)
  | advance

/-- The scopes and the cursor at one moment. -/
structure Walk (α : Type) where
  scopes : Scopes α
  cursor : Cursor := Scopes.cursor

/-- An item that was yielded, with its place and the scopes at that moment. -/
structure Meeting (α : Type) where
  scopes : Scopes α
  place : Cursor
  item : α

namespace Walk

/-- A scope that cannot be closed stays open. -/
def after (w : Walk α) : Call α → Walk α
  | .enter tag => { w with scopes := w.scopes.enter tag }
  | .exit tag => match w.scopes.exit tag with
    | .ok scopes => { w with scopes }
    | .error _ => w
  | .add a => { w with scopes := w.scopes.add a }
  | .advance => { w with cursor := (w.scopes.advance w.cursor).2 }

def meets? (w : Walk α) : Call α → Option (Meeting α)
  | .advance =>
    let (item?, cursor) := w.scopes.advance w.cursor
    item?.map fun item => ⟨w.scopes, cursor.last, item⟩
  | _ => none

/-- What the cursor yields in the course of a history. -/
def meetings (w : Walk α) : List (Call α) → List (Meeting α)
  | [] => []
  | call :: calls => (w.meets? call).toList ++ (w.after call).meetings calls

/-- The moments of a history, from its start to its end. -/
def moments (w : Walk α) : List (Call α) → List (Walk α)
  | [] => [w]
  | call :: calls => w :: (w.after call).moments calls

def afterAll (w : Walk α) (calls : List (Call α)) : Walk α := calls.foldl after w

/-- An item is at the place at every moment. A scope that closes takes its places away, so it is
always the same item, and it has never left. -/
def stays (w : Walk α) (calls : List (Call α)) (p : Cursor) : Bool :=
  (w.moments calls).all fun moment => (moment.scopes.at? p).isSome

-- ---------------------------------------------------------------- one call

/-- What is at a place before and after a call is the same item. -/
theorem at?_after {w : Walk α} {call : Call α} (h : w.scopes.at? p = some a)
    (hafter : ((w.after call).scopes.at? p).isSome) : (w.after call).scopes.at? p = some a := by
  cases call with
  | enter tag => exact at?_of_levels (levels_enter w.scopes tag) h
  | exit tag =>
    simp only [after] at hafter ⊢
    split at hafter
    · rename_i scopes hexit
      obtain ⟨closed, hlevels⟩ := levels_exit hexit
      obtain ⟨b, hb⟩ := Option.isSome_iff_exists.mp hafter
      have hsame : some b = some a := (at?_of_levels hlevels hb).symm.trans h
      exact hb.trans hsame
    · exact h
  | add b => exact at?_add h b
  | advance => exact h

theorem meets?_eq_some {w : Walk α} (h : w.meets? call = some m) :
    m.scopes = w.scopes ∧ w.scopes.at? m.place = some m.item ∧ ¬m.place.Before w.cursor ∧
      (w.after call).cursor = m.place.next ∧
      ∀ q, ¬q.Before w.cursor → q.Before m.place → w.scopes.at? q = none := by
  cases call with
  | advance =>
    have hnext := w.scopes.advance_yieldsNext w.cursor
    simp only [meets?] at h
    rcases hadvance : w.scopes.advance w.cursor with ⟨_ | a, c'⟩ <;> rw [hadvance] at h hnext
    · cases h
    · cases h
      obtain ⟨p, rfl, hp, ha, hbelow⟩ := hnext
      exact ⟨rfl, ha, hp, by simp [after, hadvance, Cursor.last, Cursor.next], hbelow⟩
  | _ => cases h

/-- A cursor that yields nothing has nothing to pass. -/
theorem meets?_eq_none {w : Walk α} (h : w.meets? call = none) :
    ¬(w.after call).cursor.Before w.cursor ∧
      ∀ q, ¬q.Before w.cursor → q.Before (w.after call).cursor → w.scopes.at? q = none := by
  cases call with
  | advance =>
    have hnext := w.scopes.advance_yieldsNext w.cursor
    simp only [meets?] at h
    rcases hadvance : w.scopes.advance w.cursor with ⟨_ | a, c'⟩ <;> rw [hadvance] at h hnext
    · simp only [after, hadvance]
      exact ⟨hnext.1, fun q hq _ => hnext.2 q hq⟩
    · cases h
  | enter tag | add a => exact ⟨w.cursor.before_irrefl, fun q hq hq' => absurd hq' hq⟩
  | exit tag =>
    have hcursor : (w.after (.exit tag)).cursor = w.cursor := by
      simp only [after]
      split <;> rfl
    rw [hcursor]
    exact ⟨w.cursor.before_irrefl, fun q hq hq' => absurd hq' hq⟩

/-- A call never takes the cursor back. -/
theorem not_before_of_after {w : Walk α} {call : Call α} {p : Cursor}
    (h : ¬p.Before (w.after call).cursor) : ¬p.Before w.cursor := by
  cases hm : w.meets? call with
  | none => exact fun hp => h (hp.trans_not (meets?_eq_none hm).1)
  | some m =>
    obtain ⟨-, -, hplace, hcursor, -⟩ := meets?_eq_some hm
    rw [hcursor, Cursor.not_before_next] at h
    exact fun hp => hplace (h.trans_not hp.asymm)

-- ---------------------------------------------------------------- whole histories

theorem stays_cons {w : Walk α} : w.stays (call :: calls) p = true ↔
    (w.scopes.at? p).isSome ∧ (w.after call).stays calls p := by
  simp [stays, moments]

theorem stays_now {w : Walk α} (h : w.stays calls p = true) : (w.scopes.at? p).isSome := by
  cases calls with
  | nil => simpa [stays, moments] using h
  | cons call calls => exact (stays_cons.mp h).1

theorem stays_end {w : Walk α} (h : w.stays calls p = true) :
    ((w.afterAll calls).scopes.at? p).isSome := by
  induction calls generalizing w with
  | nil => exact stays_now h
  | cons call calls ih => exact ih (stays_cons.mp h).2

theorem meetings_found {w : Walk α} : ∀ m ∈ w.meetings calls, m.scopes.at? m.place = some m.item := by
  induction calls generalizing w with
  | nil => simp [meetings]
  | cons call calls ih =>
    intro m hm
    rcases List.mem_append.mp hm with hm | hm
    · obtain ⟨hscopes, hfound, -⟩ := meets?_eq_some (Option.mem_toList.mp hm)
      rw [hscopes, hfound]
    · exact ih m hm

theorem meetings_ahead {w : Walk α} : ∀ m ∈ w.meetings calls, ¬m.place.Before w.cursor := by
  induction calls generalizing w with
  | nil => simp [meetings]
  | cons call calls ih =>
    intro m hm
    rcases List.mem_append.mp hm with hm | hm
    · exact (meets?_eq_some (Option.mem_toList.mp hm)).2.2.1
    · exact not_before_of_after (ih m hm)

theorem meetings_increase (w : Walk α) (calls : List (Call α)) :
    (w.meetings calls).Pairwise fun m n => m.place.Before n.place := by
  induction calls generalizing w with
  | nil => exact .nil
  | cons call calls ih =>
    refine List.pairwise_append.mpr ⟨?_, ih _, ?_⟩
    · cases w.meets? call <;> simp
    · intro m hm n hn
      have hahead := meetings_ahead n hn
      obtain ⟨-, -, -, hcursor, -⟩ := meets?_eq_some (Option.mem_toList.mp hm)
      rwa [hcursor, Cursor.not_before_next] at hahead

/-- A cursor passes no item that stays without yielding it. -/
theorem exists_meeting {w : Walk α} {p : Cursor} (hstays : w.stays calls p = true)
    (hstart : ¬p.Before w.cursor) (hend : p.Before (w.afterAll calls).cursor) :
    ∃ m ∈ w.meetings calls, m.place = p := by
  induction calls generalizing w with
  | nil => exact absurd hend hstart
  | cons call calls ih =>
    have hnow := (stays_cons.mp hstays).1
    have hlater (hp : ¬p.Before (w.after call).cursor) :
        ∃ m ∈ w.meetings (call :: calls), m.place = p := by
      obtain ⟨m, hm, hplace⟩ := ih (stays_cons.mp hstays).2 hp hend
      exact ⟨m, List.mem_append_right _ hm, hplace⟩
    cases hm : w.meets? call with
    | none =>
      refine hlater fun hp => ?_
      rw [(meets?_eq_none hm).2 p hstart hp] at hnow
      cases hnow
    | some m =>
      obtain ⟨-, -, -, hcursor, hbelow⟩ := meets?_eq_some hm
      rcases Cursor.before_trichotomy p m.place with hp | rfl | hp
      · rw [hbelow p hstart hp] at hnow
        cases hnow
      · exact ⟨m, List.mem_append_left _ (Option.mem_toList.mpr hm), rfl⟩
      · refine hlater ?_
        rwa [hcursor, Cursor.not_before_next]

/-- An item that stays is yielded as it was at the start. -/
theorem item_of_stays {w : Walk α} (hstays : w.stays calls p = true) (h : w.scopes.at? p = some a) :
    ∀ m ∈ w.meetings calls, m.place = p → m.item = a := by
  induction calls generalizing w with
  | nil => simp [meetings]
  | cons call calls ih =>
    have hlater := (stays_cons.mp hstays).2
    intro m hm hplace
    rcases List.mem_append.mp hm with hm | hm
    · obtain ⟨-, hfound, -⟩ := meets?_eq_some (Option.mem_toList.mp hm)
      rw [hplace, h] at hfound
      exact (Option.some.inj hfound).symm
    · exact ih hlater (at?_after h (stays_now hlater)) m hm hplace

/-- What a cursor yields at a place that keeps its item is what stood there at the start. -/
theorem mem_yielded_iff {w : Walk α} (hstart : ∀ p : Cursor, ¬p.Before w.cursor)
    (hend : ((w.afterAll calls).scopes.advance (w.afterAll calls).cursor).1 = none)
    (hstays : w.stays calls p = true) :
    (p, a) ∈ (w.meetings calls).map (fun m => (m.place, m.item)) ↔ (p, a) ∈ w.scopes.places := by
  obtain ⟨b, hb⟩ := Option.isSome_iff_exists.mp (stays_now hstays)
  have hitem := item_of_stays hstays hb
  simp only [mem_places, hb, Option.some.injEq, List.mem_map, Prod.mk.injEq]
  constructor
  · rintro ⟨m, hm, hplace, rfl⟩
    exact (hitem m hm hplace).symm
  · rintro rfl
    have hpassed := before_of_advance_eq_none hend (stays_end hstays)
    obtain ⟨m, hm, hplace⟩ := exists_meeting hstays (hstart p) hpassed
    exact ⟨m, hm, hplace, hitem m hm hplace⟩

end Walk

-- ---------------------------------------------------------------- the walk of a new cursor

/-- Over every history of a new cursor: the places at which it yields increase strictly, each item it
yields stands at that place at that moment, and whenever it has nothing left to yield, what it has
yielded of the items that stayed are these items, each once and in the order of the visible items. -/
theorem walk_yields (s : Scopes α) (calls : List (Call α)) :
    let w : Walk α := { scopes := s }
    let yielded := (w.meetings calls).map fun m => (m.place, m.item)
    yielded.Pairwise (fun p q => p.1.Before q.1) ∧
      (∀ m ∈ w.meetings calls, m.scopes.at? m.place = some m.item) ∧
      s.places.map Prod.snd = s.items ∧
      (((w.afterAll calls).scopes.advance (w.afterAll calls).cursor).1 = none →
        yielded.filter (fun p => w.stays calls p.1) = s.places.filter fun p => w.stays calls p.1) := by
  intro w yielded
  have hincrease : yielded.Pairwise fun p q => p.1.Before q.1 :=
    List.pairwise_map.mpr (w.meetings_increase calls)
  refine ⟨hincrease, Walk.meetings_found, placesFrom_items 0 s.levels, fun hend => ?_⟩
  have : Std.Irrefl fun p q : Cursor × α => p.1.Before q.1 := ⟨fun p => p.1.before_irrefl⟩
  have : Std.Antisymm fun p q : Cursor × α => p.1.Before q.1 := ⟨fun _ _ h h' => absurd h' h.asymm⟩
  refine (hincrease.filter _).eq_of_mem_iff ((placesFrom_increase 0 s.levels).filter _) fun p => ?_
  simp only [List.mem_filter]
  refine and_congr_left fun hstays => ?_
  exact Walk.mem_yielded_iff Cursor.not_before_cursor hend hstays

/-- The scope of `c` closes once `c` was met, and another one grows in its place. -/
theorem walk_yields_regrown :
    let w : Walk String := { scopes := { base := ["a", "b"], opened := [⟨"If", ["c"]⟩] } }
    let calls := [.advance, .advance, .advance, .exit "If", .enter "Else", .add "d", .add "e", .advance]
    let yielded := (w.meetings calls).map fun m => (m.place, m.item)
    ((w.afterAll calls).scopes.advance (w.afterAll calls).cursor).1 = none ∧
      yielded.map Prod.snd = ["a", "b", "c", "e"] ∧
      yielded.filter (fun p => w.stays calls p.1) = [(⟨0, 0⟩, "a"), (⟨0, 1⟩, "b")] :=
  ⟨rfl, rfl, ((walk_yields _ _).2.2.2 rfl).trans rfl⟩

end ProofScript.Scopes
