import Mathlib.Data.List.Induction
import ProofScript.Comparison

/-!
# Names of expressions

Laws that every later module needs: computations that may fail or run under a bound, induction over
expressions with their lists of parts, the names free and bound in the parts, names that are fresh,
and what a map of names finds.
-/

namespace ProofScript

-- ---------------------------------------------------------------- computations that may fail

theorem bind_eq_ok {x : Except ε α} {f : α → Except ε β} :
    x >>= f = .ok b ↔ ∃ a, x = .ok a ∧ f a = .ok b := by
  cases x <;> simp [bind, Except.bind]

theorem bind_eq_error {x : Except ε α} {f : α → Except ε β} :
    x >>= f = .error c ↔ x = .error c ∨ ∃ a, x = .ok a ∧ f a = .error c := by
  cases x <;> simp [bind, Except.bind]

theorem bind_fails {x : Except ε α} {f : α → Except ε β} : (∃ c, x >>= f = .error c) ↔
    (∃ c, x = .error c) ∨ ∃ a, x = .ok a ∧ ∃ c, f a = .error c := by
  cases x <;> simp [bind, Except.bind]

theorem map_fails {x : Except ε α} {g : α → β} :
    (∃ c, (do return g (← x)) = Except.error c) ↔ ∃ c, x = .error c := by
  cases x <;> simp [bind, Except.bind, pure, Except.pure]

theorem pair_fails {x : Except ε α} {y : Except ε β} {g : α → β → γ} :
    (∃ c, (do let a ← x; let b ← y; return g a b) = Except.error c) ↔
      (∃ c, x = .error c) ∨ ∃ c, y = .error c := by
  cases x <;> cases y <;> simp [bind, Except.bind, pure, Except.pure]

theorem fails_iff {x : Except ε α} : (∃ c, x = .error c) ↔ ∀ a, x ≠ .ok a := by
  cases x <;> simp

theorem pure_eq_ok {a b : α} : (pure a : Except ε α) = .ok b ↔ a = b := by
  simp [pure, Except.pure]

theorem pure_ne_error {a : α} : (pure a : Except ε α) ≠ .error c := by
  simp [pure, Except.pure]

section
variable {test : α → Except ε Bool}

theorem anyM_eq_true (h : List.anyM test as = .ok true) : ∃ a ∈ as, test a = .ok true := by
  induction as with
  | nil => cases h
  | cons a as ih =>
    obtain ⟨b, ha, h⟩ := bind_eq_ok.mp h
    cases b with
    | true => exact ⟨a, by simp, ha⟩
    | false =>
      obtain ⟨c, hc, h⟩ := ih h
      exact ⟨c, by simp [hc], h⟩

theorem anyM_eq_false (h : List.anyM test as = .ok false) : ∀ a ∈ as, test a = .ok false := by
  induction as with
  | nil => simp
  | cons a as ih =>
    obtain ⟨b, ha, h⟩ := bind_eq_ok.mp h
    cases b with
    | true => cases h
    | false => exact List.forall_mem_cons.mpr ⟨ha, ih h⟩

end

theorem run_run_observing {ε σ α : Type} (m : ExceptT ε (StateM σ) α) (s : σ) :
    StateT.run (ExceptT.run (observing m : ExceptT ε (StateM σ) (Except ε α))) s =
      (.ok (StateT.run (ExceptT.run m) s).1, (StateT.run (ExceptT.run m) s).2) := by
  unfold ExceptT.run StateT.run observing
  simp only [tryCatch, tryCatchThe, MonadExceptOf.tryCatch, ExceptT.tryCatch, bind, ExceptT.bind,
    ExceptT.mk, StateT.bind, ExceptT.bindCont]
  rcases m s with ⟨_ | _, _⟩ <;> rfl

/-- A computation that succeeds passes its state on from one part to the next. -/
theorem run_run_bind_ok {m : ExceptT ε (StateM σ) α} {f : α → ExceptT ε (StateM σ) β} :
    StateT.run (ExceptT.run (m >>= f)) s = (.ok b, t) ↔
      ∃ a u, StateT.run (ExceptT.run m) s = (.ok a, u) ∧
        StateT.run (ExceptT.run (f a)) u = (.ok b, t) := by
  simp only [ExceptT.run_bind, StateT.run_bind]
  rcases StateT.run (ExceptT.run m) s with ⟨_ | a, u⟩
  · exact ⟨nofun, nofun⟩
  · exact ⟨fun h => ⟨a, u, rfl, h⟩, fun ⟨_, _, hau, h⟩ => by cases hau; exact h⟩

/-- A computation fails in its first part, or in what follows where that succeeds. -/
theorem run_run_bind_error {m : ExceptT ε (StateM σ) α} {f : α → ExceptT ε (StateM σ) β} :
    StateT.run (ExceptT.run (m >>= f)) s = (.error cause, t) ↔
      StateT.run (ExceptT.run m) s = (.error cause, t) ∨
        ∃ a u, StateT.run (ExceptT.run m) s = (.ok a, u) ∧
          StateT.run (ExceptT.run (f a)) u = (.error cause, t) := by
  simp only [ExceptT.run_bind, StateT.run_bind]
  rcases StateT.run (ExceptT.run m) s with ⟨e | a, u⟩
  · constructor
    · intro h
      cases h
      exact .inl rfl
    · rintro (h | ⟨_, _, h, -⟩) <;> cases h
      rfl
  · constructor
    · exact fun h => .inr ⟨a, u, rfl, h⟩
    · rintro (h | ⟨_, _, hau, h⟩)
      · cases h
      · cases hau
        exact h

-- ---------------------------------------------------------------- computations with a bound

/-- What holds of each of finitely many things from some bound on, holds of all of them from one on. -/
theorem eventually_all {p : ι → Nat → Prop} {is : List ι} (h : ∀ i ∈ is, ∃ N, ∀ n ≥ N, p i n) :
    ∃ N, ∀ n ≥ N, ∀ i ∈ is, p i n := by
  induction is with
  | nil => exact ⟨0, by simp⟩
  | cons i is ih =>
    obtain ⟨⟨N, hi⟩, his⟩ := List.forall_mem_cons.mp h
    obtain ⟨M, his⟩ := ih his
    refine ⟨max N M, fun n hn => List.forall_mem_cons.mpr ⟨?_, ?_⟩⟩
    · exact hi n (Nat.le_trans (Nat.le_max_left N M) hn)
    · exact his n (Nat.le_trans (Nat.le_max_right N M) hn)

/-- The computation returns `a` once the bound that it runs under is large enough. -/
def Settles (f : Nat → Option α) (a : α) : Prop := ∃ N, ∀ n ≥ N, f n = some a

namespace Settles

theorem pure (a : α) : Settles (fun _ => Pure.pure a) a := ⟨0, fun _ _ => rfl⟩

theorem bind {f : Nat → Option α} {g : Nat → α → Option β} (hf : Settles f a)
    (hg : Settles (fun n => g n a) b) : Settles (fun n => f n >>= g n) b := by
  obtain ⟨N, hf⟩ := hf
  obtain ⟨M, hg⟩ := hg
  refine ⟨max N M, fun n hn => ?_⟩
  show f n >>= g n = some b
  rw [hf n (Nat.le_trans (Nat.le_max_left N M) hn)]
  exact hg n (Nat.le_trans (Nat.le_max_right N M) hn)

/-- A call that takes one off the bound. -/
theorem succ (h : Settles (fun n => f (n + 1)) a) : Settles f a := by
  obtain ⟨N, h⟩ := h
  refine ⟨N + 1, fun n hn => ?_⟩
  cases n with
  | zero => cases hn
  | succ n => exact h n (Nat.le_of_succ_le_succ hn)

end Settles

-- ---------------------------------------------------------------- induction

/-- The parts of calls and groups are met as members of their list. -/
@[elab_as_elim] theorem Expr.induction {motive : Expr → Prop}
    (var : ∀ x, motive (.var x))
    (call : ∀ f args, (∀ a ∈ args, motive a) → motive (.call f args))
    (binary : ∀ op l r, motive l → motive r → motive (.binary op l r))
    (not : ∀ e, motive e → motive (.not e))
    (bind : ∀ b x body, motive body → motive (.bind b x body))
    (group : ∀ g items, (∀ a ∈ items, motive a) → motive (.group g items)) (e : Expr) : motive e :=
  @Expr.rec motive (fun es => ∀ a ∈ es, motive a) var call binary not bind group
    (List.forall_mem_nil _) (fun _ _ he hes => List.forall_mem_cons.mpr ⟨he, hes⟩) e

namespace Expr

-- ---------------------------------------------------------------- names of the parts

theorem mem_freeAll : x ∈ freeAll es ↔ ∃ e ∈ es, x ∈ e.free := by
  induction es with
  | nil => simp [freeAll]
  | cons e es ih => simp [freeAll, ih]

theorem mem_bindersAll : x ∈ bindersAll es ↔ ∃ e ∈ es, x ∈ e.binders := by
  induction es with
  | nil => simp [bindersAll]
  | cons e es ih => simp [bindersAll, ih]

theorem freeAll_append : freeAll (es ++ ds) = freeAll es ++ freeAll ds := by
  induction es with
  | nil => rfl
  | cons e es ih => simp [freeAll, ih]

theorem mem_free_bind : y ∈ (bind b x body).free ↔ y ∈ body.free ∧ y ≠ x := by
  simp [free]

theorem occursFree_iff : occursFree e x = true ↔ x ∈ e.free := by
  simp [occursFree]

end Expr

-- ---------------------------------------------------------------- fresh names

namespace Name

/-- Only names at least as long as the candidate can block it or a later one. -/
theorem untaken_not_mem (h : taken.countP (fun y => x.length ≤ y.length) ≤ n) :
    untaken taken n x ∉ taken := by
  induction n generalizing x with
  | zero =>
    intro hx
    have := List.countP_eq_zero.mp (Nat.le_zero.mp h) x hx
    simp at this
  | succ n ih =>
    by_cases hx : x ∈ taken
    · have hlen : ("_" ++ x).length = x.length + 1 := by
        rw [String.length_append, Nat.add_comm]
        rfl
      have hlt : taken.countP (fun y => ("_" ++ x).length ≤ y.length) <
          taken.countP (fun y => x.length ≤ y.length) := by
        obtain ⟨before, after, rfl⟩ := List.append_of_mem hx
        have hmono (ys : List String) : ys.countP (fun y => ("_" ++ x).length ≤ y.length) ≤
            ys.countP (fun y => x.length ≤ y.length) := by
          refine List.countP_mono_left fun y _ hy => ?_
          simp only [hlen, decide_eq_true_eq] at hy ⊢
          omega
        have hb := hmono before
        have ha := hmono after
        have hx : ¬x.length + 1 ≤ x.length := by omega
        simp only [List.countP_append, List.countP_cons, hlen, hx, decide_false, decide_true,
          Nat.le_refl, Bool.false_eq_true, if_false, if_true] at hb ha ⊢
        omega
      simp only [untaken, List.contains_eq_mem, hx, decide_true, if_true]
      exact ih (by omega)
    · simp [untaken, hx]

theorem fresh_not_mem (taken : List String) (x : String) : fresh taken x ∉ taken :=
  untaken_not_mem List.countP_le_length

theorem isReserved_underscore (x : String) : isReserved ("_" ++ x) = true := by
  simp [isReserved, String.toList_append]

/-- Is the second word the first one with underscores in front? -/
def grownFrom (x : List Char) : List Char → Bool
  | [] => x.isEmpty
  | c :: y => x == c :: y || (c == '_' && grownFrom x y)

/-- Is `y` the name `x` with any number of underscores in front? -/
def grown (x y : String) : Bool := grownFrom x.toList y.toList

theorem grown_self (x : String) : grown x x = true := by
  unfold grown
  cases x.toList <;> simp [grownFrom]

theorem grown_underscore (h : grown x y = true) : grown x ("_" ++ y) = true := by
  unfold grown at h ⊢
  simp [String.toList_append, grownFrom, h]

theorem grown_of_underscore (h : grown ("_" ++ x) y = true) : grown x y = true := by
  unfold grown at h ⊢
  rw [String.toList_append] at h
  generalize y.toList = y at h
  induction y with
  | nil => simp [grownFrom] at h
  | cons c y ih =>
    simp only [grownFrom, Bool.or_eq_true, Bool.and_eq_true, beq_iff_eq] at h ⊢
    rcases h with h | ⟨hc, h⟩
    · obtain ⟨rfl, rfl⟩ := List.cons_eq_cons.mp h
      have hself := grown_self x
      unfold grown at hself
      exact .inr ⟨rfl, hself⟩
    · exact .inr ⟨hc, ih h⟩

/-- A name that is not reserved is grown from itself only. -/
theorem eq_of_grown (h : grown x y = true) (hy : isReserved y = false) : y = x := by
  unfold grown at h
  unfold isReserved at hy
  cases hc : y.toList with
  | nil =>
    rw [hc] at h
    exact String.toList_inj.mp (by rw [hc, List.isEmpty_iff.mp h])
  | cons c cs =>
    simp only [hc, grownFrom, Bool.or_eq_true, Bool.and_eq_true, beq_iff_eq] at h
    rcases h with h | ⟨rfl, _⟩
    · exact String.toList_inj.mp (by rw [hc, h])
    · simp [hc] at hy

theorem untaken_grown (h : grown x y = true) : grown x (untaken taken n y) = true := by
  induction n generalizing y with
  | zero => exact h
  | succ n ih =>
    simp only [untaken]
    split
    · exact ih (grown_underscore h)
    · exact h

theorem fresh_grown (taken : List String) (x : String) : grown ("_" ++ x) (fresh taken x) = true :=
  untaken_grown (grown_self _)

theorem isReserved_of_grown (h : grown ("_" ++ x) y = true) : isReserved y = true := by
  cases hy : isReserved y with
  | true => rfl
  | false =>
    rw [eq_of_grown h hy, isReserved_underscore] at hy
    cases hy

/-- What a binder that is no numeral is renamed to is reserved, but no placeholder. -/
theorem reserved_of_grown (hy : grown ("_" ++ x) y = true) (hx : isNumeral x = false) :
    isReserved y = true ∧ isNumeral y = false ∧ isPlaceholder y = false := by
  have hlist (ys : List Char) (h : grownFrom ('_' :: x.toList) ys = true) :
      ∃ zs, ys = '_' :: zs ∧ (zs = x.toList ∨ zs.head? = some '_') := by
    induction ys with
    | nil => cases h
    | cons c zs ih =>
      simp only [grownFrom, Bool.or_eq_true, Bool.and_eq_true, beq_iff_eq, List.cons.injEq] at h
      rcases h with ⟨rfl, rfl⟩ | ⟨rfl, h⟩
      · exact ⟨x.toList, rfl, .inl rfl⟩
      · obtain ⟨ws, rfl, _⟩ := ih h
        exact ⟨_, rfl, .inr rfl⟩
  unfold grown at hy
  rw [String.toList_append] at hy
  obtain ⟨zs, hys, hzs⟩ := hlist _ hy
  refine ⟨by simp [isReserved, hys], by simp [isNumeral, hys], ?_⟩
  unfold isPlaceholder
  rw [hys]
  cases zs with
  | nil => rfl
  | cons c cs =>
    have hc : c.isDigit = false := by
      rcases hzs with hzs | hzs
      · simpa [isNumeral, ← hzs] using hx
      · cases hzs
        rfl
    simp [hc]

theorem underscore_ne (x : String) : "_" ++ x ≠ x := by
  intro h
  have hlen := congrArg String.length h
  rw [String.length_append] at hlen
  have hone : "_".length = 1 := rfl
  omega

/-- Where no other name is reserved, one underscore is enough. -/
theorem fresh_eq (h : ∀ z ∈ taken, z = x ∨ isReserved z = false) : fresh taken x = "_" ++ x := by
  have hfree : "_" ++ x ∉ taken := by
    intro hx
    rcases h _ hx with hx | hx
    · exact underscore_ne x hx
    · rw [isReserved_underscore] at hx
      cases hx
  unfold fresh
  cases taken.length with
  | zero => rfl
  | succ n => simp [untaken, hfree]

end Name

-- ---------------------------------------------------------------- maps of names

namespace NameMap

theorem find?_insert_self (m : NameMap α) (x : String) (a : α) :
    (m.insert x a).find? x = some a := by
  simp only [find?, insert]
  induction m.entries with
  | nil => simp [insertEntry]
  | cons entry rest ih =>
    obtain ⟨y, b⟩ := entry
    by_cases hxy : x = y
    · simp [insertEntry, hxy]
    · have hne : (x == y) = false := by simp [hxy]
      simp [insertEntry, List.lookup_cons, hne, ih]

theorem find?_insert_ne (m : NameMap α) (a : α) (h : y ≠ x) :
    (m.insert x a).find? y = m.find? y := by
  simp only [find?, insert]
  induction m.entries with
  | nil => simp [insertEntry, h]
  | cons entry rest ih =>
    obtain ⟨z, b⟩ := entry
    by_cases hxz : x = z
    · subst hxz
      have hne : (y == x) = false := by simp [h]
      simp [insertEntry, List.lookup_cons, hne]
    · simp [insertEntry, hxz, List.lookup_cons, ih]

theorem find?_insert_eq_some {m : NameMap α} : (m.insert x a).find? y = some b ↔
    y = x ∧ a = b ∨ y ≠ x ∧ m.find? y = some b := by
  by_cases hy : y = x
  · subst hy
    simp [find?_insert_self]
  · simp [find?_insert_ne _ _ hy, hy]

theorem find?_insert_eq_none {m : NameMap α} :
    (m.insert x a).find? y = none ↔ y ≠ x ∧ m.find? y = none := by
  by_cases hy : y = x
  · subst hy
    simp [find?_insert_self]
  · simp [find?_insert_ne _ _ hy, hy]

theorem ofList_concat (entries : List (String × α)) (x : String) (a : α) :
    ofList (entries ++ [(x, a)]) = (ofList entries).insert x a := by
  simp only [ofList, List.foldl_append, List.foldl_cons, List.foldl_nil]

/-- What holds of all entries and of a new one holds of all entries after its insertion. -/
theorem forall_find?_insert {m : NameMap α} {Q : String → α → Prop}
    (h : ∀ y b, m.find? y = some b → Q y b) (ha : Q x a) :
    ∀ y b, (m.insert x a).find? y = some b → Q y b := by
  intro y b hb
  rcases find?_insert_eq_some.mp hb with ⟨rfl, rfl⟩ | ⟨_, hb⟩
  · exact ha
  · exact h y b hb

theorem mem_values (h : find? m x = some a) : a ∈ m.values := by
  simp only [find?, values] at h ⊢
  generalize m.entries = entries at h
  induction entries with
  | nil => simp at h
  | cons entry rest ih =>
    obtain ⟨y, b⟩ := entry
    rw [List.lookup_cons] at h
    split at h
    · simp_all
    · simp [ih h]

theorem find?_empty (x : String) : find? (∅ : NameMap α) x = none := rfl

theorem find?_singleton (x : String) (a : α) :
    (ofList [(x, a)]).find? y = if y = x then some a else none := by
  by_cases h : y = x
  · subst h
    simp [ofList, find?_insert_self]
  · simp only [ofList, List.foldl_cons, List.foldl_nil, find?_insert_ne _ _ h, h, if_false]
    rfl

end NameMap

end ProofScript
