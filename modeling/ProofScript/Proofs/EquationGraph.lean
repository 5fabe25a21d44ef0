import Mathlib.Combinatorics.SimpleGraph.Paths
import ProofScript.Proofs.Agreement
import ProofScript.Settings

/-!
# Chains of equations between names

Where all known equations are between names, a chain of equations finds exactly the names within a
certain distance. A link stands anywhere on the way from one name to the other, and the ways to its
two sides are found one link less deep: the reach doubles with each level, and one step comes on top.
-/

namespace ProofScript.Expr

variable {facts : List Expr}

-- ---------------------------------------------------------------- the graph

/-- Names are joined by the equations between them, whichever side they stand on. -/
def equationGraph (facts : List Expr) : SimpleGraph String :=
  SimpleGraph.fromRel fun x y => binary .equals (var x) (var y) ∈ facts

/-- There is a way from `x` to `y` with at most `n` steps. -/
def Within (facts : List Expr) (n : Nat) (x y : String) : Prop :=
  ∃ p : (equationGraph facts).Walk x y, p.length ≤ n

theorem within_refl (x : String) : Within facts n x x := ⟨.nil, Nat.zero_le n⟩

theorem Within.symm (h : Within facts n x y) : Within facts n y x := by
  obtain ⟨p, hp⟩ := h
  exact ⟨p.reverse, by simpa using hp⟩

theorem within_zero : Within facts 0 x y ↔ x = y := by
  constructor
  · rintro ⟨p, hp⟩
    exact p.eq_of_length_eq_zero (Nat.le_zero.mp hp)
  · rintro rfl
    exact within_refl x

/-- A shortest way visits no name twice. -/
theorem within_iff_path :
    Within facts n x y ↔ ∃ p : (equationGraph facts).Walk x y, p.IsPath ∧ p.length ≤ n := by
  constructor
  · rintro ⟨p, hp⟩
    exact ⟨p.bypass, p.bypass_isPath, p.length_bypass_le_length.trans hp⟩
  · rintro ⟨p, _, hp⟩
    exact ⟨p, hp⟩

/-- An equation extends two ways by a step between them, or by none if its sides are the same. -/
theorem Within.join (hx : Within facts n u x) (hy : Within facts n v y)
    (h : binary .equals (var u) (var v) ∈ facts) : Within facts (2 * n + 1) x y := by
  obtain ⟨p, hp⟩ := hx.symm
  obtain ⟨q, hq⟩ := hy
  by_cases huv : u = v
  · subst huv
    exact ⟨p.append q, by rw [SimpleGraph.Walk.length_append]; omega⟩
  · have hadj : (equationGraph facts).Adj u v := ⟨huv, .inl h⟩
    refine ⟨p.append (.cons hadj q), ?_⟩
    rw [SimpleGraph.Walk.length_append, SimpleGraph.Walk.length_cons]
    omega

/-- A way is a step with at most half of the rest before it and at most half of the rest behind it. -/
theorem Within.split (h : Within facts (2 * n + 1) x y) :
    x = y ∨ ∃ u v, (equationGraph facts).Adj u v ∧ Within facts n u x ∧ Within facts n v y := by
  obtain ⟨p, hp⟩ := h
  rcases Nat.eq_zero_or_pos p.length with hzero | hpos
  · exact .inl (p.eq_of_length_eq_zero hzero)
  · let i := min n (p.length - 1)
    refine .inr ⟨p.getVert i, p.getVert (i + 1), p.adj_getVert_succ (by omega), ?_, ?_⟩
    · refine Within.symm ⟨p.take i, ?_⟩
      rw [SimpleGraph.Walk.take_length]
      omega
    · refine ⟨p.drop (i + 1), ?_⟩
      rw [SimpleGraph.Walk.drop_length]
      omega

-- ---------------------------------------------------------------- chains

/-- Every known equation is between two names. -/
def EquatesNames (facts : List Expr) : Prop :=
  ∀ l r, binary .equals l r ∈ facts → ∃ x y, l = var x ∧ r = var y

/-- One level of a chain: nothing to do, or a link in either direction and the level below twice. -/
theorem chained_names_succ (h : EquatesNames facts) :
    chained (equations facts) (n + 1) (var x) (var y) = true ↔ x = y ∨
      ∃ u v, binary .equals (var u) (var v) ∈ facts ∧
        (chained (equations facts) n (var u) (var x) = true ∧
            chained (equations facts) n (var v) (var y) = true ∨
          chained (equations facts) n (var u) (var y) = true ∧
            chained (equations facts) n (var v) (var x) = true) := by
  refine congruent_var.trans (or_congr (by simp [eq_comm]) ?_)
  simp only [List.any_eq_true, Bool.or_eq_true, Bool.and_eq_true]
  constructor
  · rintro ⟨⟨l, r⟩, hlr, hsides⟩
    obtain ⟨u, v, rfl, rfl⟩ := h l r (mem_equations.mp hlr)
    exact ⟨u, v, mem_equations.mp hlr, hsides⟩
  · rintro ⟨u, v, huv, hsides⟩
    exact ⟨(var u, var v), mem_equations.mpr huv, hsides⟩

/-- A chain of `n` levels reaches `2 ^ n - 1` steps. -/
theorem chained_names (h : EquatesNames facts) :
    chained (equations facts) n (var x) (var y) = true ↔ Within facts (2 ^ n - 1) x y := by
  induction n generalizing x y with
  | zero => exact congruent_var.trans (by simp [within_zero, eq_comm])
  | succ n ih =>
    have hreach : 2 ^ (n + 1) - 1 = 2 * (2 ^ n - 1) + 1 := by
      have := Nat.one_le_two_pow (n := n)
      omega
    rw [chained_names_succ h, hreach]
    simp only [ih]
    constructor
    · rintro (rfl | ⟨u, v, huv, ⟨hx, hy⟩ | ⟨hy, hx⟩⟩)
      · exact within_refl x
      · exact hx.join hy huv
      · exact (hy.join hx huv).symm
    · intro hxy
      refine hxy.split.imp_right ?_
      rintro ⟨u, v, ⟨_, huv | hvu⟩, hx, hy⟩
      · exact ⟨u, v, huv, .inl ⟨hx, hy⟩⟩
      · exact ⟨v, u, hvu, .inr ⟨hy, hx⟩⟩

/-- Where the known equations are between names, a chain decides distance: two names are equal by a
chain exactly when a path of at most `2 ^ (d + 1) - 1` equations joins them, `d` being the depth set.
The order of the facts, the direction of the equations and facts of other kinds do not matter. -/
theorem chained_iff_path (h : EquatesNames facts) (settings : Settings) (x y : String) :
    chained (equations facts) (settings.equalityDepth + 1) (var x) (var y) = true ↔
      ∃ p : (equationGraph facts).Walk x y,
        p.IsPath ∧ p.length ≤ 2 ^ (settings.equalityDepth + 1) - 1 :=
  (chained_names h).trans within_iff_path

/-- Four equations in a row, two of them the other way round, and a fact that is none. -/
def zigzag : List Expr :=
  [binary .equals (var "d") (var "c"), binary .equals (var "b") (var "a"),
    binary .iff (var "a") (var "e"), binary .equals (var "b") (var "c"),
    binary .equals (var "d") (var "e")]

/-- At depth one three equations in a row are chained, and four are not. -/
theorem chained_iff_path_zigzag : EquatesNames zigzag ∧
    (∃ p : (equationGraph zigzag).Walk "a" "d", p.IsPath ∧ p.length ≤ 2 ^ 2 - 1) ∧
    ¬∃ p : (equationGraph zigzag).Walk "a" "e", p.IsPath ∧ p.length ≤ 2 ^ 2 - 1 := by
  have hnames : EquatesNames zigzag := by
    intro l r h
    simp only [zigzag, List.mem_cons, binary.injEq, List.not_mem_nil, or_false] at h
    rcases h with ⟨_, rfl, rfl⟩ | ⟨_, rfl, rfl⟩ | ⟨_, rfl, rfl⟩ | ⟨_, rfl, rfl⟩ | ⟨_, rfl, rfl⟩ <;>
      exact ⟨_, _, rfl, rfl⟩
  have hreach (y : String) := chained_iff_path hnames { equalityDepth := 1 } "a" y
  exact ⟨hnames, (hreach "d").mp (by decide), fun h => absurd ((hreach "e").mpr h) (by decide)⟩

end ProofScript.Expr
