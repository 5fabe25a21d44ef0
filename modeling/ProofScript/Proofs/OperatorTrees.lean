import Mathlib.Data.List.TakeWhile
import ProofScript.Proofs.RoundTrip

/-!
# The tree of a chain of operators

A tree over the terms of a chain reads like the chain if its leaves and operators, from left to right,
are those of the chain. Many trees do; one of them only has tighter operators below looser ones and
equal ones to the left. Main statement: this is the tree of the chain, and it is what precedence
climbing arrives at after a single pass over the operators.
-/

namespace ProofScript.Chain

-- ---------------------------------------------------------------- readings and groupings

namespace Tree

/-- The terms and operators from left to right. -/
def reading : Tree → Chain
  | leaf e => ⟨e, []⟩
  | node op l r => l.reading.append op r.reading

def root? : Tree → Option Operator
  | leaf _ => none
  | node op _ _ => some op

/-- Every operator binds no tighter than the one at the root of its left side, and less than the one
at the root of its right side. -/
def Grouped : Tree → Prop
  | leaf _ => True
  | node op l r =>
    (∀ o ∈ l.root?, op.precedence ≤ o.precedence) ∧ (∀ o ∈ r.root?, op.precedence < o.precedence) ∧
      l.Grouped ∧ r.Grouped

theorem reading_snoc (t : Tree) (op : Operator) (e : Expr) :
    (t.snoc op e).reading = t.reading.append op ⟨e, []⟩ := by
  induction t with
  | leaf a => rfl
  | node o l r _ ih =>
    simp only [snoc]
    split
    · simp [reading, ih, append]
    · rfl

theorem reading_snocAll (t : Tree) (links : List (Operator × Expr)) :
    (t.snocAll links).reading = ⟨t.reading.head, t.reading.tail ++ links⟩ := by
  induction links generalizing t with
  | nil => simp [snocAll]
  | cons link links ih =>
    have hstep : (t.snocAll (link :: links)).reading = ((t.snoc link.1 link.2).snocAll links).reading := rfl
    rw [hstep, ih, reading_snoc]
    simp [append]

/-- Where the new operator goes into the right side, the root of that side binds tighter before and
after. -/
theorem root_snoc (t : Tree) (h : ∀ o ∈ t.root?, p < o.precedence) (hop : p < op.precedence) :
    ∀ o ∈ (t.snoc op e).root?, p < o.precedence := by
  cases t with
  | leaf a => simpa [snoc, root?] using hop
  | node o l r =>
    simp only [snoc]
    split
    · exact h
    · simpa [root?] using hop

theorem Grouped.snoc {t : Tree} (h : t.Grouped) (op : Operator) (e : Expr) : (t.snoc op e).Grouped := by
  induction t with
  | leaf a => simp [Tree.snoc, Grouped, root?]
  | node o l r _ ih =>
    obtain ⟨hleft, hright, hl, hr⟩ := h
    simp only [Tree.snoc]
    split
    · rename_i hlt
      exact ⟨hleft, root_snoc r hright hlt, hl, ih hr⟩
    · rename_i hle
      refine ⟨?_, by simp [root?], ⟨hleft, hright, hl, hr⟩, trivial⟩
      simpa [root?] using hle

theorem Grouped.snocAll {t : Tree} (h : t.Grouped) (links : List (Operator × Expr)) :
    (t.snocAll links).Grouped := by
  induction links generalizing t with
  | nil => exact h
  | cons link links ih => exact ih (h.snoc link.1 link.2)

/-- The root of a grouped tree is its loosest operator. -/
theorem Grouped.tighter {t : Tree} (h : t.Grouped) (hroot : ∀ o ∈ t.root?, p ≤ o.precedence) :
    ∀ link ∈ t.reading.tail, p ≤ link.1.precedence := by
  induction t with
  | leaf a => exact List.forall_mem_nil _
  | node o l r ihl ihr =>
    obtain ⟨hleft, hright, hl, hr⟩ := h
    have ho : p ≤ o.precedence := hroot o rfl
    intro link hlink
    rcases List.mem_append.mp hlink with hlink | hlink
    · exact ihl hl (fun q hq => Nat.le_trans ho (hleft q hq)) link hlink
    · rcases List.mem_cons.mp hlink with rfl | hlink
      · exact ho
      · exact ihr hr (fun q hq => Nat.le_trans ho (Nat.le_of_lt (hright q hq))) link hlink

/-- A grouped tree is the tree of its reading. -/
theorem Grouped.tree_reading {t : Tree} (h : t.Grouped) : t.reading.tree = t := by
  induction t with
  | leaf a => rfl
  | node op l r ihl ihr =>
    obtain ⟨hleft, hright, hl, hr⟩ := h
    have hroot : ∀ o a b, l.reading.tree = .node o a b → op.precedence ≤ o.precedence := by
      intro o a b heq
      rw [ihl hl] at heq
      exact hleft o (by rw [heq]; rfl)
    have hlinks : ∀ link ∈ r.reading.tail, op.precedence < link.1.precedence :=
      hr.tighter (p := op.precedence + 1) hright
    rw [reading, tree_append hroot hlinks, ihl hl, ihr hr]

end Tree

theorem reading_tree (c : Chain) : c.tree.reading = c := by
  rw [tree_eq_snocAll, Tree.reading_snocAll]
  rfl

theorem grouped_tree (c : Chain) : c.tree.Grouped :=
  Tree.Grouped.snocAll (t := .leaf c.head) trivial c.tail

-- ---------------------------------------------------------------- climbing

/-- Reads on to the right of a tree as long as operators bind at least as tight as `least`. The right
side of an operator is read by a climb of its own, for tighter operators only, and what that one leaves
is read here. -/
def Tree.climb (least : Nat) (left : Tree) :
    (links : List (Operator × Expr)) →
      { r : Tree × List (Operator × Expr) // r.2.length ≤ links.length }
  | [] => ⟨(left, []), Nat.le_refl _⟩
  | (op, e) :: links =>
    if op.precedence < least then ⟨(left, (op, e) :: links), Nat.le_refl _⟩
    else
      let right := climb (op.precedence + 1) (leaf e) links
      let all := climb least (node op left right.1.1) right.1.2
      ⟨all.1, Nat.le_succ_of_le (Nat.le_trans all.2 right.2)⟩
termination_by links => links.length
decreasing_by
  · simp
  · exact Nat.lt_succ_of_le right.2

/-- The tree that is reached from the first term, and what is left of the operators and terms. -/
def climb (least : Nat) (c : Chain) : Tree × List (Operator × Expr) :=
  ((Tree.leaf c.head).climb least c.tail).1

/-- Does the link belong to a climb? -/
def within (least : Nat) (link : Operator × Expr) : Bool := least ≤ link.1.precedence

theorem takeWhile_split {p q : α → Bool} (h : ∀ a, p a = true → q a = true) (as : List α) :
    as.takeWhile q = as.takeWhile p ++ (as.dropWhile p).takeWhile q ∧
      as.dropWhile q = (as.dropWhile p).dropWhile q := by
  have hfront : ∀ a ∈ as.takeWhile p, q a = true := fun a ha =>
    h a (List.all_eq_true.mp List.all_takeWhile a ha)
  have htake : (as.takeWhile p ++ as.dropWhile p).takeWhile q =
      as.takeWhile p ++ (as.dropWhile p).takeWhile q := List.takeWhile_append_of_pos hfront
  have hdrop : (as.takeWhile p ++ as.dropWhile p).dropWhile q = (as.dropWhile p).dropWhile q :=
    List.dropWhile_append_of_pos hfront
  rw [List.takeWhile_append_dropWhile] at htake hdrop
  exact ⟨htake, hdrop⟩

namespace Tree

/-- An operator that takes the left side over gets what binds tighter for its right side. -/
theorem snocAll_operator {left : Tree} (h : ∀ o ∈ left.root?, op.precedence ≤ o.precedence)
    (links : List (Operator × Expr)) :
    left.snocAll ((op, e) :: links.takeWhile (within (op.precedence + 1))) =
      node op left ((leaf e).snocAll (links.takeWhile (within (op.precedence + 1)))) := by
  have hstep : left.snoc op e = node op left (leaf e) := by
    refine snoc_eq_node ?_
    rintro o l r rfl
    exact h o rfl
  have htight : ∀ link ∈ links.takeWhile (within (op.precedence + 1)),
      op.precedence < link.1.precedence := by
    intro link hlink
    exact of_decide_eq_true (List.all_eq_true.mp List.all_takeWhile link hlink)
  rw [← snocAll_node htight, ← hstep]
  rfl

/-- A climb takes links up to the first that is too loose. The first one has to take over all there is
on the left. -/
theorem climb_eq (least : Nat) (left : Tree) (links : List (Operator × Expr))
    (h : ∀ o ∈ left.root?, ∀ link ∈ links.head?, link.1.precedence ≤ o.precedence) :
    (left.climb least links).1 =
      (left.snocAll (links.takeWhile (within least)), links.dropWhile (within least)) := by
  fun_induction climb least left links with
  | case1 least left => rfl
  | case2 least left op e links hlt =>
    have hout : within least (op, e) = false := by simpa [within] using hlt
    simp [hout, snocAll]
  | case3 least left op e links hle right all ihright ihall =>
    have hin : within least (op, e) = true := by simpa [within] using hle
    have hright : right.1 = ((leaf e).snocAll (links.takeWhile (within (op.precedence + 1))),
        links.dropWhile (within (op.precedence + 1))) := ihright (by simp [root?])
    -- the climb on the right stopped at an operator that takes over what is there by then
    have hnext : ∀ o ∈ (node op left right.1.1).root?, ∀ link ∈ right.1.2.head?,
        link.1.precedence ≤ o.precedence := by
      rw [hright]
      rintro o ⟨⟩ link hlink
      have hstop := List.head?_dropWhile_not (within (op.precedence + 1)) links
      rw [Option.mem_def.mp hlink] at hstop
      exact Nat.le_of_lt_succ (Nat.lt_of_not_le (of_decide_eq_false hstop))
    have hjoin : node op left right.1.1 =
        left.snocAll ((op, e) :: links.takeWhile (within (op.precedence + 1))) := by
      rw [snocAll_operator fun o ho => h o ho (op, e) rfl, hright]
    obtain ⟨htake, hdrop⟩ := takeWhile_split (p := within (op.precedence + 1)) (q := within least)
      (fun link hlink => decide_eq_true (by
        have := of_decide_eq_true hin
        have := of_decide_eq_true hlink
        omega)) links
    rw [ihall hnext, hjoin, hright]
    simp [hin, htake, hdrop, snocAll]

end Tree

/-- Climbing from the lowest level comes to the end of every chain with its tree, and that is the only
tree which reads like the chain and has its operators grouped by how tight they bind, equal ones to
the left. -/
theorem climbs_to_the_tree (c : Chain) :
    c.climb 0 = (c.tree, []) ∧ ∀ t : Tree, t.reading = c ∧ t.Grouped ↔ t = c.tree := by
  constructor
  · have hall : ∀ link ∈ c.tail, within 0 link = true := by simp [within]
    rw [climb, Tree.climb_eq 0 _ _ (by simp [Tree.root?]), List.takeWhile_eq_self_iff.mpr hall,
      List.dropWhile_eq_nil_iff.mpr hall, tree_eq_snocAll]
  · intro t
    constructor
    · rintro ⟨rfl, h⟩
      exact h.tree_reading.symm
    · rintro rfl
      exact ⟨reading_tree c, grouped_tree c⟩

end ProofScript.Chain
