import ProofScript.Proofs.Agreement

/-!
# Names that stay apart

Analysis judges `∀x(P)` by `P`, with `x` free, and compares under binders by exchanging their names.
That is right as long as names stay apart which belong to different binders. `Clear` says so of one
statement and the facts it is looked up among, `Throughout` of all statements that judging it comes
to. The conditions can be computed.
-/

namespace ProofScript.Expr

-- ---------------------------------------------------------------- what is inside

mutual
/-- The expression and all expressions inside it. -/
def inside : Expr → List Expr
  | var x => [var x]
  | call f args => call f args :: insideAll args
  | binary op l r => binary op l r :: (l.inside ++ r.inside)
  | not e => not e :: e.inside
  | bind q x body => bind q x body :: body.inside
  | group g items => group g items :: insideAll items
def insideAll : List Expr → List Expr
  | [] => []
  | e :: es => e.inside ++ insideAll es
end

theorem mem_insideAll : d ∈ insideAll es ↔ ∃ e ∈ es, d ∈ e.inside := by
  induction es with
  | nil => simp [insideAll]
  | cons e es ih => simp [insideAll, ih]

theorem self_mem_inside (e : Expr) : e ∈ e.inside := by
  cases e <;> simp [inside]

theorem arg_mem_inside (ha : a ∈ args) : a ∈ (call f args).inside :=
  List.mem_cons_of_mem _ (mem_insideAll.mpr ⟨a, ha, self_mem_inside a⟩)

theorem left_mem_inside : l ∈ (binary op l r).inside :=
  List.mem_cons_of_mem _ (List.mem_append_left _ (self_mem_inside l))

theorem right_mem_inside : r ∈ (binary op l r).inside :=
  List.mem_cons_of_mem _ (List.mem_append_right _ (self_mem_inside r))

theorem negated_mem_inside : e ∈ (not e).inside := List.mem_cons_of_mem _ (self_mem_inside e)

theorem body_mem_inside : body ∈ (bind q x body).inside :=
  List.mem_cons_of_mem _ (self_mem_inside body)

theorem item_mem_inside (ha : a ∈ items) : a ∈ (group g items).inside :=
  List.mem_cons_of_mem _ (mem_insideAll.mpr ⟨a, ha, self_mem_inside a⟩)

theorem inside_trans {c d e : Expr} (hc : c ∈ d.inside) (hd : d ∈ e.inside) : c ∈ e.inside := by
  induction e using Expr.induction with
  | var x =>
    obtain rfl := List.mem_singleton.mp hd
    exact hc
  | call f args ih | group g args ih =>
    rcases List.mem_cons.mp hd with rfl | hd
    · exact hc
    · obtain ⟨a, ha, hd⟩ := mem_insideAll.mp hd
      exact List.mem_cons_of_mem _ (mem_insideAll.mpr ⟨a, ha, ih a ha hd⟩)
  | binary op l r ihl ihr =>
    rcases List.mem_cons.mp hd with rfl | hd
    · exact hc
    · exact List.mem_cons_of_mem _ (List.mem_append.mpr ((List.mem_append.mp hd).imp ihl ihr))
  | not e ih | bind q x e ih =>
    rcases List.mem_cons.mp hd with rfl | hd
    · exact hc
    · exact List.mem_cons_of_mem _ (ih hd)

theorem binders_of_inside {p e : Expr} (hp : p ∈ e.inside) (hx : x ∈ p.binders) : x ∈ e.binders := by
  induction e using Expr.induction with
  | var y =>
    obtain rfl := List.mem_singleton.mp hp
    exact hx
  | call f args ih | group g args ih =>
    rcases List.mem_cons.mp hp with rfl | hp
    · exact hx
    · obtain ⟨a, ha, hp⟩ := mem_insideAll.mp hp
      exact mem_bindersAll.mpr ⟨a, ha, ih a ha hp⟩
  | binary op l r ihl ihr =>
    rcases List.mem_cons.mp hp with rfl | hp
    · exact hx
    · exact List.mem_append.mpr ((List.mem_append.mp hp).imp ihl ihr)
  | not e ih =>
    rcases List.mem_cons.mp hp with rfl | hp
    · exact hx
    · exact ih hp
  | bind q y body ih =>
    rcases List.mem_cons.mp hp with rfl | hp
    · exact hx
    · exact List.mem_cons_of_mem _ (ih hp)

/-- A binder inside of which its name is bound again. -/
def rebinds : Expr → Bool
  | bind _ x body => body.binders.contains x
  | _ => false

/-- No binder stands inside another one of the same name. -/
def Unshadowed (e : Expr) : Prop := ∀ d ∈ e.inside, d.rebinds = false

/-- A binder whose name is used as a function. -/
def bindsFunction : Expr → Bool
  | bind _ x body => body.functions.contains x
  | _ => false

/-- Functions are not quantified over. -/
def FirstOrder (e : Expr) : Prop := ∀ d ∈ e.inside, d.bindsFunction = false

theorem Unshadowed.part {e p : Expr} (h : e.Unshadowed) (hp : p ∈ e.inside) : p.Unshadowed :=
  fun d hd => h d (inside_trans hd hp)

theorem Unshadowed.not_mem (h : (bind q x body).Unshadowed) : x ∉ body.binders := by
  have hroot := h (bind q x body) (self_mem_inside _)
  simpa [rebinds] using hroot

-- ---------------------------------------------------------------- what is asked

/-- The names that judging the statement itself sets free. -/
def released : Expr → List String
  | bind .all x _ | bind .some x _ => [x]
  | _ => []

/-- The parts of a fact that are judged to prove a goal through its connectives. -/
def premises : Expr → List Expr
  | binary .implies l r => l :: r.premises
  | binary .and l r => l.premises ++ r.premises
  | binary .or l r | binary .iff l r => l :: r :: (l.premises ++ r.premises)
  | _ => []

theorem inside_of_premises {f : Expr} (h : l ∈ f.premises) : l ∈ f.inside := by
  induction f using Expr.induction with
  | binary op a b iha ihb =>
    refine List.mem_cons_of_mem _ (List.mem_append.mpr ?_)
    cases op with
    | implies =>
      rcases List.mem_cons.mp h with rfl | h
      · exact .inl (self_mem_inside _)
      · exact .inr (ihb h)
    | and => exact (List.mem_append.mp h).imp iha ihb
    | or | iff =>
      simp only [premises, List.mem_cons, List.mem_append] at h
      rcases h with rfl | rfl | h | h
      · exact .inl (self_mem_inside _)
      · exact .inr (self_mem_inside _)
      · exact .inl (iha h)
      · exact .inr (ihb h)
    | _ => cases h
  | _ => cases h

end ProofScript.Expr

namespace ProofScript

open Expr

/-- The names of the goal and of the facts it is looked up among stay apart: nothing is bound inside
a binder of the same name, the goal releases no name that a fact uses, and where the goal has
binders no known equation mentions a name that a binder has or may get. -/
structure Clear (Γ : List Expr) (g : Expr) : Prop where
  unshadowed : ∀ e ∈ g :: Γ, e.Unshadowed
  released : ∀ x ∈ g.released, x ∉ freeAll Γ
  links : g.binders = [] ∨
    ∀ n ∈ linkNames Γ, ∀ b ∈ bindersAll (g :: Γ), Name.grown b n = false

/-- `P` holds of all statements that judging `e` may come to, with the facts known there. -/
def Throughout (P : List Expr → Expr → Prop) (Γ : List Expr) (e : Expr) : Prop :=
  P Γ e ∧ match e with
    | .binary .implies l r => Throughout P Γ l ∧ Throughout P (Γ ++ [l]) r
    | .binary .and l r =>
      Throughout P Γ l ∧ Throughout P Γ r ∧ Throughout P (Γ ++ [l]) r ∧ Throughout P (Γ ++ [r]) l
    | .binary .or l r | .binary .iff l r => Throughout P Γ l ∧ Throughout P Γ r
    | .not a | .bind .all _ a | .bind .some _ a => Throughout P Γ a
    | _ => True
termination_by structural e

theorem Throughout.self (h : Throughout P Γ e) : P Γ e := by
  rw [Throughout.eq_def] at h
  exact h.1

theorem Throughout.mono (hPQ : ∀ Γ e, P Γ e → Q Γ e) (h : Throughout P Γ e) : Throughout Q Γ e := by
  induction e using Expr.induction generalizing Γ with
  | var x => exact ⟨hPQ _ _ h.1, trivial⟩
  | call f args => exact ⟨hPQ _ _ h.1, trivial⟩
  | binary op l r ihl ihr =>
    cases op with
    | implies | or | iff => exact ⟨hPQ _ _ h.1, ihl h.2.1, ihr h.2.2⟩
    | and => exact ⟨hPQ _ _ h.1, ihl h.2.1, ihr h.2.2.1, ihr h.2.2.2.1, ihl h.2.2.2.2⟩
    | _ => exact ⟨hPQ _ _ h.1, trivial⟩
  | not a ih => exact ⟨hPQ _ _ h.1, ih h.2⟩
  | bind q x body ih =>
    cases q with
    | all | some => exact ⟨hPQ _ _ h.1, ih h.2⟩
    | those => exact ⟨hPQ _ _ h.1, trivial⟩
  | group g items => exact ⟨hPQ _ _ h.1, trivial⟩

/-- The names stay apart in all questions that judging `e` leads to, also those about the premises
of facts. -/
def Hygienic (Γ : List Expr) (e : Expr) : Prop :=
  Throughout (fun Γ g => Clear Γ g ∧ ∀ f ∈ Γ, ∀ l ∈ f.premises, Throughout Clear Γ l) Γ e

-- ---------------------------------------------------------------- decisions

instance (e : Expr) : Decidable e.Unshadowed :=
  inferInstanceAs (Decidable (∀ d ∈ e.inside, d.rebinds = false))

instance (e : Expr) : Decidable e.FirstOrder :=
  inferInstanceAs (Decidable (∀ d ∈ e.inside, d.bindsFunction = false))

instance : Decidable (Clear Γ g) :=
  decidable_of_iff ((∀ e ∈ g :: Γ, e.Unshadowed) ∧ (∀ x ∈ g.released, x ∉ freeAll Γ) ∧
      (g.binders = [] ∨ ∀ n ∈ linkNames Γ, ∀ b ∈ bindersAll (g :: Γ), Name.grown b n = false))
    ⟨fun ⟨hu, hr, hl⟩ => ⟨hu, hr, hl⟩, fun h => ⟨h.unshadowed, h.released, h.links⟩⟩

instance Throughout.decidable [∀ Γ e, Decidable (P Γ e)] :
    (Γ : List Expr) → (e : Expr) → Decidable (Throughout P Γ e)
  | Γ, .var x => inferInstanceAs (Decidable (P Γ (.var x) ∧ True))
  | Γ, .call f args => inferInstanceAs (Decidable (P Γ (.call f args) ∧ True))
  | Γ, .group g items => inferInstanceAs (Decidable (P Γ (.group g items) ∧ True))
  | Γ, .not a =>
    have : Decidable (Throughout P Γ a) := Throughout.decidable Γ a
    inferInstanceAs (Decidable (P Γ (.not a) ∧ Throughout P Γ a))
  | Γ, .bind q x a =>
    have : Decidable (Throughout P Γ a) := Throughout.decidable Γ a
    match q with
    | .all => inferInstanceAs (Decidable (P Γ (.bind .all x a) ∧ Throughout P Γ a))
    | .some => inferInstanceAs (Decidable (P Γ (.bind .some x a) ∧ Throughout P Γ a))
    | .those => inferInstanceAs (Decidable (P Γ (.bind .those x a) ∧ True))
  | Γ, .binary op l r =>
    have : ∀ Γ, Decidable (Throughout P Γ l) := fun Γ => Throughout.decidable Γ l
    have : ∀ Γ, Decidable (Throughout P Γ r) := fun Γ => Throughout.decidable Γ r
    match op with
    | .implies => inferInstanceAs (Decidable (P Γ (.binary .implies l r) ∧
        Throughout P Γ l ∧ Throughout P (Γ ++ [l]) r))
    | .and => inferInstanceAs (Decidable (P Γ (.binary .and l r) ∧ Throughout P Γ l ∧
        Throughout P Γ r ∧ Throughout P (Γ ++ [l]) r ∧ Throughout P (Γ ++ [r]) l))
    | .or => inferInstanceAs (Decidable (P Γ (.binary .or l r) ∧ Throughout P Γ l ∧ Throughout P Γ r))
    | .iff => inferInstanceAs (Decidable (P Γ (.binary .iff l r) ∧ Throughout P Γ l ∧ Throughout P Γ r))
    | .equals => inferInstanceAs (Decidable (P Γ (.binary .equals l r) ∧ True))
    | .elementOf => inferInstanceAs (Decidable (P Γ (.binary .elementOf l r) ∧ True))
    | .subset => inferInstanceAs (Decidable (P Γ (.binary .subset l r) ∧ True))
    | .plus => inferInstanceAs (Decidable (P Γ (.binary .plus l r) ∧ True))
    | .minus => inferInstanceAs (Decidable (P Γ (.binary .minus l r) ∧ True))
    | .times => inferInstanceAs (Decidable (P Γ (.binary .times l r) ∧ True))
    | .divide => inferInstanceAs (Decidable (P Γ (.binary .divide l r) ∧ True))
    | .named x => inferInstanceAs (Decidable (P Γ (.binary (.named x) l r) ∧ True))

instance : Decidable (Hygienic Γ e) :=
  inferInstanceAs (Decidable (Throughout _ Γ e))

namespace Clear

theorem not (h : Clear Γ g) : Clear Γ (.not g) where
  unshadowed := by
    have := h.unshadowed
    simp only [List.forall_mem_cons, Unshadowed, inside] at this ⊢
    exact ⟨⟨rfl, this.1⟩, this.2⟩
  released := by simp [Expr.released]
  links := by simpa [binders, bindersAll] using h.links

/-- An existential statement is looked up as the negation of a universal one. -/
theorem never (h : Clear Γ (.bind .some x body)) : Clear Γ (.bind .all x (.not body)) where
  unshadowed := by
    have := h.unshadowed
    simp only [List.forall_mem_cons, Unshadowed, inside] at this ⊢
    exact ⟨⟨this.1.1, rfl, this.1.2⟩, this.2⟩
  released := h.released
  links := by simpa [binders, bindersAll] using h.links

end Clear

end ProofScript
