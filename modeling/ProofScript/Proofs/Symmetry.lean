import ProofScript.Proofs.RenamedFacts

/-!
# Comparison from either side

Comparison with known equations gives the second expression's binders the names of the first one's.
Seen from the other side these are other names, and a known equation that mentions one of them then
speaks about what is bound. Where the binders that meet have one name, or names that no known equation
mentions, the two sides can be exchanged.

The proof follows a comparison down and keeps a permutation that undoes the renaming: it sends the
names of the second side to those of the first and leaves the names of known equations alone.
-/

namespace ProofScript.Expr

variable {facts : List Expr}

-- ---------------------------------------------------------------- how exchanges come about

theorem equalGiven_iff : equalGiven facts a b = true ↔
    agree (fun a b s => if interchangeable facts a b then some s else none) a b () = some () := by
  unfold equalGiven
  rw [Option.isSome_iff_exists]
  exact ⟨fun ⟨_, h⟩ => h, fun h => ⟨(), h⟩⟩

theorem equalGiven_of_interchangeable (h : interchangeable facts a b = true) :
    equalGiven facts a b = true :=
  equalGiven_iff.mpr (agree_accepted (if_pos h))

/-- Expressions whose parts agree agree, be they interchangeable or not. -/
theorem equalGiven_of_refused
    (h : (if interchangeable facts a b then some () else none) = none →
      agree (fun a b s => if interchangeable facts a b then some s else none) a b () = some ()) :
    equalGiven facts a b = true := by
  by_cases hi : interchangeable facts a b = true
  · exact equalGiven_of_interchangeable hi
  · exact equalGiven_iff.mpr (h (if_neg hi))

theorem equalGiven_var (x : String) : equalGiven facts (var x) (var x) = true :=
  equalGiven_of_refused fun hr => (agree_var hr).mpr ⟨rfl, rfl⟩

theorem agreeAll_of_equalGiven (h : List.Forall₂ (equalGiven facts · · = true) as bs) :
    agreeAll (fun a b s => if interchangeable facts a b then some s else none) as bs () = some () := by
  induction h with
  | nil => rfl
  | cons hab _ ih => exact agreeAll_cons.mpr ⟨_, _, (), rfl, equalGiven_iff.mp hab, ih⟩

theorem equalGiven_call (h : List.Forall₂ (equalGiven facts · · = true) as bs) :
    equalGiven facts (call f as) (call f bs) = true :=
  equalGiven_of_refused fun hr => (agree_call hr).mpr ⟨bs, rfl, agreeAll_of_equalGiven h⟩

theorem equalGiven_binary (hl : equalGiven facts l m = true) (hr : equalGiven facts r n = true) :
    equalGiven facts (binary op l r) (binary op m n) = true :=
  equalGiven_of_refused fun hno =>
    (agree_binary hno).mpr ⟨m, n, (), rfl, equalGiven_iff.mp hl, equalGiven_iff.mp hr⟩

theorem equalGiven_not (h : equalGiven facts e d = true) :
    equalGiven facts (not e) (not d) = true :=
  equalGiven_of_refused fun hr => (agree_not hr).mpr ⟨d, rfl, equalGiven_iff.mp h⟩

theorem equalGiven_bind (hx : x = y ∨ x ∉ d.free) (h : equalGiven facts e (matched x y d) = true) :
    equalGiven facts (bind q x e) (bind q y d) = true :=
  equalGiven_of_refused fun hr => (agree_bind hr).mpr ⟨y, d, rfl, hx, equalGiven_iff.mp h⟩

theorem equalGiven_group (h : List.Forall₂ (equalGiven facts · · = true) as bs) :
    equalGiven facts (group g as) (group g bs) = true :=
  equalGiven_of_refused fun hr => (agree_group hr).mpr ⟨bs, rfl, agreeAll_of_equalGiven h⟩

-- ---------------------------------------------------------------- binders that meet

mutual
/-- The names of the binders that stand at the same place in the two expressions. -/
def facing : Expr → Expr → List (String × String)
  | call _ as, call _ bs => facingAll as bs
  | binary _ l r, binary _ m n => l.facing m ++ r.facing n
  | not e, not d => e.facing d
  | bind _ x e, bind _ y d => (x, y) :: e.facing d
  | group _ as, group _ bs => facingAll as bs
  | _, _ => []
def facingAll : List Expr → List Expr → List (String × String)
  | a :: as, b :: bs => a.facing b ++ facingAll as bs
  | _, _ => []
end

theorem facingAll_swap (ih : ∀ a ∈ as, ∀ b, facing b a = (facing a b).map Prod.swap) :
    facingAll bs as = (facingAll as bs).map Prod.swap := by
  induction as generalizing bs with
  | nil => cases bs <;> rfl
  | cons a as ihs =>
    cases bs with
    | nil => rfl
    | cons b bs =>
      simp only [facingAll, List.map_append, ih a (by simp) b,
        ihs fun c hc => ih c (List.mem_cons_of_mem _ hc)]

theorem facing_swap (a b : Expr) : facing b a = (facing a b).map Prod.swap := by
  induction a using Expr.induction generalizing b with
  | var x => cases b <;> rfl
  | call f as ih =>
    cases b with
    | call g bs => simpa only [facing] using facingAll_swap ih
    | _ => rfl
  | binary op l r ihl ihr =>
    cases b with
    | binary p m n => simp only [facing, List.map_append, ihl m, ihr n]
    | _ => rfl
  | not e ih =>
    cases b with
    | not d => exact ih d
    | _ => rfl
  | bind q x e ih =>
    cases b with
    | bind p y d => simp only [facing, List.map_cons, ih d, Prod.swap_prod_mk]
    | _ => rfl
  | group g as ih =>
    cases b with
    | group k bs => simpa only [facing] using facingAll_swap ih
    | _ => rfl

/-- Binders of the two names can meet: it is one name, or no known equation mentions either. -/
def Meet (facts : List Expr) (x y : String) : Prop :=
  x = y ∨ x ∉ linkNames facts ∧ y ∉ linkNames facts

theorem Meet.symm (h : Meet facts x y) : Meet facts y x := h.imp Eq.symm And.symm

instance : Decidable (Meet facts x y) :=
  inferInstanceAs (Decidable (x = y ∨ x ∉ linkNames facts ∧ y ∉ linkNames facts))

-- ---------------------------------------------------------------- the other way round

section
variable {π : Equiv.Perm String}

theorem sending_symm (π : Equiv.Perm String) (x y : String) :
    (sending π y x).symm = sending π.symm x y := by
  refine Equiv.ext fun z => ?_
  have hswap := π.symm.injective.swap_apply (π y) x z
  rw [Equiv.symm_apply_apply, Equiv.swap_comm] at hswap
  exact hswap.symm

theorem alikeAll_symm (h : List.Forall₂ (Alike π.symm) bs as) : List.Forall₂ (Alike π) as bs :=
  (h.imp fun _ _ hab => hab.symm).flip

/-- The permutation leaves the names of known equations alone. -/
def Keeps (facts : List Expr) (π : Equiv.Perm String) : Prop := ∀ z ∈ linkNames facts, π z = z

theorem Keeps.symm (h : Keeps facts π) : Keeps facts π.symm := fun z hz =>
  π.symm_apply_eq.mpr (h z hz).symm

theorem Keeps.send (h : Keeps facts π) (hm : Meet facts x y) : Keeps facts (sending π y x) := by
  by_cases hx : x ∈ linkNames facts
  · obtain rfl : x = y := hm.resolve_right fun hn => hn.1 hx
    rwa [sending_eq (h x hx)]
  · have hy : y ∉ linkNames facts := by
      rcases hm with rfl | hn
      · exact hx
      · exact hn.2
    intro z hz
    rw [sending_of_ne ?_ ?_, h z hz]
    · rintro rfl
      exact hy hz
    · rw [h z hz]
      rintro rfl
      exact hx hz

/-- What the permutation does not touch it renders the same. -/
theorem Alike.nameless_of_keeps (h : Alike π a b) (hπ : Keeps facts π)
    (hfree : ∀ z ∈ b.free, z ∈ linkNames facts) : a.nameless [] = b.nameless [] := by
  have hback : Alike π.symm b a := h.symm
  rw [← hback]
  exact ((Nameless.map_congr fun z hz => hπ.symm z (hfree z (mem_free_nameless.mp hz).1)).trans
    (Nameless.map_id _))

theorem interchangeable_flip (hπ : Keeps facts π) (ha : Alike π.symm a a') (hb : Alike π b b')
    (h : interchangeable facts a b' = true) : interchangeable facts b a' = true := by
  have hb' := hb.nameless_of_keeps hπ fun z hz => interchangeable_free h (.inr hz)
  have ha' := ha.symm.nameless_of_keeps (π := π) hπ fun z hz => interchangeable_free h (.inl hz)
  obtain ⟨op, l, r, hlr, hsides⟩ := interchangeable_iff.mp h
  refine interchangeable_iff.mpr ⟨op, l, r, hlr, ?_⟩
  rw [hb', ha']
  exact hsides.symm

/-- The second binder's name can be given to what it meets on the other side, too. -/
theorem not_free_flip (hπ : Keeps facts π) (ha : Alike π.symm (bind q x e) (bind q x' e'))
    (hb : Alike π (bind q y d) (bind q y' d')) (hm : Meet facts x y)
    (h : equalGiven facts e (matched x y' d') = true) : y = x' ∨ y ∉ e'.free := by
  by_cases hyx : y = x'
  · exact .inl hyx
  refine .inr fun he' => ?_
  have hfree : π y ∈ (bind q x e).free := ha.symm.mem_free.mpr (mem_free_bind.mpr ⟨he', hyx⟩)
  obtain ⟨he, hne⟩ := mem_free_bind.mp hfree
  by_cases hy : π y ∈ linkNames facts
  · -- a kept name, so the two binders have it both
    have hkept : π y = y := π.injective (hπ _ hy)
    rw [hkept] at hy hne
    exact hm.elim (fun hxy => hne hxy.symm) fun hn => hn.2 hy
  · have hd := mem_free_matched (q := q) ((equalGiven_free h hy).mp he)
    exact (mem_free_bind.mp (hb.mem_free.mp (hd.resolve_left hne))).2 rfl

/-- A comparison succeeds from the other side, with the names that the other side gives. -/
theorem equalGiven_flip (hπ : Keeps facts π) (ha : Alike π.symm a a') (hb : Alike π b b')
    (hm : ∀ p ∈ facing a b, Meet facts p.1 p.2) (h : equalGiven facts a b' = true) :
    equalGiven facts b a' = true := by
  revert π a' b
  refine agree_induction
    (P := fun a b' _ _ => ∀ {π a' b}, Keeps facts π → Alike π.symm a a' → Alike π b b' →
      (∀ p ∈ facing a b, Meet facts p.1 p.2) → equalGiven facts b a' = true)
    (Q := fun as bs' _ _ => ∀ {π as' bs}, Keeps facts π → List.Forall₂ (Alike π.symm) as as' →
      List.Forall₂ (Alike π) bs bs' → (∀ p ∈ facingAll as bs, Meet facts p.1 p.2) →
      List.Forall₂ (equalGiven facts · · = true) bs as')
    ?_ ?_ ?_ ?_ ?_ ?_ ?_ ?_ ?_ a b' () () (equalGiven_iff.mp h)
  · intro a b' _ _ haccept π a' b hπ ha hb _
    refine equalGiven_of_interchangeable (interchangeable_flip hπ ha hb ?_)
    by_contra hno
    rw [if_neg hno] at haccept
    cases haccept
  · intro x _ _ π a' b _ ha hb _
    obtain rfl := alike_var.mp ha
    obtain rfl := alike_var.mp hb.symm
    exact equalGiven_var _
  · intro f as bs' _ _ _ ih π a' b hπ ha hb hm
    obtain ⟨as', rfl, has⟩ := alike_call.mp ha
    obtain ⟨bs, rfl, hbs⟩ := alike_call.mp hb.symm
    exact equalGiven_call (ih hπ has (alikeAll_symm hbs) hm)
  · intro op l r m' n' _ _ _ _ ihl ihr π a' b hπ ha hb hm
    obtain ⟨l', r', rfl, hl, hr⟩ := alike_binary.mp ha
    obtain ⟨m, n, rfl, hm', hn'⟩ := alike_binary.mp hb.symm
    obtain ⟨hml, hmr⟩ := List.forall_mem_append.mp hm
    exact equalGiven_binary (ihl hπ hl hm'.symm hml) (ihr hπ hr hn'.symm hmr)
  · intro e d' _ _ _ ih π a' b hπ ha hb hm
    obtain ⟨e', rfl, he⟩ := alike_not.mp ha
    obtain ⟨d, rfl, hd⟩ := alike_not.mp hb.symm
    exact equalGiven_not (ih hπ he hd.symm hm)
  · intro q x e y' d' _ _ _ hx hagree ih π a' b hπ ha hb hm
    obtain ⟨x', e', rfl, _⟩ := alike_bind.mp ha
    obtain ⟨y, d, rfl, _⟩ := alike_bind.mp hb.symm
    obtain ⟨hxy, hm⟩ := List.forall_mem_cons.mp hm
    have hy := not_free_flip hπ ha hb hxy (equalGiven_iff.mpr hagree)
    -- inside, the permutation sends the second binder's name to the first one's as well
    have he : Alike (sending π y x).symm e (matched y x' e') := by
      rw [sending_symm]
      simpa [matched] using ha.matched (.inl rfl) hy
    have hd : Alike (sending π y x) d (matched x y' d') := by
      simpa [matched] using hb.matched (.inl rfl) hx
    exact equalGiven_bind hy (ih (hπ.send hxy) he hd hm)
  · intro g as bs' _ _ _ ih π a' b hπ ha hb hm
    obtain ⟨as', rfl, has⟩ := alike_group.mp ha
    obtain ⟨bs, rfl, hbs⟩ := alike_group.mp hb.symm
    exact equalGiven_group (ih hπ has (alikeAll_symm hbs) hm)
  · intro _ π as' bs _ has hbs _
    cases has
    cases hbs
    exact .nil
  · intro a b' as bs' _ _ _ iha ihas π as' bs hπ has hbs hm
    obtain ⟨a', as', ha, has', rfl⟩ := List.forall₂_cons_left_iff.mp has
    obtain ⟨b, bs, hb, hbs', rfl⟩ := List.forall₂_cons_right_iff.mp hbs
    obtain ⟨hma, hmas⟩ := List.forall_mem_append.mp hm
    exact .cons (iha hπ ha hb hma) (ihas hπ has' hbs' hmas)

end

theorem equalGiven_symm (hm : ∀ p ∈ facing a b, Meet facts p.1 p.2) (h : equalGiven facts a b = true) :
    equalGiven facts b a = true :=
  equalGiven_flip (π := Equiv.refl String) (fun _ _ => rfl) (alike_self fun _ _ => rfl)
    (alike_self fun _ _ => rfl) hm h

/-- Comparison with known equations is symmetric, as long as binders that stand at the same place of
the two expressions have the same name or names that no known equation mentions. -/
theorem equalGiven_comm (facts : List Expr) (a b : Expr) (hm : ∀ p ∈ facing a b, Meet facts p.1 p.2) :
    equalGiven facts a b = equalGiven facts b a := by
  have hswap : ∀ p ∈ facing b a, Meet facts p.1 p.2 := by
    intro p hp
    rw [facing_swap] at hp
    obtain ⟨r, hr, rfl⟩ := List.mem_map.mp hp
    exact (hm r hr).symm
  exact Bool.eq_iff_iff.mpr ⟨equalGiven_symm hm, equalGiven_symm hswap⟩

/-- The outer binders share a name that an equation mentions, the inner ones are told apart by names
that none does. -/
theorem equalGiven_comm_nested :
    let facts := [binary .equals (var "x") (var "c"), binary .iff (call "P" [var "d"]) (var "e")]
    let a := bind .all "x" (bind .some "u" (call "R" [var "x", var "u", call "P" [var "d"]]))
    let b := bind .all "x" (bind .some "v" (call "R" [var "c", var "v", var "e"]))
    (∀ p ∈ facing a b, Meet facts p.1 p.2) ∧ equalGiven facts a b = true ∧
      equalGiven facts b a = true := by
  intro facts a b
  have hm : ∀ p ∈ facing a b, Meet facts p.1 p.2 := by decide
  have hab : equalGiven facts a b = true := by decide +kernel
  exact ⟨hm, hab, equalGiven_comm facts a b hm ▸ hab⟩

/-- `∀x(P(x))` is compared with `∀y(P(c))` under the name `x`, which `x = c` lets pass; the other way
round it is compared under the name `y`, of which nothing is known. -/
theorem order_of_sides_matters :
    equalGiven [binary .equals (var "x") (var "c")]
        (bind .all "x" (call "P" [var "x"])) (bind .all "y" (call "P" [var "c"])) ≠
      equalGiven [binary .equals (var "x") (var "c")]
        (bind .all "y" (call "P" [var "c"])) (bind .all "x" (call "P" [var "x"])) := by
  decide +kernel

end ProofScript.Expr
