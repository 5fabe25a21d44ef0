import ProofScript.Proofs.MoreFacts

/-!
# Chains and the congruence of the known equations

A chain never equates more than it has to: what it equates is equal in every congruence that contains
the known equations, where bodies of binders are not exchanged. In the other direction some depth is
enough for whatever is equal in this sense. The main step is that chains compose: their levels add up.
-/

namespace ProofScript.Expr

-- ---------------------------------------------------------------- the congruence

/-- The least congruence that contains equality up to bound names and the known equations. Parts of
calls, operations, negations and groups may be exchanged, bodies of binders may not. -/
inductive Equated (facts : List Expr) : Expr → Expr → Prop
  | alpha {a b : Expr} : a.nameless [] = b.nameless [] → Equated facts a b
  | fact : binary .equals l r ∈ facts → Equated facts l r
  | symm : Equated facts a b → Equated facts b a
  | trans : Equated facts a b → Equated facts b c → Equated facts a c
  | call : as.length = bs.length → (∀ a b, (a, b) ∈ as.zip bs → Equated facts a b) →
    Equated facts (call f as) (call f bs)
  | binary : Equated facts l m → Equated facts r n → Equated facts (binary op l r) (binary op m n)
  | not : Equated facts e d → Equated facts (not e) (not d)
  | group : as.length = bs.length → (∀ a b, (a, b) ∈ as.zip bs → Equated facts a b) →
    Equated facts (group g as) (group g bs)

theorem equated_compatible (facts : List Expr) : Compatible (Equated facts) where
  call h := .call h.length_eq fun _ _ hab => (List.forall₂_iff_zip.mp h).2 hab
  binary := .binary
  not := .not
  group h := .group h.length_eq fun _ _ hab => (List.forall₂_iff_zip.mp h).2 hab

theorem equated_of_chained (h : chained (equations facts) n a b = true) : Equated facts a b := by
  refine chained_least (equated_compatible facts) (fun x => .alpha rfl)
    (fun h => .alpha (alphaEq_iff.mp h)) ?_ h
  rintro l r a b hlr (⟨hl, hr⟩ | ⟨hl, hr⟩)
  · exact hl.symm.trans ((Equated.fact (mem_equations.mp hlr)).trans hr)
  · exact hr.symm.trans ((Equated.fact (mem_equations.mp hlr)).symm.trans hl)

-- ---------------------------------------------------------------- chains from either side

theorem alphaEq_symm (h : alphaEq a b = true) : alphaEq b a = true :=
  alphaEq_iff.mpr (alphaEq_iff.mp h).symm

theorem alphaEq_trans (hab : alphaEq a b = true) (hbc : alphaEq b c = true) : alphaEq a c = true :=
  alphaEq_iff.mpr ((alphaEq_iff.mp hab).trans (alphaEq_iff.mp hbc))

section
variable {link : Expr → Expr → Bool}

/-- Expressions that are the same up to bound names are congruent, whatever links there are. -/
theorem congruent_of_alphaEq (h : alphaEq a b = true) : congruent link a b = true := by
  obtain ⟨t, h⟩ := Option.isSome_iff_exists.mp h
  refine agree_induction (P := fun a b _ _ => congruent link a b = true)
    (Q := fun as bs _ _ => List.Forall₂ (congruent link · · = true) as bs)
    ?_ ?_ ?_ ?_ ?_ ?_ ?_ ?_ ?_ a b () t h
  · exact fun _ _ _ _ h => nomatch h
  · exact fun _ _ _ => congruent_var.mpr (.inl rfl)
  · exact fun f as bs _ _ _ ih => congruent_compatible.call ih
  · exact fun op l r m n _ _ _ _ ihl ihr => congruent_compatible.binary ihl ihr
  · exact fun e d _ _ _ ih => congruent_compatible.not ih
  · intro q x e y d _ t _ hx hagree _
    -- binders are compared as a whole
    have halpha : agree (fun _ _ _ => none) (bind q x e) (bind q y d) () = some t :=
      (agree_bind rfl).mpr ⟨y, d, rfl, hx, hagree⟩
    exact congruent_bind.mpr (.inl (Option.isSome_iff_exists.mpr ⟨t, halpha⟩))
  · exact fun g as bs _ _ _ ih => congruent_compatible.group ih
  · exact fun _ => .nil
  · exact fun a b as bs _ _ _ iha ihas => .cons iha ihas

theorem congruent_symm (hlink : ∀ {a b}, link a b = true → link b a = true)
    (h : congruent link a b = true) : congruent link b a = true := by
  have hR : Compatible fun a b => congruent link b a = true := {
    call := fun h => congruent_compatible.call h.flip
    binary := congruent_compatible.binary
    not := congruent_compatible.not
    group := fun h => congruent_compatible.group h.flip }
  refine congruent_least hR (fun _ => congruent_var.mpr (.inl rfl)) ?_ ?_ h
  · exact fun h => congruent_of_alphaEq (alphaEq_symm h)
  · exact fun h => congruent_of_link (hlink h)

end

section
variable {links : List (Expr × Expr)}

theorem linked_symm (h : linked links n a b = true) : linked links n b a = true := by
  cases n with
  | zero => cases h
  | succ n =>
    obtain ⟨l, r, hlr, hsides⟩ := linked_succ.mp h
    exact linked_succ.mpr ⟨l, r, hlr, hsides.symm⟩

theorem chained_symm (h : chained links n a b = true) : chained links n b a = true := by
  rw [chained_eq] at h ⊢
  exact congruent_symm linked_symm h

end

-- ---------------------------------------------------------------- one chain after the other

section
variable {link link' link'' : Expr → Expr → Bool}

theorem congruentAll_trans (ih : ∀ a ∈ as, ∀ {b c}, congruent link a b = true →
      congruent link' b c = true → congruent link'' a c = true)
    (hab : congruentAll link as bs = true) (hbc : congruentAll link' bs cs = true) :
    congruentAll link'' as cs = true := by
  induction as generalizing bs cs with
  | nil =>
    rw [congruentAll_nil.mp hab] at hbc
    rw [congruentAll_nil.mp hbc]
    rfl
  | cons a as ihs =>
    obtain ⟨b, bs, rfl, hab, habs⟩ := congruentAll_cons.mp hab
    obtain ⟨c, cs, rfl, hbc, hbcs⟩ := congruentAll_cons.mp hbc
    exact congruentAll_cons.mpr ⟨c, cs, rfl, ih a List.mem_cons_self hab hbc,
      ihs (fun d hd => ih d (List.mem_cons_of_mem _ hd)) habs hbcs⟩

theorem bind_of_alphaEq (h : alphaEq (bind q x e) b = true) : ∃ y d, b = bind q y d := by
  obtain ⟨t, h⟩ := Option.isSome_iff_exists.mp h
  obtain ⟨y, d, rfl, _⟩ := (agree_bind rfl).mp h
  exact ⟨y, d, rfl⟩

/-- Two comparisons with the same middle go down into their parts together, until one of them comes to
a link. -/
theorem congruent_trans
    (hleft : ∀ {a b c}, link a b = true → congruent link' b c = true → congruent link'' a c = true)
    (hright : ∀ {a b c}, congruent link a b = true → link' b c = true → congruent link'' a c = true)
    (hab : congruent link a b = true) (hbc : congruent link' b c = true) :
    congruent link'' a c = true := by
  induction a using Expr.induction generalizing b c with
  | var x =>
    rcases congruent_var.mp hab with rfl | hlink
    · rcases congruent_var.mp hbc with rfl | hlink
      · exact congruent_var.mpr (.inl rfl)
      · exact hright hab hlink
    · exact hleft hlink hbc
  | call f as ih =>
    rcases congruent_call.mp hab with ⟨bs, rfl, hbs⟩ | hlink
    · rcases congruent_call.mp hbc with ⟨cs, rfl, hcs⟩ | hlink
      · exact congruent_call.mpr (.inl ⟨cs, rfl, congruentAll_trans (fun a ha => ih a ha) hbs hcs⟩)
      · exact hright hab hlink
    · exact hleft hlink hbc
  | binary op l r ihl ihr =>
    rcases congruent_binary.mp hab with ⟨l', r', rfl, hl, hr⟩ | hlink
    · rcases congruent_binary.mp hbc with ⟨l'', r'', rfl, hl', hr'⟩ | hlink
      · exact congruent_binary.mpr (.inl ⟨l'', r'', rfl, ihl hl hl', ihr hr hr'⟩)
      · exact hright hab hlink
    · exact hleft hlink hbc
  | not e ih =>
    rcases congruent_not.mp hab with ⟨e', rfl, he⟩ | hlink
    · rcases congruent_not.mp hbc with ⟨e'', rfl, he'⟩ | hlink
      · exact congruent_not.mpr (.inl ⟨e'', rfl, ih he he'⟩)
      · exact hright hab hlink
    · exact hleft hlink hbc
  | bind q x e =>
    rcases congruent_bind.mp hab with halpha | hlink
    · obtain ⟨y, d, rfl⟩ := bind_of_alphaEq halpha
      rcases congruent_bind.mp hbc with halpha' | hlink
      · exact congruent_bind.mpr (.inl (alphaEq_trans halpha halpha'))
      · exact hright hab hlink
    · exact hleft hlink hbc
  | group g as ih =>
    rcases congruent_group.mp hab with ⟨bs, rfl, hbs⟩ | hlink
    · rcases congruent_group.mp hbc with ⟨cs, rfl, hcs⟩ | hlink
      · exact congruent_group.mpr (.inl ⟨cs, rfl, congruentAll_trans (fun a ha => ih a ha) hbs hcs⟩)
      · exact hright hab hlink
    · exact hleft hlink hbc

end

section
variable {links : List (Expr × Expr)}

theorem chained_of_linked (h : linked links n a b = true) : chained links n a b = true := by
  rw [chained_eq]
  exact congruent_of_link h

/-- A link followed by a chain: the chain continues the side of the link that it meets, and the link
takes its place one level higher. -/
theorem linked_trans (ih : ∀ {k a b c}, k < n → chained links k a b = true →
      chained links m b c = true → chained links (k + m) a c = true)
    (hab : linked links n a b = true) (hbc : chained links m b c = true) :
    linked links (n + m) a c = true := by
  cases n with
  | zero => cases hab
  | succ n =>
    obtain ⟨l, r, hlr, hsides⟩ := linked_succ.mp hab
    have hmore {x y : Expr} : chained links n x y = true → chained links (n + m) x y = true :=
      chained_mono (List.Subset.refl _) (Nat.le_add_right n m)
    rw [Nat.add_right_comm]
    refine linked_succ.mpr ⟨l, r, hlr, ?_⟩
    rcases hsides with ⟨hl, hr⟩ | ⟨hl, hr⟩
    · exact .inl ⟨hmore hl, ih n.lt_succ_self hr hbc⟩
    · exact .inr ⟨ih n.lt_succ_self hl hbc, hmore hr⟩

/-- Chains compose, and their levels add up. -/
theorem chained_trans (hab : chained links n a b = true) (hbc : chained links m b c = true) :
    chained links (n + m) a c = true := by
  -- a link takes a level from one of the chains; apart from links the expressions get smaller
  induction hs : n + m using Nat.strongRecOn generalizing n m a b c with
  | _ s ih =>
    subst hs
    rw [chained_eq] at hab hbc ⊢
    refine congruent_trans (fun hab hbc => ?_) (fun hab hbc => ?_) hab hbc
    · rw [← chained_eq] at hbc
      refine congruent_of_link (linked_trans (fun hlt hab hbc => ?_) hab hbc)
      exact ih _ (Nat.add_lt_add_right hlt m) hab hbc rfl
    · -- seen from the other side, the link comes first
      rw [← chained_eq] at hab
      have hca := linked_trans (fun hlt hcb hba => ih _ (by omega) hcb hba rfl) (linked_symm hbc)
        (chained_symm hab)
      rw [Nat.add_comm]
      exact congruent_of_link (linked_symm hca)

-- ---------------------------------------------------------------- every depth taken together

/-- Finitely many chains have levels enough in common. -/
theorem chained_common (h : List.Forall₂ (fun a b => ∃ n, chained links n a b = true) as bs) :
    ∃ n, List.Forall₂ (chained links n · · = true) as bs := by
  induction h with
  | nil => exact ⟨0, .nil⟩
  | cons hab _ ih =>
    obtain ⟨n, hab⟩ := hab
    obtain ⟨m, hrest⟩ := ih
    refine ⟨max n m, .cons (chained_mono (List.Subset.refl _) (Nat.le_max_left n m) hab) ?_⟩
    exact hrest.imp fun _ _ => chained_mono (List.Subset.refl _) (Nat.le_max_right n m)

theorem chained_compatible (links : List (Expr × Expr)) (n : Nat) :
    Compatible (chained links n · · = true) := by
  rw [chained_eq]
  exact congruent_compatible

end

/-- Some depth is enough for everything that the known equations equate. -/
theorem chained_of_equated (h : Equated facts a b) : ∃ n, chained (equations facts) n a b = true := by
  induction h with
  | alpha h => exact ⟨0, congruent_of_alphaEq (alphaEq_iff.mpr h)⟩
  | fact hlr =>
    have hrefl (e : Expr) : chained (equations facts) 0 e e = true :=
      congruent_of_alphaEq (alphaEq_iff.mpr rfl)
    exact ⟨1, chained_of_linked (linked_succ.mpr
      ⟨_, _, mem_equations.mpr hlr, .inl ⟨hrefl _, hrefl _⟩⟩)⟩
  | symm _ ih =>
    obtain ⟨n, h⟩ := ih
    exact ⟨n, chained_symm h⟩
  | trans _ _ ihab ihbc =>
    obtain ⟨n, hab⟩ := ihab
    obtain ⟨m, hbc⟩ := ihbc
    exact ⟨n + m, chained_trans hab hbc⟩
  | call hlength _ ih =>
    obtain ⟨n, h⟩ := chained_common (List.forall₂_iff_zip.mpr ⟨hlength, ih _ _⟩)
    exact ⟨n, (chained_compatible _ n).call h⟩
  | binary _ _ ihl ihr =>
    obtain ⟨n, hl⟩ := ihl
    obtain ⟨m, hr⟩ := ihr
    exact ⟨max n m, (chained_compatible _ _).binary
      (chained_mono (List.Subset.refl _) (Nat.le_max_left n m) hl)
      (chained_mono (List.Subset.refl _) (Nat.le_max_right n m) hr)⟩
  | not _ ih =>
    obtain ⟨n, h⟩ := ih
    exact ⟨n, (chained_compatible _ n).not h⟩
  | group hlength _ ih =>
    obtain ⟨n, h⟩ := chained_common (List.forall₂_iff_zip.mpr ⟨hlength, ih _ _⟩)
    exact ⟨n, (chained_compatible _ n).group h⟩

/-- A chain that begins at `depth` under `cap` has `cap + 1 - depth` levels. However many these are, what
it equates belongs to the least congruence of the known equations, and its two sides can be exchanged.
Conversely each pair of the congruence is found under some cap. -/
theorem chained_equates (facts : List Expr) (a b : Expr) :
    (∀ cap depth, chained (equations facts) (cap + 1 - depth) a b = true → Equated facts a b) ∧
      (Equated facts a b → ∃ cap, chained (equations facts) (cap + 1) a b = true) ∧
      ∀ cap depth, chained (equations facts) (cap + 1 - depth) a b =
        chained (equations facts) (cap + 1 - depth) b a := by
  refine ⟨fun cap depth => equated_of_chained, fun h => ?_, fun cap depth => ?_⟩
  · obtain ⟨n, hn⟩ := chained_of_equated h
    exact ⟨n, chained_mono (List.Subset.refl _) (Nat.le_succ n) hn⟩
  · exact Bool.eq_iff_iff.mpr ⟨chained_symm, chained_symm⟩

end ProofScript.Expr
