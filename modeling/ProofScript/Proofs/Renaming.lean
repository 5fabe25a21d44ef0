import Mathlib.Data.List.Forall2
import Mathlib.Logic.Equiv.Basic
import ProofScript.Proofs.AlphaEquivalence

/-!
# Comparison up to names

Names can be permuted: if two expressions agree, so do two that are like them with the names
permuted. The names of binders are free to differ, as long as those that have to stand for each
other under the binders mean nothing to the rule that accepts pairs. The permutation grows on the
way down: under two binders it also sends the one's name to the other's.
-/

namespace ProofScript

-- ---------------------------------------------------------------- permutations

section
variable {π : Equiv.Perm String}

/-- Does what `π` does, but sends `x` to `y`. The name that `π` sends to `y` goes where `x` went. -/
def sending (π : Equiv.Perm String) (x y : String) : Equiv.Perm String :=
  π.trans (Equiv.swap (π x) y)

theorem sending_self : sending π x y x = y := by
  simp [sending]

theorem sending_of_ne (hx : z ≠ x) (hy : π z ≠ y) : sending π x y z = π z :=
  Equiv.swap_apply_of_ne_of_ne (fun h => hx (π.injective h)) hy

theorem sending_eq (h : π x = y) : sending π x y = π := by
  ext z
  simp [sending, h]

end

namespace Expr

/-- The second expression is the first one with the free names permuted, up to bound names. -/
def Alike (π : Equiv.Perm String) (a b : Expr) : Prop := (a.nameless []).map π = b.nameless []

section
variable {π : Equiv.Perm String} {a b : Expr}

theorem Alike.mem_free (h : Alike π a b) : π z ∈ b.free ↔ z ∈ a.free := by
  have hmap : π z ∈ ((a.nameless []).map π).free ↔ z ∈ a.free := by
    simp [Nameless.mem_free_map, mem_free_nameless]
  rw [← hmap, h, mem_free_nameless]
  simp

theorem Alike.mem_free_symm (h : Alike π a b) : π.symm z ∈ a.free ↔ z ∈ b.free := by
  rw [← h.mem_free, Equiv.apply_symm_apply]

theorem Alike.symm (h : Alike π a b) : Alike π.symm b a := by
  unfold Alike at h ⊢
  rw [← h, Nameless.map_map]
  simp [Nameless.map_id]

theorem Alike.congr {τ : Equiv.Perm String} (h : Alike π a b) (hsame : ∀ z ∈ a.free, π z = τ z) :
    Alike τ a b := by
  unfold Alike at h ⊢
  rw [← h]
  refine Nameless.map_congr fun z hz => (hsame z ?_).symm
  exact (mem_free_nameless.mp hz).1

theorem alike_self (h : ∀ z ∈ a.free, π z = z) : Alike π a a :=
  Alike.congr (π := Equiv.refl String) (Nameless.map_id _) fun z hz => (h z hz).symm

theorem alike_of_nameless (h : a.nameless [] = b.nameless []) : Alike (Equiv.refl String) a b :=
  (Nameless.map_id _).trans h

/-- Names that neither side uses may be sent anywhere. -/
theorem Alike.send (h : Alike π a b) (hx : x ∉ a.free) (hy : y ∉ b.free) :
    Alike (sending π x y) a b := by
  refine h.congr fun z hz => (sending_of_ne ?_ ?_).symm
  · rintro rfl
    exact hx hz
  · rintro rfl
    exact hy (h.mem_free.mpr hz)

theorem Alike.alphaEq_iff (ha : Alike π a a') (hb : Alike π b b') :
    alphaEq a b = true ↔ alphaEq a' b' = true := by
  rw [Expr.alphaEq_iff, Expr.alphaEq_iff, ← ha, ← hb]
  constructor
  · exact fun h => by rw [h]
  · intro h
    have hback := congrArg (Nameless.map π.symm) h
    simpa [Nameless.map_map, Nameless.map_id] using hback

-- ---------------------------------------------------------------- parts

theorem alike_var : Alike π (var x) b ↔ b = var (π x) := by
  cases b <;> simp [Alike, nameless, Nameless.map, Ref.map, eq_comm]

theorem alike_all {as bs : List Expr} :
    Nameless.mapAll π (namelessAll [] as) = namelessAll [] bs ↔ List.Forall₂ (Alike π) as bs := by
  induction as generalizing bs with
  | nil => cases bs <;> simp [namelessAll, Nameless.mapAll]
  | cons a as ih => cases bs <;> simp [namelessAll, Nameless.mapAll, Alike, ih]

theorem alike_call : Alike π (call f as) b ↔ ∃ bs, b = call (π f) bs ∧ List.Forall₂ (Alike π) as bs := by
  cases b with
  | call g bs => simp [Alike, nameless, Nameless.map, Ref.map, alike_all, @eq_comm _ g]
  | _ => simp [Alike, nameless, Nameless.map]

theorem alike_binary : Alike π (binary op l r) b ↔
    ∃ m n, b = binary op m n ∧ Alike π l m ∧ Alike π r n := by
  cases b with
  | binary p m n => simp [Alike, nameless, Nameless.map, and_assoc, eq_comm]
  | _ => simp [Alike, nameless, Nameless.map]

theorem alike_not : Alike π (not e) b ↔ ∃ d, b = not d ∧ Alike π e d := by
  cases b <;> simp [Alike, nameless, Nameless.map]

theorem alike_bind : Alike π (bind q x e) b ↔
    ∃ y d, b = bind q y d ∧ (e.nameless [x]).map π = d.nameless [y] := by
  cases b with
  | bind p y d => simp [Alike, nameless, Nameless.map, and_assoc, eq_comm]
  | _ => simp [Alike, nameless, Nameless.map]

theorem alike_group : Alike π (group g as) b ↔
    ∃ bs, b = group g bs ∧ List.Forall₂ (Alike π) as bs := by
  cases b with
  | group k bs => simp [Alike, nameless, Nameless.map, alike_all, @eq_comm _ k]
  | _ => simp [Alike, nameless, Nameless.map]

/-- The bodies of two binders are alike when the one's name is sent to the other's. -/
theorem Alike.opened (h : Alike π (bind q x e) (bind q y d)) : Alike (sending π x y) e d := by
  obtain ⟨_, _, heq, hbody⟩ := alike_bind.mp h
  cases heq
  have hsame : (e.nameless [x]).map (sending π x y) = (e.nameless [x]).map π := by
    refine Nameless.map_congr fun z hz => sending_of_ne ?_ ?_
    · simpa using (mem_free_nameless.mp hz).2
    · have hfree : π z ∈ (d.nameless [y]).free := hbody ▸ Nameless.mem_free_map.mpr ⟨z, hz, rfl⟩
      simpa using (mem_free_nameless.mp hfree).2
  calc (e.nameless []).map (sending π x y)
      = ((e.nameless [x]).opened 0 x).map (sending π x y) := by
        rw [← nameless_opened e [] x]
        rfl
    _ = ((e.nameless [x]).map π).opened 0 y := by
        rw [Nameless.map_opened, hsame, sending_self]
    _ = d.nameless [] := by
        rw [hbody, ← nameless_opened d [] y]
        rfl

theorem Alike.rebind (h : Alike π (bind q x e) (bind q y d)) (p : Binder) :
    Alike π (bind p x e) (bind p y d) := by
  obtain ⟨_, _, heq, hbody⟩ := alike_bind.mp h
  cases heq
  exact alike_bind.mpr ⟨y, d, rfl, hbody⟩

/-- Two bodies are alike with the names of other binders, where they can be given to them. -/
theorem Alike.matched (h : Alike π (bind q y d) (bind q y' d')) (hx : x = y ∨ x ∉ d.free)
    (hx' : x' = y' ∨ x' ∉ d'.free) :
    Alike (sending π x x') (matched x y d) (matched x' y' d') := by
  obtain ⟨_, _, heq, hbody⟩ := alike_bind.mp h
  cases heq
  refine Alike.opened (alike_bind.mpr ⟨x', _, rfl, ?_⟩) (q := q)
  rw [nameless_matched hx, nameless_matched hx']
  exact hbody

end

-- ---------------------------------------------------------------- agreement

section
variable {accept : Expr → Expr → σ → Option σ} {a b : Expr}

theorem mem_matched_of_free (h : z ∈ (bind q y d).free) : z ∈ (matched x y d).free := by
  obtain ⟨hz, hzy⟩ := mem_free_bind.mp h
  unfold matched
  split
  · exact hz
  · exact mem_free_rename.mpr (.inl ⟨hz, hzy⟩)

/-- What agrees has the same free names, but for those that count for acceptance. -/
theorem agree_free {W : String → Prop}
    (haccept : ∀ a b s t, accept a b s = some t → ∀ z, ¬W z → (z ∈ a.free ↔ z ∈ b.free))
    (h : agree accept a b s = some t) (hz : ¬W z) : z ∈ a.free ↔ z ∈ b.free := by
  refine agree_induction (P := fun a b _ _ => z ∈ a.free ↔ z ∈ b.free)
    (Q := fun as bs _ _ => z ∈ freeAll as ↔ z ∈ freeAll bs) ?_ ?_ ?_ ?_ ?_ ?_ ?_ ?_ ?_ a b s t h
  · exact fun a b s t h => haccept a b s t h z hz
  · exact fun _ _ _ => Iff.rfl
  · exact fun f as bs _ _ _ ih => by simp only [free, List.mem_cons, ih]
  · exact fun op l r m n _ _ _ _ ihl ihr => by simp only [free, List.mem_append, ihl, ihr]
  · exact fun e d _ _ _ ih => ih
  · intro q x e y d _ _ _ hx _ ih
    constructor
    · intro h
      obtain ⟨he, hzx⟩ := mem_free_bind.mp h
      exact (mem_free_matched (ih.mp he)).resolve_left hzx
    · intro h
      refine mem_free_bind.mpr ⟨ih.mpr (mem_matched_of_free h), ?_⟩
      rintro rfl
      obtain ⟨hd, hzy⟩ := mem_free_bind.mp h
      exact hx.elim hzy fun hd' => hd' hd
  · exact fun g as bs _ _ _ ih => ih
  · exact fun _ => Iff.rfl
  · exact fun a b as bs _ _ _ iha ihas => by simp only [freeAll, List.mem_append, iha, ihas]

end

/-- Where binders of `as` and `bs` can meet, those of `as` stand to those of `cs` in the relation `E`:
each to its own if the two are the same, any to any if not. -/
def Parallel (E : String → String → Prop) (as cs bs : List Expr) : Prop :=
  bindersAll bs = [] ∨ (as = cs ∧ ∀ x ∈ bindersAll as, E x x) ∨
    ∀ x ∈ bindersAll as, ∀ y ∈ bindersAll cs, E x y

section
variable {E : String → String → Prop}

theorem Parallel.head (h : Parallel E (a :: as) (c :: cs) (b :: bs)) : Parallel E [a] [c] [b] := by
  simp only [Parallel, bindersAll, List.append_eq_nil_iff, List.cons.injEq, List.mem_append,
    List.append_nil, and_true] at h ⊢
  rcases h with h | ⟨⟨rfl, _⟩, h⟩ | h
  · exact .inl h.1
  · exact .inr (.inl ⟨rfl, fun x hx => h x (.inl hx)⟩)
  · exact .inr (.inr fun x hx y hy => h x (.inl hx) y (.inl hy))

theorem Parallel.tail (h : Parallel E (a :: as) (c :: cs) (b :: bs)) : Parallel E as cs bs := by
  simp only [Parallel, bindersAll, List.append_eq_nil_iff, List.cons.injEq, List.mem_append] at h ⊢
  rcases h with h | ⟨⟨_, rfl⟩, h⟩ | h
  · exact .inl h.2
  · exact .inr (.inl ⟨rfl, fun x hx => h x (.inr hx)⟩)
  · exact .inr (.inr fun x hx y hy => h x (.inr hx) y (.inr hy))

theorem Parallel.args (h : Parallel E [call f as] [call g cs] [call k bs]) : Parallel E as cs bs := by
  simp only [Parallel, bindersAll, binders, List.append_nil, List.cons.injEq, call.injEq, and_true] at h
  exact h.imp_right (Or.imp_left (And.imp_left And.right))

/-- Two binders that meet are in the relation, and their bodies are parallel whatever they meet. -/
theorem Parallel.body (h : Parallel E [bind q x e] [bind q y c] [bind q z d]) (bs : List Expr) :
    E x y ∧ Parallel E [e] [c] bs := by
  simp only [Parallel, bindersAll, binders, List.append_nil, List.mem_cons, List.cons.injEq,
    bind.injEq, true_and, and_true, reduceCtorEq, false_or] at h ⊢
  rcases h with ⟨⟨rfl, rfl⟩, h⟩ | h
  · exact ⟨h x (.inl rfl), .inr (.inl ⟨rfl, fun z hz => h z (.inr hz)⟩)⟩
  · exact ⟨h x (.inl rfl) y (.inl rfl), .inr (.inr fun z hz w hw => h z (.inr hz) w (.inr hw))⟩

/-- The second rule accepts as the first does, up to names. States correspond by `R`. For names of
binders in the relation `E` this stays so under the binders. All names but those in `W` are kept by
what is accepted. `N` is what is known of the names that are free in the second expressions. -/
structure Mirrors (accept : Expr → Expr → σ → Option σ) (accept' : Expr → Expr → τ → Option τ)
    (R : Equiv.Perm String → σ → τ → Prop) (E : String → String → Prop) (W : String → Prop)
    (N : String → String → Prop) : Prop where
  accepts : ∀ {π a b c d s s' t}, R π s s' → Alike π a c → Alike π b d →
    (∀ z ∈ b.free, N z (π z)) → accept a b s = some t → ∃ t', accept' c d s' = some t' ∧ R π t t'
  refuses : ∀ {π a b c d s s'}, R π s s' → Alike π a c → Alike π b d →
    (∀ z ∈ b.free, N z (π z)) → accept a b s = none → accept' c d s' = none
  free : ∀ {a b s t z}, accept a b s = some t → ¬W z → (z ∈ a.free ↔ z ∈ b.free)
  binder : ∀ {x y}, E x y → N x y
  enters : ∀ {π x y s s'}, E x y → R π s s' → R (sending π x y) s s'
  leaves : ∀ {π x y s s' t t'}, E x y → R π s s' → R (sending π x y) t t' → R π t t'
  apart : ∀ {π x y s s' z}, E x y → R π s s' → W z → N z (π z) → π z = y → z = x

end

section
variable {accept : Expr → Expr → σ → Option σ} {accept' : Expr → Expr → τ → Option τ}
  {R : Equiv.Perm String → σ → τ → Prop} {E : String → String → Prop} {W : String → Prop}
  {N : String → String → Prop} {π : Equiv.Perm String}

/-- The name of the other side's binder can be given to what its binder meets, too. -/
theorem Mirrors.not_free (h : Mirrors accept accept' R E W N) (hE : E x x') (hs : R π s s')
    (ha : Alike π (bind q x e) (bind q x' e')) (hb : Alike π (bind q y d) (bind q y' d'))
    (hN : ∀ z ∈ (bind q y d).free, N z (π z)) (hx : x = y ∨ x ∉ d.free)
    (hagree : agree accept e (matched x y d) s = some t) : x' = y' ∨ x' ∉ d'.free := by
  have hnot : x ∉ (bind q y d).free := by
    intro hfree
    obtain ⟨hd, hxy⟩ := mem_free_bind.mp hfree
    exact hx.elim hxy fun hd' => hd' hd
  by_cases hxy : x' = y'
  · exact .inl hxy
  refine .inr fun hd' => ?_
  have hfree : π.symm x' ∈ (bind q y d).free := hb.mem_free_symm.mpr (mem_free_bind.mpr ⟨hd', hxy⟩)
  have hne : π.symm x' ≠ x := fun heq => hnot (heq ▸ hfree)
  have hW : ¬W (π.symm x') := fun hW => hne (h.apart hE hs hW (hN _ hfree) (π.apply_symm_apply x'))
  have he := (agree_free (fun _ _ _ _ hacc _ => h.free hacc) hagree hW).mpr (mem_matched_of_free hfree)
  have hfree' := ha.mem_free_symm.mp (mem_free_bind.mpr ⟨he, hne⟩)
  exact (mem_free_bind.mp hfree').2 rfl

/-- What is known of the free names is known under binders, too. -/
theorem Mirrors.under (h : Mirrors accept accept' R E W N) (hE : E x x')
    (hb : Alike π (bind q y d) (bind q y' d')) (hN : ∀ z ∈ (bind q y d).free, N z (π z))
    (hx' : x' = y' ∨ x' ∉ d'.free) : ∀ z ∈ (matched x y d).free, N z (sending π x x' z) := by
  intro z hz
  by_cases hzx : z = x
  · rw [hzx, sending_self]
    exact h.binder hE
  · have hfree : z ∈ (bind q y d).free := (mem_free_matched hz).resolve_left hzx
    have hne : π z ≠ x' := by
      rintro rfl
      obtain ⟨hd', hy'⟩ := mem_free_bind.mp (hb.mem_free.mpr hfree)
      exact hx'.elim hy' fun hd => hd hd'
    rw [sending_of_ne hzx hne]
    exact hN z hfree

/-- If two expressions agree, so do two that are like them. -/
theorem Mirrors.agree (h : Mirrors accept accept' R E W N) (hagree : agree accept a b s = some t)
    (hs : R π s s') (ha : Alike π a c) (hb : Alike π b d) (hN : ∀ z ∈ b.free, N z (π z))
    (hp : Parallel E [a] [c] [b]) : ∃ t', Expr.agree accept' c d s' = some t' ∧ R π t t' := by
  revert π s' c d
  refine agree_induction
    (P := fun a b s t => ∀ {π s' c d}, R π s s' → Alike π a c → Alike π b d →
      (∀ z ∈ b.free, N z (π z)) → Parallel E [a] [c] [b] →
      ∃ t', Expr.agree accept' c d s' = some t' ∧ R π t t')
    (Q := fun as bs s t => ∀ {π s' cs ds}, R π s s' → List.Forall₂ (Alike π) as cs →
      List.Forall₂ (Alike π) bs ds → (∀ z ∈ freeAll bs, N z (π z)) → Parallel E as cs bs →
      ∃ t', agreeAll accept' cs ds s' = some t' ∧ R π t t') ?_ ?_ ?_ ?_ ?_ ?_ ?_ ?_ ?_ a b s t hagree
  · intro a b s t haccept π s' c d hs ha hb hN _
    obtain ⟨t', haccept', ht⟩ := h.accepts hs ha hb hN haccept
    exact ⟨t', agree_accepted haccept', ht⟩
  · intro x s hr π s' c d hs ha hb hN _
    have hr' := h.refuses hs ha hb hN hr
    obtain rfl := alike_var.mp ha
    obtain rfl := alike_var.mp hb
    exact ⟨s', (agree_var hr').mpr ⟨rfl, rfl⟩, hs⟩
  · intro f as bs s t hr ih π s' c d hs ha hb hN hp
    have hr' := h.refuses hs ha hb hN hr
    obtain ⟨cs, rfl, has⟩ := alike_call.mp ha
    obtain ⟨ds, rfl, hbs⟩ := alike_call.mp hb
    obtain ⟨t', hagree, ht⟩ := ih hs has hbs (fun z hz => hN z (List.mem_cons_of_mem _ hz)) hp.args
    exact ⟨t', (agree_call hr').mpr ⟨ds, rfl, hagree⟩, ht⟩
  · intro op l r m n s u t hr ihl ihr π s' c d hs ha hb hN hp
    have hr' := h.refuses hs ha hb hN hr
    obtain ⟨l', r', rfl, hl, hr⟩ := alike_binary.mp ha
    obtain ⟨m', n', rfl, hm, hn⟩ := alike_binary.mp hb
    have hp : Parallel E [l, r] [l', r'] [m, n] := by
      simpa [Parallel, bindersAll, binders] using hp
    obtain ⟨hNm, hNn⟩ := List.forall_mem_append.mp hN
    obtain ⟨u', hleft, hu⟩ := ihl hs hl hm hNm hp.head
    obtain ⟨t', hright, ht⟩ := ihr hu hr hn hNn hp.tail
    exact ⟨t', (agree_binary hr').mpr ⟨m', n', u', rfl, hleft, hright⟩, ht⟩
  · intro e d s t hr ih π s' c d' hs ha hb hN hp
    have hr' := h.refuses hs ha hb hN hr
    obtain ⟨e', rfl, he⟩ := alike_not.mp ha
    obtain ⟨d', rfl, hd⟩ := alike_not.mp hb
    obtain ⟨t', hagree, ht⟩ := ih hs he hd hN (by simpa [Parallel, bindersAll, binders] using hp)
    exact ⟨t', (agree_not hr').mpr ⟨d', rfl, hagree⟩, ht⟩
  · intro q x e y d s t hr hx hagree ih π s' c d' hs ha hb hN hp
    have hr' := h.refuses hs ha hb hN hr
    obtain ⟨x', e', rfl, _⟩ := alike_bind.mp ha
    obtain ⟨y', d', rfl, _⟩ := alike_bind.mp hb
    obtain ⟨hE, hp⟩ := hp.body [matched x y d]
    have hx' := h.not_free hE hs ha hb hN hx hagree
    obtain ⟨t', hagree, ht⟩ :=
      ih (h.enters hE hs) ha.opened (hb.matched hx hx') (h.under hE hb hN hx') hp
    exact ⟨t', (agree_bind hr').mpr ⟨y', d', rfl, hx', hagree⟩, h.leaves hE hs ht⟩
  · intro g as bs s t hr ih π s' c d hs ha hb hN hp
    have hr' := h.refuses hs ha hb hN hr
    obtain ⟨cs, rfl, has⟩ := alike_group.mp ha
    obtain ⟨ds, rfl, hbs⟩ := alike_group.mp hb
    obtain ⟨t', hagree, ht⟩ := ih hs has hbs hN (by simpa [Parallel, bindersAll, binders] using hp)
    exact ⟨t', (agree_group hr').mpr ⟨ds, rfl, hagree⟩, ht⟩
  · intro s π s' cs ds hs has hbs _ _
    cases has
    cases hbs
    exact ⟨s', agreeAll_nil.mpr ⟨rfl, rfl⟩, hs⟩
  · intro a b as bs s u t iha ihas π s' cs ds hs has hbs hN hp
    obtain ⟨c, cs, hc, hcs, rfl⟩ := List.forall₂_cons_left_iff.mp has
    obtain ⟨d, ds, hd, hds, rfl⟩ := List.forall₂_cons_left_iff.mp hbs
    obtain ⟨hNb, hNbs⟩ := List.forall_mem_append.mp hN
    obtain ⟨u', hhead, hu⟩ := iha hs hc hd hNb hp.head
    obtain ⟨t', htail, ht⟩ := ihas hu hcs hds hNbs hp.tail
    exact ⟨t', agreeAll_cons.mpr ⟨d, ds, u', rfl, hhead, htail⟩, ht⟩

end

end Expr

end ProofScript
