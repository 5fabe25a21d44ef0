import ProofScript.Proofs.Renaming

/-!
# Facts up to names

Each way of comparing expressions comes to the same answer on two sides that are alike: exchanges of
known equals, chains of equations, and the search for a witness. Exchanges look at names under
binders, so a name that known equations mention must not be that of a binder, unless it is the same
on both sides. The search for a witness makes up names, so those of the expressions must not be
reserved.
-/

namespace ProofScript

namespace Expr

-- ---------------------------------------------------------------- known equations

/-- The nameless forms of the known equations and equivalences. -/
def linkForms (facts : List Expr) : List Nameless := (facts.filter isLink).map (nameless [])

theorem mem_linkNames_forms : x ∈ linkNames facts ↔ ∃ F ∈ linkForms facts, x ∈ F.free := by
  simp only [linkNames, mem_freeAll, linkForms, List.mem_map]
  constructor
  · rintro ⟨f, hf, hx⟩
    exact ⟨_, ⟨f, hf, rfl⟩, mem_free_nameless.mpr ⟨hx, List.not_mem_nil⟩⟩
  · rintro ⟨_, ⟨f, hf, rfl⟩, hx⟩
    exact ⟨f, hf, (mem_free_nameless.mp hx).1⟩

theorem interchangeable_iff : interchangeable facts a b = true ↔
    ∃ op l r, .binary op l r ∈ linkForms facts ∧
      (l = a.nameless [] ∧ r = b.nameless [] ∨ l = b.nameless [] ∧ r = a.nameless []) := by
  simp only [linkForms, List.mem_map, List.mem_filter]
  constructor
  · intro h
    obtain ⟨op, l, r, hf, hop, hsides⟩ := interchangeable_cases h
    refine ⟨op, l.nameless [], r.nameless [], ⟨_, ⟨hf, ?_⟩, rfl⟩, ?_⟩
    · rcases hop with rfl | rfl <;> rfl
    · simpa only [alphaEq_iff] using hsides
  · rintro ⟨op, l, r, ⟨f, ⟨hf, hlink⟩, hform⟩, hsides⟩
    cases f with
    | binary p m n =>
      cases hform
      simp only [← alphaEq_iff] at hsides
      refine List.any_eq_true.mpr ⟨_, hf, ?_⟩
      cases op <;> simp_all [isLink]
    | _ => cases hform

/-- The known equations of the two sides are alike, and the names in `K` are kept. -/
structure LinksAlike (K : String → Prop) (Γ Δ : List Expr) (π : Equiv.Perm String) : Prop where
  forms : (linkForms Γ).map (Nameless.map π) = linkForms Δ
  kept : ∀ z, K z → π z = z

/-- Two names are the same kept name, or none that known equations mention. -/
def Exchangeable (K : String → Prop) (Γ Δ : List Expr) (x y : String) : Prop :=
  x = y ∧ K x ∨ (x ∉ linkNames Γ ∧ ¬K x) ∧ y ∉ linkNames Δ ∧ ¬K y

section
variable {K : String → Prop} {Γ Δ : List Expr} {π : Equiv.Perm String}

theorem LinksAlike.mem_linkNames (h : LinksAlike K Γ Δ π) (hz : z ∈ linkNames Γ) :
    π z ∈ linkNames Δ := by
  obtain ⟨F, hF, hz⟩ := mem_linkNames_forms.mp hz
  refine mem_linkNames_forms.mpr ⟨F.map π, h.forms ▸ List.mem_map.mpr ⟨F, hF, rfl⟩, ?_⟩
  exact Nameless.mem_free_map.mpr ⟨z, hz, rfl⟩

theorem LinksAlike.send (h : LinksAlike K Γ Δ π) (hE : Exchangeable K Γ Δ x y) :
    LinksAlike K Γ Δ (sending π x y) := by
  rcases hE with ⟨rfl, hK⟩ | ⟨⟨hx, hxK⟩, hy, hyK⟩
  · rwa [sending_eq (h.kept x hK)]
  · refine ⟨?_, fun z hz => ?_⟩
    · rw [← h.forms]
      refine List.map_congr_left fun F hF => Nameless.map_congr fun z hz => ?_
      have hlink : z ∈ linkNames Γ := mem_linkNames_forms.mpr ⟨F, hF, hz⟩
      refine sending_of_ne ?_ ?_
      · rintro rfl
        exact hx hlink
      · rintro rfl
        exact hy (h.mem_linkNames hlink)
    · have hπ := h.kept z hz
      rw [sending_of_ne ?_ ?_, hπ]
      · rintro rfl
        exact hxK hz
      · rintro rfl
        exact hyK (hπ.symm ▸ hz)

theorem LinksAlike.interchangeable_iff (h : LinksAlike K Γ Δ π) (ha : Alike π a c)
    (hb : Alike π b d) : interchangeable Γ a b = true ↔ interchangeable Δ c d = true := by
  have hback (F G : Nameless) (hFG : F.map π = G.map π) : F = G := by
    have := congrArg (Nameless.map π.symm) hFG
    simpa [Nameless.map_map, Nameless.map_id] using this
  rw [Expr.interchangeable_iff, Expr.interchangeable_iff, ← h.forms, ← ha, ← hb]
  constructor
  · rintro ⟨op, l, r, hlr, hsides⟩
    refine ⟨op, l.map π, r.map π, List.mem_map.mpr ⟨_, hlr, rfl⟩, ?_⟩
    rcases hsides with ⟨rfl, rfl⟩ | ⟨rfl, rfl⟩
    · exact .inl ⟨rfl, rfl⟩
    · exact .inr ⟨rfl, rfl⟩
  · rintro ⟨op, l, r, hlr, hsides⟩
    obtain ⟨F, hF, hform⟩ := List.mem_map.mp hlr
    cases F with
    | binary p m n =>
      cases hform
      refine ⟨op, m, n, hF, ?_⟩
      exact hsides.imp (And.imp (hback _ _) (hback _ _)) (And.imp (hback _ _) (hback _ _))
    | _ => cases hform

theorem interchangeable_free (h : interchangeable Γ a b = true) (hz : z ∈ a.free ∨ z ∈ b.free) :
    z ∈ linkNames Γ := by
  obtain ⟨op, l, r, hlr, hsides⟩ := interchangeable_iff.mp h
  refine mem_linkNames_forms.mpr ⟨_, hlr, ?_⟩
  have hfree {e : Expr} (he : z ∈ e.free) : z ∈ (e.nameless []).free :=
    mem_free_nameless.mpr ⟨he, List.not_mem_nil⟩
  simp only [Nameless.free, List.mem_append]
  rcases hsides with ⟨rfl, rfl⟩ | ⟨rfl, rfl⟩
  · exact hz.imp hfree hfree
  · exact (hz.imp hfree hfree).symm

theorem mirrors_interchange (K : String → Prop) (Γ Δ : List Expr) :
    Mirrors (fun a b (s : Unit) => if interchangeable Γ a b then some s else none)
      (fun a b (s : Unit) => if interchangeable Δ a b then some s else none)
      (fun π _ _ => LinksAlike K Γ Δ π) (Exchangeable K Γ Δ) (· ∈ linkNames Γ) (fun _ _ => True) where
  accepts := by
    intro π a b c d s s' t hs ha hb _ haccept
    have hi := hs.interchangeable_iff ha hb
    by_cases hab : interchangeable Γ a b = true
    · exact ⟨s', if_pos (hi.mp hab), hs⟩
    · rw [if_neg hab] at haccept
      cases haccept
  refuses := by
    intro π a b c d s s' hs ha hb _ haccept
    have hi := hs.interchangeable_iff ha hb
    by_cases hab : interchangeable Γ a b = true
    · rw [if_pos hab] at haccept
      cases haccept
    · exact if_neg fun h => hab (hi.mpr h)
  free := by
    intro a b s t z haccept hz
    by_cases hab : interchangeable Γ a b = true
    · exact ⟨fun h => absurd (interchangeable_free hab (.inl h)) hz,
        fun h => absurd (interchangeable_free hab (.inr h)) hz⟩
    · rw [if_neg hab] at haccept
      cases haccept
  binder _ := trivial
  enters hE hs := hs.send hE
  leaves _ hs _ := hs
  apart := by
    rintro π x y _ _ z (⟨rfl, hK⟩ | ⟨_, hy, _⟩) hs hz _ heq
    · exact π.injective (heq.trans (hs.kept x hK).symm)
    · exact absurd (heq ▸ hs.mem_linkNames hz) hy

/-- Comparison with known equations does not see names. -/
theorem LinksAlike.equalGiven (h : LinksAlike K Γ Δ π) (ha : Alike π a c) (hb : Alike π b d)
    (hp : Parallel (Exchangeable K Γ Δ) [a] [c] [b]) (heq : equalGiven Γ a b = true) :
    Expr.equalGiven Δ c d = true := by
  obtain ⟨t, hagree⟩ := Option.isSome_iff_exists.mp heq
  obtain ⟨t', hagree', _⟩ :=
    Mirrors.agree (mirrors_interchange K Γ Δ) hagree h ha hb (fun _ _ => trivial) hp
  exact Option.isSome_iff_exists.mpr ⟨t', hagree'⟩

theorem equalGiven_free (h : equalGiven Γ a b = true) (hz : z ∉ linkNames Γ) :
    z ∈ a.free ↔ z ∈ b.free := by
  obtain ⟨t, hagree⟩ := Option.isSome_iff_exists.mp h
  exact agree_free (fun _ _ _ _ h _ => (mirrors_interchange (fun _ => True) Γ Γ).free h) hagree hz

end

-- ---------------------------------------------------------------- facts that are alike

section
variable {π : Equiv.Perm String} {a b c d : Expr} {Γ Δ : List Expr}

theorem exists_counterpart {R : Expr → Expr → Prop} (h : List.Forall₂ R Γ Δ) (hf : f ∈ Γ) :
    ∃ f' ∈ Δ, R f f' := by
  induction h with
  | nil => cases hf
  | cons hR _ ih =>
    rcases List.mem_cons.mp hf with rfl | hf
    · exact ⟨_, List.mem_cons_self, hR⟩
    · obtain ⟨f', hf', hR⟩ := ih hf
      exact ⟨f', List.mem_cons_of_mem _ hf', hR⟩

theorem Alike.isLink (h : Alike π a c) : a.isLink = c.isLink := by
  cases a with
  | var x => rw [alike_var.mp h]; rfl
  | call f as => obtain ⟨_, rfl, _⟩ := alike_call.mp h; rfl
  | binary op l r =>
    obtain ⟨_, _, rfl, _⟩ := alike_binary.mp h
    cases op <;> rfl
  | not e => obtain ⟨_, rfl, _⟩ := alike_not.mp h; rfl
  | bind q x e => obtain ⟨_, _, rfl, _⟩ := alike_bind.mp h; rfl
  | group g as => obtain ⟨_, rfl, _⟩ := alike_group.mp h; rfl

theorem linkForms_alike (h : List.Forall₂ (Alike π) Γ Δ) :
    (linkForms Γ).map (Nameless.map π) = linkForms Δ := by
  induction h with
  | nil => rfl
  | cons hac _ ih =>
    unfold linkForms at ih ⊢
    rw [List.filter_cons, List.filter_cons, ← hac.isLink]
    split
    · simp only [List.map_cons, ih]
      rw [hac]
    · exact ih

-- ---------------------------------------------------------------- chains

section
variable {link link' : Expr → Expr → Bool}

theorem congruentAll_alike (ih : ∀ a ∈ as, ∀ {b c d}, Alike π a c → Alike π b d →
      congruent link a b = true → congruent link' c d = true)
    (has : List.Forall₂ (Alike π) as cs) (hbs : List.Forall₂ (Alike π) bs ds)
    (h : congruentAll link as bs = true) : congruentAll link' cs ds = true := by
  induction has generalizing bs ds with
  | nil =>
    rw [congruentAll_nil.mp h] at hbs
    cases hbs
    rfl
  | cons ha _ ihs =>
    obtain ⟨b, rest, rfl, hab, hrest⟩ := congruentAll_cons.mp h
    obtain ⟨d, ds, hb, hds, rfl⟩ := List.forall₂_cons_left_iff.mp hbs
    exact congruentAll_cons.mpr ⟨d, ds, rfl, ih _ List.mem_cons_self ha hb hab,
      ihs (fun a ha => ih a (List.mem_cons_of_mem _ ha)) hds hrest⟩

theorem congruent_alike
    (hlink : ∀ {a b c d}, Alike π a c → Alike π b d → link a b = true → link' c d = true)
    (ha : Alike π a c) (hb : Alike π b d) (h : congruent link a b = true) :
    congruent link' c d = true := by
  induction a using Expr.induction generalizing b c d with
  | var x =>
    rcases congruent_var.mp h with rfl | h
    · rw [alike_var.mp ha, alike_var.mp hb]
      exact congruent_var.mpr (.inl rfl)
    · exact congruent_of_link (hlink ha hb h)
  | call f as ih =>
    rcases congruent_call.mp h with ⟨bs, rfl, hbs⟩ | h
    · obtain ⟨cs, rfl, has⟩ := alike_call.mp ha
      obtain ⟨ds, rfl, hds⟩ := alike_call.mp hb
      exact congruent_call.mpr (.inl ⟨ds, rfl, congruentAll_alike (fun a ha => ih a ha) has hds hbs⟩)
    · exact congruent_of_link (hlink ha hb h)
  | binary op l r ihl ihr =>
    rcases congruent_binary.mp h with ⟨m, n, rfl, hlm, hrn⟩ | h
    · obtain ⟨l', r', rfl, hl, hr⟩ := alike_binary.mp ha
      obtain ⟨m', n', rfl, hm, hn⟩ := alike_binary.mp hb
      exact congruent_binary.mpr (.inl ⟨m', n', rfl, ihl hl hm hlm, ihr hr hn hrn⟩)
    · exact congruent_of_link (hlink ha hb h)
  | not e ih =>
    rcases congruent_not.mp h with ⟨d, rfl, hed⟩ | h
    · obtain ⟨e', rfl, he⟩ := alike_not.mp ha
      obtain ⟨d', rfl, hd⟩ := alike_not.mp hb
      exact congruent_not.mpr (.inl ⟨d', rfl, ih he hd hed⟩)
    · exact congruent_of_link (hlink ha hb h)
  | bind q x e =>
    rcases congruent_bind.mp h with h | h
    · have halpha := (ha.alphaEq_iff hb).mp h
      obtain ⟨x', e', rfl, _⟩ := alike_bind.mp ha
      exact congruent_bind.mpr (.inl halpha)
    · exact congruent_of_link (hlink ha hb h)
  | group g as ih =>
    rcases congruent_group.mp h with ⟨bs, rfl, hbs⟩ | h
    · obtain ⟨cs, rfl, has⟩ := alike_group.mp ha
      obtain ⟨ds, rfl, hds⟩ := alike_group.mp hb
      exact congruent_group.mpr (.inl ⟨ds, rfl, congruentAll_alike (fun a ha => ih a ha) has hds hbs⟩)
    · exact congruent_of_link (hlink ha hb h)

end

theorem chained_alike (hΓ : List.Forall₂ (Alike π) Γ Δ) (ha : Alike π a c) (hb : Alike π b d)
    (h : chained (equations Γ) n a b = true) : chained (equations Δ) n c d = true := by
  induction n generalizing a b c d with
  | zero =>
    have hno {a b c d : Expr} (_ : Alike π a c) (_ : Alike π b d) (h : false = true) : false = true := h
    exact congruent_alike hno ha hb h
  | succ n ih =>
    rw [chained_eq] at h ⊢
    refine congruent_alike (fun {a b c d} ha hb h => ?_) ha hb h
    obtain ⟨l, r, hlr, hsides⟩ := linked_succ.mp h
    obtain ⟨_, hmem, hf⟩ := exists_counterpart hΓ (mem_equations.mp hlr)
    obtain ⟨l', r', rfl, hl, hr⟩ := alike_binary.mp hf
    refine linked_succ.mpr ⟨l', r', mem_equations.mpr hmem, ?_⟩
    exact hsides.imp (And.imp (ih hl ha) (ih hr hb)) (And.imp (ih hl hb) (ih hr ha))

end

-- ---------------------------------------------------------------- witnesses

/-- The slot may stand for the target: no bound name of the pattern is in it, and it is the witness
found before, if there is one. -/
def Meant (slot : String) (bound : List String) (p t : Expr) (witness : Option Expr) : Prop :=
  p = var slot ∧ (∀ z ∈ bound, z ∉ t.free) ∧ ∀ w ∈ witness, alphaEq w t = true

theorem acceptWitness_eq_some : acceptWitness slot bound p t s = some s' ↔
    Meant slot bound p t s ∧ s' = some (s.getD t) := by
  have hfree : bound.any t.occursFree = false ↔ ∀ z ∈ bound, z ∉ t.free := by
    simp [occursFree]
  cases p with
  | var x =>
    by_cases hx : x = slot
    · cases hb : bound.any t.occursFree with
      | true =>
        have hmeant : ¬∀ z ∈ bound, z ∉ t.free := fun h => by rw [hfree.mpr h] at hb; cases hb
        simp [acceptWitness, Meant, hx, hb, hmeant]
      | false =>
        cases s with
        | none => simpa [acceptWitness, Meant, hx, hb, @eq_comm _ s'] using fun _ => hfree.mp hb
        | some w => simpa [acceptWitness, Meant, hx, hb, @eq_comm _ s'] using fun _ _ => hfree.mp hb
    · simp [acceptWitness, Meant, hx]
  | _ => simp [acceptWitness, Meant]

theorem acceptWitness_eq_none : acceptWitness slot bound p t s = none ↔ ¬Meant slot bound p t s := by
  rw [Option.eq_none_iff_forall_ne_some]
  constructor
  · exact fun h hm => h _ (acceptWitness_eq_some.mpr ⟨hm, rfl⟩)
  · exact fun h s' hs' => h (acceptWitness_eq_some.mp hs').1

/-- Both sides have found nothing yet, or witnesses that are alike. -/
def FoundAlike (π : Equiv.Perm String) : Option Expr → Option Expr → Prop
  | none, none => True
  | some w, some w' => Alike π w w'
  | _, _ => False

section
variable {slot slot' : String} {bound bound' : List String} {σ π : Equiv.Perm String}

/-- A name and its counterpart: both bound in the patterns, or none of them. -/
def BoundAlike (σ : Equiv.Perm String) (bound bound' : List String) (z z' : String) : Prop :=
  z ∈ bound ∧ z' ∈ bound' ∨ z ∉ bound ∧ z' ∉ bound' ∧ z' = σ z

theorem BoundAlike.iff (h : BoundAlike σ bound bound' z z') : z ∈ bound ↔ z' ∈ bound' := by
  rcases h with ⟨hz, hz'⟩ | ⟨hz, hz', _⟩
  · exact ⟨fun _ => hz', fun _ => hz⟩
  · exact ⟨fun h => absurd h hz, fun h => absurd h hz'⟩

/-- What the slot may stand for does not contain bound names, so it is alike outside the binders. -/
theorem meant_outside (hb : Alike π b d) (hN : ∀ z ∈ b.free, BoundAlike σ bound bound' z (π z))
    (hbound : ∀ z ∈ bound, z ∉ b.free) : Alike σ b d := by
  refine hb.congr fun z hz => ?_
  rcases hN z hz with ⟨hzb, _⟩ | ⟨_, _, heq⟩
  · exact absurd hz (hbound z hzb)
  · exact heq

theorem meant_iff (hslot : π slot = slot') (hs : FoundAlike σ s s') (ha : Alike π a c)
    (hb : Alike π b d) (hN : ∀ z ∈ b.free, BoundAlike σ bound bound' z (π z)) :
    Meant slot bound a b s ↔ Meant slot' bound' c d s' := by
  have hvar : a = var slot ↔ c = var slot' := by
    constructor
    · rintro rfl
      rw [alike_var.mp ha, hslot]
    · rintro rfl
      rw [alike_var.mp ha.symm, ← hslot, Equiv.symm_apply_apply]
  have hbound : (∀ z ∈ bound, z ∉ b.free) ↔ ∀ z ∈ bound', z ∉ d.free := by
    constructor
    · intro h z hz hzd
      have hzb := hb.mem_free_symm.mpr hzd
      refine h _ ((hN _ hzb).iff.mpr ?_) hzb
      rwa [Equiv.apply_symm_apply]
    · intro h z hz hzb
      exact h _ ((hN z hzb).iff.mp hz) (hb.mem_free.mpr hzb)
  refine and_congr hvar (and_congr_right_iff.mpr ?_ |>.trans (and_congr_left fun _ => hbound))
  intro hfree
  have hout := meant_outside hb hN hfree
  cases s with
  | none =>
    cases s' with
    | none => simp
    | some w' => exact hs.elim
  | some w =>
    cases s' with
    | none => exact hs.elim
    | some w' => simpa using Alike.alphaEq_iff hs hout

/-- Witnesses are found on both sides, up to names. Binders of the patterns are not the slots, or
both are. -/
theorem mirrors_witness (σ : Equiv.Perm String) (slot slot' : String) (bound bound' : List String) :
    Mirrors (acceptWitness slot bound) (acceptWitness slot' bound')
      (fun π s s' => π slot = slot' ∧ FoundAlike σ s s')
      (fun x y => x ∈ bound ∧ y ∈ bound' ∧ (x = slot ↔ y = slot'))
      (fun z => z = slot ∨ z ∉ bound) (BoundAlike σ bound bound') where
  accepts := by
    intro π a b c d s s' t ⟨hslot, hs⟩ ha hb hN haccept
    obtain ⟨hmeant, rfl⟩ := acceptWitness_eq_some.mp haccept
    refine ⟨_, acceptWitness_eq_some.mpr ⟨(meant_iff hslot hs ha hb hN).mp hmeant, rfl⟩, hslot, ?_⟩
    cases s with
    | none =>
      cases s' with
      | none => exact meant_outside hb hN hmeant.2.1
      | some w' => exact hs.elim
    | some w =>
      cases s' with
      | none => exact hs.elim
      | some w' => exact hs
  refuses := by
    intro π a b c d s s' ⟨hslot, hs⟩ ha hb hN hrefuse
    rw [acceptWitness_eq_none] at hrefuse ⊢
    rwa [← meant_iff hslot hs ha hb hN]
  free := by
    intro a b s t z haccept hz
    obtain ⟨⟨rfl, hbound, _⟩, _⟩ := acceptWitness_eq_some.mp haccept
    obtain ⟨hne, hzb⟩ := not_or.mp hz
    have hnot := hbound z (Decidable.not_not.mp hzb)
    exact ⟨fun h => absurd (List.mem_singleton.mp h) hne, fun h => absurd h hnot⟩
  binder hE := .inl ⟨hE.1, hE.2.1⟩
  enters := by
    rintro π x y s s' ⟨_, _, hxy⟩ ⟨hslot, hs⟩
    refine ⟨?_, hs⟩
    by_cases hx : x = slot
    · rw [← hx, sending_self]
      exact hxy.mp hx
    · rw [sending_of_ne (Ne.symm hx), hslot]
      rw [hslot]
      exact fun h => hx (hxy.mpr h.symm)
  leaves _ hs ht := ⟨hs.1, ht.2⟩
  apart := by
    rintro π x y s s' z ⟨_, hy, hxy⟩ ⟨hslot, _⟩ (rfl | hz) hN rfl
    · exact (hxy.mpr hslot).symm
    · exact absurd (hN.iff.mpr hy) hz

end

theorem isReserved_of_binders_rename {p : Expr} (hz : z ∈ (p.rename x y).binders) :
    Name.isReserved z = true := by
  obtain ⟨⟨b, _, hgrown⟩, _⟩ := binders_rename p x y z hz
  exact Name.isReserved_of_grown hgrown

section
variable {π : Equiv.Perm String}

/-- Two bodies with other names in place of those of their binders. -/
theorem Alike.renamed (h : Alike π (bind q x p) (bind q x' p')) (hy : x ∈ p.free → π y = y') :
    Alike π (p.rename x y) (p'.rename x' y') := by
  have hopened : (p.nameless []).map (sending π x x') = p'.nameless [] := h.opened
  unfold Alike
  rw [nameless_rename, nameless_rename, ← hopened, Nameless.map_map, Nameless.map_map]
  refine Nameless.map_congr fun z hz => ?_
  have hz := (mem_free_nameless.mp hz).1
  by_cases hzx : z = x
  · subst hzx
    simp [sending_self, hy hz]
  · have hne : π z ≠ x' := by
      rintro rfl
      exact (mem_free_bind.mp (h.mem_free.mpr (mem_free_bind.mpr ⟨hz, hzx⟩))).2 rfl
    simp [sending_of_ne hzx hne, hzx, hne]

/-- Patterns that are alike have witnesses in targets that are alike, if names of targets and binders
of patterns are not confused. -/
theorem witness_alike (hp : Alike π p p') (ht : Alike π t t') (hslot : π slot = slot')
    (hfree : ∀ z ∈ t.free, z ∉ p.binders) (hfree' : ∀ z ∈ t'.free, z ∉ p'.binders)
    (hbinders : slot = slot' ∧ p = p' ∨ slot ∉ p.binders ∧ slot' ∉ p'.binders)
    (h : (agree (acceptWitness slot p.boundNames) p t none).isSome = true) :
    (agree (acceptWitness slot' p'.boundNames) p' t' none).isSome = true := by
  have hbound {p : Expr} {z : String} : z ∈ p.boundNames ↔ z ∈ p.binders := List.mem_eraseDups
  obtain ⟨s, hagree⟩ := Option.isSome_iff_exists.mp h
  have hN (z) (hz : z ∈ t.free) : BoundAlike π p.boundNames p'.boundNames z (π z) := by
    refine .inr ⟨?_, ?_, rfl⟩ <;> rw [hbound]
    · exact hfree z hz
    · exact hfree' _ (ht.mem_free.mpr hz)
  have hparallel : Parallel (fun x y => x ∈ p.boundNames ∧ y ∈ p'.boundNames ∧
      (x = slot ↔ y = slot')) [p] [p'] [t] := by
    simp only [Parallel, bindersAll, List.append_nil, hbound]
    rcases hbinders with ⟨rfl, rfl⟩ | ⟨hx, hx'⟩
    · exact .inr (.inl ⟨rfl, fun z hz => ⟨hz, hz, .rfl⟩⟩)
    · refine .inr (.inr fun z hz y hy => ⟨hz, hy, ?_⟩)
      constructor
      · rintro rfl
        exact absurd hz hx
      · rintro rfl
        exact absurd hy hx'
  have hstart : π slot = slot' ∧ FoundAlike π none none := ⟨hslot, trivial⟩
  obtain ⟨s', hagree', _⟩ := Mirrors.agree (mirrors_witness π slot slot' p.boundNames p'.boundNames)
    hagree hstart hp ht hN hparallel
  exact Option.isSome_iff_exists.mpr ⟨s', hagree'⟩

/-- Looking for a witness does not see names, if none of them is reserved: two patterns that are
alike have one in targets that are alike. -/
theorem matchesWitness_alike (hp : Alike π (bind q x p) (bind q x' p')) (ht : Alike π t t')
    (hpfree : ∀ z ∈ (bind q x p).free, Name.isReserved z = false)
    (htfree : ∀ z ∈ t.free, Name.isReserved z = false)
    (htfree' : ∀ z ∈ t'.free, Name.isReserved z = false)
    (hbinders : x = x' ∧ p = p' ∨ x ∉ p.binders ∧ x' ∉ p'.binders)
    (h : matchesWitness p t x = true) : matchesWitness p' t' x' = true := by
  have hslot := Name.fresh_not_mem (t.free ++ p.free) x
  have hslot' := Name.fresh_not_mem (t'.free ++ p'.free) x'
  have hsame : x = x' ∧ p = p' →
      Name.fresh (t.free ++ p.free) x = Name.fresh (t'.free ++ p'.free) x' := by
    rintro ⟨rfl, rfl⟩
    have hpattern (z) (hz : z ∈ p.free) : z = x ∨ Name.isReserved z = false :=
      (Decidable.em (z = x)).imp_right fun hzx => hpfree z (mem_free_bind.mpr ⟨hz, hzx⟩)
    rw [Name.fresh_eq, Name.fresh_eq]
    · exact List.forall_mem_append.mpr ⟨fun z hz => .inr (htfree' z hz), hpattern⟩
    · exact List.forall_mem_append.mpr ⟨fun z hz => .inr (htfree z hz), hpattern⟩
  simp only [List.mem_append, not_or] at hslot hslot'
  have hunbound {s : Expr} (hs : ∀ z ∈ s.free, Name.isReserved z = false) {d : Expr} {u v : String} :
      ∀ z ∈ s.free, z ∉ (d.rename u v).binders := by
    intro z hz hzb
    exact Bool.noConfusion ((isReserved_of_binders_rename hzb).symm.trans (hs z hz))
  have hpattern := (hp.send (fun hz => hslot.2 (mem_free_bind.mp hz).1)
    fun hz => hslot'.2 (mem_free_bind.mp hz).1).renamed fun _ => sending_self
  refine witness_alike hpattern (ht.send hslot.1 hslot'.1) sending_self (hunbound htfree)
    (hunbound htfree') ?_ h
  rcases hbinders with ⟨rfl, rfl⟩ | ⟨hx, hx'⟩
  · have hsame := hsame ⟨rfl, rfl⟩
    exact .inl ⟨hsame, by rw [hsame]⟩
  · exact .inr ⟨fun hz => (binders_rename _ _ _ _ hz).2 hx rfl,
      fun hz => (binders_rename _ _ _ _ hz).2 hx' rfl⟩

end

-- ---------------------------------------------------------------- occurrences

theorem mem_occurrencesAll : x ∈ occurrencesAll es ↔ ∃ e ∈ es, x ∈ e.occurrences := by
  induction es with
  | nil => simp [occurrencesAll]
  | cons e es ih => simp [occurrencesAll, ih]

/-- A name that occurs is free or has a binder. -/
theorem free_or_bound {e : Expr} (h : z ∈ e.occurrences) : z ∈ e.free ∨ z ∈ e.binders := by
  induction e using Expr.induction with
  | var x => exact .inl h
  | call f as ih =>
    rcases List.mem_cons.mp h with rfl | h
    · exact .inl List.mem_cons_self
    · obtain ⟨a, ha, hz⟩ := mem_occurrencesAll.mp h
      exact (ih a ha hz).imp (fun hz => List.mem_cons_of_mem _ (mem_freeAll.mpr ⟨a, ha, hz⟩))
        fun hz => mem_bindersAll.mpr ⟨a, ha, hz⟩
  | binary op l r ihl ihr =>
    simp only [free, binders, List.mem_append]
    rcases List.mem_append.mp h with h | h
    · exact (ihl h).imp .inl .inl
    · exact (ihr h).imp .inr .inr
  | not e ih => exact ih h
  | bind q x e ih =>
    by_cases hzx : z = x
    · exact .inr (hzx ▸ List.mem_cons_self)
    · exact (ih h).imp (fun hz => mem_free_bind.mpr ⟨hz, hzx⟩) (List.mem_cons_of_mem _)
  | group g as ih =>
    obtain ⟨a, ha, hz⟩ := mem_occurrencesAll.mp h
    exact (ih a ha hz).imp (fun hz => mem_freeAll.mpr ⟨a, ha, hz⟩)
      fun hz => mem_bindersAll.mpr ⟨a, ha, hz⟩

theorem occurs_of_free {e : Expr} (h : z ∈ e.free) : z ∈ e.occurrences := by
  induction e using Expr.induction with
  | var x => exact h
  | call f as ih =>
    rcases List.mem_cons.mp h with rfl | h
    · exact List.mem_cons_self
    · obtain ⟨a, ha, hz⟩ := mem_freeAll.mp h
      exact List.mem_cons_of_mem _ (mem_occurrencesAll.mpr ⟨a, ha, ih a ha hz⟩)
  | binary op l r ihl ihr => exact List.mem_append.mpr ((List.mem_append.mp h).imp ihl ihr)
  | not e ih => exact ih h
  | bind q x e ih => exact ih (mem_free_bind.mp h).1
  | group g as ih =>
    obtain ⟨a, ha, hz⟩ := mem_freeAll.mp h
    exact mem_occurrencesAll.mpr ⟨a, ha, ih a ha hz⟩

/-- As many names occur and as many are bound. -/
def SameSize (as bs : List Expr) : Prop :=
  (occurrencesAll as).length = (occurrencesAll bs).length ∧
    (bindersAll as).length = (bindersAll bs).length

theorem sameSize_all {f : String → String} (ih : ∀ a ∈ as, ∀ {xs ys b},
      (a.nameless xs).map f = b.nameless ys → SameSize [a] [b])
    (h : Nameless.mapAll f (namelessAll xs as) = namelessAll ys bs) : SameSize as bs := by
  induction as generalizing bs with
  | nil =>
    cases bs with
    | nil => exact ⟨rfl, rfl⟩
    | cons b bs => cases h
  | cons a as ihs =>
    cases bs with
    | nil => cases h
    | cons b bs =>
      simp only [namelessAll, Nameless.mapAll, List.cons.injEq] at h
      have hhead := ih a List.mem_cons_self h.1
      have htail := ihs (fun a ha => ih a (List.mem_cons_of_mem _ ha)) h.2
      simp only [SameSize, occurrencesAll, bindersAll, List.length_append, List.append_nil] at hhead htail ⊢
      omega

theorem sameSize_of_nameless {f : String → String} {a b : Expr}
    (h : (a.nameless xs).map f = b.nameless ys) : SameSize [a] [b] := by
  induction a using Expr.induction generalizing b xs ys with
  | var x =>
    cases b with
    | var y => exact ⟨rfl, rfl⟩
    | _ => cases h
  | call g as ih =>
    cases b with
    | call k bs =>
      simp only [nameless, Nameless.map, Nameless.call.injEq] at h
      simpa [SameSize, occurrencesAll, bindersAll, occurrences, binders] using sameSize_all ih h.2
    | _ => cases h
  | binary op l r ihl ihr =>
    cases b with
    | binary p m n =>
      simp only [nameless, Nameless.map, Nameless.binary.injEq] at h
      have hl := ihl h.2.1
      have hr := ihr h.2.2
      simp only [SameSize, occurrencesAll, bindersAll, occurrences, binders, List.append_nil,
        List.length_append] at hl hr ⊢
      omega
    | _ => cases h
  | not e ih =>
    cases b with
    | not d =>
      simp only [nameless, Nameless.map, Nameless.not.injEq] at h
      exact (ih h : SameSize [e] [d])
    | _ => cases h
  | bind q x e ih =>
    cases b with
    | bind p y d =>
      simpa [SameSize, occurrencesAll, bindersAll, occurrences, binders] using ih (Nameless.bind.inj h).2
    | _ => cases h
  | group g as ih =>
    cases b with
    | group k bs =>
      simp only [nameless, Nameless.map, Nameless.group.injEq] at h
      simpa [SameSize, occurrencesAll, bindersAll, occurrences, binders] using sameSize_all ih h.2
    | _ => cases h

theorem Alike.sameSize {π : Equiv.Perm String} (h : Alike π a b) : SameSize [a] [b] :=
  sameSize_of_nameless h

end Expr

end ProofScript
