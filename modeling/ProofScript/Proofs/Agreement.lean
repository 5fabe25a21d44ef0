import Mathlib.Data.List.Forall2
import ProofScript.Equality
import ProofScript.Proofs.Interpretation

/-!
# Agreement keeps the meaning

Two expressions that agree denote the same wherever the rule that accepts pairs accepts pairs that
denote the same. The rule is asked under binders too, so what it relies on has to stay true whatever
the names of these binders denote: a known equation that mentions such a name is no reason to
exchange its sides there.
-/

namespace ProofScript.Expr

-- ---------------------------------------------------------------- how agreement comes about

section
variable {accept : Expr → Expr → σ → Option σ}

theorem agree_accepted (h : accept a b s = some t) : agree accept a b s = some t := by
  rw [agree.eq_def, h]

theorem agree_refused : accept a b s = none → agree accept a b s =
    match a, b with
    | var x, var y => if x = y then some s else none
    | call f as, call g bs => if f = g then agreeAll accept as bs s else none
    | binary o l r, binary p m t =>
      if o = p then (agree accept l m s).bind fun s => agree accept r t s else none
    | not e, not d => agree accept e d s
    | bind q x e, bind r y d =>
      if q ≠ r then none
      else if x = y then agree accept e d s
      else if d.occursFree x then none
      else agree accept e (d.rename y x) s
    | group g as, group h bs => if g = h then agreeAll accept as bs s else none
    | _, _ => none := by
  intro h
  have hstep := agree.eq_def accept a b s
  rw [h] at hstep
  exact hstep

theorem agree_var (hr : accept (var x) b s = none) :
    agree accept (var x) b s = some t ↔ b = var x ∧ s = t := by
  rw [agree_refused hr]
  cases b <;> grind

theorem agree_call (hr : accept (call f as) b s = none) :
    agree accept (call f as) b s = some t ↔
      ∃ bs, b = call f bs ∧ agreeAll accept as bs s = some t := by
  rw [agree_refused hr]
  cases b <;> grind

theorem agree_binary (hr : accept (binary op l r) b s = none) :
    agree accept (binary op l r) b s = some t ↔
      ∃ m n u, b = binary op m n ∧ agree accept l m s = some u ∧ agree accept r n u = some t := by
  rw [agree_refused hr]
  cases b with
  | binary p m n =>
    by_cases hop : op = p
    · subst hop
      simp only [if_true, Option.bind_eq_some_iff, binary.injEq, true_and]
      exact ⟨fun ⟨u, h⟩ => ⟨m, n, u, ⟨rfl, rfl⟩, h⟩, fun ⟨_, _, u, ⟨rfl, rfl⟩, h⟩ => ⟨u, h⟩⟩
    · simp [hop, Ne.symm hop]
  | _ => simp

theorem agree_not (hr : accept (not e) b s = none) :
    agree accept (not e) b s = some t ↔ ∃ d, b = not d ∧ agree accept e d s = some t := by
  rw [agree_refused hr]
  cases b <;> simp

/-- The body of the second binder, with its name exchanged for the first one's. -/
def matched (x y : String) (d : Expr) : Expr := if x = y then d else d.rename y x

theorem mem_free_matched (h : z ∈ (matched x y d).free) : z = x ∨ z ∈ (bind q y d).free := by
  unfold matched at h
  split at h
  · rename_i hxy
    subst hxy
    by_cases hz : z = x
    · exact .inl hz
    · exact .inr (mem_free_bind.mpr ⟨h, hz⟩)
  · rcases mem_free_rename.mp h with ⟨hz, hzy⟩ | ⟨_, hz⟩
    · exact .inr (mem_free_bind.mpr ⟨hz, hzy⟩)
    · exact .inl hz

theorem agree_bind (hr : accept (bind q x e) b s = none) :
    agree accept (bind q x e) b s = some t ↔
      ∃ y d, b = bind q y d ∧ (x = y ∨ x ∉ d.free) ∧ agree accept e (matched x y d) s = some t := by
  rw [agree_refused hr]
  cases b with
  | bind p y d =>
    simp only [matched, ← occursFree_iff]
    grind
  | _ => simp

theorem agree_group (hr : accept (group g as) b s = none) :
    agree accept (group g as) b s = some t ↔
      ∃ bs, b = group g bs ∧ agreeAll accept as bs s = some t := by
  rw [agree_refused hr]
  cases b <;> grind

theorem agreeAll_nil : agreeAll accept [] bs s = some t ↔ bs = [] ∧ s = t := by
  cases bs <;> simp [agreeAll]

theorem agreeAll_cons : agreeAll accept (a :: as) bs s = some t ↔
    ∃ b rest u, bs = b :: rest ∧ agree accept a b s = some u ∧ agreeAll accept as rest u = some t := by
  cases bs with
  | nil => simp [agreeAll]
  | cons b rest =>
    simp only [agreeAll, Option.bind_eq_some_iff]
    constructor
    · rintro ⟨u, ha, has⟩
      exact ⟨b, rest, u, rfl, ha, has⟩
    · rintro ⟨_, _, u, hbs, ha, has⟩
      cases hbs
      exact ⟨u, ha, has⟩

section
variable {P : Expr → Expr → σ → σ → Prop} {Q : List Expr → List Expr → σ → σ → Prop}

theorem agreeAll_induction (nil : ∀ s, Q [] [] s s)
    (cons : ∀ a b as bs s u t, P a b s u → Q as bs u t → Q (a :: as) (b :: bs) s t)
    (ih : ∀ a ∈ as, ∀ b s t, agree accept a b s = some t → P a b s t)
    (h : agreeAll accept as bs s = some t) : Q as bs s t := by
  induction as generalizing bs s with
  | nil =>
    obtain ⟨rfl, rfl⟩ := agreeAll_nil.mp h
    exact nil s
  | cons a as ihs =>
    obtain ⟨b, rest, u, rfl, ha, has⟩ := agreeAll_cons.mp h
    exact cons a b as rest s u t (ih a (by simp) b s u ha) (ihs (fun d hd => ih d (by simp [hd])) has)

/-- Induction along an agreement: a pair is accepted at once, or it is refused, but its roots are
alike and its parts agree from left to right. -/
theorem agree_induction
    (accepted : ∀ a b s t, accept a b s = some t → P a b s t)
    (var : ∀ x s, accept (var x) (var x) s = none → P (var x) (var x) s s)
    (call : ∀ f as bs s t, accept (call f as) (call f bs) s = none → Q as bs s t →
      P (call f as) (call f bs) s t)
    (binary : ∀ op l r m n s u t, accept (binary op l r) (binary op m n) s = none → P l m s u →
      P r n u t → P (binary op l r) (binary op m n) s t)
    (not : ∀ e d s t, accept (not e) (not d) s = none → P e d s t → P (not e) (not d) s t)
    (bind : ∀ q x e y d s t, accept (bind q x e) (bind q y d) s = none → x = y ∨ x ∉ d.free →
      agree accept e (matched x y d) s = some t → P e (matched x y d) s t →
      P (bind q x e) (bind q y d) s t)
    (group : ∀ g as bs s t, accept (group g as) (group g bs) s = none → Q as bs s t →
      P (group g as) (group g bs) s t)
    (nil : ∀ s, Q [] [] s s)
    (cons : ∀ a b as bs s u t, P a b s u → Q as bs u t → Q (a :: as) (b :: bs) s t)
    (a b : Expr) (s t : σ) (h : agree accept a b s = some t) : P a b s t := by
  induction a using Expr.induction generalizing b s t with
  | var x =>
    cases hr : accept (.var x) b s with
    | some u => exact accepted _ _ _ _ ((agree_accepted hr).symm.trans h ▸ hr)
    | none =>
      obtain ⟨rfl, rfl⟩ := (agree_var hr).mp h
      exact var x s hr
  | call f as ih =>
    cases hr : accept (.call f as) b s with
    | some u => exact accepted _ _ _ _ ((agree_accepted hr).symm.trans h ▸ hr)
    | none =>
      obtain ⟨bs, rfl, has⟩ := (agree_call hr).mp h
      exact call f as bs s t hr (agreeAll_induction nil cons ih has)
  | binary op l r ihl ihr =>
    cases hr : accept (.binary op l r) b s with
    | some u => exact accepted _ _ _ _ ((agree_accepted hr).symm.trans h ▸ hr)
    | none =>
      obtain ⟨m, n, u, rfl, hl, hm⟩ := (agree_binary hr).mp h
      exact binary op l r m n s u t hr (ihl m s u hl) (ihr n u t hm)
  | not e ih =>
    cases hr : accept (.not e) b s with
    | some u => exact accepted _ _ _ _ ((agree_accepted hr).symm.trans h ▸ hr)
    | none =>
      obtain ⟨d, rfl, he⟩ := (agree_not hr).mp h
      exact not e d s t hr (ih d s t he)
  | bind q x e ih =>
    cases hr : accept (.bind q x e) b s with
    | some u => exact accepted _ _ _ _ ((agree_accepted hr).symm.trans h ▸ hr)
    | none =>
      obtain ⟨y, d, rfl, hx, he⟩ := (agree_bind hr).mp h
      exact bind q x e y d s t hr hx he (ih _ s t he)
  | group g as ih =>
    cases hr : accept (.group g as) b s with
    | some u => exact accepted _ _ _ _ ((agree_accepted hr).symm.trans h ▸ hr)
    | none =>
      obtain ⟨bs, rfl, has⟩ := (agree_group hr).mp h
      exact group g as bs s t hr (agreeAll_induction nil cons ih has)

end

/-- What every accepting step keeps is kept. The steps see only expressions whose free names are
those of the second side or names of the first side's binders. -/
theorem agree_keeps {J : σ → Prop} {F : String → Prop}
    (haccept : ∀ a b s t, accept a b s = some t → (∀ z ∈ b.free, F z) → J s → J t)
    (h : agree accept a b s = some t) (ha : ∀ x ∈ a.binders, F x) (hb : ∀ z ∈ b.free, F z)
    (hs : J s) : J t := by
  revert ha hb hs
  refine agree_induction
    (P := fun a b s t => (∀ x ∈ a.binders, F x) → (∀ z ∈ b.free, F z) → J s → J t)
    (Q := fun as bs s t => (∀ x ∈ bindersAll as, F x) → (∀ z ∈ freeAll bs, F z) → J s → J t)
    ?_ ?_ ?_ ?_ ?_ ?_ ?_ ?_ ?_ a b s t h
  · exact fun a b s t h _ => haccept a b s t h
  · exact fun _ _ _ _ _ hs => hs
  · exact fun f as bs s t _ ih ha hb => ih ha fun z hz => hb z (List.mem_cons_of_mem _ hz)
  · intro op l r m n s u t _ ihl ihr ha hb hs
    simp only [binders, free, List.mem_append] at ha hb
    exact ihr (fun x hx => ha x (.inr hx)) (fun z hz => hb z (.inr hz))
      (ihl (fun x hx => ha x (.inl hx)) (fun z hz => hb z (.inl hz)) hs)
  · exact fun e d s t _ ih => ih
  · intro q x e y d s t _ _ _ ih ha hb
    simp only [binders, List.mem_cons] at ha
    refine ih (fun z hz => ha z (.inr hz)) fun z hz => ?_
    rcases mem_free_matched hz with rfl | hz
    · exact ha z (.inl rfl)
    · exact hb z hz
  · exact fun g as bs s t _ ih => ih
  · exact fun _ _ _ hs => hs
  · intro a b as bs s u t iha ihas ha hb hs
    simp only [bindersAll, freeAll, List.mem_append] at ha hb
    exact ihas (fun x hx => ha x (.inr hx)) (fun z hz => hb z (.inr hz))
      (iha (fun x hx => ha x (.inl hx)) (fun z hz => hb z (.inl hz)) hs)

end

-- ---------------------------------------------------------------- what agreement means

/-- Where binders of the two sides can meet, those of the first are as `N` says. -/
def BindersMeet (N : String → Prop) (as bs : List Expr) : Prop :=
  bindersAll bs = [] ∨ ∀ x ∈ bindersAll as, N x

theorem BindersMeet.head (h : BindersMeet N (a :: as) (b :: bs)) : BindersMeet N [a] [b] := by
  rcases h with h | h
  · exact .inl (by simpa [bindersAll] using (List.append_eq_nil_iff.mp h).1)
  · exact .inr fun x hx => h x (List.mem_append_left _ (by simpa [bindersAll] using hx))

theorem BindersMeet.tail (h : BindersMeet N (a :: as) (b :: bs)) : BindersMeet N as bs := by
  rcases h with h | h
  · exact .inl (List.append_eq_nil_iff.mp h).2
  · exact .inr fun x hx => h x (List.mem_append_right _ hx)

section
variable {D : Type u} {I : Interpretation D} {accept : Expr → Expr → σ → Option σ}
  {G : Env D → σ → Prop}

theorem denote_matched (h : x = y ∨ x ∉ d.free) (ρ : Env D) (v : D) :
    I.denote (matched x y d) (I.bind ρ x v) = I.denote d (I.bind ρ y v) := by
  by_cases hxy : x = y
  · simp [matched, hxy]
  · have hx : x ∉ d.free := h.resolve_left hxy
    rw [matched, if_neg hxy, Interpretation.denote_rename]
    refine Interpretation.denote_congr fun z hz => ?_
    have hzx : z ≠ x := fun e => hx (e ▸ hz)
    by_cases hzy : z = y <;> simp [Env.SameAt, Interpretation.bind, hzx, hzy]

/-- What `G` says of the state in which agreement is found it says of all states before, and then
the sides denote the same. -/
theorem agree_denote {N : String → Prop}
    (haccept : ∀ a b s t, accept a b s = some t → ∀ ρ, G ρ t → G ρ s ∧ I.denote a ρ = I.denote b ρ)
    (hbind : ∀ x, N x → ∀ ρ v s, G ρ s → G (I.bind ρ x v) s)
    (h : agree accept a b s = some t) (hm : BindersMeet N [a] [b]) (ρ : Env D) (hg : G ρ t) :
    G ρ s ∧ I.denote a ρ = I.denote b ρ := by
  revert ρ hm
  refine agree_induction
    (P := fun a b s t => BindersMeet N [a] [b] → ∀ ρ, G ρ t → G ρ s ∧ I.denote a ρ = I.denote b ρ)
    (Q := fun as bs s t => BindersMeet N as bs → ∀ ρ, G ρ t →
      G ρ s ∧ I.denoteAll as ρ = I.denoteAll bs ρ) ?_ ?_ ?_ ?_ ?_ ?_ ?_ ?_ ?_ a b s t h
  · exact fun a b s t h _ => haccept a b s t h
  · exact fun x s _ _ ρ hg => ⟨hg, rfl⟩
  · intro f as bs s t _ ih hm ρ hg
    obtain ⟨hs, has⟩ := ih (by simpa [BindersMeet, bindersAll, binders] using hm) ρ hg
    exact ⟨hs, by simp only [Interpretation.denote, has]⟩
  · intro op l r m n s u t _ ihl ihr hm ρ hg
    have hm : BindersMeet N [l, r] [m, n] := by
      simpa [BindersMeet, bindersAll, binders] using hm
    obtain ⟨hu, hr⟩ := ihr hm.tail ρ hg
    obtain ⟨hs, hl⟩ := ihl hm.head ρ hu
    exact ⟨hs, by simp only [Interpretation.denote, hl, hr]⟩
  · intro e d s t _ ih hm ρ hg
    obtain ⟨hs, he⟩ := ih (by simpa [BindersMeet, bindersAll, binders] using hm) ρ hg
    exact ⟨hs, by simp only [Interpretation.denote, he]⟩
  · intro q x e y d s t _ hx _ ih hm ρ hg
    have hN : N x ∧ ∀ z ∈ e.binders, N z := by
      simpa [BindersMeet, bindersAll, binders] using hm
    have ih := ih (.inr (by simpa [bindersAll] using hN.2))
    refine ⟨(ih ρ hg).1, ?_⟩
    simp only [Interpretation.denote]
    congr 1
    funext v
    rw [(ih _ (hbind x hN.1 ρ v t hg)).2, denote_matched hx]
  · intro g as bs s t _ ih hm ρ hg
    obtain ⟨hs, has⟩ := ih (by simpa [BindersMeet, bindersAll, binders] using hm) ρ hg
    exact ⟨hs, by simp only [Interpretation.denote, has]⟩
  · exact fun s _ ρ hg => ⟨hg, rfl⟩
  · intro a b as bs s u t iha ihas hm ρ hg
    obtain ⟨hu, has⟩ := ihas hm.tail ρ hg
    obtain ⟨hs, ha⟩ := iha hm.head ρ hu
    exact ⟨hs, by simp only [Interpretation.denoteAll, ha, has]⟩

/-- Expressions that are the same up to bound names denote the same. -/
theorem alphaEq_denote (h : alphaEq a b = true) (ρ : Env D) : I.denote a ρ = I.denote b ρ := by
  obtain ⟨t, h⟩ := Option.isSome_iff_exists.mp h
  exact (agree_denote (N := fun _ => True) (G := fun _ _ => True) (fun _ _ _ _ h => by cases h)
    (fun _ _ _ _ _ _ => trivial) h (.inr fun _ _ => trivial) ρ trivial).2

end

-- ---------------------------------------------------------------- known equations

/-- Equations and equivalences are the facts whose sides are exchanged. -/
def isLink : Expr → Bool
  | binary .equals _ _ | binary .iff _ _ => true
  | _ => false

/-- The names that known equations and equivalences mention. -/
def linkNames (facts : List Expr) : List String := freeAll (facts.filter isLink)

theorem mem_linkNames :
    x ∈ linkNames facts ↔ ∃ f ∈ facts, f.isLink = true ∧ x ∈ f.free := by
  simp only [linkNames, mem_freeAll, List.mem_filter]
  grind

theorem interchangeable_cases (h : interchangeable facts a b = true) :
    ∃ op l r, binary op l r ∈ facts ∧ (op = .equals ∨ op = .iff) ∧
      (alphaEq l a = true ∧ alphaEq r b = true ∨ alphaEq l b = true ∧ alphaEq r a = true) := by
  simp only [interchangeable, List.any_eq_true] at h
  obtain ⟨f, hf, h⟩ := h
  split at h
  · rename_i l r
    exact ⟨.equals, l, r, hf, .inl rfl, by simpa using h⟩
  · rename_i l r
    exact ⟨.iff, l, r, hf, .inr rfl, by simpa using h⟩
  · cases h

-- ---------------------------------------------------------------- how chains come about

theorem mem_equations : p ∈ equations facts ↔ binary .equals p.1 p.2 ∈ facts := by
  simp only [equations, List.mem_filterMap]
  constructor
  · rintro ⟨f, hf, h⟩
    split at h
    · cases h
      exact hf
    · cases h
  · exact fun h => ⟨_, h, rfl⟩

section
variable {link : Expr → Expr → Bool}

/-- Expressions whose roots are alike are compared part by part, all others up to bound names. -/
theorem congruent_iff : congruent link a b = true ↔
    (match a, b with
      | var x, var y => x = y
      | binary o l r, binary p m s => o = p && congruent link l m && congruent link r s
      | not e, not d => congruent link e d
      | call f as, call g bs => f = g && congruentAll link as bs
      | group g as, group h bs => g = h && congruentAll link as bs
      | a, b => alphaEq a b) = true ∨ link a b = true := by
  rw [congruent.eq_def]
  exact Bool.or_eq_true_iff

theorem congruent_var : congruent link (var x) b = true ↔ b = var x ∨ link (var x) b = true := by
  refine congruent_iff.trans (or_congr_left ?_)
  cases b with
  | var y => simp [eq_comm]
  | _ => exact ⟨nofun, nofun⟩

theorem congruent_call : congruent link (call f as) b = true ↔
    (∃ bs, b = call f bs ∧ congruentAll link as bs = true) ∨ link (call f as) b = true := by
  refine congruent_iff.trans (or_congr_left ?_)
  cases b with
  | call g bs => simp [@eq_comm _ g, and_assoc]
  | _ => exact ⟨nofun, nofun⟩

theorem congruent_binary : congruent link (binary op l r) b = true ↔
    (∃ m n, b = binary op m n ∧ congruent link l m = true ∧ congruent link r n = true) ∨
      link (binary op l r) b = true := by
  refine congruent_iff.trans (or_congr_left ?_)
  cases b with
  | binary p m n => simp [@eq_comm _ p, and_assoc]
  | _ => exact ⟨nofun, nofun⟩

theorem congruent_not : congruent link (not e) b = true ↔
    (∃ d, b = not d ∧ congruent link e d = true) ∨ link (not e) b = true := by
  refine congruent_iff.trans (or_congr_left ?_)
  cases b with
  | not d => simp
  | _ => exact ⟨nofun, nofun⟩

theorem congruent_bind : congruent link (bind q x e) b = true ↔
    alphaEq (bind q x e) b = true ∨ link (bind q x e) b = true :=
  congruent_iff

theorem congruent_group : congruent link (group g as) b = true ↔
    (∃ bs, b = group g bs ∧ congruentAll link as bs = true) ∨ link (group g as) b = true := by
  refine congruent_iff.trans (or_congr_left ?_)
  cases b with
  | group k bs => simp [@eq_comm _ k, and_assoc]
  | _ => exact ⟨nofun, nofun⟩

theorem congruentAll_nil : congruentAll link [] bs = true ↔ bs = [] := by
  cases bs <;> simp [congruentAll]

theorem congruentAll_cons : congruentAll link (a :: as) bs = true ↔
    ∃ b rest, bs = b :: rest ∧ congruent link a b = true ∧ congruentAll link as rest = true := by
  cases bs <;> simp [congruentAll, and_assoc]

theorem congruent_of_link (h : link a b = true) : congruent link a b = true := by
  rw [congruent.eq_def, h, Bool.or_true]

/-- The relation passes from parts to the whole, unless the whole is a binder. -/
structure Compatible (R : Expr → Expr → Prop) : Prop where
  call : List.Forall₂ R as bs → R (call f as) (call f bs)
  binary : R l m → R r n → R (binary op l r) (binary op m n)
  not : R e d → R (not e) (not d)
  group : List.Forall₂ R as bs → R (group g as) (group g bs)

theorem congruentAll_of_forall₂ (h : List.Forall₂ (congruent link · · = true) as bs) :
    congruentAll link as bs = true := by
  induction h with
  | nil => rfl
  | cons hab _ ih => exact congruentAll_cons.mpr ⟨_, _, rfl, hab, ih⟩

theorem congruent_compatible : Compatible (congruent link · · = true) where
  call h := congruent_call.mpr (.inl ⟨_, rfl, congruentAll_of_forall₂ h⟩)
  binary hl hr := congruent_binary.mpr (.inl ⟨_, _, rfl, hl, hr⟩)
  not h := congruent_not.mpr (.inl ⟨_, rfl, h⟩)
  group h := congruent_group.mpr (.inl ⟨_, rfl, congruentAll_of_forall₂ h⟩)

theorem forall₂_of_congruentAll {R : Expr → Expr → Prop}
    (ih : ∀ a ∈ as, ∀ b, congruent link a b = true → R a b) (h : congruentAll link as bs = true) :
    List.Forall₂ R as bs := by
  induction as generalizing bs with
  | nil =>
    rw [congruentAll_nil.mp h]
    exact .nil
  | cons a as ihs =>
    obtain ⟨b, bs, rfl, hab, hrest⟩ := congruentAll_cons.mp h
    exact .cons (ih a List.mem_cons_self b hab)
      (ihs (fun d hd => ih d (List.mem_cons_of_mem _ hd)) hrest)

/-- A compatible relation that holds of links and of binders that are the same up to bound names holds
of all that is congruent. -/
theorem congruent_least {R : Expr → Expr → Prop} (hR : Compatible R) (hvar : ∀ x, R (var x) (var x))
    (hbind : ∀ {q x e b}, alphaEq (bind q x e) b = true → R (bind q x e) b)
    (hlink : ∀ {a b}, link a b = true → R a b) (h : congruent link a b = true) : R a b := by
  induction a using Expr.induction generalizing b with
  | var x =>
    rcases congruent_var.mp h with rfl | h
    · exact hvar x
    · exact hlink h
  | call f as ih =>
    rcases congruent_call.mp h with ⟨bs, rfl, hbs⟩ | h
    · exact hR.call (forall₂_of_congruentAll (fun a ha b => ih a ha) hbs)
    · exact hlink h
  | binary op l r ihl ihr =>
    rcases congruent_binary.mp h with ⟨m, n, rfl, hm, hn⟩ | h
    · exact hR.binary (ihl hm) (ihr hn)
    · exact hlink h
  | not e ih =>
    rcases congruent_not.mp h with ⟨d, rfl, hd⟩ | h
    · exact hR.not (ih hd)
    · exact hlink h
  | bind q x e ih =>
    rcases congruent_bind.mp h with h | h
    · exact hbind h
    · exact hlink h
  | group g as ih =>
    rcases congruent_group.mp h with ⟨bs, rfl, hbs⟩ | h
    · exact hR.group (forall₂_of_congruentAll (fun a ha b => ih a ha) hbs)
    · exact hlink h

end

section
variable {links : List (Expr × Expr)}

/-- Is there an equation whose sides, in either order, are chained to the two with fewer levels? -/
def linked (links : List (Expr × Expr)) : Nat → Expr → Expr → Bool
  | 0, _, _ => false
  | n + 1, a, b => links.any fun (l, r) =>
      (chained links n l a && chained links n r b) || (chained links n l b && chained links n r a)

theorem chained_eq (links : List (Expr × Expr)) (n : Nat) :
    chained links n = congruent (linked links n) := by
  cases n <;> rfl

theorem linked_succ : linked links (n + 1) a b = true ↔ ∃ l r, (l, r) ∈ links ∧
    (chained links n l a = true ∧ chained links n r b = true ∨
      chained links n l b = true ∧ chained links n r a = true) := by
  simp only [linked, List.any_eq_true, Bool.or_eq_true, Bool.and_eq_true, Prod.exists]

/-- A compatible relation that known equations extend to what their sides are related to holds of all
that is chained. -/
theorem chained_least {R : Expr → Expr → Prop} (hR : Compatible R) (hvar : ∀ x, R (var x) (var x))
    (hbind : ∀ {q x e b}, alphaEq (bind q x e) b = true → R (bind q x e) b)
    (hlink : ∀ {l r a b}, (l, r) ∈ links → R l a ∧ R r b ∨ R l b ∧ R r a → R a b)
    (h : chained links n a b = true) : R a b := by
  induction n generalizing a b with
  | zero =>
    rw [chained_eq] at h
    refine congruent_least hR hvar hbind ?_ h
    exact fun h => nomatch h
  | succ n ih =>
    rw [chained_eq] at h
    refine congruent_least hR hvar hbind (fun {a b} h => ?_) h
    obtain ⟨l, r, hlr, hsides⟩ := linked_succ.mp h
    exact hlink hlr (hsides.imp (And.imp ih ih) (And.imp ih ih))

end

end ProofScript.Expr

namespace ProofScript.Interpretation

open Expr

variable {D : Type u} {I : Interpretation D}

variable (I) in
/-- The sides of every known equation and equivalence denote the same. -/
def Linked (ρ : Env D) (facts : List Expr) : Prop :=
  ∀ op l r, binary op l r ∈ facts → op = .equals ∨ op = .iff → I.denote l ρ = I.denote r ρ

theorem Linked.bind (h : I.Linked ρ facts) (hx : x ∉ linkNames facts) (v : D) :
    I.Linked (I.bind ρ x v) facts := by
  intro op l r hf hop
  have hlink : (binary op l r).isLink = true := by rcases hop with rfl | rfl <;> rfl
  have hfree : x ∉ (binary op l r).free := fun hm => hx (mem_linkNames.mpr ⟨_, hf, hlink, hm⟩)
  simp only [free, List.mem_append, not_or] at hfree
  rw [denote_bind_of_not_free hfree.1, denote_bind_of_not_free hfree.2]
  exact h op l r hf hop

theorem interchangeable_denote (h : interchangeable facts a b = true) (hl : I.Linked ρ facts) :
    I.denote a ρ = I.denote b ρ := by
  obtain ⟨op, l, r, hf, hop, ⟨ha, hb⟩ | ⟨hb, ha⟩⟩ := interchangeable_cases h
  · rw [← alphaEq_denote ha, ← alphaEq_denote hb]
    exact hl op l r hf hop
  · rw [← alphaEq_denote ha, ← alphaEq_denote hb]
    exact (hl op l r hf hop).symm

/-- Exchanging known equals keeps the meaning, unless a binder on the way down has a name that a
known equation mentions. -/
theorem equalGiven_denote (h : equalGiven facts a b = true)
    (hm : BindersMeet (· ∉ linkNames facts) [a] [b]) (hl : I.Linked ρ facts) :
    I.denote a ρ = I.denote b ρ := by
  obtain ⟨t, h⟩ := Option.isSome_iff_exists.mp h
  refine (agree_denote (N := (· ∉ linkNames facts)) (G := fun ρ _ => I.Linked ρ facts) ?_ ?_ h hm ρ
    hl).2
  · intro a b s t h ρ hl
    split at h
    · rename_i hi
      exact ⟨hl, interchangeable_denote hi hl⟩
    · cases h
  · exact fun x hx ρ v _ hl => hl.bind hx v

-- ---------------------------------------------------------------- chains

theorem denoteAll_forall₂ (h : List.Forall₂ (fun a b => I.denote a ρ = I.denote b ρ) as bs) :
    I.denoteAll as ρ = I.denoteAll bs ρ := by
  induction h with
  | nil => rfl
  | cons hab _ ih => simp only [denoteAll, hab, ih]

theorem denote_compatible (I : Interpretation D) (ρ : Env D) :
    Compatible fun a b => I.denote a ρ = I.denote b ρ where
  call h := by simp only [denote, denoteAll_forall₂ h]
  binary hl hr := by simp only [denote, hl, hr]
  not h := by simp only [denote, h]
  group h := by simp only [denote, denoteAll_forall₂ h]

theorem chained_denote (hlinks : ∀ l r, (l, r) ∈ links → I.denote l ρ = I.denote r ρ)
    (h : chained links n a b = true) : I.denote a ρ = I.denote b ρ := by
  refine chained_least (denote_compatible I ρ) (fun _ => rfl) (fun h => alphaEq_denote h ρ) ?_ h
  rintro l r a b hlr (⟨hl, hr⟩ | ⟨hl, hr⟩)
  · rw [← hl, ← hr]
    exact hlinks l r hlr
  · rw [← hl, ← hr]
    exact (hlinks l r hlr).symm

theorem equalByFacts_denote (h : equalByFacts facts depth a b = true)
    (hm : BindersMeet (· ∉ linkNames facts) [a] [b]) (hl : I.Linked ρ facts) :
    I.denote a ρ = I.denote b ρ := by
  rcases Bool.or_eq_true_iff.mp h with h | h
  · exact equalGiven_denote h hm hl
  · exact chained_denote (fun l r hlr => hl _ _ _ (mem_equations.mp hlr) (.inl rfl)) h

-- ---------------------------------------------------------------- witnesses

/-- The state of a match: once there is a witness, the slot denotes what the witness denotes, and
the witness mentions none of the bound names. -/
def Witnessed (I : Interpretation D) (slot : String) (bound : List String) (ρ : Env D) :
    Option Expr → Prop
  | none => True
  | some w => ρ.object slot = I.denote w ρ ∧ ∀ x ∈ bound, x ∉ w.free

theorem acceptWitness_denote (h : acceptWitness slot bound p t s = some s')
    (hw : I.Witnessed slot bound ρ s') :
    I.Witnessed slot bound ρ s ∧ I.denote p ρ = I.denote t ρ := by
  unfold acceptWitness at h
  split at h
  · rename_i x
    split at h
    · cases h
    · rename_i hx
      obtain rfl : x = slot := by simpa using hx
      split at h
      · cases h
      · split at h
        · rename_i w
          split at h
          · rename_i halpha
            cases h
            refine ⟨hw, ?_⟩
            rw [← alphaEq_denote halpha]
            exact hw.1
          · cases h
        · cases h
          exact ⟨trivial, hw.1⟩
  · cases h

/-- A witness mentions neither the bound names nor the slot. -/
def Closed (slot : String) (bound : List String) (s : Option Expr) : Prop :=
  ∀ w, s = some w → slot ∉ w.free ∧ ∀ x ∈ bound, x ∉ w.free

theorem acceptWitness_closed (h : acceptWitness slot bound p t s = some s')
    (ht : ∀ z ∈ t.free, z ≠ slot) (hs : Closed slot bound s) : Closed slot bound s' := by
  unfold acceptWitness at h
  split at h
  · split at h
    · cases h
    · split at h
      · cases h
      · rename_i hbound
        split at h
        · split at h
          · cases h
            exact hs
          · cases h
        · cases h
          intro w hw
          obtain rfl := Option.some.inj hw
          simp only [List.any_eq_true, not_exists, not_and, occursFree_iff] at hbound
          exact ⟨fun hz => ht _ hz rfl, hbound⟩
  · cases h

/-- A target that matches is an instance of the pattern: it means what the pattern means where the
name denotes some object. The name must not be bound again inside the pattern. -/
theorem matchesWitness_denote (h : matchesWitness pattern target x = true)
    (hx : x ∉ pattern.binders) (ρ : Env D) :
    ∃ v, I.denote target ρ = I.denote pattern (I.bind ρ x v) := by
  unfold matchesWitness at h
  generalize hslot : Name.fresh (target.free ++ pattern.free) x = slot at h
  have hfresh : slot ∉ target.free ++ pattern.free := hslot ▸ Name.fresh_not_mem _ x
  simp only [List.mem_append, not_or] at hfresh
  obtain ⟨s, h⟩ := Option.isSome_iff_exists.mp h
  have hbinders : ∀ z ∈ (pattern.rename x slot).binders, z ≠ slot := fun z hz =>
    (binders_rename pattern x slot z hz).2 hx
  have hclosed : Closed slot (pattern.rename x slot).boundNames s :=
    agree_keeps (F := (· ≠ slot)) (fun _ _ _ _ => acceptWitness_closed) h hbinders
      (fun z hz hzs => hfresh.1 (hzs ▸ hz)) (fun w hw => nomatch hw)
  have hpattern (v : D) :
      I.denote (pattern.rename x slot) (I.bind ρ slot v) = I.denote pattern (I.bind ρ x v) := by
    rw [denote_rename]
    refine denote_congr fun z hz => ?_
    have hzs : z ≠ slot := fun e => hfresh.2 (e ▸ hz)
    by_cases hzx : z = x <;> simp [Env.SameAt, bind, hzs, hzx]
  have hmatch (v : D) (hw : I.Witnessed slot (pattern.rename x slot).boundNames (I.bind ρ slot v) s) :
      I.denote target ρ = I.denote pattern (I.bind ρ x v) := by
    have hagree := (agree_denote (N := (· ∈ (pattern.rename x slot).binders))
      (G := I.Witnessed slot (pattern.rename x slot).boundNames)
      (fun _ _ _ _ h ρ hw => acceptWitness_denote h hw) ?_ h (.inr (by simp [bindersAll])) _ hw).2
    · rw [← hpattern, hagree, denote_bind_of_not_free hfresh.1]
    · intro z hz ρ v s hw
      cases s with
      | none => trivial
      | some w =>
        have hzw : z ∉ w.free := hw.2 z (List.mem_eraseDups.mpr hz)
        refine ⟨?_, hw.2⟩
        rw [denote_bind_of_not_free hzw, ← hw.1]
        simp [bind, Ne.symm (hbinders z hz)]
  cases s with
  | none => exact ⟨I.yes, hmatch _ trivial⟩
  | some w =>
    refine ⟨I.denote w ρ, hmatch _ ⟨?_, (hclosed w rfl).2⟩⟩
    rw [denote_bind_of_not_free (hclosed w rfl).1]
    simp [bind]

end ProofScript.Interpretation
