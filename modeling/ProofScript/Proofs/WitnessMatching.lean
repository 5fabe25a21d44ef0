import ProofScript.Proofs.Hygiene
import ProofScript.Proofs.RenamedFacts
import ProofScript.Proofs.ReplacedName

/-!
# Witnesses are instances

A target matches a pattern when it is the pattern with one expression in place of a free name, and
whatever is such an instance matches. Both are said of nameless forms, in which an instance is the
replacement of one name.

The name is exchanged for a slot that neither side uses, and binders get new names along with it. The
binder of the name itself lets go of the slot, so that a binder further inside may get the slot's name;
what it binds is then taken for the slot. Matches are instances where that cannot happen.
-/

namespace ProofScript

namespace Expr

-- ---------------------------------------------------------------- what is found is an instance

/-- What was found so far has the form `W`. -/
def Witnesses (W : Nameless) (s : Option Expr) : Prop := ∀ w ∈ s, w.nameless [] = W

theorem acceptWitness_found (h : acceptWitness slot bound p t s = some s') (hW : Witnesses W s') :
    p = var slot ∧ (∀ z ∈ bound, z ∉ t.free) ∧ Witnesses W s ∧ t.nameless [] = W := by
  obtain ⟨⟨rfl, hbound, hsame⟩, rfl⟩ := acceptWitness_eq_some.mp h
  have hfound : (s.getD t).nameless [] = W := hW _ rfl
  cases s with
  | none => exact ⟨rfl, hbound, nofun, hfound⟩
  | some w =>
    refine ⟨rfl, hbound, ?_, (alphaEq_iff.mp (hsame w rfl)).symm.trans hfound⟩
    rintro _ ⟨⟩
    exact hfound

/-- A name that is not the slot stays. -/
theorem replace_resolve (hx : x ≠ slot) (xs : List String) (W : Nameless) :
    (Nameless.var (.resolve xs x)).replace (Nameless.just slot W) = .var (.resolve xs x) :=
  Nameless.replace_just_of_not_free fun h => hx (Ref.mem_names_resolve.mp h).1.symm

theorem replaceHead_resolve (hf : f ≠ slot) (xs : List String) (W : Nameless) :
    Nameless.replaceHead (Nameless.just slot W) (.resolve xs f) = .resolve xs f := by
  cases hr : Ref.resolve xs f with
  | bound i => rfl
  | free y =>
    obtain ⟨rfl, _⟩ := Ref.resolve_free hr
    simp [Nameless.replaceHead, Nameless.just_ne hf]

/-- A function of the pattern stands in the target, too: the slot is found for objects only. -/
theorem functions_of_agree (h : agree (acceptWitness slot bound) p t s = some s')
    (hf : f ∈ p.functions) : f ∈ t.free := by
  revert hf
  refine agree_induction (P := fun p t _ _ => f ∈ p.functions → f ∈ t.free)
    (Q := fun ps ts _ _ => f ∈ functionsAll ps → f ∈ freeAll ts) ?_ ?_ ?_ ?_ ?_ ?_ ?_ ?_ ?_ p t s s' h
  · intro p t s s' haccept hf
    obtain rfl : p = var slot := (acceptWitness_eq_some.mp haccept).1.1
    cases hf
  · exact fun _ _ _ hf => nomatch hf
  · exact fun g ps ts _ _ _ ih hf => List.mem_cons.mpr ((List.mem_cons.mp hf).imp_right ih)
  · exact fun op l r m n _ _ _ _ ihl ihr hf =>
      List.mem_append.mpr ((List.mem_append.mp hf).imp ihl ihr)
  · exact fun e d _ _ _ ih => ih
  · intro q x e y d _ _ _ _ _ ih hf
    obtain ⟨hf, hfx⟩ := mem_functions_bind.mp hf
    exact (mem_free_matched (ih hf)).resolve_left hfx
  · exact fun g ps ts _ _ _ ih => ih
  · exact fun _ hf => nomatch hf
  · exact fun p t ps ts _ _ _ ihp ihps hf => List.mem_append.mpr ((List.mem_append.mp hf).imp ihp ihps)

/-- The slot stands for what is found in its place. What is found mentions no binder of the pattern, so
that the binders `xs` around it do not matter. -/
theorem replaced_of_agree (h : agree (acceptWitness slot bound) p t s = some s')
    (hslot : slot ∉ bound) (hbinders : ∀ z ∈ p.binders, z ∈ bound) (hfree : slot ∉ t.free)
    (hW : Witnesses W s') : Witnesses W s ∧ ∀ xs, (∀ z ∈ xs, z ∈ bound) →
      (p.nameless xs).replace (Nameless.just slot W) = t.nameless xs := by
  revert hbinders hfree hW
  refine agree_induction
    (P := fun p t s s' => (∀ z ∈ p.binders, z ∈ bound) → slot ∉ t.free → Witnesses W s' →
      Witnesses W s ∧ ∀ xs, (∀ z ∈ xs, z ∈ bound) →
        (p.nameless xs).replace (Nameless.just slot W) = t.nameless xs)
    (Q := fun ps ts s s' => (∀ z ∈ bindersAll ps, z ∈ bound) → slot ∉ freeAll ts → Witnesses W s' →
      Witnesses W s ∧ ∀ xs, (∀ z ∈ xs, z ∈ bound) →
        Nameless.replaceAll (Nameless.just slot W) (namelessAll xs ps) = namelessAll xs ts)
    ?_ ?_ ?_ ?_ ?_ ?_ ?_ ?_ ?_ p t s s' h
  · intro p t s s' haccept _ _ hW
    obtain ⟨rfl, hbound, hs, ht⟩ := acceptWitness_found haccept hW
    refine ⟨hs, fun xs hxs => ?_⟩
    have hout : slot ∉ xs := fun hx => hslot (hxs slot hx)
    rw [nameless_of_disjoint fun z hz hx => hbound z (hxs z hx) hz, ht]
    simp [nameless, Ref.resolve_of_not_mem hout, Nameless.replace]
  · intro x s _ _ hfree hW
    have hx : x ≠ slot := fun h => hfree (by simp [free, h])
    exact ⟨hW, fun xs _ => replace_resolve hx xs W⟩
  · intro f ps ts s s' _ ih hb hfree hW
    simp only [free, List.mem_cons, not_or] at hfree
    obtain ⟨hs, hargs⟩ := ih hb hfree.2 hW
    refine ⟨hs, fun xs hxs => ?_⟩
    simp only [nameless, Nameless.replace, replaceHead_resolve (Ne.symm hfree.1), hargs xs hxs]
  · intro op l r m n s u s' _ ihl ihr hb hfree hW
    simp only [binders, free, List.mem_append, not_or] at hb hfree
    obtain ⟨hu, hr⟩ := ihr (fun z hz => hb z (.inr hz)) hfree.2 hW
    obtain ⟨hs, hl⟩ := ihl (fun z hz => hb z (.inl hz)) hfree.1 hu
    exact ⟨hs, fun xs hxs => by simp only [nameless, Nameless.replace, hl xs hxs, hr xs hxs]⟩
  · intro e d s s' _ ih hb hfree hW
    obtain ⟨hs, he⟩ := ih hb hfree hW
    exact ⟨hs, fun xs hxs => by simp only [nameless, Nameless.replace, he xs hxs]⟩
  · intro q x e y d s s' _ hx _ ih hb hfree hW
    obtain ⟨hxb, hb⟩ := List.forall_mem_cons.mp hb
    have hmatched : slot ∉ (matched x y d).free := fun hz =>
      (mem_free_matched hz).elim (fun hsx => hslot (hsx ▸ hxb)) hfree
    obtain ⟨hs, he⟩ := ih hb hmatched hW
    refine ⟨hs, fun xs hxs => ?_⟩
    -- the binder's name is one more that what is found does not mention
    have hunder := he (x :: xs) (List.forall_mem_cons.mpr ⟨hxb, hxs⟩)
    simp only [nameless, Nameless.replace, hunder, nameless_matched hx]
  · intro g ps ts s s' _ ih hb hfree hW
    obtain ⟨hs, hitems⟩ := ih hb hfree hW
    exact ⟨hs, fun xs hxs => by simp only [nameless, Nameless.replace, hitems xs hxs]⟩
  · exact fun s _ _ hW => ⟨hW, fun _ _ => rfl⟩
  · intro p t ps ts s u s' ihp ihps hb hfree hW
    simp only [bindersAll, freeAll, List.mem_append, not_or] at hb hfree
    obtain ⟨hu, hps⟩ := ihps (fun z hz => hb z (.inr hz)) hfree.2 hW
    obtain ⟨hs, hp⟩ := ihp (fun z hz => hb z (.inl hz)) hfree.1 hu
    exact ⟨hs, fun xs hxs => by simp only [namelessAll, Nameless.replaceAll, hp xs hxs, hps xs hxs]⟩

-- ---------------------------------------------------------------- an instance is found

theorem acceptWitness_slot (hs : Witnesses W s) (hW : ∀ z ∈ W.free, z ∉ bound)
    (ht : t.nameless [] = W) :
    ∃ s', acceptWitness slot bound (var slot) t s = some s' ∧ Witnesses W s' := by
  have hbound : ∀ z ∈ bound, z ∉ t.free := fun z hz hzt =>
    hW z (ht ▸ mem_free_nameless.mpr ⟨hzt, List.not_mem_nil⟩) hz
  have hsame : ∀ w ∈ s, alphaEq w t = true := fun w hw => alphaEq_iff.mpr ((hs w hw).trans ht.symm)
  refine ⟨_, acceptWitness_eq_some.mpr ⟨⟨rfl, hbound, hsame⟩, rfl⟩, ?_⟩
  rintro _ ⟨⟩
  cases s with
  | none => exact ht
  | some w => exact hs w rfl

theorem acceptWitness_other (hp : p ≠ var slot) : acceptWitness slot bound p t s = none :=
  acceptWitness_eq_none.mpr fun h => hp h.1

/-- Where the slot is a binder's name nothing is taken for it but what that binder binds. -/
theorem agree_of_bound (hslot : slot ∈ bound) (h : p.nameless [] = t.nameless []) :
    agree (acceptWitness slot bound) p t s = some s := by
  refine agree_of_nameless (fun a b s hab => acceptWitness_eq_none.mpr ?_) h
  rintro ⟨rfl, hbound, _⟩
  have hfree : slot ∈ ((var slot).nameless []).free := mem_free_nameless.mpr ⟨by simp [free], by simp⟩
  rw [hab] at hfree
  exact hbound slot hslot (mem_free_nameless.mp hfree).1

theorem agreeAll_of_replaced
    (ih : ∀ p ∈ ps, ∀ t s, slot ∉ p.functions → (∀ z ∈ p.binders, z ∈ bound) → Witnesses W s →
      (p.nameless []).replace (Nameless.just slot W) = t.nameless [] →
      ∃ s', agree (acceptWitness slot bound) p t s = some s' ∧ Witnesses W s')
    (hf : slot ∉ functionsAll ps) (hbinders : ∀ z ∈ bindersAll ps, z ∈ bound) (hs : Witnesses W s)
    (h : Nameless.replaceAll (Nameless.just slot W) (namelessAll [] ps) = namelessAll [] ts) :
    ∃ s', agreeAll (acceptWitness slot bound) ps ts s = some s' ∧ Witnesses W s' := by
  induction ps generalizing ts s with
  | nil =>
    cases ts with
    | nil => exact ⟨s, rfl, hs⟩
    | cons t ts => cases h
  | cons p ps ihs =>
    cases ts with
    | nil => cases h
    | cons t ts =>
      simp only [namelessAll, Nameless.replaceAll, List.cons.injEq] at h
      simp only [functionsAll, bindersAll, List.mem_append, not_or] at hf hbinders
      obtain ⟨u, hp, hu⟩ := ih p List.mem_cons_self t s hf.1 (fun z hz => hbinders z (.inl hz)) hs h.1
      obtain ⟨s', hps, hs'⟩ := ihs (fun d hd => ih d (List.mem_cons_of_mem _ hd)) hf.2
        (fun z hz => hbinders z (.inr hz)) hu h.2
      exact ⟨s', agreeAll_cons.mpr ⟨t, ts, u, rfl, hp, hps⟩, hs'⟩

/-- The pattern's binder can give its name to the target's: what replaces the slot does not use it. -/
theorem not_free_of_replaced {e d : Expr}
    (h : (e.nameless [y]).replace (Nameless.just slot W) = d.nameless [y']) (hy : y ∉ W.free) :
    y = y' ∨ y ∉ d.free := by
  by_cases hyy : y = y'
  · exact .inl hyy
  refine .inr fun hd => ?_
  have hfree : y ∈ (d.nameless [y']).free := mem_free_nameless.mpr ⟨hd, by simp [hyy]⟩
  rw [← h] at hfree
  rcases Nameless.mem_free_replace_just hfree with hfree | hfree
  · exact (mem_free_nameless.mp hfree).2 (List.mem_singleton.mpr rfl)
  · exact hy hfree

/-- What is an instance under a binder is one with the binder's name free. -/
theorem replaced_of_under {e d w : Expr} (hy : y ≠ slot)
    (h : (e.nameless [y]).replace (Nameless.just slot (w.nameless [])) = d.nameless [y]) :
    (e.nameless []).replace (Nameless.just slot (w.nameless [])) = d.nameless [] := by
  have hclosed (k : Nat) : (w.nameless []).opened k y = w.nameless [] :=
    w.nameless_opened_of_le (Nat.zero_le k)
  rw [← nameless_opened e [] y, ← nameless_opened d [] y]
  exact (Nameless.opened_replace_just hy hclosed).symm.trans (congrArg _ h)

/-- A target that has `w` wherever the slot is free in the pattern agrees with it. -/
theorem agree_of_replaced {w : Expr} (hw : ∀ z ∈ w.free, z ∉ bound) (hf : slot ∉ p.functions)
    (hbinders : ∀ z ∈ p.binders, z ∈ bound) (hs : Witnesses (w.nameless []) s)
    (h : (p.nameless []).replace (Nameless.just slot (w.nameless [])) = t.nameless []) :
    ∃ s', agree (acceptWitness slot bound) p t s = some s' ∧ Witnesses (w.nameless []) s' := by
  have hW : ∀ z ∈ (w.nameless []).free, z ∉ bound := fun z hz => hw z (mem_free_nameless.mp hz).1
  induction p using Expr.induction generalizing t s with
  | var x =>
    by_cases hx : x = slot
    · subst hx
      obtain ⟨s', haccept, hs'⟩ := acceptWitness_slot hs hW (h.symm.trans (by
        simp [nameless, Nameless.replace]))
      exact ⟨s', agree_accepted haccept, hs'⟩
    · have hr : acceptWitness slot bound (var x) t s = none := acceptWitness_other (by simp [hx])
      have hform := (replace_resolve hx [] _).symm.trans h
      refine ⟨s, (agree_var hr).mpr ⟨?_, rfl⟩, hs⟩
      cases t with
      | var y => simpa [nameless, eq_comm] using hform
      | _ => cases hform
  | call f args ih =>
    have hr : acceptWitness slot bound (call f args) t s = none := acceptWitness_other (by simp)
    cases t with
    | call g ts =>
      simp only [functions, List.mem_cons, not_or] at hf
      simp only [nameless, Nameless.replace, Nameless.call.injEq] at h
      rw [replaceHead_resolve (Ne.symm hf.1), Ref.resolve_nil, Ref.resolve_nil, Ref.free.injEq] at h
      obtain ⟨s', hargs, hs'⟩ := agreeAll_of_replaced
        (fun a ha t s hfa hb hs h => ih a ha hfa hb hs h) hf.2 hbinders hs h.2
      exact ⟨s', (agree_call hr).mpr ⟨ts, by rw [h.1], hargs⟩, hs'⟩
    | _ => cases h
  | binary op l r ihl ihr =>
    have hr : acceptWitness slot bound (binary op l r) t s = none := acceptWitness_other (by simp)
    cases t with
    | binary o m n =>
      simp only [nameless, Nameless.replace, Nameless.binary.injEq] at h
      simp only [functions, binders, List.mem_append, not_or] at hf hbinders
      obtain ⟨u, hl, hu⟩ := ihl hf.1 (fun z hz => hbinders z (.inl hz)) hs h.2.1
      obtain ⟨s', hr', hs'⟩ := ihr hf.2 (fun z hz => hbinders z (.inr hz)) hu h.2.2
      exact ⟨s', (agree_binary hr).mpr ⟨m, n, u, by rw [h.1], hl, hr'⟩, hs'⟩
    | _ => cases h
  | not e ih =>
    have hr : acceptWitness slot bound (not e) t s = none := acceptWitness_other (by simp)
    cases t with
    | not d =>
      obtain ⟨s', he, hs'⟩ := ih hf hbinders hs (Nameless.not.inj h)
      exact ⟨s', (agree_not hr).mpr ⟨d, rfl, he⟩, hs'⟩
    | _ => cases h
  | bind q y e ih =>
    have hr : acceptWitness slot bound (bind q y e) t s = none := acceptWitness_other (by simp)
    cases t with
    | bind o y' d =>
      simp only [nameless, Nameless.replace, Nameless.bind.injEq] at h
      obtain ⟨rfl, h⟩ := h
      obtain ⟨hyb, hbinders⟩ := List.forall_mem_cons.mp hbinders
      have hy := not_free_of_replaced h fun hy => hW y hy hyb
      have hbody := h.trans (nameless_matched hy).symm
      by_cases hys : y = slot
      · -- the binder has the slot's name, so nothing in its body is to be found
        subst hys
        rw [Nameless.replace_just_of_not_free (by simp [mem_free_nameless])] at hbody
        exact ⟨s, (agree_bind hr).mpr ⟨y', d, rfl, hy, agree_of_bound hyb (nameless_of_under hbody)⟩, hs⟩
      · obtain ⟨s', he, hs'⟩ := ih (fun hfe => hf (mem_functions_bind.mpr ⟨hfe, Ne.symm hys⟩)) hbinders
          hs (replaced_of_under hys hbody)
        exact ⟨s', (agree_bind hr).mpr ⟨y', d, rfl, hy, he⟩, hs'⟩
    | _ => cases h
  | group g items ih =>
    have hr : acceptWitness slot bound (group g items) t s = none := acceptWitness_other (by simp)
    cases t with
    | group k ts =>
      simp only [nameless, Nameless.replace, Nameless.group.injEq] at h
      obtain ⟨s', hitems, hs'⟩ := agreeAll_of_replaced
        (fun a ha t s hfa hb hs h => ih a ha hfa hb hs h) hf hbinders hs h.2
      exact ⟨s', (agree_group hr).mpr ⟨ts, by rw [h.1], hitems⟩, hs'⟩
    | _ => cases h

end Expr

-- ---------------------------------------------------------------- the name of the slot

namespace Name

/-- Do the names differ in underscores in front at most? -/
def kin (x y : String) : Bool := grown x y || grown y x

theorem kin_of_grown (hx : grown x z = true) (hy : grown y z = true) : kin x y = true := by
  have hlist (zs : List Char) (hx : grownFrom x.toList zs = true) (hy : grownFrom y.toList zs = true) :
      grownFrom x.toList y.toList = true ∨ grownFrom y.toList x.toList = true := by
    induction zs with
    | nil =>
      rw [List.isEmpty_iff.mp hx, List.isEmpty_iff.mp hy]
      exact .inl rfl
    | cons c zs ih =>
      have hstep {ws : List Char} (h : grownFrom ws (c :: zs) = true) :
          ws = c :: zs ∨ grownFrom ws zs = true := by
        simp only [grownFrom, Bool.or_eq_true, Bool.and_eq_true, beq_iff_eq] at h
        exact h.imp_right And.right
      rcases hstep hx with hx' | hx'
      · exact .inr (hx' ▸ hy)
      · rcases hstep hy with hy' | hy'
        · exact .inl (hy' ▸ hx)
        · exact ih hx' hy'
  exact Bool.or_eq_true_iff.mpr (hlist z.toList hx hy)

end Name

namespace Expr

/-- A binder of the name inside of which a binder has the name again, or one that differs from it in
underscores in front. -/
def rebindsKin (x : String) : Expr → Bool
  | bind _ y body => y == x && body.binders.any (Name.kin x)
  | _ => false

/-- Inside a binder of the name it is not bound again. -/
def ShadowedOnce (x : String) (e : Expr) : Prop := ∀ d ∈ e.inside, d.rebindsKin x = false

instance (x : String) (e : Expr) : Decidable (e.ShadowedOnce x) :=
  inferInstanceAs (Decidable (∀ d ∈ e.inside, d.rebindsKin x = false))

theorem ShadowedOnce.part {e p : Expr} (h : e.ShadowedOnce x) (hp : p ∈ e.inside) :
    p.ShadowedOnce x :=
  fun d hd => h d (inside_trans hd hp)

theorem ShadowedOnce.body (h : (bind q x e).ShadowedOnce x) (hy : y ∈ e.binders) :
    Name.kin x y = false := by
  have hroot := h _ (self_mem_inside _)
  simp only [rebindsKin, beq_self_eq_true, Bool.true_and, List.any_eq_false] at hroot
  exact Bool.eq_false_iff.mpr (hroot y hy)

theorem not_mem_bindersAll (h : replacedAll ∅ es σ = .ok ds)
    (ih : ∀ e ∈ es, ∀ d, replaced ∅ e σ = .ok d → slot ∉ d.binders) : slot ∉ bindersAll ds := by
  intro hmem
  obtain ⟨d, hd, hmem⟩ := mem_bindersAll.mp hmem
  obtain ⟨e, he, hed⟩ := replacedAll_mem h d hd
  exact ih e he d hed hmem

/-- While the name stands for the slot no binder gets the slot's name, and inside a binder of the name
all binders are called otherwise. -/
theorem slot_not_mem_binders (h : replaced ∅ e σ = .ok d)
    (hnames : ∀ z r, σ.find? z = some r → ∃ g, r = var g) (hx : σ.find? x = some (var slot))
    (hslot : Name.grown ("_" ++ x) slot = true) (honce : e.ShadowedOnce x) : slot ∉ d.binders := by
  induction e using Expr.induction generalizing σ d with
  | var y =>
    cases h
    cases hr : σ.find? y with
    | none => simp [binders]
    | some r =>
      obtain ⟨g, rfl⟩ := hnames y r hr
      simp [binders]
  | call f args ih =>
    obtain ⟨g, _, ds, hds, rfl⟩ := (replaced_call (NameMap.find?_empty f)).mp h
    refine not_mem_bindersAll hds fun a ha d had => ?_
    exact ih a ha had hnames hx (honce.part (arg_mem_inside ha))
  | binary op l r ihl ihr =>
    obtain ⟨l', hl, r', hr, rfl⟩ := replaced_binary.mp h
    simp only [binders, List.mem_append, not_or]
    exact ⟨ihl hl hnames hx (honce.part left_mem_inside),
      ihr hr hnames hx (honce.part right_mem_inside)⟩
  | not e ih =>
    obtain ⟨e', he, rfl⟩ := replaced_not.mp h
    simpa only [binders] using ih he hnames hx (honce.part negated_mem_inside)
  | bind b y body ih =>
    obtain ⟨body', hbody, rfl⟩ := replaced_bind.mp h
    have hfresh := Name.fresh_not_mem (body.free ++ freeAll σ.values) y
    generalize Name.fresh (body.free ++ freeAll σ.values) y = y' at hbody hfresh
    have hnames' := NameMap.forall_find?_insert (x := y) (a := var y') hnames ⟨y', rfl⟩
    simp only [binders, List.mem_cons, not_or]
    constructor
    · rintro rfl
      exact hfresh (List.mem_append_right _
        (mem_freeAll.mpr ⟨var slot, NameMap.mem_values hx, by simp [free]⟩))
    · by_cases hyx : y = x
      · -- the name no longer stands for the slot here
        subst hyx
        intro hmem
        obtain ⟨⟨z, hz, hgrown⟩, _⟩ := binders_replaced hbody hnames' slot hmem
        have hkin := Name.kin_of_grown (Name.grown_of_underscore hslot) (Name.grown_of_underscore hgrown)
        rw [honce.body hz] at hkin
        cases hkin
      · refine ih hbody hnames' ?_ (honce.part body_mem_inside)
        rwa [NameMap.find?_insert_ne _ _ (Ne.symm hyx)]
  | group g items ih =>
    obtain ⟨ds, hds, rfl⟩ := replaced_group.mp h
    refine not_mem_bindersAll hds fun a ha d had => ?_
    exact ih a ha had hnames hx (honce.part (item_mem_inside ha))

theorem slot_not_bound {e : Expr} (hslot : Name.grown ("_" ++ x) slot = true) (honce : e.ShadowedOnce x) :
    slot ∉ (e.rename x slot).binders := by
  have h := substitute_eq_replaced e (.ofList [(x, var slot)]) ▸ substitute_rename e x slot
  refine slot_not_mem_binders h (fun z r hr => ?_) (by simp [NameMap.find?_singleton]) hslot honce
  rw [NameMap.find?_singleton] at hr
  split at hr
  · exact ⟨slot, (Option.some.inj hr).symm⟩
  · cases hr

-- ---------------------------------------------------------------- matches and instances

/-- The target is the pattern with `t` in place of the free name `x`, up to bound names. -/
def Instance (pattern : Expr) (x : String) (t target : Expr) : Prop :=
  ∃ r, pattern.substitute (.ofList [(x, t)]) = .ok r ∧ alphaEq r target = true

theorem Instance.replaced (h : Instance pattern x t target) :
    (pattern.nameless []).replace (Nameless.just x (t.nameless [])) = target.nameless [] := by
  obtain ⟨r, hr, halpha⟩ := h
  rw [← alphaEq_iff.mp halpha, nameless_substitute hr, forms_singleton]

theorem instance_of_replaced (hx : x ∉ pattern.functions)
    (h : (pattern.nameless []).replace (Nameless.just x (t.nameless [])) = target.nameless []) :
    Instance pattern x t target := by
  cases hr : pattern.substitute (.ofList [(x, t)]) with
  | ok r =>
    refine ⟨r, hr, alphaEq_iff.mpr ?_⟩
    rw [nameless_substitute hr, forms_singleton, h]
  | error cause =>
    -- a failure is a function replaced by what is no name, and `x` is no function
    rw [substitute_eq_replaced] at hr
    obtain ⟨f, hf, r, hfound, _⟩ := replaced_eq_error hr
    have hne : f ≠ x := fun h => hx (h ▸ hf)
    rw [NameMap.find?_singleton, if_neg hne] at hfound
    cases hfound

/-- A pattern that does not use the name has no instance but itself. -/
theorem Instance.alphaEq (h : Instance pattern x t target) (hx : x ∉ pattern.free) :
    Expr.alphaEq pattern target = true := by
  have hnot : x ∉ (pattern.nameless []).free := fun hf => hx (mem_free_nameless.mp hf).1
  rw [alphaEq_iff, ← h.replaced, Nameless.replace_just_of_not_free hnot]

/-- A match in which the slot is no binder's name is an instance. -/
theorem instance_of_match (h : matchesWitness pattern target x = true) (honce : pattern.ShadowedOnce x) :
    ∃ t, Instance pattern x t target := by
  unfold matchesWitness at h
  have hgrown := Name.fresh_grown (target.free ++ pattern.free) x
  have hfresh := Name.fresh_not_mem (target.free ++ pattern.free) x
  generalize Name.fresh (target.free ++ pattern.free) x = slot at h hgrown hfresh
  simp only [List.mem_append, not_or] at hfresh
  obtain ⟨s, h⟩ := Option.isSome_iff_exists.mp h
  have hslot : slot ∉ (pattern.rename x slot).boundNames := fun hmem =>
    slot_not_bound hgrown honce (List.mem_eraseDups.mp hmem)
  have hfun : x ∉ pattern.functions := fun hx =>
    hfresh.1 (functions_of_agree h ((mem_functions_rename hfresh.2).mpr hx))
  -- where nothing was found, any expression will do
  obtain ⟨t, ht⟩ : ∃ t : Expr, Witnesses (t.nameless []) s := by
    cases s with
    | none => exact ⟨var x, nofun⟩
    | some w => exact ⟨w, by rintro _ ⟨⟩; rfl⟩
  obtain ⟨_, hforms⟩ := replaced_of_agree h hslot (fun z hz => List.mem_eraseDups.mpr hz) hfresh.1 ht
  have hrep := hforms [] (by simp)
  rw [nameless_rename, Nameless.replace_just_map (by simp [mem_free_nameless, hfresh.2])
    (by simp [mem_functions_nameless, hfun])] at hrep
  exact ⟨t, instance_of_replaced hfun hrep⟩

/-- An instance by what mentions no reserved name is a match. -/
theorem match_of_instance (h : Instance pattern x t target) (hx : x ∉ pattern.functions)
    (ht : ∀ z ∈ t.free, Name.isReserved z = false) : matchesWitness pattern target x = true := by
  unfold matchesWitness
  have hfresh := Name.fresh_not_mem (target.free ++ pattern.free) x
  generalize Name.fresh (target.free ++ pattern.free) x = slot at hfresh
  simp only [List.mem_append, not_or] at hfresh
  have hbound : ∀ z ∈ t.free, z ∉ (pattern.rename x slot).boundNames := by
    intro z hz hmem
    have hres := isReserved_of_binders_rename (List.mem_eraseDups.mp hmem)
    rw [ht z hz] at hres
    cases hres
  have hrep : ((pattern.rename x slot).nameless []).replace (Nameless.just slot (t.nameless [])) =
      target.nameless [] := by
    rw [nameless_rename, Nameless.replace_just_map (by simp [mem_free_nameless, hfresh.2])
      (by simp [mem_functions_nameless, hx]), h.replaced]
  obtain ⟨s, hagree, _⟩ := agree_of_replaced hbound
    (fun hf => hx ((mem_functions_rename hfresh.2).mp hf)) (fun z hz => List.mem_eraseDups.mpr hz)
    (s := none) nofun hrep
  exact Option.isSome_iff_exists.mpr ⟨s, hagree⟩

/-- Every match is an instance, as long as inside a binder of the name it is not bound again. A pattern
that does not use the name is matched by itself only, up to bound names. -/
theorem matchesWitness_sound (pattern target : Expr) (x : String) (honce : pattern.ShadowedOnce x)
    (h : matchesWitness pattern target x = true) :
    (∃ t, Instance pattern x t target) ∧ (x ∉ pattern.free → alphaEq pattern target = true) := by
  obtain ⟨t, ht⟩ := instance_of_match h honce
  exact ⟨⟨t, ht⟩, fun hx => ht.alphaEq hx⟩

/-- The name is bound once inside the pattern, where it is not the one that is looked for. -/
theorem matchesWitness_sound_shadowed :
    let pattern := binary .and (call "P" [var "x"]) (bind .all "x" (call "Q" [var "x"]))
    let target := binary .and (call "P" [call "f" [var "c"]]) (bind .all "y" (call "Q" [var "y"]))
    pattern.ShadowedOnce "x" ∧ ∃ t, Instance pattern "x" t target := by
  intro pattern target
  have honce : pattern.ShadowedOnce "x" := by decide
  exact ⟨honce, (matchesWitness_sound pattern target "x" honce (by decide +kernel)).1⟩

/-- Bound twice, the name is given to the slot by the inner binder, and what that binds is taken for
the slot: `∀u(∀v(Q(a)))` matches `∀x(∀x(Q(x)))`, which it is no instance of. -/
theorem bound_name_taken_for_slot :
    let pattern := bind .all "x" (bind .all "x" (call "Q" [var "x"]))
    let target := bind .all "u" (bind .all "v" (call "Q" [var "a"]))
    matchesWitness pattern target "x" = true ∧ "x" ∉ pattern.free ∧
      alphaEq pattern target = false ∧ ¬∃ t, Instance pattern "x" t target := by
  intro pattern target
  have hfree : "x" ∉ pattern.free := by decide
  have halpha : alphaEq pattern target = false := by decide +kernel
  refine ⟨by decide +kernel, hfree, halpha, fun ⟨t, ht⟩ => ?_⟩
  exact Bool.false_ne_true (halpha.symm.trans (ht.alphaEq hfree))

/-- Every instance is a match, whatever is bound and shadowed in it, if no free name of the target is
reserved and the name is not used as a function. -/
theorem matchesWitness_complete (pattern target : Expr) (x : String) (t : Expr)
    (htarget : ∀ z ∈ target.free, Name.isReserved z = false) (hx : x ∉ pattern.functions)
    (h : Instance pattern x t target) : matchesWitness pattern target x = true := by
  by_cases hfree : x ∈ pattern.free
  · refine match_of_instance h hx fun z hz => htarget z ?_
    have hmem : z ∈ (target.nameless []).free := by
      rw [← h.replaced]
      exact Nameless.mem_free_replace_of_mem (mem_free_nameless.mpr ⟨hfree, by simp⟩)
        (by simp [mem_functions_nameless, hx]) (mem_free_nameless.mpr ⟨hz, by simp⟩)
    exact (mem_free_nameless.mp hmem).1
  · -- nothing is put in the place of the name, so it may be an expression without free names
    have hclosed : Instance pattern x (group .tuple []) target := by
      refine instance_of_replaced hx ?_
      rw [Nameless.replace_just_of_not_free (by simp [mem_free_nameless, hfree])]
      exact alphaEq_iff.mp (h.alphaEq hfree)
    exact match_of_instance hclosed hx (by simp [free, freeAll])

/-- The expression `{z : z ∈ c}` stands in two places of the target, under other bound names and once
inside a binder; where the name is bound twice it does not stand. -/
theorem matchesWitness_complete_nested :
    let pattern := binary .and (bind .all "y" (call "R" [var "x", var "y"]))
      (binary .or (bind .all "x" (bind .all "x" (call "Q" [var "x"]))) (call "P" [var "x"]))
    let those := fun z => bind .those z (binary .elementOf (var z) (var "c"))
    let target := binary .and (bind .all "_y" (call "R" [those "u", var "_y"]))
      (binary .or (bind .all "v" (bind .all "w" (call "Q" [var "w"]))) (call "P" [those "_y"]))
    Instance pattern "x" (those "z") target ∧ matchesWitness pattern target "x" = true := by
  intro pattern those target
  have hinstance : Instance pattern "x" (those "z") target :=
    ⟨_, rfl, by decide +kernel⟩
  exact ⟨hinstance, matchesWitness_complete pattern target "x" (those "z") (by decide) (by decide)
    hinstance⟩

end Expr

end ProofScript
