import ProofScript.Proofs.Hygiene
import ProofScript.Proofs.Reading

/-!
# Analysis is sound

What is judged to hold follows from the visible facts, and what is judged to fail is refuted by
them, in every interpretation, as long as the names stay apart. Entailment is relative to a class of
environments that binders do not lead out of.
-/

namespace ProofScript

-- ---------------------------------------------------------------- answers of readings

theorem and_eq_true {a b : Except ε Bool} : (a <&&> b) = .ok true ↔ a = .ok true ∧ b = .ok true := by
  rcases a with _ | _ | _ <;> simp [andM, ToBool.toBool, bind, Except.bind, pure, Except.pure]

theorem or_eq_true {a b : Except ε Bool} (h : (a <||> b) = .ok true) : a = .ok true ∨ b = .ok true := by
  rcases a with _ | _ | _ <;> simp_all [orM, ToBool.toBool, bind, Except.bind, pure, Except.pure]

theorem map_eq_ok {x : Except ε α} {f : α → β} : f <$> x = .ok b ↔ ∃ a, x = .ok a ∧ f a = b := by
  cases x <;> simp [Functor.map, Except.map]

theorem judgedAs_eq_true {judge : Expr → Reading Truth} :
    Reading.judgedAs judge t e v = .ok true ↔ judge e v = .ok t := by
  unfold Reading.judgedAs
  cases judge e v <;> simp [Functor.map, Except.map]

-- ---------------------------------------------------------------- verdicts

namespace Truth

/-- The verdict is right about a statement that holds if `p`. -/
def Says (p : Prop) : Truth → Prop
  | holds => p
  | fails => ¬p
  | unknown => True

theorem Says.negate (h : Says p t) : t.negate.Says ¬p := by
  cases t with
  | holds => exact fun hp => hp h
  | fails => exact h
  | unknown => trivial

theorem Says.or (hp : Says p s) (hq : Says q t) : (s.or t).Says (p ∨ q) := by
  cases s <;> cases t <;> simp_all [Says, Truth.or]

theorem Says.and (hp : Says p s) (hq : Says q t) : (s.and t).Says (p ∧ q) := by
  cases s <;> cases t <;> simp_all [Says, Truth.and]

/-- The second verdict may assume what the first is about. -/
theorem Says.implies (hp : Says p s) (hq : p → Says q t) : (s.implies t).Says (p → q) := by
  cases s <;> cases t <;> simp_all [Says, Truth.implies]

theorem Says.iff (hp : Says p s) (hq : Says q t) : (s.iff t).Says (p ↔ q) := by
  cases s <;> cases t <;> simp_all [Says, Truth.iff]

end Truth

namespace Interpretation

open Expr

variable {D : Type u} {I : Interpretation D} {E : Env D → Prop}

-- ---------------------------------------------------------------- entailment

variable (I) in
def Boolean (d : D) : Prop := d = I.yes ∨ d = I.no

variable (I E) in
/-- Both sides of every equivalence in `e` denote truth values. -/
def TwoValued (e : Expr) : Prop :=
  ∀ l r, binary .iff l r ∈ e.inside → ∀ ρ, E ρ →
    I.Boolean (I.denote l ρ) ∧ I.Boolean (I.denote r ρ)

variable (I E) in
/-- If `e` is an equivalence, it stands between truth values; if it is a binder whose name is used as
a function, the function of every name is that of its object. -/
structure Sits (e : Expr) : Prop where
  boolean : ∀ l r, e = binary .iff l r → ∀ ρ, E ρ →
    I.Boolean (I.denote l ρ) ∧ I.Boolean (I.denote r ρ)
  instances : (∀ ρ, E ρ → I.Coherent ρ) ∨ e.bindsFunction = false

variable (I E) in
def Fits (e : Expr) : Prop := ∀ d ∈ e.inside, I.Sits E d

theorem fits_of_twoValued (htwo : I.TwoValued E e)
    (hinstances : (∀ ρ, E ρ → I.Coherent ρ) ∨ e.FirstOrder) : I.Fits E e := fun d hd =>
  ⟨fun l r hlr => htwo l r (hlr ▸ hd), hinstances.imp_right fun h => h d hd⟩

theorem Fits.part (h : I.Fits E e) (hp : p ∈ e.inside) : I.Fits E p :=
  fun d hd => h d (inside_trans hd hp)

variable (I E) in
def Entails (Γ : List Expr) (e : Expr) : Prop :=
  ∀ ρ, E ρ → (∀ f ∈ Γ, I.Holds ρ f) → I.Holds ρ e

variable (I E) in
/-- The verdict on a statement is right wherever the facts hold. -/
def Sound (Γ : List Expr) (e : Expr) (t : Truth) : Prop :=
  ∀ ρ, E ρ → (∀ f ∈ Γ, I.Holds ρ f) → t.Says (I.Holds ρ e)

theorem linked_of_holds (hfits : ∀ f ∈ Γ, I.Fits E f) (hρ : E ρ) (hΓ : ∀ f ∈ Γ, I.Holds ρ f) :
    I.Linked ρ Γ := by
  intro op l r hf hop
  have h := hΓ _ hf
  rcases hop with rfl | rfl
  · exact holds_equals.mp h
  · have hiff := holds_iff.mp h
    obtain ⟨hl, hr⟩ := (hfits _ hf _ (self_mem_inside _)).boolean l r rfl ρ hρ
    simp only [Holds, Boolean] at hiff hl hr
    have hne := I.yes_ne_no
    grind

-- ---------------------------------------------------------------- one fact, one goal

/-- Any name of any meaning instantiates a universal fact. -/
theorem holds_instance (hfits : I.Fits E (.bind .all x body)) (hρ : E ρ)
    (h : I.Holds ρ (.bind .all x body)) (y : String) : I.Holds ρ (body.rename x y) := by
  have hy := holds_all.mp h (ρ.object y)
  unfold Holds at hy ⊢
  rw [denote_rename, ← hy]
  refine denote_congr_functions (fun z _ => ?_) (fun f hf => ?_)
  · simp [bind]
  · by_cases hfx : f = x
    · subst hfx
      rcases (hfits _ (self_mem_inside _)).instances with hcoherent | hfirst
      · simp [bind, hcoherent ρ hρ y]
      · exact absurd hf (by simpa [bindsFunction] using hfirst)
    · simp [bind, hfx]

/-- Where names stay apart, no known equation mentions the name of a binder that is gone under. -/
theorem bindersMeet_of_clear (hc : Clear Γ g)
    (hgrown : ∀ x ∈ a.binders, ∃ b ∈ bindersAll (g :: Γ), Name.grown b x = true) :
    BindersMeet (· ∉ linkNames Γ) [a] [g] := by
  refine hc.links.imp (fun h => by simp [bindersAll, h]) fun h x hx hn => ?_
  obtain ⟨b, hb, hbx⟩ := hgrown x (by simpa [bindersAll] using hx)
  exact Bool.noConfusion (hbx.symm.trans (h x hn b hb))

section
variable {Γ : List Expr} {g p : Expr} {ρ : Env D} (hc : Clear Γ g) (hp : p ∈ insideAll Γ)
  (hfits : ∀ f ∈ Γ, I.Fits E f) (hρ : E ρ) (hΓ : ∀ f ∈ Γ, I.Holds ρ f)
include hc hp hfits hρ hΓ

theorem matchesQuantified_sound (h : matchesQuantified Γ p g = true) (hholds : I.Holds ρ p) :
    I.Holds ρ g := by
  obtain ⟨f, hf, hpf⟩ := mem_insideAll.mp hp
  have hlinked := linked_of_holds hfits hρ hΓ
  have hmem (x) (hx : x ∈ p.binders) : x ∈ bindersAll (g :: Γ) :=
    mem_bindersAll.mpr ⟨f, List.mem_cons_of_mem _ hf, binders_of_inside hpf hx⟩
  have hunshadowed := (hc.unshadowed f (List.mem_cons_of_mem _ hf)).part hpf
  simp only [matchesQuantified, Bool.or_eq_true] at h
  rcases h with h | h
  · -- a universal fact is instantiated
    split at h
    · rename_i x body
      simp only [Bool.or_eq_true, List.any_eq_true] at h
      rcases h with (⟨y, _, h⟩ | h) | h
      · have hmeet : BindersMeet (· ∉ linkNames Γ) [body.rename x y] [g] :=
          bindersMeet_of_clear hc fun z hz => by
            obtain ⟨⟨b, hb, hz⟩, _⟩ := binders_rename body x y z hz
            exact ⟨b, hmem b (List.mem_cons_of_mem _ hb), Name.grown_of_underscore hz⟩
        have hinst := holds_instance ((hfits f hf).part hpf) hρ hholds y
        unfold Holds at hinst ⊢
        rw [← equalGiven_denote h hmeet hlinked, hinst]
      · obtain ⟨v, hv⟩ := matchesWitness_denote (I := I) h hunshadowed.not_mem ρ
        unfold Holds
        rw [hv]
        exact holds_all.mp hholds v
      · split at h
        · have hmeet := bindersMeet_of_clear (a := .bind .some x body) hc fun z hz =>
            ⟨z, hmem z hz, Name.grown_self z⟩
          have hsome : I.Holds ρ (.bind .some x body) :=
            holds_some.mpr ⟨I.yes, holds_all.mp hholds I.yes⟩
          unfold Holds at hsome ⊢
          rw [← equalGiven_denote h hmeet hlinked, hsome]
        · cases h
    · cases h
  · -- the fact is an instance of an existential goal
    split at h
    · rename_i x body
      have hx := (hc.unshadowed _ (List.mem_cons_self ..)).not_mem
      obtain ⟨v, hv⟩ := matchesWitness_denote (I := I) h hx ρ
      exact holds_some.mpr ⟨v, hv.symm.trans hholds⟩
    · cases h

theorem directly_sound (h : directly Γ g p = true) (hholds : I.Holds ρ p) : I.Holds ρ g := by
  rcases Bool.or_eq_true_iff.mp h with h | h
  · obtain ⟨f, hf, hpf⟩ := mem_insideAll.mp hp
    have hmeet := bindersMeet_of_clear (a := p) hc fun x hx =>
      ⟨x, mem_bindersAll.mpr ⟨f, List.mem_cons_of_mem _ hf, binders_of_inside hpf hx⟩,
        Name.grown_self x⟩
    unfold Holds at hholds ⊢
    rw [← equalGiven_denote h hmeet (linked_of_holds hfits hρ hΓ), hholds]
  · exact matchesQuantified_sound hc hp hfits hρ hΓ h hholds

end

section
variable {judge : Expr → Reading Truth} {v : View}

/-- A fact proves a goal through its connectives if the judgements on its premises are sound. -/
theorem provesThrough_sound (hc : Clear v.facts g) (hp : p ∈ insideAll v.facts)
    (hfits : ∀ f ∈ v.facts, I.Fits E f)
    (hjudge : ∀ l ∈ p.premises, ∀ t, judge l v = .ok t → I.Sound E v.facts l t)
    (hρ : E ρ) (hΓ : ∀ f ∈ v.facts, I.Holds ρ f)
    (h : Reading.provesThrough judge g p v = .ok true) (hholds : I.Holds ρ p) : I.Holds ρ g := by
  induction p using Expr.induction with
  | binary op l r ihl ihr =>
    obtain ⟨f, hf, hpf⟩ := mem_insideAll.mp hp
    have hl : l ∈ insideAll v.facts := mem_insideAll.mpr ⟨f, hf, inside_trans left_mem_inside hpf⟩
    have hr : r ∈ insideAll v.facts := mem_insideAll.mpr ⟨f, hf, inside_trans right_mem_inside hpf⟩
    rw [Reading.provesThrough.eq_def] at h
    split at h
    · exact directly_sound hc hp hfits hρ hΓ ‹_› hholds
    cases op with
    | implies =>
      obtain ⟨hgoal, hl⟩ := and_eq_true.mp h
      have hl := hjudge l (by simp [premises]) .holds (judgedAs_eq_true.mp hl) ρ hρ hΓ
      exact ihr hr (fun m hm => hjudge m (by simp [premises, hm])) hgoal (holds_implies.mp hholds hl)
    | and =>
      obtain ⟨hl', hr'⟩ := holds_and.mp hholds
      rcases or_eq_true h with h | h
      · exact ihl hl (fun m hm => hjudge m (by simp [premises, hm])) h hl'
      · exact ihr hr (fun m hm => hjudge m (by simp [premises, hm])) h hr'
    | or =>
      rcases or_eq_true h with h | h
      · obtain ⟨hgoal, hfails⟩ := and_eq_true.mp h
        have hfails := hjudge l (by simp [premises]) .fails (judgedAs_eq_true.mp hfails) ρ hρ hΓ
        exact ihr hr (fun m hm => hjudge m (by simp [premises, hm])) hgoal
          ((holds_or.mp hholds).resolve_left hfails)
      · obtain ⟨hgoal, hfails⟩ := and_eq_true.mp h
        have hfails := hjudge r (by simp [premises]) .fails (judgedAs_eq_true.mp hfails) ρ hρ hΓ
        exact ihl hl (fun m hm => hjudge m (by simp [premises, hm])) hgoal
          ((holds_or.mp hholds).resolve_right hfails)
    | iff =>
      rcases or_eq_true h with h | h
      · obtain ⟨hgoal, hside⟩ := and_eq_true.mp h
        have hside := hjudge l (by simp [premises]) .holds (judgedAs_eq_true.mp hside) ρ hρ hΓ
        exact ihr hr (fun m hm => hjudge m (by simp [premises, hm])) hgoal
          ((holds_iff.mp hholds).mp hside)
      · obtain ⟨hgoal, hside⟩ := and_eq_true.mp h
        have hside := hjudge r (by simp [premises]) .holds (judgedAs_eq_true.mp hside) ρ hρ hΓ
        exact ihl hl (fun m hm => hjudge m (by simp [premises, hm])) hgoal
          ((holds_iff.mp hholds).mpr hside)
    | _ => cases h
  | _ =>
    rw [Reading.provesThrough.eq_def] at h
    split at h
    · exact directly_sound hc hp hfits hρ hΓ ‹_› hholds
    · cases h

end

-- ---------------------------------------------------------------- one statement

theorem holds_assuming : (∀ f ∈ Γ ++ [l], I.Holds ρ f) ↔ (∀ f ∈ Γ, I.Holds ρ f) ∧ I.Holds ρ l := by
  simp [or_imp, forall_and]

theorem holds_released (hx : x ∉ freeAll Γ) (hΓ : ∀ f ∈ Γ, I.Holds ρ f) (d : D) :
    ∀ f ∈ Γ, I.Holds (I.bind ρ x d) f := by
  intro f hf
  have hxf : x ∉ f.free := fun h => hx (mem_freeAll.mpr ⟨f, hf, h⟩)
  exact (holds_bind_of_not_free hxf ρ d).mpr (hΓ f hf)

theorem Sound.congr (h : I.Sound E Γ e t) (he : ∀ ρ, I.Holds ρ e ↔ I.Holds ρ d) :
    I.Sound E Γ d t :=
  fun ρ hρ hΓ => propext (he ρ) ▸ h ρ hρ hΓ

theorem Sound.negate (h : I.Sound E Γ e t) : I.Sound E Γ (.not e) t.negate :=
  fun ρ hρ hΓ => propext (holds_not (I := I)) ▸ (h ρ hρ hΓ).negate

theorem Sound.or (hl : I.Sound E Γ l s) (hr : I.Sound E Γ r t) :
    I.Sound E Γ (.binary .or l r) (s.or t) :=
  fun ρ hρ hΓ => propext (holds_or (I := I)) ▸ (hl ρ hρ hΓ).or (hr ρ hρ hΓ)

theorem Sound.iff (hl : I.Sound E Γ l s) (hr : I.Sound E Γ r t) :
    I.Sound E Γ (.binary .iff l r) (s.iff t) :=
  fun ρ hρ hΓ => propext (holds_iff (I := I)) ▸ (hl ρ hρ hΓ).iff (hr ρ hρ hΓ)

/-- The right side is judged with the left one among the facts. -/
theorem Sound.implies (hl : I.Sound E Γ l s) (hr : I.Sound E (Γ ++ [l]) r t) :
    I.Sound E Γ (.binary .implies l r) (s.implies t) := by
  intro ρ hρ hΓ
  rw [holds_implies]
  exact (hl ρ hρ hΓ).implies fun hleft => hr ρ hρ (holds_assuming.mpr ⟨hΓ, hleft⟩)

theorem sound_unknown : I.Sound E Γ e .unknown := fun _ _ _ => trivial

/-- A statement about an arbitrary object is judged with the object's name free. -/
theorem Sound.all (hE : ∀ ρ x d, E ρ → E (I.bind ρ x d)) (hx : x ∉ freeAll Γ)
    (h : I.Sound E Γ body t) : I.Sound E Γ (.bind .all x body) t := by
  intro ρ hρ hΓ
  have h (d : D) := h _ (hE ρ x d hρ) (holds_released hx hΓ d)
  cases t with
  | holds => exact holds_all.mpr h
  | fails => exact fun hall => h I.yes (holds_all.mp hall I.yes)
  | unknown => trivial

theorem not_never : I.Holds ρ (.not (.bind .all x (.not body))) ↔ I.Holds ρ (.bind .some x body) := by
  simp

/-- Sides that exclude each other refute a conjunction. -/
theorem refutedAssuming_sound {judge : Reading Truth}
    (hjudge : ∀ t w, w.facts = v.facts ++ [l] → judge w = .ok t → I.Sound E (v.facts ++ [l]) r t)
    (h : Reading.refutedAssuming l judge v = .ok true) (hρ : E ρ) (hΓ : ∀ f ∈ v.facts, I.Holds ρ f)
    (hl : I.Holds ρ l) : ¬I.Holds ρ r := by
  unfold Reading.refutedAssuming at h
  cases hj : judge { v.assuming l with refuting := true } with
  | error fault => simp [hj, Functor.map, Except.map] at h
  | ok t =>
    have ht : t = .fails := by simpa [hj, Functor.map, Except.map] using h
    subst ht
    exact hjudge _ _ rfl hj ρ hρ (holds_assuming.mpr ⟨hΓ, hl⟩)

theorem conjunction_sound {judgeLeft judgeRight : Reading Truth}
    (hleft : ∀ t, judgeLeft v = .ok t → I.Sound E v.facts l t)
    (hright : ∀ t, judgeRight v = .ok t → I.Sound E v.facts r t)
    (hleft' : ∀ t w, w.facts = v.facts ++ [r] → judgeLeft w = .ok t → I.Sound E (v.facts ++ [r]) l t)
    (hright' : ∀ t w, w.facts = v.facts ++ [l] → judgeRight w = .ok t → I.Sound E (v.facts ++ [l]) r t)
    (h : Reading.conjunction l r judgeLeft judgeRight v = .ok t) :
    I.Sound E v.facts (.binary .and l r) t := by
  unfold Reading.conjunction at h
  obtain ⟨left, hl, h⟩ := bind_eq_ok.mp h
  obtain ⟨right, hr, h⟩ := bind_eq_ok.mp h
  intro ρ hρ hΓ
  have hsides := (hleft _ hl ρ hρ hΓ).and (hright _ hr ρ hρ hΓ)
  rw [holds_and]
  cases ht : left.and right with
  | unknown =>
    rw [ht] at h
    cases hf : v.refuting with
    | true =>
      simp only [hf, if_true, pure_eq_ok] at h
      exact h ▸ trivial
    | false =>
      simp only [hf, Bool.false_eq_true, if_false] at h
      obtain ⟨b, hb, h⟩ := bind_eq_ok.mp h
      cases b with
      | true =>
        cases h
        rintro ⟨hl, hr⟩
        rcases or_eq_true hb with hb | hb
        · exact refutedAssuming_sound hright' hb hρ hΓ hl hr
        · exact refutedAssuming_sound hleft' hb hρ hΓ hr hl
      | false =>
        cases h
        trivial
  | holds | fails =>
    rw [ht] at h hsides
    cases h
    exact hsides

theorem bindersMeet_sides (hc : Clear Γ (.binary .equals l r)) :
    BindersMeet (· ∉ linkNames Γ) [l] [r] := by
  refine hc.links.imp (fun h => ?_) fun h x hx hn => ?_
  · simpa [bindersAll, binders] using (List.append_eq_nil_iff.mp h).2
  · have hx : x ∈ bindersAll (.binary .equals l r :: Γ) := by
      simp_all [bindersAll, binders]
    exact Bool.noConfusion ((Name.grown_self x).symm.trans (h x hn x hx))

theorem equality_sound (hc : Clear Γ (.binary .equals l r)) (hfits : ∀ f ∈ Γ, I.Fits E f)
    (h : equalByFacts Γ depth l r = true) : I.Sound E Γ (.binary .equals l r) .holds :=
  fun _ hρ hΓ => holds_equals.mpr
    (equalByFacts_denote h (bindersMeet_sides hc) (linked_of_holds hfits hρ hΓ))

section
variable {known : Expr → Reading Bool} {R : List Expr → Prop} {v : View}

variable (I E) in
/-- What is looked up follows from the facts, where `R` tells which facts can be looked up among. -/
def LookupSound (known : Expr → Reading Bool) (R : List Expr → Prop) : Prop :=
  ∀ v g, Clear v.facts g → R v.facts → (∀ f ∈ v.facts, I.Fits E f) →
    known g v = .ok true → I.Entails E v.facts g

theorem LookupSound.settle (hknown : I.LookupSound E known R) (hc : Clear v.facts e)
    (hr : R v.facts) (hfits : ∀ f ∈ v.facts, I.Fits E f)
    (hother : ∀ t, otherwise v = .ok t → I.Sound E v.facts e t)
    (h : Reading.settle known e otherwise v = .ok t) : I.Sound E v.facts e t := by
  rcases Reading.settle_eq_ok h with ⟨hk, rfl⟩ | ⟨_, _, hn, rfl⟩ | ⟨_, _, ht⟩
  · exact hknown v e hc hr hfits hk
  · exact fun ρ hρ hΓ => holds_not.mp (hknown v (.not e) hc.not hr hfits hn ρ hρ hΓ)
  · exact hother t ht

/-- A witness is looked for as `¬∀x(¬P)`, then as `∀x(¬P)`, then as `¬P`. -/
theorem LookupSound.witness {judge : Reading Truth} (hknown : I.LookupSound E known R)
    (hE : ∀ ρ x d, E ρ → E (I.bind ρ x d)) (hc : Clear v.facts (.bind .some x body))
    (hcbody : Clear v.facts body) (hr : R v.facts) (hfits : ∀ f ∈ v.facts, I.Fits E f)
    (hjudge : ∀ t, judge v = .ok t → I.Sound E v.facts body t)
    (h : Reading.settle known (.not (.bind .all x (.not body))) (fun v => Truth.negate <$>
      Reading.settle known (.bind .all x (.not body)) (Reading.settle known (.not body) fun v =>
        Truth.negate <$> judge v) v) v = .ok t) :
    I.Sound E v.facts (.bind .some x body) t := by
  refine Sound.congr ?_ fun ρ => not_never
  refine hknown.settle hc.never.not hr hfits (fun t ht => ?_) h
  obtain ⟨s, hs, rfl⟩ := map_eq_ok.mp ht
  refine Sound.negate (hknown.settle hc.never hr hfits (fun t ht => ?_) hs)
  refine Sound.all hE (hc.released x (by simp [Expr.released])) ?_
  refine hknown.settle hcbody.not hr hfits (fun t ht => ?_) ht
  obtain ⟨s, hs, rfl⟩ := map_eq_ok.mp ht
  exact (hjudge s hs).negate

/-- Judging is sound if looking up is. -/
theorem evaluate_sound (hE : ∀ ρ x d, E ρ → E (I.bind ρ x d)) (hknown : I.LookupSound E known R)
    (hclear : Throughout (fun Γ g => Clear Γ g ∧ R Γ) v.facts e) (hfits : ∀ f ∈ v.facts, I.Fits E f)
    (he : I.Fits E e) (h : Reading.evaluate depth known e v = .ok t) : I.Sound E v.facts e t := by
  induction e using Expr.induction generalizing v t with
  | var x =>
    obtain ⟨hc, hr⟩ := hclear.self
    refine hknown.settle hc hr hfits (fun t ht => ?_) h
    cases ht
    exact sound_unknown
  | call f args =>
    obtain ⟨hc, hr⟩ := hclear.self
    refine hknown.settle hc hr hfits (fun t ht => ?_) h
    cases ht
    exact sound_unknown
  | binary op l r ihl ihr =>
    obtain ⟨hc, hr⟩ := hclear.self
    have hfl : I.Fits E l := he.part left_mem_inside
    have hfr : I.Fits E r := he.part right_mem_inside
    have hassuming (e) (hfe : I.Fits E e) : ∀ f ∈ v.facts ++ [e], I.Fits E f := by
      simpa [or_imp, forall_and] using ⟨hfits, hfe⟩
    rw [Reading.evaluate.eq_def] at h
    refine hknown.settle hc hr hfits (fun t ht => ?_) h
    cases op with
    | implies =>
      obtain ⟨hcl, hcr⟩ := hclear.2
      obtain ⟨s, hs, ht⟩ := bind_eq_ok.mp ht
      obtain ⟨u, hu, ht⟩ := bind_eq_ok.mp ht
      cases ht
      exact (ihl hcl hfits hfl hs).implies (ihr (v := v.assuming l) hcr (hassuming l hfl) hfr hu)
    | iff =>
      obtain ⟨hcl, hcr⟩ := hclear.2
      obtain ⟨s, hs, ht⟩ := bind_eq_ok.mp ht
      obtain ⟨u, hu, ht⟩ := bind_eq_ok.mp ht
      cases ht
      exact (ihl hcl hfits hfl hs).iff (ihr hcr hfits hfr hu)
    | or =>
      obtain ⟨hcl, hcr⟩ := hclear.2
      obtain ⟨s, hs, ht⟩ := bind_eq_ok.mp ht
      obtain ⟨u, hu, ht⟩ := bind_eq_ok.mp ht
      cases ht
      exact (ihl hcl hfits hfl hs).or (ihr hcr hfits hfr hu)
    | and =>
      obtain ⟨hcl, hcr, hcr', hcl'⟩ := hclear.2
      refine conjunction_sound (fun t => ihl hcl hfits hfl) (fun t => ihr hcr hfits hfr) ?_ ?_ ht
      · intro t w hw
        exact hw ▸ ihl (hw ▸ hcl') (hw ▸ hassuming r hfr) hfl
      · intro t w hw
        exact hw ▸ ihr (hw ▸ hcr') (hw ▸ hassuming l hfl) hfr
    | equals =>
      cases heq : equalByFacts v.facts depth l r with
      | true =>
        simp only [heq, if_true, Except.ok.injEq] at ht
        exact ht ▸ equality_sound hc hfits heq
      | false =>
        simp only [heq, Bool.false_eq_true, if_false, Except.ok.injEq] at ht
        exact ht ▸ sound_unknown
    | elementOf | subset =>
      cases ht
      exact sound_unknown
    | _ => cases ht
  | not a ih =>
    obtain ⟨hc, hr⟩ := hclear.self
    refine hknown.settle hc hr hfits (fun t ht => ?_) h
    obtain ⟨s, hs, rfl⟩ := map_eq_ok.mp ht
    exact (ih hclear.2 hfits (he.part negated_mem_inside) hs).negate
  | bind q x body ih =>
    obtain ⟨hc, hr⟩ := hclear.self
    have hbody : I.Fits E body := he.part body_mem_inside
    rw [Reading.evaluate.eq_def] at h
    refine hknown.settle hc hr hfits (fun t ht => ?_) h
    cases q with
    | all => exact (ih hclear.2 hfits hbody ht).all hE (hc.released x (by simp [Expr.released]))
    | some =>
      have hcbody : Clear v.facts body := (show Throughout _ _ body from hclear.2).self.1
      exact hknown.witness hE hc hcbody hr hfits (fun t => ih hclear.2 hfits hbody) ht
    | those => cases ht
  | group g items =>
    obtain ⟨hc, hr⟩ := hclear.self
    refine hknown.settle hc hr hfits (fun t ht => ?_) h
    cases ht

end

theorem judgeDirectly_sound (hE : ∀ ρ x d, E ρ → E (I.bind ρ x d))
    (hclear : Throughout Clear v.facts e) (hfits : ∀ f ∈ v.facts, I.Fits E f) (he : I.Fits E e)
    (h : Reading.judgeDirectly depth e v = .ok t) : I.Sound E v.facts e t := by
  refine evaluate_sound (R := fun _ => True) hE ?_ (hclear.mono fun _ _ h => ⟨h, trivial⟩) hfits he h
  intro v g hc _ hfits hg ρ hρ hΓ
  obtain ⟨f, hf, hfg⟩ := anyM_eq_true hg
  exact directly_sound hc (mem_insideAll.mpr ⟨f, hf, self_mem_inside f⟩) hfits hρ hΓ
    (Except.ok.inj hfg) (hΓ f hf)

theorem judge_sound (hE : ∀ ρ x d, E ρ → E (I.bind ρ x d)) (hclear : Hygienic v.facts e)
    (hfits : ∀ f ∈ v.facts, I.Fits E f) (he : I.Fits E e)
    (h : Reading.judge depth e v = .ok t) : I.Sound E v.facts e t := by
  refine evaluate_sound (R := fun Γ => ∀ f ∈ Γ, ∀ l ∈ f.premises, Throughout Clear Γ l) hE ?_ hclear
    hfits he h
  intro v g hc hpremises hfits hg ρ hρ hΓ
  obtain ⟨f, hf, hfg⟩ := anyM_eq_true hg
  refine provesThrough_sound hc (mem_insideAll.mpr ⟨f, hf, self_mem_inside f⟩) hfits ?_ hρ hΓ hfg
    (hΓ f hf)
  intro l hl t ht
  exact judgeDirectly_sound hE (hpremises f hf l hl) hfits
    ((hfits f hf).part (inside_of_premises hl)) ht

end Interpretation

end ProofScript
