import ProofScript.Proofs.Agreement

/-!
# The same up to bound names

Comparison without known equations decides whether two expressions have the same nameless form.
-/

namespace ProofScript.Expr

theorem nameless_matched (h : x = y ∨ x ∉ d.free) :
    (matched x y d).nameless (x :: context) = d.nameless (y :: context) := by
  unfold matched
  split
  · rename_i hxy
    rw [hxy]
  · rename_i hxy
    exact nameless_rename_under (h.resolve_left hxy)

/-- The name of the first binder can be given to the second, if the binders are the same. -/
theorem not_free_of_nameless {e d : Expr} (h : e.nameless [x] = d.nameless [y]) : x = y ∨ x ∉ d.free := by
  by_cases hxy : x = y
  · exact .inl hxy
  · refine .inr fun hx => ?_
    have hfree : x ∈ (d.nameless [y]).free := mem_free_nameless.mpr ⟨hx, by simp [hxy]⟩
    rw [← h, mem_free_nameless] at hfree
    simp at hfree

/-- Bodies that are the same under a binder are the same with its name free. -/
theorem nameless_of_under {e d : Expr} (h : e.nameless [x] = d.nameless [x]) : e.nameless [] = d.nameless [] := by
  rw [← nameless_opened e [] x, ← nameless_opened d [] x]
  exact congrArg _ h

theorem nameless_of_agree {a b : Expr} (h : agree (fun _ _ _ => none) a b () = some t) (context : List String) :
    a.nameless context = b.nameless context := by
  revert context
  refine agree_induction (P := fun a b _ _ => ∀ context, a.nameless context = b.nameless context)
    (Q := fun as bs _ _ => ∀ context, namelessAll context as = namelessAll context bs)
    ?_ ?_ ?_ ?_ ?_ ?_ ?_ ?_ ?_ a b () t h
  · exact fun _ _ _ _ h => by cases h
  · exact fun _ _ _ _ => rfl
  · exact fun f as bs _ _ _ ih context => by simp only [nameless, ih]
  · exact fun op l r m n _ _ _ _ ihl ihr context => by simp only [nameless, ihl, ihr]
  · exact fun e d _ _ _ ih context => by simp only [nameless, ih]
  · intro q x e y d _ _ _ hx _ ih context
    simp only [nameless, ih, nameless_matched hx]
  · exact fun g as bs _ _ _ ih context => by simp only [nameless, ih]
  · exact fun _ _ => rfl
  · exact fun a b as bs _ _ _ iha ihas context => by simp only [namelessAll, iha, ihas]

section
variable {accept : Expr → Expr → σ → Option σ}

theorem agreeAll_of_namelessAll
    (ih : ∀ a ∈ as, ∀ b s, a.nameless [] = b.nameless [] → agree accept a b s = some s)
    (h : namelessAll [] as = namelessAll [] bs) : agreeAll accept as bs s = some s := by
  induction as generalizing bs with
  | nil =>
    cases bs with
    | nil => rfl
    | cons b bs => cases h
  | cons a as ihs =>
    cases bs with
    | nil => cases h
    | cons b bs =>
      simp only [namelessAll, List.cons.injEq] at h
      exact agreeAll_cons.mpr ⟨b, bs, s, rfl, ih a (List.mem_cons_self ..) b s h.1,
        ihs (fun c hc => ih c (List.mem_cons_of_mem _ hc)) h.2⟩

/-- A rule that leaves expressions which are the same up to bound names to their parts finds that they
agree, and keeps the state. -/
theorem agree_of_nameless {a b : Expr}
    (hr : ∀ a b s, a.nameless [] = b.nameless [] → accept a b s = none)
    (h : a.nameless [] = b.nameless []) : agree accept a b s = some s := by
  induction a using Expr.induction generalizing b s with
  | var x =>
    cases b with
    | var y =>
      have hroot := hr _ _ s h
      simp only [nameless, Ref.resolve_nil, Nameless.var.injEq, Ref.free.injEq] at h
      exact (agree_var hroot).mpr ⟨by rw [h], rfl⟩
    | _ => cases h
  | call f as ih =>
    cases b with
    | call g bs =>
      have hroot := hr _ _ s h
      simp only [nameless, Ref.resolve_nil, Nameless.call.injEq, Ref.free.injEq] at h
      exact (agree_call hroot).mpr ⟨bs, by rw [h.1],
        agreeAll_of_namelessAll (fun a ha b s => ih a ha) h.2⟩
    | _ => cases h
  | binary op l r ihl ihr =>
    cases b with
    | binary p m n =>
      have hroot := hr _ _ s h
      simp only [nameless, Nameless.binary.injEq] at h
      exact (agree_binary hroot).mpr ⟨m, n, s, by rw [h.1], ihl h.2.1, ihr h.2.2⟩
    | _ => cases h
  | not e ih =>
    cases b with
    | not d =>
      have hroot := hr _ _ s h
      simp only [nameless, Nameless.not.injEq] at h
      exact (agree_not hroot).mpr ⟨d, rfl, ih h⟩
    | _ => cases h
  | bind q x e ih =>
    cases b with
    | bind p y d =>
      have hroot := hr _ _ s h
      simp only [nameless, Nameless.bind.injEq] at h
      have hx := not_free_of_nameless h.2
      have hbody : e.nameless [] = (matched x y d).nameless [] :=
        nameless_of_under (h.2.trans (nameless_matched hx).symm)
      exact (agree_bind hroot).mpr ⟨y, d, by rw [h.1], hx, ih hbody⟩
    | _ => cases h
  | group g as ih =>
    cases b with
    | group k bs =>
      have hroot := hr _ _ s h
      simp only [nameless, Nameless.group.injEq] at h
      exact (agree_group hroot).mpr ⟨bs, by rw [h.1],
        agreeAll_of_namelessAll (fun a ha b s => ih a ha) h.2⟩
    | _ => cases h

end

theorem alphaEq_iff : alphaEq a b = true ↔ a.nameless [] = b.nameless [] := by
  unfold alphaEq
  rw [Option.isSome_iff_exists]
  exact ⟨fun ⟨_, h⟩ => nameless_of_agree h [], fun h => ⟨(), agree_of_nameless (fun _ _ _ _ => rfl) h⟩⟩

/-- Comparison without facts tells exactly whether two expressions are the same up to bound names,
and is an equivalence therefore. Nothing is asked of the names: binders may shadow each other, bind
functions and have names that start with an underscore. -/
theorem alphaEq_decides_nameless :
    (∀ a b : Expr, alphaEq a b = true ↔ a.nameless [] = b.nameless []) ∧
      Equivalence fun a b : Expr => alphaEq a b = true := by
  refine ⟨fun a b => alphaEq_iff, fun a => alphaEq_iff.mpr rfl, ?_, ?_⟩
  · intro a b hab
    exact alphaEq_iff.mpr (alphaEq_iff.mp hab).symm
  · intro a b c hab hbc
    exact alphaEq_iff.mpr ((alphaEq_iff.mp hab).trans (alphaEq_iff.mp hbc))

end ProofScript.Expr
