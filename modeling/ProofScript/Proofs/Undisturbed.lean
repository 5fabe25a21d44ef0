import ProofScript.Proofs.Simulation

/-!
# Analysis leaves what is known undisturbed

Judging a statement gives back the facts, scope by scope, and the flag, whatever it answers, and its
own scopes always match. So a walk over the facts may ask for the next fact from whatever the last
test has left behind: it meets the facts that were visible when it began, in their order, up to the
first that settles it.
-/

namespace ProofScript

-- ---------------------------------------------------------------- walks

namespace Inquiry

/-- The facts that a search from a cursor on hands to its test, in that order. The next one is always
taken from the facts as the test before has left them. -/
def triedFrom (test : Expr → Inquiry Bool) : Nat → Scopes.Cursor → Knowledge → List Expr
  | 0, _, _ => []
  | n + 1, c, k =>
    match k.facts.advance c with
    | (none, _) => []
    | (some fact, next) =>
      fact :: match (test fact).run k with
        | (.ok false, k) => triedFrom test n next k
        | _ => []

def tried (test : Expr → Inquiry Bool) (k : Knowledge) : List Expr :=
  triedFrom test k.facts.size Scopes.cursor k

/-- A search is the row of tests of what it tries, whatever the tests do to the facts. -/
theorem searchFrom_eq_anyM (test : Expr → Inquiry Bool) (n : Nat) (c : Scopes.Cursor) (k : Knowledge) :
    (searchFrom test n c).run k = ((triedFrom test n c k).anyM test).run k := by
  induction n generalizing c k with
  | zero => rfl
  | succ n ih =>
    simp only [searchFrom, triedFrom, run_bind, run_get]
    rcases k.facts.advance c with ⟨_ | fact, next⟩
    · rfl
    · simp only [List.anyM_cons, run_bind]
      rcases (test fact).run k with ⟨fault | _ | _, k'⟩
      · rfl
      · exact ih next k'
      · rfl

/-- How a search goes that knows `k` at its start: it tries visible facts from the outermost on, each
once, as long as they fail the test, and answers what the last test answers. -/
structure Walk (test : Expr → Inquiry Bool) (k : Knowledge) : Prop where
  searched : (search test).run k = ((tried test k).anyM test).run k
  inOrder : tried test k <+: k.facts.items
  inVain : ∀ fact ∈ (tried test k).dropLast, (test fact).run k = (.ok false, k)
  ended : (tried test k = k.facts.items ∧ (∀ fact ∈ k.facts.items, (test fact).run k = (.ok false, k)) ∧
      (search test).run k = (.ok false, k)) ∨
    ∃ fact answer, (tried test k).getLast? = some fact ∧ answer ≠ .ok false ∧
      (test fact).run k = (answer, k) ∧ (search test).run k = (answer, k)

section
variable {test : Expr → Inquiry Bool} {k : Knowledge}

/-- What is tried from a cursor on is what is ahead of it, up to the first fact that does not fail. -/
theorem triedFrom_ahead (hrestored : ∀ fact, ((test fact).run k).2 = k) (c : Scopes.Cursor)
    (hn : (k.facts.ahead c).length ≤ n) :
    (triedFrom test n c k = k.facts.ahead c ∧
      ∀ fact ∈ k.facts.ahead c, (test fact).run k = (.ok false, k)) ∨
    ∃ before fact after answer, k.facts.ahead c = before ++ fact :: after ∧
      triedFrom test n c k = before ++ [fact] ∧
      (∀ fact ∈ before, (test fact).run k = (.ok false, k)) ∧ answer ≠ .ok false ∧
      (test fact).run k = (answer, k) := by
  induction n generalizing c with
  | zero =>
    have hahead := List.length_eq_zero_iff.mp (Nat.le_zero.mp hn)
    exact .inl ⟨by rw [hahead]; rfl, by simp [hahead]⟩
  | succ n ih =>
    have hahead := k.facts.ahead_advance c
    simp only [triedFrom]
    rcases hadvance : k.facts.advance c with ⟨_ | fact, next⟩ <;> simp only [hadvance] at hahead ⊢
    · exact .inl ⟨hahead.symm, by simp [hahead]⟩
    · rw [hahead] at hn ⊢
      obtain ⟨answer, hanswer⟩ : ∃ answer, (test fact).run k = (answer, k) :=
        ⟨_, Prod.ext rfl (hrestored fact)⟩
      by_cases hfalse : answer = .ok false
      · subst hfalse
        rw [hanswer]
        rcases ih next (Nat.le_of_succ_le_succ hn) with ⟨hall, hvain⟩ | hfound
        · exact .inl ⟨congrArg _ hall, List.forall_mem_cons.mpr ⟨hanswer, hvain⟩⟩
        · obtain ⟨before, last, after, answer, hsplit, htried, hvain, hlast⟩ := hfound
          exact .inr ⟨fact :: before, last, after, answer, congrArg _ hsplit, congrArg _ htried,
            List.forall_mem_cons.mpr ⟨hanswer, hvain⟩, hlast⟩
      · refine .inr ⟨[], fact, _, answer, rfl, ?_, by simp, hfalse, hanswer⟩
        rw [hanswer]
        rcases answer with _ | _ | _
        · rfl
        · exact absurd rfl hfalse
        · rfl

/-- Tests in vain leave the answer to the tests after them. -/
theorem anyM_run_append {before after : List Expr}
    (hvain : ∀ fact ∈ before, (test fact).run k = (.ok false, k)) :
    ((before ++ after).anyM test).run k = (after.anyM test).run k := by
  induction before with
  | nil => rfl
  | cons fact before ih =>
    obtain ⟨hfact, hvain⟩ := List.forall_mem_cons.mp hvain
    simp only [List.cons_append, List.anyM_cons, run_bind, hfact]
    exact ih hvain

/-- The row of tests ends with the last one. -/
theorem anyM_run_last (hvain : ∀ fact ∈ before, (test fact).run k = (.ok false, k))
    (hlast : (test fact).run k = (answer, k)) :
    ((before ++ [fact]).anyM test).run k = (answer, k) := by
  rw [anyM_run_append hvain, List.anyM_cons, run_bind, hlast]
  rcases answer with _ | _ | _ <;> rfl

theorem walk (hrestored : ∀ fact, ((test fact).run k).2 = k) : Walk test k := by
  have hsearched : (search test).run k = ((tried test k).anyM test).run k :=
    searchFrom_eq_anyM test k.facts.size Scopes.cursor k
  have hahead := triedFrom_ahead hrestored Scopes.cursor (Nat.le_refl k.facts.size)
  rw [Scopes.ahead_cursor] at hahead
  rcases hahead with ⟨hall, hvain⟩ | ⟨before, fact, after, answer, hsplit, htried, hvain, hne, hlast⟩
  · have hall : tried test k = k.facts.items := hall
    refine ⟨hsearched, hall ▸ List.prefix_rfl, fun fact hfact => ?_, .inl ⟨hall, hvain, ?_⟩⟩
    · exact hvain fact (hall ▸ List.dropLast_subset _ hfact)
    · rw [hsearched, hall, ← List.append_nil k.facts.items, anyM_run_append hvain]
      rfl
  · have htried : tried test k = before ++ [fact] := htried
    refine ⟨hsearched, ⟨after, by simp [htried, hsplit]⟩, ?_, .inr ⟨fact, answer, ?_, hne, hlast, ?_⟩⟩
    · simpa [htried] using hvain
    · simp [htried]
    · rw [hsearched, htried, anyM_run_last hvain hlast]

end

-- ---------------------------------------------------------------- no scope is left open

/-- The inquiry gives back all that is known as it was, whether it answers or fails, and the scopes
that it closes are always its own. -/
def Undisturbed (m : Inquiry α) : Prop :=
  ∀ k, (m.run k).2 = k ∧ ∀ mismatch, (m.run k).1 ≠ .error (.scope mismatch)

end Inquiry

/-- The failure, if there is one, is not about scopes. -/
def NoMismatch (x : Except InternalFault α) : Prop := ∀ mismatch, x ≠ .error (.scope mismatch)

theorem NoMismatch.object (e : Expr) :
    NoMismatch (.error (.notAStatement e) : Except InternalFault α) := by
  intro mismatch h
  cases h

/-- A computation whose parts do not fail over scopes does not. -/
theorem NoMismatch.lockstep : Lockstep fun _ x _ => NoMismatch x where
  ok _ := nofun
  bind := by
    intro _ _ x y f g hx hf mismatch h
    rcases bind_eq_error.mp h with h | ⟨a, _, h⟩
    · exact hx mismatch h
    · exact hf a mismatch h

namespace Reading

theorem indifferent_eq : Indifferent fun v w : View => v = w where
  refuting h := h ▸ rfl
  assuming h := h ▸ rfl
  refutingWith h := h ▸ rfl
  equal h := h ▸ rfl

theorem noMismatch_anyM {test : Expr → Except InternalFault Bool} (h : ∀ f, NoMismatch (test f))
    (facts : List Expr) : NoMismatch (facts.anyM test) := by
  induction facts with
  | nil => exact NoMismatch.lockstep.ok false
  | cons f facts ih =>
    rw [List.anyM_cons]
    exact NoMismatch.lockstep.branch (y := test f) (g := fun _ => test f) (h f)
      (NoMismatch.lockstep.ok true) ih

theorem noMismatch_evaluate {known : Expr → Reading Bool} (hk : ∀ e v, NoMismatch (known e v))
    (depth : Nat) (e : Expr) (v : View) : NoMismatch (evaluate depth known e v) :=
  (indifferent_eq.simulation .object fun e _ => hk e _).evaluate NoMismatch.lockstep ⟨rfl, rfl⟩

theorem noMismatch_judgeDirectly (depth : Nat) (e : Expr) (v : View) :
    NoMismatch (judgeDirectly depth e v) :=
  noMismatch_evaluate (fun _ v => noMismatch_anyM (fun _ => NoMismatch.lockstep.ok _) v.facts) depth e v

theorem noMismatch_judge (depth : Nat) (e : Expr) (v : View) : NoMismatch (judge depth e v) := by
  refine noMismatch_evaluate (fun goal v => noMismatch_anyM (fun fact => ?_) v.facts) depth e v
  exact provesThrough_same (w := v) NoMismatch.lockstep (fun _ => rfl)
    (fun e => noMismatch_judgeDirectly depth e v) fact

end Reading

theorem Inquiry.Reads.undisturbed {m : Inquiry α} (h : m.Reads r) (hr : ∀ v, NoMismatch (r v)) :
    m.Undisturbed := by
  intro k
  rw [h k]
  exact ⟨rfl, hr k.view⟩

/-- Judging a statement, through the connectives of facts or not, leaves everything that is known as
it was and never closes a scope that is not its own; and every look at the facts on the way is a walk
over those that are visible then. -/
theorem judging_undisturbed (depth : Nat) (e : Expr) :
    (judge depth e).Undisturbed ∧ (judgeDirectly depth e).Undisturbed ∧
      ∀ k goal, Inquiry.Walk (provesThrough (judgeDirectly depth) goal) k ∧
        Inquiry.Walk (provesDirectly goal) k := by
  refine ⟨(judge_reads depth e).undisturbed (Reading.noMismatch_judge depth e),
    (judgeDirectly_reads depth e).undisturbed (Reading.noMismatch_judgeDirectly depth e), fun k goal => ?_⟩
  have hthrough := provesThrough_reads (judgeDirectly_reads depth) goal
  exact ⟨Inquiry.walk fun fact => by rw [hthrough fact k],
    Inquiry.walk fun fact => by rw [provesDirectly_reads goal fact k]⟩

end ProofScript
