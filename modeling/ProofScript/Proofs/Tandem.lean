import ProofScript.Proofs.RecordedFacts

/-!
# Two verifications side by side

What is said about the verification of one script often compares it with the verification of another
one. Here is what such comparisons share. The facts of the one side, translated, are those of the other;
what can be cited and what has been reported is related in a way that each comparison chooses for
itself. Then the two go through the steps of a proof together: both go on, or both are rejected for the
same reason.
-/

namespace ProofScript

-- ---------------------------------------------------------------- translated facts

namespace Scopes

def map (s : Scopes α) (φ : α → β) : Scopes β where
  base := s.base.map φ
  opened := s.opened.map fun scope => ⟨scope.tag, scope.items.map φ⟩

variable {s : Scopes α} {φ : α → β}

theorem items_map : (s.map φ).items = s.items.map φ := by
  simp [items, levels, map, List.map_flatten, List.map_reverse, Function.comp_def]

theorem map_enter (tag : String) : (s.enter tag).map φ = (s.map φ).enter tag := by
  simp [map, enter]

theorem map_addAll (as : List α) : (s.addAll as).map φ = (s.map φ).addAll (as.map φ) := by
  unfold addAll
  cases h : s.opened <;> simp [map, h]

theorem exit_map (tag : String) : (s.map φ).exit tag = (s.exit tag).map (·.map φ) := by
  unfold exit
  cases h : s.opened with
  | nil => simp [map, h, Except.map]
  | cons scope rest =>
    simp only [map, h, List.map_cons]
    split <;> rfl

end Scopes

def View.map (v : View) (φ : Expr → Expr) : View := ⟨v.facts.map φ, v.refuting⟩

def Knowledge.map (k : Knowledge) (φ : Expr → Expr) : Knowledge := ⟨k.facts.map φ, k.refuting⟩

theorem Knowledge.view_map (k : Knowledge) (φ : Expr → Expr) : (k.map φ).view = k.view.map φ := by
  simp [view, map, View.map, Scopes.items_map]

-- ---------------------------------------------------------------- translated rejections

def InternalFault.map (φ : Expr → Expr) : InternalFault → InternalFault
  | scope mismatch => scope mismatch
  | notAStatement e => notAStatement (φ e)

def SubstitutionError.map (f : String → String) (φ : Expr → Expr) : SubstitutionError → SubstitutionError
  | notAFunction x e => notAFunction (f x) (φ e)
  | unfilled template e => unfilled (φ template) (φ e)

/-- Theorems keep their names, objects do not. -/
def NameFault.map (f : String → String) : NameFault → NameFault
  | theoremExists x => theoremExists x
  | definitionExists x => definitionExists (f x)
  | reserved x => reserved (f x)
  | redeclared x => redeclared (f x)
  | undeclared x => undeclared (f x)
  | unknownTheorem x => unknownTheorem x
  | unknownDefinition x => unknownDefinition (f x)

def ArityFault.map (f : String → String) (φ : Expr → Expr) : ArityFault → ArityFault
  | count expected found x => count expected found x
  | misfit cause => misfit (cause.map f φ)

def Rejection.map (f : String → String) (φ : Expr → Expr) : Rejection → Rejection
  | name line cause => name line (cause.map f)
  | arity line cause => arity line (cause.map f φ)
  | precondition x requirementLine line e => precondition x requirementLine line (φ e)
  | refuted line e => refuted line (φ e)
  | unproven line e => unproven line (φ e)
  | noInstance line x goal => noInstance line (f x) (φ goal)
  | internal cause => internal (cause.map φ)

theorem Rejection.map_id (cause : Rejection) : cause.map id id = cause := by
  cases cause with
  | name n cause => cases cause <;> rfl
  | arity n cause =>
    cases cause with
    | count => rfl
    | misfit cause => cases cause <;> rfl
  | internal cause => cases cause <;> rfl
  | _ => rfl

-- ---------------------------------------------------------------- states

/-- Other words for names and statements, in which statements are judged as before. -/
structure Translation (depth : Nat) where
  name : String → String
  expr : Expr → Expr
  expr_not : expr (.not e) = .not (expr e)
  expr_some : expr (.bind .some x e) = .bind .some (name x) (expr e)
  judge : Reading.judge depth (expr e) (v.map expr) = (Reading.judge depth e v).mapError (·.map expr)

/-- What lasts beyond a declaration. -/
structure Books where
  library : Library
  report : Report

def Verification.books (v : Verification) : Books := ⟨v.library, v.report⟩

/-- The books after a check. -/
def Books.dump (b : Books) (d : Dump) : Books := { b with report.dumps := b.report.dumps ++ [d] }

/-- The books after a declaration. -/
def Books.declare (b : Books) (d : Declaration) (admittedAt : Option Nat) (facts : List Expr) : Books where
  library := b.library.declare d
  report := { b.report with
    entries := b.report.entries ++ [⟨d.kind, d.name, d.line, admittedAt, facts⟩] }

/-- The second state is the first one in other words, but for the books, which are related by `L`. -/
structure Abreast (τ : Translation depth) (L : Books → Books → Prop) (v w : Verification) : Prop where
  knowledge : w.knowledge = v.knowledge.map τ.expr
  admittedAt : w.admittedAt = v.admittedAt
  books : L v.books w.books

namespace Verify

/-- From states that are abreast, both runs come to states that are abreast. The second answers what
the first does in other words, or both are rejected. -/
def Tandem (τ : Translation depth) (L : Books → Books → Prop) (φ : α → β) (m : Verify α)
    (n : Verify β) : Prop :=
  ∀ v w, Abreast τ L v w →
    (n.run w).1 = ((m.run v).1.map φ).mapError (·.map τ.name τ.expr) ∧ Abreast τ L (m.run v).2 (n.run w).2

namespace Tandem

variable {τ : Translation depth} {L : Books → Books → Prop}

theorem pure (a : α) : Tandem τ L φ (Pure.pure a) (Pure.pure (φ a)) := fun _ _ h => ⟨rfl, h⟩

theorem throw (cause : Rejection) :
    Tandem τ L φ (MonadExcept.throw cause) (MonadExcept.throw (cause.map τ.name τ.expr)) :=
  fun _ _ h => ⟨rfl, h⟩

theorem bind {m : Verify α} {n : Verify β} {f : α → Verify γ} {g : β → Verify δ}
    (hm : Tandem τ L φ m n) (hf : ∀ a, Tandem τ L ψ (f a) (g (φ a))) :
    Tandem τ L ψ (m >>= f) (n >>= g) := by
  intro v w h
  obtain ⟨hanswer, hstates⟩ := hm v w h
  rw [run_bind, run_bind]
  rcases hrun : m.run v with ⟨cause | a, v'⟩ <;> rcases hrun' : n.run w with ⟨answer, w'⟩ <;>
    rw [hrun, hrun'] at hanswer hstates
  · obtain rfl : answer = .error (cause.map τ.name τ.expr) := hanswer
    exact ⟨rfl, hstates⟩
  · obtain rfl : answer = .ok (φ a) := hanswer
    exact hf a v' w' hstates

theorem get {f g : Verification → Verify α}
    (h : ∀ v w, Abreast τ L v w → Tandem τ L φ (f v) (g w)) :
    Tandem τ L φ (MonadState.get >>= f) (MonadState.get >>= g) :=
  fun v w hvw => h v w hvw v w hvw

theorem forM {as : List α} {f : α → Verify Unit} {g : β → Verify Unit} {θ : α → β}
    (h : ∀ a ∈ as, Tandem τ L id (f a) (g (θ a))) : Tandem τ L id (as.forM f) ((as.map θ).forM g) := by
  induction as with
  | nil => exact pure ()
  | cons a as ih =>
    obtain ⟨ha, has⟩ := List.forall_mem_cons.mp h
    exact ha.bind fun _ => ih has

/-- Inquiries that keep in step with the facts keep in step. -/
theorem inquire {m : Inquiry α} {n : Inquiry β}
    (h : ∀ k, n.run (k.map τ.expr) =
      (((m.run k).1.map φ).mapError (·.map τ.expr), (m.run k).2.map τ.expr)) :
    Tandem τ L φ (inquire m) (inquire n) := by
  intro v w hvw
  have hrun := h v.knowledge
  rw [← hvw.knowledge] at hrun
  constructor
  · show (n.run w.knowledge).1.mapError Rejection.internal =
      (((m.run v.knowledge).1.mapError Rejection.internal).map φ).mapError (·.map τ.name τ.expr)
    rw [hrun]
    cases (m.run v.knowledge).1 <;> rfl
  · exact ⟨congrArg Prod.snd hrun, hvw.admittedAt, hvw.books⟩

theorem enter (tag : String) : Tandem τ L id (enter tag) (enter tag) := by
  refine inquire fun k => ?_
  show (Except.ok (), { k.map τ.expr with facts := (k.facts.map τ.expr).enter tag }) = _
  rw [← Scopes.map_enter]
  rfl

theorem exit (tag : String) : Tandem τ L id (exit tag) (exit tag) := by
  refine inquire fun k => ?_
  have hexit : (k.map τ.expr).facts.exit tag = (k.facts.exit tag).map (·.map τ.expr) := Scopes.exit_map tag
  simp only [Inquiry.exit, Inquiry.run_bind, Inquiry.run_get, hexit]
  cases k.facts.exit tag <;> rfl

theorem assume (e : Expr) : Tandem τ L id (assume e) (assume (τ.expr e)) := by
  refine inquire fun k => ?_
  show (Except.ok (), { k.map τ.expr with facts := (k.facts.map τ.expr).addAll [τ.expr e] }) = _
  rw [← List.map_singleton, ← Scopes.map_addAll]
  rfl

theorem facts : Tandem τ L (List.map τ.expr) facts facts := by
  refine inquire fun k => ?_
  show (Except.ok (k.facts.map τ.expr).items, k.map τ.expr) = _
  rw [Scopes.items_map]
  rfl

theorem judge (e : Expr) :
    Tandem τ L id (Verify.inquire (judge depth e)) (Verify.inquire (judge depth (τ.expr e))) := by
  refine inquire fun k => ?_
  rw [judge_reads, judge_reads, Knowledge.view_map, τ.judge]
  cases Reading.judge depth e k.view <;> rfl

theorem admitAt (line : Nat) : Tandem τ L id (admitAt line) (admitAt line) :=
  fun _ _ h => ⟨rfl, h.knowledge, congrArg (· <|> some line) h.admittedAt, h.books⟩

-- ---------------------------------------------------------------- claims

theorem instantiate {i i' : Instantiation} (line : Nat)
    (h : i'.apply e' = ((i.apply e).map τ.expr).mapError (·.map τ.name τ.expr)) :
    Tandem τ L τ.expr (instantiate line i e) (instantiate line i' e') := by
  unfold Verify.instantiate
  rw [h]
  cases i.apply e with
  | error cause => exact throw (.arity line (.misfit cause))
  | ok d => exact pure d

end Tandem

end Verify

def Sentence.map (s : Sentence) (φ : Expr → Expr) : Sentence := ⟨s.line, φ s.expr⟩

/-- The second theorem says in other words what the first one says, also of the arguments that each of
them is cited with. -/
structure Theorem.Restated (τ : Translation depth) (args args' : List Expr) (t t' : Theorem) : Prop where
  name : t'.name = t.name
  parameters : t'.parameters.length = t.parameters.length
  requirements : t'.requirements = t.requirements.map (·.map τ.expr)
  hypothesis : t'.hypothesis = t.hypothesis.map τ.expr
  instances : ∀ e, (t'.instantiation args').apply (τ.expr e) =
    (((t.instantiation args).apply e).map τ.expr).mapError (·.map τ.name τ.expr)

namespace Verify.Tandem

variable {τ : Translation depth} {L : Books → Books → Prop}

theorem requirement {i i' : Instantiation} (x : String) (line : Nat) (s : Sentence)
    (h : i'.apply (τ.expr s.expr) = ((i.apply s.expr).map τ.expr).mapError (·.map τ.name τ.expr)) :
    Tandem τ L id (requirement depth line x i s) (requirement depth line x i' (s.map τ.expr)) := by
  refine (instantiate line h).bind fun r => (judge r).bind fun t => ?_
  cases t with
  | holds => exact pure ()
  | fails | unknown => exact throw (.precondition x s.line line r)

/-- A theorem and what it is restated as are cited in tandem. -/
theorem citeTheorem {args args' : List Expr} (line : Nat) (hargs : args'.length = args.length)
    (θ : Theorem → Theorem) (hθ : ∀ t, Theorem.Restated τ args args' t (θ t))
    (hfind : ∀ b b', L b b' → b'.library.theorems.find? x = (b.library.theorems.find? x).map θ) :
    Tandem τ L id (citeTheorem depth line x args) (citeTheorem depth line x args') := by
  refine get fun v w h => ?_
  have hw : w.theorems.find? x = (v.theorems.find? x).map θ := hfind _ _ h.books
  rw [hw]
  cases v.theorems.find? x with
  | none => exact throw (.name line (.unknownTheorem x))
  | some t =>
    have ht := hθ t
    have hrest : Tandem τ L id (do
        t.requirements.forM (Verify.requirement depth line t.name (t.instantiation args))
        Verify.assume (← Verify.instantiate line (t.instantiation args) t.hypothesis.expr)) (do
        (θ t).requirements.forM (Verify.requirement depth line t.name ((θ t).instantiation args'))
        Verify.assume (← Verify.instantiate line ((θ t).instantiation args') (θ t).hypothesis.expr)) := by
      rw [ht.requirements, ht.hypothesis]
      refine (forM fun s _ => requirement t.name line s (ht.instances s.expr)).bind fun _ => ?_
      exact (instantiate line (ht.instances _)).bind assume
    dsimp only [Option.map_some]
    rw [ht.parameters, hargs, ht.name]
    split
    · exact (throw (φ := id) (.arity line (.count t.parameters.length args.length t.name))).bind
        fun _ => hrest
    · exact hrest

/-- The rules of a definition, restated, are cited in tandem with the rules. -/
theorem citeDefinition (line : Nat) (δ : Definition → Definition)
    (hδ : ∀ d, (δ d).rules = d.rules.map (·.map τ.expr))
    (hfind : ∀ b b', L b b' →
      b'.library.definitions.find? (τ.name x) = (b.library.definitions.find? x).map δ) :
    Tandem τ L id (citeDefinition line x) (citeDefinition line (τ.name x)) := by
  refine get fun v w h => ?_
  have hw : w.definitions.find? (τ.name x) = (v.definitions.find? x).map δ := hfind _ _ h.books
  rw [hw]
  cases v.definitions.find? x with
  | none => exact throw (.name line (.unknownDefinition x))
  | some d =>
    dsimp only [Option.map_some]
    rw [hδ]
    exact forM fun rule _ => assume rule.expr

theorem claim (line : Nat) (e : Expr) (hadmitted : reason' = some .admitted ↔ reason = some .admitted)
    (hcite : Tandem τ L id (cite depth line reason) (cite depth line reason')) :
    Tandem τ L id (claim depth line e reason) (claim depth line (τ.expr e) reason') := by
  unfold Verify.claim
  simp only [hadmitted]
  split
  · exact admitAt line
  · refine (enter _).bind fun _ => hcite.bind fun _ => (judge e).bind fun t => (exit _).bind fun _ => ?_
    cases t with
    | holds => exact pure ()
    | fails => exact throw (.refuted line e)
    | unknown => exact throw (.unproven line e)

end Verify.Tandem

-- ---------------------------------------------------------------- blocks

namespace Verify

def Outcome.map (o : Outcome) (φ : Expr → Expr) : Outcome := { o with concluded := o.concluded.map φ }

/-- Two blocks are in tandem, and conclude the same in other words. -/
abbrev TandemBlocks (τ : Translation depth) (L : Books → Books → Prop) (m n : Verify Outcome) : Prop :=
  Tandem τ L (Outcome.map · τ.expr) m n

namespace Tandem

variable {τ : Translation depth} {L : Books → Books → Prop}

theorem conclude (e : Expr) {m n : Verify Unit} (h : Tandem τ L id m n) :
    TandemBlocks τ L (do
      m
      Verify.assume e
      return { concluded := [e] }) (do
      n
      Verify.assume (τ.expr e)
      return { concluded := [τ.expr e] }) :=
  h.bind fun _ => (assume e).bind fun _ => pure ({ concluded := [e] } : Outcome)

theorem nil : TandemBlocks τ L (block depth []) (block depth []) := pure ({} : Outcome)

theorem stop : TandemBlocks τ L (return { stopped := true }) (return { stopped := true }) :=
  pure ({ stopped := true } : Outcome)

theorem admitted (n : Nat) : TandemBlocks τ L (step depth (.admitted n)) (step depth (.admitted n)) :=
  (admitAt n).bind fun _ => stop

theorem branch {own own' common common' : Verify Outcome} (hown : TandemBlocks τ L own own')
    (hcommon : TandemBlocks τ L common common') (tag : String) (a : Expr) :
    TandemBlocks τ L (branch tag a own common) (branch tag (τ.expr a) own' common') := by
  have hclose (outcome : Outcome) : TandemBlocks τ L (do
      Verify.exit tag
      return outcome) (do
      Verify.exit tag
      return outcome.map τ.expr) := (exit tag).bind fun _ => pure outcome
  refine (enter tag).bind fun _ => (assume a).bind fun _ => hown.bind fun first => ?_
  -- Other words do not change whether a block is cut short, so both sides go on or neither does.
  show Tandem _ _ _ _ (if first.stopped = true then _ else _)
  split
  · exact hclose first
  · exact hcommon.bind hclose

theorem cases (n : Nat) (c : Expr) (hyes : TandemBlocks τ L (block depth yes) (block depth yes'))
    (hno : TandemBlocks τ L (block depth no) (block depth no'))
    (hboth : TandemBlocks τ L (block depth both) (block depth both')) :
    TandemBlocks τ L (step depth (.cases n c yes no both))
      (step depth (.cases n (τ.expr c) yes' no' both')) := by
  simp only [step]
  rw [← τ.expr_not]
  refine (branch hyes hboth "If" c).bind fun first => ?_
  show Tandem _ _ _ _ (if first.stopped = true then _ else _)
  split
  · exact stop
  refine (branch hno hboth "Else" (.not c)).bind fun second => ?_
  show Tandem _ _ _ _ (if second.stopped = true then _ else _)
  split
  · exact stop
  · exact (forM fun e _ => assume e).bind fun _ => pure second

theorem cons {s s' : Step} {rest rest' : List Step} (hs : TandemBlocks τ L (step depth s) (step depth s'))
    (hrest : TandemBlocks τ L (block depth rest) (block depth rest')) :
    TandemBlocks τ L (block depth (s :: rest)) (block depth (s' :: rest')) := by
  refine hs.bind fun first => ?_
  unfold Outcome.andThen
  show Tandem _ _ _ _ (if first.stopped = true then _ else _)
  split
  · exact pure first
  · refine hrest.bind fun second => ?_
    have hboth : ({ second.map τ.expr with
        concluded := (first.map τ.expr).concluded ++ (second.map τ.expr).concluded } : Outcome) =
        Outcome.map { second with concluded := first.concluded ++ second.concluded } τ.expr := by
      simp [Outcome.map]
    rw [hboth]
    exact pure ({ second with concluded := first.concluded ++ second.concluded } : Outcome)

/-- A check is in tandem with itself where lists of facts, in other words, keep the books related. -/
theorem check (n : Nat) (hdump : ∀ b b' facts, L b b' →
      L (b.dump ⟨n, facts⟩) (b'.dump ⟨n, facts.map τ.expr⟩)) :
    TandemBlocks τ L (step depth (.check n)) (step depth (.check n)) := by
  intro v w h
  have hitems : w.knowledge.facts.items = v.knowledge.facts.items.map τ.expr := by
    rw [h.knowledge]
    exact Scopes.items_map
  refine ⟨rfl, h.knowledge, h.admittedAt, ?_⟩
  show L (v.books.dump ⟨n, v.knowledge.facts.items⟩) (w.books.dump ⟨n, w.knowledge.facts.items⟩)
  rw [hitems]
  exact hdump _ _ _ h.books

-- ---------------------------------------------------------------- declarations

theorem proof {steps steps' : Verify Outcome} {goal goal' : Verify Unit}
    (hsteps : TandemBlocks τ L steps steps') (hgoal : Tandem τ L id goal goal') (tag : String) (assumptions : List Expr) :
    Tandem τ L (List.map τ.expr) (proof tag assumptions steps goal)
      (proof tag (assumptions.map τ.expr) steps' goal') := by
  have hstart : Tandem τ L id (modify fun v => { v with admittedAt := none } : Verify Unit)
      (modify fun v => { v with admittedAt := none } : Verify Unit) :=
    fun _ _ h => ⟨rfl, h.knowledge, rfl, h.books⟩
  have hclose : Tandem τ L (List.map τ.expr) (do
      let facts ← Verify.facts
      Verify.exit tag
      return facts) (do
      let facts ← Verify.facts
      Verify.exit tag
      return facts) := facts.bind fun known => (exit tag).bind fun _ => pure known
  refine hstart.bind fun _ => (enter tag).bind fun _ => (forM fun e _ => assume e).bind fun _ =>
    hsteps.bind fun outcome => ?_
  dsimp only
  show Tandem _ _ _ _ (if outcome.stopped = true then _ else _)
  split
  · exact (pure ()).bind fun _ => hclose
  · exact hgoal.bind fun _ => hclose

theorem existence {d d' : Definition} (hline : d'.line = d.line) (hname : d'.name = τ.name d.name)
    (hgoal : existenceGoal? d' = (existenceGoal? d).map τ.expr) :
    Tandem τ L id (existence depth d) (existence depth d') := by
  unfold Verify.existence
  rw [hgoal, hline, hname]
  cases existenceGoal? d with
  | none => exact pure ()
  | some goal =>
    refine (judge goal).bind fun t => ?_
    cases t with
    | holds => exact pure ()
    | fails | unknown => exact throw (.noInstance d.line d.name goal)

end Tandem

end Verify

/-- What is found under a name and its translation stays so when both maps get a new entry. -/
theorem NameMap.find?_insert_map {m : NameMap α} {m' : NameMap β} {f : String → String} {φ : α → β}
    (h : m'.find? (f y) = (m.find? y).map φ) (hf : f y = f x → y = x) (a : α) :
    (m'.insert (f x) (φ a)).find? (f y) = ((m.insert x a).find? y).map φ := by
  by_cases hy : y = x
  · subst hy
    rw [find?_insert_self, find?_insert_self, Option.map_some]
  · rw [find?_insert_ne _ _ hy, find?_insert_ne _ _ (mt hf hy), h]

namespace Verify.Tandem

variable {τ : Translation depth} {L : Books → Books → Prop}

theorem record {d d' : Declaration} (known : List Expr)
    (hbooks : ∀ b b' admittedAt facts, L b b' →
      L (b.declare d admittedAt facts) (b'.declare d' admittedAt (facts.map τ.expr))) :
    Tandem τ L id (do
      modify (·.declare d)
      record d.kind d.name d.line known) (do
      modify (·.declare d')
      record d'.kind d'.name d'.line (known.map τ.expr)) := by
  have hrun (d : Declaration) (known : List Expr) (v : Verification) :
      (do modify (·.declare d); Verify.record d.kind d.name d.line known : Verify Unit).run v =
        (.ok (), { v with
          theorems := (v.library.declare d).theorems
          definitions := (v.library.declare d).definitions
          admittedAt := none
          report := (v.books.declare d v.admittedAt known).report }) := by
    cases d <;> rfl
  intro v w h
  rw [hrun, hrun, h.admittedAt]
  exact ⟨rfl, h.knowledge, rfl, hbooks _ _ _ _ h.books⟩

/-- Declarations are in tandem if their proofs and goals are, and if the books stay related. -/
theorem declaration {d d' : Declaration} (htag : d'.tag = d.tag)
    (hassumptions : d'.assumptions = d.assumptions.map τ.expr)
    (hproof : TandemBlocks τ L (block depth d.proof) (block depth d'.proof))
    (hgoal : Tandem τ L id (goal depth d) (goal depth d'))
    (hbooks : ∀ b b' admittedAt facts, L b b' →
      L (b.declare d admittedAt facts) (b'.declare d' admittedAt (facts.map τ.expr))) :
    Tandem τ L id (declaration depth d) (declaration depth d') := by
  rw [declaration_eq, declaration_eq, htag, hassumptions]
  exact (proof hproof hgoal d.tag d.assumptions).bind fun known => record known hbooks

end Verify.Tandem

-- ---------------------------------------------------------------- the same words

namespace Translation

/-- Nothing is put in other words. -/
def same (depth : Nat) : Translation depth where
  name := id
  expr := id
  expr_not := rfl
  expr_some := rfl
  judge := by
    intro e v
    have hview : v.map id = v := by simp [View.map]
    rw [hview, id]
    cases Reading.judge depth e v with
    | error fault => cases fault <;> rfl
    | ok t => rfl

/-- A theorem says the same whatever its proof is. -/
theorem restated_proof (t : Theorem) (steps : List Step) (args : List Expr) :
    Theorem.Restated (same depth) args args t { t with proof := steps } where
  name := rfl
  parameters := rfl
  requirements := (List.map_id _).symm
  hypothesis := rfl
  instances e := by
    show (t.instantiation args).apply e = _
    cases (t.instantiation args).apply e with
    | error cause => cases cause <;> rfl
    | ok d => rfl

end Translation

/-- The same declaration with another proof. -/
def Declaration.withProof (d : Declaration) (steps : List Step) : Declaration :=
  match d with
  | ofTheorem t => ofTheorem { t with proof := steps }
  | ofDefinition d => ofDefinition { d with proof := steps }

/-- What a justification cites. -/
def Justification.citation? : Justification → Option (DeclarationKind × String)
  | admitted => none
  | definition x => some (.definition, x)
  | instantiation x _ => some (.proposition, x)

namespace Verify.Tandem

/-- A reason brings in the same on both sides if what it cites says the same there. -/
theorem cite_same {L : Books → Books → Prop} (line : Nat) {θ : Theorem → List Step} {δ : Definition → List Step}
    (htheorem : ∀ x b b', some (.proposition, x) = reason.bind Justification.citation? → L b b' →
      b'.library.theorems.find? x = (b.library.theorems.find? x).map fun t => { t with proof := θ t })
    (hdefinition : ∀ x b b', some (.definition, x) = reason.bind Justification.citation? → L b b' →
      b'.library.definitions.find? x = (b.library.definitions.find? x).map fun d => { d with proof := δ d }) :
    Tandem (.same depth) L id (cite depth line reason) (cite depth line reason) := by
  cases reason with
  | none => exact pure ()
  | some j =>
    cases j with
    | admitted => exact pure ()
    | definition x =>
      exact citeDefinition line (fun d => { d with proof := δ d }) (fun d => (List.map_id _).symm)
        fun b b' => hdefinition x b b' rfl
    | instantiation x args =>
      exact citeTheorem line rfl _ (fun t => Translation.restated_proof t (θ t) args)
        fun b b' => htheorem x b b' rfl

/-- What is to be shown after a proof does not depend on the proof. -/
theorem declaration_same {L : Books → Books → Prop} {d : Declaration} {steps : List Step}
    (hproof : TandemBlocks (.same depth) L (block depth d.proof) (block depth steps))
    (hbooks : ∀ b b' admittedAt facts, L b b' →
      L (b.declare d admittedAt facts) (b'.declare (d.withProof steps) admittedAt facts)) :
    Tandem (.same depth) L id (Verify.declaration depth d) (Verify.declaration depth (d.withProof steps)) := by
  have hbooks : ∀ b b' admittedAt facts, L b b' →
      L (b.declare d admittedAt facts) (b'.declare (d.withProof steps) admittedAt (facts.map id)) := by
    simpa using hbooks
  cases d with
  | ofTheorem t =>
    exact declaration rfl (List.map_id _).symm hproof (claim _ _ Iff.rfl (pure ())) hbooks
  | ofDefinition d =>
    refine declaration rfl rfl hproof (existence rfl rfl ?_) hbooks
    show existenceGoal? d = (existenceGoal? d).map id
    rw [Option.map_id, id]

end Verify.Tandem

/-- Scripts in tandem from empty books on are both verified, or both rejected for the same reason. -/
theorem Script.verify_tandem {settings : Settings} {τ : Translation settings.equalityDepth}
    {L : Books → Books → Prop} {script script' : Script}
    (h : Verify.Tandem τ L id (script.forM (Verify.declaration settings.equalityDepth))
      (script'.forM (Verify.declaration settings.equalityDepth)))
    (hempty : L ⟨{}, {}⟩ ⟨{}, {}⟩) :
    match script.verify settings with
    | .ok report => ∃ report' lib lib', script'.verify settings = .ok report' ∧ L ⟨lib, report⟩ ⟨lib', report'⟩
    | .error cause => script'.verify settings = .error (cause.map τ.name τ.expr) := by
  obtain ⟨hanswer, hstates⟩ := h {} {} ⟨rfl, rfl, hempty⟩
  unfold verify
  rcases hrun : (script.forM (Verify.declaration settings.equalityDepth)).run {} with ⟨cause | _, v⟩ <;>
    rcases hrun' : (script'.forM (Verify.declaration settings.equalityDepth)).run {} with ⟨answer, w⟩ <;>
    rw [hrun, hrun'] at hanswer hstates
  · obtain rfl : answer = .error (cause.map τ.name τ.expr) := hanswer
    rfl
  · obtain rfl : answer = .ok () := hanswer
    exact ⟨w.report, v.library, w.library, rfl, hstates.books⟩

end ProofScript
