import RigExpr.Compiler
import RigExpr.Proofs.Bindings
import RigExpr.Proofs.Calculator
import RigExpr.Proofs.Evaluation.Simulation
import RigExpr.Proofs.Evaluation.Tree
import RigExpr.Proofs.Grammar.Tokens

/-!
# The cache does not show

An application is looked up by its signature, which is written with the names of the
bindings. On literals this is safe: if no name is the text of another value, the
signature determines the application, and what the application came to before is what
it comes to again.

`Compiler.anew` is compilation without the cache, where every application is invoked
anew. As long as it makes no handles, `Compiler.emit` has the same outcome
(`Compiler.emit_eq_anew`). The invariant of the proof is `Remembers`: the value kept
for a signature is what the application with this signature comes to in every state.
-/

namespace RigExpr

/-- A backend, with the operands of all applications so far. -/
structure Traced (β H : Type) where
  backend : β
  operands : List (Value H) := []

namespace Traced

variable {β H ε α : Type}

/-- A computation on the backend alone. -/
def within (a : Action ε β α) : Action ε (Traced β H) α :=
  a.zoom (·.backend) (fun s b => { s with backend := b }) id

/-- Note operands of an application. -/
def note (args : List (Value H)) (s : Traced β H) : Traced β H :=
  { s with operands := s.operands ++ args }

end Traced

namespace Evaluation

variable {β H ε : Type} [Backend β H ε]

/-- The rules without a cache: every application is invoked anew. -/
def Rules.anew : Rules (Traced β H) H where
  identifier := Evaluation.identifier .emit
  apply p operands :=
    match values? operands with
    | none => return none
    | some args => do
      Action.change fun s => { s with backend := s.backend.note args }
      return some (← onBackend (Traced.within (p.invoke args)))
  assign source destination := do
    match source, destination with
    | some source, some destination =>
      onBackend (Traced.within (Primitive.onBackend (Backend.drive source destination)))
    | _, _ => pure ()
    return none

theorem values?_eq_some {operands : List (Slot H)} {args : List (Value H)}
    (h : values? operands = some args) : operands = args.map some := by
  induction operands generalizing args with
  | nil => cases h; rfl
  | cons slot operands ih =>
    cases slot with
    | none => cases h
    | some v =>
      obtain ⟨args', h', rfl⟩ := Option.map_eq_some_iff.1 h
      rw [ih h', List.map_cons]

end Evaluation

/-! ## Applications that can be told apart -/

namespace Evaluation

open Calculator (Name)

/-- An application to literals whose texts are not names of other values. -/
structure Tellable (b : Bindings Name) (p : Primitive) (args : List (Value Name)) : Prop where
  accepts : p.accepts args.length = true
  hasName : p.HasName
  isLiteral : ∀ a ∈ args, a.IsLiteral
  distinct : ∀ a ∈ args, b.Distinct a

/-- The signature determines the application. -/
theorem Tellable.signature_injective {b : Bindings Name} (hb : b.Literal) {p q : Primitive}
    {args args' : List (Value Name)} (h : Tellable b p args) (h' : Tellable b q args')
    (heq : p.signature (args.map b.describe) = q.signature (args'.map b.describe)) :
    p = q ∧ args = args' := by
  have hrender {args : List (Value Name)} (hargs : ∀ a ∈ args, a.IsLiteral) :
      ∀ s ∈ args.map b.describe, Rendering s := by
    intro s hs
    obtain ⟨a, ha, rfl⟩ := List.mem_map.1 hs
    exact hb.rendering_describe (hargs a ha)
  obtain ⟨hpq, hmap⟩ := Primitive.signature_injective (by simpa using h.accepts)
    (by simpa using h'.accepts) h.hasName h'.hasName (hrender h.isLiteral)
    (hrender h'.isLiteral) heq
  refine ⟨hpq, Value.eq_of_map_eq (fun a ha a' ha' => ?_) hmap⟩
  exact hb.describe_injective (h.isLiteral a ha) (h'.isLiteral a' ha') (h.distinct a ha)
    (h'.distinct a' ha')

/-- What is kept for a signature is what the application with this signature comes to,
    whatever the state of the calculator. -/
def Remembers (b : Bindings Name) (cache : Table String (Value Name)) : Prop :=
  ∀ ⦃signature v⦄, cache.get? signature = some v → ∃ p args, Tellable b p args ∧
    signature = p.signature (args.map b.describe) ∧
    ∀ s, ((p.invoke args : Action CompileError Calculator (Value Name)).runOn s).1 = .ok v

theorem remembers_empty (b : Bindings Name) : Remembers b {} := by
  intro signature v h
  cases h

theorem Remembers.insert {b : Bindings Name} {cache : Table String (Value Name)}
    (h : Remembers b cache) {p : Primitive} {args : List (Value Name)} (ht : Tellable b p args)
    {v : Value Name}
    (hv : ∀ s, ((p.invoke args : Action CompileError Calculator (Value Name)).runOn s).1 = .ok v) :
    Remembers b (cache.insert (p.signature (args.map b.describe)) v) := by
  intro signature w hw
  rw [Table.get?_insert] at hw
  split at hw
  · next heq =>
    cases hw
    exact ⟨p, args, ht, heq.symm, hv⟩
  · exact h hw

/-- Where the cache remembers, it remembers the outcome of just this application. -/
theorem Remembers.outcome {b : Bindings Name} (hb : b.Literal) {cache : Table String (Value Name)}
    (h : Remembers b cache) {p : Primitive} {args : List (Value Name)} (ht : Tellable b p args)
    {v : Value Name} (hv : cache.get? (p.signature (args.map b.describe)) = some v)
    (s : Logged Calculator) :
    ((p.invoke args : Action CompileError Calculator (Value Name)).runOn s).1 = .ok v := by
  obtain ⟨q, args', ht', heq, houtcome⟩ := h hv
  obtain ⟨rfl, rfl⟩ := ht.signature_injective hb ht' heq
  exact houtcome s

/-! ## Evaluation with and without the cache -/

/-- The states of an evaluation with the cache and of one without. -/
structure Matched (b : Bindings Name) (made : Nat) (s : Evaluation Calculator Name)
    (t : Evaluation (Traced Calculator Name) Name) : Prop where
  bindings : s.bindings = t.bindings
  values : t.bindings.values = b.values
  names : t.bindings.names = b.names
  remembers : Remembers b s.cache
  made : made ≤ t.backend.backend.made

/-- An evaluation without the cache goes well as long as it makes no handles, and no
    operand has a text that is the name of another value. -/
def cacheless (b : Bindings Name) (made : Nat) :
    Coupling (Evaluation Calculator Name) (Evaluation (Traced Calculator Name) Name) where
  related := Matched b made
  fine t := t.backend.backend.made ≤ made ∧ ∀ v ∈ t.backend.operands, b.Distinct v

variable {b : Bindings Name} {made : Nat}

theorem follows_leave (tokens : List Token) :
    (cacheless b made).Follows True (fun _ => True) (leave tokens) (leave tokens) :=
  .change (fun _ hf => hf) fun _ _ h => ⟨h.bindings, h.values, h.names, h.remembers, h.made⟩

theorem runOn_identifier {β H : Type} (name : String) (s : Logged (Evaluation β H)) :
    (identifier .emit name).runOn s =
      (match s.state.bindings.values.get? name with
        | some v => .ok (some v)
        | none => .error (.invalidIdentifier name),
      { s with state := { s.state with bindings := (s.state.bindings.resolve name).2 } }) := by
  cases h : s.state.bindings.values.get? name <;>
    simp [identifier, Action.runOn_bind, Bindings.resolve, h, Except.map]

theorem follows_identifier (hb : b.Literal) (name : String) :
    (cacheless b made).Follows True (Slot.Holds Value.IsLiteral)
      (identifier .emit name) (identifier .emit name) where
  fine t hf := by
    rw [runOn_identifier] at hf
    exact hf
  keeps _ s t h _ := by
    have h : Matched b made s.state t.state := h
    rw [runOn_identifier, runOn_identifier, h.bindings, h.values]
    refine ⟨rfl, ⟨rfl, (Bindings.values_resolve _ _).trans h.values,
      (Bindings.names_resolve _ _).trans h.names, h.remembers, h.made⟩, fun slot hslot v hv => ?_⟩
    cases hv
    dsimp only at hslot
    split at hslot <;> cases hslot
    next hget => exact hb.isLiteral hget

theorem follows_assign (source destination : Slot Name) :
    (cacheless b made).Follows True (Slot.Holds Value.IsLiteral)
      (assign .emit source destination) (Rules.anew.assign source destination) := by
  cases source with
  | none => exact .pure fun _ => nofun
  | some source =>
    cases destination with
    | none => exact .pure fun _ => nofun
    | some destination =>
      refine ⟨fun _ hf => hf, fun _ s t h _ => ⟨rfl, ?_, ?_⟩⟩
      · exact ⟨h.bindings, h.values, h.names, h.remembers, h.made⟩
      · intro slot hslot
        cases hslot
        nofun

/-- An application without the cache. -/
theorem runOn_anew {p : Primitive} {operands : List (Slot Name)} {args : List (Value Name)}
    (hargs : values? operands = some args)
    (t : Logged (Evaluation (Traced Calculator Name) Name)) :
    (Rules.anew.apply p operands).runOn t =
      (((p.invoke args).runOn ⟨t.state.backend.backend, t.log⟩).1.map some,
        ⟨{ t.state with
            backend :=
              { backend := ((p.invoke args).runOn ⟨t.state.backend.backend, t.log⟩).2.state
                operands := t.state.backend.operands ++ args } },
          ((p.invoke args).runOn ⟨t.state.backend.backend, t.log⟩).2.log⟩) := by
  simp [Rules.anew, hargs, Action.runOn_bind, onBackend, Traced.within, Traced.note]

/-- An application that the cache remembers. -/
theorem runOn_apply_of_some {p : Primitive} {operands : List (Slot Name)}
    {args : List (Value Name)} (hargs : values? operands = some args)
    {s : Logged (Evaluation Calculator Name)} {v : Value Name}
    (hget : s.state.cache.get? (p.signature (args.map s.state.bindings.describe)) = some v) :
    ∃ log, (apply .emit p operands).runOn s = (.ok (some v), ⟨s.state, log⟩) := by
  simp [apply, hargs, hget, Action.runOn_bind, Except.map]

/-- An application that the cache does not remember yet. -/
theorem exists_runOn_apply {p : Primitive} {operands : List (Slot Name)}
    {args : List (Value Name)} (hargs : values? operands = some args)
    {s : Logged (Evaluation Calculator Name)}
    (hget : s.state.cache.get? (p.signature (args.map s.state.bindings.describe)) = none) :
    ∃ log, (apply .emit p operands).runOn s =
      let invoked := (p.invoke args).runOn ⟨s.state.backend, log⟩
      (invoked.1.map some,
        ⟨{ s.state with
            backend := invoked.2.state
            cache :=
              match invoked.1 with
              | .ok v => s.state.cache.insert (p.signature (args.map s.state.bindings.describe)) v
              | .error _ => s.state.cache }, invoked.2.log⟩) := by
  refine ⟨s.log ++ [⟨.debug, "emit " ++ p.label ++ ": " ++
    p.signature (args.map s.state.bindings.describe)⟩], ?_⟩
  simp only [apply, hargs, hget, Action.runOn_bind, Action.runOn_state, Action.runOn_say, onBackend,
    Action.runOn_zoom, Action.mapError_id]
  split
  · next heq =>
    simp only [Prod.mk.injEq] at heq
    simp [← heq.2, heq.1, Except.map]
  · next heq =>
    simp only [Prod.mk.injEq] at heq
    simp [← heq.2, heq.1, Except.map]

/-- An application that settles on an outcome, whatever the state of the calculator. -/
theorem runOn_apply_of_none {p : Primitive} {operands : List (Slot Name)}
    {args : List (Value Name)} (hargs : values? operands = some args)
    {s : Logged (Evaluation Calculator Name)}
    (hget : s.state.cache.get? (p.signature (args.map s.state.bindings.describe)) = none)
    {outcome : Except CompileError (Value Name)}
    (hp : ∀ c : Logged Calculator, ((p.invoke args).runOn c).1 = outcome) :
    ∃ backend log, (apply .emit p operands).runOn s =
      (outcome.map some,
        ⟨{ s.state with
            backend
            cache :=
              match outcome with
              | .ok v => s.state.cache.insert (p.signature (args.map s.state.bindings.describe)) v
              | .error _ => s.state.cache }, log⟩) := by
  obtain ⟨log, hrun⟩ := exists_runOn_apply hargs hget
  simp only [hp] at hrun
  exact ⟨_, _, hrun⟩

/-- An application that settles on an outcome comes to it with the cache too. -/
theorem Matched.apply (hb : b.Literal) {s : Logged (Evaluation Calculator Name)}
    {t : Logged (Evaluation (Traced Calculator Name) Name)} (h : Matched b made s.state t.state)
    {p : Primitive} {operands : List (Slot Name)} {args : List (Value Name)}
    (hargs : values? operands = some args) (ht : Tellable b p args)
    {outcome : Except CompileError (Value Name)}
    (hsettled : ∀ c : Logged Calculator, ((p.invoke args).runOn c).1 = outcome ∧
      ((p.invoke args).runOn c).2.state.made = c.state.made) :
    ((apply .emit p operands).runOn s).1 = outcome.map some ∧
      Matched b made ((apply .emit p operands).runOn s).2.state
        ((Rules.anew.apply p operands).runOn t).2.state := by
  have hdescribe : s.state.bindings.describe = b.describe := by
    funext v
    rw [Bindings.describe, Bindings.describe, h.bindings, h.names]
  have hmade : made ≤ ((p.invoke args).runOn ⟨t.state.backend.backend, t.log⟩).2.state.made :=
    Nat.le_trans h.made (Nat.le_of_eq (hsettled ⟨_, t.log⟩).2.symm)
  rw [runOn_anew hargs]
  cases hget : s.state.cache.get? (p.signature (args.map s.state.bindings.describe)) with
  | some v =>
    -- the cache remembers what the application comes to
    obtain ⟨log, hrun⟩ := runOn_apply_of_some hargs hget
    rw [hdescribe] at hget
    have houtcome := h.remembers.outcome hb ht hget ⟨s.state.backend, s.log⟩
    rw [(hsettled _).1] at houtcome
    rw [hrun, houtcome]
    exact ⟨rfl, h.bindings, h.values, h.names, h.remembers, hmade⟩
  | none =>
    -- the cache remembers it from now on
    obtain ⟨backend, log, hrun⟩ := runOn_apply_of_none hargs hget fun c => (hsettled c).1
    rw [hrun]
    refine ⟨rfl, h.bindings, h.values, h.names, ?_, hmade⟩
    cases outcome with
    | error e => exact h.remembers
    | ok v =>
      dsimp only
      rw [hdescribe]
      exact h.remembers.insert ht fun c => (hsettled c).1

theorem follows_apply (hb : b.Literal) (p : Primitive) (operands : List (Slot Name)) :
    (cacheless b made).Follows
      (p.accepts operands.length = true ∧ p.HasName ∧
        ∀ slot ∈ operands, Slot.Holds Value.IsLiteral slot)
      (Slot.Holds Value.IsLiteral) (apply .emit p operands) (Rules.anew.apply p operands) := by
  cases hargs : values? operands with
  | none =>
    have hnone : (apply .emit p operands : Step Calculator Name (Slot Name)) = pure none := by
      simp only [apply, hargs]
    have hnone' : (Rules.anew.apply p operands : Step (Traced Calculator Name) Name _) =
        pure none := by
      simp only [Rules.anew, hargs]
    rw [hnone, hnone']
    exact .pure fun _ => nofun
  | some args =>
    refine ⟨fun t hf => ?_, fun hpre s t h hf => ?_⟩
    · rw [runOn_anew hargs] at hf
      exact ⟨Nat.le_trans ((Calculator.steady_invoke p args).grows ⟨_, t.log⟩) hf.1,
        fun v hv => hf.2 v (List.mem_append_left _ hv)⟩
    · have h : Matched b made s.state t.state := h
      rw [runOn_anew hargs] at hf
      obtain ⟨haccepts, hname, hoperands⟩ := hpre
      rw [values?_eq_some hargs] at haccepts hoperands
      have hliteral : ∀ a ∈ args, a.IsLiteral := fun a ha =>
        hoperands (some a) (List.mem_map.2 ⟨a, ha, rfl⟩) a rfl
      have ht : Tellable b p args := ⟨by simpa using haccepts, hname, hliteral,
        fun a ha => hf.2 a (List.mem_append_right _ ha)⟩
      rcases (Calculator.steady_invoke p args).settles hliteral with
        ⟨outcome, hresult, hsettled⟩ | hmakes
      · obtain ⟨houtcome, hmatched⟩ := h.apply hb hargs ht hsettled
        have hanew : ((Rules.anew.apply p operands).runOn t).1 = outcome.map some := by
          rw [runOn_anew hargs, (hsettled _).1]
        refine ⟨houtcome.trans hanew.symm, hmatched, fun slot hslot v hv => ?_⟩
        rw [hanew] at hslot
        cases outcome with
        | error e => cases hslot
        | ok w =>
          cases hslot
          cases hv
          exact hresult _ rfl
      · -- then the evaluation without the cache makes a handle
        exact absurd (Nat.lt_of_lt_of_le (hmakes ⟨_, t.log⟩) hf.1) (Nat.not_lt.2 h.made)

theorem follow (hb : b.Literal) :
    Rules.Follow (cacheless b made) Value.IsLiteral (.ofMode .emit) .anew where
  leave := follows_leave
  scalar _ := trivial
  bool _ := trivial
  order _ := trivial
  identifier := follows_identifier hb
  apply := follows_apply hb
  assign := follows_assign

end Evaluation

namespace Compiler

variable {β H ε : Type} [ToString H] [Backend β H ε]

/-- Evaluate an expression in post-order, with every application invoked anew. -/
def runAnew (tokens : List Token) : Run (Traced β H) H (Slot H) := do
  match ← onEvaluation (Evaluation.Recursive.evaluate .anew tokens) with
  | some v =>
    some <$> onEvaluation (Evaluation.onBackend (Traced.within
      (Primitive.onBackend (Backend.conclude v))))
  | none => return none

/-- The value of a source, with every application invoked anew. -/
def emitAnew (source : String) (bindings : List (String × Value H)) :
    Run (Traced β H) H (Slot H) := do
  reset bindings
  runAnew (← prepare source)

/-- What a source comes to with every application invoked anew, and what that leaves: the
    backend, and the operands of all applications. -/
def anew (c : Compiler β H) (source : String) (bindings : List (String × Value H)) :
    Except CompileError (Slot H) × Traced β H :=
  let (outcome, left) := (emitAnew source bindings).runOn
    { state :=
        { config := c.config
          evaluation := { backend := { backend := c.evaluation.backend } } } }
  (outcome, left.state.evaluation.backend)

/-! ## Compilation with and without the cache -/

open Calculator (Name)

/-- The states of compilations with the cache and without. -/
def cacheless (b : Bindings Name) (made : Nat) :
    Coupling (Compiler Calculator Name) (Compiler (Traced Calculator Name) Name) where
  related s t := s.config = t.config ∧ Evaluation.Matched b made s.evaluation t.evaluation
  fine t := (Evaluation.cacheless b made).fine t.evaluation

variable {b : Bindings Name} {made : Nat}

theorem follows_onEvaluation {α : Type} {pre : Prop} {post : α → Prop}
    {x : Evaluation.Step Calculator Name α} {y : Evaluation.Step (Traced Calculator Name) Name α}
    (h : (Evaluation.cacheless b made).Follows pre post x y) :
    (cacheless b made).Follows pre post (onEvaluation x) (onEvaluation y) where
  fine t hf := h.fine ⟨t.state.evaluation, t.log⟩ hf
  keeps hp s t hst hf := by
    have hkeeps := h.keeps hp ⟨s.state.evaluation, s.log⟩ ⟨t.state.evaluation, t.log⟩ hst.2 hf
    simp only [onEvaluation, Action.runOn_zoom, Action.mapError_id]
    exact ⟨hkeeps.1, ⟨hst.1, hkeeps.2.1⟩, hkeeps.2.2⟩

/-- Preparing a source writes to the log, and nothing else changes. -/
theorem runOn_prepare {β H : Type} (source : String) (s : Logged (Compiler β H)) :
    ∃ log, (prepare source).runOn s =
      (match Statement.parse s.state.config.maxDepth source with
        | .ok statement => .ok (Token.foldNegation statement.tokens)
        | .error e => .error (.source e),
      ⟨s.state, log⟩) := by
  cases h : Statement.parse s.state.config.maxDepth source with
  | ok statement => simp [prepare, h, Action.runOn_bind, Except.map]
  | error e => exact ⟨s.log, by simp [prepare, h, Action.runOn_bind]⟩

/-- The components in a source go by words. -/
theorem isNamed_of_parse {limit : Nat} {source : String} {statement : Statement}
    (h : Statement.parse limit source = .ok statement) :
    ∀ t ∈ Token.foldNegation statement.tokens, t.IsNamed := by
  intro t ht
  cases t with
  | component which =>
    have ht := Token.mem_foldNegation (fun _ h => by cases h) ht
    exact (Statement.isWritten_of_mem_tokens h ht nofun).hasName
  | _ => trivial

theorem follows_prepare (source : String) :
    (cacheless b made).Follows True (fun tokens => ∀ t ∈ tokens, t.IsNamed)
      (prepare source) (prepare source) where
  fine t hf := by
    obtain ⟨log, hrun⟩ := runOn_prepare source t
    rwa [hrun] at hf
  keeps _ s t hst _ := by
    obtain ⟨log, hrun⟩ := runOn_prepare source s
    obtain ⟨log', hrun'⟩ := runOn_prepare source t
    rw [hrun, hrun', hst.1]
    refine ⟨rfl, hst, fun tokens htokens => ?_⟩
    dsimp only at htokens
    split at htokens <;> cases htokens
    next hparse => exact isNamed_of_parse hparse

/-- The warning about tokens that are left goes to the log, and nothing else changes. -/
theorem exists_runOn_warning {β H α : Type} (k : Run β H α) (s : Logged (Compiler β H)) :
    ∃ log, (do
      let left := (← Action.state).evaluation.left
      unless left.isEmpty do
        Action.say .warn
          (toString left.length ++ " token(s) left unconsumed: " ++ Token.streamText left.reverse)
      k : Run β H α).runOn s = k.runOn ⟨s.state, log⟩ := by
  by_cases hleft : s.state.evaluation.left = []
  · exact ⟨s.log, by simp [Action.runOn_bind, hleft]⟩
  · exact ⟨_, by simp [Action.runOn_bind, hleft]; rfl⟩

theorem follows_run (hb : b.Literal) (tokens : List Token) :
    (cacheless b made).Follows (∀ t ∈ tokens, t.IsNamed) (fun _ => True)
      (run .emit tokens) (runAnew tokens) := by
  have hevaluate : (Evaluation.evaluate .emit tokens : Evaluation.Step Calculator Name _) =
      Evaluation.Recursive.evaluate (.ofMode .emit) tokens := by
    rw [Evaluation.evaluate, Evaluation.Recursive.evaluate, Evaluation.resolve_eq_operand]
  rw [run, hevaluate, runAnew]
  refine (follows_onEvaluation ((Evaluation.follow hb).evaluate tokens)).bind fun slot => ?_
  refine Coupling.Follows.quiet ?_ (exists_runOn_warning _)
  -- the calculator concludes with the value as it is
  cases slot with
  | none => exact .pure fun _ => trivial
  | some v => exact ⟨fun _ hf => hf, fun _ s t hst _ => ⟨rfl, hst, fun _ _ => trivial⟩⟩

/-- On literals whose texts are not names of other values, compilation with the cache
    comes to the same value or the same error as compilation without it, if the latter
    makes no handles. -/
theorem emit_eq_anew (c : Compiler Calculator Name) (source : String)
    (bindings : List (String × Value Name))
    (hb : ∀ p ∈ bindings, Lexeme.IsWord p.1 ∧ p.2.IsLiteral)
    (hmade : (c.anew source bindings).2.backend.made = c.evaluation.backend.made)
    (hdistinct : ∀ v ∈ (c.anew source bindings).2.operands,
      (Bindings.empty.register bindings).Distinct v) (log : List Line) :
    ((emit source bindings).runOn ⟨c, log⟩).1 = (c.anew source bindings).1 := by
  have hfollows : (cacheless (Bindings.empty.register bindings) c.evaluation.backend.made).Follows
      True (fun _ => True) (prepare source >>= run .emit) (prepare source >>= runAnew) :=
    (follows_prepare source).bind fun tokens =>
      (follows_run (Bindings.literal_register hb) tokens).weaken And.right fun _ _ h => h
  -- both start with the bindings alone, and the cache has nothing to remember yet
  let s : Compiler Calculator Name :=
    { config := c.config
      evaluation :=
        { backend := c.evaluation.backend, bindings := Bindings.empty.register bindings } }
  let t : Compiler (Traced Calculator Name) Name :=
    { config := c.config
      evaluation :=
        { backend := { backend := c.evaluation.backend }
          bindings := Bindings.empty.register bindings } }
  have hst : (cacheless (Bindings.empty.register bindings) c.evaluation.backend.made).related s t :=
    ⟨rfl, rfl, rfl, rfl, Evaluation.remembers_empty _, Nat.le_refl _⟩
  have hfine : (cacheless (Bindings.empty.register bindings) c.evaluation.backend.made).fine
      ((prepare source >>= runAnew).runOn ⟨t, []⟩).2.state :=
    ⟨Nat.le_of_eq hmade, hdistinct⟩
  exact (hfollows.keeps trivial ⟨s, log ++ [⟨.debug, "emit: " ++ source⟩]⟩ ⟨t, []⟩ hst hfine).1

/-- In `a*a-b*b` with equal values for both names, the second product is found in the
    cache under the name of the first, and the outcome is the right one. -/
theorem emit_eq_anew_shared :
    let c : Compiler Calculator Name := { evaluation := { backend := {} } }
    let bindings : List (String × Value Name) := [("a", .scalar 2), ("b", .scalar 2)]
    (∀ p ∈ bindings, Lexeme.IsWord p.1 ∧ p.2.IsLiteral) ∧
      (c.anew "a*a-b*b" bindings).2.backend.made = c.evaluation.backend.made ∧
      (∀ v ∈ (c.anew "a*a-b*b" bindings).2.operands,
        (Bindings.empty.register bindings).Distinct v) ∧
      ((emit "a*a-b*b" bindings).runOn ⟨c, []⟩).1 = .ok (some (.scalar (2 * 2 - 2 * 2))) := by
  intro c bindings
  have hb : ∀ p ∈ bindings, Lexeme.IsWord p.1 ∧ p.2.IsLiteral := by
    intro p hp
    simp only [bindings, List.mem_cons, List.not_mem_nil, or_false] at hp
    rcases hp with rfl | rfl
    · exact ⟨⟨'a', [], rfl, by decide, nofun⟩, trivial⟩
    · exact ⟨⟨'b', [], rfl, by decide, nofun⟩, trivial⟩
  have hscan : Lexeme.scan "a*a-b*b" = .ok
      [⟨.word "a", ⟨0, 1⟩⟩, ⟨.symbol .star, ⟨1, 2⟩⟩, ⟨.word "a", ⟨2, 3⟩⟩, ⟨.symbol .minus, ⟨3, 4⟩⟩,
        ⟨.word "b", ⟨4, 5⟩⟩, ⟨.symbol .star, ⟨5, 6⟩⟩, ⟨.word "b", ⟨6, 7⟩⟩] := by
    rw [Lexeme.scan_eq_scanWithin]
    rfl
  let e : Expr := .binary .subtract (.binary .multiply (.identifier "a") (.identifier "a"))
    (.binary .multiply (.identifier "b") (.identifier "b"))
  let t : Compiler (Traced Calculator Name) Name :=
    { evaluation := { backend := { backend := {} }, bindings := Bindings.empty.register bindings } }
  have hparse : Statement.parse t.config.maxDepth "a*a-b*b" = .ok ⟨none, e⟩ := by
    rw [Statement.parse_eq hscan]
    rfl
  obtain ⟨log, hprepare⟩ := runOn_prepare "a*a-b*b" ⟨t, []⟩
  rw [hparse] at hprepare
  have hrun : (emitAnew "a*a-b*b" bindings).runOn
      ⟨{ evaluation := { backend := { backend := {} } } }, []⟩ =
        (runAnew e.tokens).runOn ⟨t, log⟩ :=
    Action.runOn_bind_of_ok hprepare _
  rw [runAnew, Expr.evaluate_tokens] at hrun
  simp only [e, Expr.evaluate] at hrun
  have hanew : (c.anew "a*a-b*b" bindings).1 = .ok (some (.scalar (2 * 2 - 2 * 2))) ∧
      (c.anew "a*a-b*b" bindings).2.backend.made = 0 ∧
      (c.anew "a*a-b*b" bindings).2.operands =
        [.scalar 2, .scalar 2, .scalar 2, .scalar 2, .scalar (2 * 2), .scalar (2 * 2)] := by
    simp only [anew, c, hrun]
    exact ⟨rfl, rfl, rfl⟩
  obtain ⟨hvalue, hmade, hoperands⟩ := hanew
  have hdistinct : ∀ v ∈ (c.anew "a*a-b*b" bindings).2.operands,
      (Bindings.empty.register bindings).Distinct v := by
    intro v hv name u hu htext
    -- the names start with a letter that no number starts with
    have hname : name = "a" ∨ name = "b" :=
      Bindings.forall_register (P := fun name _ => name = "a" ∨ name = "b")
        (fun _ _ h => by cases h) (by simp [bindings]) hu
    obtain ⟨x, rfl⟩ : ∃ x, v = .scalar x := by
      simp only [hoperands, List.mem_cons, List.not_mem_nil, or_false] at hv
      rcases hv with rfl | rfl | rfl | rfl | rfl | rfl <;> exact ⟨_, rfl⟩
    obtain ⟨c, cs, hcs, hc⟩ := Number.exists_cons_text x
    have hcs : name.toList = c :: cs := by rw [htext]; exact hcs
    rcases hname with rfl | rfl
    all_goals
      obtain ⟨rfl, -⟩ := List.cons.inj hcs
      exact absurd hc (by decide)
  exact ⟨hb, hmade, hdistinct,
    (emit_eq_anew c "a*a-b*b" bindings hb hmade hdistinct []).trans hvalue⟩

end Compiler

end RigExpr
