import RigExpr.Proofs.Compiler.Validation
import RigExpr.Proofs.Evaluation.Cache
import RigExpr.Proofs.Evaluation.Growth

/-!
# What a compilation keeps up

An evaluation never applies a primitive to too few or too many operands, on no stream of tokens:
a frame knows how many it waits for (`Frame.Fits`). So no operation lacks operands, and none reads
a component that no token asks for. What a backend keeps up as long as this is so
(`Backend.Upholds`) is kept up

* by every primitive on operands in its number (`Backend.Upholds.invoke`),
* by every evaluation, whether it succeeds or fails (`Evaluation.grows_evaluate`),
* by every compilation (`Compiler.grows_emit`, `Compiler.grows_compile`).
-/

namespace RigExpr

variable {β H ε : Type}

/-- What is kept up of the backend, as a fact about the evaluation. -/
abbrev Upkeep.onEvaluation (k : Upkeep β) : Upkeep (Evaluation β H) :=
  k.along fun s : Evaluation β H => s.backend

/-- What is kept up of the backend, as a fact about the compiler. -/
abbrev Upkeep.onCompiler (k : Upkeep β) : Upkeep (Compiler β H) :=
  k.along fun c : Compiler β H => c.evaluation.backend

/-- Whatever is asked of the backend, it is kept up; an operation that lacks operands apart, or one
    that reads a component to which there is no `access`. A source only asks for components to
    which there is. -/
structure Backend.Upholds [Backend β H ε] (access : Component → Prop) (k : Upkeep β) : Prop where
  written : ∀ which, (Token.component which).IsWritten → access which
  perform : ∀ op : Operation H, op.IsFull → op.Accesses access →
    k.Grows (perform op : Action ε β (Value H))
  drive : ∀ source destination : Value H,
    k.Grows (drive source destination : Action ε β Unit)
  conclude : ∀ v : Value H, k.Grows (conclude v : Action ε β (Value H))

/-- The primitive reads no component but these. -/
def Primitive.Accesses (access : Component → Prop) (p : Primitive) : Prop :=
  ∀ which, p = .component which → access which

/-- The tokens ask for no component but these. -/
def Token.Access (access : Component → Prop) (tokens : List Token) : Prop :=
  ∀ which, Token.component which ∈ tokens → access which

variable {access : Component → Prop}

/-- A primitive on as many operands as it takes. -/
theorem Backend.Upholds.invoke [Backend β H ε] {k : Upkeep β} (h : Upholds access k)
    {p : Primitive} (hp : p.Accesses access) {args : List (Value H)}
    (hargs : p.accepts args.length = true) :
    k.Grows (p.invoke args : Action CompileError β (Value H)) :=
  grows_of_does (fun op hop => h.perform op (hop.full hargs) (hop.access.mono hp))
    (p.does_invoke args)

/-- The components of a source are those that may be read. -/
theorem Backend.Upholds.access_of_parse [Backend β H ε] {k : Upkeep β} (h : Upholds access k)
    {limit : Nat} {source : String} {statement : Statement}
    (hparse : Statement.parse limit source = .ok statement) :
    Token.Access access (Token.foldNegation statement.tokens) := by
  intro which hwhich
  have hmem := Token.mem_foldNegation (fun _ h => by cases h) hwhich
  exact h.written which (Statement.isWritten_of_mem_tokens hparse hmem fun _ h => by cases h)

/-! ## Frames -/

/-- As many operands as the primitive takes are there or waited for, and it reads no component but
    these. -/
def Frame.Fits (access : Component → Prop) : Frame H → Prop
  | collect p missing operands =>
    p.accepts (missing + 1 + operands.length) = true ∧ p.Accesses access
  | _ => True

/-- There are as many operands as the primitive takes, and it reads no component but these. -/
def Completion.Fits (access : Component → Prop) : Completion H → Prop
  | apply p operands => p.accepts operands.length = true ∧ p.Accesses access
  | _ => True

theorem Frame.Fits.feed {frame : Frame H} (h : frame.Fits access) (value : Slot H) :
    match frame.feed value with
    | .inl fed => fed.Fits access
    | .inr completion => completion.Fits access := by
  cases frame with
  | collect p missing operands =>
    cases missing with
    | zero =>
      exact ⟨(Nat.add_comm 1 operands.length ▸ h.1 : p.accepts (operands.length + 1) = true), h.2⟩
    | succ missing =>
      rw [Fits, Nat.add_right_comm, Nat.add_assoc] at h
      exact h
  | first => exact ⟨rfl, by rintro _ ⟨⟩⟩
  | _ => trivial

namespace Evaluation

variable [Backend β H ε] {k : Upkeep β}

/-- A token that waits for operands waits for as many as it takes. -/
theorem grows_start {α : Type} {mode : Mode} {token : Token} {f : Frame H ⊕ Slot H → Step β H α}
    (htoken : ∀ which, token = .component which → access which)
    (hframe : ∀ frame : Frame H, frame.Fits access → k.onEvaluation.Grows (f (.inl frame)))
    (hvalue : ∀ value, k.onEvaluation.Grows (f (.inr value))) :
    k.onEvaluation.Grows (start mode token >>= f) := by
  have hthrow (e : CompileError) : k.onEvaluation.Grows (throw e >>= f : Step β H α) :=
    fun s => k.refl s.state.backend
  cases token with
  | call name arity =>
    rw [start]
    split
    · exact hthrow _
    · next g _ =>
      split
      · next harity =>
        refine hframe (.collect (.call g) (arity - 1) []) ⟨?_, by rintro _ ⟨⟩⟩
        have hpos : arity ≠ 0 := by
          rintro rfl
          rw [g.accepts_zero] at harity
          cases harity
        rwa [List.length_nil, Nat.add_zero, Nat.sub_one_add_one hpos]
      · exact hthrow _
  | list arity =>
    rw [start]
    split
    · next harity =>
      refine hframe (.collect .list (arity - 1) []) ⟨?_, by rintro _ ⟨⟩⟩
      rw [List.length_nil, Nat.add_zero, Nat.sub_one_add_one (by omega)]
      simpa [Primitive.accepts] using harity
    · exact hthrow _
  | negate | not | binary => exact hframe (.collect _ _ []) ⟨rfl, by rintro _ ⟨⟩⟩
  | component which =>
    refine hframe (.collect _ _ []) ⟨rfl, fun which' h => ?_⟩
    exact htoken which' (by rw [Primitive.component.inj h])
  | ternary => exact hframe .otherwise trivial
  | alternative => exact hframe .forward trivial
  | assign => exact hframe .destination trivial
  | constant | rotateOrder => exact hvalue _
  | identifier name =>
    rw [start, bind_assoc]
    exact .bind (grows_identifier k mode name) fun value => hvalue value
  | comparison => exact hthrow _
  | number text =>
    rw [start]
    split
    · exact hvalue _
    · exact hthrow _

variable [ToString H] (h : Backend.Upholds access k)

include h

theorem grows_complete {mode : Mode} {completion : Completion H} (hfits : completion.Fits access) :
    k.onEvaluation.Grows (complete mode completion : Step β H (Slot H)) := by
  cases completion with
  | apply p operands =>
    refine grows_apply_of_invoke fun args hargs => h.invoke hfits.2 ?_
    rw [Completion.Fits, values?_eq_some hargs, List.length_map] at hfits
    exact hfits.1
  | forward value => exact .pure _
  | assign source destination =>
    rw [complete, assign.eq_def]
    dsimp only
    split
    · refine .bind (.say _ _) fun _ => ?_
      exact .bind (grows_onBackend (.onBackend (h.drive _ _))) fun _ => .pure _
    · exact .pure _

/-- A value goes to frames that fit, and what they leave are frames that fit. -/
theorem grows_resume {mode : Mode} {tokens : List Token} {frames : List (Frame H)}
    {value : Slot H} (hframes : ∀ frame ∈ frames, frame.Fits access)
    (ih : ∀ left : List (Frame H), (∀ frame ∈ left, frame.Fits access) →
      k.onEvaluation.Grows (resolve mode left tokens : Step β H (Slot H))) :
    k.onEvaluation.Grows (resume mode frames value tokens : Step β H (Slot H)) := by
  induction frames generalizing value with
  | nil =>
    rw [resume_nil]
    exact .pure _
  | cons frame outer ihframes =>
    obtain ⟨hframe, houter⟩ := List.forall_mem_cons.1 hframes
    have hfed := hframe.feed value
    cases hfeed : frame.feed value with
    | inl fed =>
      rw [hfeed] at hfed
      rw [resume_wait frame hfeed]
      exact ih _ (List.forall_mem_cons.2 ⟨hfed, houter⟩)
    | inr completion =>
      rw [hfeed] at hfed
      rw [resume_complete frame hfeed]
      exact .bind (grows_complete h hfed) fun value => ihframes houter

theorem grows_resolve {mode : Mode} {frames : List (Frame H)} {tokens : List Token}
    (htokens : Token.Access access tokens) (hframes : ∀ frame ∈ frames, frame.Fits access) :
    k.onEvaluation.Grows (resolve mode frames tokens : Step β H (Slot H)) := by
  have hleave (tokens : List Token) : k.onEvaluation.Grows (leave tokens : Step β H Unit) :=
    .change fun s => k.refl s.backend
  induction tokens generalizing frames with
  | nil =>
    unfold resolve
    split <;> exact .throw _
  | cons token rest ih =>
    have htoken : ∀ which, token = .component which → access which := fun which h =>
      htokens which (h ▸ List.mem_cons_self)
    have hrest : Token.Access access rest := fun which h =>
      htokens which (List.mem_cons_of_mem _ h)
    by_cases hawaits : AwaitsOperand frames
    · rw [resolve_cons hawaits]
      refine .bind (hleave rest) fun _ => grows_start htoken (fun frame hframe => ?_)
        fun value => ?_
      · exact ih hrest (List.forall_mem_cons.2 ⟨hframe, hframes⟩)
      · exact grows_resume h hframes fun left hleft => ih hrest hleft
    · obtain ⟨ifTrue, ifFalse, outer, rfl⟩ := exists_test_of_not_awaitsOperand hawaits
      unfold resolve
      cases token with
      | comparison test =>
        refine .bind (hleave rest) fun _ => ih hrest (List.forall_mem_cons.2 ⟨trivial, ?_⟩)
        exact (List.forall_mem_cons.1 hframes).2
      | _ => exact .bind (hleave rest) fun _ => .throw _

/-- What the backend keeps up, an evaluation keeps up, on every stream of tokens that asks for no
    other components. -/
theorem grows_evaluate (mode : Mode) {tokens : List Token} (htokens : Token.Access access tokens) :
    k.onEvaluation.Grows (evaluate mode tokens : Step β H (Slot H)) :=
  .bind (.change fun s => k.refl s.backend) fun _ =>
    grows_resolve h (fun which hwhich => htokens which (List.mem_reverse.1 hwhich))
      fun _ hframe => absurd hframe List.not_mem_nil

end Evaluation

/-! ## Compilations -/

namespace Compiler

variable {k : Upkeep β}

theorem grows_onEvaluation {α : Type} {a : Evaluation.Step β H α} (h : k.onEvaluation.Grows a) :
    k.onCompiler.Grows (onEvaluation a) :=
  .zoom h fun _ _ hgrows => hgrows

/-- A step of the backend, between compilations or at their end. -/
theorem grows_onBackend [Backend β H ε] {α : Type} {a : Action ε β α} (h : k.Grows a) :
    k.onCompiler.Grows (onEvaluation (Evaluation.onBackend (Primitive.onBackend a)) : Run β H α) :=
  grows_onEvaluation (Evaluation.grows_onBackend (.onBackend h))

theorem grows_product (mode : Mode) (value : Slot H) :
    k.onCompiler.Grows (product mode value : Run β H (Product H)) := by
  cases mode with
  | emit => exact .pure _
  | validate => exact .state fun _ => .pure _

variable [Backend β H ε] (h : Backend.Upholds access k)

include h

/-- What comes after a source is prepared finds tokens that ask for no other components. -/
theorem grows_prepare {α : Type} (source : String) {f : List Token → Run β H α}
    (hf : ∀ tokens, Token.Access access tokens → k.onCompiler.Grows (f tokens)) :
    k.onCompiler.Grows (prepare source >>= f) := by
  intro s
  obtain ⟨log, hrun⟩ := runOn_prepare source s
  cases hparse : Statement.parse s.state.config.maxDepth source with
  | error e =>
    rw [hparse] at hrun
    rw [Action.runOn_bind_of_error hrun]
    exact k.refl s.state.evaluation.backend
  | ok statement =>
    rw [hparse] at hrun
    rw [Action.runOn_bind_of_ok hrun]
    exact hf _ (h.access_of_parse hparse) ⟨s.state, log⟩

variable [ToString H]

theorem grows_run (mode : Mode) {tokens : List Token} (htokens : Token.Access access tokens) :
    k.onCompiler.Grows (run mode tokens : Run β H (Slot H)) := by
  unfold run
  refine .bind (grows_onEvaluation (Evaluation.grows_evaluate h mode htokens)) fun value => ?_
  have hconclude : k.onCompiler.Grows (conclude mode value : Run β H (Slot H)) := by
    unfold conclude
    split
    · exact .map (grows_onBackend (h.conclude _)) _
    · exact .pure _
  refine .state fun c => ?_
  dsimp only
  split
  · exact hconclude
  · exact .bind (.say _ _) fun _ => hconclude

theorem grows_emit (source : String) (names : List (String × Value H)) :
    k.onCompiler.Grows (emit source names : Run β H (Slot H)) :=
  .bind (.change fun c => k.refl c.evaluation.backend) fun _ => .bind (.say _ _) fun _ =>
    grows_prepare h source fun _ htokens => grows_run h .emit htokens

theorem grows_compile (mode : Mode) (source : String) (names : List (String × Value H)) :
    k.onCompiler.Grows (compile mode source names : Run β H (Product H)) :=
  .bind (.change fun c => k.refl c.evaluation.backend) fun _ => .state fun _ =>
    .bind (.say _ _) fun _ => grows_prepare h source fun _ htokens =>
      .bind (grows_run h mode htokens) fun value => grows_product mode value

theorem grows_compileTokens (mode : Mode) {tokens : List Token}
    (htokens : Token.Access access tokens) (names : List (String × Value H)) :
    k.onCompiler.Grows (compileTokens mode tokens names : Run β H (Product H)) :=
  .bind (.change fun c => k.refl c.evaluation.backend) fun _ => .bind (.say _ _) fun _ =>
    .bind (grows_run h mode htokens) fun value => grows_product mode value

end Compiler

end RigExpr
