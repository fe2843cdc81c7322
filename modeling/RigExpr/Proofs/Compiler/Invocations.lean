import RigExpr.Proofs.Compiler.Report
import RigExpr.Proofs.Evaluation.Emissions

/-!
# The invocations of a compilation

A compilation of a source or of tokens evaluates them once, with an empty cache. `Job.record` is
the compilation with a record of all applications in this evaluation. Without the record it is
the compilation itself, and the record shows that the cache does what it is for: no signature is
invoked twice, and what is found in the cache is what the one invocation came to. On a quiet
backend the log tells the same.

* `Job.run_eq`: what all compilations have in common.
* `Compiler.invocations_of_job`: the applications of a compilation.
-/

namespace RigExpr

namespace Compiler

variable {β H ε : Type}

/-- What a compiler can be asked for. -/
inductive Job
  | compile (mode : Mode) (source : String)
  | compileTokens (mode : Mode) (tokens : List Token)
  | emit (source : String)
  | validate (source : String)

namespace Job

/-- The mode that the job is done in. -/
def mode : Job → Mode
  | compile mode _ => mode
  | compileTokens mode _ => mode
  | emit _ => .emit
  | validate _ => .validate

/-- The tokens to evaluate. -/
def tokens : Job → Run β H (List Token)
  | compile mode source => do
    let count := (← Action.state).evaluation.bindings.size
    Action.say .debug
      ("compile (" ++ mode.text ++ ", " ++ toString count ++ " binding(s)): " ++ source)
    prepare source
  | compileTokens mode tokens => do
    Action.say .debug ("compile stream (" ++ mode.text ++ "): " ++ Token.streamText tokens)
    return tokens
  | emit source => do
    Action.say .debug ("emit: " ++ source)
    prepare source
  | validate source => do
    Action.say .debug ("validate: " ++ source)
    prepare source

variable [ToString H] [Backend β H ε]

/-- Do the job. -/
def run (job : Job) (bindings : List (String × Value H)) : Run β H (Product H) :=
  match job with
  | compile mode source => Compiler.compile mode source bindings
  | compileTokens mode tokens => Compiler.compileTokens mode tokens bindings
  | emit source => .value <$> Compiler.emit source bindings
  | validate source => .report <$> Compiler.validate source bindings

/-- Each job starts afresh, evaluates its tokens and returns what its mode asks for. -/
theorem run_eq (job : Job) (bindings : List (String × Value H)) :
    (job.run bindings : Run β H (Product H)) = (do
      reset bindings
      let tokens ← job.tokens
      product job.mode (← Compiler.run job.mode tokens)) := by
  cases job with
  | compile mode source => simp [run, tokens, Compiler.compile, Job.mode]
  | compileTokens mode tokens => simp [run, Job.tokens, Compiler.compileTokens, Job.mode]
  | emit source => simp [run, tokens, Compiler.emit, Job.mode, product]
  | validate source => simp [run, tokens, Compiler.validate, Job.mode, product]

end Job

/-! ## Compilation with a record -/

/-- The compiler without the record. -/
def plain (c : Compiler (Recorded β H) H) : Compiler β H where
  config := c.config
  evaluation := c.evaluation.plain

/-- The compiler with an empty record. -/
def recording (c : Compiler β H) : Compiler (Recorded β H) H where
  config := c.config
  evaluation :=
    { backend := { backend := c.evaluation.backend }
      bindings := c.evaluation.bindings
      cache := c.evaluation.cache
      left := c.evaluation.left }

section Record

variable [ToString H] [Backend β H ε]

/-- What is left to do with the value of all tokens, which applies nothing. -/
def concludeWithin (mode : Mode) (value : Slot H) : Run (Recorded β H) H (Slot H) :=
  match mode, value with
  | .emit, some v =>
    some <$> onEvaluation
      (Evaluation.onBackend (Recorded.within (Primitive.onBackend (Backend.conclude v))))
  | _, value => return value

/-- Evaluate an expression in post-order, with a record of applications. -/
def record (mode : Mode) (tokens : List Token) : Run (Recorded β H) H (Slot H) := do
  let value ← onEvaluation (Evaluation.Recursive.evaluate (.recorded mode) tokens)
  let left := (← Action.state).evaluation.left
  unless left.isEmpty do
    Action.say .warn
      (toString left.length ++ " token(s) left unconsumed: " ++ Token.streamText left.reverse)
  concludeWithin mode value

/-- What a job does once it has started afresh, with a record of applications. -/
def Job.recordAfterReset (job : Job) : Run (Recorded β H) H (Product H) := do
  let tokens ← job.tokens
  product job.mode (← Compiler.record job.mode tokens)

/-- Do the job, with a record of applications. -/
def Job.record (job : Job) (bindings : List (String × Value H)) :
    Run (Recorded β H) H (Product H) := do
  reset bindings
  job.recordAfterReset

end Record

/-! ## The record does not show -/

theorem seenAs_onEvaluation {α : Type} {a : Evaluation.Step (Recorded β H) H α}
    {b : Evaluation.Step β H α} (h : a.SeenAs Evaluation.plain b) :
    (onEvaluation a).SeenAs plain (onEvaluation b) :=
  .zoom h (fun _ => rfl) fun _ _ => rfl

theorem seenAs_prepare (source : String) :
    (prepare source : Run (Recorded β H) H (List Token)).SeenAs plain (prepare source) := by
  refine .state fun c => ?_
  dsimp only [plain]
  cases Statement.parse c.config.maxDepth source with
  | error e => exact .throw _
  | ok statement => exact .bind (.say _ _) fun _ => .bind (.say _ _) fun _ => .pure _

theorem seenAs_tokens (job : Job) :
    (job.tokens : Run (Recorded β H) H (List Token)).SeenAs plain job.tokens := by
  cases job with
  | compile mode source => exact .state fun c => .bind (.say _ _) fun _ => seenAs_prepare source
  | compileTokens mode tokens => exact .bind (.say _ _) fun _ => .pure _
  | emit source => exact .bind (.say _ _) fun _ => seenAs_prepare source
  | validate source => exact .bind (.say _ _) fun _ => seenAs_prepare source

theorem seenAs_product (mode : Mode) (value : Slot H) :
    (product mode value : Run (Recorded β H) H (Product H)).SeenAs plain (product mode value) := by
  cases mode with
  | emit => exact .pure _
  | validate => exact .state fun c => .pure _

variable [ToString H] [Backend β H ε]

omit [ToString H] in
theorem seenAs_conclude (mode : Mode) (value : Slot H) :
    (concludeWithin mode value : Run (Recorded β H) H (Slot H)).SeenAs plain
      (conclude mode value) := by
  match mode, value with
  | .emit, some v =>
    exact .map (seenAs_onEvaluation (Evaluation.seenAs_onBackend (Recorded.seenAs_within _))) _
  | .emit, none | .validate, _ => exact .pure _

theorem seenAs_record (mode : Mode) (tokens : List Token) :
    (record mode tokens : Run (Recorded β H) H (Slot H)).SeenAs plain (run mode tokens) := by
  have hevaluate := seenAs_onEvaluation (Evaluation.seenAs_evaluate (β := β) (H := H) mode tokens)
  refine .bind hevaluate fun value => .state fun c => ?_
  dsimp only [plain, Evaluation.plain]
  split
  · exact seenAs_conclude mode value
  · exact .bind (.say _ _) fun _ => seenAs_conclude mode value

/-- Without the record, a job with a record is the job. -/
theorem Job.seenAs_record (job : Job) (bindings : List (String × Value H)) :
    (job.record bindings : Run (Recorded β H) H (Product H)).SeenAs plain (job.run bindings) := by
  rw [run_eq]
  refine .bind (.change fun _ => by rfl) fun _ => .bind (seenAs_tokens job) fun tokens => ?_
  exact .bind (Compiler.seenAs_record job.mode tokens) fun value => seenAs_product job.mode value

/-! ## The cache and the record -/

section Ledger

variable {β H : Type}

/-- The cache, and the applications so far. -/
def ledger (c : Compiler (Recorded β H) H) : Table String (Value H) × List (Application H) :=
  c.evaluation.ledger

theorem Job.leaves_tokens {ρ : Type} (part : Compiler β H → ρ) (job : Job) :
    (job.tokens : Run β H (List Token)).Leaves part := by
  cases job with
  | compile mode source =>
    exact .bind .state fun c => .bind (.say _ _) fun _ => leaves_prepare part source
  | compileTokens mode tokens => exact .bind (.say _ _) fun _ => .pure _
  | emit source => exact .bind (.say _ _) fun _ => leaves_prepare part source
  | validate source => exact .bind (.say _ _) fun _ => leaves_prepare part source

theorem leaves_product {ρ : Type} (part : Compiler β H → ρ) (mode : Mode) (value : Slot H) :
    (product mode value : Run β H (Product H)).Leaves part := by
  cases mode with
  | emit => exact .pure _
  | validate => exact .bind .state fun c => .pure _

end Ledger

omit [ToString H] in
theorem leaves_conclude (mode : Mode) (value : Slot H) :
    (concludeWithin mode value : Run (Recorded β H) H (Slot H)).Leaves ledger := by
  match mode, value with
  | .emit, some v =>
    exact .map (.zoom (Evaluation.leaves_within _) (fun _ => rfl) fun _ _ => rfl) _
  | .emit, none | .validate, _ => exact .pure _

/-- What follows the evaluation of the tokens applies nothing. -/
theorem books_record (mode : Mode) (tokens : List Token) :
    Books ledger (record mode tokens : Run (Recorded β H) H (Slot H)) := by
  refine .bind (.zoom (Evaluation.books_evaluate mode tokens) (fun _ => rfl) fun _ _ => rfl)
    fun value => .of_leaves (.bind .state fun c => ?_)
  dsimp only
  split
  · exact leaves_conclude mode value
  · exact .bind (.say _ _) fun _ => leaves_conclude mode value

theorem leaves_record_validate (tokens : List Token) :
    (record .validate tokens : Run (Recorded β H) H (Slot H)).Leaves ledger := by
  refine .bind (.zoom (Evaluation.leaves_evaluate_validate tokens) (fun _ => rfl) fun _ _ => rfl)
    fun value => .bind .state fun c => ?_
  dsimp only
  split
  · exact .pure _
  · exact .bind (.say _ _) fun _ => .pure _

namespace Job

/-- The cache and the record are empty when the tokens are evaluated. -/
theorem exists_runOn_record (job : Job) (bindings : List (String × Value H))
    {c : Compiler (Recorded β H) H} (hc : c.evaluation.backend.history = []) (log : List Line) :
    ∃ c', ledger c' = ({}, []) ∧
      (job.record bindings).runOn ⟨c, log⟩ = job.recordAfterReset.runOn ⟨c', log⟩ := by
  refine ⟨_, ?_, Action.runOn_bind_of_ok (Action.runOn_change _ _) _⟩
  -- to start afresh empties the cache, and leaves the record as it is
  exact Prod.ext rfl hc

theorem ended_record (job : Job) (bindings : List (String × Value H))
    {c : Compiler (Recorded β H) H} (hc : c.evaluation.backend.history = []) (log : List Line) :
    let after := ((job.record bindings).runOn ⟨c, log⟩).2.state
    Ended after.evaluation.cache after.evaluation.backend.history := by
  obtain ⟨c', hledger, hrun⟩ := job.exists_runOn_record bindings hc log
  have hbooks : Books ledger (job.recordAfterReset : Run (Recorded β H) H (Product H)) :=
    .bind (.of_leaves (job.leaves_tokens _)) fun tokens => .bind (books_record job.mode tokens)
      fun value => .of_leaves (leaves_product _ job.mode value)
  rw [hrun]
  exact (hbooks c' (by rw [hledger]; exact .nil) log).1

theorem ledger_record_validate {job : Job} (hmode : job.mode = .validate)
    (bindings : List (String × Value H)) {c : Compiler (Recorded β H) H}
    (hc : c.evaluation.backend.history = []) (log : List Line) :
    ledger ((job.record bindings).runOn ⟨c, log⟩).2.state = ({}, []) := by
  obtain ⟨c', hledger, hrun⟩ := job.exists_runOn_record bindings hc log
  have hleaves : (job.recordAfterReset : Run (Recorded β H) H (Product H)).Leaves ledger := by
    rw [recordAfterReset, hmode]
    exact .bind (job.leaves_tokens _) fun tokens => .bind (leaves_record_validate tokens)
      fun value => leaves_product _ .validate value
  rw [hrun, hleaves, hledger]

end Job

/-! ## The log and the record -/

section Quiet

variable {β H : Type}

theorem quiet_prepare (source : String) : (prepare source : Run β H (List Token)).Quiet := by
  refine .bind .state fun c => ?_
  dsimp only
  split
  · exact .throw _
  · exact .bind (.say (Line.isEmission_of_level (by decide) _)) fun _ =>
      .bind (.say (Line.isEmission_of_level (by decide) _)) fun _ => .pure _

theorem Job.quiet_tokens (job : Job) : (job.tokens : Run β H (List Token)).Quiet := by
  cases job with
  | compile mode source =>
    refine .bind .state fun c => .bind (.say ?_) fun _ => quiet_prepare source
    simp only [String.append_assoc]
    exact Line.isEmission_append (by decide) (by decide) _ _
  | compileTokens mode tokens =>
    refine .bind (.say ?_) fun _ => .pure _
    simp only [String.append_assoc]
    exact Line.isEmission_append (by decide) (by decide) _ _
  | emit source | validate source =>
    refine .bind (.say ?_) fun _ => quiet_prepare source
    exact Line.isEmission_append (by decide) (by decide) _ _

theorem quiet_product (mode : Mode) (value : Slot H) :
    (product mode value : Run β H (Product H)).Quiet := by
  cases mode with
  | emit => exact .pure _
  | validate => exact .bind .state fun c => .pure _

end Quiet

omit [ToString H] in
theorem quiet_conclude (hquiet : Backend.Quiet β) (mode : Mode) (value : Slot H) :
    (concludeWithin mode value : Run (Recorded β H) H (Slot H)).Quiet := by
  match mode, value with
  | .emit, some v => exact .map (.zoom (.zoom (.zoom (.zoom (hquiet.conclude v))))) _
  | .emit, none | .validate, _ => exact .pure _

theorem announces_record (hquiet : Backend.Quiet β) (mode : Mode) (tokens : List Token) :
    Announces (·.evaluation.backend.history)
      (record mode tokens : Run (Recorded β H) H (Slot H)) := by
  -- what is done with the value is not an application, and no line says that it is
  have hconclude (value : Slot H) : Announces (·.evaluation.backend.history)
      (concludeWithin mode value : Run (Recorded β H) H (Slot H)) :=
    .of_quiet (fun s => congrArg Prod.snd (leaves_conclude mode value s))
      (quiet_conclude hquiet mode value)
  refine .bind (.zoom (Evaluation.announces_evaluate hquiet mode tokens) (fun _ => rfl)
    fun _ _ => rfl) fun value => .bind (.of_quiet .state .state) fun c => ?_
  dsimp only
  split
  · exact hconclude value
  · exact .bind (.of_quiet (.say _ _) (.say (Line.isEmission_of_level (by decide) _))) fun _ =>
      hconclude value

theorem Job.announces_record (hquiet : Backend.Quiet β) (job : Job)
    (bindings : List (String × Value H)) :
    Announces (·.evaluation.backend.history)
      (job.record bindings : Run (Recorded β H) H (Product H)) := by
  refine .bind (.of_quiet (.change fun _ => by rfl) (.change _)) fun _ => ?_
  refine .bind (.of_quiet (job.leaves_tokens _) job.quiet_tokens) fun tokens => ?_
  refine .bind (Compiler.announces_record hquiet job.mode tokens) fun value => ?_
  exact .of_quiet (leaves_product _ job.mode value) (quiet_product job.mode value)

/-! ## Jobs -/

/-- Whatever a compiler is asked for, what it does about applications is what the record says.
    An application is invoked if and only if it is the first with its signature, and so no
    signature is invoked twice, nor is a line of the log written twice for it. Applications with
    the same signature have the same value, and the cache has an entry for each invocation that
    succeeded. Validation applies nothing. On a quiet backend, the emissions in the log are the
    lines of the invocations. -/
theorem invocations_of_job (job : Job) (bindings : List (String × Value H)) (c : Compiler β H)
    (log : List Line) :
    let recorded := (job.record bindings).runOn ⟨c.recording, log⟩
    let after := (job.run bindings).runOn ⟨c, log⟩
    let history := recorded.2.state.evaluation.backend.history
    let invocations := history.filter (·.invoked)
    after = (recorded.1, ⟨recorded.2.state.plain, recorded.2.log⟩) ∧
    (∀ before a, before ++ [a] <+: history →
      (a.invoked = true ↔ ∀ b ∈ before, b.signature ≠ a.signature)) ∧
    (invocations.map (·.signature)).Nodup ∧
    (invocations.map (·.line)).Nodup ∧
    (history.Pairwise fun a b =>
      a.signature = b.signature → ∃ v, a.outcome = .ok v ∧ b.outcome = .ok v) ∧
    after.2.state.cacheSize = (invocations.filter (·.outcome.isOk)).length ∧
    (job.mode = .validate → history = [] ∧ after.2.state.cacheSize = 0) ∧
    (Backend.Quiet β → ∃ lines, after.2.log = log ++ lines ∧
      lines.filter (·.isEmission) = invocations.map (·.line)) := by
  intro recorded after history invocations
  have hafter : after = (recorded.1, ⟨recorded.2.state.plain, recorded.2.log⟩) :=
    job.seenAs_record bindings ⟨c.recording, log⟩
  have hended : Ended recorded.2.state.evaluation.cache history :=
    job.ended_record bindings (c := c.recording) rfl log
  have hlines : (invocations.map (·.line)).Nodup := by
    -- distinct signatures have distinct lines, whatever the primitives
    refine List.pairwise_map.2 ((List.pairwise_map.1 hended.invokedFirst.nodup).imp ?_)
    exact fun hne hline => hne (Application.signature_eq_of_line_eq hline)
  refine ⟨hafter, hended.invokedFirst, hended.invokedFirst.nodup, hlines, hended.pairwise, ?_, ?_,
    fun hquiet => ?_⟩
  · rw [hafter]
    exact hended.size
  · intro hmode
    have hledger := Job.ledger_record_validate hmode bindings (c := c.recording) rfl log
    rw [hafter]
    exact ⟨congrArg Prod.snd hledger, congrArg (·.1.size) hledger⟩
  · -- the record was empty at first, and so has the announced applications and no others
    obtain ⟨applications, lines, hhistory, hlog, hemissions⟩ :=
      job.announces_record hquiet bindings ⟨c.recording, log⟩
    rw [hafter]
    refine ⟨lines, hlog, ?_⟩
    rw [hemissions]
    exact congrArg (fun history : List (Application H) =>
      (history.filter (·.invoked)).map (·.line)) hhistory.symm

/-- Two names with the same value: of three applications with two signatures, two are invoked.
    The log tells so, and a validation afterwards leaves nothing in the cache. -/
theorem invocations_of_job_shared :
    let c : Compiler Calculator Calculator.Name := { evaluation := { backend := {} } }
    let bindings : List (String × Value Calculator.Name) := [("a", .scalar 2), ("b", .scalar 2)]
    let after := ((Job.emit "a*a-b*b").run bindings).runOn ⟨c, []⟩
    let checked := ((Job.validate "a*a-b*b").run bindings).runOn after.2
    after.2.state.cacheSize = 2 ∧
      (after.2.log.filter (·.isEmission)).map (·.text) = ["emit *: b * b", "emit -: 4 - 4"] ∧
      (after.2.log.filter (·.isEmission)).Nodup ∧
      checked.2.state.cacheSize = 0 := by
  intro c bindings after checked
  obtain ⟨-, -, -, hlines, -, -, -, hlog⟩ := invocations_of_job (.emit "a*a-b*b") bindings c []
  obtain ⟨lines, hafter, hemissions⟩ := hlog Calculator.quiet
  obtain ⟨-, -, -, -, -, -, hvalidate, -⟩ :=
    invocations_of_job (.validate "a*a-b*b") bindings after.2.state after.2.log
  refine ⟨by decide +kernel, by decide +kernel, ?_, (hvalidate rfl).2⟩
  rw [show after.2.log = lines from hafter, hemissions]
  exact hlines

end Compiler

end RigExpr
