import RigExpr.Proofs.Compiler.Validation

/-!
# Emission

What becomes of an accepted source when it is emitted, by the evaluation of its expression: an
expression has a value, and the backend takes note of it (`Compiler.emit_expression_cases`); an
assignment looks up its destination first, and has the backend drive it by the value last
(`Compiler.emit_assignment_cases`). An error of the evaluation is the error of the emission.
-/

namespace RigExpr

variable {β H ε : Type} [ToString H] [Backend β H ε]

namespace Evaluation

/-- An expression that is emitted has a value, unless it fails. -/
theorem exists_value_of_emit {e : Expr} {rest : List Token} {s s' : Logged (Evaluation β H)}
    {slot : Slot H} (h : (e.evaluate (.ofMode .emit) rest).runOn s = (.ok slot, s')) :
    ∃ v, slot = some v := by
  have hdetects := e.detects (detect_emit (β := β) s.state.bindings.values) [] rest
  obtain ⟨-, hslot, -⟩ := hdetects.ok s slot s' rfl h
  exact Option.isSome_iff_exists.1 hslot

/-- The evaluation after a name was looked up. -/
def looked (s : Evaluation β H) (name : String) : Evaluation β H :=
  { s with bindings := (s.bindings.resolve name).2 }

variable {s : Logged (Evaluation β H)} {name : String}

/-- An assignment to a name that is not bound fails before anything is evaluated. -/
theorem runOn_assignment_of_none (e : Expr) (h : s.state.bindings.values.get? name = none) :
    ((Statement.mk (some name) e).evaluate (.ofMode .emit)).runOn s =
      (.error (.invalidIdentifier name),
        ⟨{ s.state.looked name with left := e.tokens.reverse }, s.log⟩) := by
  have hidentifier := runOn_identifier name ⟨{ s.state with left := e.tokens.reverse }, s.log⟩
  simp only [h] at hidentifier
  exact Action.runOn_bind_of_error hidentifier _

/-- An assignment to a name that is bound. -/
theorem runOn_assignment_of_some (e : Expr) {destination : Value H}
    (h : s.state.bindings.values.get? name = some destination) :
    ((Statement.mk (some name) e).evaluate (.ofMode .emit)).runOn s =
      (do
        let source ← e.evaluate (.ofMode .emit) []
        assign .emit source (some destination) : Step β H (Slot H)).runOn
          ⟨s.state.looked name, s.log⟩ := by
  have hidentifier := runOn_identifier name ⟨{ s.state with left := e.tokens.reverse }, s.log⟩
  simp only [h] at hidentifier
  -- the expression sets the tokens left once more
  rw [← Expr.leave_evaluate_bind e.tokens.reverse]
  exact Action.runOn_bind_of_ok hidentifier _

end Evaluation

namespace Compiler

variable {c : Compiler β H} {source name : String} {e : Expr}

theorem runOn_onEvaluation {β H α : Type} {a : Evaluation.Step β H α}
    {s : Logged (Compiler β H)} {outcome : Except CompileError α} {t : Logged (Evaluation β H)}
    (h : a.runOn ⟨s.state.evaluation, s.log⟩ = (outcome, t)) :
    (onEvaluation a).runOn s = (outcome, ⟨{ s.state with evaluation := t.state }, t.log⟩) := by
  rw [onEvaluation, Action.runOn_zoom, h, Action.mapError_id]

/-- A source that is not accepted fails, and nothing is evaluated. -/
theorem exists_runOn_emit_of_error {err : ParseError}
    (h : Statement.parse c.config.maxDepth source = .error err)
    (bindings : List (String × Value H)) (log : List Line) :
    ∃ log', (emit source bindings).runOn ⟨c, log⟩ =
      (.error (.source err), ⟨c.primed bindings, log'⟩) :=
  ⟨_, Action.runOn_bind_of_error (runOn_prepare_of_error (s := ⟨c.primed bindings, _⟩) h) _⟩

/-- An accepted source is evaluated as the statement that it is, and all its tokens are
    taken. -/
theorem exists_runOn_emit_evaluate {statement : Statement}
    (h : Statement.parse c.config.maxDepth source = .ok statement)
    (bindings : List (String × Value H)) (log : List Line) :
    ∃ log', (emit source bindings).runOn ⟨c, log⟩ =
      (onEvaluation (statement.folded.evaluate (.ofMode .emit)) >>= conclude .emit).runOn
        ⟨c.primed bindings, log'⟩ := by
  obtain ⟨log', hemit⟩ := exists_runOn_emit h bindings log
  refine ⟨log', hemit.trans ?_⟩
  have hdetects := statement.detects
    (Evaluation.detect_emit (β := β) (Bindings.empty.register bindings).values) []
  rw [← statement.folded.evaluate_tokens, statement.tokens_folded]
  rcases hrun : (Evaluation.Recursive.evaluate (.ofMode .emit)
    (Token.foldNegation statement.tokens)).runOn
      ⟨(c.primed bindings).evaluation, log'⟩ with ⟨err | value, s⟩
  · rw [runOn_run_of_error (s := ⟨c.primed bindings, log'⟩) hrun,
      Action.runOn_bind_of_error (runOn_onEvaluation hrun)]
  · obtain ⟨-, -, -, hleft⟩ := hdetects.ok _ value s rfl hrun
    rw [runOn_run_of_ok (s := ⟨c.primed bindings, log'⟩) hrun hleft,
      Action.runOn_bind_of_ok (runOn_onEvaluation hrun)]

/-- The emission of an expression: it fails as the evaluation does, or the backend takes note of
    the value. -/
theorem emit_expression_cases (h : Statement.parse c.config.maxDepth source = .ok ⟨none, e⟩)
    (bindings : List (String × Value H)) (log : List Line) :
    ∃ log',
      (∃ err s, (e.folded.evaluate (.ofMode .emit) []).runOn
          ⟨(c.primed bindings).evaluation, log'⟩ = (.error err, s) ∧
        (emit source bindings).runOn ⟨c, log⟩ =
          (.error err, ⟨{ c with evaluation := s.state }, s.log⟩)) ∨
      ∃ v s, (e.folded.evaluate (.ofMode .emit) []).runOn
          ⟨(c.primed bindings).evaluation, log'⟩ = (.ok (some v), s) ∧
        (emit source bindings).runOn ⟨c, log⟩ =
          (conclude .emit (some v)).runOn ⟨{ c with evaluation := s.state }, s.log⟩ := by
  obtain ⟨log', hemit⟩ := exists_runOn_emit_evaluate h bindings log
  refine ⟨log', ?_⟩
  rcases hrun : (e.folded.evaluate (.ofMode .emit) []).runOn
    ⟨(c.primed bindings).evaluation, log'⟩ with ⟨err | slot, s⟩
  · exact .inl ⟨err, s, rfl, hemit.trans
      (Action.runOn_bind_of_error (runOn_onEvaluation hrun) _)⟩
  · obtain ⟨v, rfl⟩ := Evaluation.exists_value_of_emit hrun
    exact .inr ⟨v, s, rfl, hemit.trans (Action.runOn_bind_of_ok (runOn_onEvaluation hrun) _)⟩

/-- An assignment to a name that is not bound fails, and the backend does nothing. -/
theorem exists_runOn_emit_of_unbound
    (h : Statement.parse c.config.maxDepth source = .ok ⟨some name, e⟩)
    (bindings : List (String × Value H))
    (hname : (Bindings.empty.register bindings).values.get? name = none) (log : List Line) :
    ∃ s, (emit source bindings).runOn ⟨c, log⟩ = (.error (.invalidIdentifier name), s) ∧
      s.state.evaluation.backend = c.evaluation.backend := by
  obtain ⟨log', hemit⟩ := exists_runOn_emit_evaluate h bindings log
  have hrun := Evaluation.runOn_assignment_of_none
    (s := ⟨(c.primed bindings).evaluation, log'⟩) e.folded hname
  exact ⟨_, hemit.trans (Action.runOn_bind_of_error (runOn_onEvaluation hrun) _), rfl⟩

/-- The emission of an assignment to a name that is bound: it fails as the evaluation of the
    source does, or the backend drives the destination by the value of the source. -/
theorem emit_assignment_cases
    (h : Statement.parse c.config.maxDepth source = .ok ⟨some name, e⟩)
    (bindings : List (String × Value H)) {destination : Value H}
    (hname : (Bindings.empty.register bindings).values.get? name = some destination)
    (log : List Line) :
    ∃ log',
      (∃ err s, (e.folded.evaluate (.ofMode .emit) []).runOn
          ⟨(c.primed bindings).evaluation.looked name, log'⟩ = (.error err, s) ∧
        (emit source bindings).runOn ⟨c, log⟩ =
          (.error err, ⟨{ c with evaluation := s.state }, s.log⟩)) ∨
      ∃ v s log'', (e.folded.evaluate (.ofMode .emit) []).runOn
          ⟨(c.primed bindings).evaluation.looked name, log'⟩ = (.ok (some v), s) ∧
        let driven := (Backend.drive v destination).runOn ⟨s.state.backend, log''⟩
        (emit source bindings).runOn ⟨c, log⟩ =
          ((driven.1.map fun _ => none).mapError fun r => .refused (Backend.explain β r),
            ⟨{ c with evaluation := { s.state with backend := driven.2.state } },
              driven.2.log⟩) := by
  obtain ⟨log', hemit⟩ := exists_runOn_emit_evaluate h bindings log
  have hassign := Evaluation.runOn_assignment_of_some
    (s := ⟨(c.primed bindings).evaluation, log'⟩) e.folded hname
  refine ⟨log', ?_⟩
  rcases hrun : (e.folded.evaluate (.ofMode .emit) []).runOn
    ⟨(c.primed bindings).evaluation.looked name, log'⟩ with ⟨err | slot, s⟩
  · rw [Action.runOn_bind_of_error hrun] at hassign
    exact .inl ⟨err, s, rfl, hemit.trans
      (Action.runOn_bind_of_error (runOn_onEvaluation hassign) _)⟩
  · obtain ⟨v, rfl⟩ := Evaluation.exists_value_of_emit hrun
    rw [Action.runOn_bind_of_ok hrun] at hassign
    -- the assignment is announced, and then carried out
    let log'' := s.log ++ [⟨.debug, "equal(" ++ v.text ++ ", " ++ destination.text ++ ")"⟩]
    refine .inr ⟨v, s, log'', rfl, hemit.trans ?_⟩
    rcases hdrive : (Backend.drive v destination).runOn ⟨s.state.backend, log''⟩ with ⟨r | done, t⟩
    · have hrefused : (Evaluation.onBackend (Primitive.onBackend
          (Backend.drive v destination))).runOn ⟨s.state, log''⟩ =
            (.error (.refused (Backend.explain β r)),
              ⟨{ s.state with backend := t.state }, t.log⟩) := by
        simp [Evaluation.onBackend, Primitive.onBackend, hdrive, Except.mapError]
      have hfails := hassign.trans (Action.runOn_bind_of_error hrefused _)
      exact Action.runOn_bind_of_error
        (runOn_onEvaluation (s := ⟨c.primed bindings, log'⟩) hfails) _
    · have hdriven : (Evaluation.onBackend (Primitive.onBackend
          (Backend.drive v destination))).runOn ⟨s.state, log''⟩ =
            (.ok done, ⟨{ s.state with backend := t.state }, t.log⟩) := by
        simp [Evaluation.onBackend, Primitive.onBackend, hdrive, Except.mapError]
      have hends := hassign.trans (Action.runOn_bind_of_ok hdriven _)
      exact Action.runOn_bind_of_ok
        (runOn_onEvaluation (s := ⟨c.primed bindings, log'⟩)
          (hends.trans (Action.runOn_pure _ _))) _

end Compiler

end RigExpr
