import RigExpr.Proofs.Compiler.Emission
import RigExpr.Proofs.Evaluation.Arithmetic
import RigExpr.Proofs.Grammar.Places
import RigExpr.Proofs.Graph.Rig

/-!
# Calculator and graph agree on arithmetic

An arithmetic source comes to a number on the calculator while it is compiled. Compiled into
a graph, it drives an output, and it is the evaluation of the graph that computes the
number. The two are the same (`Compiler.result_eq_emit`), if the calculator has not divided
by zero: what both compute is the signal of the expression (`Compiler.signal_of_emit`).
-/

namespace RigExpr

theorem Expr.isArithmetic_folded {e : Expr} (h : ∀ t ∈ e.tokens, t.isArithmetic = true) :
    ∀ t ∈ e.folded.tokens, t.isArithmetic = true := by
  intro t ht
  cases t with
  | number text => rfl
  | _ =>
    rw [Expr.tokens_folded] at ht
    exact h _ (Token.mem_foldNegation (by simp) ht)

/-- A token of an arithmetic expression has a signal, and reads no name. -/
theorem Token.isPlain_of_isArithmetic {t : Token} (h : t.isArithmetic = true)
    (names : String → Prop) : t.IsPlain names := by
  cases t with
  | call name arity =>
    intro f hf
    have hf : f.isArithmetic = true := by simpa [isArithmetic, hf] using h
    exact f.isPlain_of_isArithmetic hf
  | identifier | component | rotateOrder => cases h
  | _ => trivial

namespace Compiler

open Calculator (Name Proper)

variable {c : Compiler Calculator Name} {source : String} {e : Expr} {log : List Line}
  {slot : Slot Name} {s : Logged (Compiler Calculator Name)}

/-- A source that has a value is evaluated as the expression that it is. -/
theorem exists_evaluate_of_emit (hparse : Statement.parse c.config.maxDepth source = .ok ⟨none, e⟩)
    (hemit : (emit source []).runOn ⟨c, log⟩ = (.ok slot, s)) :
    ∃ log' s', (e.folded.evaluate (.ofMode .emit) []).runOn ⟨(c.primed []).evaluation, log'⟩ =
      (.ok slot, s') ∧ s.state.evaluation.backend = s'.state.backend := by
  obtain ⟨log', ⟨err, s', -, hrun⟩ | ⟨v, s', hevaluate, hrun⟩⟩ :=
    emit_expression_cases hparse [] log
  · cases hemit.symm.trans hrun
  · -- the calculator hands on the value as it is
    cases hemit.symm.trans hrun
    exact ⟨log', s', hevaluate, rfl⟩

/-- What an arithmetic source comes to on the calculator is its signal. -/
theorem signal_of_emit {v : Float}
    (hparse : Statement.parse c.config.maxDepth source = .ok ⟨none, e⟩)
    (harith : ∀ t ∈ e.tokens, t.isArithmetic = true)
    (hemit : (emit source []).runOn ⟨c, log⟩ = (.ok (some (.scalar v)), s))
    (hproper : Proper (s.state.evaluation.backend.calls.drop c.evaluation.backend.calls.length))
    (env : String → Option Signal) : e.signal env = .float v := by
  obtain ⟨log', s', hevaluate, hbackend⟩ := exists_evaluate_of_emit hparse hemit
  obtain ⟨new, hnew, htold⟩ :=
    e.folded.tells env (Expr.isArithmetic_folded harith) [] True _ _ _ hevaluate
  -- the divisions to look at are those of this source
  have hcalls : s.state.evaluation.backend.calls = c.evaluation.backend.calls ++ new := by
    rw [hbackend]
    exact hnew
  rw [hcalls, List.drop_left] at hproper
  obtain ⟨-, w, hw, x, rfl, hsignal⟩ := htold hproper ⟨rfl, Calculator.recalls_empty⟩ trivial
  cases hw
  rw [← hsignal]
  exact (e.signal_folded fun _ ht => Statement.isWritten_of_parse hparse _ ht).symm

/-- A source that has a value on the calculator is accepted as the source of an output. -/
theorem accepts_of_emit {output : String} (houtput : Lexeme.IsWord output)
    (hparse : Statement.parse c.config.maxDepth source = .ok ⟨none, e⟩)
    (hemit : (emit source []).runOn ⟨c, log⟩ = (.ok slot, s)) :
    Accepts c.config (output ++ " = " ++ source) := by
  have hassign := Statement.parse_assignment houtput hparse
  have hfault : Token.firstFault? (fun _ => true) e.folded.tokens = none := by
    rcases emit_cases c hparse [] log with ⟨hfault, -⟩ | ⟨err, herror, -⟩
    · rw [Expr.tokens_folded]
      rw [Statement.tokens, Statement.assignment, List.append_nil] at hfault
      exact ((Token.firstFault?_eq_none_iff _ _).1 hfault).1
    · rw [hemit] at herror
      cases herror
  rcases validate_cases (Session.new c.config).compiler.state hassign [] [] with
    ⟨-, t, hvalidate, -⟩ | ⟨err, hsome, -⟩
  · exact ⟨_, [], [], _, t, rfl, hvalidate⟩
  · -- the assignment is no fault, and the expression has none
    rw [Statement.tokens, Statement.assignment, Expr.foldNegation_assignment,
      Token.firstFault?_append, hfault] at hsome
    cases hsome

/-- The calculator and the graph agree: where an arithmetic source comes to a number on the
    calculator, without a division by zero, a fresh graph whose output is driven by the source
    hands the same number to the host. -/
theorem result_eq_emit {output : String} {v : Float} (houtput : Lexeme.IsWord output)
    (hparse : Statement.parse c.config.maxDepth source = .ok ⟨none, e⟩)
    (harith : ∀ t ∈ e.tokens, t.isArithmetic = true)
    (hemit : (emit source []).runOn ⟨c, log⟩ = (.ok (some (.scalar v)), s))
    (hproper : Proper (s.state.evaluation.backend.calls.drop c.evaluation.backend.calls.length)) :
    ∃ t, (rig [] [output] [output ++ " = " ++ source]).runOn (Session.new c.config).compiler =
        (.ok (), t) ∧
      ∀ (r : Engine) (log : List Line), ∃ r' log',
        (Engine.evaluate t.state.evaluation.backend.graph).runOn ⟨r, log⟩ = (.ok (), ⟨r', log'⟩) ∧
          r'.result? output = some (.float v) := by
  let d : Driver := ⟨output ++ " = " ++ source, output, e⟩
  have hfits : ∀ d' ∈ [d], d'.Fits c.config [] [output] := by
    intro d' hd'
    obtain rfl := List.mem_singleton.1 hd'
    exact
      { parse := Statement.parse_assignment houtput hparse
        accepted := accepts_of_emit houtput hparse hemit
        output := List.mem_cons_self
        plain := fun t ht => t.isPlain_of_isArithmetic (harith t ht) _
        clear := fun name hname => by cases harith _ hname }
  -- what is built does not depend on what the host will stage
  obtain ⟨-, t, hrig, -⟩ := exists_rig (fun _ => none) (by simp) hfits
  refine ⟨t, hrig, fun r log' => ?_⟩
  obtain ⟨M, t', hrig', hbackend, hsettled⟩ := exists_rig r.staging (by simp) hfits
  obtain rfl : t = t' := (Prod.mk.inj (hrig.symm.trans hrig')).2
  obtain ⟨r', log'', hevaluate, hresults⟩ := Engine.evaluate_of_solution r M.solution log'
  obtain ⟨n, hn, hkind, hname, hvalue⟩ := hsettled output d (by simp [d, Driver.last?])
  refine ⟨r', log'', by rw [hbackend, hevaluate], ?_⟩
  rw [hresults n hn hkind output hname, hvalue, signal_of_emit hparse harith hemit hproper]

/-- A quotient that is found in the cache of the calculator, and by its node in the graph. -/
theorem result_eq_emit_shared :
    let source := "6 / 4 > 1 ? -(6 / 4) : min(2, 3)"
    let quotient : Expr := .binary .divide (.number "6") (.number "4")
    let e : Expr := .ternary .greater quotient (.number "1") (.unary .negate (.group quotient))
      (.call "min" [.number "2", .number "3"])
    let c : Compiler Calculator Name := { evaluation := { backend := {} } }
    Lexeme.IsWord "o" ∧ Statement.parse c.config.maxDepth source = .ok ⟨none, e⟩ ∧
      (∀ t ∈ e.tokens, t.isArithmetic = true) ∧
      ∃ s, (emit source []).runOn ⟨c, []⟩ = (.ok (some (.scalar (-1.5))), s) ∧
        Proper (s.state.evaluation.backend.calls.drop c.evaluation.backend.calls.length) ∧
        ∃ t, (rig [] ["o"] ["o" ++ " = " ++ source]).runOn (Session.new c.config).compiler =
            (.ok (), t) ∧
          ∀ (r : Engine) (log : List Line), ∃ r' log',
            (Engine.evaluate t.state.evaluation.backend.graph).runOn ⟨r, log⟩ =
              (.ok (), ⟨r', log'⟩) ∧ r'.result? "o" = some (.float (-1.5)) := by
  intro source quotient e c
  have houtput : Lexeme.IsWord "o" := ⟨'o', [], rfl, by decide, nofun⟩
  have hscan : Lexeme.scan source = .ok
      [⟨.number "6", ⟨0, 1⟩⟩, ⟨.symbol .slash, ⟨2, 3⟩⟩, ⟨.number "4", ⟨4, 5⟩⟩,
        ⟨.symbol .greater, ⟨6, 7⟩⟩, ⟨.number "1", ⟨8, 9⟩⟩, ⟨.symbol .question, ⟨10, 11⟩⟩,
        ⟨.symbol .minus, ⟨12, 13⟩⟩, ⟨.symbol .openParen, ⟨13, 14⟩⟩, ⟨.number "6", ⟨14, 15⟩⟩,
        ⟨.symbol .slash, ⟨16, 17⟩⟩, ⟨.number "4", ⟨18, 19⟩⟩, ⟨.symbol .closeParen, ⟨19, 20⟩⟩,
        ⟨.symbol .colon, ⟨21, 22⟩⟩, ⟨.word "min", ⟨23, 26⟩⟩, ⟨.symbol .openParen, ⟨26, 27⟩⟩,
        ⟨.number "2", ⟨27, 28⟩⟩, ⟨.symbol .comma, ⟨28, 29⟩⟩, ⟨.number "3", ⟨30, 31⟩⟩,
        ⟨.symbol .closeParen, ⟨31, 32⟩⟩] := by
    decide +kernel
  have hparse : Statement.parse c.config.maxDepth source = .ok ⟨none, e⟩ := by
    rw [Statement.parse_eq hscan]
    rfl
  have harith : ∀ t ∈ e.tokens, t.isArithmetic = true := by
    decide
  -- the quotient is computed once
  let ops : List (Operation Name) :=
    [.condition .less (.scalar 2) (.scalar 3) (.scalar 2) (.scalar 3),
      .arith .divide (.scalar 6) (.scalar 4), .arith .multiply (.scalar (-1)) (.scalar 1.5),
      .condition .greater (.scalar 1.5) (.scalar 1) (.scalar (-1.5)) (.scalar 2)]
  have hdone : ((emit source []).runOn ⟨c, []⟩).1.toOption.join.bind Value.scalar? = some (-1.5) ∧
      ((emit source []).runOn ⟨c, []⟩).2.state.evaluation.backend.calls =
        ops.map Calculator.entry := by
    decide +kernel
  obtain ⟨s, hemit, hcalls⟩ : ∃ s, (emit source []).runOn ⟨c, []⟩ =
      (.ok (some (.scalar (-1.5))), s) ∧
        s.state.evaluation.backend.calls = ops.map Calculator.entry := by
    rcases hrun : (emit source []).runOn ⟨c, []⟩ with ⟨err | slot, s⟩
    · rw [hrun] at hdone
      cases hdone.1
    · rw [hrun] at hdone
      rcases slot with - | v
      · cases hdone.1
      · cases v <;> cases hdone.1
        exact ⟨s, rfl, hdone.2⟩
  have hproper :
      Proper (s.state.evaluation.backend.calls.drop c.evaluation.backend.calls.length) := by
    show Proper s.state.evaluation.backend.calls
    rw [hcalls]
    refine (Calculator.proper_map_entry (by simp [ops, Operation.operands, Value.IsLiteral])).2 ?_
    intro x y hmem
    obtain ⟨rfl, rfl⟩ : x = 6 ∧ y = 4 := by simpa [ops] using hmem
    decide +kernel
  exact ⟨houtput, hparse, harith, s, hemit, hproper,
    result_eq_emit houtput hparse harith hemit hproper⟩

end Compiler

end RigExpr
