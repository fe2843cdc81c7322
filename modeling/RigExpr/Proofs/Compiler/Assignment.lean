import RigExpr.Proofs.Compiler.Emission
import RigExpr.Proofs.Evaluation.Growth
import RigExpr.Proofs.Evaluation.Lockstep
import RigExpr.Proofs.Grammar.Places

/-!
# Assignments on the calculator

An assignment is its source and then one more entry of the record (`Compiler.emit_assignment_eq`).
The destination is looked up before the source is evaluated, so that the two evaluations of the
source, alone and in the assignment, do not start from the same state: they differ in the log and
in the names that were looked up. They run in lockstep all the same, and none of the two drives
anything (`Calculator.undriven`).
-/

namespace RigExpr

namespace Calculator

/-- No operation is written down like an assignment. -/
theorem startsWith_entry (op : Operation Name) :
    (entry op).startsWith ("equal" ++ "(") = false := by
  rw [String.startsWith_string_eq_false_iff, toList_entry, String.toList_append]
  rintro ⟨rest, h⟩
  rw [List.append_assoc] at h
  have hequal : Rendering "equal" := rendering_of_all (by decide) (by decide)
  obtain ⟨hname, -⟩ := hequal.append_inj (rendering_name op) h
    (.inr (separated_cons (by decide))) (.inr (separated_cons (by decide)))
  unfold Operation.name at hname
  split at hname <;> exact absurd hname (by decide)

/-- An assignment is recorded once. -/
theorem runOn_drive (source destination : Value Name) (s : Logged Calculator) :
    (Backend.drive source destination).runOn s =
      (.ok (), ⟨{ s.state with
        calls := s.state.calls ++ ["equal(" ++ source.text ++ ", " ++ destination.text ++ ")"]
        assignments := s.state.assignments ++ [(source.text, destination.text)] }, s.log⟩) := by
  show (drive source destination).runOn s = _
  simp [drive, record, String.append_assoc]

/-- No assignment is recorded. -/
def undriven : Upkeep Calculator where
  holds _ := True
  grows c d := d.assignments = c.assignments ∧ d.count "equal" = c.count "equal"
  refl _ := ⟨rfl, rfl⟩
  trans h h' := ⟨h'.1.trans h.1, h'.2.trans h.2⟩

theorem undriven_perform : Backend.Grows undriven := by
  intro op
  have hrecord : undriven.Grows
      (Action.change fun c => c.record op.name op.operands : Action Refusal Calculator Unit) := by
    refine .change fun c => ⟨rfl, ?_⟩
    show ((c.calls ++ [entry op]).filter _).length = _
    rw [List.filter_append, List.filter_singleton, startsWith_entry]
    simp [count]
  have hmake : undriven.Grows
      (Action.change fun c => { c with made := c.made + 1 } : Action Refusal Calculator Unit) :=
    .change fun c => ⟨rfl, rfl⟩
  refine .bind hrecord fun _ => .bind (.ofExcept _) fun result => ?_
  cases result with
  | some v => exact .pure v
  | none => exact .bind hmake fun _ => .state fun _ => .pure _

end Calculator

/-- An expression records no assignment. -/
theorem Expr.undriven (e : Expr) (rest : List Token)
    {s s' : Logged (Evaluation Calculator Calculator.Name)}
    {outcome : Except CompileError (Slot Calculator.Name)}
    (h : (e.evaluate (.ofMode .emit) rest).runOn s = (outcome, s')) :
    s'.state.backend.assignments = s.state.backend.assignments ∧
      s'.state.backend.count "equal" = s.state.backend.count "equal" := by
  have hgrows := Evaluation.grows_expression Calculator.undriven_perform .emit e rest s
  rwa [h] at hgrows

/-- Whether a name was looked up before plays no part in an expression, nor does the log. -/
theorem Expr.exists_evaluate_looked {e : Expr} {rest : List Token} {log : List Line}
    {s : Evaluation Calculator Calculator.Name} {t : Logged (Evaluation Calculator Calculator.Name)}
    {outcome : Except CompileError (Slot Calculator.Name)}
    (h : (e.evaluate (.ofMode .emit) rest).runOn ⟨s, log⟩ = (outcome, t)) (name : String)
    (log' : List Line) :
    ∃ t', (e.evaluate (.ofMode .emit) rest).runOn ⟨s.looked name, log'⟩ = (outcome, t') ∧
      t'.state.backend = t.state.backend := by
  have halike : (s.looked name).Alike s :=
    ⟨rfl, Bindings.values_resolve _ _, Bindings.names_resolve _ _, rfl⟩
  obtain ⟨houtcome, hleft, -⟩ :=
    (Evaluation.Alike.follows_expression Calculator.lockstep_eq e rest).keeps trivial
      ⟨s.looked name, log'⟩ ⟨s, log⟩ halike trivial
  rw [h] at houtcome hleft
  exact ⟨((e.evaluate (.ofMode .emit) rest).runOn ⟨s.looked name, log'⟩).2,
    Prod.ext houtcome rfl, hleft.backend⟩

namespace Compiler

open Calculator (Name)

variable {source name : String} {e : Expr}

/-- The emission of an expression records no assignment. -/
theorem emit_undriven (c : Compiler Calculator Name)
    (h : Statement.parse c.config.maxDepth source = .ok ⟨none, e⟩)
    (bindings : List (String × Value Name)) (log : List Line) :
    let before := ((emit source bindings).runOn ⟨c, log⟩).2.state.evaluation.backend
    before.assignments = c.evaluation.backend.assignments ∧
      before.count "equal" = c.evaluation.backend.count "equal" := by
  dsimp only
  obtain ⟨log₁, ⟨err, s, hrun, hemit⟩ | ⟨v, s, hrun, hemit⟩⟩ := emit_expression_cases h bindings log
  · rw [hemit]
    exact e.folded.undriven [] hrun
  · rw [hemit]
    exact e.folded.undriven [] hrun

/-- An assignment and its source. If the destination is bound, the calculator does for the
    assignment what it does for the source alone, and if the source has a value, it records the
    assignment in addition, once. The assignment has no value, and it fails as the source fails.
    The source records no assignment. If the destination is not bound, nothing is recorded. -/
theorem emit_assignment_eq (c : Compiler Calculator Name) (hname : Lexeme.IsWord name)
    (hparse : Statement.parse c.config.maxDepth source = .ok ⟨none, e⟩)
    (bindings : List (String × Value Name)) (log log' : List Line) :
    let alone := (emit source bindings).runOn ⟨c, log⟩
    let assigned := (emit (name ++ " = " ++ source) bindings).runOn ⟨c, log'⟩
    let start := c.evaluation.backend
    let before := alone.2.state.evaluation.backend
    let after := assigned.2.state.evaluation.backend
    before.assignments = start.assignments ∧ before.count "equal" = start.count "equal" ∧
      match bindings.reverse.find? fun p => p.1 = name with
      | none => assigned.1 = .error (.invalidIdentifier name) ∧ after = start
      | some (_, destination) =>
        match alone.1 with
        | .error err => assigned.1 = .error err ∧ after = before
        | .ok none => False
        | .ok (some v) => assigned.1 = .ok none ∧ after =
          { before with
            calls := before.calls ++ ["equal(" ++ v.text ++ ", " ++ destination.text ++ ")"]
            assignments := before.assignments ++ [(v.text, destination.text)] } := by
  have hassign := Statement.parse_assignment hname hparse
  have hvalue := (Bindings.empty (H := Name)).get?_values_register_eq bindings name
  rw [show (Bindings.empty (H := Name)).values.get? name = none from rfl, Option.or_none] at hvalue
  obtain ⟨hassignments, hcount⟩ := emit_undriven c hparse bindings log
  refine ⟨hassignments, hcount, ?_⟩
  cases hfind : bindings.reverse.find? fun p => p.1 = name with
  | none =>
    rw [hfind] at hvalue
    obtain ⟨s, hassigned, hbackend⟩ := exists_runOn_emit_of_unbound hassign bindings hvalue log'
    rw [hassigned]
    exact ⟨rfl, hbackend⟩
  | some p =>
    obtain ⟨name', destination⟩ := p
    rw [hfind] at hvalue
    obtain ⟨log₂, hassigned⟩ := emit_assignment_cases hassign bindings hvalue log'
    obtain ⟨log₁, ⟨err, s, hrun, hemit⟩ | ⟨v, s, hrun, hemit⟩⟩ :=
      emit_expression_cases hparse bindings log
    · -- the source fails, and so it does in the assignment
      obtain ⟨t, hlooked, hbackend⟩ := Expr.exists_evaluate_looked hrun name log₂
      rw [hlooked] at hassigned
      rw [hemit]
      rcases hassigned with ⟨err', t', heq, hassigned⟩ | ⟨v, t', log₃, heq, -⟩
      · cases heq
        rw [hassigned]
        exact ⟨rfl, hbackend⟩
      · cases heq
    · -- the source has a value, by which the destination is driven
      obtain ⟨t, hlooked, hbackend⟩ := Expr.exists_evaluate_looked hrun name log₂
      rw [hlooked] at hassigned
      rw [hemit]
      rcases hassigned with ⟨err', t', heq, -⟩ | ⟨v', t', log₃, heq, hassigned⟩
      · cases heq
      · cases heq
        rw [hassigned]
        refine ⟨rfl, ?_⟩
        show ((Backend.drive v destination).runOn ⟨t.state.backend, log₃⟩).2.state = _
        rw [Calculator.runOn_drive, hbackend]
        rfl

/-- An output that is bound twice, driven by a difference of which the first operand is in the cache
    when it is asked for. -/
theorem emit_assignment_eq_difference :
    let source := "a * a - -(a * a)"
    let square : Expr := .binary .multiply (.identifier "a") (.identifier "a")
    let e : Expr := .binary .subtract square (.unary .negate (.group square))
    let c : Compiler Calculator Name :=
      { evaluation := { backend := { calls := ["equal(1, o)"] } } }
    let bindings : List (String × Value Name) :=
      [("o", .handle ⟨"before"⟩), ("a", .scalar 2), ("o", .handle ⟨"after"⟩)]
    let before := ((emit source bindings).runOn ⟨c, []⟩).2.state.evaluation.backend
    let assigned := (emit ("o" ++ " = " ++ source) bindings).runOn ⟨c, []⟩
    Lexeme.IsWord "o" ∧ Statement.parse c.config.maxDepth source = .ok ⟨none, e⟩ ∧
      before.count "equal" = 1 ∧ assigned.1 = .ok none ∧
      assigned.2.state.evaluation.backend =
        { before with
          calls := before.calls ++ ["equal(" ++ (Value.scalar 8 : Value Name).text ++ ", after)"]
          assignments :=
            before.assignments ++ [((Value.scalar 8 : Value Name).text, "after")] } := by
  intro source square e c bindings before assigned
  have hword : Lexeme.IsWord "o" := ⟨'o', [], rfl, by decide, List.forall_mem_nil _⟩
  have hscan : Lexeme.scan source = .ok
      [⟨.word "a", ⟨0, 1⟩⟩, ⟨.symbol .star, ⟨2, 3⟩⟩, ⟨.word "a", ⟨4, 5⟩⟩, ⟨.symbol .minus, ⟨6, 7⟩⟩,
        ⟨.symbol .minus, ⟨8, 9⟩⟩, ⟨.symbol .openParen, ⟨9, 10⟩⟩, ⟨.word "a", ⟨10, 11⟩⟩,
        ⟨.symbol .star, ⟨12, 13⟩⟩, ⟨.word "a", ⟨14, 15⟩⟩, ⟨.symbol .closeParen, ⟨15, 16⟩⟩] := by
    decide +kernel
  have hparse : Statement.parse c.config.maxDepth source = .ok ⟨none, e⟩ := by
    rw [Statement.parse_eq hscan]
    rfl
  have hvalue : ((emit source bindings).runOn ⟨c, []⟩).1.toOption.join.bind Value.scalar? =
      some 8 := by
    decide +kernel
  obtain ⟨-, hcount, hdriven⟩ := emit_assignment_eq c hword hparse bindings [] []
  have hone : c.evaluation.backend.count "equal" = 1 := by decide +kernel
  refine ⟨hword, hparse, hcount.trans hone, ?_⟩
  cases hrun : ((emit source bindings).runOn ⟨c, []⟩).1 with
  | error err =>
    rw [hrun] at hvalue
    cases hvalue
  | ok slot =>
    rw [hrun] at hvalue
    rcases slot with - | v
    · cases hvalue
    · cases v <;> cases hvalue
      rw [hrun] at hdriven
      exact hdriven

end Compiler

end RigExpr
