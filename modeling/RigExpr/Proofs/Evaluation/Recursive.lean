import RigExpr.Evaluation

/-!
# Evaluation by recursion

An expression in post-order can be evaluated by plain recursion: take the last
token and evaluate its operands, one after the other, from the tokens before it.
`Recursive.evaluate` does so. It keeps no frames, and needs a call stack as deep
as the expression.

`Evaluation.evaluate` keeps frames in its place. A frame is what a pending call
of the recursion still has to do, so a stack of frames stands for a stack of
calls, and both evaluators take the same steps (`evaluate_eq_recursive`): on
every stream of tokens, also one that no source has, in every mode and from
every state.

* `agreeUpTo`: with frames waiting, evaluation is the recursion, whose value is
  then handed to the frames (`resume`).
* `resolve_collect`: the same for a frame that waits for several operands.
-/

namespace RigExpr

namespace Evaluation

variable {β H ε : Type}

/-- What an evaluation does about identifiers, applications and assignments. -/
structure Rules (β H : Type) where
  identifier : String → Step β H (Slot H)
  apply : Primitive → List (Slot H) → Step β H (Slot H)
  assign : (source destination : Slot H) → Step β H (Slot H)

namespace Recursive

/-- What is left of the tokens once some of them were taken. -/
abbrev Left (tokens : List Token) := { rest : List Token // rest.length ≤ tokens.length }

/-- What is left of the tokens once at least one of them was taken. -/
abbrev Fewer (tokens : List Token) := { rest : List Token // rest.length < tokens.length }

/-- Take the last token, which has to be a comparison. -/
def condition : (tokens : List Token) → Step β H (Comparison × Fewer tokens)
  | [] => throw (.underflow .condition)
  | token :: rest => do
    leave rest
    match token with
    | .comparison test => return (test, ⟨rest, Nat.lt_succ_self _⟩)
    | other => throw (.invalidOperator other.text)

mutual

/-- Take the last token, and evaluate it with its operands. -/
def operand (rules : Rules β H) : (tokens : List Token) → Step β H (Slot H × Fewer tokens)
  | [] => throw (.underflow .operand)
  | token :: rest => do
    leave rest
    let (value, ⟨left, hleft⟩) ← ofToken rules token rest
    return (value, ⟨left, Nat.lt_succ_of_le hleft⟩)
termination_by tokens => (tokens.length, 0)

/-- Evaluate `n` operands, the last of them first. -/
def operands (rules : Rules β H) :
    (n : Nat) → (tokens : List Token) → Step β H (List (Slot H) × Left tokens)
  | 0, tokens => return ([], ⟨tokens, Nat.le_refl _⟩)
  | n + 1, tokens => do
    let (value, ⟨rest, hrest⟩) ← operand rules tokens
    let (values, ⟨left, hleft⟩) ← operands rules n rest
    return (value :: values, ⟨left, Nat.le_trans hleft (Nat.le_of_lt hrest)⟩)
termination_by _ tokens => (tokens.length, 1)

/-- Evaluate `n` operands, bring them into the order of the source, and apply the
    primitive to them. -/
def applied (rules : Rules β H) (p : Primitive) (n : Nat) (tokens : List Token) :
    Step β H (Slot H × Left tokens) := do
  let (values, left) ← operands rules n tokens
  let value ← rules.apply p values.reverse
  return (value, left)
termination_by (tokens.length, 2)

/-- Evaluate a token whose operands are the last of the tokens before it. -/
def ofToken (rules : Rules β H) (token : Token) (tokens : List Token) :
    Step β H (Slot H × Left tokens) :=
  match token with
  | .call name arity =>
    match Function.ofName? name with
    | none => throw (.invalidOperator name)
    | some f =>
      if f.arity.accepts arity then applied rules (.call f) arity tokens
      else throw (.arity f.name f.arity arity)
  | .list arity =>
    if 2 ≤ arity ∧ arity ≤ 4 then applied rules .list arity tokens
    else throw (.sequenceLength arity)
  | .negate => applied rules .negate 1 tokens
  | .not => applied rules .not 1 tokens
  | .binary op => applied rules (.binary op) 2 tokens
  | .component which => applied rules (.component which) 1 tokens
  | .ternary => do
    let (ifFalse, ⟨rest, hrest⟩) ← operand rules tokens
    let (ifTrue, ⟨rest', hrest'⟩) ← operand rules rest
    let (test, ⟨before, hbefore⟩) ← condition rest'
    let (second, ⟨before', hbefore'⟩) ← operand rules before
    let (first, ⟨left, hleft⟩) ← operand rules before'
    let value ← rules.apply (.condition test) [first, second, ifTrue, ifFalse]
    return (value, ⟨left, Nat.le_of_lt <| Nat.lt_trans hleft <| Nat.lt_trans hbefore' <|
      Nat.lt_trans hbefore <| Nat.lt_trans hrest' hrest⟩)
  | .alternative => do
    let (value, ⟨left, hleft⟩) ← operand rules tokens
    return (value, ⟨left, Nat.le_of_lt hleft⟩)
  | .assign => do
    let (destination, ⟨rest, hrest⟩) ← operand rules tokens
    let (source, ⟨left, hleft⟩) ← operand rules rest
    let value ← rules.assign source destination
    return (value, ⟨left, Nat.le_of_lt (Nat.lt_trans hleft hrest)⟩)
  | .constant c => return (some (constant c), ⟨tokens, Nat.le_refl _⟩)
  | .rotateOrder o => return (some (.order o), ⟨tokens, Nat.le_refl _⟩)
  | .identifier name => return (← rules.identifier name, ⟨tokens, Nat.le_refl _⟩)
  | .comparison test => throw (.invalidOperator test.symbol)
  | .number text =>
    match Number.read? text with
    | some x => return (some (.scalar x), ⟨tokens, Nat.le_refl _⟩)
    | none => throw (.invalidOperator text)
termination_by (tokens.length, 3)

end

/-- Evaluate an expression in post-order by recursion. -/
def evaluate (rules : Rules β H) (tokens : List Token) : Step β H (Slot H) := do
  leave tokens.reverse
  let (value, _) ← operand rules tokens.reverse
  return value

end Recursive

open Recursive

variable [ToString H] [Backend β H ε]

/-- The rules of a mode, with a cache for applications. -/
def Rules.ofMode (mode : Mode) : Rules β H where
  identifier := Evaluation.identifier mode
  apply := Evaluation.apply mode
  assign := Evaluation.assign mode

/-! ## Frames as pending calls -/

/-- Hand a value to the frames that wait, and go on with the tokens left. -/
def resume (mode : Mode) (frames : List (Frame H)) (value : Slot H) (tokens : List Token) :
    Step β H (Slot H) := do
  match ← deliver mode value frames with
  | .inl frames => resolve mode frames tokens
  | .inr value => return value

/-- A value that no frame waits for is that of the whole. -/
theorem resume_nil (mode : Mode) (value : Slot H) (tokens : List Token) :
    (resume mode [] value tokens : Step β H (Slot H)) = pure value := by
  simp [resume, deliver]

/-- A frame that waits for more goes on waiting. -/
theorem resume_wait {mode : Mode} (frame : Frame H) {frame' : Frame H} {value : Slot H}
    (h : frame.feed value = .inl frame') (outer : List (Frame H)) (tokens : List Token) :
    (resume mode (frame :: outer) value tokens : Step β H (Slot H)) =
      resolve mode (frame' :: outer) tokens := by
  simp [resume, deliver, h]

/-- A frame that has all its operands is completed, and its value goes to the
    frames around it. -/
theorem resume_complete {mode : Mode} (frame : Frame H) {value : Slot H} {c : Completion H}
    (h : frame.feed value = .inr c) (outer : List (Frame H)) (tokens : List Token) :
    (resume mode (frame :: outer) value tokens : Step β H (Slot H)) =
      (do resume mode outer (← complete mode c) tokens) := by
  simp [resume, deliver, h]

/-- Whether the innermost frame, if any, waits for an operand and not for a
    comparison. -/
def AwaitsOperand : List (Frame H) → Prop
  | .test _ _ :: _ => False
  | _ => True

omit [ToString H] in
/-- Only a choice that waits for its comparison awaits no operand. -/
theorem exists_test_of_not_awaitsOperand {frames : List (Frame H)} (h : ¬AwaitsOperand frames) :
    ∃ ifTrue ifFalse outer, frames = .test ifTrue ifFalse :: outer := by
  unfold AwaitsOperand at h
  split at h
  · exact ⟨_, _, _, rfl⟩
  · exact absurd trivial h

/-- One step of evaluation where an operand is due. -/
theorem resolve_cons {frames : List (Frame H)} (h : AwaitsOperand frames) (mode : Mode)
    (token : Token) (rest : List Token) :
    (resolve mode frames (token :: rest) : Step β H (Slot H)) = (do
      leave rest
      match ← start mode token with
      | .inl frame => resolve mode (frame :: frames) rest
      | .inr value => resume mode frames value rest) := by
  conv => lhs; unfold resolve
  split
  · exact absurd h id
  · rfl

/-- Where an operand is due, there has to be a token. -/
theorem resolve_nil {frames : List (Frame H)} (h : AwaitsOperand frames) (mode : Mode) :
    (resolve mode frames [] : Step β H (Slot H)) = throw (.underflow .operand) := by
  unfold resolve
  split
  · exact absurd h id
  · rfl

variable (β) in
/-- On up to `n` tokens, evaluation with frames waiting is the recursion, whose
    value goes to the frames. -/
def AgreeUpTo (mode : Mode) (n : Nat) : Prop :=
  ∀ (frames : List (Frame H)) (tokens : List Token), AwaitsOperand frames → tokens.length ≤ n →
    (resolve mode frames tokens : Step β H (Slot H)) = (do
      let (value, left) ← operand (.ofMode mode) tokens
      resume mode frames value left)

/-- A frame that collects operands: they are evaluated in turn, the primitive is
    applied to them, and its value goes to the frames around. -/
theorem resolve_collect {mode : Mode} {p : Primitive} {outer : List (Frame H)} (missing : Nat)
    (collected : List (Slot H)) (tokens : List Token) (ih : AgreeUpTo β mode tokens.length) :
    (resolve mode (.collect p missing collected :: outer) tokens : Step β H (Slot H)) = (do
      let (values, left) ← operands (.ofMode mode) (missing + 1) tokens
      resume mode outer (← apply mode p (values.reverse ++ collected)) left) := by
  induction missing generalizing collected tokens with
  | zero =>
    rw [ih (.collect p 0 collected :: outer) tokens trivial (Nat.le_refl _), operands]
    simp only [bind_assoc]
    congr 1
    funext ⟨value, rest, hrest⟩
    simp [resume_complete (.collect p 0 collected) rfl, complete, operands]
  | succ missing ih' =>
    rw [ih (.collect p (missing + 1) collected :: outer) tokens trivial (Nat.le_refl _), operands]
    simp only [bind_assoc]
    congr 1
    funext ⟨value, rest, hrest⟩
    rw [resume_wait (.collect p (missing + 1) collected) rfl,
      ih' _ rest fun frames left hf hl => ih frames left hf (by omega)]
    simp

/-- The frames of an assignment: the destination comes first, then the source. -/
theorem resolve_destination {mode : Mode} {outer : List (Frame H)} (tokens : List Token)
    (ih : AgreeUpTo β mode tokens.length) :
    (resolve mode (.destination :: outer) tokens : Step β H (Slot H)) = (do
      let (value, left) ← ofToken (.ofMode mode) .assign tokens
      resume mode outer value left) := by
  rw [ih (.destination :: outer) tokens trivial (Nat.le_refl _), ofToken]
  simp only [bind_assoc]
  congr 1
  funext ⟨destination, rest, hrest⟩
  rw [resume_wait .destination rfl,
    ih (.source destination :: outer) rest trivial (Nat.le_of_lt hrest)]
  congr 1
  funext ⟨source, left, hleft⟩
  dsimp only
  rw [resume_complete (.source destination) rfl]
  simp [complete, Rules.ofMode]

/-- A choice that waits for its comparison takes the last token as such. -/
theorem resolve_test {mode : Mode} {ifTrue ifFalse : Slot H} {outer : List (Frame H)}
    (tokens : List Token) :
    (resolve mode (.test ifTrue ifFalse :: outer) tokens : Step β H (Slot H)) = (do
      let (test, before) ← condition tokens
      resolve mode (.second test ifTrue ifFalse :: outer) before) := by
  cases tokens with
  | nil => rfl
  | cons token rest => cases token <;> simp [resolve, condition]

/-- The frames of a choice: the branches come first, the second one before the
    first, then the comparison, and last its operands. -/
theorem resolve_otherwise {mode : Mode} {outer : List (Frame H)} (tokens : List Token)
    (ih : AgreeUpTo β mode tokens.length) :
    (resolve mode (.otherwise :: outer) tokens : Step β H (Slot H)) = (do
      let (value, left) ← ofToken (.ofMode mode) .ternary tokens
      resume mode outer value left) := by
  rw [ih (.otherwise :: outer) tokens trivial (Nat.le_refl _), ofToken]
  simp only [bind_assoc]
  congr 1
  funext ⟨ifFalse, rest, hrest⟩
  rw [resume_wait .otherwise rfl,
    ih (.consequent ifFalse :: outer) rest trivial (Nat.le_of_lt hrest)]
  congr 1
  funext ⟨ifTrue, rest', hrest'⟩
  dsimp only
  rw [resume_wait (.consequent ifFalse) rfl, resolve_test]
  congr 1
  funext ⟨test, before, hbefore⟩
  dsimp only at hbefore ⊢
  rw [ih (.second test ifTrue ifFalse :: outer) before trivial (by omega)]
  congr 1
  funext ⟨second, before', hbefore'⟩
  dsimp only
  rw [resume_wait (.second test ifTrue ifFalse) rfl,
    ih (.first test second ifTrue ifFalse :: outer) before' trivial (by omega)]
  congr 1
  funext ⟨first, left, hleft⟩
  dsimp only
  rw [resume_complete (.first test second ifTrue ifFalse) rfl]
  simp [complete, Rules.ofMode]

/-- With frames waiting, evaluation is the recursion, whose value goes to the
    frames. -/
theorem agreeUpTo (mode : Mode) (n : Nat) : AgreeUpTo β mode n := by
  induction n with
  | zero =>
    intro frames tokens hf hn
    rw [List.eq_nil_of_length_eq_zero (Nat.le_zero.1 hn), resolve_nil hf, operand]
    rfl
  | succ n ih =>
    intro frames tokens hf hn
    cases tokens with
    | nil =>
      rw [resolve_nil hf, operand]
      rfl
    | cons token rest =>
      -- Everything that the token asks for comes from `rest`, which is shorter.
      have ih : AgreeUpTo β mode rest.length := fun frames left hf hl =>
        ih frames left hf (Nat.le_trans hl (Nat.le_of_succ_le_succ hn))
      rw [resolve_cons hf, operand]
      simp only [bind_assoc]
      congr 1
      funext _
      cases token with
      | number text => cases h : Number.read? text <;> simp [start, ofToken, Rules.ofMode, h]
      | identifier name => simp [start, ofToken, Rules.ofMode]
      | binary op => simp [start, ofToken, Rules.ofMode, applied, resolve_collect 1 [] rest ih]
      | negate => simp [start, ofToken, Rules.ofMode, applied, resolve_collect 0 [] rest ih]
      | not => simp [start, ofToken, Rules.ofMode, applied, resolve_collect 0 [] rest ih]
      | comparison test => simp [start, ofToken, Rules.ofMode]
      | assign => simp [start, resolve_destination rest ih]
      | call name arity =>
        cases hf : Function.ofName? name with
        | none => simp [start, ofToken, Rules.ofMode, hf]
        | some f =>
          by_cases ha : f.arity.accepts arity
          · obtain ⟨missing, rfl⟩ : ∃ n, arity = n + 1 := by
              refine Nat.exists_eq_add_one_of_ne_zero ?_
              rintro rfl
              rw [Function.accepts_zero] at ha
              exact absurd ha Bool.false_ne_true
            simp [start, ofToken, Rules.ofMode, applied, hf, ha, resolve_collect missing [] rest ih]
          · simp [start, ofToken, Rules.ofMode, hf, ha]
      | list arity =>
        by_cases ha : 2 ≤ arity ∧ arity ≤ 4
        · obtain ⟨missing, rfl⟩ : ∃ n, arity = n + 1 := ⟨arity - 1, by omega⟩
          simp [start, ofToken, Rules.ofMode, applied, ha, resolve_collect missing [] rest ih]
        · simp [start, ofToken, Rules.ofMode, ha]
      | component which =>
        simp [start, ofToken, Rules.ofMode, applied, resolve_collect 0 [] rest ih]
      | constant c => simp [start, ofToken, Rules.ofMode]
      | rotateOrder order => simp [start, ofToken, Rules.ofMode]
      | ternary => simp [start, resolve_otherwise rest ih]
      | alternative =>
        simp [start, ofToken, Rules.ofMode, ih (.forward :: frames) rest trivial (Nat.le_refl _),
          resume_complete .forward rfl, complete]

/-- Where no frame waits, evaluation is the recursion. -/
theorem resolve_eq_operand (mode : Mode) (tokens : List Token) :
    (resolve mode [] tokens : Step β H (Slot H)) = (do
      let (value, _) ← operand (.ofMode mode) tokens
      return value) := by
  rw [agreeUpTo mode tokens.length [] tokens trivial (Nat.le_refl _)]
  simp only [resume_nil]

theorem recursive_evaluate_ofMode (mode : Mode) (tokens : List Token) :
    (Recursive.evaluate (.ofMode mode) tokens : Step β H (Slot H)) = evaluate mode tokens := by
  rw [evaluate, Recursive.evaluate, resolve_eq_operand]

end Evaluation

end RigExpr
