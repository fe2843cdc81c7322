import RigExpr.Proofs.Action
import RigExpr.Proofs.Evaluation.Tree
import RigExpr.Proofs.Expr.Folded
import RigExpr.Proofs.Signature

/-!
# Faults

A token can be at fault on its own: it calls what is no function, or a function with the
wrong number of arguments, or it is a list that is too short or too long, a number that
cannot be read, or an identifier that has to be bound and is not (`Token.fault?`).

Evaluation of an expression fails by the first fault from the end of its tokens, and by
nothing else that it can know of beforehand (`Action.Detects`). So it is in both modes:
what differs is which identifiers have to be bound, and which errors are not the fault of
any token (`Evaluation.Rules.Detect`).

* `Expr.detects`: an expression,
* `Statement.detects`: a whole source.
-/

namespace RigExpr

namespace Action

variable {ε σ α β : Type} {excused : ε → Prop}

variable (excused) in
/-- Where `pre` holds, the action fails by the fault, if there is one. If there is none, it
    succeeds and `post` holds, except for errors that are excused. -/
structure Detects (pre : Logged σ → Prop) (fault : Option ε) (post : α → Logged σ → Prop)
    (a : Action ε σ α) : Prop where
  ok : ∀ s v s', pre s → a.runOn s = (.ok v, s') → fault = none ∧ post v s'
  error : ∀ s e s', pre s → a.runOn s = (.error e, s') → fault = some e ∨ excused e

namespace Detects

variable {pre pre' : Logged σ → Prop} {fault fault' : Option ε} {post post' : α → Logged σ → Prop}
  {a : Action ε σ α}

theorem weaken (h : Detects excused pre fault post a) (hpre : ∀ s, pre' s → pre s)
    (hpost : ∀ v s, post v s → post' v s) : Detects excused pre' fault post' a where
  ok s v s' hs hrun := (h.ok s v s' (hpre s hs) hrun).imp_right (hpost v s')
  error s e s' hs hrun := h.error s e s' (hpre s hs) hrun

protected theorem pure {v : α} (h : ∀ s, pre s → post v s) :
    Detects excused pre none post (pure v : Action ε σ α) where
  ok s w s' hs hrun := by
    cases hrun
    exact ⟨rfl, h s hs⟩
  error s e s' _ hrun := by cases hrun

protected theorem throw (e : ε) :
    Detects excused pre (some e) post (throw e : Action ε σ α) where
  ok s v s' _ hrun := by cases hrun
  error s e' s' _ hrun := by
    cases hrun
    exact .inl rfl

/-- What does not depend on the state can be assumed. -/
theorem assume {φ : Prop} (h : φ → Detects excused pre fault post a) :
    Detects excused (fun s => φ ∧ pre s) fault post a where
  ok s v s' hs hrun := (h hs.1).ok s v s' hs.2 hrun
  error s e s' hs hrun := (h hs.1).error s e s' hs.2 hrun

/-- Of two actions, the first one to be at fault makes the whole fail. -/
protected theorem bind (h : Detects excused pre fault post a) {f : α → Action ε σ β}
    {post' : β → Logged σ → Prop} (hf : ∀ v, Detects excused (post v) fault' post' (f v)) :
    Detects excused pre (fault.or fault') post' (a >>= f) where
  ok s w s'' hs hrun := by
    rcases ha : a.runOn s with ⟨_ | v, s'⟩
    · rw [runOn_bind_of_error ha] at hrun
      cases hrun
    · rw [runOn_bind_of_ok ha] at hrun
      obtain ⟨rfl, hpost⟩ := h.ok s v s' hs ha
      exact (hf v).ok s' w s'' hpost hrun
  error s e s'' hs hrun := by
    rcases ha : a.runOn s with ⟨e' | v, s'⟩
    · rw [runOn_bind_of_error ha] at hrun
      cases hrun
      refine (h.error s e _ hs ha).imp_left ?_
      rintro rfl
      rfl
    · rw [runOn_bind_of_ok ha] at hrun
      obtain ⟨rfl, hpost⟩ := h.ok s v s' hs ha
      exact (hf v).error s' e s'' hpost hrun

protected theorem change {f : σ → σ} {post : Unit → Logged σ → Prop}
    (h : ∀ s, pre s → post () ⟨f s.state, s.log⟩) :
    Detects excused pre none post (change f : Action ε σ Unit) where
  ok s v s' hs hrun := by
    cases hrun
    exact ⟨rfl, h s hs⟩
  error s e s' _ hrun := by cases hrun

end Detects

end Action

namespace Token

/-- The name that a token looks up. -/
def name? : Token → Option String
  | identifier name => some name
  | _ => none

/-- What is wrong with a token, if the identifiers that `bound` does not hold of are wrong. -/
def fault? (bound : String → Bool) : Token → Option CompileError
  | call name arity =>
    match Function.ofName? name with
    | none => some (.invalidOperator name)
    | some f => if f.arity.accepts arity then none else some (.arity f.name f.arity arity)
  | list arity => if 2 ≤ arity ∧ arity ≤ 4 then none else some (.sequenceLength arity)
  | number text => if (Number.read? text).isSome then none else some (.invalidOperator text)
  | identifier name => if bound name then none else some (.invalidIdentifier name)
  | _ => none

/-- The first fault from the end of the tokens. -/
def firstFault? (bound : String → Bool) (tokens : List Token) : Option CompileError :=
  tokens.reverse.findSome? (fault? bound)

/-- The names that the tokens look up, from the end. -/
def names (tokens : List Token) : List String := tokens.reverse.filterMap name?

variable (bound : String → Bool)

@[simp] theorem firstFault?_nil : firstFault? bound [] = none := rfl

@[simp] theorem firstFault?_append (tokens tokens' : List Token) :
    firstFault? bound (tokens ++ tokens') =
      (firstFault? bound tokens').or (firstFault? bound tokens) := by
  simp [firstFault?, List.findSome?_append]

@[simp] theorem firstFault?_cons (token : Token) (tokens : List Token) :
    firstFault? bound (token :: tokens) =
      (firstFault? bound tokens).or (token.fault? bound) := by
  simp [firstFault?, List.findSome?_append]

@[simp] theorem names_nil : names [] = [] := rfl

@[simp] theorem names_append (tokens tokens' : List Token) :
    names (tokens ++ tokens') = names tokens' ++ names tokens := by
  simp [names]

@[simp] theorem names_cons (token : Token) (tokens : List Token) :
    names (token :: tokens) = names tokens ++ token.name?.toList := by
  cases h : token.name? <;> simp [names, h]

end Token

namespace Evaluation

variable {β H : Type}

/-- Rules that fail by unbound identifiers and excused errors only. `Saw names` holds of the
    states in which `names` have been looked up, and `P` of the operands. -/
structure Rules.Detect (rules : Rules β H) (excused : CompileError → Prop)
    (bound : String → Bool) (Saw : List String → Logged (Evaluation β H) → Prop)
    (P : Slot H → Prop) : Prop where
  leave : ∀ names rest s, Saw names s → Saw names ⟨{ s.state with left := rest }, s.log⟩
  value : ∀ v, P (some v)
  identifier : ∀ name names left,
    Action.Detects excused (fun s => Saw names s ∧ s.state.left = left)
      ((Token.identifier name).fault? bound)
      (fun slot s => P slot ∧ Saw (names ++ [name]) s ∧ s.state.left = left)
      (rules.identifier name)
  apply : ∀ p operands names left, p.accepts operands.length = true → (∀ slot ∈ operands, P slot) →
    Action.Detects excused (fun s => Saw names s ∧ s.state.left = left) none
      (fun slot s => P slot ∧ Saw names s ∧ s.state.left = left) (rules.apply p operands)
  assign : ∀ source destination names left, P source → P destination →
    Action.Detects excused (fun s => Saw names s ∧ s.state.left = left) none
      (fun slot s => slot = none ∧ Saw names s ∧ s.state.left = left)
      (rules.assign source destination)

variable {rules : Rules β H} {excused : CompileError → Prop} {bound : String → Bool}
  {Saw : List String → Logged (Evaluation β H) → Prop} {P : Slot H → Prop}

theorem Rules.Detect.detects_leave (h : rules.Detect excused bound Saw P) (names : List String)
    (rest : List Token) :
    Action.Detects excused (Saw names) none (fun _ s => Saw names s ∧ s.state.left = rest)
      (Evaluation.leave rest) :=
  .change fun s hs => ⟨h.leave names rest s hs, rfl⟩

end Evaluation

open Evaluation (Rules)

variable {β H : Type} {rules : Rules β H} {excused : CompileError → Prop} {bound : String → Bool}
  {Saw : List String → Logged (Evaluation β H) → Prop} {P : Slot H → Prop}

namespace Expr

open Token (firstFault? names)

variable (rules excused bound Saw P) in
/-- Evaluation of the expression fails by the first fault of its tokens. -/
def Detects (e : Expr) : Prop :=
  ∀ seen rest, Action.Detects excused (Saw seen) (firstFault? bound e.tokens)
    (fun slot s => P slot ∧ Saw (seen ++ names e.tokens) s ∧ s.state.left = rest)
    (e.evaluate rules rest)

variable (rules excused bound Saw P) in
/-- The same for several expressions. Only if there are any, the tokens before are left. -/
def DetectsAll (es : List Expr) : Prop :=
  ∀ seen rest, Action.Detects excused (Saw seen) (firstFault? bound (tokensAll es))
    (fun slots s => (slots.length = es.length ∧ ∀ slot ∈ slots, P slot) ∧
      Saw (seen ++ names (tokensAll es)) s ∧ (es ≠ [] → s.state.left = rest))
    (evaluateAll rules es rest)

theorem detectsAll {es : List Expr} (hes : ∀ e ∈ es, e.Detects rules excused bound Saw P) :
    DetectsAll rules excused bound Saw P es := by
  induction es with
  | nil =>
    exact fun seen rest => .pure fun s hs => ⟨⟨rfl, nofun⟩, by simpa [tokensAll] using hs, nofun⟩
  | cons e es ih =>
    intro seen rest
    have hfault : firstFault? bound (tokensAll (e :: es)) =
        (firstFault? bound (tokensAll es)).or ((firstFault? bound e.tokens).or none) := by
      simp [tokensAll]
    rw [hfault, tokensAll, Token.names_append, ← List.append_assoc, evaluateAll]
    refine (ih (fun e he => hes e (List.mem_cons_of_mem _ he)) seen _).bind fun slots =>
      .assume fun hslots => ?_
    refine ((hes e List.mem_cons_self _ rest).weaken (fun _ hs => hs.1) fun _ _ hs => hs).bind
      fun slot => .assume fun hslot => .pure fun s hs => ?_
    refine ⟨⟨congrArg (· + 1) hslots.1, fun slot' hslot' => ?_⟩, hs.1, fun _ => hs.2⟩
    rcases List.mem_cons.1 hslot' with rfl | hslot'
    · exact hslot
    · exact hslots.2 slot' hslot'

/-- A primitive applied to expressions. -/
theorem detects_apply (h : rules.Detect excused bound Saw P) {es : List Expr}
    (hes : ∀ e ∈ es, e.Detects rules excused bound Saw P) {p : Primitive}
    (hp : p.accepts es.length = true) (hne : es ≠ []) (seen : List String) (rest : List Token) :
    Action.Detects excused (Saw seen) (firstFault? bound (tokensAll es))
      (fun slot s => P slot ∧ Saw (seen ++ names (tokensAll es)) s ∧ s.state.left = rest)
      (do rules.apply p (← evaluateAll rules es rest)) := by
  have hbind := (detectsAll hes seen rest).bind fun slots => Action.Detects.assume fun hslots =>
    (h.apply p slots (seen ++ names (tokensAll es)) rest (by rw [hslots.1, hp]) hslots.2).weaken
      (fun s hs => ⟨hs.1, hs.2 hne⟩) fun _ _ hs => hs
  simpa using hbind

/-- An expression after another one, whatever tokens that one left. -/
theorem Detects.next {e : Expr} (he : e.Detects rules excused bound Saw P) (seen : List String)
    (rest left : List Token) :
    Action.Detects excused (fun s => Saw seen s ∧ s.state.left = left) (firstFault? bound e.tokens)
      (fun slot s => P slot ∧ Saw (seen ++ names e.tokens) s ∧ s.state.left = rest)
      (e.evaluate rules rest) :=
  (he seen rest).weaken (fun _ hs => hs.1) fun _ _ hs => hs

/-- The choice by a comparison takes its branches first, and then the comparison. -/
theorem detects_ternary (h : rules.Detect excused bound Saw P) {test : Comparison}
    {lhs rhs ifTrue ifFalse : Expr} (hl : lhs.Detects rules excused bound Saw P)
    (hr : rhs.Detects rules excused bound Saw P) (ht : ifTrue.Detects rules excused bound Saw P)
    (hf : ifFalse.Detects rules excused bound Saw P) :
    (ternary test lhs rhs ifTrue ifFalse).Detects rules excused bound Saw P := by
  intro seen rest
  have hfault : firstFault? bound (ternary test lhs rhs ifTrue ifFalse).tokens =
      (firstFault? bound ifFalse.tokens).or ((firstFault? bound ifTrue.tokens).or
        ((firstFault? bound rhs.tokens).or ((firstFault? bound lhs.tokens).or none))) := by
    simp [tokens, Token.fault?, Option.or_assoc]
  have hnames : seen ++ names (ternary test lhs rhs ifTrue ifFalse).tokens =
      seen ++ names ifFalse.tokens ++ names ifTrue.tokens ++ names rhs.tokens ++
        names lhs.tokens := by
    simp [tokens, Token.name?]
  rw [hfault, hnames, evaluate]
  refine (hf seen _).bind fun otherwise => .assume fun hotherwise => ?_
  refine (ht.next _ _ _).bind fun consequent => .assume fun hconsequent => ?_
  refine (hr.next _ _ _).bind fun second => .assume fun hsecond => ?_
  refine (hl.next _ rest _).bind fun first => .assume fun hfirst => ?_
  exact h.apply (.condition test) [first, second, consequent, otherwise] _ rest rfl (by simp [*])

/-- A token that stands for a value. -/
theorem detects_value (h : rules.Detect excused bound Saw P) (v : Value H) (seen : List String)
    (rest : List Token) :
    Action.Detects excused (Saw seen) none
      (fun slot s => P slot ∧ Saw (seen ++ []) s ∧ s.state.left = rest)
      (do Evaluation.leave rest; return some v) :=
  (h.detects_leave seen rest).bind fun _ => .pure fun _ hs => ⟨h.value v, by simpa using hs⟩

theorem detects_constant (h : rules.Detect excused bound Saw P) (c : Constant) :
    (constant c).Detects rules excused bound Saw P :=
  detects_value h (Evaluation.constant c)

mutual

/-- Evaluation of an expression fails by the first fault of its tokens. -/
theorem detects (h : rules.Detect excused bound Saw P) :
    (e : Expr) → e.Detects rules excused bound Saw P
  | number text => fun seen rest => by
    have hfault : firstFault? bound (number text).tokens = (Token.number text).fault? bound := by
      simp [tokens]
    rw [evaluate, hfault, Token.fault?]
    cases Number.read? text with
    | some x => exact detects_value h (.scalar x) seen rest
    | none => exact (h.detects_leave seen rest).bind fun _ => .throw _
  | constant c => detects_constant h c
  | order o => detects_value h (.order o)
  | identifier name => fun seen rest => by
    have hfault : firstFault? bound (identifier name).tokens =
        (none : Option CompileError).or ((Token.identifier name).fault? bound) := by
      simp [tokens]
    rw [evaluate, hfault]
    exact (h.detects_leave seen rest).bind fun _ => h.identifier name seen rest
  | call name args => fun seen rest => by
    rw [evaluate]
    simp only [tokens, Token.firstFault?_append, Token.firstFault?_cons, Token.firstFault?_nil,
      Option.none_or, Token.fault?, Token.names_append, Token.names_cons, Token.name?]
    cases Function.ofName? name with
    | none => exact (h.detects_leave seen _).bind fun _ => .throw _
    | some f =>
      dsimp only
      split
      · next harity =>
        have hne : args ≠ [] := by
          rintro rfl
          rw [List.length_nil, f.accepts_zero] at harity
          cases harity
        exact detects_apply h (detects_mem h args) (p := .call f) harity hne seen rest
      · exact (h.detects_leave seen _).bind fun _ => .throw _
  | list items => fun seen rest => by
    rw [evaluate]
    simp only [tokens, Token.firstFault?_append, Token.firstFault?_cons, Token.firstFault?_nil,
      Option.none_or, Token.fault?, Token.names_append, Token.names_cons, Token.name?]
    split
    · next harity =>
      have hne : items ≠ [] := by
        rintro rfl
        simp at harity
      exact detects_apply h (detects_mem h items) (p := .list)
        (by simpa [Primitive.accepts] using harity) hne seen rest
    · exact (h.detects_leave seen _).bind fun _ => .throw _
  | group inner => fun seen rest => by
    rw [tokens, evaluate]
    exact detects h inner seen rest
  | component object which => fun seen rest => by
    have happly := detects_apply h (p := .component which)
      (List.forall_mem_singleton.2 (detects h object)) rfl nofun seen rest
    simpa [tokens, tokensAll, evaluate, evaluateAll, Token.fault?, Token.name?] using happly
  | unary op operand => fun seen rest => by
    have happly := detects_apply h (p := op.primitive)
      (List.forall_mem_singleton.2 (detects h operand)) (by cases op <;> rfl) nofun seen rest
    have hfault : op.token.fault? bound = none := by cases op <;> rfl
    have hname : op.token.name? = none := by cases op <;> rfl
    simpa [tokens, tokensAll, evaluate, evaluateAll, hfault, hname] using happly
  | binary op lhs rhs => fun seen rest => by
    have hoperands : ∀ e ∈ [lhs, rhs], e.Detects rules excused bound Saw P := by
      simpa using ⟨detects h lhs, detects h rhs⟩
    have happly := detects_apply h hoperands (p := .binary op) rfl nofun seen rest
    simpa [tokens, tokensAll, evaluate, evaluateAll, Token.fault?, Token.name?] using happly
  | compare test lhs rhs => fun seen rest => by
    have htokens : (compare test lhs rhs).tokens =
        (ternary test lhs rhs (constant .true) (constant .false)).tokens := by
      simp [tokens]
    rw [htokens, evaluate_compare]
    exact detects_ternary h (detects h lhs) (detects h rhs) (detects_constant h .true)
      (detects_constant h .false) seen rest
  | ternary test lhs rhs ifTrue ifFalse =>
    detects_ternary h (detects h lhs) (detects h rhs) (detects h ifTrue) (detects h ifFalse)

theorem detects_mem (h : rules.Detect excused bound Saw P) :
    (es : List Expr) → ∀ e ∈ es, e.Detects rules excused bound Saw P
  | [] => nofun
  | e :: es => by
    intro e' he'
    cases he' with
    | head => exact detects h e
    | tail _ he' => exact detects_mem h es e' he'

end

end Expr

namespace Statement

open Token (firstFault? names foldNegation)

/-- Evaluation of a source fails by the first fault of its tokens. If it succeeds, all tokens
    are taken, and an assignment has no value. -/
theorem detects (h : rules.Detect excused bound Saw P) (s : Statement) (seen : List String) :
    Action.Detects excused (Saw seen) (firstFault? bound (foldNegation s.tokens))
      (fun slot state => (if s.destination.isSome then slot = none else P slot) ∧
        Saw (seen ++ names (foldNegation s.tokens)) state ∧ state.state.left = [])
      (Evaluation.Recursive.evaluate rules (foldNegation s.tokens)) := by
  obtain ⟨destination, e⟩ := s
  cases destination with
  | none =>
    simp only [tokens, assignment, List.append_nil]
    rw [← Expr.tokens_folded, Expr.evaluate_tokens]
    exact e.folded.detects h seen []
  | some name =>
    simp only [tokens, assignment]
    have hfault : firstFault? bound (e.folded.tokens ++ [.identifier name, .assign]) =
        (none : Option CompileError).or (((Token.identifier name).fault? bound).or
          ((firstFault? bound e.folded.tokens).or none)) := by
      simp [Token.fault?]
    have hnames : seen ++ names (e.folded.tokens ++ [.identifier name, .assign]) =
        seen ++ [name] ++ names e.folded.tokens := by
      simp [Token.name?]
    rw [Expr.foldNegation_assignment, hfault, hnames, Expr.evaluate_assignment]
    refine (h.detects_leave seen _).bind fun _ => ?_
    refine (h.identifier name seen _).bind fun destination => .assume fun hdestination => ?_
    refine ((e.folded.detects h).next _ [] _).bind fun source => .assume fun hsource => ?_
    exact h.assign source destination _ [] hsource hdestination

end Statement

end RigExpr
