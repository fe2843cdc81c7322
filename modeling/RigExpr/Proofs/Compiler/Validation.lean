import RigExpr.Compiler
import RigExpr.Graph.Builder
import RigExpr.Proofs.Evaluation.Cache
import RigExpr.Proofs.Evaluation.Faults
import RigExpr.Proofs.Grammar.Tokens
import RigExpr.Proofs.Number.Sign

/-!
# Validation

The tokens of an accepted source are in order but for calls and lists: a call may name no
function or have the wrong number of arguments, and a list the wrong length
(`Token.IsSound`). Validation fails by the first of these from the end, and by nothing else;
otherwise it takes all tokens (`Compiler.validate_iff_isSound`).

Emission fails by the same tokens, and by identifiers that are not bound, which validation
reports. All other errors of emission are refusals of the backend
(`Compiler.emit_of_validate`).
-/

namespace RigExpr

/-! ## The rules of the modes -/

namespace Action.Detects

variable {ε σ τ α : Type} {excused : ε → Prop} {pre : Logged σ → Prop}

/-- After an action that is not at fault and that keeps what holds. -/
theorem andThen {β : Type} {fault : Option ε} {a : Action ε σ α}
    (h : Detects excused pre none (fun _ => pre) a) {f : α → Action ε σ β}
    {post : β → Logged σ → Prop} (hf : ∀ v, Detects excused pre fault post (f v)) :
    Detects excused pre fault post (a >>= f) := by
  rw [← Option.none_or (o := fault)]
  exact h.bind hf

protected theorem state : Detects excused pre none (fun _ => pre) (state : Action ε σ σ) where
  ok s v s' hs hrun := by
    cases hrun
    exact ⟨rfl, hs⟩
  error s e s' _ hrun := by cases hrun

protected theorem say {level : Level} {text : String}
    (h : ∀ s log, pre s → pre ⟨s.state, log⟩) :
    Detects excused pre none (fun _ => pre) (say level text : Action ε σ Unit) where
  ok s v s' hs hrun := by
    cases hrun
    exact ⟨rfl, h s _ hs⟩
  error s e s' _ hrun := by cases hrun

/-- An action that fails by excused errors only, on a part of the state that does not
    matter. -/
theorem frame {part : σ → τ} {put : σ → τ → σ} {a : Action ε τ α}
    (ha : ∀ t e, (a.runOn t).1 = .error e → excused e)
    (hput : ∀ s t log, pre s → pre ⟨put s.state t, log⟩) :
    Detects excused pre none (fun _ => pre) (zoom part put id a) where
  ok s v s' hs hrun := by
    rw [runOn_zoom] at hrun
    obtain ⟨-, rfl⟩ := Prod.mk.inj hrun
    exact ⟨rfl, hput s _ _ hs⟩
  error s e s' _ hrun := by
    rw [runOn_zoom, mapError_id] at hrun
    exact .inr (ha _ e (Prod.mk.inj hrun).1)

end Action.Detects

namespace CompileError

/-- The backend refuses an operation. -/
def IsRefusal : CompileError → Prop
  | refused _ => True
  | _ => False

end CompileError

namespace Primitive

variable {β H ε α : Type} [Backend β H ε]

/-- What the backend does fails by refusals only. -/
theorem isRefusal_onBackend (a : Action ε β α) (s : Logged β) (e : CompileError)
    (h : ((onBackend a).runOn s).1 = .error e) : e.IsRefusal := by
  rw [onBackend, Action.runOn_zoom] at h
  cases houtcome : (a.runOn ⟨id s.state, s.log⟩).1 with
  | ok v =>
    rw [houtcome] at h
    cases h
  | error refusal =>
    rw [houtcome] at h
    cases h
    trivial

theorem isRefusal_invokeCall {f : Function} {args : List (Value H)}
    (harity : f.arity.accepts args.length = true) (s : Logged β) (e : CompileError)
    (h : ((invokeCall f args : Action CompileError β (Value H)).runOn s).1 = .error e) :
    e.IsRefusal := by
  cases f with
  | clamp | lerp | slerp =>
    obtain ⟨a, b, c, rfl⟩ := List.length_eq_three.1 (of_decide_eq_true harity)
    exact isRefusal_onBackend _ s e h
  | remap =>
    match args, of_decide_eq_true harity with
    | [_, _, _, _, _], _ => exact isRefusal_onBackend _ s e h
  | dot | cross | distance | angle | xor | pow | modulo | min | max =>
    obtain ⟨a, b, rfl⟩ := List.length_eq_two.1 (of_decide_eq_true harity)
    exact isRefusal_onBackend _ s e h
  | vector | euler | quat | transform | matrix => exact isRefusal_onBackend _ s e h
  | switch =>
    match args, of_decide_eq_true harity with
    | _ :: _, _ => exact isRefusal_onBackend _ s e h
  | isScalar | isVector | value =>
    obtain ⟨a, rfl⟩ := List.length_eq_one_iff.1 (of_decide_eq_true harity)
    cases h
  | cos | sin | tan | acos | asin | atan | noise | dnoise | norm | len | rotateOrder | int | bool
  | inverse | exp | sqrt | abs | sign =>
    obtain ⟨a, rfl⟩ := List.length_eq_one_iff.1 (of_decide_eq_true harity)
    exact isRefusal_onBackend _ s e h

/-- With the right number of operands, a primitive fails by refusals only. -/
theorem isRefusal_invoke {p : Primitive} {args : List (Value H)}
    (hp : p.accepts args.length = true) (s : Logged β) (e : CompileError)
    (h : ((p.invoke args : Action CompileError β (Value H)).runOn s).1 = .error e) :
    e.IsRefusal := by
  cases p with
  | binary op =>
    obtain ⟨a, b, rfl⟩ := List.length_eq_two.1 (of_decide_eq_true hp)
    cases op <;> exact isRefusal_onBackend _ s e h
  | negate | not | component which =>
    obtain ⟨a, rfl⟩ := List.length_eq_one_iff.1 (of_decide_eq_true hp)
    exact isRefusal_onBackend _ s e h
  | condition test =>
    match args, of_decide_eq_true hp with
    | [_, _, _, _], _ => exact isRefusal_onBackend _ s e h
  | list =>
    obtain ⟨v, hv⟩ := Value.exists_ofItems? (by simpa [accepts] using hp)
    rw [invoke, Value.ofItems, hv] at h
    cases h
  | call f => exact isRefusal_invokeCall hp s e h

end Primitive

namespace Bindings

variable {H : Type}

/-- The bindings after a name was looked up without need. -/
def look (b : Bindings H) (name : String) : Bindings H :=
  if (b.values.get? name).isSome then (b.resolve name).2 else b.markInvalid name

theorem values_look (b : Bindings H) (name : String) : (b.look name).values = b.values := by
  unfold look resolve
  split
  · split <;> rfl
  · rfl

theorem invalid_look (b : Bindings H) (name : String) :
    (b.look name).invalid = [] ↔ b.invalid = [] ∧ (b.values.get? name).isSome = true := by
  unfold look resolve
  cases h : b.values.get? name with
  | some v => simp
  | none =>
    simp only [Option.isSome_none, Bool.false_eq_true, if_false, and_false, iff_false, markInvalid,
      note]
    split
    · next hmem => exact List.ne_nil_of_mem hmem
    · simp

theorem invalid_register [ToString H] (b : Bindings H) (pairs : List (String × Value H)) :
    (b.register pairs).invalid = b.invalid := by
  induction pairs generalizing b with
  | nil => rfl
  | cons p pairs ih => exact ih (b.bind p.1 p.2)

/-- Nothing is invalid if and only if all names that were looked up are bound. -/
theorem invalid_foldl_look (b : Bindings H) (names : List String) :
    (names.foldl look b).invalid = [] ↔
      b.invalid = [] ∧ ∀ name ∈ names, (b.values.get? name).isSome = true := by
  induction names generalizing b with
  | nil => simp
  | cons name names ih =>
    rw [List.foldl_cons, ih, invalid_look, values_look, List.forall_mem_cons, and_assoc]

end Bindings

namespace Evaluation

variable {β H ε : Type}

theorem runOn_identifier_validate (name : String) (s : Logged (Evaluation β H)) :
    (identifier .validate name).runOn s =
      (.ok (s.state.bindings.values.get? name),
        ⟨{ s.state with bindings := s.state.bindings.look name }, s.log⟩) := by
  cases h : s.state.bindings.values.get? name <;>
    simp [identifier, Action.runOn_bind, Bindings.resolve, Bindings.look, h, Except.map]

theorem detects_identifier (values : Table String (Value H)) (name : String) (left : List Token) :
    Action.Detects CompileError.IsRefusal
      (fun s : Logged (Evaluation β H) => s.state.bindings.values = values ∧ s.state.left = left)
      ((Token.identifier name).fault? fun name => (values.get? name).isSome)
      (fun slot s => slot.isSome = true ∧ s.state.bindings.values = values ∧ s.state.left = left)
      (identifier .emit name) := by
  refine ⟨fun s v s' hs h => ?_, fun s e s' hs h => ?_⟩
  · obtain ⟨hv, rfl⟩ := Prod.mk.inj ((runOn_identifier name s).symm.trans h)
    rw [hs.1] at hv
    split at hv <;> cases hv
    next hget =>
      exact ⟨by simp [Token.fault?, hget], rfl, (Bindings.values_resolve _ _).trans hs.1, hs.2⟩
  · obtain ⟨he, rfl⟩ := Prod.mk.inj ((runOn_identifier name s).symm.trans h)
    rw [hs.1] at he
    split at he <;> cases he
    next hget => exact .inl (by simp [Token.fault?, hget])

theorem exists_values? {operands : List (Slot H)} (h : ∀ slot ∈ operands, slot.isSome = true) :
    ∃ args, values? operands = some args := by
  induction operands with
  | nil => exact ⟨[], rfl⟩
  | cons slot operands ih =>
    obtain ⟨v, rfl⟩ := Option.isSome_iff_exists.1 (h slot List.mem_cons_self)
    obtain ⟨args, hargs⟩ := ih fun slot hslot => h slot (List.mem_cons_of_mem _ hslot)
    exact ⟨v :: args, by simp [values?, hargs]⟩

variable [ToString H] [Backend β H ε]

/-- Validation looks up identifiers, and that is all it does. -/
theorem detect_validate (b : Bindings H) (log : List Line) :
    (Rules.ofMode .validate : Rules β H).Detect (fun _ => False) (fun _ => true)
      (fun names s => s.state.bindings = names.foldl Bindings.look b ∧ s.log = log)
      (fun _ => True) where
  leave _ _ _ hs := hs
  value _ := trivial
  identifier name names left := by
    refine ⟨fun s v s' hs hrun => ?_, fun s e s' _ hrun => ?_⟩
    · obtain ⟨-, rfl⟩ := Prod.mk.inj ((runOn_identifier_validate name s).symm.trans hrun)
      refine ⟨rfl, trivial, ⟨?_, hs.1.2⟩, hs.2⟩
      rw [List.foldl_append, ← hs.1.1]
      rfl
    · cases (runOn_identifier_validate name s).symm.trans hrun
  apply _ _ _ _ _ _ := .pure fun _ hs => ⟨trivial, hs⟩
  assign _ _ _ _ _ _ := .pure fun _ hs => ⟨rfl, hs⟩

theorem detects_apply (values : Table String (Value H)) (p : Primitive)
    {operands : List (Slot H)} (hp : p.accepts operands.length = true)
    (hoperands : ∀ slot ∈ operands, slot.isSome = true) (left : List Token) :
    Action.Detects CompileError.IsRefusal
      (fun s : Logged (Evaluation β H) => s.state.bindings.values = values ∧ s.state.left = left)
      none
      (fun slot s => slot.isSome = true ∧ s.state.bindings.values = values ∧ s.state.left = left)
      (apply .emit p operands) := by
  obtain ⟨args, hargs⟩ := exists_values? hoperands
  rw [values?_eq_some hargs, List.length_map] at hp
  simp only [apply, hargs]
  refine .andThen .state fun s => ?_
  split
  · -- the cache has the value
    exact .andThen (.say fun _ _ hs => hs) fun _ => .pure fun _ hs => ⟨rfl, hs⟩
  · refine .andThen (.say fun _ _ hs => hs) fun _ => ?_
    refine .andThen (.frame (Primitive.isRefusal_invoke hp) fun _ _ _ hs => hs) fun v => ?_
    exact .andThen (.change fun _ hs => hs) fun _ => .pure fun _ hs => ⟨rfl, hs⟩

theorem detects_assign (values : Table String (Value H)) {source destination : Slot H}
    (hsource : source.isSome = true) (hdestination : destination.isSome = true)
    (left : List Token) :
    Action.Detects CompileError.IsRefusal
      (fun s : Logged (Evaluation β H) => s.state.bindings.values = values ∧ s.state.left = left)
      none
      (fun slot s => slot = none ∧ s.state.bindings.values = values ∧ s.state.left = left)
      (assign .emit source destination) := by
  obtain ⟨source, rfl⟩ := Option.isSome_iff_exists.1 hsource
  obtain ⟨destination, rfl⟩ := Option.isSome_iff_exists.1 hdestination
  simp only [assign]
  refine .andThen (.say fun _ _ hs => hs) fun _ => ?_
  refine .andThen (.frame (Primitive.isRefusal_onBackend _) fun _ _ _ hs => hs) fun _ => ?_
  exact .pure fun _ hs => ⟨rfl, hs⟩

/-- Emission fails by refusals, and by identifiers that are not bound. -/
theorem detect_emit (values : Table String (Value H)) :
    (Rules.ofMode .emit : Rules β H).Detect CompileError.IsRefusal
      (fun name => (values.get? name).isSome) (fun _ s => s.state.bindings.values = values)
      (fun slot => slot.isSome = true) where
  leave _ _ _ hs := hs
  value _ := rfl
  identifier name _ left := detects_identifier values name left
  apply p _ _ left hp hoperands := detects_apply values p hp hoperands left
  assign _ _ _ left hsource hdestination := detects_assign values hsource hdestination left

end Evaluation

/-! ## Sources -/

namespace Token

/-- A call of a function with an accepted number of arguments, a list with two to four
    elements, or any other token. -/
def IsSound : Token → Prop
  | call name arity => ∃ f : Function, f.name = name ∧ f.arity.accepts arity = true
  | list arity => 2 ≤ arity ∧ arity ≤ 4
  | _ => True

/-- The error that a token is to blame for. -/
inductive Causes : Token → CompileError → Prop
  | unknown {name : String} (arity : Nat) (hword : Lexeme.IsWord name)
    (h : ∀ f : Function, f.name ≠ name) : Causes (.call name arity) (.invalidOperator name)
  | arity (f : Function) {arity : Nat} (h : f.arity.accepts arity = false) :
    Causes (.call f.name arity) (.arity f.name f.arity arity)
  | length {arity : Nat} (h : ¬(2 ≤ arity ∧ arity ≤ 4)) :
    Causes (.list arity) (.sequenceLength arity)

/-- A token whose texts are fine: the name of a function is a word, and a number can be
    read. -/
def IsReadable : Token → Prop
  | number text => (Number.read? text).isSome = true
  | call name _ => Lexeme.IsWord name
  | _ => True

theorem name_of_ofName? {name : String} {f : Function} (h : Function.ofName? name = some f) :
    f.name = name := by
  simpa using List.find?_some h

/-- Where identifiers need not be bound, what is at fault is a call or list that is not
    sound. -/
theorem fault?_eq_none_iff {t : Token} (ht : t.IsReadable) :
    t.fault? (fun _ => true) = none ↔ t.IsSound := by
  cases t with
  | call name arity =>
    cases hf : Function.ofName? name with
    | none =>
      simp only [fault?, hf, reduceCtorEq, false_iff]
      rintro ⟨f, rfl, -⟩
      simp at hf
    | some f =>
      obtain rfl := name_of_ofName? hf
      simp only [fault?, hf, ite_eq_left_iff, reduceCtorEq, imp_false, not_not, IsSound]
      refine ⟨fun h => ⟨f, rfl, h⟩, ?_⟩
      rintro ⟨f', hname, harity⟩
      rw [← hname, Function.ofName?_name] at hf
      exact Option.some.inj hf ▸ harity
  | list arity => simp [fault?, IsSound]
  | number text =>
    have ht : (Number.read? text).isSome = true := ht
    simp [fault?, IsSound, ht]
  | _ => simp [fault?, IsSound]

theorem causes_of_fault? {t : Token} (ht : t.IsReadable) {e : CompileError}
    (h : t.fault? (fun _ => true) = some e) : t.Causes e := by
  cases t with
  | call name arity =>
    cases hf : Function.ofName? name with
    | none =>
      simp only [fault?, hf, Option.some.injEq] at h
      subst h
      refine .unknown arity ht ?_
      rintro f rfl
      simp at hf
    | some f =>
      obtain rfl := name_of_ofName? hf
      simp only [fault?, hf] at h
      split at h <;> cases h
      next harity => exact .arity f (by simpa using harity)
  | list arity =>
    simp only [fault?] at h
    split at h <;> cases h
    next harity => exact .length harity
  | number text =>
    have ht : (Number.read? text).isSome = true := ht
    simp [fault?, ht] at h
  | _ => simp [fault?] at h

/-- All identifiers have to be bound in addition. -/
theorem firstFault?_eq_none_iff (bound : String → Bool) (tokens : List Token) :
    firstFault? bound tokens = none ↔
      firstFault? (fun _ => true) tokens = none ∧ ∀ name ∈ names tokens, bound name = true := by
  have htoken (t : Token) : t.fault? bound = none ↔
      t.fault? (fun _ => true) = none ∧ ∀ name, t.name? = some name → bound name = true := by
    cases t <;> simp [fault?, name?]
  simp only [firstFault?, names, List.findSome?_eq_none_iff, htoken, List.mem_filterMap]
  refine ⟨fun h => ⟨fun t ht => (h t ht).1, ?_⟩, fun h t ht => ⟨h.1 t ht, fun name hname => ?_⟩⟩
  · rintro name ⟨t, ht, hname⟩
    exact (h t ht).2 name hname
  · exact h.2 name ⟨t, ht, hname⟩

/-- The tokens of a source are readable, and so are the numbers with their signs turned. -/
theorem isReadable_foldNegation {tokens : List Token}
    (h : ∀ t ∈ tokens, (∀ name, t ≠ .identifier name) → t.IsWritten) :
    ∀ t ∈ foldNegation tokens, t.IsReadable := by
  fun_induction foldNegation tokens with
  | case1 text rest ih =>
    obtain ⟨x, -, hx⟩ := Number.read?_turnSign (h (.number text) List.mem_cons_self
      fun _ ht => by cases ht)
    intro t ht
    rcases List.mem_cons.1 ht with rfl | ht
    · exact Option.isSome_iff_exists.2 ⟨_, hx⟩
    · exact ih (fun t ht => h t (List.mem_cons_of_mem _ (List.mem_cons_of_mem _ ht))) t ht
  | case2 token rest _ ih =>
    intro t ht
    rcases List.mem_cons.1 ht with rfl | ht
    · have hwritten := h t List.mem_cons_self
      cases t with
      | number text =>
        obtain ⟨x, hx, -⟩ := Number.read?_turnSign (hwritten fun _ ht => by cases ht)
        exact Option.isSome_iff_exists.2 ⟨x, hx⟩
      | call name arity => exact hwritten fun _ ht => by cases ht
      | _ => trivial
    · exact ih (fun t ht => h t (List.mem_cons_of_mem _ ht)) t ht
  | case3 => exact fun _ ht => absurd ht List.not_mem_nil

end Token

namespace Compiler

open Token (firstFault? names foldNegation)

variable {β H ε : Type}

theorem runOn_prepare_of_parse {source : String} {s : Logged (Compiler β H)}
    {statement : Statement} (h : Statement.parse s.state.config.maxDepth source = .ok statement) :
    (prepare source).runOn s = (.ok (foldNegation statement.tokens),
      ⟨s.state, s.log ++ [⟨.trace, "parsed: " ++ Token.streamText statement.tokens⟩,
        ⟨.trace, "folded: " ++ Token.streamText (foldNegation statement.tokens)⟩]⟩) := by
  simp [prepare, h, Action.runOn_bind, Except.map]

theorem runOn_prepare_of_error {source : String} {s : Logged (Compiler β H)} {e : ParseError}
    (h : Statement.parse s.state.config.maxDepth source = .error e) :
    (prepare source).runOn s = (.error (.source e), s) := by
  simp [prepare, h, Action.runOn_bind]

variable [ToString H] [Backend β H ε]

/-- What is left to do with the value of all tokens. -/
def conclude (mode : Mode) (value : Slot H) : Run β H (Slot H) :=
  match mode, value with
  | .emit, some v =>
    some <$> onEvaluation (Evaluation.onBackend (Primitive.onBackend (Backend.conclude v)))
  | _, value => return value

theorem runOn_run_of_error {mode : Mode} {tokens : List Token} {s : Logged (Compiler β H)}
    {e : CompileError} {s' : Logged (Evaluation β H)}
    (h : (Evaluation.Recursive.evaluate (.ofMode mode) tokens).runOn ⟨s.state.evaluation, s.log⟩ =
      (.error e, s')) :
    (run mode tokens).runOn s =
      (.error e, ⟨{ s.state with evaluation := s'.state }, s'.log⟩) := by
  rw [Evaluation.recursive_evaluate_ofMode] at h
  have honEvaluation : (onEvaluation (Evaluation.evaluate mode tokens)).runOn s =
      (.error e, ⟨{ s.state with evaluation := s'.state }, s'.log⟩) := by
    rw [onEvaluation, Action.runOn_zoom, h]
    rfl
  rw [run, Action.runOn_bind_of_error honEvaluation]

/-- If all tokens are taken, nothing is said about them. -/
theorem runOn_run_of_ok {mode : Mode} {tokens : List Token} {s : Logged (Compiler β H)}
    {value : Slot H} {s' : Logged (Evaluation β H)}
    (h : (Evaluation.Recursive.evaluate (.ofMode mode) tokens).runOn ⟨s.state.evaluation, s.log⟩ =
      (.ok value, s')) (hleft : s'.state.left = []) :
    (run mode tokens).runOn s =
      (conclude mode value).runOn ⟨{ s.state with evaluation := s'.state }, s'.log⟩ := by
  rw [Evaluation.recursive_evaluate_ofMode] at h
  have honEvaluation : (onEvaluation (Evaluation.evaluate mode tokens)).runOn s =
      (.ok value, ⟨{ s.state with evaluation := s'.state }, s'.log⟩) := by
    rw [onEvaluation, Action.runOn_zoom, h]
    rfl
  rw [run, Action.runOn_bind_of_ok honEvaluation]
  simp only [Action.runOn_bind, Action.runOn_state, hleft, List.isEmpty_nil, conclude]
  rfl

/-- The compiler when a source is about to be evaluated. -/
def primed (c : Compiler β H) (bindings : List (String × Value H)) : Compiler β H :=
  { c with
    evaluation :=
      { backend := c.evaluation.backend, bindings := Bindings.empty.register bindings } }

theorem exists_runOn_validate {c : Compiler β H} {source : String} {statement : Statement}
    (h : Statement.parse c.config.maxDepth source = .ok statement)
    (bindings : List (String × Value H)) (log : List Line) :
    ∃ lines : List Line, (∀ line ∈ lines, line.level ≠ .warn) ∧
      (validate source bindings).runOn ⟨c, log⟩ =
        (run .validate (foldNegation statement.tokens) >>= fun _ => do
          return (← Action.state).evaluation.bindings.report).runOn
            ⟨c.primed bindings, log ++ lines⟩ := by
  have hprepare := runOn_prepare_of_parse
    (s := ⟨c.primed bindings, log ++ [⟨.debug, "validate: " ++ source⟩]⟩) h
  rw [List.append_assoc] at hprepare
  refine ⟨_, ?_, Action.runOn_bind_of_ok hprepare _⟩
  simp

theorem exists_runOn_emit {c : Compiler β H} {source : String} {statement : Statement}
    (h : Statement.parse c.config.maxDepth source = .ok statement)
    (bindings : List (String × Value H)) (log : List Line) :
    ∃ log', (emit source bindings).runOn ⟨c, log⟩ =
      (run .emit (foldNegation statement.tokens)).runOn ⟨c.primed bindings, log'⟩ :=
  ⟨_, Action.runOn_bind_of_ok (runOn_prepare_of_parse (s := ⟨c.primed bindings, _⟩) h) _⟩

/-- A source that is not accepted fails in both modes. -/
theorem runOn_of_parse_error {c : Compiler β H} {source : String} {e : ParseError}
    (h : Statement.parse c.config.maxDepth source = .error e)
    (bindings : List (String × Value H)) (log : List Line) :
    ((validate source bindings).runOn ⟨c, log⟩).1 = .error (.source e) ∧
      ((emit source bindings).runOn ⟨c, log⟩).1 = .error (.source e) := by
  have hprepare (log : List Line) := runOn_prepare_of_error (s := ⟨c.primed bindings, log⟩) h
  exact ⟨congrArg Prod.fst (Action.runOn_bind_of_error (hprepare _) _),
    congrArg Prod.fst (Action.runOn_bind_of_error (hprepare _) _)⟩

/-- The outcome of a validation: it takes all tokens, and it reports the use of each
    identifier, or else it fails by the first fault. -/
theorem validate_cases (c : Compiler β H) {source : String} {statement : Statement}
    (h : Statement.parse c.config.maxDepth source = .ok statement)
    (bindings : List (String × Value H)) (log : List Line) :
    (firstFault? (fun _ => true) (foldNegation statement.tokens) = none ∧
      ∃ s, (validate source bindings).runOn ⟨c, log⟩ =
        (.ok ((names (foldNegation statement.tokens)).foldl Bindings.look
          (Bindings.empty.register bindings)).report, s) ∧
        s.state.evaluation.left = [] ∧
        ∃ lines, s.log = log ++ lines ∧ ∀ line ∈ lines, line.level ≠ .warn) ∨
    ∃ e, firstFault? (fun _ => true) (foldNegation statement.tokens) = some e ∧
      ((validate source bindings).runOn ⟨c, log⟩).1 = .error e := by
  obtain ⟨lines, hlines, hvalidate⟩ := exists_runOn_validate h bindings log
  have hdetects := statement.detects
    (Evaluation.detect_validate (β := β) (Bindings.empty.register bindings) (log ++ lines)) []
  rw [hvalidate]
  rcases hrun : (Evaluation.Recursive.evaluate (.ofMode .validate)
    (foldNegation statement.tokens)).runOn
      ⟨(c.primed bindings).evaluation, log ++ lines⟩ with ⟨e | value, s⟩
  · refine .inr ⟨e, (hdetects.error _ e s ⟨rfl, rfl⟩ hrun).resolve_right id, ?_⟩
    have herror := runOn_run_of_error (s := ⟨c.primed bindings, log ++ lines⟩) hrun
    rw [Action.runOn_bind_of_error herror]
  · obtain ⟨hfault, -, ⟨hbindings, hlog⟩, hleft⟩ := hdetects.ok _ value s ⟨rfl, rfl⟩ hrun
    have hok := runOn_run_of_ok (s := ⟨c.primed bindings, log ++ lines⟩) hrun hleft
    have hconclude : (conclude .validate value : Run β H (Slot H)) = pure value := rfl
    rw [hconclude, Action.runOn_pure] at hok
    refine .inl ⟨hfault, ⟨{ c.primed bindings with evaluation := s.state }, s.log⟩, ?_, hleft,
      lines, hlog, hlines⟩
    rw [List.nil_append] at hbindings
    rw [Action.runOn_bind_of_ok hok, ← hbindings]
    rfl

/-- The outcome of an emission: if all is well, only an assignment has no value, and else it
    fails by the first fault, or by a refusal. -/
theorem emit_cases (c : Compiler β H) {source : String} {statement : Statement}
    (h : Statement.parse c.config.maxDepth source = .ok statement)
    (bindings : List (String × Value H)) (log : List Line) :
    (firstFault? (fun name => ((Bindings.empty.register bindings).values.get? name).isSome)
      (foldNegation statement.tokens) = none ∧
      ∃ slot, ((emit source bindings).runOn ⟨c, log⟩).1 = .ok slot ∧
        (slot = none ↔ statement.destination.isSome = true)) ∨
    ∃ e, ((emit source bindings).runOn ⟨c, log⟩).1 = .error e ∧
      (firstFault? (fun name => ((Bindings.empty.register bindings).values.get? name).isSome)
        (foldNegation statement.tokens) = some e ∨ e.IsRefusal) := by
  obtain ⟨log', hemit⟩ := exists_runOn_emit h bindings log
  have hdetects := statement.detects
    (Evaluation.detect_emit (β := β) (Bindings.empty.register bindings).values) []
  rw [hemit]
  rcases hrun : (Evaluation.Recursive.evaluate (.ofMode .emit)
    (foldNegation statement.tokens)).runOn ⟨(c.primed bindings).evaluation, log'⟩
    with ⟨e | value, s⟩
  · have herror := runOn_run_of_error (s := ⟨c.primed bindings, log'⟩) hrun
    exact .inr ⟨e, congrArg Prod.fst herror, hdetects.error _ e s rfl hrun⟩
  · obtain ⟨hfault, hvalue, -, hleft⟩ := hdetects.ok _ value s rfl hrun
    rw [runOn_run_of_ok (s := ⟨c.primed bindings, log'⟩) hrun hleft]
    cases value with
    | none =>
      -- only an assignment comes without a value
      refine .inl ⟨hfault, none, rfl, ?_⟩
      split at hvalue
      · next hdestination => simp [hdestination]
      · cases hvalue
    | some v =>
      have hdestination : statement.destination.isSome = false := by
        split at hvalue
        · cases hvalue
        · next hdestination => simpa using hdestination
      rcases hconclude : (Primitive.onBackend (Backend.conclude v)).runOn
        ⟨s.state.backend, s.log⟩ with ⟨e | w, b⟩
      · refine .inr ⟨e, ?_,
          .inr (Primitive.isRefusal_onBackend _ _ e (congrArg Prod.fst hconclude))⟩
        simp [conclude, onEvaluation, Evaluation.onBackend, hconclude, Except.map]
      · refine .inl ⟨hfault, some w, ?_, by simp [hdestination]⟩
        simp [conclude, onEvaluation, Evaluation.onBackend, hconclude, Except.map]

/-- Validation of an accepted source succeeds if and only if each call is one of a function with
    an accepted number of arguments and each list has two to four elements. Then all tokens
    are taken, and there is no warning. Otherwise it fails by the call or list that is the
    first not to be so from the end. -/
theorem validate_iff_isSound (c : Compiler β H) {source : String} {statement : Statement}
    (h : Statement.parse c.config.maxDepth source = .ok statement)
    (bindings : List (String × Value H)) (log : List Line) :
    ((∃ report s, (validate source bindings).runOn ⟨c, log⟩ = (.ok report, s)) ↔
      ∀ t ∈ foldNegation statement.tokens, t.IsSound) ∧
    (∀ report s, (validate source bindings).runOn ⟨c, log⟩ = (.ok report, s) →
      s.state.evaluation.left = [] ∧
        ∃ lines, s.log = log ++ lines ∧ ∀ line ∈ lines, line.level ≠ .warn) ∧
    ∀ e s, (validate source bindings).runOn ⟨c, log⟩ = (.error e, s) →
      ∃ before t after, foldNegation statement.tokens = before ++ t :: after ∧ t.Causes e ∧
        ∀ t' ∈ after, t'.IsSound := by
  have hreadable := Token.isReadable_foldNegation fun _ => Statement.isWritten_of_mem_tokens h
  rcases validate_cases c h bindings log with ⟨hfault, s, hrun, hleft, hlines⟩ | ⟨e, hfault, hrun⟩
  · have hsound : ∀ t ∈ foldNegation statement.tokens, t.IsSound := fun t ht =>
      (Token.fault?_eq_none_iff (hreadable t ht)).1
        (List.findSome?_eq_none_iff.1 hfault t (List.mem_reverse.2 ht))
    refine ⟨⟨fun _ => hsound, fun _ => ⟨_, s, hrun⟩⟩, fun report s' heq => ?_, fun e s' heq => ?_⟩
    · obtain ⟨-, rfl⟩ := Prod.mk.inj (hrun.symm.trans heq)
      exact ⟨hleft, hlines⟩
    · exact absurd (Prod.mk.inj (hrun.symm.trans heq)).1 nofun
  · obtain ⟨after, t, before, htokens, ht, hafter⟩ := List.findSome?_eq_some_iff.1 hfault
    have htokens : foldNegation statement.tokens = before.reverse ++ t :: after.reverse := by
      rw [← List.reverse_reverse (foldNegation statement.tokens), htokens]
      simp
    rw [htokens, List.forall_mem_append, List.forall_mem_cons] at hreadable
    have hblame : ∃ before t after, foldNegation statement.tokens = before ++ t :: after ∧
        t.Causes e ∧ ∀ t' ∈ after, t'.IsSound := by
      refine ⟨_, t, _, htokens, Token.causes_of_fault? hreadable.2.1 ht, fun t' ht' => ?_⟩
      exact (Token.fault?_eq_none_iff (hreadable.2.2 t' ht')).1 (hafter t' (List.mem_reverse.1 ht'))
    refine ⟨⟨?_, fun hsound => ?_⟩, fun report s heq => ?_, fun e' s heq => ?_⟩
    · rintro ⟨report, s, heq⟩
      rw [heq] at hrun
      cases hrun
    · have hsound := hsound t (htokens ▸ by simp)
      rw [(Token.fault?_eq_none_iff hreadable.2.1).2 hsound] at ht
      cases ht
    · rw [heq] at hrun
      cases hrun
    · rw [heq] at hrun
      cases hrun
      exact hblame

/-- A source with a call, a list, a folded number and names that are not bound. -/
theorem validate_iff_isSound_norm :
    let c : Compiler Calculator Calculator.Name := { evaluation := { backend := {} } }
    let e : Expr := .call "norm" [.list [.identifier "a", .unary .negate (.number "1")]]
    Statement.parse c.config.maxDepth "o=norm([a,-1])" = .ok ⟨some "o", e⟩ ∧
      ∃ report s, (validate "o=norm([a,-1])" []).runOn ⟨c, []⟩ = (.ok report, s) := by
  intro c e
  have hscan : Lexeme.scan "o=norm([a,-1])" = .ok
      [⟨.word "o", ⟨0, 1⟩⟩, ⟨.symbol .assign, ⟨1, 2⟩⟩, ⟨.word "norm", ⟨2, 6⟩⟩,
        ⟨.symbol .openParen, ⟨6, 7⟩⟩, ⟨.symbol .openBracket, ⟨7, 8⟩⟩, ⟨.word "a", ⟨8, 9⟩⟩,
        ⟨.symbol .comma, ⟨9, 10⟩⟩, ⟨.symbol .minus, ⟨10, 11⟩⟩, ⟨.number "1", ⟨11, 12⟩⟩,
        ⟨.symbol .closeBracket, ⟨12, 13⟩⟩, ⟨.symbol .closeParen, ⟨13, 14⟩⟩] := by
    rw [Lexeme.scan_eq_scanWithin]
    rfl
  have hparse : Statement.parse c.config.maxDepth "o=norm([a,-1])" = .ok ⟨some "o", e⟩ := by
    rw [Statement.parse_eq hscan]
    rfl
  refine ⟨hparse, (validate_iff_isSound c hparse [] []).1.2 ?_⟩
  have htokens : foldNegation (Statement.mk (some "o") e).tokens =
      [.identifier "a", .number "-1", .list 2, .call "norm" 1, .identifier "o", .assign] := rfl
  rw [htokens]
  simp only [List.forall_mem_cons, Token.IsSound]
  exact ⟨trivial, trivial, by decide, ⟨.norm, rfl, rfl⟩, trivial, trivial, nofun⟩

/-- Validation and emission agree, from any two states of the backend. If a source is validated
    and all its identifiers are bound, emission succeeds, or the backend refuses an
    operation. If emission succeeds, the source is validated so, and there is no value
    exactly if the source is an assignment. -/
theorem emit_of_validate (c : Compiler β H) (evaluation : Evaluation β H) (source : String)
    (bindings : List (String × Value H)) (log log' : List Line) :
    let validated := ((validate source bindings).runOn ⟨c, log⟩).1
    let emitted := ((emit source bindings).runOn ⟨{ c with evaluation }, log'⟩).1
    (∀ report, validated = .ok report → report.invalid = [] →
      (∃ value, emitted = .ok value) ∨ ∃ reason, emitted = .error (.refused reason)) ∧
    ∀ value, emitted = .ok value →
      (∃ report, validated = .ok report ∧ report.invalid = []) ∧
      (value = none ↔ ∃ statement name, Statement.parse c.config.maxDepth source = .ok statement ∧
        statement.destination = some name) := by
  intro validated emitted
  cases hparse : Statement.parse c.config.maxDepth source with
  | error e =>
    have hvalidated : validated = .error (.source e) := (runOn_of_parse_error hparse bindings log).1
    have hemitted : emitted = .error (.source e) :=
      (runOn_of_parse_error (c := { c with evaluation }) hparse bindings log').2
    rw [hvalidated, hemitted]
    exact ⟨nofun, nofun⟩
  | ok statement =>
    have hfault := Token.firstFault?_eq_none_iff
      (fun name => ((Bindings.empty.register bindings).values.get? name).isSome)
      (foldNegation statement.tokens)
    have hinvalid := Bindings.invalid_foldl_look (Bindings.empty.register bindings)
      (names (foldNegation statement.tokens))
    rw [Bindings.invalid_register] at hinvalid
    have hassignment : (∃ statement' name, (.ok statement : Except ParseError Statement) =
        .ok statement' ∧ statement'.destination = some name) ↔
          statement.destination.isSome = true := by
      simp [Option.isSome_iff_exists]
    rcases validate_cases c hparse bindings log with ⟨hnone, s, hrun, -⟩ | ⟨e, hsome, hrun⟩ <;>
      rcases emit_cases { c with evaluation } hparse bindings log' with
        ⟨hnone', slot, hrun', hslot⟩ | ⟨e', hrun', he'⟩
    · have hvalidated : validated = .ok _ := congrArg Prod.fst hrun
      have hemitted : emitted = .ok slot := hrun'
      rw [hvalidated, hemitted]
      refine ⟨fun _ _ _ => .inl ⟨slot, rfl⟩, fun value hvalue => ?_⟩
      cases hvalue
      exact ⟨⟨_, rfl, hinvalid.2 ⟨rfl, (hfault.1 hnone').2⟩⟩, hslot.trans hassignment.symm⟩
    · have hvalidated : validated = .ok _ := congrArg Prod.fst hrun
      have hemitted : emitted = .error e' := hrun'
      rw [hvalidated, hemitted]
      refine ⟨fun report hreport hclean => .inr ?_, nofun⟩
      cases hreport
      rw [hfault.2 ⟨hnone, (hinvalid.1 hclean).2⟩] at he'
      obtain he' := he'.resolve_left nofun
      cases e' with
      | refused reason => exact ⟨reason, rfl⟩
      | _ => exact absurd he' id
    · -- what is at fault in validation is at fault in emission
      rw [(hfault.1 hnone').1] at hsome
      cases hsome
    · have hvalidated : validated = .error e := hrun
      have hemitted : emitted = .error e' := hrun'
      rw [hvalidated, hemitted]
      exact ⟨nofun, nofun⟩

/-- On the graph, with a value for each name: emission does not fail but by a refusal. -/
theorem emit_of_validate_sum :
    let c : Compiler Builder Plug := { evaluation := { backend := {} } }
    let bindings : List (String × Value Plug) := [("a", .scalar 1), ("b", .bool true)]
    (∃ report, ((validate "a+b" bindings).runOn ⟨c, []⟩).1 = .ok report ∧ report.invalid = []) ∧
      ((∃ value, ((emit "a+b" bindings).runOn ⟨c, []⟩).1 = .ok value) ∨
        ∃ reason, ((emit "a+b" bindings).runOn ⟨c, []⟩).1 = .error (.refused reason)) := by
  intro c bindings
  have hscan : Lexeme.scan "a+b" = .ok
      [⟨.word "a", ⟨0, 1⟩⟩, ⟨.symbol .plus, ⟨1, 2⟩⟩, ⟨.word "b", ⟨2, 3⟩⟩] := by
    rw [Lexeme.scan_eq_scanWithin]
    rfl
  have hparse : Statement.parse c.config.maxDepth "a+b" =
      .ok ⟨none, .binary .add (.identifier "a") (.identifier "b")⟩ := by
    rw [Statement.parse_eq hscan]
    rfl
  have hvalidated : ∃ report, ((validate "a+b" bindings).runOn ⟨c, []⟩).1 = .ok report ∧
      report.invalid = [] := by
    rcases validate_cases c hparse bindings [] with ⟨-, s, hrun, -⟩ | ⟨e, hfault, -⟩
    · exact ⟨_, congrArg Prod.fst hrun, rfl⟩
    · cases hfault
  obtain ⟨report, hreport, hclean⟩ := hvalidated
  exact ⟨⟨report, hreport, hclean⟩,
    (emit_of_validate c c.evaluation "a+b" bindings [] []).1 report hreport hclean⟩

end Compiler

end RigExpr
