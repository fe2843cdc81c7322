import Mathlib.Data.List.Forall2
import RigExpr.Proofs.Calculator
import RigExpr.Proofs.Graph.Translation

/-!
# Arithmetic on the calculator

Arithmetic is what numbers are computed by: operators, comparisons that choose, and some of
the functions (`Token.isArithmetic`). On numbers the calculator computes what the formulas of
signals say (`Calculator.tells_invoke`), with one exception: a division by zero is infinite, or
not a number, on the calculator, and as a signal it never is a number. So results are
compared where no division that the calculator has done is by zero (`Calculator.Proper`).

Applications that were done before are not done again. What is kept of them has the signal of
its signature (`Calculator.Recalls`), since it was computed by divisions that were proper.

* `Calculator.proper_map_entry`: what is written down tells the divisions.
* `Calculator.Tells`: results are told if the divisions done are proper.
* `Expr.tells`: an arithmetic expression comes to its signal.
-/

namespace RigExpr

/-- Whether the function computes a number from numbers as its formula does. -/
def Function.isArithmetic : Function → Bool
  | clamp | lerp | cos | sin | acos | asin | atan | int | pow | modulo | inverse | exp | sqrt | abs
  | sign | min | max | value => true
  | _ => false

/-- Whether the primitive does. -/
def Primitive.isArithmetic : Primitive → Bool
  | binary op => op ≠ .or && op ≠ .and
  | negate | condition _ => true
  | call f => f.isArithmetic
  | not | component _ | list => false

/-- Whether the token is one of an arithmetic expression: a number, a constant that is a
    number, an operator or function of arithmetic, or a choice by a comparison. -/
def Token.isArithmetic : Token → Bool
  | number _ | comparison _ | ternary | negate => true
  | constant c => c = .e || c = .pi
  | binary op => (Primitive.binary op).isArithmetic
  | call name _ => (Function.ofName? name).any Function.isArithmetic
  | identifier _ | not | assign | list _ | component _ | rotateOrder _ | alternative => false

namespace Calculator

open Signal

variable {ε σ α β : Type}

/-- No division that is written down is by zero. -/
def Proper (calls : List String) : Prop :=
  ∀ x y : Float, entry (.arith .divide (.scalar x) (.scalar y)) ∈ calls → (y != 0) = true

theorem Proper.left {new more : List String} (h : Proper (new ++ more)) : Proper new :=
  fun x y hmem => h x y (List.mem_append_left _ hmem)

theorem Proper.right {new more : List String} (h : Proper (new ++ more)) : Proper more :=
  fun x y hmem => h x y (List.mem_append_right _ hmem)

/-- A division of numbers is written down as no other operation on literals is. -/
theorem eq_divide_of_entry_eq {op : Operation Name} (hop : ∀ v ∈ op.operands, v.IsLiteral)
    {x y : Float} (h : entry op = entry (.arith .divide (.scalar x) (.scalar y))) :
    op = .arith .divide (.scalar x) (.scalar y) := by
  have hrender {op : Operation Name} (hop : ∀ v ∈ op.operands, v.IsLiteral) :
      ∀ s ∈ op.operands.map Value.text, Rendering s := by
    intro s hs
    obtain ⟨v, hv, rfl⟩ := List.mem_map.1 hs
    exact (Value.isLiteral_iff_over.1 (hop v hv)).rendering_text Value.labels_false
  have hnumbers : ∀ v ∈ (Operation.arith .divide (.scalar x) (.scalar y)).operands,
      (v : Value Name).IsLiteral := by
    simp [Operation.operands, Value.IsLiteral]
  -- the name ends at the parenthesis, and each operand at a comma or at the other parenthesis
  have h := congrArg String.toList h
  rw [toList_entry, toList_entry] at h
  obtain ⟨hname, h⟩ := (rendering_name op).append_inj (rendering_name _) h
    (.inr (separated_cons (by decide))) (.inr (separated_cons (by decide)))
  obtain ⟨a, b, rfl⟩ : ∃ a b, op = .arith .divide a b := by
    unfold Operation.name at hname
    split at hname
    all_goals first
      | exact ⟨_, _, rfl⟩
      | exact absurd hname (by decide)
  obtain ⟨htexts, -⟩ := commas_append_inj (by simp [Operation.operands])
    (by simp [Operation.operands]) (fun s hs => (hrender hop s hs).append_inj) (hrender hnumbers)
    (c := ')') (by decide) (by decide) (List.cons.inj h).2
  have hoperands := Value.eq_of_map_eq (fun v hv w hw =>
    (Value.isLiteral_iff_over.1 (hop v hv)).text_injective Value.labels_false
      (Value.isLiteral_iff_over.1 (hnumbers w hw))) htexts
  cases hoperands
  rfl

/-- Of operations on literals, the divisions are what counts. -/
theorem proper_map_entry {ops : List (Operation Name)}
    (hops : ∀ op ∈ ops, ∀ v ∈ op.operands, v.IsLiteral) :
    Proper (ops.map entry) ↔
      ∀ x y : Float, .arith .divide (.scalar x) (.scalar y) ∈ ops → (y != 0) = true := by
  constructor
  · intro h x y hmem
    exact h x y (List.mem_map_of_mem hmem)
  · intro h x y hmem
    obtain ⟨op, hop, heq⟩ := List.mem_map.1 hmem
    rw [eq_divide_of_entry_eq (hops op hop) heq] at hop
    exact h x y hop

/-! ## Results of actions -/

/-- What a state accounts for: the operations that it has written down, and what holds of it
    as long as their divisions are proper. -/
structure Account (σ : Type) where
  calls : σ → List String
  Sound : σ → Prop

/-- An action that succeeds has written down more operations. If their divisions are proper,
    then the state remains sound, and `post` holds of the result provided that `pre` does. -/
def Tells (account : Account σ) (pre : Prop) (a : Action ε σ α) (post : α → Prop) : Prop :=
  ∀ s v s', a.runOn s = (.ok v, s') →
    ∃ new, account.calls s'.state = account.calls s.state ++ new ∧
      (Proper new → account.Sound s.state → pre → account.Sound s'.state ∧ post v)

namespace Tells

variable {account : Account σ} {pre pre' : Prop} {post : α → Prop} {a : Action ε σ α}

/-- An action that leaves the state as it is. -/
theorem quiet (h : ∀ s v s', a.runOn s = (.ok v, s') → s'.state = s.state ∧ (pre → post v)) :
    Tells account pre a post := by
  intro s v s' hrun
  obtain ⟨hstate, hpost⟩ := h s v s' hrun
  refine ⟨[], by rw [hstate, List.append_nil], fun _ hsound hpre => ⟨?_, hpost hpre⟩⟩
  rwa [hstate]

protected theorem pure {v : α} (h : pre → post v) :
    Tells account pre (pure v : Action ε σ α) post :=
  quiet fun s w s' hrun => by
    cases hrun
    exact ⟨rfl, h⟩

protected theorem throw (e : ε) : Tells account pre (throw e : Action ε σ α) post :=
  quiet fun s w s' hrun => by cases hrun

/-- What held before is still known after an action. -/
protected theorem bind {mid : α → Prop} (h : Tells account pre a mid) {f : α → Action ε σ β}
    {post : β → Prop} (hf : ∀ v, Tells account (pre ∧ mid v) (f v) post) :
    Tells account pre (a >>= f) post := by
  intro s w s'' hrun
  rcases ha : a.runOn s with ⟨e | v, s'⟩
  · rw [Action.runOn_bind_of_error ha] at hrun
    cases hrun
  · rw [Action.runOn_bind_of_ok ha] at hrun
    obtain ⟨new, hnew, hmid⟩ := h s v s' ha
    obtain ⟨more, hmore, hpost⟩ := hf v s' w s'' hrun
    refine ⟨new ++ more, by rw [hmore, hnew, List.append_assoc], fun hproper hsound hpre => ?_⟩
    obtain ⟨hsound, hv⟩ := hmid hproper.left hsound hpre
    exact hpost hproper.right hsound ⟨hpre, hv⟩

theorem weaken (h : Tells account pre a post) (hpre : pre' → pre) : Tells account pre' a post := by
  intro s v s' hrun
  obtain ⟨new, hnew, htold⟩ := h s v s' hrun
  exact ⟨new, hnew, fun hproper hsound hp => htold hproper hsound (hpre hp)⟩

/-- With its errors turned into others, an action tells the same. -/
theorem onBackend {account : Account Calculator} {a : Action Refusal Calculator α}
    (h : Tells account pre a post) : Tells account pre (Primitive.onBackend a) post := by
  intro s v s' hrun
  rw [Primitive.onBackend, Action.runOn_zoom] at hrun
  rcases ha : a.runOn ⟨s.state, s.log⟩ with ⟨e | w, s''⟩
  · simp only [id_eq, ha] at hrun
    cases hrun
  · simp only [id_eq, ha] at hrun
    cases hrun
    exact h _ _ _ ha

end Tells

/-! ## Operations -/

/-- The calculator accounts for its operations, and is always sound. -/
def operations : Account Calculator where
  calls := Calculator.calls
  Sound _ := True

/-- The value is a number, and the signal is the same one. -/
def Shows (v : Value Name) (s : Signal) : Prop := ∃ x, v = .scalar x ∧ s = .float x

theorem shows_scalar (x : Float) : Shows (.scalar x) (.float x) := ⟨x, rfl, rfl⟩

theorem Shows.isLiteral {v : Value Name} {s : Signal} (h : Shows v s) : v.IsLiteral := by
  obtain ⟨x, rfl, -⟩ := h
  trivial

theorem rightUnique_shows : Relator.RightUnique Shows := by
  rintro v s t ⟨x, rfl, rfl⟩ ⟨y, hxy, rfl⟩
  cases hxy
  rfl

/-- An operation with a literal as its result. -/
theorem tells_perform (op : Operation Name) {p : Prop} {post : Value Name → Prop}
    (h : p → Proper [entry op] → ∃ v, compute op = .ok (some v) ∧ post v) :
    Tells operations p (perform op) post := by
  intro c v c' hrun
  simp only [perform, Action.runOn_bind, Action.runOn_change, Action.runOn_ofExcept] at hrun
  cases hcompute : compute op with
  | error refusal =>
    rw [hcompute] at hrun
    cases hrun
  | ok result =>
    rw [hcompute] at hrun
    cases result with
    | some w =>
      cases hrun
      refine ⟨[entry op], rfl, fun hproper _ hp => ?_⟩
      obtain ⟨w, hw, hpost⟩ := h hp hproper
      cases hcompute.symm.trans hw
      exact ⟨trivial, hpost⟩
    | none =>
      -- a handle, and not the literal that there is
      cases hrun
      refine ⟨[entry op], rfl, fun hproper _ hp => ?_⟩
      obtain ⟨w, hw, -⟩ := h hp hproper
      cases hcompute.symm.trans hw

variable {a b c d : Value Name} {s t u w : Signal}

theorem tells_arith (op : Arith) :
    Tells operations (Shows a s ∧ Shows b t) (perform (.arith op a b))
      fun v => Shows v (arith op s t) := by
  refine tells_perform _ ?_
  rintro ⟨⟨x, rfl, rfl⟩, ⟨y, rfl, rfl⟩⟩ hproper
  refine ⟨_, rfl, _, rfl, ?_⟩
  by_cases hop : op = .divide
  · -- the one operation that signals have a rule of their own for
    subst hop
    have hy := hproper x y List.mem_cons_self
    simp [Signal.arith, zipWith, toFloat, Node.quotient, hy, Arith.apply]
  · simp [Signal.arith, zipWith, toFloat, hop]

theorem tells_int :
    Tells operations (Shows a s) (perform (.int a))
      fun v => Shows v (s.map Number.truncate) := by
  refine tells_perform _ ?_
  rintro ⟨x, rfl, rfl⟩ -
  exact ⟨_, rfl, _, rfl, rfl⟩

theorem tells_trig (f : Trig) :
    Tells operations (Shows a s) (perform (.trig f a))
      fun v => Shows v (s.map f.apply) := by
  refine tells_perform _ ?_
  rintro ⟨x, rfl, rfl⟩ -
  exact ⟨_, rfl, _, rfl, rfl⟩

theorem tells_condition (test : Comparison) :
    Tells operations (Shows a s ∧ Shows b t ∧ Shows c u ∧ Shows d w)
      (perform (.condition test a b c d)) fun v => Shows v (choice test s t u w) := by
  refine tells_perform _ ?_
  rintro ⟨⟨x, rfl, rfl⟩, ⟨y, rfl, rfl⟩, hc, hd⟩ -
  refine ⟨if test.test x y then c else d, rfl, ?_⟩
  rw [choice]
  show Shows (if test.test x y then c else d) (if test.test x y then u else w)
  split
  · exact hc
  · exact hd

theorem tells_clamp :
    Tells operations (Shows a s ∧ Shows b t ∧ Shows c u) (perform (.clamp a b c))
      fun v => Shows v (zipWith Number.smaller (zipWith Number.larger s t) u) := by
  refine tells_perform _ ?_
  rintro ⟨⟨x, rfl, rfl⟩, ⟨y, rfl, rfl⟩, ⟨z, rfl, rfl⟩⟩ -
  exact ⟨_, rfl, _, rfl, rfl⟩

theorem tells_lerp :
    Tells operations (Shows a s ∧ Shows b t ∧ Shows c u) (perform (.lerp a b c))
      fun v => Shows v (zipWith (· + ·) s (zipWith (· * ·) (zipWith (· - ·) t s) u)) := by
  refine tells_perform _ ?_
  rintro ⟨⟨x, rfl, rfl⟩, ⟨y, rfl, rfl⟩, ⟨z, rfl, rfl⟩⟩ -
  exact ⟨_, rfl, _, rfl, rfl⟩

/-! ## Functions that come down to others -/

theorem tells_modulo :
    Tells operations (Shows a s ∧ Shows b t) (Backend.modulo a b)
      fun v => Shows v (s.modulo t) := by
  refine (tells_arith .divide).bind fun ratio => ?_
  refine (tells_int.weaken fun h => h.2).bind fun whole => ?_
  refine ((tells_arith .multiply).weaken fun h => ⟨h.1.1.2, h.2⟩).bind fun scaled => ?_
  exact (tells_arith .subtract).weaken fun h => ⟨h.1.1.1.1, h.2⟩

theorem tells_negate :
    Tells operations (Shows a s) (Backend.negate a) fun v => Shows v s.negate :=
  (tells_arith .multiply).weaken fun h => ⟨shows_scalar _, h⟩

theorem tells_abs :
    Tells operations (Shows a s) (Backend.abs a)
      fun v => Shows v (choice .greaterEqual s (.float 0) s s.negate) := by
  refine tells_negate.bind fun negated => ?_
  exact (tells_condition .greaterEqual).weaken fun h => ⟨h.1, shows_scalar _, h.1, h.2⟩

theorem tells_sign :
    Tells operations (Shows a s) (Backend.sign a)
      fun v => Shows v (choice .equal s (.float 0) (.float 0)
        (choice .greaterEqual s (.float 0) (.float 1) (.float (-1)))) := by
  refine ((tells_condition .greaterEqual).weaken fun h =>
    ⟨h, shows_scalar _, shows_scalar _, shows_scalar _⟩).bind fun nonzero => ?_
  exact (tells_condition .equal).weaken fun h => ⟨h.1, shows_scalar _, shows_scalar _, h.2⟩

/-! ## Primitives -/

/-- Whatever a primitive does, it only writes down more. -/
theorem tells_of_does {known : Operation Name → Prop} {args : List (Value Name)}
    {a : Action CompileError Calculator (Value Name)} (h : Primitive.Does known args a)
    {post : Value Name → Prop} : Tells operations False a post := by
  have hcomposed {args : List (Value Name)} {a : Action Refusal Calculator (Value Name)}
      (h : Backend.Composed known args a) : Tells operations False a post := by
    induction h with
    | perform op => exact tells_perform op False.elim
    | bind op _ _ _ _ _ ih =>
      have hfirst : Tells operations False (perform op) fun _ => False :=
        tells_perform op False.elim
      exact hfirst.bind fun v => (ih v).weaken And.left
  cases h with
  | composed h => exact (hcomposed h).onBackend
  | operand => exact .pure False.elim
  | isScalar | isVector =>
    refine .quiet fun s v s' hrun => ?_
    cases hrun
    exact ⟨rfl, False.elim⟩
  | list =>
    refine .quiet fun s v s' hrun => ?_
    rw [Action.runOn_ofExcept] at hrun
    exact ⟨by rw [(Prod.mk.inj hrun).2], False.elim⟩
  | throw e => exact .throw e

/-- An operator of arithmetic comes to its formula. -/
theorem tells_invokeBinary {op : BinaryOp} (hop : (Primitive.binary op).isArithmetic = true) :
    Tells operations (Shows a s ∧ Shows b t)
      (Primitive.invokeBinary op a b : Action CompileError Calculator (Value Name))
      fun v => Shows v (op.signal s t) := by
  cases op with
  | or | and => cases hop
  | add => exact (tells_arith .add).onBackend
  | subtract => exact (tells_arith .subtract).onBackend
  | multiply => exact (tells_arith .multiply).onBackend
  | divide => exact (tells_arith .divide).onBackend
  | power => exact (tells_arith .power).onBackend
  | modulo => exact tells_modulo.onBackend

/-- A function of arithmetic of one argument comes to its formula. -/
theorem tells_invokeCall_one {f : Function} (hf : f.isArithmetic = true)
    (harity : f.arity.accepts 1 = true) :
    Tells operations (Shows a s)
      (Primitive.invokeCall f [a] : Action CompileError Calculator (Value Name))
      fun v => Shows v (f.signal [s]) := by
  cases f with
  | cos => exact (tells_trig .cos).onBackend
  | sin => exact (tells_trig .sin).onBackend
  | acos => exact (tells_trig .acos).onBackend
  | asin => exact (tells_trig .asin).onBackend
  | atan => exact (tells_trig .atan).onBackend
  | int => exact tells_int.onBackend
  | inverse => exact ((tells_arith .power).weaken fun h => ⟨h, shows_scalar _⟩).onBackend
  | exp => exact ((tells_arith .power).weaken fun h => ⟨shows_scalar _, h⟩).onBackend
  | sqrt => exact ((tells_arith .power).weaken fun h => ⟨h, shows_scalar _⟩).onBackend
  | abs => exact tells_abs.onBackend
  | sign => exact tells_sign.onBackend
  | value => exact .pure id
  | _ => first | exact absurd hf (by decide) | exact absurd harity (by decide)

/-- One of two. -/
theorem tells_invokeCall_two {f : Function} (hf : f.isArithmetic = true)
    (harity : f.arity.accepts 2 = true) :
    Tells operations (Shows a s ∧ Shows b t)
      (Primitive.invokeCall f [a, b] : Action CompileError Calculator (Value Name))
      fun v => Shows v (f.signal [s, t]) := by
  cases f with
  | pow => exact (tells_arith .power).onBackend
  | modulo => exact tells_modulo.onBackend
  | min => exact ((tells_condition .less).weaken fun h => ⟨h.1, h.2, h⟩).onBackend
  | max => exact ((tells_condition .greater).weaken fun h => ⟨h.1, h.2, h⟩).onBackend
  | _ => first | exact absurd hf (by decide) | exact absurd harity (by decide)

/-- One of three. -/
theorem tells_invokeCall_three {f : Function} (hf : f.isArithmetic = true)
    (harity : f.arity.accepts 3 = true) :
    Tells operations (Shows a s ∧ Shows b t ∧ Shows c u)
      (Primitive.invokeCall f [a, b, c] : Action CompileError Calculator (Value Name))
      fun v => Shows v (f.signal [s, t, u]) := by
  cases f with
  | clamp => exact tells_clamp.onBackend
  | lerp => exact tells_lerp.onBackend
  | _ => first | exact absurd hf (by decide) | exact absurd harity (by decide)

/-- A function of arithmetic comes to its formula. -/
theorem tells_invokeCall {f : Function} (hf : f.isArithmetic = true) {args : List (Value Name)}
    {signals : List Signal} (hlength : args.length = signals.length)
    (harity : f.arity.accepts signals.length = true) :
    Tells operations (List.Forall₂ Shows args signals)
      (Primitive.invokeCall f args : Action CompileError Calculator (Value Name))
      fun v => Shows v (f.signal signals) := by
  match args, signals, hlength with
  | [], [], _ => cases f <;> first | exact absurd hf (by decide) | exact absurd harity (by decide)
  | [a], [s], _ => exact (tells_invokeCall_one hf harity).weaken fun h => by simpa using h
  | [a, b], [s, t], _ => exact (tells_invokeCall_two hf harity).weaken fun h => by simpa using h
  | [a, b, c], [s, t, u], _ =>
    exact (tells_invokeCall_three hf harity).weaken fun h => by simpa using h
  | _ :: _ :: _ :: _ :: _, _ :: _ :: _ :: _ :: _, _ =>
    cases f <;> first | exact absurd hf (by decide) | simp [Function.arity, Arity.accepts] at harity

/-- An arithmetic primitive comes to its formula. -/
theorem tells_invoke {p : Primitive} (hp : p.isArithmetic = true) {args : List (Value Name)}
    {signals : List Signal} (hs : p.signal signals = some s) :
    Tells operations (List.Forall₂ Shows args signals)
      (p.invoke args : Action CompileError Calculator (Value Name)) fun v => Shows v s := by
  by_cases hlength : args.length = signals.length
  · -- the formula says how many operands there are
    unfold Primitive.signal at hs
    split at hs
    · next op s t =>
      obtain ⟨a, b, rfl⟩ := List.length_eq_two.1 hlength
      cases hs
      exact (tells_invokeBinary hp).weaken fun h => by simpa using h
    · next s =>
      obtain ⟨a, rfl⟩ := List.length_eq_one_iff.1 hlength
      cases hs
      exact (tells_negate.weaken fun h => by simpa using h).onBackend
    · cases hp
    · next test s t u w =>
      obtain ⟨a, b, c, d, rfl⟩ := List.length_eq_four.1 hlength
      cases hs
      exact ((tells_condition test).weaken fun h => by simpa using h).onBackend
    · cases hp
    · split at hs
      · next hf =>
        cases hs
        exact tells_invokeCall hp hlength hf.2
      · cases hs
    · cases hs
  · exact (tells_of_does (p.does_invoke args)).weaken fun h => hlength h.length_eq

/-! ## Applications -/

open Evaluation

/-- What is kept for a signature shows the signal of the application with this signature. -/
def Recalls (cache : Table String (Value Name)) : Prop :=
  ∀ ⦃signature v⦄, cache.get? signature = some v → ∃ (p : Primitive) (args : List (Value Name))
    (signals : List Signal) (s : Signal),
    signature = p.signature (args.map Bindings.empty.describe) ∧
      List.Forall₂ Shows args signals ∧ p.signal signals = some s ∧ Shows v s

theorem recalls_empty : Recalls {} := by
  intro signature v h
  cases h

/-- Numbers can be told apart by their texts, if no names are bound. -/
theorem tellable_of_shows {p : Primitive} {args : List (Value Name)} {signals : List Signal}
    (hargs : List.Forall₂ Shows args signals) (hs : p.signal signals = some s) :
    Tellable Bindings.empty p args where
  accepts := by
    rw [hargs.length_eq]
    exact (Primitive.accepts_of_signal hs).1
  hasName := (Primitive.accepts_of_signal hs).2
  isLiteral := ((List.forall₂_and_left args signals).1 (hargs.imp fun _ _ h => ⟨h.isLiteral, h⟩)).1
  distinct a _ := by
    intro name u hu
    cases hu

namespace Recalls

variable {cache : Table String (Value Name)} {p : Primitive} {args : List (Value Name)}
  {signals : List Signal} {v : Value Name}

theorem insert (h : Recalls cache) (hargs : List.Forall₂ Shows args signals)
    (hs : p.signal signals = some s) (hv : Shows v s) :
    Recalls (cache.insert (p.signature (args.map Bindings.empty.describe)) v) := by
  intro signature w hw
  rw [Table.get?_insert] at hw
  split at hw
  · next heq =>
    cases hw
    exact ⟨p, args, signals, s, heq.symm, hargs, hs, hv⟩
  · exact h hw

/-- What is recalled for an application is what it would come to. -/
theorem shows (h : Recalls cache) (hargs : List.Forall₂ Shows args signals)
    (hs : p.signal signals = some s)
    (hget : cache.get? (p.signature (args.map Bindings.empty.describe)) = some v) : Shows v s := by
  obtain ⟨q, args', signals', s', heq, hargs', hs', hv⟩ := h hget
  -- the signature is that of this application, and operands show one signal only
  have hliteral : (Bindings.empty : Bindings Name).Literal :=
    Bindings.literal_register fun _ hmem => absurd hmem List.not_mem_nil
  obtain ⟨rfl, rfl⟩ := (tellable_of_shows hargs hs).signature_injective hliteral
    (tellable_of_shows hargs' hs') heq
  obtain rfl := List.right_unique_forall₂' rightUnique_shows hargs hargs'
  rwa [Option.some.inj (hs.symm.trans hs')]

end Recalls

/-- An evaluation accounts for the operations of its calculator. It binds no names, and what
    it keeps is what the applications come to. -/
def evaluation : Account (Evaluation Calculator Name) where
  calls e := e.backend.calls
  Sound e := e.bindings.names = {} ∧ Recalls e.cache

/-- The slot has a number, and the signal is the same one. -/
def Fills (slot : Slot Name) (s : Signal) : Prop := ∃ v, slot = some v ∧ Shows v s

theorem Fills.values? {operands : List (Slot Name)} {signals : List Signal}
    (h : List.Forall₂ Fills operands signals) :
    ∃ args, values? operands = some args ∧ List.Forall₂ Shows args signals := by
  induction h with
  | nil => exact ⟨[], rfl, .nil⟩
  | cons hslot _ ih =>
    obtain ⟨v, rfl, hv⟩ := hslot
    obtain ⟨args, hargs, hshows⟩ := ih
    exact ⟨v :: args, by rw [Evaluation.values?, hargs, Option.map_some], .cons hv hshows⟩

/-- An arithmetic application comes to its formula, whether it is done or recalled. -/
theorem tells_apply (p : Primitive) (signals : List Signal) (hp : p.isArithmetic = true)
    (hs : p.signal signals = some s) {operands : List (Slot Name)} :
    Tells evaluation (List.Forall₂ Fills operands signals) (apply .emit p operands)
      fun slot => Fills slot s := by
  intro e slot e' hrun
  cases hvalues : Evaluation.values? operands with
  | none =>
    -- nothing is applied, since some operand has no value
    simp only [apply, hvalues] at hrun
    cases hrun
    refine ⟨[], (List.append_nil _).symm, fun _ _ hfills => ?_⟩
    obtain ⟨args, hargs, -⟩ := Fills.values? hfills
    cases hvalues.symm.trans hargs
  | some args =>
    have hshows (hfills : List.Forall₂ Fills operands signals) :
        List.Forall₂ Shows args signals := by
      obtain ⟨args', hargs', hshows⟩ := Fills.values? hfills
      cases hvalues.symm.trans hargs'
      exact hshows
    have hdescribe (hnames : e.state.bindings.names = {}) :
        e.state.bindings.describe = Bindings.empty.describe := by
      funext v
      rw [Bindings.describe, hnames]
      rfl
    cases hget : e.state.cache.get? (p.signature (args.map e.state.bindings.describe)) with
    | some v =>
      -- the application was done before
      obtain ⟨log, hhit⟩ := runOn_apply_of_some hvalues hget
      cases hhit.symm.trans hrun
      refine ⟨[], (List.append_nil _).symm, fun _ hsound hfills => ⟨hsound, v, rfl, ?_⟩⟩
      rw [hdescribe hsound.1] at hget
      exact hsound.2.shows (hshows hfills) hs hget
    | none =>
      -- the application is done now, and kept if it succeeds
      simp only [apply, hvalues, hget, Action.runOn_bind, Action.runOn_state, Action.runOn_say,
        onBackend, Action.runOn_zoom, Action.mapError_id] at hrun
      rcases hinvoke : (p.invoke args : Action CompileError Calculator (Value Name)).runOn
        ⟨e.state.backend, e.log ++ [⟨.debug, "emit " ++ p.label ++ ": " ++
          p.signature (args.map e.state.bindings.describe)⟩]⟩ with ⟨err | v, c⟩
      · rw [hinvoke] at hrun
        cases hrun
      · rw [hinvoke] at hrun
        cases hrun
        obtain ⟨new, hnew, htold⟩ := tells_invoke hp hs _ _ _ hinvoke
        refine ⟨new, hnew, fun hproper hsound hfills => ?_⟩
        obtain ⟨-, hv⟩ := htold hproper trivial (hshows hfills)
        refine ⟨⟨hsound.1, ?_⟩, v, rfl, hv⟩
        rw [hdescribe hsound.1]
        exact hsound.2.insert (hshows hfills) hs hv

/-- The tokens that are left do not matter. -/
theorem Tells.leave {tokens : List Token} {pre : Prop} {a : Step Calculator Name α}
    {post : α → Prop} (h : Tells evaluation pre a post) :
    Tells evaluation pre (do Evaluation.leave tokens; a) post :=
  fun e v e' hrun => h ⟨{ e.state with left := tokens }, e.log⟩ v e' hrun

end Calculator

/-! ## Expressions -/

theorem Function.isPlain_of_isArithmetic {f : Function} (h : f.isArithmetic = true) :
    f.isPlain = true := by
  cases f <;> first | rfl | cases h

namespace Expr

open Calculator

variable (env : String → Option Signal)

mutual

/-- An arithmetic expression comes to its signal. -/
theorem tells : (e : Expr) → (∀ t ∈ e.tokens, t.isArithmetic = true) → (rest : List Token) →
    (pre : Prop) →
    Tells evaluation pre (e.evaluate (.ofMode .emit) rest) fun slot => Fills slot (e.signal env)
  | number text, _, rest, _ => by
    rw [evaluate]
    refine .leave ?_
    cases hread : Number.read? text with
    | some x => exact .pure fun _ => ⟨.scalar x, rfl, x, rfl, by rw [signal, hread]; rfl⟩
    | none => exact .throw _
  | constant c, h, rest, _ => by
    have hc := h _ List.mem_cons_self
    rw [evaluate]
    refine .leave (.pure fun _ => ⟨_, rfl, ?_⟩)
    cases c with
    | e | pi => exact ⟨_, rfl, rfl⟩
    | true | false => cases hc
  | order o, h, _, _ => by cases h _ List.mem_cons_self
  | identifier name, h, _, _ => by cases h _ List.mem_cons_self
  | call name args, h, rest, _ => by
    have hname := h (.call name args.length) (by simp [tokens])
    rw [evaluate]
    cases hf : Function.ofName? name with
    | none => exact .leave (.throw _)
    | some f =>
      have harith : f.isArithmetic = true := by simpa [Token.isArithmetic, hf] using hname
      dsimp only
      split
      · next harity =>
        refine (tellsAll args (fun t ht => h t (by simp [tokens, ht])) rest _).bind fun slots => ?_
        refine (tells_apply (.call f) (signalAll env args) harith ?_).weaken And.right
        rw [Primitive.signal, if_pos ⟨f.isPlain_of_isArithmetic harith, by rwa [length_signalAll]⟩,
          signal, hf]
      · exact .leave (.throw _)
  | list items, h, _, _ => by cases h (.list items.length) (by simp [tokens])
  | group inner, h, rest, _ => tells inner h rest _
  | component object which, h, _, _ => by cases h (.component which) (by simp [tokens])
  | unary op operand, h, rest, _ => by
    have hop := h op.token (by simp [tokens])
    rw [evaluate]
    refine (tells operand (fun t ht => h t (by simp [tokens, ht])) rest _).bind fun slot => ?_
    cases op with
    | negate =>
      refine (tells_apply .negate [operand.signal env] rfl rfl).weaken ?_
      rintro ⟨-, hslot⟩
      exact .cons hslot .nil
    | not => cases hop
  | binary op lhs rhs, h, rest, _ => by
    rw [evaluate]
    refine (tells rhs (fun t ht => h t (by simp [tokens, ht])) _ _).bind fun second => ?_
    refine (tells lhs (fun t ht => h t (by simp [tokens, ht])) rest _).bind fun first => ?_
    have hop : (Primitive.binary op).isArithmetic = true := h (.binary op) (by simp [tokens])
    refine (tells_apply (.binary op) [lhs.signal env, rhs.signal env] hop rfl).weaken ?_
    rintro ⟨⟨-, hsecond⟩, hfirst⟩
    exact .cons hfirst (.cons hsecond .nil)
  | compare test lhs rhs, h, _, _ => by cases h (.constant .true) (by simp [tokens])
  | ternary test lhs rhs ifTrue ifFalse, h, rest, _ => by
    rw [evaluate]
    refine (tells ifFalse (fun t ht => h t (by simp [tokens, ht])) _ _).bind fun otherwise => ?_
    refine (tells ifTrue (fun t ht => h t (by simp [tokens, ht])) _ _).bind fun consequent => ?_
    refine (tells rhs (fun t ht => h t (by simp [tokens, ht])) _ _).bind fun second => ?_
    refine (tells lhs (fun t ht => h t (by simp [tokens, ht])) rest _).bind fun first => ?_
    refine (tells_apply (.condition test) [lhs.signal env, rhs.signal env, ifTrue.signal env,
      ifFalse.signal env] rfl rfl).weaken ?_
    rintro ⟨⟨⟨⟨-, hotherwise⟩, hconsequent⟩, hsecond⟩, hfirst⟩
    exact .cons hfirst (.cons hsecond (.cons hconsequent (.cons hotherwise .nil)))

/-- Arithmetic expressions come to their signals. -/
theorem tellsAll : (es : List Expr) → (∀ t ∈ tokensAll es, t.isArithmetic = true) →
    (rest : List Token) → (pre : Prop) →
    Tells evaluation pre (evaluateAll (.ofMode .emit) es rest) fun slots =>
      List.Forall₂ Fills slots (signalAll env es)
  | [], _, _, _ => .pure fun _ => .nil
  | e :: es, h, rest, _ => by
    rw [evaluateAll]
    refine (tellsAll es (fun t ht => h t (by simp [tokensAll, ht])) _ _).bind fun slots => ?_
    refine (tells e (fun t ht => h t (by simp [tokensAll, ht])) rest _).bind fun slot => ?_
    exact .pure fun hslots => .cons hslots.2 hslots.1.2

end

end Expr

end RigExpr
