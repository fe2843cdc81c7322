import RigExpr.Proofs.Signature

/-!
# What primitives come down to

Most primitives run operations of the backend: on their operands, on numbers, and on what
came of operations before (`Backend.Composed`). Some need no operation at all. There is
nothing else that a primitive does, on any backend (`Primitive.does_invoke`), so what is to
hold of all primitives only has to be shown of operations. No operation lacks operands if the
primitive is given as many as it takes, and none reads a component but that of the primitive
(`Primitive.Asks`).
-/

namespace RigExpr

namespace Operation

variable {H : Type}

/-- The operation does not lack operands: one on any number of them has one at least. -/
def IsFull : Operation H → Prop
  | transform args | matrix args => args ≠ []
  | switch _ options => options ≠ []
  | _ => True

/-- The operation reads no component but these. -/
def Accesses (access : Component → Prop) : Operation H → Prop
  | component _ which => access which
  | _ => True

/-- The operation cannot lack operands, and reads no component. -/
def IsPlain : Operation H → Prop
  | transform _ | matrix _ | switch _ _ | component _ _ => False
  | _ => True

theorem accesses_all (op : Operation H) : op.Accesses fun _ => True := by
  cases op <;> trivial

theorem Accesses.mono {access access' : Component → Prop} {op : Operation H}
    (h : op.Accesses access) (haccess : ∀ which, access which → access' which) :
    op.Accesses access' := by
  cases op with
  | component => exact haccess _ h
  | _ => trivial

end Operation

namespace Backend

variable {β H ε : Type} [Backend β H ε]

/-- Operations one after the other, on these values, on numbers, and on what came of
    operations before. All of them are `known`. -/
inductive Composed (known : Operation H → Prop) : List (Value H) → Action ε β (Value H) → Prop
  | perform {args : List (Value H)} (op : Operation H) (operands : List (Value H))
      (hop : op.operands = operands) (h : ∀ v ∈ operands, v ∈ args ∨ ∃ x, v = .scalar x)
      (hknown : known op) : Composed known args (perform op)
  | bind {args : List (Value H)} (op : Operation H) (operands : List (Value H))
      (hop : op.operands = operands) (h : ∀ v ∈ operands, v ∈ args ∨ ∃ x, v = .scalar x)
      (hknown : known op) {rest : Value H → Action ε β (Value H)}
      (hrest : ∀ v, Composed known (v :: args) (rest v)) : Composed known args (perform op >>= rest)

theorem Composed.mono {known known' : Operation H → Prop} {args : List (Value H)}
    {a : Action ε β (Value H)} (ha : Composed known args a)
    (h : ∀ op, known op → known' op) : Composed known' args a := by
  induction ha with
  | perform op operands hop hreads hknown => exact .perform op operands hop hreads (h op hknown)
  | bind op operands hop hreads hknown _ ih => exact .bind op operands hop hreads (h op hknown) ih

/-- What holds of the values and of numbers holds of all that the operation reads. -/
theorem forall_operands {P : Value H → Prop} {args operands : List (Value H)} {op : Operation H}
    (hop : op.operands = operands) (h : ∀ v ∈ operands, v ∈ args ∨ ∃ x, v = .scalar x)
    (hargs : ∀ v ∈ args, P v) (hnumber : ∀ x, P (.scalar x)) : ∀ v ∈ op.operands, P v := by
  subst hop
  intro v hv
  rcases h v hv with hv | ⟨x, rfl⟩
  · exact hargs v hv
  · exact hnumber x

section Composed

variable (a b : Value H)

theorem composed_modulo : Composed Operation.IsPlain [a, b] (modulo a b : Action ε β (Value H)) :=
  .bind _ [a, b] rfl (by simp) trivial fun ratio =>
  .bind _ [ratio] rfl (by simp) trivial fun whole =>
  .bind _ [b, whole] rfl (by simp) trivial fun scaled =>
  .perform _ [a, scaled] rfl (by simp) trivial

theorem composed_negate : Composed Operation.IsPlain [a] (negate a : Action ε β (Value H)) :=
  .perform _ [.scalar (-1), a] rfl (by simp) trivial

theorem composed_inverse : Composed Operation.IsPlain [a] (inverse a : Action ε β (Value H)) :=
  .perform _ [a, .scalar (-1)] rfl (by simp) trivial

theorem composed_exp : Composed Operation.IsPlain [a] (exp a : Action ε β (Value H)) :=
  .perform _ [.scalar Number.e, a] rfl (by simp) trivial

theorem composed_sqrt : Composed Operation.IsPlain [a] (sqrt a : Action ε β (Value H)) :=
  .perform _ [a, .scalar 0.5] rfl (by simp) trivial

theorem composed_abs : Composed Operation.IsPlain [a] (abs a : Action ε β (Value H)) :=
  .bind _ [.scalar (-1), a] rfl (by simp) trivial fun negated =>
  .perform _ [a, .scalar 0, a, negated] rfl (by simp) trivial

theorem composed_sign : Composed Operation.IsPlain [a] (sign a : Action ε β (Value H)) :=
  .bind _ [a, .scalar 0, .scalar 1, .scalar (-1)] rfl (by simp) trivial fun nonzero =>
  .perform _ [a, .scalar 0, .scalar 0, nonzero] rfl (by simp) trivial

theorem composed_min : Composed Operation.IsPlain [a, b] (min a b : Action ε β (Value H)) :=
  .perform _ [a, b, a, b] rfl (by simp) trivial

theorem composed_max : Composed Operation.IsPlain [a, b] (max a b : Action ε β (Value H)) :=
  .perform _ [a, b, a, b] rfl (by simp) trivial

theorem composed_tan : Composed Operation.IsPlain [a] (tan a : Action ε β (Value H)) :=
  .bind _ [a] rfl (by simp) trivial fun sin =>
  .bind _ [a] rfl (by simp) trivial fun cos =>
  .perform _ [sin, cos] rfl (by simp) trivial

end Composed

end Backend

namespace Primitive

open Backend

variable {β H ε : Type} [Backend β H ε]

/-- What a primitive may do with its operands. All operations are `known`. -/
inductive Does (known : Operation H → Prop) (args : List (Value H)) :
    Action CompileError β (Value H) → Prop
  | composed {a : Action ε β (Value H)} (h : Composed known args a) : Does known args (onBackend a)
  | operand {v : Value H} (h : v ∈ args) : Does known args (pure v)
  | isScalar (v : Value H) :
      Does known args (do return .bool (Backend.isScalar (← Action.state) v))
  | isVector (v : Value H) :
      Does known args (do return .bool (Backend.isVector (← Action.state) v))
  | list : Does known args (Action.ofExcept (Value.ofItems args))
  | throw (e : CompileError) : Does known args (throw e)

/-- What is known of the operations that a primitive asks for, given so many operands: none lacks
    operands if the primitive takes that many, and none reads a component but that of the
    primitive. -/
structure Asks (p : Primitive) (count : Nat) (op : Operation H) : Prop where
  full : p.accepts count = true → op.IsFull
  access : op.Accesses fun which => p = .component which

theorem Asks.of_isPlain {p : Primitive} {count : Nat} {op : Operation H} (h : op.IsPlain) :
    p.Asks count op := by
  cases op with
  | transform | matrix | switch | component => exact h.elim
  | _ => exact ⟨fun _ => trivial, trivial⟩

/-- Operations that ask for nothing special. -/
theorem does_of_composed {p : Primitive} {count : Nat} {args : List (Value H)}
    {a : Action ε β (Value H)} (h : Composed Operation.IsPlain args a) :
    Does (p.Asks count) args (onBackend a) :=
  .composed (h.mono fun _ => .of_isPlain)

/-- A single operation on the operands. -/
theorem does_run {known : Operation H → Prop} (op : Operation H) {args : List (Value H)}
    (h : op.operands = args) (hknown : known op) :
    Does known args (run op : Action CompileError β (Value H)) :=
  .composed (.perform op args h (fun _ => .inl) hknown)

theorem does_invokeBinary (op : BinaryOp) (a b : Value H) :
    Does ((binary op).Asks 2) [a, b] (invokeBinary op a b : Action CompileError β (Value H)) := by
  cases op with
  | modulo => exact does_of_composed (composed_modulo a b)
  | _ => exact does_run _ rfl (.of_isPlain trivial)

theorem does_invokeCall (f : Function) (args : List (Value H)) :
    Does ((call f).Asks args.length) args
      (invokeCall f args : Action CompileError β (Value H)) := by
  have hne (h : f.arity.accepts args.length = true) : args ≠ [] := by
    rintro rfl
    rw [List.length_nil, f.accepts_zero] at h
    cases h
  have hswitch {selector : Value H} {options : List (Value H)}
      (h : Function.switch.arity.accepts (selector :: options).length = true) :
      options ≠ [] := by
    rintro rfl
    cases h
  unfold invokeCall
  split
  -- most functions are operations on their arguments
  all_goals first
    | exact does_run _ rfl (.of_isPlain trivial)
    | exact does_run _ rfl ⟨hne, trivial⟩
    | exact does_run _ rfl ⟨hswitch, trivial⟩
    | exact does_of_composed (composed_tan _)
    | exact does_of_composed (composed_modulo _ _)
    | exact does_of_composed (composed_inverse _)
    | exact does_of_composed (composed_exp _)
    | exact does_of_composed (composed_sqrt _)
    | exact does_of_composed (composed_abs _)
    | exact does_of_composed (composed_sign _)
    | exact does_of_composed (composed_min _ _)
    | exact does_of_composed (composed_max _ _)
    | exact .isScalar _
    | exact .isVector _
    | exact .operand List.mem_cons_self
    | exact .throw _

/-- What a primitive does is one of these. -/
theorem does_invoke (p : Primitive) (args : List (Value H)) :
    Does (p.Asks args.length) args (p.invoke args : Action CompileError β (Value H)) := by
  unfold invoke
  split
  · exact does_invokeBinary _ _ _
  · exact does_of_composed (composed_negate _)
  · exact does_run _ rfl (.of_isPlain trivial)
  · exact does_run _ rfl (.of_isPlain trivial)
  · exact does_run _ rfl ⟨fun _ => trivial, rfl⟩
  · exact .list
  · exact does_invokeCall _ _
  all_goals exact .throw _

end Primitive

end RigExpr
