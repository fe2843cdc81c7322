import RigExpr.Proofs.Action
import RigExpr.Proofs.Evaluation.Congruence
import RigExpr.Proofs.Primitive

/-!
# Growth of the backend

An expression reaches the backend by operations only. So whatever the operations keep up
(`Backend.Grows`) is kept up by the evaluation of each expression, whether it succeeds or fails
(`Evaluation.grows_expression`). That leaves out assignments, which drive their destination, and
the end of a compilation, when the backend takes note of the value.
-/

namespace RigExpr

variable {β H ε : Type} [Backend β H ε]

/-- Every operation leads to a state of the backend that the state before may grow to. -/
def Backend.Grows (k : Upkeep β) : Prop :=
  ∀ op : Operation H, k.Grows (perform op : Action ε β (Value H))

theorem Upkeep.Grows.onBackend {k : Upkeep β} {α : Type} {a : Action ε β α} (h : k.Grows a) :
    k.Grows (Primitive.onBackend a) :=
  .zoom h fun _ _ hgrows => hgrows

namespace Backend

variable {k : Upkeep β} {known : Operation H → Prop} {args : List (Value H)}
  (h : ∀ op : Operation H, known op → k.Grows (perform op : Action ε β (Value H)))

include h

theorem grows_of_composed {a : Action ε β (Value H)} (ha : Composed known args a) : k.Grows a := by
  induction ha with
  | perform op _ _ _ hknown => exact h op hknown
  | bind op _ _ _ hknown _ ih => exact .bind (h op hknown) ih

/-- What operations keep up, a primitive keeps up. -/
theorem grows_of_does {a : Action CompileError β (Value H)} (ha : Primitive.Does known args a) :
    k.Grows a := by
  cases ha with
  | composed ha => exact .onBackend (grows_of_composed h ha)
  | operand => exact .pure _
  | isScalar | isVector => exact .state fun _ => .pure _
  | list => exact .ofExcept _
  | throw e => exact .throw e

end Backend

namespace Evaluation

variable {k : Upkeep β}

theorem grows_onBackend {α : Type} {a : Action CompileError β α} (h : k.Grows a) :
    (k.along fun s : Evaluation β H => s.backend).Grows (onBackend a) :=
  .zoom h fun _ _ hgrows => hgrows

theorem grows_identifier (k : Upkeep β) (mode : Mode) (name : String) :
    (k.along fun s : Evaluation β H => s.backend).Grows (identifier mode name) := by
  refine .state fun s => ?_
  refine .bind (.change fun s => k.refl s.backend) fun _ => ?_
  split
  · exact .pure _
  · exact .throw _
  · exact .bind (.change fun s => k.refl s.backend) fun _ => .pure _

/-- All that an application does to the backend is to invoke the primitive, if all operands have
    values. -/
theorem grows_apply_of_invoke [ToString H] {mode : Mode} {p : Primitive} {operands : List (Slot H)}
    (h : ∀ args, values? operands = some args →
      k.Grows (p.invoke args : Action CompileError β (Value H))) :
    (k.along fun s : Evaluation β H => s.backend).Grows (apply mode p operands) := by
  unfold apply
  split
  · exact .pure _
  · exact .pure _
  · next args hargs =>
    refine .state fun s => ?_
    dsimp only
    split
    · exact .bind (.say _ _) fun _ => .pure _
    · refine .bind (.say _ _) fun _ => ?_
      refine .bind (grows_onBackend (h args hargs)) fun v => ?_
      exact .bind (.change fun s => k.refl s.backend) fun _ => .pure _

theorem grows_apply [ToString H] (h : Backend.Grows k) (mode : Mode) (p : Primitive)
    (operands : List (Slot H)) :
    (k.along fun s : Evaluation β H => s.backend).Grows (apply mode p operands) :=
  grows_apply_of_invoke fun args _ => Backend.grows_of_does (fun op _ => h op) (p.does_invoke args)

/-- What the operations of the backend keep up, the evaluation of an expression keeps up. -/
theorem grows_expression [ToString H] (h : Backend.Grows k) (mode : Mode) (e : Expr)
    (rest : List Token) :
    (k.along fun s : Evaluation β H => s.backend).Grows (e.evaluate (.ofMode mode) rest) := by
  have hcongruence : Congruence fun {α} (a _ : Step β H α) =>
      (k.along fun s : Evaluation β H => s.backend).Grows a :=
    { pure := .pure
      throw := .throw
      bind := fun ha hf => .bind ha hf
      leave := fun _ => .change fun s => k.refl s.backend }
  have hrules : Rules.Alike (fun {α} (a _ : Step β H α) =>
      (k.along fun s : Evaluation β H => s.backend).Grows a) (.ofMode mode) (.ofMode mode) :=
    { identifier := grows_identifier k mode
      apply := grows_apply h mode }
  exact hcongruence.expression hrules e rest

end Evaluation

end RigExpr
