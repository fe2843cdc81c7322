import RigExpr.Proofs.Calculator
import RigExpr.Proofs.Evaluation.Cache
import RigExpr.Proofs.Evaluation.Congruence

/-!
# Evaluations in lockstep

What an action does may depend on the log, as it is a part of what it is run on. For the
calculator it does not, nor does it depend on the operations that were recorded before: from
two states with the same number of handles, primitives come to the same outcome
(`Backend.Lockstep.invoke`, `Calculator.lockstep_made`).

So two evaluations of one expression come to the same value or error, and leave the backend in
the same state, if they start from the same backend, bindings and cache (`Evaluation.Alike`):
the log does not matter, nor do the tokens that are left and the names that were looked up
before (`Evaluation.Alike.follows_expression`).
-/

namespace RigExpr

open Coupling (free)

variable {β H ε : Type} [Backend β H ε]

/-- From related states of the backend, an operation on values with `P` comes to the same
    outcome, a value with `P` if it is one, and leads to related states again. -/
structure Backend.Lockstep (R : β → β → Prop) (P : Value H → Prop) : Prop where
  perform : ∀ {op : Operation H}, (∀ v ∈ op.operands, P v) →
    (free R).Follows True P (perform op : Action ε β (Value H)) (perform op)
  isScalar : ∀ {s t : β}, R s t → ∀ v, isScalar s v = isScalar t v
  isVector : ∀ {s t : β}, R s t → ∀ v, isVector s v = isVector t v
  scalar : ∀ x, P (.scalar x)
  bool : ∀ b, P (.bool b)
  items : ∀ {items : List (Value H)} {v : Value H}, Value.ofItems? items = some v →
    (∀ a ∈ items, P a) → P v

namespace Backend.Lockstep

variable {R : β → β → Prop} {P : Value H → Prop} (h : Lockstep R P)

include h

theorem composed {known : Operation H → Prop} {args : List (Value H)} {a : Action ε β (Value H)}
    (ha : Composed known args a) (hargs : ∀ v ∈ args, P v) : (free R).Follows True P a a := by
  induction ha with
  | perform op _ hop hreads => exact h.perform (forall_operands hop hreads hargs h.scalar)
  | bind op _ hop hreads _ _ ih =>
    refine (h.perform (forall_operands hop hreads hargs h.scalar)).step fun v hv => ?_
    exact ih v (List.forall_mem_cons.2 ⟨hv, hargs⟩)

theorem does {known : Operation H → Prop} {args : List (Value H)}
    {a : Action CompileError β (Value H)} (ha : Primitive.Does known args a)
    (hargs : ∀ v ∈ args, P v) : (free R).Follows True P a a := by
  cases ha with
  | composed ha =>
    exact .zoom (h.composed ha hargs) (fun _ _ hst => hst) fun _ _ _ _ _ hst => hst
  | operand hv => exact .pure fun _ => hargs _ hv
  | isScalar v =>
    refine .state fun s t hst => ?_
    rw [h.isScalar hst v]
    exact .pure fun _ => h.bool _
  | isVector v =>
    refine .state fun s t hst => ?_
    rw [h.isVector hst v]
    exact .pure fun _ => h.bool _
  | list =>
    refine .ofExcept fun _ v hv => ?_
    unfold Value.ofItems at hv
    split at hv <;> cases hv
    next hitems => exact h.items hitems hargs
  | throw e => exact .throw e

/-- So it is for primitives. -/
theorem invoke (p : Primitive) {args : List (Value H)} (hargs : ∀ v ∈ args, P v) :
    (free R).Follows True P (p.invoke args : Action CompileError β (Value H)) (p.invoke args) :=
  h.does (p.does_invoke args) hargs

end Backend.Lockstep

/-! ## The calculator -/

namespace Calculator

/-- A relation between states of the calculator that operations keep: the states have made the
    same number of handles. -/
structure Steps (R : Calculator → Calculator → Prop) : Prop where
  made : ∀ {c d}, R c d → c.made = d.made
  record : ∀ {c d} name operands, R c d → R (c.record name operands) (d.record name operands)
  make : ∀ {c d}, R c d → R { c with made := c.made + 1 } { d with made := d.made + 1 }

variable {R : Calculator → Calculator → Prop} {P : Value Name → Prop}

theorem follows_perform (hR : Steps R) {op : Operation Name}
    (hcompute : ∀ v, compute op = .ok (some v) → P v)
    (hhandle : ∀ k : Nat, P (.handle ⟨op.name ++ "#" ++ toString k⟩)) :
    (free R).Follows True P (perform op) (perform op) := by
  have hresult : (free R).Follows True (fun result => ∀ v, result = some v → P v)
      (Action.ofExcept (compute op) : Action Refusal Calculator (Option (Value Name)))
      (Action.ofExcept (compute op)) :=
    .ofExcept fun _ result hresult v hv => hcompute v (hv ▸ hresult)
  refine .step (.change (fun _ _ => trivial) fun _ _ hst => hR.record _ _ hst) fun _ _ => ?_
  refine hresult.step fun result hv => ?_
  cases result with
  | some v => exact .pure fun _ => hv v rfl
  | none =>
    -- a fresh handle, with the next number
    refine .step (.change (fun _ _ => trivial) fun _ _ hst => hR.make hst) fun _ _ => ?_
    refine .state fun s t hst => ?_
    rw [hR.made hst]
    exact .pure fun _ => hhandle _

/-- Whatever was written to the log, an operation of the calculator does the same. -/
theorem lockstep_eq : Backend.Lockstep (Eq : Calculator → Calculator → Prop) fun _ => True where
  perform _ := follows_perform ⟨congrArg _, fun _ _ h => h ▸ rfl, fun h => h ▸ rfl⟩
    (fun _ _ => trivial) fun _ => trivial
  isScalar _ _ := rfl
  isVector _ _ := rfl
  scalar _ := trivial
  bool _ := trivial
  items _ _ := trivial

/-- Of what happened before, an operation looks at nothing but the number of handles. -/
theorem lockstep_made :
    Backend.Lockstep (fun c d : Calculator => c.made = d.made) (Value.Over Name.IsMade) where
  perform ho := follows_perform ⟨id, fun _ _ h => h, congrArg (· + 1)⟩
    (fun _ hv => over_of_compute hv ho) fun k => isMade_handle _ k
  isScalar _ _ := rfl
  isVector _ _ := rfl
  scalar _ := trivial
  bool _ := trivial
  items := Value.over_of_ofItems?

end Calculator

/-! ## Expressions -/

namespace Evaluation

/-- Evaluations that do not differ in anything but the tokens that are left and the names that
    were looked up. -/
structure Alike (s t : Evaluation β H) : Prop where
  backend : s.backend = t.backend
  values : s.bindings.values = t.bindings.values
  names : s.bindings.names = t.bindings.names
  cache : s.cache = t.cache

namespace Alike

theorem describe [ToString H] {s t : Evaluation β H} (h : Alike s t) :
    s.bindings.describe = t.bindings.describe := by
  funext v
  rw [Bindings.describe, Bindings.describe, h.names]

theorem follows_leave (tokens : List Token) :
    (free (Alike (β := β) (H := H))).Follows True (fun _ => True) (leave tokens) (leave tokens) :=
  .change (fun _ _ => trivial) fun _ _ hst => ⟨hst.backend, hst.values, hst.names, hst.cache⟩

theorem follows_identifier (name : String) :
    (free (Alike (β := β) (H := H))).Follows True (fun _ => True) (identifier .emit name)
      (identifier .emit name) where
  fine _ _ := trivial
  keeps _ s t hst _ := by
    have hst : Alike s.state t.state := hst
    rw [runOn_identifier, runOn_identifier, hst.values]
    refine ⟨rfl, ⟨hst.backend, ?_, ?_, hst.cache⟩, fun _ _ => trivial⟩
    · simpa using hst.values
    · simpa using hst.names

theorem follows_apply [ToString H]
    (h : Backend.Lockstep (Eq : β → β → Prop) fun _ : Value H => True) (p : Primitive)
    (operands : List (Slot H)) :
    (free (Alike (β := β) (H := H))).Follows True (fun _ => True) (apply .emit p operands)
      (apply .emit p operands) := by
  cases hargs : values? operands with
  | none =>
    simp only [apply, hargs]
    exact .pure fun _ => trivial
  | some args =>
    have hinvoke : (free (Alike (β := β) (H := H))).Follows True (fun _ => True)
        (onBackend (p.invoke args)) (onBackend (p.invoke args)) :=
      .zoom (h.invoke p fun _ _ => trivial) (fun _ _ hst => hst.backend)
        fun _ _ _ _ hst hxy => ⟨hxy, hst.values, hst.names, hst.cache⟩
    simp only [apply, hargs]
    refine .state fun s t hst => ?_
    rw [hst.describe, hst.cache]
    split
    · exact .step .say fun _ _ => .pure fun _ => trivial
    · refine .step .say fun _ _ => hinvoke.step fun v _ => ?_
      refine .step (.change (fun _ _ => trivial) fun s t hst => ?_)
        fun _ _ => .pure fun _ => trivial
      exact ⟨hst.backend, hst.values, hst.names, by rw [hst.cache]⟩

/-- Two evaluations of an expression, on a backend that does not look at the log. -/
theorem follows_expression [ToString H]
    (h : Backend.Lockstep (Eq : β → β → Prop) fun _ : Value H => True) (e : Expr)
    (rest : List Token) :
    (free (Alike (β := β) (H := H))).Follows True (fun _ => True)
      (e.evaluate (.ofMode .emit) rest) (e.evaluate (.ofMode .emit) rest) := by
  have hcongruence : Congruence fun {α} (a b : Step β H α) =>
      (free (Alike (β := β) (H := H))).Follows True (fun _ => True) a b :=
    { pure := fun _ => .pure fun _ => trivial
      throw := fun e => .throw e
      bind := fun ha hf => ha.step fun v _ => hf v
      leave := follows_leave }
  exact hcongruence.expression ⟨follows_identifier, follows_apply h⟩ e rest

end Alike

end Evaluation

end RigExpr
