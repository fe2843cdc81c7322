import RigExpr.Proofs.Graph.Operands
import RigExpr.Proofs.Graph.WellFormed
import RigExpr.Proofs.Primitive

/-!
# Steps of the construction

All that an operation does to a graph under construction is to add nodes, none of them for the
host, and to look for constants or make them; and it may fail in between. A node that is added
has all operands that it reads, unless the operation lacks some, and only a constant has a value
(`Params.IsInner`). So what holds of these steps, and goes on from one to the next
(`Builder.Construction`), holds of each operation (`Builder.Construction.perform`).
-/

namespace RigExpr

/-- Whether a node of this kind stands for an operation. -/
def Kind.IsOperation (kind : Kind) : Prop :=
  kind ≠ .input ∧ kind ≠ .output ∧ kind ≠ .constant

instance (kind : Kind) : Decidable kind.IsOperation := inferInstanceAs (Decidable (_ ∧ _ ∧ _))

theorem Kind.IsOperation.isInner {kind : Kind} (h : kind.IsOperation) : kind.IsInner :=
  ⟨h.1, h.2.1⟩

/-- Parameters of a node that stands for an operation: there is no value among them, and no
    component but these. -/
structure Params.IsInner (access : Component → Prop) (params : Params) : Prop where
  value : params.value = none
  index : ∀ i ∈ params.index, access (.axis i)

theorem Params.IsInner.of_index_eq_none {access : Component → Prop} {params : Params}
    (hvalue : params.value = none) (hindex : params.index = none) : params.IsInner access :=
  ⟨hvalue, fun i hi => by rw [hindex] at hi; cases hi⟩

namespace Builder

theorem isOperation_ofArith (op : Arith) : (ofArith op).IsOperation := by cases op <;> decide

theorem isOperation_ofLogic (op : Logic) : (ofLogic op).IsOperation := by cases op <;> decide

theorem isOperation_ofTrig (f : Trig) : (ofTrig f).IsOperation := by cases f <;> decide

/-! ## Nodes with their operands -/

section Wired

variable {params : Params}

theorem wired_ofArith (op : Arith) : (ofArith op).Wired params ["lhs", "rhs"] :=
  .of_operands (by cases op <;> decide) (by cases op <;> exact fun _ hkey => hkey)

theorem wired_ofLogic (op : Logic) : (ofLogic op).Wired params ["lhs", "rhs"] :=
  .of_operands (by cases op <;> decide) (by cases op <;> exact fun _ hkey => hkey)

theorem wired_ofTrig (f : Trig) : (ofTrig f).Wired params ["in"] :=
  .of_operands (by cases f <;> decide) (by cases f <;> exact fun _ hkey => hkey)

/-- The angles of an Euler rotation, in a vector or one by one. -/
theorem wired_euler {keys : List String}
    (h : "in" ∈ keys ∨ ∀ i < 3, Variadic.key i ∈ keys) : Kind.euler.Wired params keys := by
  refine .of_operands (by decide) fun key hkey => ?_
  rw [Kind.operands] at hkey
  split at hkey
  · next hin => exact List.mem_singleton.1 hkey ▸ hin
  · next hin =>
    have hkeys := h.resolve_left hin
    simp only [List.mem_cons, List.not_mem_nil, or_false] at hkey
    rcases hkey with rfl | rfl | rfl
    · exact hkeys 0 (by decide)
    · exact hkeys 1 (by decide)
    · exact hkeys 2 (by decide)

/-- Nothing but numbered operands, for a kind that reads nothing else. -/
theorem wired_numbered {α : Type} {args : List α} (hargs : args ≠ []) {kind : Kind}
    (hkind : kind ≠ .condition ∧ kind ≠ .component) (hnone : ∀ keys, kind.operands keys = []) :
    kind.Wired params ((numbered args).map (·.1)) := by
  rw [← List.append_nil ((numbered args).map _)]
  refine .of_numbered hargs (fun _ hkey => absurd hkey List.not_mem_nil) hkind fun key hkey => ?_
  rw [hnone] at hkey
  exact absurd hkey List.not_mem_nil

/-- The operands of a quaternion, perhaps with an order. -/
theorem wired_quat {α : Type} {args : List α} (hargs : args ≠ []) {others : List String}
    (hothers : others ⊆ ["order"]) :
    Kind.quat.Wired params ((numbered args).map (·.1) ++ others) := by
  refine .of_numbered hargs (fun key hkey => ?_) (by decide) fun _ hkey =>
    absurd hkey List.not_mem_nil
  rw [List.mem_singleton.1 (hothers hkey)]
  decide

theorem wired_switch {α : Type} {options : List α} (hoptions : options ≠ []) :
    Kind.switch.Wired params ((numbered options).map (·.1) ++ ["selector"]) :=
  .of_numbered hoptions (by decide) (by decide) fun _ hkey => List.mem_append_right _ hkey

end Wired

/-! ## Steps -/

/-- A property of steps that holds of what is put together from steps that have it. If it is
    only to hold of `full` operations, the nodes that are added have all operands that they
    read; if only of operations with `access` to their components, so have the nodes. -/
structure Construction (full : Prop) (access : Component → Prop)
    (R : ∀ {α : Type}, Build α → Prop) : Prop where
  pure : ∀ {α : Type} (v : α), R (pure v)
  throw : ∀ {α : Type} (e : Refusal), R (throw e : Build α)
  state : R Action.state
  bind : ∀ {α β : Type} {a : Build α} {f : α → Build β}, R a → (∀ v, R (f v)) → R (a >>= f)
  addNode : ∀ {kind : Kind} {params : Params} (inputs : List (String × Plug)), kind.IsOperation →
    params.IsInner access → (full → kind.Wired params (inputs.map (·.1))) →
    R (addNode kind params inputs)
  constant : ∀ s : Signal, R (constant s)

/-- Make a constant, and take note of it. -/
def note (s : Signal) : Build Plug := do
  let p ← addNode .constant { value := some s } []
  Action.change fun b => { b with constants := b.constants.insert s.text p }
  return p

/-- A constant that is there is found, and any other is made. -/
theorem grows_constant {k : Upkeep Builder} {s : Signal} (h : k.Grows (note s)) :
    k.Grows (constant s) := by
  refine .state fun b => ?_
  split
  · exact .pure _
  · exact h

namespace Construction

variable {full : Prop} {access : Component → Prop} {R : ∀ {α : Type}, Build α → Prop}
  (hR : Construction full access R)

include hR

theorem join {parts : List Plug} (hparts : parts ≠ []) : R (join parts) :=
  hR.addNode _ (by decide) (.of_index_eq_none rfl rfl) fun _ =>
    wired_numbered hparts (by decide) fun _ => rfl

theorem materialize (v : Value Plug) : R (materialize v) := by
  induction v with
  | handle => exact hR.pure _
  | scalar | bool | order => exact hR.constant _
  | pair a b iha ihb =>
    rw [Builder.materialize]
    split
    · exact hR.constant _
    · exact hR.bind iha fun _ => hR.bind ihb fun _ => hR.join (List.cons_ne_nil _ _)
  | triple a b c iha ihb ihc =>
    rw [Builder.materialize]
    split
    · exact hR.constant _
    · exact hR.bind iha fun _ => hR.bind ihb fun _ => hR.bind ihc fun _ =>
        hR.join (List.cons_ne_nil _ _)
  | quad a b c d iha ihb ihc ihd =>
    rw [Builder.materialize]
    split
    · exact hR.constant _
    · exact hR.bind iha fun _ => hR.bind ihb fun _ => hR.bind ihc fun _ =>
        hR.bind ihd fun _ => hR.join (List.cons_ne_nil _ _)

/-- Plugs are made of operands, and what comes then finds them under the keys of the operands. -/
theorem wire {α : Type} {operands : List (String × Value Plug)}
    {f : List (String × Plug) → Build α}
    (hf : ∀ inputs, inputs.map (·.1) = operands.map (·.1) → R (f inputs)) :
    R (wire operands >>= f) := by
  induction operands generalizing f with
  | nil =>
    rw [Builder.wire, pure_bind]
    exact hf [] rfl
  | cons operand rest ih =>
    obtain ⟨key, v⟩ := operand
    simp only [Builder.wire, bind_assoc, pure_bind]
    refine hR.bind (hR.materialize v) fun p => ih fun inputs hinputs => hf _ ?_
    rw [List.map_cons, List.map_cons, hinputs]

theorem emit {kind : Kind} (hkind : kind.IsOperation) {params : Params}
    (hparams : params.IsInner access) {operands : List (String × Value Plug)}
    (hwired : full → kind.Wired params (operands.map (·.1))) : R (emit kind params operands) :=
  hR.wire fun inputs hinputs => hR.bind
    (hR.addNode inputs hkind hparams fun h => hinputs ▸ hwired h) fun _ => hR.pure _

theorem rotation {kind : Kind} (hkind : kind.IsOperation) {operands : List (String × Value Plug)}
    {order : Option (Value Plug)}
    (hwired : ∀ params, ∀ others ⊆ ["order"], kind.Wired params (operands.map (·.1) ++ others)) :
    R (rotation kind operands order) := by
  have hplain (params : Params) : kind.Wired params (operands.map (·.1)) := by
    simpa using hwired params [] (List.nil_subset _)
  rw [rotation.eq_def]
  split
  · exact hR.emit hkind (.of_index_eq_none rfl rfl) fun _ => hplain _
  · refine hR.emit hkind (.of_index_eq_none rfl rfl) fun _ => ?_
    rw [List.map_append]
    exact hwired _ _ (List.Subset.refl _)
  · exact hR.emit hkind (.of_index_eq_none rfl rfl) fun _ => hplain _

theorem euler (args : List (Value Plug)) : R (euler args) := by
  refine hR.bind hR.state fun b => ?_
  dsimp only
  split
  · refine hR.rotation (by decide) fun _ _ _ => wired_euler (.inl ?_)
    exact List.mem_cons_self
  · refine hR.rotation (by decide) fun _ _ _ => wired_euler (.inr fun i hi => ?_)
    exact List.mem_append_left _ (Variadic.mem_numbered.2 ⟨i, hi, rfl⟩)
  · exact hR.throw _

theorem quat (args : List (Value Plug)) : R (quat args) := by
  refine hR.bind hR.state fun b => ?_
  dsimp only
  split
  · exact hR.pure _
  · split
    · exact hR.throw _
    · next hne =>
      refine hR.rotation (by decide) fun _ _ hothers => wired_quat ?_ hothers
      exact fun h => hne (List.isEmpty_iff.2 h)

theorem rotateOrder (v : Value Plug) : R (rotateOrder v) := by
  rw [rotateOrder.eq_def]
  split
  · exact hR.pure _
  · split
    · split
      · exact hR.pure _
      · exact hR.throw _
    · exact hR.throw _
  · exact hR.emit (by decide) (.of_index_eq_none rfl rfl) fun _ =>
      .of_operands (by decide) fun _ hkey => hkey
  · exact hR.throw _

theorem component (object : Value Plug) {which : Component} (haccess : access which) :
    R (component object which) := by
  rw [component.eq_def]
  split
  · exact hR.emit (by decide) ⟨rfl, fun i hi => by cases hi; exact haccess⟩ fun _ =>
      { operands := fun _ hkey => hkey
        numbered := fun h => absurd h (by decide)
        comparison := fun h => absurd h (by decide)
        index := fun _ => rfl }
  · refine hR.bind hR.state fun b => ?_
    split
    · exact hR.throw _
    · split
      · exact hR.pure _
      · exact hR.throw _
  · split
    · split
      · exact hR.pure _
      · exact hR.throw _
    · exact hR.throw _
  · exact hR.throw _

/-- Every operation is put together from such steps. -/
theorem perform {op : Operation Plug} (hop : full → op.IsFull) (haccess : op.Accesses access) :
    R (perform op) := by
  have hparams : ({} : Params).IsInner access := .of_index_eq_none rfl rfl
  cases op with
  | arith op => exact hR.emit (isOperation_ofArith op) hparams fun _ => wired_ofArith op
  | logic op => exact hR.emit (isOperation_ofLogic op) hparams fun _ => wired_ofLogic op
  | trig f => exact hR.emit (isOperation_ofTrig f) hparams fun _ => wired_ofTrig f
  | component object which => exact hR.component object haccess
  | vector components =>
    rw [Builder.perform]
    split
    · exact hR.bind (hR.materialize _) fun _ => hR.pure _
    · exact hR.throw _
  | euler args => exact hR.euler args
  | rotateOrder v => exact hR.rotateOrder v
  | quat args => exact hR.quat args
  | condition =>
    exact hR.emit (by decide) (.of_index_eq_none rfl rfl) fun _ =>
      { operands := fun _ hkey => hkey
        numbered := fun h => absurd h (by decide)
        comparison := fun _ => rfl
        index := fun h => absurd h (by decide) }
  | transform args =>
    refine hR.emit (by decide) hparams fun hfull =>
      .of_operands (by decide) fun key hkey => ?_
    -- there is a displacement at least
    obtain ⟨v, rest, rfl⟩ := List.exists_cons_of_ne_nil (hop hfull)
    exact List.mem_singleton.1 hkey ▸ List.mem_cons_self
  | matrix args =>
    exact hR.emit (by decide) hparams fun hfull =>
      wired_numbered (hop hfull) (by decide) fun _ => rfl
  | switch selector options =>
    refine hR.emit (by decide) hparams fun hfull => ?_
    rw [List.map_append]
    exact wired_switch (hop hfull)
  | _ =>
    exact hR.emit (by decide) hparams fun _ =>
      .of_operands (by decide) fun _ hkey => hkey

end Construction

end Builder

end RigExpr
