import RigExpr.Calculator
import RigExpr.Proofs.Action
import RigExpr.Proofs.Primitive
import RigExpr.Proofs.Value

/-!
# The calculator on literals

An operation on literals has a literal as its result, or it is refused; or else it
makes a handle. Which of these happens, and with which result, is settled by the
operation alone: the state of the calculator plays no part (`Calculator.Steady`).

* `Calculator.steady_perform`: so it is for each operation,
* `Calculator.steady_invoke`: and for each primitive.
-/

namespace RigExpr

namespace Calculator

variable {ε ε' α β : Type}

/-- If `pre` holds, the computation comes to the same outcome in every state and makes no
    handle, or it makes handles in every state. Handles are never unmade. -/
structure Steady (pre : Prop) (post : α → Prop) (a : Action ε Calculator α) : Prop where
  grows : ∀ s, s.state.made ≤ (a.runOn s).2.state.made
  settles : pre →
    (∃ outcome, (∀ v, outcome = .ok v → post v) ∧
      ∀ s, (a.runOn s).1 = outcome ∧ (a.runOn s).2.state.made = s.state.made) ∨
    ∀ s, s.state.made < (a.runOn s).2.state.made

namespace Steady

variable {pre pre' : Prop} {post post' : α → Prop} {a : Action ε Calculator α}

theorem weaken (h : Steady pre post a) (hpre : pre' → pre) : Steady pre' post a where
  grows := h.grows
  settles hp := h.settles (hpre hp)

/-- A computation that makes no handle, whatever the state, and settles on an outcome. -/
theorem settled (outcome : Except ε α) (hpost : pre → ∀ v, outcome = .ok v → post v)
    (h : ∀ s, (a.runOn s).1 = outcome ∧ (a.runOn s).2.state.made = s.state.made) :
    Steady pre post a where
  grows s := Nat.le_of_eq (h s).2.symm
  settles hp := .inl ⟨outcome, hpost hp, h⟩

protected theorem pure {v : α} (h : pre → post v) :
    Steady pre post (pure v : Action ε Calculator α) :=
  settled (.ok v) (fun hp _ hw => Except.ok.inj hw ▸ h hp) fun _ => ⟨rfl, rfl⟩

protected theorem throw (e : ε) : Steady pre post (throw e : Action ε Calculator α) :=
  settled (.error e) (fun _ => nofun) fun _ => ⟨rfl, rfl⟩

protected theorem bind (h : Steady pre post a) {f : α → Action ε Calculator β} {post' : β → Prop}
    (hf : ∀ v, Steady (pre ∧ post v) post' (f v)) : Steady pre post' (a >>= f) where
  grows s := by
    refine Nat.le_trans (h.grows s) ?_
    rcases ha : a.runOn s with ⟨outcome, s'⟩
    cases outcome with
    | ok v =>
      rw [Action.runOn_bind_of_ok ha]
      exact (hf v).grows s'
    | error e =>
      rw [Action.runOn_bind_of_error ha]
  settles hp := by
    rcases h.settles hp with ⟨outcome, hpost, hsettled⟩ | hmakes
    · -- the first computation settles on an outcome, and leaves it to the second
      have hrun (s : Logged Calculator) : ∃ s', a.runOn s = (outcome, s') ∧
          s'.state.made = s.state.made :=
        ⟨(a.runOn s).2, Prod.ext (hsettled s).1 rfl, (hsettled s).2⟩
      cases outcome with
      | error e =>
        refine .inl ⟨.error e, nofun, fun s => ?_⟩
        obtain ⟨s', ha, hmade⟩ := hrun s
        rw [Action.runOn_bind_of_error ha]
        exact ⟨rfl, hmade⟩
      | ok v =>
        refine ((hf v).settles ⟨hp, hpost v rfl⟩).imp ?_ ?_
        · rintro ⟨outcome, hpost', hsettled'⟩
          refine ⟨outcome, hpost', fun s => ?_⟩
          obtain ⟨s', ha, hmade⟩ := hrun s
          rw [Action.runOn_bind_of_ok ha, ← hmade]
          exact hsettled' s'
        · intro hmakes s
          obtain ⟨s', ha, hmade⟩ := hrun s
          rw [Action.runOn_bind_of_ok ha, ← hmade]
          exact hmakes s'
    · -- the first computation makes handles, and the second unmakes none
      refine .inr fun s => Nat.lt_of_lt_of_le (hmakes s) ?_
      rcases ha : a.runOn s with ⟨outcome, s'⟩
      cases outcome with
      | ok v =>
        rw [Action.runOn_bind_of_ok ha]
        exact (hf v).grows s'
      | error e =>
        rw [Action.runOn_bind_of_error ha]

theorem ofExcept {outcome : Except ε α} (h : pre → ∀ v, outcome = .ok v → post v) :
    Steady pre post (Action.ofExcept outcome : Action ε Calculator α) :=
  settled outcome h fun s => by simp

/-- With its errors turned into others, a steady computation stays so. -/
theorem onBackend {a : Action Refusal Calculator α} (h : Steady pre post a) :
    Steady pre post (Primitive.onBackend a) where
  grows s := h.grows s
  settles hp := by
    refine (h.settles hp).imp_left ?_
    rintro ⟨outcome, hpost, hsettled⟩
    refine ⟨outcome.mapError fun e => .refused e.message, fun v hv => hpost v ?_, fun s => ?_⟩
    · cases outcome <;> cases hv
      rfl
    · exact ⟨congrArg (Except.mapError _) (hsettled s).1, (hsettled s).2⟩

end Steady

/-! ## The record -/

/-- What is written down of an operation. -/
def entry (op : Operation Name) : String :=
  op.name ++ "(" ++ String.intercalate ", " (op.operands.map Value.text) ++ ")"

theorem toList_entry (op : Operation Name) : (entry op).toList = op.name.toList ++
    '(' :: ((Primitive.commas (op.operands.map Value.text)).toList ++ [')']) := by
  simp [entry, Primitive.commas]

theorem isSeparator_name (op : Operation Name) :
    op.name ≠ "" ∧ ∀ c ∈ op.name.toList, isSeparator c = false := by
  have hall : op.name ≠ "" ∧ op.name.toList.all (fun c => !isSeparator c) = true := by
    unfold Operation.name
    split <;> exact ⟨by decide +kernel, by decide +kernel⟩
  simpa using hall

theorem rendering_name (op : Operation Name) : Rendering op.name :=
  .plain (isSeparator_name op).1 (isSeparator_name op).2

/-- The name of a handle that the calculator has made. -/
structure Name.IsMade (n : Name) : Prop where
  rendering : Rendering n.text
  hash : '#' ∈ n.text.toList

theorem isMade_handle (op : Operation Name) (k : Nat) :
    Name.IsMade ⟨op.name ++ "#" ++ toString k⟩ := by
  have hlist : (op.name ++ "#" ++ toString k).toList =
      op.name.toList ++ '#' :: (toString k).toList := by
    simp [String.toList_append]
  have hhash : '#' ∈ (op.name ++ "#" ++ toString k).toList := by
    rw [hlist]
    exact List.mem_append_right _ List.mem_cons_self
  refine ⟨.plain (fun hempty => ?_) fun c hc => ?_, hhash⟩
  · simp only at hempty
    rw [hempty] at hhash
    cases hhash
  · rw [hlist, List.mem_append, List.mem_cons] at hc
    rcases hc with hc | rfl | hc
    · exact (isSeparator_name op).2 c hc
    · decide
    · have hdigit := Number.isDigit_of_mem_toString hc
      exact isSeparator_eq_false (.inl (by simp [Char.isAlphanum, hdigit]))

/-- No number goes by the name of a handle. -/
theorem Name.IsMade.ne_number {n : Name} (h : n.IsMade) (x : Float) : n.text ≠ Number.text x := by
  intro heq
  have hhash := h.hash
  rw [heq] at hhash
  exact absurd (Number.mem_text hhash) (by decide)

/-! ## Operations and primitives -/

theorem over_of_vector {P : Name → Prop} {xs : List Float} {v : Value Name}
    (h : vector xs = some v) : v.Over P := by
  refine Value.over_of_ofItems? h fun a ha => ?_
  obtain ⟨x, -, rfl⟩ := List.mem_map.1 ha
  trivial

/-- The result of an operation without a fresh handle has the handles of its operands. -/
theorem over_of_compute {P : Name → Prop} {op : Operation Name} {v : Value Name}
    (h : compute op = .ok (some v)) (ho : ∀ a ∈ op.operands, a.Over P) : v.Over P := by
  cases op with
  | arith | logic | not | clamp | lerp | remap | trig | length | dot | distance | angle | int
  | bool =>
    -- numbers and truth values
    simp only [compute, Except.ok.injEq, bind, Option.bind_eq_some_iff, pure,
      Option.some.injEq] at h
    grind [Value.Over]
  | condition test first second ifTrue ifFalse =>
    simp only [compute, Except.ok.injEq, bind, Option.bind_eq_some_iff, pure,
      Option.some.injEq] at h
    obtain ⟨x, -, y, -, rfl⟩ := h
    split
    · exact ho ifTrue (by simp [Operation.operands])
    · exact ho ifFalse (by simp [Operation.operands])
  | component object which =>
    -- a component of a sequence is one of its items
    have hitem : ∃ items, ∃ i : Nat, object.items? = some items ∧ items[i]? = some v := by
      cases object with
      | handle => cases h
      | _ =>
        simp only [compute] at h
        split at h
        · next items i hitems =>
          split at h <;> cases h
          next hi => exact ⟨items, i, hitems, hi⟩
        · cases h
    obtain ⟨items, i, hitems, hi⟩ := hitem
    exact (ho object (by simp [Operation.operands])).items hitems v (List.mem_of_getElem? hi)
  | normalize a =>
    simp only [compute, Except.ok.injEq, bind, Option.bind_eq_some_iff] at h
    obtain ⟨xs, -, h⟩ := h
    exact over_of_vector h
  | cross a b =>
    simp only [compute, Except.ok.injEq, bind, Option.bind_eq_some_iff] at h
    obtain ⟨xs, -, ys, -, h⟩ := h
    unfold cross? at h
    split at h <;> cases h
    exact ⟨trivial, trivial, trivial⟩
  | vector components =>
    simp only [compute] at h
    split at h <;> cases h
    next hitems => exact Value.over_of_ofItems? hitems ho
  | rotateOrder a =>
    cases a with
    | order o =>
      cases h
      trivial
    | scalar x =>
      simp only [compute] at h
      split at h <;> cases h
      trivial
    | _ => cases h
  | switch selector options =>
    cases selector with
    | scalar x =>
      simp only [compute] at h
      split at h <;> cases h
      next hi => exact ho v (List.mem_cons_of_mem _ (List.mem_of_getElem? hi))
    | _ => cases h
  | noise | slope | euler | quat | transform | matrix | slerp => cases h

/-- The result of an operation on literals is a literal. -/
theorem isLiteral_of_compute {op : Operation Name} {v : Value Name}
    (h : compute op = .ok (some v)) (ho : ∀ a ∈ op.operands, a.IsLiteral) : v.IsLiteral :=
  Value.isLiteral_iff_over.2
    (over_of_compute h fun a ha => Value.isLiteral_iff_over.1 (ho a ha))

/-- Each operation of the calculator is steady. -/
theorem steady_perform (op : Operation Name) :
    Steady (∀ a ∈ op.operands, a.IsLiteral) Value.IsLiteral (perform op) := by
  have hrecord : Steady (∀ a ∈ op.operands, a.IsLiteral) (fun _ : Unit => True)
      (Action.change fun c => c.record op.name op.operands : Action Refusal Calculator Unit) :=
    .settled (.ok ()) (fun _ _ _ => trivial) fun _ => ⟨rfl, rfl⟩
  have hcompute : Steady ((∀ a ∈ op.operands, a.IsLiteral) ∧ True)
      (fun result => ∀ v, result = some v → v.IsLiteral)
      (Action.ofExcept (compute op) : Action Refusal Calculator (Option (Value Name))) :=
    .ofExcept fun ho result hresult v hv => isLiteral_of_compute (hv ▸ hresult) ho.1
  refine hrecord.bind fun _ => hcompute.bind fun result => ?_
  cases result with
  | some v => exact .pure fun hv => hv.2 v rfl
  | none =>
    -- a fresh handle
    exact ⟨fun _ => Nat.le_succ _, fun _ => .inr fun _ => Nat.lt_succ_self _⟩

/-- So are operations one after the other. -/
theorem steady_of_composed {known : Operation Name → Prop} {args : List (Value Name)}
    {a : Action Refusal Calculator (Value Name)} (h : Backend.Composed known args a) :
    Steady (∀ v ∈ args, v.IsLiteral) Value.IsLiteral a := by
  have hnumber (x : Float) : (Value.scalar x : Value Name).IsLiteral := trivial
  induction h with
  | perform op _ hop hreads =>
    exact (steady_perform op).weaken fun hargs => Backend.forall_operands hop hreads hargs hnumber
  | bind op _ hop hreads _ _ ih =>
    refine Steady.bind
      ((steady_perform op).weaken fun hargs => Backend.forall_operands hop hreads hargs hnumber)
      fun v => (ih v).weaken fun ⟨hargs, hv⟩ => ?_
    exact List.forall_mem_cons.2 ⟨hv, hargs⟩

theorem steady_of_does {known : Operation Name → Prop} {args : List (Value Name)}
    {a : Action CompileError Calculator (Value Name)} (h : Primitive.Does known args a) :
    Steady (∀ v ∈ args, v.IsLiteral) Value.IsLiteral a := by
  cases h with
  | composed h => exact (steady_of_composed h).onBackend
  | operand h => exact .pure fun hargs => hargs _ h
  | isScalar v =>
    exact .settled (.ok (.bool v.scalar?.isSome)) (fun _ _ hw => Except.ok.inj hw ▸ trivial)
      fun _ => ⟨rfl, rfl⟩
  | isVector v =>
    exact .settled (.ok (.bool v.items?.isSome)) (fun _ _ hw => Except.ok.inj hw ▸ trivial)
      fun _ => ⟨rfl, rfl⟩
  | list =>
    refine .ofExcept fun hargs v hv => ?_
    unfold Value.ofItems at hv
    split at hv <;> cases hv
    next hitems => exact Value.isLiteral_of_ofItems? hitems hargs
  | throw e => exact .throw e

/-- Each primitive is steady on literals. -/
theorem steady_invoke (p : Primitive) (args : List (Value Name)) :
    Steady (∀ a ∈ args, a.IsLiteral) Value.IsLiteral
      (p.invoke args : Action CompileError Calculator (Value Name)) :=
  steady_of_does (p.does_invoke args)

end Calculator

end RigExpr
