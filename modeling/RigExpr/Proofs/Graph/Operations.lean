import RigExpr.Proofs.Graph.Interpretation

/-!
# Operations on a graph under construction

An operation becomes a node that carries the formula of the operation, applied to the
signals of its operands (`Builder.Interpretation.yields_perform`). Functions that come down
to several operations become several nodes, and a primitive carries its formula too
(`Builder.Interpretation.yields_invoke`). The formulas are those of `Operation.signal` and
`Primitive.signal`, which do not mention nodes.
-/

namespace RigExpr

open Signal

/-- The signal of an operation, given those of its operands. Rotations, matrices and
    options, which can fail to have one, are left out. -/
def Operation.signal {H : Type} (f : Value H → Signal) : Operation H → Option Signal
  | arith op a b => some (.arith op (f a) (f b))
  | logic op a b => some (.logic op (f a) (f b))
  | not a => some (.bool !(f a).toBool)
  | clamp value low high =>
    some (zipWith Number.smaller (zipWith Number.larger (f value) (f low)) (f high))
  | condition test first second ifTrue ifFalse =>
    some (choice test (f first) (f second) (f ifTrue) (f ifFalse))
  | lerp a b t => some (zipWith (· + ·) (f a) (zipWith (· * ·) (zipWith (· - ·) (f b) (f a)) (f t)))
  | remap value inLow inHigh outLow outHigh =>
    some ((f value).map (Node.remapped (f inLow).toFloat (f inHigh).toFloat (f outLow).toFloat
      (f outHigh).toFloat))
  | trig g a => some ((f a).map g.apply)
  | noise a => some ((f a).map Noise.value)
  | slope a => some ((f a).map Noise.slope)
  | normalize v => some (.vector (Node.direction (f v).components))
  | length v => some (.float (Number.length (f v).components))
  | dot a b =>
    some (.float (if (f a).components.length = (f b).components.length then
      Number.dot (f a).components (f b).components else Number.nan))
  | cross a b => some (.vector (Node.orthogonal (f a).components (f b).components))
  | distance a b => some (.float (Number.length (zipWith (· - ·) (f a) (f b)).components))
  | angle a b => some (.float (Node.angle (f a).components (f b).components))
  | vector parts =>
    if 2 ≤ parts.length ∧ parts.length ≤ 4 then some (joined (parts.map f)) else none
  | int a => some ((f a).map Number.truncate)
  | bool a => some (.bool (f a).toBool)
  | component _ _ | euler _ | rotateOrder _ | quat _ | transform _ | matrix _ | slerp _ _ _
  | switch _ _ => none

/-- The signal of a primitive, given those of its operands, if it takes as many. -/
def Primitive.signal : Primitive → List Signal → Option Signal
  | binary op, [a, b] => some (op.signal a b)
  | negate, [a] => some a.negate
  | not, [a] => some (.bool !a.toBool)
  | condition test, [first, second, ifTrue, ifFalse] =>
    some (choice test first second ifTrue ifFalse)
  | list, parts => if 2 ≤ parts.length ∧ parts.length ≤ 4 then some (joined parts) else none
  | call f, args => if f.isPlain ∧ f.arity.accepts args.length then some (f.signal args) else none
  | _, _ => none

namespace Builder.Interpretation

variable {env : String → Option Signal} {M : Interpretation env}

/-! ## Nodes by the keys of their operands -/

section Keys

variable {kind : Kind} {a b : Value Plug} {s : Signal}

theorem yields_unary (ha : a.Over M.builder.IsSource)
    (hs : ∀ (n : Node) (i : Inlet), n.kind = kind → i.get "in" = a.signal M.value →
      n.outputs i = .ok (Node.single s))
    (hinput : kind ≠ .input) (houtput : kind ≠ .output) :
    M.Yields (unary kind a) fun v M' => M'.Makes v s :=
  yields_emit (by simpa using ha) (by simp) (fun n hkind _ => hs n _ hkind rfl) hinput houtput

theorem yields_binary (ha : a.Over M.builder.IsSource) (hb : b.Over M.builder.IsSource)
    (hs : ∀ (n : Node) (i : Inlet), n.kind = kind → i.get "lhs" = a.signal M.value →
      i.get "rhs" = b.signal M.value → n.outputs i = .ok (Node.single s))
    (hinput : kind ≠ .input) (houtput : kind ≠ .output) :
    M.Yields (binary kind a b) fun v M' => M'.Makes v s :=
  yields_emit (by simpa using ⟨ha, hb⟩) (by simp) (fun n hkind _ => hs n _ hkind rfl rfl) hinput
    houtput

theorem yields_vectors (ha : a.Over M.builder.IsSource) (hb : b.Over M.builder.IsSource)
    (hs : ∀ (n : Node) (i : Inlet), n.kind = kind → i.get "a" = a.signal M.value →
      i.get "b" = b.signal M.value → n.outputs i = .ok (Node.single s))
    (hinput : kind ≠ .input) (houtput : kind ≠ .output) :
    M.Yields (vectors kind a b) fun v M' => M'.Makes v s :=
  yields_emit (by simpa using ⟨ha, hb⟩) (by simp) (fun n hkind _ => hs n _ hkind rfl rfl) hinput
    houtput

end Keys

/-- An operation carries its formula. -/
theorem yields_perform (op : Operation Plug) {s : Signal}
    (hs : op.signal (Value.signal M.value) = some s)
    (hop : ∀ v ∈ op.operands, v.Over M.builder.IsSource) :
    M.Yields (perform op) fun v M' => M'.Makes v s := by
  cases op with
  | arith op a b =>
    cases hs
    refine yields_binary (hop a (by simp [Operation.operands]))
      (hop b (by simp [Operation.operands])) (fun n i hkind hl hr => ?_)
      (by cases op <;> decide) (by cases op <;> decide)
    cases op <;> simp [Node.outputs, hkind, hl, hr, ofArith, Signal.arith]
  | logic op a b =>
    cases hs
    refine yields_binary (hop a (by simp [Operation.operands]))
      (hop b (by simp [Operation.operands])) (fun n i hkind hl hr => ?_)
      (by cases op <;> decide) (by cases op <;> decide)
    cases op <;> simp [Node.outputs, hkind, hl, hr, ofLogic, Signal.logic]
  | not a =>
    cases hs
    exact yields_unary (hop a (by simp [Operation.operands]))
      (fun n i hkind hin => by simp [Node.outputs, hkind, hin]) (by decide) (by decide)
  | trig f a =>
    cases hs
    refine yields_unary (hop a (by simp [Operation.operands])) (fun n i hkind hin => ?_)
      (by cases f <;> decide) (by cases f <;> decide)
    cases f <;> simp [Node.outputs, hkind, hin, ofTrig]
  | noise a | slope a | int a | bool a | normalize a | length a =>
    cases hs
    exact yields_unary (hop a (by simp [Operation.operands]))
      (fun n i hkind hin => by simp [Node.outputs, hkind, hin, Inlet.components]) (by decide)
      (by decide)
  | dot a b | cross a b | distance a b | angle a b =>
    cases hs
    exact yields_vectors (hop a (by simp [Operation.operands]))
      (hop b (by simp [Operation.operands]))
      (fun n i hkind ha hb => by simp [Node.outputs, hkind, ha, hb, Inlet.components]) (by decide)
      (by decide)
  | clamp value low high =>
    cases hs
    refine yields_emit (by simpa [Operation.operands] using hop) (by simp) (fun n hkind _ => ?_)
      (by decide) (by decide)
    simp [Node.outputs, hkind, signals, Inlet.get, Table.get?, Table.find]
  | lerp a b t =>
    cases hs
    refine yields_emit (by simpa [Operation.operands] using hop) (by simp) (fun n hkind _ => ?_)
      (by decide) (by decide)
    simp [Node.outputs, hkind, signals, Inlet.get, Table.get?, Table.find]
  | remap value inLow inHigh outLow outHigh =>
    cases hs
    refine yields_emit (by simpa [Operation.operands] using hop) (by simp) (fun n hkind _ => ?_)
      (by decide) (by decide)
    simp [Node.outputs, hkind, signals, Inlet.get, Inlet.float, Table.get?, Table.find]
  | condition test first second ifTrue ifFalse =>
    cases hs
    refine yields_emit (by simpa [Operation.operands] using hop) (by simp)
      (fun n hkind hparams => ?_) (by decide) (by decide)
    simp [Node.outputs, hkind, hparams, signals, Inlet.get, Inlet.float, Table.get?, Table.find,
      Node.orFault, choice]
  | vector parts =>
    rw [Operation.signal] at hs
    split at hs
    · next hlength =>
      cases hs
      obtain ⟨v, hv⟩ := Value.exists_ofItems? hlength
      rw [perform, hv, ← Value.signal_of_items? (Value.items?_ofItems? hv)]
      exact (yields_sequence (Value.items?_ofItems? hv) (Value.over_of_ofItems? hv hop)
        fun _ _ _ => yields_materialize).bind fun p M' _ hp => .pure hp
    · cases hs
  | component | euler | rotateOrder | quat | transform | matrix | slerp | switch => cases hs

/-! ## Primitives -/

section Derived

variable {a b c d : Value Plug} {s t u w : Signal} (ha : M.Carries a s) (hb : M.Carries b t)

theorem carries_scalar (x : Float) : M.Carries (.scalar x) (.float x) :=
  ⟨trivial, rfl⟩

include ha

theorem yields_trig (f : Trig) :
    M.Yields (perform (.trig f a)) fun v M' => M'.Makes v (s.map f.apply) := by
  obtain ⟨ha, rfl⟩ := ha
  exact yields_perform (.trig f a) rfl (List.forall_mem_singleton.2 ha)

theorem yields_int :
    M.Yields (perform (.int a)) fun v M' => M'.Makes v (s.map Number.truncate) := by
  obtain ⟨ha, rfl⟩ := ha
  exact yields_perform (.int a) rfl (List.forall_mem_singleton.2 ha)

include hb

theorem yields_arith (op : Arith) :
    M.Yields (perform (.arith op a b)) fun v M' => M'.Makes v (arith op s t) := by
  obtain ⟨ha, rfl⟩ := ha
  obtain ⟨hb, rfl⟩ := hb
  exact yields_perform (.arith op a b) rfl
    (List.forall_mem_cons.2 ⟨ha, List.forall_mem_singleton.2 hb⟩)

theorem yields_condition (test : Comparison) (hc : M.Carries c u) (hd : M.Carries d w) :
    M.Yields (perform (.condition test a b c d)) fun v M' =>
      M'.Makes v (choice test s t u w) := by
  obtain ⟨ha, rfl⟩ := ha
  obtain ⟨hb, rfl⟩ := hb
  obtain ⟨hc, rfl⟩ := hc
  obtain ⟨hd, rfl⟩ := hd
  exact yields_perform (.condition test a b c d) rfl
    (by simpa [Operation.operands] using ⟨ha, hb, hc, hd⟩)

theorem yields_min :
    M.Yields (Backend.min a b) fun v M' => M'.Makes v (choice .less s t s t) :=
  yields_condition ha hb .less ha hb

theorem yields_max :
    M.Yields (Backend.max a b) fun v M' => M'.Makes v (choice .greater s t s t) :=
  yields_condition ha hb .greater ha hb

theorem yields_modulo : M.Yields (Backend.modulo a b) fun v M' => M'.Makes v (s.modulo t) := by
  refine (yields_arith ha hb .divide).bind fun ratio M₁ h₁ hratio => ?_
  refine (yields_int hratio.carries).bind fun whole M₂ h₂ hwhole => ?_
  have hb := hb.grows (h₁.trans h₂)
  refine (yields_arith hb hwhole.carries .multiply).bind fun scaled M₃ h₃ hscaled => ?_
  have ha := ha.grows ((h₁.trans h₂).trans h₃)
  exact yields_arith ha hscaled.carries .subtract

omit hb

theorem yields_negate : M.Yields (Backend.negate a) fun v M' => M'.Makes v s.negate :=
  yields_arith (carries_scalar (-1)) ha .multiply

theorem yields_inverse :
    M.Yields (Backend.inverse a) fun v M' => M'.Makes v (arith .power s (.float (-1))) :=
  yields_arith ha (carries_scalar (-1)) .power

theorem yields_exp :
    M.Yields (Backend.exp a) fun v M' => M'.Makes v (arith .power (.float Number.e) s) :=
  yields_arith (carries_scalar Number.e) ha .power

theorem yields_sqrt :
    M.Yields (Backend.sqrt a) fun v M' => M'.Makes v (arith .power s (.float 0.5)) :=
  yields_arith ha (carries_scalar 0.5) .power

theorem yields_abs :
    M.Yields (Backend.abs a) fun v M' =>
      M'.Makes v (choice .greaterEqual s (.float 0) s s.negate) := by
  refine (yields_negate ha).bind fun negated M' hgrows hnegated => ?_
  have ha := ha.grows hgrows
  exact yields_condition ha (carries_scalar 0) .greaterEqual ha hnegated.carries

theorem yields_sign :
    M.Yields (Backend.sign a) fun v M' =>
      M'.Makes v (choice .equal s (.float 0) (.float 0)
        (choice .greaterEqual s (.float 0) (.float 1) (.float (-1)))) := by
  refine (yields_condition ha (carries_scalar 0) .greaterEqual (carries_scalar 1)
    (carries_scalar (-1))).bind fun nonzero M' hgrows hnonzero => ?_
  exact yields_condition (ha.grows hgrows) (carries_scalar 0) .equal (carries_scalar 0)
    hnonzero.carries

theorem yields_tan :
    M.Yields (Backend.tan a) fun v M' =>
      M'.Makes v (arith .divide (s.map Float.sin) (s.map Float.cos)) := by
  refine (yields_trig ha .sin).bind fun sin M₁ h₁ hsin => ?_
  refine (yields_trig (ha.grows h₁) .cos).bind fun cos M₂ h₂ hcos => ?_
  exact yields_arith (hsin.carries.grows h₂) hcos.carries .divide

end Derived

theorem yields_run (op : Operation Plug) {s : Signal}
    (hs : op.signal (Value.signal M.value) = some s)
    (hop : ∀ v ∈ op.operands, v.Over M.builder.IsSource) :
    M.Yields (Primitive.run op) fun v M' => M'.Makes v s :=
  (yields_perform op hs hop).onBackend

/-- A binary operator carries its formula. -/
theorem yields_invokeBinary (op : BinaryOp) {a b : Value Plug}
    (hargs : ∀ v ∈ [a, b], v.Over M.builder.IsSource) :
    M.Yields (Primitive.invokeBinary op a b) fun v M' =>
      M'.Makes v (op.signal (a.signal M.value) (b.signal M.value)) := by
  cases op with
  | add => exact yields_run (.arith .add a b) rfl hargs
  | subtract => exact yields_run (.arith .subtract a b) rfl hargs
  | multiply => exact yields_run (.arith .multiply a b) rfl hargs
  | divide => exact yields_run (.arith .divide a b) rfl hargs
  | power => exact yields_run (.arith .power a b) rfl hargs
  | or => exact yields_run (.logic .or a b) rfl hargs
  | and => exact yields_run (.logic .and a b) rfl hargs
  | modulo =>
    exact (yields_modulo ⟨hargs a (by simp), rfl⟩ ⟨hargs b (by simp), rfl⟩).onBackend

/-- A function that does not just hand on its argument carries its formula. -/
theorem yields_invokeCall (f : Function) (hf : f.isPlain = true) (hvalue : f ≠ .value)
    {args : List (Value Plug)} (harity : f.arity.accepts args.length = true)
    (hargs : ∀ a ∈ args, a.Over M.builder.IsSource) :
    M.Yields (Primitive.invokeCall f args) fun v M' =>
      M'.Makes v (f.signal (args.map (Value.signal M.value))) := by
  have hcarries {a : Value Plug} (ha : a ∈ args) : M.Carries a (a.signal M.value) :=
    ⟨hargs a ha, rfl⟩
  cases f with
  | euler | rotateOrder | quat | transform | matrix | slerp | switch | isScalar | isVector =>
    cases hf
  | cos | sin | acos | asin | atan | noise | dnoise | norm | len | int | bool =>
    obtain ⟨a, rfl⟩ := List.length_eq_one_iff.1 (of_decide_eq_true harity)
    exact yields_run _ rfl hargs
  | dot | cross | distance | angle | xor | pow =>
    obtain ⟨a, b, rfl⟩ := List.length_eq_two.1 (of_decide_eq_true harity)
    exact yields_run _ rfl hargs
  | clamp | lerp =>
    obtain ⟨a, b, c, rfl⟩ := List.length_eq_three.1 (of_decide_eq_true harity)
    exact yields_run _ rfl hargs
  | remap =>
    match args, of_decide_eq_true harity with
    | [value, inLow, inHigh, outLow, outHigh], _ => exact yields_run _ rfl hargs
  | vector =>
    have hlength : 2 ≤ args.length ∧ args.length ≤ 4 := by
      simpa [Function.arity, Arity.accepts] using harity
    exact yields_run (.vector args) (if_pos hlength) hargs
  | tan =>
    obtain ⟨a, rfl⟩ := List.length_eq_one_iff.1 (of_decide_eq_true harity)
    exact (yields_tan (hcarries List.mem_cons_self)).onBackend
  | inverse =>
    obtain ⟨a, rfl⟩ := List.length_eq_one_iff.1 (of_decide_eq_true harity)
    exact (yields_inverse (hcarries List.mem_cons_self)).onBackend
  | exp =>
    obtain ⟨a, rfl⟩ := List.length_eq_one_iff.1 (of_decide_eq_true harity)
    exact (yields_exp (hcarries List.mem_cons_self)).onBackend
  | sqrt =>
    obtain ⟨a, rfl⟩ := List.length_eq_one_iff.1 (of_decide_eq_true harity)
    exact (yields_sqrt (hcarries List.mem_cons_self)).onBackend
  | abs =>
    obtain ⟨a, rfl⟩ := List.length_eq_one_iff.1 (of_decide_eq_true harity)
    exact (yields_abs (hcarries List.mem_cons_self)).onBackend
  | sign =>
    obtain ⟨a, rfl⟩ := List.length_eq_one_iff.1 (of_decide_eq_true harity)
    exact (yields_sign (hcarries List.mem_cons_self)).onBackend
  | value => exact absurd rfl hvalue
  | modulo =>
    obtain ⟨a, b, rfl⟩ := List.length_eq_two.1 (of_decide_eq_true harity)
    exact (yields_modulo (hcarries (by simp)) (hcarries (by simp))).onBackend
  | min =>
    obtain ⟨a, b, rfl⟩ := List.length_eq_two.1 (of_decide_eq_true harity)
    exact (yields_min (hcarries (by simp)) (hcarries (by simp))).onBackend
  | max =>
    obtain ⟨a, b, rfl⟩ := List.length_eq_two.1 (of_decide_eq_true harity)
    exact (yields_max (hcarries (by simp)) (hcarries (by simp))).onBackend

/-- What comes of operands: a new plug, one of them, or the sequence of them. -/
inductive Comes (M : Interpretation env) (args : List (Value Plug)) (v : Value Plug) (s : Signal) :
    Prop
  | made (h : M.Makes v s)
  | operand (hmem : v ∈ args) (h : M.Carries v s)
  | sequence (hitems : v.items? = some args) (h : M.Carries v s)

theorem Comes.carries {args : List (Value Plug)} {v : Value Plug} {s : Signal}
    (h : M.Comes args v s) : M.Carries v s := by
  cases h with
  | made h => exact h.carries
  | operand _ h | sequence _ h => exact h

/-- A primitive carries its formula. -/
theorem yields_invoke (p : Primitive) {args : List (Value Plug)} {s : Signal}
    (hs : p.signal (args.map (Value.signal M.value)) = some s)
    (hargs : ∀ a ∈ args, a.Over M.builder.IsSource) :
    M.Yields (p.invoke args) fun v M' => M'.Comes args v s := by
  unfold Primitive.signal at hs
  split at hs
  · next op a b hmap =>
    match args, hmap with
    | [x, y], rfl =>
      cases hs
      exact (yields_invokeBinary op hargs).mono fun _ _ _ => .made
  · next a hmap =>
    match args, hmap with
    | [x], rfl =>
      cases hs
      exact (yields_negate ⟨hargs x List.mem_cons_self, rfl⟩).onBackend.mono fun _ _ _ => .made
  · next a hmap =>
    match args, hmap with
    | [x], rfl => exact (yields_run (.not x) hs hargs).mono fun _ _ _ => .made
  · next test a b c d hmap =>
    match args, hmap with
    | [x, y, z, w], rfl =>
      exact (yields_run (.condition test x y z w) hs hargs).mono fun _ _ _ => .made
  · split at hs
    · next hlength =>
      cases hs
      have hlength : 2 ≤ args.length ∧ args.length ≤ 4 := by simpa using hlength
      obtain ⟨v, hv⟩ := Value.exists_ofItems? hlength
      have hitems := Value.items?_ofItems? hv
      rw [Primitive.invoke, Value.ofItems, hv]
      exact .pure
        (.sequence hitems ⟨Value.over_of_ofItems? hv hargs, Value.signal_of_items? hitems⟩)
    · cases hs
  · next f =>
    split at hs
    · next hf =>
      cases hs
      have harity : f.arity.accepts args.length = true := by simpa using hf.2
      by_cases hvalue : f = .value
      · subst hvalue
        obtain ⟨a, rfl⟩ := List.length_eq_one_iff.1 (of_decide_eq_true harity)
        exact .pure (.operand List.mem_cons_self ⟨hargs a List.mem_cons_self, rfl⟩)
      · exact (yields_invokeCall f hf.1 hvalue harity hargs).mono fun _ _ _ => .made
    · cases hs
  · cases hs

end Builder.Interpretation

end RigExpr
