import RigExpr.Graph.Engine
import RigExpr.Proofs.Graph.Names
import RigExpr.Proofs.Table

/-!
# Operands of nodes

Which operands a node reads, by its kind. A node does not fail when an operand is missing: it
reads zero. Some operands it asks for instead, and does without them: the order of a rotation,
and numbered operands, of which it takes those that are there.

* `Node.IsWired`: all operands that the node reads are connected,
* `Node.outputs_congr`: there is nothing else that a node reads,
* `Node.IsWired.lacksNothing`: so where a node is wired, nothing is read as zero for being
  missing. Signals under further keys make no difference to it, unless it asks for them.
-/

namespace RigExpr

/-! ## Keys -/

namespace Variadic

theorem key_ne {i : Nat} {word : String} (h : word.toList.take 3 ≠ ['i', 'n', '_']) :
    key i ≠ word := by
  rintro rfl
  exact h (by simp [key, stem, String.toList_append])

theorem mem_numbered {α : Type} {operands : List α} {key' : String} :
    key' ∈ (Builder.numbered operands).map (·.1) ↔ ∃ i < operands.length, key' = key i := by
  simp only [Builder.numbered, List.mem_map, List.mem_mapIdx]
  constructor
  · rintro ⟨e, ⟨i, hi, rfl⟩, rfl⟩
    exact ⟨i, hi, rfl⟩
  · rintro ⟨i, hi, rfl⟩
    exact ⟨_, ⟨i, hi, rfl⟩, rfl⟩

end Variadic

/-! ## What nodes read -/

namespace Kind

/-- Whether a node of this kind takes any number of operands, under numbered keys. -/
def isVariadic : Kind → Bool
  | join | quat | matrix | switch => true
  | _ => false

/-- The keys of the operands that a node of this kind reads if `keys` are connected. One that
    is not connected it reads as zero. -/
def operands (keys : List String) : Kind → List String
  | constant | input | join | quat | matrix => []
  | output | not | cos | sin | acos | asin | atan | noise | dnoise | component | normalize | length
  | rotateOrder | int | bool => ["in"]
  | add | subtract | multiply | divide | power | and | or | xor => ["lhs", "rhs"]
  | condition => ["lhs", "rhs", "then", "else"]
  | clamp => ["in", "min", "max"]
  | lerp | slerp => ["a", "b", "t"]
  | remap => ["in", "in_min", "in_max", "out_min", "out_max"]
  | dot | cross | distance | angle => ["a", "b"]
  | euler => if "in" ∈ keys then ["in"] else [Variadic.key 0, Variadic.key 1, Variadic.key 2]
  | transform => ["translate"]
  | switch => ["selector"]

/-- The keys of the operands that a node of this kind can do without. -/
def optional : Kind → List String
  | euler => ["in", "order"]
  | quat => ["order"]
  | transform => ["rotate", "scale"]
  | _ => []

/-- Whether a node of this kind goes by whether this key is connected. -/
def asksFor (kind : Kind) (key : String) : Bool :=
  kind.optional.contains key || kind.isVariadic && Variadic.isNumbered key

/-- A node of this kind that is connected under these keys has all that it reads. -/
structure Wired (kind : Kind) (params : Params) (keys : List String) : Prop where
  operands : ∀ key ∈ kind.operands keys, key ∈ keys
  /-- The numbered operands go from the first on, without a gap. -/
  numbered : kind.isVariadic = true → ∃ count > 0,
    (∀ i, Variadic.key i ∈ keys ↔ i < count) ∧
      ∀ key ∈ keys, Variadic.isNumbered key = true → ∃ i < count, key = Variadic.key i
  comparison : kind = .condition → params.comparison.isSome = true
  index : kind = .component → params.index.isSome = true

namespace Wired

variable {kind : Kind} {params : Params} {keys keys' : List String}

/-- One more connection, of an operand without a number. -/
theorem extend (h : kind.Wired params keys) (hkeys : ∀ key, key ∈ keys' ↔ key = "in" ∨ key ∈ keys) :
    kind.Wired params keys' where
  operands key hkey := by
    rw [hkeys]
    by_cases heuler : kind = .euler
    · subst heuler
      rw [Kind.operands, if_pos ((hkeys _).2 (.inl rfl)), List.mem_singleton] at hkey
      exact .inl hkey
    · refine .inr (h.operands key ?_)
      cases kind <;> first | exact absurd rfl heuler | exact hkey
  numbered hvariadic := by
    obtain ⟨count, hcount, hiff, honly⟩ := h.numbered hvariadic
    refine ⟨count, hcount, fun i => ?_, fun key hkey hnumbered => ?_⟩
    · rw [hkeys, or_iff_right (Variadic.key_ne (by decide)), hiff]
    · rcases (hkeys key).1 hkey with rfl | hkey
      · exact absurd hnumbered (by decide)
      · exact honly key hkey hnumbered
  comparison := h.comparison
  index := h.index

/-- What matters about keys is which there are. -/
theorem congr (h : kind.Wired params keys) (hkeys : ∀ key, key ∈ keys' ↔ key ∈ keys) :
    kind.Wired params keys' where
  operands key hkey := by
    refine (hkeys key).2 (h.operands key ?_)
    cases kind with
    | euler =>
      rw [Kind.operands] at hkey ⊢
      simpa only [hkeys] using hkey
    | _ => exact hkey
  numbered hvariadic := by
    obtain ⟨count, hcount, hiff, honly⟩ := h.numbered hvariadic
    exact ⟨count, hcount, fun i => (hkeys _).trans (hiff i), fun key hkey =>
      honly key ((hkeys key).1 hkey)⟩
  comparison := h.comparison
  index := h.index

/-- A node of a kind with certain operands, which needs no parameter. -/
theorem of_operands
    (hkind : kind.isVariadic = false ∧ kind ≠ .condition ∧ kind ≠ .component)
    (hoperands : ∀ key ∈ kind.operands keys, key ∈ keys) : kind.Wired params keys where
  operands := hoperands
  numbered h := absurd h (by rw [hkind.1]; exact Bool.false_ne_true)
  comparison h := absurd h hkind.2.1
  index h := absurd h hkind.2.2

/-- A node with numbered operands, and perhaps some others. -/
theorem of_numbered {α : Type} {args : List α} (hargs : args ≠ []) {others : List String}
    (hothers : ∀ key ∈ others, key.toList.take 3 ≠ ['i', 'n', '_'] ∧
      Variadic.isNumbered key = false)
    (hkind : kind ≠ .condition ∧ kind ≠ .component)
    (hoperands : ∀ key ∈ kind.operands ((Builder.numbered args).map (·.1) ++ others),
      key ∈ (Builder.numbered args).map (·.1) ++ others) :
    kind.Wired params ((Builder.numbered args).map (·.1) ++ others) where
  operands := hoperands
  numbered _ := by
    refine ⟨args.length, List.length_pos_iff.2 hargs, fun i => ?_, fun key hkey hnumbered => ?_⟩
    · rw [List.mem_append, Variadic.mem_numbered, or_iff_left]
      · constructor
        · rintro ⟨j, hj, heq⟩
          rwa [Variadic.key_injective heq]
        · exact fun hi => ⟨i, hi, rfl⟩
      · exact fun hmem => Variadic.key_ne (hothers _ hmem).1 rfl
    · rcases List.mem_append.1 hkey with hkey | hkey
      · exact Variadic.mem_numbered.1 hkey
      · rw [(hothers key hkey).2] at hnumbered
        exact absurd hnumbered Bool.false_ne_true
  comparison h := absurd h hkind.1
  index h := absurd h hkind.2

end Wired

end Kind

namespace Inlet

/-- The signals that a node is given, and others under further keys. -/
def filled (i : Inlet) (others : List (String × Signal)) : Inlet :=
  { i with signals := ⟨i.signals.entries ++ others⟩ }

variable {i j : Inlet} {key : String} (h : j.signals.get? key = i.signals.get? key)

include h

theorem get_congr : j.get key = i.get key := by
  rw [get, get, h]

theorem float_congr : j.float key = i.float key := by
  rw [float, float, get_congr h]

theorem components_congr : j.components key = i.components key := by
  rw [components, components, get_congr h]

end Inlet

namespace Node

variable {n : Node} {i j : Inlet}

/-- The node has a connection for each operand that it reads. -/
def IsWired (n : Node) : Prop := n.kind.Wired n.params n.inputs.keys

/-- Nothing that the node reads is missing: whatever it is given, signals under further keys do
    not show in its outputs, unless it asks for them. -/
def LacksNothing (n : Node) : Prop :=
  ∀ (r : Engine) (i : Inlet), r.inlet n = .ok i → ∀ others : List (String × Signal),
    (∀ e ∈ others, n.kind.asksFor e.1 = false) → n.outputs (i.filled others) = n.outputs i

theorem order_congr (h : j.signals.get? "order" = i.signals.get? "order") :
    n.order j = n.order i := by
  rw [order, order, h]

theorem angles_congr
    (hoperands : ∀ key ∈ Kind.euler.operands i.signals.keys,
      j.signals.get? key = i.signals.get? key)
    (hin : j.signals.get? "in" = i.signals.get? "in") : angles j = angles i := by
  rw [angles, angles, hin]
  cases h : i.signals.get? "in" with
  | some s => rfl
  | none =>
    -- then the angles stand under numbered keys
    have hkey : "in" ∉ i.signals.keys := by
      rw [← Table.isSome_get?_iff, h]
      exact Bool.false_ne_true
    simp only [Kind.operands, if_neg hkey, List.forall_mem_cons] at hoperands
    simp only [Inlet.float, Inlet.get, hoperands]

/-- A node reads its operands, those it can do without, and numbered ones if its kind takes
    any. There is nothing else that its outputs depend on. -/
theorem outputs_congr (hstaged : j.staged = i.staged)
    (hoperands : ∀ key ∈ n.kind.operands i.signals.keys, j.signals.get? key = i.signals.get? key)
    (hoptional : ∀ key ∈ n.kind.optional, j.signals.get? key = i.signals.get? key)
    (hnumbered : n.kind.isVariadic = true → j.numbered = i.numbered) :
    n.outputs j = n.outputs i := by
  cases hkind : n.kind with
  | constant => simp only [outputs, hkind]
  | input => simp only [outputs, hkind, hstaged]
  | euler =>
    rw [hkind] at hoperands hoptional
    simp only [Kind.optional, List.forall_mem_cons] at hoptional
    simp only [outputs, hkind, angles_congr hoperands hoptional.1, order_congr hoptional.2.1]
  | transform =>
    rw [hkind] at hoperands hoptional
    simp only [Kind.operands, Kind.optional, List.forall_mem_cons] at hoperands hoptional
    simp only [outputs, hkind, transform, hoperands, hoptional]
  | join | matrix =>
    rw [hkind] at hnumbered
    simp only [outputs, hkind, hnumbered rfl]
  | quat =>
    rw [hkind] at hoptional hnumbered
    have horder := order_congr (n := n) (hoptional "order" List.mem_cons_self)
    simp only [outputs, hkind, horder, hnumbered rfl]
  | switch =>
    rw [hkind] at hoperands hnumbered
    simp only [Kind.operands, List.forall_mem_cons] at hoperands
    simp only [outputs, hkind, Inlet.float, Inlet.get, hoperands, hnumbered rfl]
  | condition =>
    rw [hkind] at hoperands
    simp only [Kind.operands, List.forall_mem_cons] at hoperands
    obtain ⟨hlhs, hrhs, hthen, helse, -⟩ := hoperands
    simp only [outputs, hkind]
    rw [Inlet.float_congr hlhs, Inlet.float_congr hrhs, Inlet.get_congr hthen,
      Inlet.get_congr helse]
  | dot =>
    rw [hkind] at hoperands
    simp only [Kind.operands, List.forall_mem_cons] at hoperands
    simp only [outputs, hkind]
    rw [Inlet.components_congr hoperands.1, Inlet.components_congr hoperands.2.1]
  | _ =>
    rw [hkind] at hoperands
    simp only [Kind.operands, List.forall_mem_cons] at hoperands
    simp only [outputs, hkind, Inlet.float, Inlet.components, Inlet.get, hoperands]

end Node

namespace Engine

variable {r : Engine} {n : Node} {i : Inlet}

/-- What a node is given stands under the keys that it is connected under. -/
theorem keys_of_inlet (h : r.inlet n = .ok i) : i.signals.keys = n.inputs.keys := by
  have hread {entries : List (String × Plug)} {signals : List (String × Signal)}
      (h : r.read entries = .ok signals) : signals.map (·.1) = entries.map (·.1) := by
    induction entries generalizing signals with
    | nil =>
      cases h
      rfl
    | cons e entries ih =>
      obtain ⟨key, p⟩ := e
      rw [read] at h
      split at h
      · cases hrest : r.read entries <;> rw [hrest] at h <;> cases h
        rw [List.map_cons, List.map_cons, ih hrest]
      · cases h
  rw [inlet] at h
  cases hsignals : r.read n.inputs.entries <;> rw [hsignals] at h <;> cases h
  exact hread hsignals

end Engine

/-- A node that is wired reads nothing as zero for being missing. -/
theorem Node.IsWired.lacksNothing {n : Node} (hwired : n.IsWired) : n.LacksNothing := by
  intro r i h others hothers
  have hkeys := Engine.keys_of_inlet h
  refine outputs_congr rfl (fun key hkey => ?_) (fun key hkey => ?_) fun hvariadic => ?_
  · -- an operand is connected
    rw [hkeys] at hkey
    have hmem := hwired.operands key hkey
    rw [← hkeys, ← Table.isSome_get?_iff, Option.isSome_iff_exists] at hmem
    obtain ⟨s, hs⟩ := hmem
    rw [Inlet.filled, Table.get?_append, hs]
    rfl
  · -- what the node asks for is not among the others
    have hnone : Table.find key others = none := by
      refine Table.find_eq_none fun e he heq => ?_
      have hasks := hothers e he
      simp [Kind.asksFor, heq, hkey] at hasks
    rw [Inlet.filled, Table.get?_append, hnone, Option.or_none]
  · have hnone : others.filter (fun e => Variadic.isNumbered e.1) = [] := by
      refine List.filter_eq_nil_iff.2 fun e he hnumbered => ?_
      have hasks := hothers e he
      simp [Kind.asksFor, hvariadic, hnumbered] at hasks
    simp only [Inlet.numbered, Inlet.filled, Variadic.collect, List.filter_append, hnone,
      List.append_nil]

end RigExpr
