import RigExpr.Proofs.Graph.Readings

/-!
# Shared constants

A literal becomes a constant, and there is one constant for each value: a builder looks for the
text of a value before it makes a node, and takes note of the node that it makes. It does not
forget any, so all constants that there are can be found (`Builder.SharesConstants`), in every
builder that a host can come to, also in the middle of a compilation (`Builder.Reached`).

* `Builder.constants_shared`: no two constants have one value, and a literal becomes a plug of the
  constant with its value, for which a node is added if there is none.
-/

namespace RigExpr

/-- The signal of a literal that becomes a constant: of a number, of a truth value, of a rotate
    order by its index, and of a sequence of numbers. -/
def Value.constant? : Value Plug → Option Signal
  | scalar x => some (.float x)
  | bool b => some (.bool b)
  | order o => some (.float (Number.ofIndex o.index))
  | pair (scalar x) (scalar y) => some (.vector [x, y])
  | triple (scalar x) (scalar y) (scalar z) => some (.vector [x, y, z])
  | quad (scalar x) (scalar y) (scalar z) (scalar w) => some (.vector [x, y, z, w])
  | _ => none

/-- The values of the constants of a graph. -/
def Graph.constants (g : Graph) : List (Option Signal) :=
  (g.nodes.filter fun n => n.kind = .constant).map fun n => n.params.value

theorem Graph.mem_constants {g : Graph} {value : Option Signal} :
    value ∈ g.constants ↔ ∃ n ∈ g.nodes, n.kind = .constant ∧ n.params.value = value := by
  simp [constants, and_assoc]

namespace Builder

variable {b b' : Builder}

/-! ## Ids -/

/-- The ids of nodes have numbers that were given out, and no two are the same. -/
structure HasIds (b : Builder) : Prop where
  made : ∀ n ∈ b.graph.nodes, ∃ k ≤ b.made, n.id = nodeId n.kind k
  nodup : b.graph.nodeIds.Nodup

namespace HasIds

theorem push (h : b.HasIds) (kind : Kind) (params : Params) (inputs : List (String × Plug)) :
    (b.push kind params inputs).2.HasIds where
  made n hn := by
    rcases List.mem_append.1 hn with hn | hn
    · obtain ⟨k, hk, hid⟩ := h.made n hn
      exact ⟨k, Nat.le_succ_of_le hk, hid⟩
    · obtain rfl := List.mem_singleton.1 hn
      exact ⟨b.made + 1, Nat.le_refl _, rfl⟩
  nodup := by
    have hids : (b.push kind params inputs).2.graph.nodeIds =
        b.graph.nodeIds ++ [nodeId kind (b.made + 1)] := by
      simp [Graph.nodeIds, Builder.push, nodeId]
    have hnew : nodeId kind (b.made + 1) ∉ b.graph.nodeIds := by
      intro hmem
      obtain ⟨n, hn, hid⟩ := List.mem_map.1 hmem
      obtain ⟨k, hk, hmade⟩ := h.made n hn
      have := nodeId_injective (hmade.symm.trans hid)
      omega
    rw [hids]
    exact List.nodup_append.2 ⟨h.nodup, List.nodup_singleton _, fun id hid id' hid' heq =>
      hnew (List.mem_singleton.1 hid' ▸ heq ▸ hid)⟩

/-- The first node with the id of a node is the node itself. -/
theorem node?_eq (h : b.HasIds) {n : Node} (hn : n ∈ b.graph.nodes) :
    b.graph.node? n.id = some n := by
  obtain ⟨m, hm⟩ : ∃ m, b.graph.node? n.id = some m :=
    Option.isSome_iff_exists.1 (List.find?_isSome.2 ⟨n, hn, by simp⟩)
  have hid : m.id = n.id := by simpa using List.find?_some hm
  rw [hm, Engine.eq_of_id_eq h.nodup (List.mem_of_find?_eq_some hm) hn hid]

end HasIds

/-! ## Sharing -/

/-- The node of a constant that is added now. -/
def nextConstant (b : Builder) (s : Signal) : Node where
  id := nodeId .constant (b.made + 1)
  kind := .constant
  params := { value := some s }

/-- The builder with one more constant, of which note is taken. -/
def withConstant (b : Builder) (s : Signal) : Builder :=
  { (b.push .constant { value := some s } []).2 with
    constants := b.constants.insert s.text { node := (b.nextConstant s).id } }

theorem runOn_constant_of_none {s : Signal} (h : b.constants.get? s.text = none) (log : List Line) :
    ∃ log', (constant s).runOn ⟨b, log⟩ =
      (.ok { node := (b.nextConstant s).id }, ⟨b.withConstant s, log'⟩) := by
  simp only [constant, Action.runOn_bind, Action.runOn_state, h]
  exact ⟨_, rfl⟩

/-- A builder that finds all its constants, and has each of them once. -/
structure SharesConstants (b : Builder) : Prop where
  ids : b.HasIds
  found : b.FindsConstants
  /-- Note was taken of all constants. -/
  noted : ∀ value ∈ b.graph.constants, ∃ s, value = some s ∧ b.constants.get? s.text ≠ none
  nodup : b.graph.constants.Nodup

namespace SharesConstants

protected theorem new : SharesConstants {} where
  ids := ⟨fun _ hn => absurd hn List.not_mem_nil, List.nodup_nil⟩
  found _ _ hp := by cases hp
  noted _ hvalue := absurd hvalue List.not_mem_nil
  nodup := List.nodup_nil

/-- What is connected does not matter, nor what is kept besides nodes and constants. -/
theorem of_map (h : b.SharesConstants) {f : Node → Node}
    (hf : ∀ n, (f n).id = n.id ∧ (f n).kind = n.kind ∧ (f n).params = n.params)
    (hnodes : b'.graph.nodes = b.graph.nodes.map f) (hmade : b'.made = b.made)
    (hconstants : b'.constants = b.constants) : b'.SharesConstants := by
  have hvalues : b'.graph.constants = b.graph.constants := by
    simp [Graph.constants, hnodes, List.filter_map, hf, Function.comp_def]
  refine ⟨⟨fun n hn => ?_, ?_⟩, h.found.extend hconstants fun n hn => ?_, ?_, hvalues ▸ h.nodup⟩
  · obtain ⟨m, hm, rfl⟩ := List.mem_map.1 (hnodes ▸ hn)
    rw [hmade, (hf m).1, (hf m).2.1]
    exact h.ids.made m hm
  · have hids : b'.graph.nodeIds = b.graph.nodeIds := by simp [Graph.nodeIds, hnodes, hf]
    exact hids ▸ h.ids.nodup
  · exact ⟨f n, hnodes ▸ List.mem_map_of_mem hn, hf n⟩
  · rw [hvalues, hconstants]
    exact h.noted

/-- A node comes in that is no constant. -/
theorem push (h : b.SharesConstants) {kind : Kind} (hkind : kind ≠ .constant) (params : Params)
    (inputs : List (String × Plug)) : (b.push kind params inputs).2.SharesConstants := by
  have hvalues : (b.push kind params inputs).2.graph.constants = b.graph.constants := by
    simp [Graph.constants, Builder.push, hkind]
  exact ⟨h.ids.push kind params inputs, h.found.push kind params inputs, hvalues ▸ h.noted,
    hvalues ▸ h.nodup⟩

/-- A value is that of a constant just if note was taken of its text. -/
theorem get?_eq_none_iff (h : b.SharesConstants) {s : Signal} :
    b.constants.get? s.text = none ↔ some s ∉ b.graph.constants := by
  constructor
  · intro hnone hmem
    obtain ⟨t, ht, hnoted⟩ := h.noted _ hmem
    cases ht
    exact hnoted hnone
  · intro hmem
    rw [Option.eq_none_iff_forall_ne_some]
    intro p hp
    obtain ⟨t, htext, n, hn, hkind, hvalue, -⟩ := h.found _ p hp
    obtain rfl := Signal.text_injective htext
    exact hmem (Graph.mem_constants.2 ⟨n, hn, hkind, hvalue⟩)

/-- A constant comes in with a value that no other has. -/
theorem withConstant (h : b.SharesConstants) {s : Signal} (hs : b.constants.get? s.text = none) :
    (b.withConstant s).SharesConstants := by
  have hids := h.ids.push .constant { value := some s } []
  have hvalues : (b.withConstant s).graph.constants = b.graph.constants ++ [some s] := by
    simp [Graph.constants, Builder.withConstant, Builder.push]
  refine ⟨⟨hids.made, hids.nodup⟩, h.found.note s, fun value hvalue => ?_, ?_⟩
  · rcases List.mem_append.1 (hvalues ▸ hvalue) with hvalue | hvalue
    · obtain ⟨t, rfl, ht⟩ := h.noted value hvalue
      refine ⟨t, rfl, ?_⟩
      rw [Builder.withConstant, Table.get?_insert]
      split
      · exact Option.some_ne_none _
      · exact ht
    · refine ⟨s, List.mem_singleton.1 hvalue, ?_⟩
      rw [Builder.withConstant, Table.get?_insert_self]
      exact Option.some_ne_none _
  · have hnew := h.get?_eq_none_iff.1 hs
    have hnodup : (b.graph.constants ++ [some s]).Nodup :=
      List.nodup_append.2 ⟨h.nodup, List.nodup_singleton _, fun value hvalue value' hvalue' heq =>
        hnew (List.mem_singleton.1 hvalue' ▸ heq ▸ hvalue)⟩
    exact hvalues ▸ hnodup

/-- A constant is found, or made if there is none with its value. -/
theorem runOn_constant (h : b.SharesConstants) (s : Signal) (log : List Line) :
    ∃ (n : Node) (t : Logged Builder) (new : List Node),
      (constant s).runOn ⟨b, log⟩ = (.ok { node := n.id }, t) ∧ t.state.SharesConstants ∧
      t.state.graph.nodes = b.graph.nodes ++ new ∧ new.length ≤ 1 ∧
      (new = [] ↔ some s ∈ b.graph.constants) ∧ t.state.graph.node? n.id = some n ∧
      n.kind = .constant ∧ n.params.value = some s := by
  cases hget : b.constants.get? s.text with
  | some p =>
    obtain ⟨s', htext, n, hn, hkind, hvalue, rfl⟩ := h.found _ p hget
    obtain rfl := Signal.text_injective htext
    refine ⟨n, ⟨b, log⟩, [], ?_, h, (List.append_nil _).symm, Nat.zero_le 1, ?_,
      h.ids.node?_eq hn, hkind, hvalue⟩
    · simp [constant, Action.runOn_bind, hget]
    · exact iff_of_true rfl (Graph.mem_constants.2 ⟨n, hn, hkind, hvalue⟩)
  | none =>
    obtain ⟨log', hrun⟩ := runOn_constant_of_none hget log
    have hshares := h.withConstant hget
    exact ⟨b.nextConstant s, _, [b.nextConstant s], hrun, hshares, rfl, Nat.le_refl 1,
      iff_of_false (List.cons_ne_nil _ _) (h.get?_eq_none_iff.1 hget),
      hshares.ids.node?_eq (List.mem_append_right _ List.mem_cons_self), rfl, rfl⟩

/-- Whatever operations ask for, whether they lack operands or not, constants are shared. -/
theorem construction (full : Prop) : Construction full (fun _ => True)
    fun {α} (a : Build α) => (Upkeep.preserving SharesConstants).Grows a where
  pure := .pure
  throw := .throw
  state _ h := h
  bind ha hf := .bind ha hf
  addNode inputs hkind _ _ _ h := h.push hkind.2.2 _ inputs
  constant s t h := by
    obtain ⟨n, t', new, hrun, hshares, -⟩ := h.runOn_constant s t.log
    rw [hrun]
    exact hshares

theorem maintained : Maintains (fun _ => True) (.preserving SharesConstants) where
  construction := construction True
  host kind params hkind _ _ h := by
    refine h.push ?_ params []
    rcases hkind with rfl | ⟨rfl, -⟩ <;> decide
  connect b id p h := by
    rw [connect_eq]
    exact h.of_map (fun n => by simp) rfl rfl rfl
  congr b b' hgraph hmade hconstants h :=
    h.of_map (f := id) (fun _ => ⟨rfl, rfl, rfl⟩) (by simp [hgraph]) hmade hconstants
  written _ _ := trivial

end SharesConstants

/-! ## Builders that a host can come to -/

/-- Requests have led to this builder, and what compilations ask for, in any order and whether
    it succeeds or fails. -/
inductive Reached : Builder → Prop
  | new : Reached {}
  | request {c : Logged (Compiler Builder Plug)} (h : Reached c.state.evaluation.backend)
    (r : Request) : Reached (r.action.runOn c).2.state.evaluation.backend
  | perform {b : Logged Builder} (h : Reached b.state) (op : Operation Plug) :
    Reached ((perform op).runOn b).2.state
  | drive {b : Logged Builder} (h : Reached b.state) (source destination : Value Plug) :
    Reached ((drive source destination).runOn b).2.state
  | conclude {b : Logged Builder} (h : Reached b.state) (v : Value Plug) :
    Reached ((conclude v).runOn b).2.state
  | materialize {b : Logged Builder} (h : Reached b.state) (v : Value Plug) :
    Reached ((materialize v).runOn b).2.state

/-- A request leads on from a builder that a host can come to. -/
theorem Reached.session {s : Session} (h : s.builder.Reached) (r : Request) :
    (s.perform r).builder.Reached := by
  have hstep := Reached.request h r
  unfold Session.perform
  rcases hrun : r.action.runOn s.compiler with ⟨e | values, compiler⟩ <;> rw [hrun] at hstep <;>
    exact hstep

theorem Reached.sharesConstants (h : b.Reached) : b.SharesConstants := by
  induction h with
  | new => exact .new
  | request h r ih =>
    exact Request.grows_action SharesConstants.maintained r.accesses_all _ ih
  | perform h op ih =>
    exact (SharesConstants.construction False).perform (fun h => absurd h id) op.accesses_all _ ih
  | drive h source destination ih =>
    exact SharesConstants.maintained.drive source destination _ ih
  | conclude h v ih => exact SharesConstants.maintained.upholds.conclude v _ ih
  | materialize h v ih => exact (SharesConstants.construction True).materialize v _ ih

theorem materialize_of_constant? {v : Value Plug} {s : Signal} (h : v.constant? = some s) :
    materialize v = constant s := by
  fun_cases Value.constant? v with
  | case7 => simp [Value.constant?] at h
  | _ =>
    cases h
    rfl

/-- In every builder that a host can come to, all constants have values, and no two of them the
    same. A literal becomes the plug of the constant with its value. One node is added for it if
    there is none, and nothing happens to other nodes. -/
theorem constants_shared (h : b.Reached) :
    none ∉ b.graph.constants ∧ b.graph.constants.Nodup ∧
      ∀ (v : Value Plug) (s : Signal), v.constant? = some s → ∀ log,
        ∃ (n : Node) (t : Logged Builder) (new : List Node),
        (materialize v).runOn ⟨b, log⟩ = (.ok { node := n.id, outlet := "out" }, t) ∧
        t.state.graph.nodes = b.graph.nodes ++ new ∧ new.length ≤ 1 ∧
        (new = [] ↔ some s ∈ b.graph.constants) ∧ t.state.graph.node? n.id = some n ∧
        n.kind = .constant ∧ n.params.value = some s := by
  have hshares := h.sharesConstants
  refine ⟨fun hmem => ?_, hshares.nodup, fun v s hv log => ?_⟩
  · obtain ⟨s, hs, -⟩ := hshares.noted none hmem
    cases hs
  · obtain ⟨n, t, new, hrun, -, hnode⟩ := hshares.runOn_constant s log
    rw [materialize_of_constant? hv]
    exact ⟨n, t, new, hrun, hnode⟩

/-- Two compilations use the number 2, and a rotate order goes by the same constant. -/
theorem constants_shared_order :
    let host : List (String × Value Plug) :=
      [("a", .handle { node := "input_1" }), ("o", .handle { node := "output_2" })]
    let s := (((Session.new {}).perform (.bindings ["a"] ["o"])).perform
      (.emit "o = a * 2 + [1, 2, 3]" host)).perform (.emit "o = 2 - a" host)
    s.builder.graph.constants = [some (.float 2), some (.vector [1, 2, 3])] ∧
      ∃ (n : Node) (t : Logged Builder), (materialize (.order .zxy)).runOn ⟨s.builder, []⟩ =
        (.ok { node := n.id, outlet := "out" }, t) ∧
        t.state.graph.nodes = s.builder.graph.nodes ∧ n.params.value = some (.float 2) := by
  intro host s
  have hconstants :
      s.builder.graph.constants = [some (.float 2), some (.vector [1, 2, 3])] := by
    decide +kernel
  have hnew : (Session.new {}).builder.Reached := .new
  have hreached : s.builder.Reached := ((hnew.session _).session _).session _
  have hindex : (Value.order .zxy).constant? = some (.float 2) := by decide +kernel
  obtain ⟨n, t, new, hrun, hnodes, -, hshared, -, -, hvalue⟩ :=
    (constants_shared hreached).2.2 (.order .zxy) (.float 2) hindex []
  have hempty : new = [] := hshared.2 (hconstants ▸ List.mem_cons_self)
  rw [hempty, List.append_nil] at hnodes
  exact ⟨hconstants, n, t, hrun, hnodes, hvalue⟩

end Builder

end RigExpr
