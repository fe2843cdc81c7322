import RigExpr.Proofs.Graph.Requests

/-!
# Operands of what is built

The keys of operands are words that the builder writes and the evaluation of a node reads. They
agree: in a graph that is built every node has all operands that it reads, but for an output
towards the host that nothing drives (`Session.operands_connected`). So it never matters that a
node reads zero for an operand that is missing.

Nodes have their operands from the moment they are added (`Builder.wiring_construction`), as
operations do not lack any, and nothing is ever disconnected (`Builder.wiring_maintained`).
-/

namespace RigExpr

/-- To connect a node takes none of its operands away. -/
theorem Node.IsWired.connected {n : Node} (h : n.IsWired) (id : String) (p : Plug) :
    (n.connected id p).IsWired := by
  rw [Node.connected]
  split
  · exact h.extend fun key => Table.mem_keys_insert
  · exact h

namespace Builder

/-- All nodes have the operands that they read, outputs towards the host apart. -/
def IsComplete (b : Builder) : Prop := ∀ n ∈ b.graph.nodes, n.kind ≠ .output → n.IsWired

/-- A builder that stays complete. -/
abbrev wiring : Upkeep Builder := .preserving IsComplete

theorem grows_addNode {kind : Kind} {params : Params} {inputs : List (String × Plug)}
    (h : kind ≠ .output → kind.Wired params (inputs.map (·.1))) :
    wiring.Grows (addNode kind params inputs) := by
  intro s hb n hn hkind
  rcases List.mem_append.1 hn with hn | hn
  · exact hb n hn hkind
  · obtain rfl := List.mem_singleton.1 hn
    exact (h hkind).congr fun key => Table.mem_keys_ofList

theorem wiring_construction :
    Construction True (fun _ => True) fun {α} (a : Build α) => wiring.Grows a where
  pure := .pure
  throw := .throw
  state s := wiring.refl s.state
  bind ha hf := .bind ha hf
  addNode _ _ _ hwired := grows_addNode fun _ => hwired trivial
  constant _ := by
    refine grows_constant (.bind (grows_addNode fun _ => ?_) fun p => ?_)
    · exact .of_operands (by decide) fun _ hkey => hkey
    · exact .bind (.change fun _ h => h) fun _ => .pure p

theorem IsComplete.connect {b : Builder} (h : b.IsComplete) (id : String) (p : Plug) :
    (b.connect id p).IsComplete := by
  rw [connect_eq]
  intro n hn hkind
  obtain ⟨m, hm, rfl⟩ := List.mem_map.1 hn
  rw [Node.kind_connected] at hkind
  exact (h m hm hkind).connected id p

/-- Whatever the builder is asked for, it stays complete. -/
theorem wiring_maintained : Maintains (fun _ => True) wiring where
  construction := wiring_construction
  host kind params hkind _ := by
    refine grows_addNode fun hne => ?_
    obtain rfl := hkind.resolve_right fun h => hne h.1
    exact .of_operands (by decide) fun _ hkey => hkey
  connect _ id p h := h.connect id p
  congr b b' hgraph _ _ h := by
    rw [IsComplete, hgraph]
    exact h
  written _ _ := trivial

end Builder

/-! ## Sessions -/

namespace Session

variable {s : Session} {past : List (Session × Request)}

theorem Trace.isComplete (h : Trace past s) : s.builder.IsComplete :=
  h.preserved Builder.wiring_maintained fun _ hn => absurd hn List.not_mem_nil

/-- After every session, all nodes have the operands that they read, unless it is an output
    towards the host that nothing drives; so none of them reads zero for want of an operand. -/
theorem operands_connected (h : Trace past s) {n : Node} (hn : n ∈ s.builder.graph.nodes)
    (hdriven : n.kind = .output → n.inputs.keys ≠ []) : n.IsWired ∧ n.LacksNothing := by
  have hwired : n.IsWired := by
    by_cases hkind : n.kind = .output
    · -- what drives an output is under the one key that it reads
      rcases (wellFormed_of_trace h).driven n hn hkind with hnone | ⟨p, hentries, -⟩
      · exact absurd (by rw [Table.keys, hnone]; rfl) (hdriven hkind)
      · rw [Node.IsWired, hkind, Table.keys, hentries]
        exact .of_operands (by decide) fun _ hkey => hkey
    · exact h.isComplete n hn hkind
  exact ⟨hwired, hwired.lacksNothing⟩

/-- A choice between a list and a rotation, each with operands of its own. Nothing drives the
    second output. -/
theorem operands_connected_switch :
    let host : List (String × Value Plug) :=
      [("a", .handle { node := "input_1" }), ("o", .handle { node := "output_2" })]
    let s := ((new {}).perform (.bindings ["a"] ["o", "p"])).perform
      (.emit "o = switch(a, [a, 1], euler(a, 0, a, XZY))" host)
    s.builder.graph.nodeIds = ["input_1", "output_2", "output_3", "constant_4", "euler_5",
        "constant_6", "join_7", "switch_8"] ∧
      ∀ n ∈ s.builder.graph.nodes, n.id ≠ "output_3" → n.IsWired ∧ n.LacksNothing := by
  intro host s
  have hrun : s.builder.graph.nodeIds = ["input_1", "output_2", "output_3", "constant_4",
        "euler_5", "constant_6", "join_7", "switch_8"] ∧
      (∀ n ∈ s.builder.graph.nodes, n.id ≠ "output_3" → n.kind = .output → n.inputs.keys ≠ []) ∧
      ∀ e ∈ host, ∀ p ∈ e.2.handles,
        ∃ v ∈ ((new {}).perform (.bindings ["a"] ["o", "p"])).returned, p ∈ v.handles := by
    decide +kernel
  have hnew : (Request.bindings ["a"] ["o", "p"]).Own [] := fun _ h => absurd h List.not_mem_nil
  have htrace : Trace _ s := .step (.step (.new {}) hnew) hrun.2.2
  exact ⟨hrun.1, fun n hn hid => operands_connected htrace hn (hrun.2.1 n hn hid)⟩

end Session

end RigExpr
