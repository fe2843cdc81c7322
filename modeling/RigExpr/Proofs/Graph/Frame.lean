import RigExpr.Proofs.Compiler.Emission
import RigExpr.Proofs.Evaluation.Growth
import RigExpr.Proofs.Graph.Construction
import RigExpr.Proofs.Graph.Session

/-!
# What an emission leaves as it is

An emission into a graph may fail at each of its operations, when it has added nodes already. These
nodes stay, but they come after those that were there, and there is no output towards the host
among them (`Builder.Appends`). All that an expression does to the graph is of this kind. So
nothing is connected anew and no value is kept before the very end:

* `Builder.drive_cases`: an output is connected when all its source is there,
* `Builder.Appends.connect`: which changes that one node, and it was there before the emission,
* `Session.frame_of_emit`: so an emission that fails changes no node and not the result.
-/

namespace RigExpr

namespace Builder

variable {b b' : Builder}

/-- A node that came after so many, and is none of the host. -/
structure IsLater (made : Nat) (n : Node) : Prop where
  inner : n.kind.IsInner
  number : ∃ k, made < k ∧ n.id = nodeId n.kind k

/-- Nodes were added after those that are there, and nothing else changed about the graph, its
    outputs towards the host and the result. -/
structure Appends (b b' : Builder) : Prop where
  made : b.made ≤ b'.made
  result : b'.result = b.result
  outputs : ∀ id, b'.kinds.get? id = some .output → b.kinds.get? id = some .output
  nodes : ∃ new, b'.graph.nodes = b.graph.nodes ++ new ∧ ∀ n ∈ new, IsLater b.made n

namespace Appends

/-- What is kept besides does not matter. -/
theorem of_eq (hmade : b'.made = b.made) (hresult : b'.result = b.result)
    (hkinds : b'.kinds = b.kinds) (hgraph : b'.graph = b.graph) : b.Appends b' where
  made := Nat.le_of_eq hmade.symm
  result := hresult
  outputs _ hid := hkinds ▸ hid
  nodes := ⟨[], by rw [hgraph, List.append_nil], fun _ hn => absurd hn List.not_mem_nil⟩

theorem refl (b : Builder) : b.Appends b := of_eq rfl rfl rfl rfl

theorem trans {b'' : Builder} (h : b.Appends b') (h' : b'.Appends b'') : b.Appends b'' where
  made := Nat.le_trans h.made h'.made
  result := h'.result.trans h.result
  outputs id hid := h.outputs id (h'.outputs id hid)
  nodes := by
    obtain ⟨new, hnodes, hnew⟩ := h.nodes
    obtain ⟨new', hnodes', hnew'⟩ := h'.nodes
    refine ⟨new ++ new', by rw [hnodes', hnodes, List.append_assoc], ?_⟩
    refine List.forall_mem_append.2 ⟨hnew, fun n hn => ?_⟩
    obtain ⟨hinner, k, hk, hid⟩ := hnew' n hn
    exact ⟨hinner, k, Nat.lt_of_le_of_lt h.made hk, hid⟩

theorem push (b : Builder) {kind : Kind} (hkind : kind.IsInner) (params : Params)
    (inputs : List (String × Plug)) : b.Appends (b.push kind params inputs).2 where
  made := Nat.le_succ b.made
  result := rfl
  outputs id hid := by
    rw [Builder.push, Table.get?_insert] at hid
    split at hid
    · exact absurd (Option.some.inj hid) hkind.2
    · exact hid
  nodes := ⟨_, rfl, List.forall_mem_singleton.2 ⟨hkind, b.made + 1, Nat.lt_succ_self _, rfl⟩⟩

end Appends

/-- A node that was added is no node that was there. -/
theorem IsLater.notMem {strict : Bool} (hb : b.Wired strict) {n : Node}
    (hn : IsLater b.made n) : n.id ∉ b.graph.nodeIds := by
  intro hmem
  obtain ⟨m, hm, hid⟩ := List.mem_map.1 hmem
  obtain ⟨k, hk, hmade⟩ := hb.ids m hm
  obtain ⟨k', hk', hlater⟩ := hn.number
  obtain rfl := nodeId_injective (hmade.symm.trans (hid.trans hlater))
  omega

/-- What was added are nodes that were not there before, and none of the host. -/
theorem Appends.exists_nodes {strict : Bool} (h : b.Appends b') (hb : b.Wired strict) :
    ∃ new : List Node, (∀ n ∈ new, n.kind.IsInner ∧ n.id ∉ b.graph.nodeIds) ∧
      b'.graph.nodes = b.graph.nodes ++ new ∧ b'.result = b.result := by
  obtain ⟨new, hnodes, hnew⟩ := h.nodes
  exact ⟨new, fun n hn => ⟨(hnew n hn).inner, (hnew n hn).notMem hb⟩, hnodes, h.result⟩

/-- Nodes are added, at all times. -/
def appending : Upkeep Builder where
  holds _ := True
  grows := Appends
  refl := .refl
  trans := .trans

theorem appends_addNode {kind : Kind} (hkind : kind.IsInner) (params : Params)
    (inputs : List (String × Plug)) : appending.Grows (addNode kind params inputs) :=
  fun s => .push s.state hkind params inputs

theorem appending_construction :
    Construction False (fun _ => True) fun {α} (a : Build α) => appending.Grows a where
  pure := .pure
  throw := .throw
  state s := .refl s.state
  bind ha hf := .bind ha hf
  addNode inputs hkind _ _ := appends_addNode hkind.isInner _ inputs
  constant _ := by
    refine grows_constant (.bind (appends_addNode ⟨by decide, by decide⟩ _ _) fun p =>
      .bind ?_ fun _ => .pure p)
    exact .change fun _ => .of_eq rfl rfl rfl rfl

/-! ## Outputs -/

/-- An output is driven only if its source can be built. Until then nodes are added, and a plug
    that was no output when the source was about to be built is not driven. -/
theorem drive_cases (source destination : Value Plug) (s : Logged Builder) :
    (∃ e s', (drive source destination).runOn s = (.error e, s') ∧ s.state.Appends s'.state) ∨
    ∃ p q b log, (drive source destination).runOn s = (.ok (), ⟨b.connect p.node q, log⟩) ∧
      destination = .handle p ∧ s.state.kind? p = some .output ∧ s.state.Appends b := by
  cases destination with
  | handle p =>
    by_cases hkind : s.state.kind? p = some .output
    · have hgrows := appending_construction.materialize source s
      rcases hsource : (materialize source).runOn s with ⟨e | q, t⟩
      · rw [hsource] at hgrows
        exact .inl ⟨e, t, by simp [drive, Action.runOn_bind, hkind, hsource], hgrows⟩
      · rw [hsource] at hgrows
        cases hnode : t.state.graph.node? p.node with
        | none =>
          exact .inl ⟨.unknownNode p, t,
            by simp [drive, Action.runOn_bind, hkind, hsource, hnode], hgrows⟩
        | some n =>
          obtain ⟨log, hrun⟩ : ∃ log, (drive source (.handle p)).runOn s =
              (.ok (), ⟨t.state.connect p.node q, log⟩) := by
            by_cases hdriven : n.inputs.contains "in" = true <;>
              simp [drive, Action.runOn_bind, hkind, hsource, hnode, hdriven]
          exact .inr ⟨p, q, t.state, log, hrun, rfl, hkind, hgrows⟩
    · exact .inl ⟨.notAnOutput p, s, by simp [drive, Action.runOn_bind, hkind], .refl s.state⟩
  | _ => exact .inl ⟨_, s, rfl, .refl s.state⟩

theorem map_connected_of_ne {nodes : List Node} {id : String} (q : Plug)
    (h : ∀ n ∈ nodes, n.id ≠ id) : nodes.map (Node.connected id q) = nodes := by
  rw [List.map_congr_left fun n hn => Node.connected_of_ne (h n hn)]
  exact List.map_id' nodes

/-- To connect an output after nodes were added is to change one of the nodes that were there
    before them. -/
theorem Appends.connect {strict : Bool} (h : b.Appends b') (hb : b.Wired strict) {id : String}
    (hid : b.kinds.get? id = some .output) (q : Plug) :
    ∃ before x after new, b.graph.nodes = before ++ x :: after ∧ x.id = id ∧ x.kind = .output ∧
      (∀ n ∈ new, n.kind.IsInner ∧ n.id ∉ b.graph.nodeIds) ∧
      (b'.connect id q).graph.nodes =
        before ++ { x with inputs := x.inputs.insert "in" q } :: (after ++ new) := by
  obtain ⟨x, hx, rfl, hkind⟩ := (hb.kinds id .output).1 hid
  obtain ⟨before, after, hold⟩ := List.append_of_mem hx
  obtain ⟨new, hnew, hnodes, -⟩ := h.exists_nodes hb
  refine ⟨before, x, after, new, hold, rfl, hkind, hnew, ?_⟩
  -- no other node has this id, be it old or new
  have hnodup : (before.map (·.id) ++ x.id :: after.map (·.id)).Nodup := by
    have hids := hb.nodup
    rwa [Graph.nodeIds, hold, List.map_append, List.map_cons] at hids
  have hbefore : ∀ n ∈ before, n.id ≠ x.id := fun n hn =>
    (List.nodup_append.1 hnodup).2.2 _ (List.mem_map_of_mem hn) _ List.mem_cons_self
  have hafter : ∀ n ∈ after, n.id ≠ x.id := fun n hn heq =>
    (List.nodup_cons.1 (List.nodup_append.1 hnodup).2.1).1 (heq ▸ List.mem_map_of_mem hn)
  have hlater : ∀ n ∈ new, n.id ≠ x.id := fun n hn heq =>
    (hnew n hn).2 (heq ▸ List.mem_map_of_mem hx)
  rw [connect_eq]
  simp only [hnodes, hold, List.map_append, List.map_cons, map_connected_of_ne q hbefore,
    map_connected_of_ne q hafter, map_connected_of_ne q hlater, Node.connected, if_true,
    List.append_assoc, List.cons_append]

end Builder

/-! ## Emissions -/

/-- An expression adds nodes. -/
theorem Expr.appends (e : Expr) (rest : List Token) {s s' : Logged (Evaluation Builder Plug)}
    {outcome : Except CompileError (Slot Plug)}
    (h : (e.evaluate (.ofMode .emit) rest).runOn s = (outcome, s')) :
    s.state.backend.Appends s'.state.backend := by
  have hgrows := Evaluation.grows_expression (k := Builder.appending)
    (fun op => Builder.appending_construction.perform False.elim op.accesses_all) .emit e rest s
  rwa [h] at hgrows

namespace Compiler

variable {c : Compiler Builder Plug} {source name : String} {e : Expr}

/-- The emission of an expression adds nodes, and its value is kept if it has one. -/
theorem emit_expression_frame (h : Statement.parse c.config.maxDepth source = .ok ⟨none, e⟩)
    (names : List (String × Value Plug)) (log : List Line) :
    (∃ err s, (emit source names).runOn ⟨c, log⟩ = (.error err, s) ∧
      c.evaluation.backend.Appends s.state.evaluation.backend) ∨
    ∃ v b s, (emit source names).runOn ⟨c, log⟩ = (.ok (some v), s) ∧
      c.evaluation.backend.Appends b ∧
      s.state.evaluation.backend = { b with result := some v } := by
  obtain ⟨log', ⟨err, s, hrun, hemit⟩ | ⟨v, s, hrun, hemit⟩⟩ := emit_expression_cases h names log
  · exact .inl ⟨err, _, hemit, e.folded.appends [] hrun⟩
  · exact .inr ⟨v, s.state.backend, _, hemit, e.folded.appends [] hrun, rfl⟩

/-- The emission of an assignment adds nodes, and then it connects the destination unless it
    fails. -/
theorem emit_assignment_frame
    (h : Statement.parse c.config.maxDepth source = .ok ⟨some name, e⟩)
    (names : List (String × Value Plug)) (log : List Line) :
    (∃ err s, (emit source names).runOn ⟨c, log⟩ = (.error err, s) ∧
      c.evaluation.backend.Appends s.state.evaluation.backend) ∨
    ∃ p q b s, (emit source names).runOn ⟨c, log⟩ = (.ok none, s) ∧
      (Bindings.empty.register names).values.get? name = some (.handle p) ∧
      c.evaluation.backend.kinds.get? p.node = some .output ∧ c.evaluation.backend.Appends b ∧
      s.state.evaluation.backend = b.connect p.node q := by
  cases hname : (Bindings.empty.register names).values.get? name with
  | none =>
    obtain ⟨s, hemit, hbackend⟩ := exists_runOn_emit_of_unbound h names hname log
    exact .inl ⟨_, s, hemit, hbackend ▸ .refl _⟩
  | some destination =>
    obtain ⟨log', ⟨err, s, hrun, hemit⟩ | ⟨v, s, log'', hrun, hemit⟩⟩ :=
      emit_assignment_cases h names hname log
    · exact .inl ⟨err, _, hemit, e.folded.appends [] hrun⟩
    · have hsource : c.evaluation.backend.Appends s.state.backend := e.folded.appends [] hrun
      rcases Builder.drive_cases v destination ⟨s.state.backend, log''⟩ with
        ⟨err, t, hdrive, hgrows⟩ | ⟨p, q, b, log₂, hdrive, rfl, hkind, hgrows⟩
      · simp only [show Backend.drive v destination = Builder.drive v destination from rfl, hdrive]
          at hemit
        exact .inl ⟨_, _, hemit, hsource.trans hgrows⟩
      · simp only [show Backend.drive v (.handle p) = Builder.drive v (.handle p) from rfl, hdrive]
          at hemit
        exact .inr ⟨p, q, b, _, hemit, rfl, hsource.outputs _ hkind, hsource.trans hgrows, rfl⟩

end Compiler

namespace Session

variable {past : List (Session × Request)} {s : Session}

/-- The frame of an emission: whatever the source is and the names are bound to, the nodes that
    were there stay where they are and as they are, and new ones come after them, none of them
    for the host. The one exception is an assignment that succeeds. It connects the output that
    it drives, which was there, and changes nothing else about the nodes that were there. Only
    an expression that succeeds changes the result. So if the emission fails, every output
    towards the host is driven by what has driven it before, and the result is the old one. -/
theorem frame_of_emit (h : Trace past s) (source : String) (names : List (String × Value Plug)) :
    let b := s.builder
    let emitted := (Compiler.emit source names).runOn s.compiler
    let b' := emitted.2.state.evaluation.backend
    ∃ new : List Node, (∀ n ∈ new, n.kind.IsInner ∧ n.id ∉ b.graph.nodeIds) ∧
      match emitted.1 with
      | .error _ => b'.graph.nodes = b.graph.nodes ++ new ∧ b'.result = b.result
      | .ok (some v) => b'.graph.nodes = b.graph.nodes ++ new ∧ b'.result = some v
      | .ok none => ∃ name e p,
        Statement.parse s.compiler.state.config.maxDepth source = .ok ⟨some name, e⟩ ∧
        (Bindings.empty.register names).values.get? name = some (.handle p) ∧
        ∃ before x after q, b.graph.nodes = before ++ x :: after ∧
          x.id = p.node ∧ x.kind = .output ∧
          b'.graph.nodes =
            before ++ { x with inputs := x.inputs.insert "in" q } :: (after ++ new) ∧
          b'.result = b.result := by
  have hkept : s.Kept false := h.kept fun hstrict => absurd hstrict Bool.false_ne_true
  have hwired := hkept.sound.toWired
  dsimp only
  cases hparse : Statement.parse s.compiler.state.config.maxDepth source with
  | error err =>
    obtain ⟨log, hrun⟩ := Compiler.exists_runOn_emit_of_error hparse names s.compiler.log
    rw [hrun]
    exact (Builder.Appends.refl s.builder).exists_nodes hwired
  | ok statement =>
    obtain ⟨destination, e⟩ := statement
    cases destination with
    | none =>
      rcases Compiler.emit_expression_frame hparse names s.compiler.log with
        ⟨err, t, hrun, hgrows⟩ | ⟨v, b, t, hrun, hgrows, hbackend⟩
      · rw [hrun]
        exact hgrows.exists_nodes hwired
      · rw [hrun]
        obtain ⟨new, hnew, hnodes, -⟩ := hgrows.exists_nodes hwired
        exact ⟨new, hnew, by rw [hbackend]; exact hnodes, by rw [hbackend]⟩
    | some name =>
      rcases Compiler.emit_assignment_frame hparse names s.compiler.log with
        ⟨err, t, hrun, hgrows⟩ | ⟨p, q, b, t, hrun, hname, hkind, hgrows, hbackend⟩
      · rw [hrun]
        exact hgrows.exists_nodes hwired
      · rw [hrun]
        obtain ⟨before, x, after, new, hold, hid, hkind, hnew, hnodes⟩ :=
          hgrows.connect hwired hkind q
        refine ⟨new, hnew, name, e, p, rfl, hname, before, x, after, q, hold, hid, hkind, ?_, ?_⟩
        · rw [hbackend]
          exact hnodes
        · rw [hbackend]
          exact hgrows.result

/-- An assignment that fails at the first operand of a sum, when the second one is built already.
    The output is still driven by the input. -/
theorem frame_of_emit_unbound :
    let host : List (String × Value Plug) :=
      [("a", .handle { node := "input_1" }), ("o", .handle { node := "output_2" })]
    let s := ((new {}).perform (.bindings ["a"] ["o"])).perform (.emit "o = a" host)
    let emitted := (Compiler.emit "o = unknown + sin(2 * a)" host).runOn s.compiler
    let b' := emitted.2.state.evaluation.backend
    b'.graph.nodeIds = ["input_1", "output_2", "constant_3", "multiply_4", "sin_5"] ∧
      ∃ err, emitted.1 = .error err ∧
        ∃ new : List Node, (∀ n ∈ new, n.kind.IsInner ∧ n.id ∉ s.builder.graph.nodeIds) ∧
          b'.graph.nodes = s.builder.graph.nodes ++ new ∧ b'.result = s.builder.result := by
  intro host s emitted b'
  have hrun : b'.graph.nodeIds = ["input_1", "output_2", "constant_3", "multiply_4", "sin_5"] ∧
      emitted.1.toBool = false ∧ ∀ e ∈ host, ∀ p ∈ e.2.handles,
        ∃ v ∈ ((new {}).perform (.bindings ["a"] ["o"])).returned, p ∈ v.handles := by
    decide +kernel
  obtain ⟨hids, hfails, hown⟩ := hrun
  have hnew : (Request.bindings ["a"] ["o"]).Own [] := fun _ h => absurd h List.not_mem_nil
  have htrace : Trace _ s := .step (.step (.new {}) hnew) hown
  have hframe := frame_of_emit htrace "o = unknown + sin(2 * a)" host
  cases houtcome : emitted.1 with
  | ok slot =>
    rw [houtcome] at hfails
    cases hfails
  | error err =>
    have houtcome' : ((Compiler.emit "o = unknown + sin(2 * a)" host).runOn s.compiler).1 =
      .error err := houtcome
    simp only [houtcome'] at hframe
    exact ⟨hids, err, rfl, hframe⟩

end Session

end RigExpr
