import RigExpr.Graph.Builder
import RigExpr.Proofs.Graph.Solution
import RigExpr.Proofs.Table

/-!
# Growth of a graph

The two ways in which a graph under construction changes keep its solution, up to the
signal of the node they are about: a node that nothing reads yet comes in
(`Graph.Solution.append`), and a node that nothing reads is connected anew
(`Graph.Solution.connect`). In both cases the node is a *sink*, and so it closes no cycle
(`wellFounded_of_sink`) and does not show in what other nodes are given.
-/

namespace RigExpr

/-- A relation is well-founded if it is away from some `x` that is below nothing. -/
theorem wellFounded_of_sink {α : Type} {r r' : α → α → Prop} (hr : WellFounded r) {x : α}
    (hsink : ∀ a, ¬r' x a) (h : ∀ a b, r' a b → b ≠ x → r a b) : WellFounded r' := by
  have haway (b : α) : b ≠ x → Acc r' b := by
    induction b using hr.induction with
    | h b ih =>
      intro hb
      refine ⟨b, fun a hab => ih a (h a b hab hb) ?_⟩
      rintro rfl
      exact hsink b hab
  refine ⟨fun b => ⟨b, fun a hab => haway a ?_⟩⟩
  rintro rfl
  exact hsink b hab

namespace Node

/-- The node, connected to `p` if it has this id. -/
def connected (id : String) (p : Plug) (n : Node) : Node :=
  if n.id = id then { n with inputs := n.inputs.insert "in" p } else n

variable {id : String} {p : Plug} {n : Node}

theorem connected_of_ne (h : n.id ≠ id) : n.connected id p = n := if_neg h

@[simp] theorem id_connected : (n.connected id p).id = n.id := by
  rw [connected]
  split <;> rfl

@[simp] theorem kind_connected : (n.connected id p).kind = n.kind := by
  rw [connected]
  split <;> rfl

@[simp] theorem params_connected : (n.connected id p).params = n.params := by
  rw [connected]
  split <;> rfl

theorem mem_values_connected {q : Plug} (h : q ∈ (n.connected id p).inputs.values) :
    q = p ∧ n.id = id ∨ q ∈ n.inputs.values := by
  rw [connected] at h
  split at h
  · next hid => exact (Table.mem_values_insert h).imp_left fun hq => ⟨hq, hid⟩
  · exact .inr h

/-- What a node is given under a key. -/
theorem get?_given (env : String → Option Signal) (value : String → Signal) (key : String) :
    (n.given env value).signals.get? key = (n.inputs.get? key).map fun q : Plug => value q.node :=
  Table.get?_map (fun q : Plug => value q.node) n.inputs.entries key

/-- An output towards the host carries what it is connected to. -/
theorem outputs_connected {env : String → Option Signal} {value : String → Signal}
    (h : n.kind = .output) :
    (n.connected n.id p).outputs ((n.connected n.id p).given env value) =
      .ok (single (value p.node)) := by
  have hget : (n.connected n.id p).inputs.get? "in" = some p := by
    rw [connected, if_pos rfl]
    exact Table.get?_insert_self ..
  simp [outputs, h, Inlet.get, get?_given, hget]

end Node

theorem Builder.connect_eq (b : Builder) (id : String) (p : Plug) :
    b.connect id p = { b with graph := ⟨b.graph.nodes.map (Node.connected id p)⟩ } := rfl

namespace Graph

variable {g : Graph} {env : String → Option Signal} {value value' : String → Signal}

/-- What a node is given depends on the nodes it reads from only. -/
theorem given_congr {n : Node} (h : ∀ p ∈ n.inputs.values, value p.node = value' p.node) :
    n.given env value = n.given env value' := by
  have hentries : n.inputs.entries.map (fun e => (e.1, value e.2.node)) =
      n.inputs.entries.map fun e => (e.1, value' e.2.node) :=
    List.map_congr_left fun e he => by rw [h e.2 (List.mem_map.2 ⟨e, he, rfl⟩)]
  rw [Node.given, Node.given, hentries]

/-- A signal does not show in what a node is given that does not read it. -/
theorem given_update {n : Node} {id : String} {s : Signal}
    (h : ∀ p ∈ n.inputs.values, p.node ≠ id) :
    n.given env (Function.update value id s) = n.given env value :=
  given_congr fun p hp => Function.update_of_ne (h p hp) ..

namespace Solution

variable (hg : g.Solution env value)

include hg

theorem known_of_mem {n : Node} (hn : n ∈ g.nodes) {p : Plug} (hp : p ∈ n.inputs.values) :
    p.node ∈ g.nodeIds :=
  hg.known _ n.id (feeds_iff.2 ⟨n, hn, rfl, p, hp, rfl⟩)

/-- A new node that reads from nodes that are there works out its signal. -/
theorem append {n : Node} {s : Signal} (hfresh : n.id ∉ g.nodeIds)
    (hreads : ∀ p ∈ n.inputs.values, p.node ∈ g.nodeIds ∧ p.outlet = Kind.mainOutlet)
    (houtputs : n.outputs (n.given env value) = .ok (Node.single s))
    (hdistinct : ∀ m ∈ g.nodes, n.kind = .output → m.kind = .output →
      n.params.name ≠ m.params.name) :
    (⟨g.nodes ++ [n]⟩ : Graph).Solution env (Function.update value n.id s) := by
  have hmem {m : Node} (hm : m ∈ g.nodes ++ [n]) : m ∈ g.nodes ∨ m = n := by simpa using hm
  have hreads' {m : Node} (hm : m ∈ g.nodes ++ [n]) {p : Plug} (hp : p ∈ m.inputs.values) :
      p.node ∈ g.nodeIds := by
    rcases hmem hm with hm | rfl
    · exact hg.known_of_mem hm hp
    · exact (hreads p hp).1
  have haway {m : Node} (hm : m ∈ g.nodes ++ [n]) : ∀ p ∈ m.inputs.values, p.node ≠ n.id :=
    fun p hp heq => hfresh (heq ▸ hreads' hm hp)
  have hne {m : Node} (hm : m ∈ g.nodes) : m.id ≠ n.id := fun heq =>
    hfresh (heq ▸ List.mem_map.2 ⟨m, hm, rfl⟩)
  refine ⟨?_, ?_, ?_, ?_, ?_, ?_⟩
  · rw [nodeIds, List.map_append]
    refine List.nodup_append.2 ⟨hg.nodup, by simp, fun a ha b hb heq => hfresh ?_⟩
    obtain rfl : b = n.id := by simpa using hb
    exact heq ▸ ha
  · intro source id hfeeds
    obtain ⟨m, hm, -, p, hp, rfl⟩ := feeds_iff.1 hfeeds
    rw [nodeIds, List.map_append]
    exact List.mem_append_left _ (hreads' hm hp)
  · refine wellFounded_of_sink hg.founded (x := n.id) (fun id hfeeds => ?_)
      fun source id hfeeds hid => ?_
    · obtain ⟨m, hm, -, p, hp, hnode⟩ := feeds_iff.1 hfeeds
      exact haway hm p hp hnode
    · obtain ⟨m, hm, rfl, p, hp, rfl⟩ := feeds_iff.1 hfeeds
      refine feeds_iff.2 ⟨m, (hmem hm).resolve_right ?_, rfl, p, hp, rfl⟩
      rintro rfl
      exact hid rfl
  · intro m hm p hp
    rcases hmem hm with hm | rfl
    · exact hg.outlet m hm p hp
    · exact (hreads p hp).2
  · intro m hm
    rw [given_update (haway hm)]
    rcases hmem hm with hm | rfl
    · rw [hg.outputs m hm, Function.update_of_ne (hne hm)]
    · rw [houtputs, Function.update_self]
  · intro m hm m' hm' hkind hkind' hname
    rcases hmem hm with hold | rfl <;> rcases hmem hm' with hold' | rfl
    · exact hg.distinct m hold m' hold' hkind hkind' hname
    · exact absurd hname.symm (hdistinct m hold hkind' hkind)
    · exact absurd hname (hdistinct m' hold' hkind hkind')
    · rfl

/-- An output towards the host that nothing reads hands on what it is connected to. -/
theorem connect {x : Node} {p : Plug} (hx : x ∈ g.nodes) (hkind : x.kind = .output)
    (hsink : ∀ id, ¬g.Feeds x.id id) (hp : p.node ∈ g.nodeIds) (hne : p.node ≠ x.id)
    (hplug : p.outlet = Kind.mainOutlet) :
    (⟨g.nodes.map (Node.connected x.id p)⟩ : Graph).Solution env
      (Function.update value x.id (value p.node)) := by
  have hids : (⟨g.nodes.map (Node.connected x.id p)⟩ : Graph).nodeIds = g.nodeIds := by
    simp [nodeIds]
  have hreads {n : Node} {q : Plug} (hq : q ∈ (n.connected x.id p).inputs.values) :
      q = p ∨ q ∈ n.inputs.values :=
    (Node.mem_values_connected hq).imp_left And.left
  have haway {n : Node} (hn : n ∈ g.nodes) :
      ∀ q ∈ (n.connected x.id p).inputs.values, q.node ≠ x.id := by
    intro q hq heq
    rcases hreads hq with rfl | hq
    · exact hne heq
    · exact hsink n.id (feeds_iff.2 ⟨n, hn, rfl, q, hq, heq⟩)
  refine ⟨hids ▸ hg.nodup, ?_, ?_, ?_, ?_, ?_⟩
  · intro source id hfeeds
    obtain ⟨m, hm, -, q, hq, rfl⟩ := feeds_iff.1 hfeeds
    obtain ⟨n, hn, rfl⟩ := List.mem_map.1 hm
    rw [hids]
    rcases hreads hq with rfl | hq
    · exact hp
    · exact hg.known_of_mem hn hq
  · refine wellFounded_of_sink hg.founded (x := x.id) (fun id hfeeds => ?_)
      fun source id hfeeds hid => ?_
    · obtain ⟨m, hm, -, q, hq, hnode⟩ := feeds_iff.1 hfeeds
      obtain ⟨n, hn, rfl⟩ := List.mem_map.1 hm
      exact haway hn q hq hnode
    · obtain ⟨m, hm, rfl, q, hq, rfl⟩ := feeds_iff.1 hfeeds
      obtain ⟨n, hn, rfl⟩ := List.mem_map.1 hm
      rw [Node.id_connected] at hid ⊢
      rw [Node.connected_of_ne hid] at hq
      exact feeds_iff.2 ⟨n, hn, rfl, q, hq, rfl⟩
  · intro m hm q hq
    obtain ⟨n, hn, rfl⟩ := List.mem_map.1 hm
    rcases hreads hq with rfl | hq
    · exact hplug
    · exact hg.outlet n hn q hq
  · intro m hm
    obtain ⟨n, hn, rfl⟩ := List.mem_map.1 hm
    rw [given_update (haway hn), Node.id_connected]
    by_cases hid : n.id = x.id
    · -- the node itself, which carries what it reads now
      obtain rfl := Engine.eq_of_id_eq hg.nodup hn hx hid
      rw [Function.update_self, Node.outputs_connected hkind]
    · rw [Function.update_of_ne hid, Node.connected_of_ne hid, hg.outputs n hn]
  · intro m hm m' hm' hout hout' hname
    obtain ⟨n, hn, rfl⟩ := List.mem_map.1 hm
    obtain ⟨n', hn', rfl⟩ := List.mem_map.1 hm'
    rw [Node.kind_connected] at hout hout'
    rw [Node.params_connected, Node.params_connected] at hname
    rw [Node.id_connected, Node.id_connected]
    exact hg.distinct n hn n' hn' hout hout' hname

end Solution

end Graph

end RigExpr
