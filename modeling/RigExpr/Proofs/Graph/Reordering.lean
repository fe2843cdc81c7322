import RigExpr.Proofs.Graph.Cycles

/-!
# Connections in another order

The connections of a node stand under keys, and no order among them is fixed. The evaluation
order does not depend on it: the numbers of signals that ids wait for are numbers of connections,
and a node that reads another one several times is listed among its readers so many times in a
row, wherever its connections stand (`Graph.Reordered.readers_eq`). So two runs over the same
nodes go through the same steps. Of several loose ends of one node, though, the first one is
reported.

* `Graph.order_eq_of_reordered`: one outcome for all orders of connections.
-/

namespace RigExpr

/-- The same node, with its connections in any order. -/
structure Node.Reordered (n m : Node) : Prop where
  id : m.id = n.id
  kind : m.kind = n.kind
  params : m.params = n.params
  inputs : m.inputs.entries.Perm n.inputs.entries

namespace Node.Reordered

variable {n m : Node}

theorem values (h : n.Reordered m) : m.inputs.values.Perm n.inputs.values := h.inputs.map _

theorem size (h : n.Reordered m) : m.inputs.size = n.inputs.size := h.inputs.length_eq

end Node.Reordered

namespace Graph

variable {g h : Graph}

/-- The same nodes one by one, each with its connections in any order. -/
def Reordered (g h : Graph) : Prop := List.Forall₂ Node.Reordered g.nodes h.nodes

namespace Reordered

/-- What does not depend on the order of connections is the same for all nodes. -/
theorem map_eq (hgh : g.Reordered h) {α : Type} {f : Node → α}
    (hf : ∀ n m : Node, n.Reordered m → f m = f n) : h.nodes.map f = g.nodes.map f := by
  refine List.ext_getElem ?_ fun i hi hi' => ?_
  · simpa using (List.Forall₂.length_eq hgh).symm
  · rw [List.getElem_map, List.getElem_map]
    exact hf _ _ (List.Forall₂.get hgh _ _)

theorem nodeIds_eq (hgh : g.Reordered h) : h.nodeIds = g.nodeIds :=
  hgh.map_eq fun _ _ hnm => hnm.id

theorem length_eq (hgh : g.Reordered h) : h.nodes.length = g.nodes.length :=
  (List.Forall₂.length_eq hgh).symm

theorem ids_eq (hgh : g.Reordered h) : h.ids = g.ids := by
  have hids (g : Graph) :
      g.ids = g.nodeIds.foldl (fun seen id => if id ∈ seen then seen else seen ++ [id]) [] := by
    rw [nodeIds, List.foldl_map, ids]
  rw [hids, hids, hgh.nodeIds_eq]

theorem waits_eq (hgh : g.Reordered h) : h.waits = g.waits := by
  have hwaits (g : Graph) : g.waits = (g.nodes.map fun n => (n.id, n.inputs.size)).foldl
      (fun t e => t.insert e.1 ((t.get? e.1).getD 0 + e.2)) Table.empty := by
    rw [List.foldl_map, waits]
  rw [hwaits, hwaits, hgh.map_eq fun n m hnm => Prod.ext hnm.id hnm.size]

/-- A node stands among the readers of an id once for each of its connections to it, whichever
    connections these are. -/
theorem readers_eq (hgh : g.Reordered h) : h.readers = g.readers := by
  funext id
  have hreaders (g : Graph) : g.readers id = (g.nodes.map fun n =>
      List.replicate (n.inputs.values.countP fun p => p.node = id) n.id).flatten := by
    simp only [readers, List.flatMap, List.map_const', List.countP_eq_length_filter]
  rw [hreaders, hreaders]
  refine congrArg List.flatten (hgh.map_eq fun n m hnm => ?_)
  rw [hnm.id, hnm.values.countP_eq]

theorem sources_eq (hgh : g.Reordered h) : h.sources = g.sources := by
  rw [sources, sources, hgh.waits_eq, show h.nodes.map (·.id) = g.nodes.map (·.id) from
    hgh.nodeIds_eq]

/-- The runs go through the same steps. -/
theorem drain_eq (hgh : g.Reordered h) (fuel : Nat) (ready : List String)
    (waits : Table String Nat) : h.drain fuel ready waits = g.drain fuel ready waits := by
  induction fuel generalizing ready waits with
  | zero => rfl
  | succ fuel ih =>
    cases ready with
    | nil => rfl
    | cons id ready => simp only [drain, hgh.readers_eq, ih]

/-- A node has a loose end or not, wherever its connections stand; which one of several is found
    may differ. -/
theorem isSome_loose {n m : Node} (hnm : n.Reordered m) (known : List String) :
    (m.inputs.values.find? fun p => p.node ∉ known).isSome =
      (n.inputs.values.find? fun p => p.node ∉ known).isSome := by
  rw [Bool.eq_iff_iff, List.find?_isSome, List.find?_isSome]
  simp only [hnm.values.mem_iff]

/-- The first node with a loose end is the same one. -/
theorem dangling?_eq (hgh : g.Reordered h) :
    h.dangling?.map (·.1.id) = g.dangling?.map (·.1.id) := by
  have hdangling (g : Graph) (known : List String) :
      (g.nodes.findSome? fun n =>
        (n.inputs.values.find? fun p => p.node ∉ known).map fun p => (n, p)).map (·.1.id) =
      (g.nodes.map fun n =>
        (n.id, (n.inputs.values.find? fun p => p.node ∉ known).isSome)).findSome? fun e =>
          if e.2 then some e.1 else none := by
    rw [List.map_findSome?, List.findSome?_map]
    refine congrArg (List.findSome? · g.nodes) (funext fun n => ?_)
    simp only [Function.comp_apply]
    cases n.inputs.values.find? fun p => p.node ∉ known <;> rfl
  rw [dangling?, dangling?, hdangling, hdangling, hgh.ids_eq,
    hgh.map_eq fun n m hnm => Prod.ext hnm.id (isSome_loose hnm _)]

end Reordered

/-- The evaluation order is the same wherever the connections of each node stand: if there is one,
    it is the same list of ids, and if there is none, it fails for the same reason. Of a loose end
    the same node is reported to read it. -/
theorem order_eq_of_reordered (hgh : g.Reordered h) :
    (∃ order, g.order = .ok order ∧ h.order = .ok order) ∨
    (g.order = .error .cycle ∧ h.order = .error .cycle) ∨
    ∃ reader source source', g.order = .error (.unknownNode reader source) ∧
      h.order = .error (.unknownNode reader source') ∧
      source ∉ g.nodeIds ∧ source' ∉ g.nodeIds := by
  have hdangling := hgh.dangling?_eq
  cases hg : g.dangling? with
  | some loose =>
    obtain ⟨n, p⟩ := loose
    rw [hg, Option.map_some, Option.map_eq_some_iff] at hdangling
    obtain ⟨⟨m, q⟩, hh, hid⟩ := hdangling
    obtain ⟨-, -, -, -, hp, -⟩ := exists_of_dangling? hg
    obtain ⟨-, -, -, -, hq, -⟩ := exists_of_dangling? hh
    rw [hgh.nodeIds_eq] at hq
    refine .inr (.inr ⟨n.id, p.node, q.node, ?_, ?_, hp, hq⟩)
    · exact order_eq_unknownNode_iff.2 ⟨n, p, hg, rfl, rfl⟩
    · exact order_eq_unknownNode_iff.2 ⟨m, q, hh, hid, rfl⟩
  | none =>
    rw [hg, Option.map_none, Option.map_eq_none_iff] at hdangling
    have hsame : h.order = g.order := by
      simp only [order, hg, hdangling, hgh.drain_eq, hgh.sources_eq, hgh.waits_eq, hgh.ids_eq,
        hgh.length_eq]
    rw [hsame]
    simp only [order, hg]
    split
    · exact .inl ⟨_, rfl, rfl⟩
    · exact .inr (.inl ⟨rfl, rfl⟩)

/-- A node that reads two constants, one of them twice: they come in the order in which they
    stand, in whatever order the node is connected. -/
theorem order_eq_of_reordered_shared :
    let inputs : List (String × Plug) :=
      [("a", ⟨"k", "out"⟩), ("b", ⟨"c", "out"⟩), ("t", ⟨"k", "out"⟩)]
    let g (inputs : List (String × Plug)) : Graph := ⟨[
      { id := "m", kind := .lerp, inputs := ⟨inputs⟩ },
      { id := "n", kind := .not, inputs := ⟨[("in", ⟨"k", "out"⟩)]⟩ },
      { id := "k", kind := .constant },
      { id := "c", kind := .constant }]⟩
    (g inputs).Reordered (g inputs.reverse) ∧ (g inputs).order = .ok ["k", "c", "n", "m"] ∧
      (g inputs.reverse).order = .ok ["k", "c", "n", "m"] := by
  intro inputs g
  have hsame (n : Node) : n.Reordered n := ⟨rfl, rfl, rfl, .refl _⟩
  have hgh : (g inputs).Reordered (g inputs.reverse) :=
    .cons ⟨rfl, rfl, rfl, inputs.reverse_perm⟩
      (.cons (hsame _) (.cons (hsame _) (.cons (hsame _) .nil)))
  have horder : (g inputs).order = .ok ["k", "c", "n", "m"] := by decide
  refine ⟨hgh, horder, ?_⟩
  rcases order_eq_of_reordered hgh with ⟨order, hg, hh⟩ | ⟨hg, -⟩ | ⟨_, _, _, hg, -⟩
  · rwa [hh, ← hg]
  · rw [horder] at hg
    cases hg
  · rw [horder] at hg
    cases hg

end Graph

end RigExpr
