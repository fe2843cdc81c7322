import RigExpr.Graph.Engine
import RigExpr.Proofs.Action
import RigExpr.Proofs.Graph.Order

/-!
# Running a graph computes its solution

A solution of a graph gives each node a signal, so that every node carries what it works
out from the signals of the nodes it reads from (`Graph.Solution`). It has nothing to do
with an order of the nodes. Evaluating a graph that has a solution succeeds and computes
it: nodes are evaluated after those they read from, so each of them is given the signals
of the solution, and works out its own (`Engine.Holds.evaluateNode`).

* `Engine.Holds.run`: what holds after each node, along a whole order.
* `Engine.evaluate_of_solution`: the results are the signals of the output nodes.
-/

namespace RigExpr

/-- What a node is given, if the host gives `env` and the nodes carry `value` at their
    default outputs. -/
def Node.given (n : Node) (env : String → Option Signal) (value : String → Signal) : Inlet :=
  { signals := ⟨n.inputs.entries.map fun e => (e.1, value e.2.node)⟩
    staged := n.params.name.bind env }

/-- The signals `value` are what the nodes of the graph carry, if the host gives `env`. -/
structure Graph.Solution (g : Graph) (env : String → Option Signal) (value : String → Signal) :
    Prop where
  nodup : g.nodeIds.Nodup
  known : ∀ source id, g.Feeds source id → source ∈ g.nodeIds
  founded : WellFounded g.Feeds
  /-- Only default outputs are read. -/
  outlet : ∀ n ∈ g.nodes, ∀ p ∈ n.inputs.values, p.outlet = Kind.mainOutlet
  /-- Every node works out its signal. -/
  outputs : ∀ n ∈ g.nodes, n.outputs (n.given env value) = .ok (Node.single (value n.id))
  /-- No two outputs towards the host have one name. -/
  distinct : ∀ n ∈ g.nodes, ∀ m ∈ g.nodes, n.kind = .output → m.kind = .output →
    n.params.name = m.params.name → n.id = m.id

namespace Engine

variable {g : Graph} {env : String → Option Signal} {value : String → Signal}
  {done : List String} {r : Engine}

/-- What the host has staged for the evaluation to come. -/
def staging (r : Engine) (name : String) : Option Signal := (r.begin.input? name).map (·.value)

/-- The nodes that are done carry their signals, and the host has those of the outputs. -/
structure Holds (g : Graph) (env : String → Option Signal) (value : String → Signal)
    (done : List String) (r : Engine) : Prop where
  input : ∀ name, (r.input? name).map (·.value) = env name
  outputs : ∀ id ∈ done, r.outputs.get? id = some (Node.single (value id))
  results : ∀ n ∈ g.nodes, n.id ∈ done → n.kind = .output → ∀ name, n.params.name = some name →
    r.result? name = some (value n.id)

theorem Holds.value? (h : Holds g env value done r) {p : Plug} (hp : p.node ∈ done)
    (houtlet : p.outlet = Kind.mainOutlet) : r.value? p = some (value p.node) := by
  rw [Engine.value?, h.outputs _ hp, houtlet]
  rfl

theorem Holds.read (h : Holds g env value done r) {entries : List (String × Plug)}
    (hentries : ∀ e ∈ entries, e.2.node ∈ done ∧ e.2.outlet = Kind.mainOutlet) :
    r.read entries = .ok (entries.map fun e => (e.1, value e.2.node)) := by
  induction entries with
  | nil => rfl
  | cons e entries ih =>
    obtain ⟨hnode, houtlet⟩ := hentries e List.mem_cons_self
    rw [Engine.read, h.value? hnode houtlet, ih fun e he => hentries e (List.mem_cons_of_mem _ he)]
    rfl

theorem Holds.inlet (h : Holds g env value done r) (hg : g.Solution env value) {n : Node}
    (hn : n ∈ g.nodes) (hsources : ∀ source, g.Feeds source n.id → source ∈ done) :
    r.inlet n = .ok (n.given env value) := by
  have hread : r.read n.inputs.entries =
      .ok (n.inputs.entries.map fun e => (e.1, value e.2.node)) :=
    h.read fun e he => by
      have hp : e.2 ∈ n.inputs.values := List.mem_map.2 ⟨e, he, rfl⟩
      exact ⟨hsources _ ⟨e.2, Graph.mem_connections.2 ⟨n, hn, rfl, hp⟩, rfl⟩, hg.outlet n hn _ hp⟩
  have hstaged : (n.params.name.bind r.input?).map (·.value) = n.params.name.bind env := by
    cases n.params.name with
    | none => rfl
    | some name => exact h.input name
  rw [Engine.inlet, hread, Node.given, ← hstaged]
  rfl

theorem eq_of_id_eq (hnodup : g.nodeIds.Nodup) {n m : Node} (hn : n ∈ g.nodes) (hm : m ∈ g.nodes)
    (h : n.id = m.id) : n = m :=
  List.inj_on_of_nodup_map hnodup hn hm h

theorem evaluateNode_of_ok {n : Node} {i : Inlet} {outlets : Node.Outlets}
    (hinlet : r.inlet n = .ok i) (houtputs : n.outputs i = .ok outlets) :
    r.evaluateNode n = .ok (r.record n outlets) := by
  simp [evaluateNode, hinlet, bind, Except.bind, houtputs, pure, Except.pure]

theorem evaluateNode_of_fault {n : Node} {i : Inlet} {fault : NodeFault}
    (hinlet : r.inlet n = .ok i) (houtputs : n.outputs i = .error fault) :
    r.evaluateNode n = .error (.evaluation n.id fault) := by
  simp [evaluateNode, hinlet, bind, Except.bind, houtputs]

/-- One step: a node after those it reads from. -/
theorem Holds.evaluateNode (h : Holds g env value done r) (hg : g.Solution env value) {n : Node}
    (hn : n ∈ g.nodes) (hsources : ∀ source, g.Feeds source n.id → source ∈ done) :
    ∃ r', r.evaluateNode n = .ok r' ∧ Holds g env value (done ++ [n.id]) r' := by
  refine ⟨r.record n (Node.single (value n.id)), ?_, h.input, fun id hid => ?_, ?_⟩
  · exact evaluateNode_of_ok (h.inlet hg hn hsources) (hg.outputs n hn)
  · rw [record, Table.get?_insert]
    split
    · next heq => rw [← heq]
    · next hne =>
      rcases List.mem_append.1 hid with hid | hid
      · exact h.outputs id hid
      · exact absurd (List.mem_singleton.1 hid).symm hne
  · intro m hm hid hkind name hname
    rw [result?, record]
    by_cases hsame : m.id = n.id
    · -- the node itself
      obtain rfl := eq_of_id_eq hg.nodup hm hn hsame
      rw [hkind, hname]
      exact Table.get?_insert_self ..
    · -- a node that was done before, whose result is not overwritten
      have hdone : m.id ∈ done := (List.mem_append.1 hid).resolve_right fun h =>
        hsame (List.mem_singleton.1 h)
      have hbefore := h.results m hm hdone hkind name hname
      dsimp only
      split
      · next name' s hout hname' hs =>
        rw [Table.get?_insert_of_ne]
        · exact hbefore
        · rintro rfl
          exact hsame (hg.distinct m hm n hn hkind hout (hname.trans hname'.symm))
      · exact hbefore

theorem last?_of_mem {id : String} (h : id ∈ g.nodeIds) :
    ∃ n ∈ g.nodes, n.id = id ∧ g.last? id = some n := by
  obtain ⟨n, hn, rfl⟩ := List.mem_map.1 h
  obtain ⟨m, hm⟩ : ∃ m, g.last? n.id = some m :=
    Option.isSome_iff_exists.1 (List.find?_isSome.2 ⟨n, List.mem_reverse.2 hn, by simp⟩)
  have hid : m.id = n.id := by simpa using List.find?_some hm
  have hmem : m ∈ g.nodes := List.mem_reverse.1 (List.mem_of_find?_eq_some hm)
  exact ⟨m, hmem, hid, hm⟩

/-- A whole run: the nodes in an order in which each comes after those it reads from. -/
theorem Holds.run (h : Holds g env value done r) (hg : g.Solution env value)
    {order : List String} (horder : g.IsReady done order) (hmem : ∀ id ∈ order, id ∈ g.nodeIds) :
    ∃ r', r.run (order.filterMap g.last?) = (.ok (), r') ∧
      Holds g env value (done ++ order) r' := by
  induction order generalizing done r with
  | nil => exact ⟨r, rfl, by rwa [List.append_nil]⟩
  | cons id order ih =>
    obtain ⟨-, hsources, hrest⟩ := horder
    obtain ⟨n, hn, rfl, hlast⟩ := last?_of_mem (hmem id List.mem_cons_self)
    obtain ⟨r', hr', hholds⟩ := h.evaluateNode hg hn hsources
    obtain ⟨r'', hr'', hholds'⟩ :=
      ih hholds hrest fun id hid => hmem id (List.mem_cons_of_mem _ hid)
    refine ⟨r'', ?_, by rwa [List.append_cons]⟩
    rw [List.filterMap_cons_some hlast, Engine.run, hr']
    exact hr''

/-- Evaluating a graph that has a solution succeeds, and hands the signals of its outputs to
    the host. -/
theorem evaluate_of_solution (r : Engine) (hg : g.Solution r.staging value) (log : List Line) :
    ∃ r' log', (evaluate g).runOn ⟨r, log⟩ = (.ok (), ⟨r', log'⟩) ∧
      ∀ n ∈ g.nodes, n.kind = .output → ∀ name, n.params.name = some name →
        r'.result? name = some (value n.id) := by
  obtain ⟨order, horder, hready, -, hmem⟩ := Graph.exists_order hg.nodup hg.known hg.founded
  have hbegin : Holds g r.staging value [] r.begin :=
    ⟨fun _ => rfl, fun id hid => absurd hid List.not_mem_nil,
      fun _ _ hid => absurd hid List.not_mem_nil⟩
  obtain ⟨r', hrun, hholds⟩ := hbegin.run hg hready fun id hid => (hmem id).1 hid
  rw [List.nil_append] at hholds
  have hevaluate : (evaluate g).runOn ⟨r, log⟩ = (.ok (), ⟨r', log ++
      [⟨.trace, "evaluating " ++ toString order.length ++ " node(s)"⟩]⟩) := by
    simp [evaluate, Action.runOn_bind, horder, hrun]
  refine ⟨r', _, hevaluate, fun n hn hkind name hname => ?_⟩
  exact hholds.results n hn ((hmem _).2 (List.mem_map.2 ⟨n, hn, rfl⟩)) hkind name hname

end Engine

end RigExpr
