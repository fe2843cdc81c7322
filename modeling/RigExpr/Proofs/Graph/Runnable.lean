import RigExpr.Graph.Engine
import RigExpr.Proofs.Graph.Session

/-!
# Compiled graphs run

The graph of a session can be evaluated, in every state of the engine: every output that a
node reads is one that its node has, and a node that was evaluated has all of them
(`Node.exists_outlet`). So the only errors are faults of single nodes, and a cycle. A cycle
takes a node that reads an output of the host: all others read nodes that came before them
(`Builder.Sound.founded`).

* `Engine.Complete.run`: what holds after each node, along a whole order.
* `Session.evaluate_of_trace`: what can go wrong with the graph of a session.
-/

namespace RigExpr

namespace Node

variable {n : Node} {i : Inlet} {outlets : Outlets}

/-- A node without outputs besides the default one has a single signal. -/
theorem exists_single (h : n.outputs i = .ok outlets) (hextra : n.kind.extraOutlets = []) :
    ∃ s, outlets = single s := by
  unfold outputs at h
  cases hkind : n.kind with
  | euler | transform =>
    rw [hkind] at hextra
    cases hextra
  | condition | quat | matrix =>
    simp only [hkind] at h
    obtain ⟨_, -, h⟩ := Parser.bind_eq_ok.1 h
    exact ⟨_, (Except.ok.inj h).symm⟩
  | switch =>
    simp only [hkind] at h
    obtain ⟨_, -, h⟩ := Parser.bind_eq_ok.1 h
    exact ⟨_, (Except.ok.inj h).symm⟩
  | slerp =>
    simp only [hkind] at h
    obtain ⟨_, -, h⟩ := Parser.bind_eq_ok.1 h
    obtain ⟨_, -, h⟩ := Parser.bind_eq_ok.1 h
    exact ⟨_, (Except.ok.inj h).symm⟩
  | _ =>
    simp only [hkind] at h
    exact ⟨_, (Except.ok.inj h).symm⟩

/-- A transform has four outputs, which are vectors. -/
theorem exists_transform (h : transform i = .ok outlets) :
    ∃ matrix translate rotate scale, outlets = Table.ofList
      [(Kind.mainOutlet, .vector matrix), ("translate", .vector translate),
        ("rotate", .vector rotate), ("scale", .vector scale)] := by
  simp only [transform] at h
  -- each of the three inputs is connected or not
  split at h <;> obtain ⟨translate, -, h⟩ := Parser.bind_eq_ok.1 h <;>
    split at h <;> obtain ⟨rotate, -, h⟩ := Parser.bind_eq_ok.1 h <;>
    split at h <;> obtain ⟨scale, -, h⟩ := Parser.bind_eq_ok.1 h <;>
    exact ⟨_, _, _, _, (Except.ok.inj h).symm⟩

/-- A node that is evaluated has a signal at each of its outputs. -/
theorem exists_outlet (h : n.outputs i = .ok outlets) {outlet : String}
    (houtlet : n.kind.hasOutlet outlet = true) : ∃ s, outlets.get? outlet = some s := by
  simp only [Kind.hasOutlet, Bool.or_eq_true, decide_eq_true_eq] at houtlet
  cases hkind : n.kind with
  | euler =>
    simp only [outputs, hkind] at h
    obtain ⟨angles, -, h⟩ := Parser.bind_eq_ok.1 h
    cases h
    rw [hkind, Kind.extraOutlets, List.mem_singleton] at houtlet
    rcases houtlet with rfl | rfl <;> exact ⟨_, rfl⟩
  | transform =>
    simp only [outputs, hkind] at h
    obtain ⟨_, _, _, _, rfl⟩ := exists_transform h
    simp only [hkind, Kind.extraOutlets, List.mem_cons, List.not_mem_nil, or_false] at houtlet
    rcases houtlet with rfl | rfl | rfl | rfl <;> exact ⟨_, rfl⟩
  | _ =>
    have hextra : n.kind.extraOutlets = [] := by rw [hkind]; rfl
    obtain ⟨s, rfl⟩ := exists_single h hextra
    rw [hextra] at houtlet
    obtain rfl := houtlet.resolve_right List.not_mem_nil
    exact ⟨s, rfl⟩

end Node

theorem Graph.known_of_closed {g : Graph}
    (hclosed : ∀ n ∈ g.nodes, ∀ p ∈ n.inputs.values, Builder.Has g.nodes p) (source id : String)
    (hfeeds : g.Feeds source id) : source ∈ g.nodeIds := by
  obtain ⟨n, hn, rfl, p, hp, rfl⟩ := feeds_iff.1 hfeeds
  obtain ⟨m, hm, hid, -⟩ := hclosed n hn p hp
  exact List.mem_map.2 ⟨m, hm, hid⟩

/-- Where all connections lead to nodes of the graph, it has an order or a cycle. -/
theorem Graph.order_cases {g : Graph} (hnodup : g.nodeIds.Nodup)
    (hknown : ∀ source id, g.Feeds source id → source ∈ g.nodeIds) :
    (∃ order, g.order = .ok order ∧ g.IsReady [] order ∧ ∀ id ∈ order, id ∈ g.nodeIds) ∨
      g.order = .error .cycle := by
  obtain ⟨hready, -, hmem⟩ := drain_sources (nodup_sources hnodup)
  rw [order, dangling?_eq_none_iff.2 hknown]
  dsimp only
  split
  · exact .inl ⟨_, rfl, hready, fun id hid => ((hmem id).1 hid).1⟩
  · exact .inr rfl

namespace Engine

variable {g : Graph} {done : List String} {r : Engine}

/-- The nodes that are done have signals at all their outputs. -/
def Complete (g : Graph) (done : List String) (r : Engine) : Prop :=
  ∀ n ∈ g.nodes, n.id ∈ done → ∀ outlet, n.kind.hasOutlet outlet = true →
    ∃ s, r.value? { node := n.id, outlet } = some s

theorem Complete.exists_read (h : Complete g done r) {entries : List (String × Plug)}
    (hentries : ∀ e ∈ entries, e.2.node ∈ done ∧ Builder.Has g.nodes e.2) :
    ∃ signals, r.read entries = .ok signals := by
  induction entries with
  | nil => exact ⟨[], rfl⟩
  | cons e entries ih =>
    obtain ⟨key, p⟩ := e
    obtain ⟨⟨hdone, n, hn, hid, houtlet⟩, hrest⟩ := List.forall_mem_cons.1 hentries
    obtain ⟨signals, hsignals⟩ := ih hrest
    obtain ⟨s, hs⟩ := h n hn (hid ▸ hdone) p.outlet houtlet
    have hvalue : r.value? p = some s := by rw [← hs, hid]
    exact ⟨(key, s) :: signals, by rw [read, hvalue, hsignals]; rfl⟩

variable (hnodup : g.nodeIds.Nodup)
  (hclosed : ∀ n ∈ g.nodes, ∀ p ∈ n.inputs.values, Builder.Has g.nodes p)

include hnodup hclosed

/-- One step: a node after those it reads from is evaluated, unless it has a fault. -/
theorem Complete.evaluateNode (h : Complete g done r) {n : Node} (hn : n ∈ g.nodes)
    (hsources : ∀ source, g.Feeds source n.id → source ∈ done) :
    (∃ r', r.evaluateNode n = .ok r' ∧ Complete g (done ++ [n.id]) r') ∨
      ∃ fault, r.evaluateNode n = .error (.evaluation n.id fault) := by
  obtain ⟨signals, hread⟩ : ∃ signals, r.read n.inputs.entries = .ok signals := by
    refine h.exists_read fun e he => ?_
    have hp : e.2 ∈ n.inputs.values := List.mem_map.2 ⟨e, he, rfl⟩
    exact ⟨hsources _ (Graph.feeds_iff.2 ⟨n, hn, rfl, e.2, hp, rfl⟩), hclosed n hn _ hp⟩
  obtain ⟨i, hinlet⟩ : ∃ i, r.inlet n = .ok i := ⟨_, by rw [inlet, hread]; rfl⟩
  cases houtputs : n.outputs i with
  | error fault => exact .inr ⟨fault, evaluateNode_of_fault hinlet houtputs⟩
  | ok outlets =>
    refine .inl ⟨_, evaluateNode_of_ok hinlet houtputs, fun m hm hid outlet houtlet => ?_⟩
    rw [value?, record, Table.get?_insert]
    by_cases hsame : n.id = m.id
    · obtain rfl := eq_of_id_eq hnodup hn hm hsame
      rw [if_pos rfl]
      exact Node.exists_outlet houtputs houtlet
    · rw [if_neg hsame]
      refine h m hm ((List.mem_append.1 hid).resolve_right fun hlast => ?_) outlet houtlet
      exact hsame (List.mem_singleton.1 hlast).symm

/-- A whole run: it ends with the last node, or at one with a fault. -/
theorem Complete.run (h : Complete g done r) {order : List String} (horder : g.IsReady done order)
    (hmem : ∀ id ∈ order, id ∈ g.nodeIds) :
    (r.run (order.filterMap g.last?)).1 = .ok () ∨
      ∃ id ∈ g.nodeIds, ∃ fault,
        (r.run (order.filterMap g.last?)).1 = .error (.evaluation id fault) := by
  induction order generalizing done r with
  | nil => exact .inl rfl
  | cons id order ih =>
    obtain ⟨-, hsources, hrest⟩ := horder
    obtain ⟨n, hn, rfl, hlast⟩ := last?_of_mem (hmem id List.mem_cons_self)
    rw [List.filterMap_cons_some hlast, Engine.run]
    rcases h.evaluateNode hnodup hclosed hn hsources with ⟨r', hr', hcomplete⟩ | ⟨fault, hfault⟩
    · rw [hr']
      exact ih hcomplete hrest fun id hid => hmem id (List.mem_cons_of_mem _ hid)
    · rw [hfault]
      exact .inr ⟨n.id, hmem n.id List.mem_cons_self, fault, rfl⟩

/-- The evaluation of a graph fails for a cycle or for the fault of a node only. -/
theorem evaluate_cases (r : Engine) (log : List Line) :
    ((evaluate g).runOn ⟨r, log⟩).1 = .ok () ∨
      (∃ id ∈ g.nodeIds, ∃ fault, ((evaluate g).runOn ⟨r, log⟩).1 = .error (.evaluation id fault)) ∨
      g.order = .error .cycle ∧ ((evaluate g).runOn ⟨r, log⟩).1 = .error .cycle := by
  rcases Graph.order_cases hnodup (Graph.known_of_closed hclosed) with
    ⟨order, horder, hready, hmem⟩ | hcycle
  · have hbegin : Complete g [] r.begin := fun _ _ hid => absurd hid List.not_mem_nil
    have houtcome : ((evaluate g).runOn ⟨r, log⟩).1 =
        (r.begin.run (order.filterMap g.last?)).1 := by
      simp [evaluate, Action.runOn_bind, horder]
    rw [houtcome]
    exact (hbegin.run hnodup hclosed hready hmem).imp_right .inl
  · refine .inr (.inr ⟨hcycle, ?_⟩)
    simp [evaluate, Action.runOn_bind, hcycle]

end Engine

namespace Builder

variable {b : Builder}

/-- Whatever a node reads is there. -/
theorem WellFormed.closed (h : b.WellFormed) :
    ∀ n ∈ b.graph.nodes, ∀ p ∈ n.inputs.values, Has b.graph.nodes p := by
  intro n hn p hp
  by_cases hkind : n.kind = .output
  · rcases h.driven n hn hkind with hentries | ⟨q, hentries, hq⟩
    · simp [Table.values, hentries] at hp
    · obtain rfl : p = q := by simpa [Table.values, hentries] using hp
      exact hq
  · obtain ⟨before, after, hnodes⟩ := List.append_of_mem hn
    obtain ⟨m, hm, hrest⟩ := h.earlier before n after hnodes hkind p hp
    exact ⟨m, hnodes ▸ List.mem_append_left _ hm, hrest⟩

/-- The place of a node, with the outputs towards the host after all others. -/
def rank (b : Builder) (id : String) : Nat :=
  if b.kinds.get? id = some .output then b.graph.nodes.length else b.graph.nodeIds.idxOf id

theorem Sound.rank_of_readable (h : b.Sound true) {m : Node} (hm : m ∈ b.graph.nodes)
    (hread : Readable true m.kind) : b.rank m.id = b.graph.nodeIds.idxOf m.id := by
  have hkind : b.kinds.get? m.id = some m.kind := (h.kinds m.id m.kind).2 ⟨m, hm, rfl, rfl⟩
  rw [rank, hkind, if_neg fun heq => hread rfl (Option.some.inj heq)]

/-- A strict builder has no cycles: every node has a higher rank than those it reads. -/
theorem Sound.founded (h : b.Sound true) : WellFounded b.graph.Feeds := by
  refine Subrelation.wf (fun {source id} hfeeds => ?_) (InvImage.wf b.rank Nat.lt_wfRel.wf)
  show b.rank source < b.rank id
  obtain ⟨n, hn, rfl, p, hp, rfl⟩ := Graph.feeds_iff.1 hfeeds
  by_cases hkind : n.kind = .output
  · obtain ⟨q, hentries, m, hm, hid, -, hread⟩ :=
      (h.driven n hn hkind).resolve_left fun hentries => by simp [Table.values, hentries] at hp
    obtain rfl : p = q := by simpa [Table.values, hentries] using hp
    have hlast : b.rank n.id = b.graph.nodeIds.length := by
      rw [rank, if_pos ((h.kinds n.id .output).2 ⟨n, hn, rfl, hkind⟩), Graph.nodeIds,
        List.length_map]
    rw [← hid, h.rank_of_readable hm hread, hlast]
    exact List.idxOf_lt_length_of_mem (List.mem_map.2 ⟨m, hm, rfl⟩)
  · obtain ⟨before, after, hnodes⟩ := List.append_of_mem hn
    obtain ⟨m, hm, hid, -, hread⟩ := h.earlier before n after hnodes hkind p hp
    have hids : b.graph.nodeIds = before.map (·.id) ++ n.id :: after.map (·.id) := by
      simp [Graph.nodeIds, hnodes]
    have hmem : m.id ∈ before.map (·.id) := List.mem_map.2 ⟨m, hm, rfl⟩
    have hnew : n.id ∉ before.map (·.id) := fun hdup =>
      List.disjoint_of_nodup_append (hids ▸ h.nodup) hdup List.mem_cons_self
    rw [← hid, h.rank_of_readable (hnodes ▸ List.mem_append_left _ hm) hread,
      h.rank_of_readable hn (readable_of_ne hkind), hids, List.idxOf_append_of_mem hmem,
      List.idxOf_append_of_notMem hnew]
    exact Nat.lt_of_lt_of_le (List.idxOf_lt_length_of_mem hmem) (Nat.le_add_right _ _)

end Builder

namespace Session

variable {s : Session} {past : List (Session × Request)}

/-- Evaluating the graph of a session fails for the fault of a node only, unless an
    expression has read an output of the host: then there may be a cycle. -/
theorem evaluate_of_trace (h : Trace past s) (r : Engine) (log : List Line) {e : GraphError}
    (he : ((Engine.evaluate s.builder.graph).runOn ⟨r, log⟩).1 = .error e) :
    (∃ id ∈ s.builder.graph.nodeIds, ∃ fault, e = .evaluation id fault) ∨
      e = .cycle ∧ ∃ step ∈ past, step.2.ReadsOutput step.1.compiler.state := by
  have hformed : s.builder.WellFormed := (h.kept nofun : s.Kept false).sound.wellFormed
  rcases Engine.evaluate_cases hformed.nodup hformed.closed r log with
    hok | ⟨id, hid, fault, hfault⟩ | ⟨hcycle, houtcome⟩
  · rw [hok] at he
    cases he
  · exact .inl ⟨id, hid, fault, Except.error.inj (he.symm.trans hfault)⟩
  · refine .inr ⟨Except.error.inj (he.symm.trans houtcome), ?_⟩
    by_contra hread
    -- without such an expression, no node reads an output of the host
    have hstrict : s.Kept true := h.kept fun _ step hstep hreads => hread ⟨step, hstep, hreads⟩
    obtain ⟨order, horder, -⟩ := Graph.exists_order hformed.nodup
      (Graph.known_of_closed hformed.closed) hstrict.sound.founded
    rw [horder] at hcycle
    cases hcycle

/-- An output that drives itself has a cycle, and its expression has read it. -/
theorem evaluate_feedback :
    let host : List (String × Value Plug) :=
      [("a", .handle { node := "input_1" }), ("o", .handle { node := "output_2" })]
    let s := (new {}).perform (.bindings ["a"] ["o"])
    let r := Request.emit "o = euler([a, 0, o]).quat" host
    let outcome := ((Engine.evaluate (s.perform r).builder.graph).runOn ⟨{}, []⟩).1
    outcome = .error .cycle ∧
      ((∃ id ∈ (s.perform r).builder.graph.nodeIds, ∃ fault,
          GraphError.cycle = .evaluation id fault) ∨
        GraphError.cycle = .cycle ∧
          ∃ step ∈ [(new {}, Request.bindings ["a"] ["o"]), (s, r)],
            step.2.ReadsOutput step.1.compiler.state) := by
  intro host s r outcome
  have hrun : outcome = .error .cycle ∧
      ∀ e ∈ host, ∀ p ∈ e.2.handles, ∃ v ∈ s.returned, p ∈ v.handles := by
    decide +kernel
  have hnew : (Request.bindings ["a"] ["o"]).Own [] := fun _ h => absurd h List.not_mem_nil
  have hown : r.Own s.returned := hrun.2
  exact ⟨hrun.1, evaluate_of_trace (.step (.step (.new {}) hnew) hown) {} [] hrun.1⟩

end Session

end RigExpr
