import Mathlib.Data.List.Pairwise
import RigExpr.Proofs.Graph.Coverage

/-!
# Graphs whose nodes stand in another order

The nodes of a graph may be declared in any order. Where ids and names are distinct, the
graphs of two lists with the same nodes have the same connections, so one of them has an
evaluation order if the other one does, and an evaluation order of one is one of the other.
After a run every node carries what it works out from the nodes it reads from
(`Engine.Settled`), and this leaves no choice to a run in another order: it finds the same
inlets, and so it succeeds with the same signals.

* `Engine.Settles.run`: what a run has come to after each node.
* `Engine.exists_run_of_settled`: a run in another order.
* `Engine.evaluate_perm`: evaluations of permuted graphs.
-/

namespace RigExpr

namespace Graph

variable {g h : Graph} {done order : List String}

/-! ## Graphs with the same nodes -/

/-- Where there is an evaluation order, no node reads from itself along any way. -/
theorem wellFounded_feeds_of_order (hids : g.nodeIds.Nodup) (horder : g.order = .ok order) :
    WellFounded g.Feeds := by
  have hsources := nodup_sources hids
  refine Subrelation.wf (r := InvImage (· < ·) order.idxOf) ?_ (InvImage.wf _ Nat.lt_wfRel.wf)
  intro source id hfeeds
  obtain ⟨n, hn, rfl, -⟩ := feeds_iff.1 hfeeds
  have hid : n.id ∈ order := (mem_order_iff horder hsources _).2 (List.mem_map_of_mem hn)
  exact (isReady_order horder hsources).idxOf_lt hfeeds List.not_mem_nil hid

theorem last?_eq_some_iff (hids : g.nodeIds.Nodup) {id : String} {n : Node} :
    g.last? id = some n ↔ n ∈ g.nodes ∧ n.id = id := by
  constructor
  · intro h
    exact ⟨List.mem_reverse.1 (List.mem_of_find?_eq_some h), by simpa using List.find?_some h⟩
  · rintro ⟨hn, rfl⟩
    obtain ⟨m, hm, hid, hlast⟩ := Engine.last?_of_mem (List.mem_map_of_mem hn)
    rw [hlast, Engine.eq_of_id_eq hids hm hn hid]

theorem feeds_perm (hperm : g.nodes.Perm h.nodes) : g.Feeds = h.Feeds := by
  funext source id
  simp only [feeds_iff, hperm.mem_iff]

theorem last?_perm (hperm : g.nodes.Perm h.nodes) (hids : g.nodeIds.Nodup) : g.last? = h.last? := by
  funext id
  have hids' : h.nodeIds.Nodup := (hperm.map _).nodup_iff.1 hids
  ext n
  rw [last?_eq_some_iff hids, last?_eq_some_iff hids', hperm.mem_iff]

theorem isReady_perm (hperm : g.nodes.Perm h.nodes) :
    g.IsReady done order ↔ h.IsReady done order := by
  induction order generalizing done with
  | nil => rfl
  | cons id rest ih => rw [IsReady, IsReady, feeds_perm hperm, ih]

/-- A permuted graph has an evaluation order if the graph does, and it is one of the graph. -/
theorem exists_order_perm (hperm : g.nodes.Perm h.nodes) (hids : g.nodeIds.Nodup)
    (horder : g.order = .ok order) :
    ∃ order', h.order = .ok order' ∧ g.IsReady [] order' ∧ ∀ id, id ∈ order' ↔ id ∈ g.nodeIds := by
  have hnodes : g.nodeIds.Perm h.nodeIds := hperm.map _
  have hknown : ∀ source id, h.Feeds source id → source ∈ h.nodeIds := by
    intro source id hfeeds
    rw [← feeds_perm hperm] at hfeeds
    exact hnodes.mem_iff.1 ((order_eq_ok.1 horder).1 source id hfeeds)
  have hwf : WellFounded h.Feeds := feeds_perm hperm ▸ wellFounded_feeds_of_order hids horder
  obtain ⟨order', horder', hready, -, hmem⟩ := exists_order (hnodes.nodup_iff.1 hids) hknown hwf
  exact ⟨order', horder', (isReady_perm hperm).2 hready, fun id =>
    (hmem id).trans hnodes.mem_iff.symm⟩

/-- Two outputs towards the host with one name are one node. -/
theorem eq_of_name_eq (hnames : g.outputNames.Nodup) {n m : Node} (hn : n ∈ g.nodes)
    (hm : m ∈ g.nodes) (hkind : n.kind = .output) (hkind' : m.kind = .output) {name : String}
    (hname : n.params.name = some name) (hname' : m.params.name = some name) : n = m := by
  rw [outputNames, List.Nodup, List.pairwise_filterMap] at hnames
  have houtput {k : Node} (hk : k ∈ g.nodes) (hkind : k.kind = .output) :
      k ∈ g.nodes.filter fun n => n.kind = .output :=
    List.mem_filter.2 ⟨hk, by simpa using hkind⟩
  have : Std.Symm fun n m : Node => ∀ a, n.params.name = some a → ∀ b, m.params.name = some b →
      a ≠ b := ⟨fun _ _ h a ha b hb => (h b hb a ha).symm⟩
  by_contra hne
  exact hnames.forall (houtput hn hkind) (houtput hm hkind') hne name hname name hname' rfl

end Graph

namespace Engine

variable {g : Graph} {env : String → Option Signal} {done order : List String} {n m : Node}
  {r r' target : Engine}

/-! ## What a run has come to -/

/-- The node carries what it works out from what it is given. -/
def Settled (r : Engine) (n : Node) : Prop :=
  ∃ i outlets, r.inlet n = .ok i ∧ n.outputs i = .ok outlets ∧ r.outputs.get? n.id = some outlets

/-- The host has the signals of the outputs that are done, and no others. -/
def Hands (g : Graph) (done : List String) (r : Engine) : Prop :=
  ∀ name v, r.result? name = some v ↔ ∃ n ∈ g.nodes, n.id ∈ done ∧ n.kind = .output ∧
    n.params.name = some name ∧ r.value? ⟨n.id, Kind.mainOutlet⟩ = some v

/-- What a run has come to: the nodes that are done are settled, and the others have no
    signals. -/
structure Settles (g : Graph) (env : String → Option Signal) (done : List String) (r : Engine) :
    Prop where
  input : ∀ name, (r.input? name).map (·.value) = env name
  closed : ∀ source id, g.Feeds source id → id ∈ done → source ∈ done
  settled : ∀ n ∈ g.nodes, n.id ∈ done → r.Settled n
  rest : ∀ id, id ∉ done → r.outputs.get? id = none
  hands : Hands g done r

theorem value?_record_self {outlets : Node.Outlets} (outlet : String) :
    (r.record n outlets).value? ⟨n.id, outlet⟩ = outlets.get? outlet := by
  rw [value?, get?_outputs_record, if_pos rfl]
  rfl

/-- A node stays settled while others are evaluated that it does not read from. -/
theorem Settled.record {outlets : Node.Outlets} (hm : r.Settled m) (hne : n.id ≠ m.id)
    (hinputs : ∀ p ∈ m.inputs.values, n.id ≠ p.node) : (r.record n outlets).Settled m := by
  obtain ⟨i, own, hinlet, houtputs, hget⟩ := hm
  refine ⟨i, own, ?_, houtputs, ?_⟩
  · rw [← hinlet]
    refine inlet_congr (fun _ => rfl) fun p hp => ?_
    rw [get?_outputs_record, if_neg (hinputs p hp)]
  · rw [get?_outputs_record, if_neg hne, hget]

theorem Hands.record {i : Inlet} {outlets : Node.Outlets} (h : Hands g done r)
    (hids : g.nodeIds.Nodup) (hnames : g.outputNames.Nodup) (hn : n ∈ g.nodes)
    (hfresh : n.id ∉ done) (houtputs : n.outputs i = .ok outlets) :
    Hands g (done ++ [n.id]) (r.record n outlets) := by
  intro name v
  rw [result?_record houtputs]
  split
  · next hown =>
    -- the name is the one of the node, and of no other
    constructor
    · intro hv
      refine ⟨n, hn, List.mem_append_right _ (List.mem_singleton_self _), hown.1, hown.2, ?_⟩
      rw [value?_record_self, hv]
    · rintro ⟨m, hm, -, hkind, hname, hv⟩
      obtain rfl := Graph.eq_of_name_eq hnames hm hn hkind hown.1 hname hown.2
      rwa [value?_record_self] at hv
  · next hother =>
    rw [h]
    refine exists_congr fun m => and_congr_right fun hm => ?_
    by_cases hid : m.id = n.id
    · -- the node itself, which was not done before and does not have the name
      obtain rfl := eq_of_id_eq hids hm hn hid
      exact ⟨fun hv => absurd hv.1 hfresh, fun hv => absurd ⟨hv.2.1, hv.2.2.1⟩ hother⟩
    · have hvalue : (r.record n outlets).value? ⟨m.id, Kind.mainOutlet⟩ =
          r.value? ⟨m.id, Kind.mainOutlet⟩ := by
        rw [value?, get?_outputs_record, if_neg (Ne.symm hid), value?]
      rw [hvalue, List.mem_append, List.mem_singleton, or_iff_left hid]

/-- One step: a node after those it reads from. -/
theorem Settles.evaluateNode (h : Settles g env done r) (hids : g.nodeIds.Nodup)
    (hnames : g.outputNames.Nodup) (hn : n ∈ g.nodes) (hfresh : n.id ∉ done)
    (hsources : ∀ source, g.Feeds source n.id → source ∈ done)
    (hr : r.evaluateNode n = .ok r') : Settles g env (done ++ [n.id]) r' := by
  obtain ⟨i, outlets, hinlet, houtputs, rfl⟩ := evaluateNode_eq_ok.1 hr
  have hne {id : String} (hid : id ∈ done) : n.id ≠ id := fun heq => hfresh (heq ▸ hid)
  refine ⟨h.input, fun source id hfeeds hid => ?_, fun m hm hid => ?_, fun id hid => ?_,
    h.hands.record hids hnames hn hfresh houtputs⟩
  · refine List.mem_append_left _ ?_
    rcases List.mem_append.1 hid with hid | hid
    · exact h.closed source id hfeeds hid
    · obtain rfl := List.mem_singleton.1 hid
      exact hsources source hfeeds
  · rcases List.mem_append.1 hid with hid | hid
    · -- a node that was done before reads only from such nodes
      refine (h.settled m hm hid).record (hne hid) fun p hp => hne ?_
      exact h.closed p.node m.id (Graph.feeds_iff.2 ⟨m, hm, rfl, p, hp, rfl⟩) hid
    · -- the node itself, which does not read its own signals
      obtain rfl := eq_of_id_eq hids hm hn (List.mem_singleton.1 hid)
      refine ⟨i, outlets, ?_, houtputs, by rw [get?_outputs_record, if_pos rfl]⟩
      rw [← hinlet]
      refine inlet_congr (fun _ => rfl) fun p hp => ?_
      have hp' := hsources p.node (Graph.feeds_iff.2 ⟨m, hm, rfl, p, hp, rfl⟩)
      rw [get?_outputs_record, if_neg (hne hp')]
  · rw [List.mem_append, List.mem_singleton, not_or] at hid
    rw [get?_outputs_record, if_neg (Ne.symm hid.2), h.rest id hid.1]

theorem settles_begin (r : Engine) : Settles g r.staging [] r.begin where
  input _ := rfl
  closed _ _ _ hid := absurd hid List.not_mem_nil
  settled _ _ hid := absurd hid List.not_mem_nil
  rest _ _ := rfl
  hands name v := by
    refine ⟨fun hv => ?_, fun ⟨_, _, hid, _⟩ => absurd hid List.not_mem_nil⟩
    cases hv

/-- A whole run, in an order in which each node comes after those it reads from. It may end
    early, before the first node that cannot be evaluated. -/
theorem Settles.exists_run (h : Settles g env done r) (hids : g.nodeIds.Nodup)
    (hnames : g.outputNames.Nodup) (horder : g.IsReady done order)
    (hmem : ∀ id ∈ order, id ∈ g.nodeIds) :
    ∃ now rest, order = now ++ rest ∧
      Settles g env (done ++ now) (r.run (order.filterMap g.last?)).2 ∧
      ((r.run (order.filterMap g.last?)).1 = .ok () ∧ rest = [] ∨
        ∃ n ∈ g.nodes, ∃ later e, rest = n.id :: later ∧
          (r.run (order.filterMap g.last?)).1 = .error e ∧
          (r.run (order.filterMap g.last?)).2.evaluateNode n = .error e) := by
  induction order generalizing done r with
  | nil => exact ⟨[], [], rfl, by rwa [List.append_nil], .inl ⟨rfl, rfl⟩⟩
  | cons id order ih =>
    obtain ⟨hfresh, hsources, hrest⟩ := horder
    obtain ⟨n, hn, rfl, hlast⟩ := last?_of_mem (hmem id List.mem_cons_self)
    rw [List.filterMap_cons_some hlast, Engine.run]
    cases hnext : r.evaluateNode n with
    | error e =>
      exact ⟨[], n.id :: order, rfl, by rwa [List.append_nil],
        .inr ⟨n, hn, order, e, rfl, rfl, hnext⟩⟩
    | ok next =>
      obtain ⟨now, rest, horder, hsettles, hend⟩ :=
        ih (h.evaluateNode hids hnames hn hfresh hsources hnext) hrest fun id hid =>
          hmem id (List.mem_cons_of_mem _ hid)
      refine ⟨n.id :: now, rest, by rw [horder, List.cons_append], ?_, hend⟩
      rwa [List.append_cons]

/-- A whole run that succeeds. -/
theorem Settles.run (h : Settles g env done r) (hids : g.nodeIds.Nodup)
    (hnames : g.outputNames.Nodup) (horder : g.IsReady done order)
    (hmem : ∀ id ∈ order, id ∈ g.nodeIds)
    (hr : r.run (order.filterMap g.last?) = (.ok (), r')) : Settles g env (done ++ order) r' := by
  obtain ⟨now, rest, heq, hsettles, hend⟩ := h.exists_run hids hnames horder hmem
  rw [hr] at hsettles hend
  rcases hend with ⟨-, rfl⟩ | ⟨_, _, _, _, _, herror, _⟩
  · rwa [heq, List.append_nil]
  · cases herror

/-! ## A run in another order -/

/-- One step: a node after those it reads from finds what it is given in the end. -/
theorem exists_evaluateNode_of_settled (hn : n ∈ g.nodes) (htarget : target.Settled n)
    (hstaged : ∀ name, (r.input? name).map (·.value) = (target.input? name).map (·.value))
    (hagree : ∀ id ∈ done, r.outputs.get? id = target.outputs.get? id)
    (hsources : ∀ source, g.Feeds source n.id → source ∈ done) :
    ∃ r', r.evaluateNode n = .ok r' ∧ r'.input? = r.input? ∧
      ∀ id ∈ done ++ [n.id], r'.outputs.get? id = target.outputs.get? id := by
  obtain ⟨i, outlets, hinlet, houtputs, hget⟩ := htarget
  have hsame : r.inlet n = .ok i := by
    rw [← hinlet]
    refine inlet_congr hstaged fun p hp => hagree _ ?_
    exact hsources p.node (Graph.feeds_iff.2 ⟨n, hn, rfl, p, hp, rfl⟩)
  refine ⟨_, evaluateNode_eq_ok.2 ⟨i, outlets, hsame, houtputs, rfl⟩, rfl, fun id hid => ?_⟩
  rw [get?_outputs_record]
  split
  · next heq => rw [← heq, hget]
  · next hne =>
    refine hagree id ((List.mem_append.1 hid).resolve_right fun h => hne ?_)
    exact (List.mem_singleton.1 h).symm

/-- A whole run: the signals are those that settle all nodes. -/
theorem exists_run_of_settled (htarget : ∀ n ∈ g.nodes, target.Settled n)
    (hstaged : ∀ name, (r.input? name).map (·.value) = (target.input? name).map (·.value))
    (hagree : ∀ id ∈ done, r.outputs.get? id = target.outputs.get? id)
    (horder : g.IsReady done order) (hmem : ∀ id ∈ order, id ∈ g.nodeIds) :
    ∃ r', r.run (order.filterMap g.last?) = (.ok (), r') ∧
      ∀ id ∈ done ++ order, r'.outputs.get? id = target.outputs.get? id := by
  induction order generalizing done r with
  | nil => exact ⟨r, rfl, by rwa [List.append_nil]⟩
  | cons id order ih =>
    obtain ⟨-, hsources, hrest⟩ := horder
    obtain ⟨n, hn, rfl, hlast⟩ := last?_of_mem (hmem id List.mem_cons_self)
    obtain ⟨next, hnext, hinput, hagree'⟩ :=
      exists_evaluateNode_of_settled hn (htarget n hn) hstaged hagree hsources
    obtain ⟨r', hr', hall⟩ := ih (by rwa [hinput]) hagree' hrest fun id hid =>
      hmem id (List.mem_cons_of_mem _ hid)
    refine ⟨r', ?_, by rwa [List.append_cons]⟩
    rw [List.filterMap_cons_some hlast]
    exact run_cons_eq_ok.2 ⟨next, hnext, hr'⟩

/-- Runs that have done the same nodes, and that agree on them, agree on everything. -/
theorem Settles.agree {done' : List String} (h : Settles g env done r) (h' : Settles g env done' r')
    (hdone : ∀ id, id ∈ done' ↔ id ∈ done)
    (hagree : ∀ id ∈ done, r'.outputs.get? id = r.outputs.get? id) :
    (∀ id, r'.outputs.get? id = r.outputs.get? id) ∧ ∀ name, r'.result? name = r.result? name := by
  have houtputs : ∀ id, r'.outputs.get? id = r.outputs.get? id := by
    intro id
    by_cases hid : id ∈ done
    · exact hagree id hid
    · rw [h.rest id hid, h'.rest id fun h => hid ((hdone id).1 h)]
  refine ⟨houtputs, fun name => ?_⟩
  ext v
  rw [h.hands, h'.hands]
  simp only [hdone, value?, houtputs]

/-! ## Evaluations -/

/-- If a graph can be evaluated, then so can the permuted one, with the same signals. -/
theorem exists_evaluate_of_perm {h : Graph} {log : List Line} {s : Logged Engine}
    (hperm : g.nodes.Perm h.nodes) (hids : g.nodeIds.Nodup) (hnames : g.outputNames.Nodup)
    (hs : (evaluate g).runOn ⟨r, log⟩ = (.ok (), s)) (log' : List Line) :
    ∃ s', (evaluate h).runOn ⟨r, log'⟩ = (.ok (), s') ∧
      (∀ id, s'.state.outputs.get? id = s.state.outputs.get? id) ∧
      ∀ name, s'.state.result? name = s.state.result? name := by
  obtain ⟨order, horder, hrun⟩ := exists_run_of_evaluate hs
  have hsources := Graph.nodup_sources hids
  have hmem := Graph.mem_order_iff horder hsources
  -- in the end all nodes are settled, and this has nothing to do with the order
  have hend : Settles g r.staging order s.state :=
    (settles_begin r).run hids hnames (Graph.isReady_order horder hsources)
      (fun id hid => (hmem id).1 hid) hrun
  obtain ⟨order', horder', hready', hmem'⟩ := Graph.exists_order_perm hperm hids horder
  -- so that a run in the other order finds the same signals, node by node
  obtain ⟨r', hrun', hagree⟩ := exists_run_of_settled (r := r.begin)
    (fun n hn => hend.settled n hn ((hmem n.id).2 (List.mem_map_of_mem hn)))
    (fun name => (hend.input name).symm) (fun _ hid => absurd hid List.not_mem_nil) hready'
    fun id hid => (hmem' id).1 hid
  have hend' : Settles g r.staging order' r' :=
    (settles_begin r).run hids hnames hready' (fun id hid => (hmem' id).1 hid) hrun'
  have hdone : ∀ id, id ∈ order' ↔ id ∈ order := fun id => (hmem' id).trans (hmem id).symm
  refine ⟨⟨r', log' ++ [⟨.trace, "evaluating " ++ toString order'.length ++ " node(s)"⟩]⟩, ?_,
    hend.agree hend' hdone fun id hid => hagree id ((hdone id).2 hid)⟩
  rw [runOn_evaluate_of_ok horder', ← Graph.last?_perm hperm hids, hrun']

/-- The order in which nodes are declared does not matter: if ids and names of outputs are
    distinct, then a permuted graph can be evaluated just if the graph can, and all signals and
    results are the same. -/
theorem evaluate_perm {h : Graph} (hperm : g.nodes.Perm h.nodes) (hids : g.nodeIds.Nodup)
    (hnames : g.outputNames.Nodup) (r : Engine) (log log' : List Line) :
    (((evaluate g).runOn ⟨r, log⟩).1 = .ok () ↔ ((evaluate h).runOn ⟨r, log'⟩).1 = .ok ()) ∧
      (((evaluate g).runOn ⟨r, log⟩).1 = .ok () →
        (∀ id, ((evaluate h).runOn ⟨r, log'⟩).2.state.outputs.get? id =
          ((evaluate g).runOn ⟨r, log⟩).2.state.outputs.get? id) ∧
        ∀ name, ((evaluate h).runOn ⟨r, log'⟩).2.state.result? name =
          ((evaluate g).runOn ⟨r, log⟩).2.state.result? name) := by
  have hids' : h.nodeIds.Nodup := (hperm.map _).nodup_iff.1 hids
  have hnames' : h.outputNames.Nodup := ((hperm.filter _).filterMap _).nodup_iff.1 hnames
  refine ⟨⟨fun hg => ?_, fun hh => ?_⟩, fun hg => ?_⟩
  · obtain ⟨s', hs', -⟩ := exists_evaluate_of_perm hperm hids hnames (Prod.ext hg rfl) log'
    rw [hs']
  · obtain ⟨s, hs, -⟩ := exists_evaluate_of_perm hperm.symm hids' hnames' (Prod.ext hh rfl) log
    rw [hs]
  · obtain ⟨s', hs', hsame⟩ := exists_evaluate_of_perm hperm hids hnames (Prod.ext hg rfl) log'
    rw [hs']
    exact hsame

/-- A sum whose nodes are declared backwards: its terms are evaluated the other way round. -/
theorem evaluate_perm_backwards :
    ∃ g h : Graph, g.nodes.Perm h.nodes ∧ g.nodeIds.Nodup ∧ g.outputNames.Nodup ∧
      g.order = .ok ["a", "b", "sum", "end"] ∧ h.order = .ok ["b", "a", "sum", "end"] ∧
      ((evaluate h).runOn ⟨{}, []⟩).1 = .ok () ∧
      ((evaluate h).runOn ⟨{}, []⟩).2.state.result? "o" = some (.float (1 + 2)) := by
  let nodes : List Node := [
    { id := "a", kind := .constant, params := { value := some (.float 1) } },
    { id := "b", kind := .constant, params := { value := some (.float 2) } },
    { id := "sum", kind := .add, inputs := ⟨[("lhs", ⟨"a", "out"⟩), ("rhs", ⟨"b", "out"⟩)]⟩ },
    { id := "end", kind := .output, params := { name := some "o" },
      inputs := ⟨[("in", ⟨"sum", "out"⟩)]⟩ }]
  have hperm : nodes.Perm nodes.reverse := nodes.reverse_perm.symm
  have hids : (⟨nodes⟩ : Graph).nodeIds.Nodup := by decide
  have hnames : (⟨nodes⟩ : Graph).outputNames.Nodup := by decide
  have hsame := evaluate_perm (g := ⟨nodes⟩) (h := ⟨nodes.reverse⟩) hperm hids hnames {} [] []
  refine ⟨⟨nodes⟩, ⟨nodes.reverse⟩, hperm, hids, hnames, by rfl, by rfl, hsame.1.1 (by rfl), ?_⟩
  rw [(hsame.2 (by rfl)).2 "o"]
  rfl

end Engine

end RigExpr
