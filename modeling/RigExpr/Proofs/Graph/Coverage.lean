import RigExpr.Graph.Json
import RigExpr.Proofs.Graph.Step

/-!
# Orders that cover a graph

An order that is found lists as many ids as there are, but it lists an id that waits for
nothing once for each node with this id. So it lists every id exactly once just if no such id
stands for two nodes, and then each id comes after those it reads from, and an evaluation that
succeeds has signals for all of them (`Graph.order_covers`). An id that is listed twice can
make up for one on a cycle, which is then never evaluated (`Graph.order_repeated`).

* `Graph.IsReady.idxOf_lt`: what is read comes first.
* `Engine.covers_of_run`: all nodes of a run that succeeds have signals.
-/

namespace RigExpr

namespace Graph

variable {g : Graph} {done order : List String}

/-! ## What an order lists -/

/-- An id comes after those it reads from. -/
theorem IsReady.idxOf_lt (h : g.IsReady done order) {source id : String}
    (hfeeds : g.Feeds source id) (hsource : source ∉ done) (hid : id ∈ order) :
    order.idxOf source < order.idxOf id := by
  induction order generalizing done with
  | nil => exact absurd hid List.not_mem_nil
  | cons first rest ih =>
    obtain ⟨-, hdone, hrest⟩ := h
    have hfirst : first ≠ id := by
      rintro rfl
      exact hsource (hdone source hfeeds)
    rw [List.idxOf_cons_ne _ hfirst]
    by_cases heq : first = source
    · rw [List.idxOf_cons_eq _ heq]
      exact Nat.succ_pos _
    · rw [List.idxOf_cons_ne _ heq]
      refine Nat.succ_lt_succ (ih hrest ?_ ((List.mem_cons.1 hid).resolve_left (Ne.symm hfirst)))
      simpa [hsource] using Ne.symm heq

/-- The ids that are ready come first, each as often as it is ready. -/
theorem prefix_drain {fuel : Nat} {ready : List String} (hfuel : ready.length ≤ fuel)
    (more : List String) (waits : Table String Nat) :
    ready <+: g.drain fuel (ready ++ more) waits := by
  induction fuel generalizing ready more waits with
  | zero =>
    rw [List.eq_nil_of_length_eq_zero (Nat.le_zero.1 hfuel)]
    exact List.nil_prefix
  | succ fuel ih =>
    cases ready with
    | nil => exact List.nil_prefix
    | cons id ready =>
      rw [List.cons_append, drain]
      rcases settle (g.readers id) waits with ⟨waits', ready'⟩
      dsimp only
      rw [List.append_assoc]
      exact List.cons_prefix_cons.2 ⟨rfl, ih (Nat.le_of_succ_le_succ hfuel) _ _⟩

/-- What it takes to find an order. -/
theorem order_eq_ok : g.order = .ok order ↔
    (∀ source id, g.Feeds source id → source ∈ g.nodeIds) ∧
      order = g.drain g.nodes.length g.sources g.waits ∧ order.length = g.ids.length := by
  rw [← dangling?_eq_none_iff, Graph.order]
  cases g.dangling? with
  | some place => simp
  | none =>
    dsimp only
    split
    · next hlength => simpa [eq_comm] using fun h => h ▸ hlength
    · next hlength => simpa using fun h => h ▸ hlength

/-- An order lists no id twice just if no id that waits for nothing stands for two nodes. -/
theorem nodup_order_iff (h : g.order = .ok order) : order.Nodup ↔ g.sources.Nodup := by
  obtain ⟨-, rfl, -⟩ := order_eq_ok.1 h
  refine ⟨fun hnodup => ?_, fun hsources => (drain_sources hsources).2.1⟩
  have hlength : g.sources.length ≤ g.nodes.length :=
    Nat.le_trans (List.length_filter_le ..) (Nat.le_of_eq (List.length_map _))
  have hprefix := prefix_drain (g := g) hlength [] g.waits
  rw [List.append_nil] at hprefix
  exact hnodup.sublist hprefix.sublist

/-- An order without repetition lists all ids. -/
theorem mem_order_iff (h : g.order = .ok order) (hsources : g.sources.Nodup) (id : String) :
    id ∈ order ↔ id ∈ g.nodeIds := by
  have hnodup := (nodup_order_iff h).2 hsources
  obtain ⟨-, rfl, hlength⟩ := order_eq_ok.1 h
  have hsubset : g.drain g.nodes.length g.sources g.waits ⊆ g.ids := fun id hid =>
    (g.ids_spec.2 id).2 (((drain_sources hsources).2.2 id).1 hid).1
  -- as many different ids as there are
  have hperm :=
    (List.subperm_of_subset hnodup hsubset).perm_of_length_le (Nat.le_of_eq hlength.symm)
  rw [hperm.mem_iff, g.ids_spec.2]

theorem isReady_order (h : g.order = .ok order) (hsources : g.sources.Nodup) :
    g.IsReady [] order := by
  obtain ⟨-, rfl, -⟩ := order_eq_ok.1 h
  exact (drain_sources hsources).1

end Graph

namespace Engine

variable {g : Graph} {n m : Node} {r r' : Engine}

/-! ## What a run leaves -/

/-- There are signals of the node, and the host has one if it is an output of its own. -/
structure Covers (r : Engine) (n : Node) : Prop where
  outputs : ∃ outlets, r.outputs.get? n.id = some outlets
  result : n.kind = .output → ∀ name, n.params.name = some name → ∃ s, r.result? name = some s

theorem covers_of_evaluateNode (h : r.evaluateNode n = .ok r') : r'.Covers n := by
  obtain ⟨i, outlets, -, houtputs, rfl⟩ := evaluateNode_eq_ok.1 h
  refine ⟨⟨outlets, by rw [get?_outputs_record, if_pos rfl]⟩, fun hkind name hname => ?_⟩
  rw [result?_record houtputs, if_pos ⟨hkind, hname⟩]
  obtain rfl := Except.ok.inj ((Node.outputs_of_output hkind i).symm.trans houtputs)
  exact ⟨_, rfl⟩

/-- Signals are replaced, and never removed. -/
theorem Covers.evaluateNode (hm : r.Covers m) (h : r.evaluateNode n = .ok r') : r'.Covers m := by
  obtain ⟨i, outlets, -, houtputs, rfl⟩ := evaluateNode_eq_ok.1 h
  refine ⟨?_, fun hkind name hname => ?_⟩
  · rw [get?_outputs_record]
    split
    · exact ⟨_, rfl⟩
    · exact hm.outputs
  · by_cases hsame : n.kind = .output ∧ n.params.name = some name
    · exact (covers_of_evaluateNode h).result hsame.1 name hsame.2
    · rw [result?_record houtputs, if_neg hsame]
      exact hm.result hkind name hname

/-- All nodes of a run that succeeds have signals. -/
theorem covers_of_run {nodes : List Node} (h : r.run nodes = (.ok (), r')) :
    ∀ m, r.Covers m ∨ m ∈ nodes → r'.Covers m := by
  induction nodes generalizing r with
  | nil =>
    cases h
    exact fun m hm => hm.resolve_right List.not_mem_nil
  | cons n nodes ih =>
    obtain ⟨next, hnext, hrest⟩ := run_cons_eq_ok.1 h
    intro m hm
    refine ih hrest m ?_
    rcases hm with hm | hm
    · exact .inl (hm.evaluateNode hnext)
    · rcases List.mem_cons.1 hm with rfl | hm
      · exact .inl (covers_of_evaluateNode hnext)
      · exact .inr hm

end Engine

namespace Graph

open Engine

variable {g : Graph} {order : List String}

/-- The order of a graph lists no id twice just if no id that waits for nothing stands for two
    nodes. Then it lists all ids, each after those it reads from, and an evaluation that
    succeeds has signals for every id, and a result for every output towards the host that is
    not hidden by a later node with its id. -/
theorem order_covers (h : g.order = .ok order) :
    (order.Nodup ↔ g.sources.Nodup) ∧ (g.sources.Nodup →
      (∀ id, id ∈ order ↔ id ∈ g.nodeIds) ∧
      (∀ n ∈ g.nodes, ∀ p ∈ n.inputs.values, order.idxOf p.node < order.idxOf n.id) ∧
      ∀ (r : Engine) (log : List Line) (s : Logged Engine),
        (Engine.evaluate g).runOn ⟨r, log⟩ = (.ok (), s) →
          (∀ id ∈ g.nodeIds, ∃ outlets, s.state.outputs.get? id = some outlets) ∧
          ∀ n, g.last? n.id = some n → n.kind = .output → ∀ name, n.params.name = some name →
            ∃ v, s.state.result? name = some v) := by
  refine ⟨nodup_order_iff h, fun hsources => ?_⟩
  have hmem := mem_order_iff h hsources
  refine ⟨hmem, fun n hn p hp => ?_, fun r log s hs => ?_⟩
  · have hid : n.id ∈ order := (hmem n.id).2 (List.mem_map.2 ⟨n, hn, rfl⟩)
    exact (isReady_order h hsources).idxOf_lt (feeds_iff.2 ⟨n, hn, rfl, p, hp, rfl⟩)
      List.not_mem_nil hid
  · obtain ⟨order', horder', hrun⟩ := exists_run_of_evaluate hs
    obtain rfl : order = order' := Except.ok.inj (h.symm.trans horder')
    -- the last node of every id is in the run
    have hlast {n : Node} (hn : g.last? n.id = some n) : s.state.Covers n := by
      have hnode : n ∈ g.nodes := List.mem_reverse.1 (List.mem_of_find?_eq_some hn)
      have hid : n.id ∈ order := (hmem n.id).2 (List.mem_map.2 ⟨n, hnode, rfl⟩)
      exact covers_of_run hrun n (.inr (List.mem_filterMap.2 ⟨n.id, hid, hn⟩))
    refine ⟨fun id hid => ?_, fun n hn hkind => (hlast hn).result hkind⟩
    obtain ⟨n, -, rfl, hn⟩ := last?_of_mem hid
    exact (hlast hn).outputs

/-- An output that hides a node with its id: the order lists the id once, and the output has
    its result. -/
theorem order_covers_hidden :
    ∃ g : Graph, ¬ g.nodeIds.Nodup ∧ g.order = .ok ["a", "s"] ∧ g.sources.Nodup ∧
      ∃ s, (Engine.evaluate g).runOn ⟨{}, []⟩ = (.ok (), s) ∧
        ∃ v, s.state.result? "o" = some v := by
  let output : Node :=
    { id := "s", kind := .output, params := { name := some "o" },
      inputs := ⟨[("in", ⟨"a", "out"⟩)]⟩ }
  let g : Graph := ⟨[{ id := "a", kind := .constant }, { id := "s", kind := .constant }, output]⟩
  have horder : g.order = .ok ["a", "s"] := by rfl
  have hsources : g.sources.Nodup := by decide
  have houtput : g.last? output.id = some output := by rfl
  have hrun := runOn_evaluate_of_ok horder {} []
  refine ⟨g, by decide, horder, hsources, _, hrun, ?_⟩
  exact (((order_covers horder).2 hsources).2.2 _ _ _ hrun).2 output houtput rfl "o" rfl

/-- Two nodes with one id make up for a node that reads itself: an order is found in which the
    first id stands twice and the other one not at all, and the evaluation succeeds without
    signals for it. -/
theorem order_repeated :
    ∃ text g, Graph.read? text = some g ∧ g.nodeIds = ["a", "a", "b"] ∧
      g.order = .ok ["a", "a"] ∧
      ∃ s, (Engine.evaluate g).runOn ⟨{}, []⟩ = (.ok (), s) ∧ s.state.outputs.get? "b" = none := by
  let constant := "\x7b\"id\":\"a\",\"type\":\"constant\"\x7d"
  let loop :=
    "\x7b\"id\":\"b\",\"type\":\"not\",\"inputs\":\x7b\"in\":\x7b\"node_id\":\"b\"\x7d\x7d\x7d"
  let text := "\x7b\"nodes\":[" ++ constant ++ "," ++ constant ++ "," ++ loop ++ "]\x7d"
  have hread : ((Graph.read? text).any fun g =>
      let (outcome, s) := (Engine.evaluate g).runOn ⟨{}, []⟩
      g.nodeIds = ["a", "a", "b"] && g.order = .ok ["a", "a"] && outcome = .ok () &&
        (s.state.outputs.get? "b").isNone) = true := by
    decide +kernel
  cases hg : Graph.read? text with
  | none =>
    rw [hg] at hread
    cases hread
  | some g =>
    simp only [hg, Option.any_some, Bool.and_eq_true, decide_eq_true_eq,
      Option.isNone_iff_eq_none] at hread
    obtain ⟨⟨⟨hids, horder⟩, houtcome⟩, hnone⟩ := hread
    exact ⟨text, g, hg, hids, horder, _, Prod.ext houtcome rfl, hnone⟩

end Graph

end RigExpr
