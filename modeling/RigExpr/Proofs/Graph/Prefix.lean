import RigExpr.Proofs.Graph.Epoch
import RigExpr.Proofs.Graph.Permutation
import RigExpr.Proofs.Table

/-!
# How far an evaluation gets

An evaluation goes through an order of the graph until a node cannot be evaluated. What it
leaves behind is consistent at any rate: just the nodes before that one have signals, just the
outputs among them have handed something to the host, and to evaluate one of them again would
change nothing (`Engine.Carries`).

* `Engine.Settles.carries`: what a run has come to.
* `Engine.evaluate_carries_prefix`: what an evaluation leaves behind, however it ends.
-/

namespace RigExpr

namespace Engine

variable {g : Graph} {env : String → Option Signal} {done : List String} {n : Node} {r : Engine}

/-! ## Evaluating a node again -/

/-- The signals of just these nodes are there, with the results among them, and none of the
    nodes has anything to change about it. -/
structure Carries (g : Graph) (done : List String) (r : Engine) : Prop where
  outputs : ∀ id, r.outputs.contains id = true ↔ id ∈ done
  results : ∀ name, r.results.contains name = true ↔
    ∃ n ∈ g.nodes, n.id ∈ done ∧ n.kind = .output ∧ n.params.name = some name
  again : ∀ n ∈ g.nodes, n.id ∈ done → r.evaluateNode n = .ok r

/-- An output towards the host that is settled has a signal. -/
theorem Settled.exists_value? (h : r.Settled n) (hkind : n.kind = .output) :
    ∃ s, r.value? ⟨n.id, Kind.mainOutlet⟩ = some s := by
  obtain ⟨i, outlets, -, houtputs, hget⟩ := h
  rw [Node.outputs_of_output hkind, Except.ok.injEq] at houtputs
  exact ⟨i.get "in", by rw [value?, hget, ← houtputs]; rfl⟩

/-- What a settled node works out is recorded already. -/
theorem Settles.record_eq {outlets : Node.Outlets} (h : Settles g env done r) (hn : n ∈ g.nodes)
    (hid : n.id ∈ done) (hget : r.outputs.get? n.id = some outlets) : r.record n outlets = r := by
  have hresults : (r.record n outlets).results = r.results := by
    rw [record]
    split
    · next hkind hname hmain =>
      -- the host has what the output carries
      refine Table.insert_of_get? ((h.hands _ _).2 ⟨n, hn, hid, hkind, hname, ?_⟩)
      rw [value?, hget]
      exact hmain
    · rfl
  calc r.record n outlets
      = { r with results := (r.record n outlets).results
                 outputs := r.outputs.insert n.id outlets } := rfl
    _ = r := by rw [hresults, Table.insert_of_get? hget]

theorem Settles.carries (h : Settles g env done r) (hmem : ∀ id ∈ done, id ∈ g.nodeIds) :
    Carries g done r where
  outputs id := by
    rw [Table.contains]
    constructor
    · intro hsome
      by_contra hid
      rw [h.rest id hid] at hsome
      cases hsome
    · intro hid
      obtain ⟨n, hn, rfl⟩ := List.mem_map.1 (hmem id hid)
      obtain ⟨_, _, -, -, hget⟩ := h.settled n hn hid
      rw [hget, Option.isSome_some]
  results name := by
    rw [Table.contains, Option.isSome_iff_exists]
    constructor
    · rintro ⟨v, hv⟩
      obtain ⟨n, hn, hid, hkind, hname, -⟩ := (h.hands name v).1 hv
      exact ⟨n, hn, hid, hkind, hname⟩
    · rintro ⟨n, hn, hid, hkind, hname⟩
      obtain ⟨s, hs⟩ := (h.settled n hn hid).exists_value? hkind
      exact ⟨s, (h.hands name s).2 ⟨n, hn, hid, hkind, hname, hs⟩⟩
  again n hn hid := by
    obtain ⟨i, outlets, hinlet, houtputs, hget⟩ := h.settled n hn hid
    exact evaluateNode_eq_ok.2 ⟨i, outlets, hinlet, houtputs, (h.record_eq hn hid hget).symm⟩

/-! ## Why a node cannot be evaluated -/

/-- A node finds that an output which it reads has no signal, or it cannot work out its own. -/
def Fails (r : Engine) (n : Node) (e : GraphError) : Prop :=
  (∃ p ∈ n.inputs.values, r.value? p = none ∧ e = .missingOutput p.node p.outlet) ∨
    ∃ i fault, r.inlet n = .ok i ∧ n.outputs i = .error fault ∧ e = .evaluation n.id fault

theorem exists_of_read_eq_error {entries : List (String × Plug)} {e : GraphError}
    (h : r.read entries = .error e) :
    ∃ p ∈ entries.map (·.2), r.value? p = none ∧ e = .missingOutput p.node p.outlet := by
  induction entries with
  | nil => cases h
  | cons entry rest ih =>
    rw [read] at h
    cases hvalue : r.value? entry.2 with
    | none =>
      rw [hvalue] at h
      cases h
      exact ⟨entry.2, List.mem_cons_self, hvalue, rfl⟩
    | some s =>
      rw [hvalue] at h
      cases hrest : r.read rest with
      | ok signals =>
        rw [hrest] at h
        cases h
      | error e' =>
        rw [hrest] at h
        cases h
        obtain ⟨p, hp, hnone⟩ := ih hrest
        exact ⟨p, List.mem_cons_of_mem _ hp, hnone⟩

theorem fails_of_evaluateNode {e : GraphError} (h : r.evaluateNode n = .error e) : r.Fails n e := by
  rw [evaluateNode] at h
  cases hinlet : r.inlet n with
  | error e' =>
    rw [hinlet] at h
    cases h
    rw [inlet] at hinlet
    cases hread : r.read n.inputs.entries with
    | ok signals =>
      rw [hread] at hinlet
      cases hinlet
    | error e'' =>
      rw [hread] at hinlet
      cases hinlet
      exact .inl (exists_of_read_eq_error hread)
  | ok i =>
    rw [hinlet] at h
    cases houtputs : n.outputs i with
    | ok outlets =>
      simp [bind, Except.bind, houtputs, pure, Except.pure] at h
    | error fault =>
      simp only [bind, Except.bind, houtputs, Except.error.injEq] at h
      exact .inr ⟨i, fault, hinlet, houtputs, h.symm⟩

/-! ## Evaluations -/

/-- What an evaluation leaves behind, if ids and names of outputs are distinct. It is a new
    epoch in any case. Without an order of the graph there are no signals. Otherwise the nodes of
    a beginning of the order carry their signals: of all of it if the evaluation succeeds, and up
    to the first node that cannot be evaluated if it fails. -/
theorem evaluate_carries_prefix (hids : g.nodeIds.Nodup) (hnames : g.outputNames.Nodup)
    (r : Engine) (log : List Line) :
    let outcome := ((evaluate g).runOn ⟨r, log⟩).1
    let left := ((evaluate g).runOn ⟨r, log⟩).2.state
    left.epoch = min (r.epoch + 1) (lastEpoch) ∧
      match g.order with
      | .error e => outcome = .error e ∧ left.outputs.keys = [] ∧ left.results.keys = []
      | .ok order => ∃ done rest, order = done ++ rest ∧ Carries g done left ∧
          match outcome with
          | .ok () => rest = []
          | .error e => ∃ n ∈ g.nodes, ∃ later, rest = n.id :: later ∧
              left.evaluateNode n = .error e ∧ left.Fails n e := by
  intro outcome left
  refine ⟨(staged_evaluate g ⟨r, log⟩).2, ?_⟩
  cases horder : g.order with
  | error e =>
    have hrun : (evaluate g).runOn ⟨r, log⟩ = _ := runOn_evaluate_of_error horder r log
    refine ⟨congrArg Prod.fst hrun, ?_⟩
    simp only [left, hrun]
    exact ⟨rfl, rfl⟩
  | ok order =>
    have hsources := Graph.nodup_sources hids
    have hmem : ∀ id ∈ order, id ∈ g.nodeIds := fun id => (Graph.mem_order_iff horder hsources id).1
    have hrun : (evaluate g).runOn ⟨r, log⟩ = _ := runOn_evaluate_of_ok horder r log
    obtain ⟨done, rest, heq, hsettles, hend⟩ := (settles_begin r).exists_run hids hnames
      (Graph.isReady_order horder hsources) hmem
    refine ⟨done, rest, heq, ?_, ?_⟩
    · simp only [left, hrun]
      refine hsettles.carries fun id hid => hmem id ?_
      exact heq ▸ List.mem_append_left rest hid
    · simp only [outcome, left, hrun]
      rcases hend with ⟨hok, hrest⟩ | ⟨n, hn, later, e, hrest, herror, hnode⟩
      · rw [hok]
        exact hrest
      · rw [herror]
        exact ⟨n, hn, later, hrest, hnode, fails_of_evaluateNode hnode⟩

/-- In the last epoch, an evaluation that gets as far as a node which reads an output that its
    source does not have: the result before it is there, the one after it is not. -/
theorem evaluate_carries_prefix_missing :
    ∃ (g : Graph) (left : Logged Engine), g.nodeIds.Nodup ∧ g.outputNames.Nodup ∧
      g.order = .ok ["a", "first", "bad", "last"] ∧
      (evaluate g).runOn ⟨{ epoch := lastEpoch }, []⟩ = (.error (.missingOutput "a" "x"), left) ∧
      Carries g ["a", "first"] left.state ∧ left.state.epoch = lastEpoch := by
  let g : Graph := ⟨[
    { id := "a", kind := .constant, params := { value := some (.float 1) } },
    { id := "first", kind := .output, params := { name := some "o" },
      inputs := ⟨[("in", ⟨"a", "out"⟩)]⟩ },
    { id := "bad", kind := .sin, inputs := ⟨[("in", ⟨"a", "x"⟩)]⟩ },
    { id := "last", kind := .output, params := { name := some "p" },
      inputs := ⟨[("in", ⟨"bad", "out"⟩)]⟩ }]⟩
  have hids : g.nodeIds.Nodup := by decide
  have hnames : g.outputNames.Nodup := by decide
  have horder : g.order = .ok ["a", "first", "bad", "last"] := by rfl
  have hleft := evaluate_carries_prefix hids hnames { epoch := lastEpoch } []
  have hfirst : ((evaluate g).runOn ⟨{ epoch := lastEpoch }, []⟩).2.state.outputs.contains
      "first" = true := by rfl
  have hbad : ((evaluate g).runOn ⟨{ epoch := lastEpoch }, []⟩).2.state.outputs.contains
      "bad" = false := by rfl
  have hfails : ((evaluate g).runOn ⟨{ epoch := lastEpoch }, []⟩).1 =
      .error (.missingOutput "a" "x") := by rfl
  rw [horder] at hleft
  -- from here on it does not matter how the evaluation goes
  generalize hout : (evaluate g).runOn ⟨{ epoch := lastEpoch }, []⟩ = out
    at hleft hfirst hbad hfails
  obtain ⟨hepoch, done, rest, heq, hcarries, -⟩ := hleft
  rw [hcarries.outputs] at hfirst
  rw [← Bool.not_eq_true, hcarries.outputs] at hbad
  have hdone : done = ["a", "first"] := by
    rcases done with _ | ⟨x, _ | ⟨y, _ | ⟨z, done⟩⟩⟩ <;> grind
  exact ⟨g, out.2, hids, hnames, horder, hout.trans (Prod.ext hfails rfl), hdone ▸ hcarries, hepoch⟩

end Engine

end RigExpr
