import RigExpr.Proofs.Graph.Solution

/-!
# Steps of an evaluation

What the evaluation of a single node comes to, and what it leaves as it was. A node that is
evaluated works out its outputs from what it is given (`Engine.evaluateNode_eq_ok`), and they
are recorded under its id; what the host has staged is only read. Evaluations of whole graphs
are made up of such steps, so these are the only facts about the engine that they need.
-/

namespace RigExpr

/-- An output towards the host carries what it reads. -/
theorem Node.outputs_of_output {n : Node} (hkind : n.kind = .output) (i : Inlet) :
    n.outputs i = .ok (single (i.get "in")) := by
  simp only [outputs, hkind]

/-- An input from the host carries what is staged for it, or else the value of its own. -/
theorem Node.outputs_of_input {n : Node} (hkind : n.kind = .input) (i : Inlet) :
    n.outputs i = .ok (single ((i.staged.or n.params.value).getD default)) := by
  simp only [outputs, hkind]

namespace Engine

variable {g : Graph} {n : Node} {r r' : Engine} {outlets : Node.Outlets}

/-! ## What is recorded -/

theorem get?_outputs_record (id : String) :
    (r.record n outlets).outputs.get? id = if n.id = id then some outlets else r.outputs.get? id :=
  Table.get?_insert ..

/-- Only an output towards the host changes a result, and only the one of its name. -/
theorem result?_record {i : Inlet} (h : n.outputs i = .ok outlets) (name : String) :
    (r.record n outlets).result? name =
      if n.kind = .output ∧ n.params.name = some name then outlets.get? Kind.mainOutlet
      else r.result? name := by
  by_cases hkind : n.kind = .output
  · rw [Node.outputs_of_output hkind, Except.ok.injEq] at h
    subst h
    cases hname : n.params.name with
    | none => simp [result?, record, hkind, hname]
    | some own =>
      have hmain : (Node.single (i.get "in")).get? Kind.mainOutlet = some (i.get "in") := rfl
      simp [result?, record, hkind, hname, hmain, Table.get?_insert]
  · rw [if_neg fun hout => hkind hout.1, result?, record]
    split
    · next hout _ _ => exact absurd hout hkind
    · rfl

/-! ## What is read -/

theorem read_congr {entries : List (String × Plug)}
    (h : ∀ e ∈ entries, r.outputs.get? e.2.node = r'.outputs.get? e.2.node) :
    r.read entries = r'.read entries := by
  induction entries with
  | nil => rfl
  | cons e entries ih =>
    have hvalue : r.value? e.2 = r'.value? e.2 := by
      rw [value?, value?, h e List.mem_cons_self]
    rw [read, read, hvalue, ih fun e he => h e (List.mem_cons_of_mem _ he)]

/-- What a node is given depends on the nodes that it reads from and on what the host has
    staged. -/
theorem inlet_congr
    (hstaged : ∀ name, (r.input? name).map (·.value) = (r'.input? name).map (·.value))
    (h : ∀ p ∈ n.inputs.values, r.outputs.get? p.node = r'.outputs.get? p.node) :
    r.inlet n = r'.inlet n := by
  have hread : r.read n.inputs.entries = r'.read n.inputs.entries :=
    read_congr fun e he => h e.2 (List.mem_map_of_mem he)
  have hgiven : (n.params.name.bind r.input?).map (·.value) =
      (n.params.name.bind r'.input?).map (·.value) := by
    cases n.params.name with
    | none => rfl
    | some name => exact hstaged name
  rw [inlet, inlet, hread, hgiven]

theorem staged_of_inlet {i : Inlet} (h : r.inlet n = .ok i) :
    i.staged = (n.params.name.bind r.input?).map (·.value) := by
  rw [inlet] at h
  cases hread : r.read n.inputs.entries with
  | error e =>
    rw [hread] at h
    cases h
  | ok signals =>
    rw [hread] at h
    cases h
    rfl

/-! ## One node, and one after the other -/

/-- A node works out its outputs from what it is given, and they are recorded. -/
theorem evaluateNode_eq_ok :
    r.evaluateNode n = .ok r' ↔ ∃ i outlets, r.inlet n = .ok i ∧ n.outputs i = .ok outlets ∧
      r' = r.record n outlets := by
  rw [evaluateNode]
  cases hinlet : r.inlet n with
  | error e => simp [bind, Except.bind]
  | ok i =>
    cases houtputs : n.outputs i with
    | error fault => simp [bind, Except.bind, houtputs]
    | ok outlets => simp [bind, Except.bind, pure, Except.pure, houtputs, eq_comm]

theorem run_cons_eq_ok {rest : List Node} :
    r.run (n :: rest) = (.ok (), r') ↔
      ∃ next, r.evaluateNode n = .ok next ∧ next.run rest = (.ok (), r') := by
  rw [run]
  cases r.evaluateNode n <;> simp

/-! ## A whole graph -/

theorem runOn_evaluate_of_ok {order : List String} (h : g.order = .ok order) (r : Engine)
    (log : List Line) :
    (evaluate g).runOn ⟨r, log⟩ =
      ((r.begin.run (order.filterMap g.last?)).1, ⟨(r.begin.run (order.filterMap g.last?)).2,
        log ++ [⟨.trace, "evaluating " ++ toString order.length ++ " node(s)"⟩]⟩) := by
  simp [evaluate, Action.runOn_bind, h]

theorem runOn_evaluate_of_error {e : GraphError} (h : g.order = .error e) (r : Engine)
    (log : List Line) : (evaluate g).runOn ⟨r, log⟩ = (.error e, ⟨r.begin, log⟩) := by
  simp [evaluate, Action.runOn_bind, h]

/-- An evaluation that succeeds runs all nodes in an order of the graph. -/
theorem exists_run_of_evaluate {log : List Line} {s : Logged Engine}
    (h : (evaluate g).runOn ⟨r, log⟩ = (.ok (), s)) :
    ∃ order, g.order = .ok order ∧ r.begin.run (order.filterMap g.last?) = (.ok (), s.state) := by
  cases horder : g.order with
  | error e =>
    rw [runOn_evaluate_of_error horder] at h
    cases h
  | ok order =>
    rw [runOn_evaluate_of_ok horder, Prod.mk.injEq] at h
    refine ⟨order, rfl, Prod.ext h.1 ?_⟩
    rw [← h.2]

end Engine

end RigExpr
