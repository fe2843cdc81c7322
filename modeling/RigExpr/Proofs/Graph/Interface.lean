import RigExpr.Proofs.Bindings
import RigExpr.Proofs.Graph.Interpretation

/-!
# The interface to the host

A graph starts with the inputs and outputs of the host (`Builder.bindings`). Each of them is
a node with its name, and the names are bound to the plugs of these nodes
(`Builder.Interface`). What is built later leaves the interface as it is, so the bindings
stay right, and an input carries what the host gives (`Interface.carries_input`).

* `Builder.exists_interface`: the interface of a new graph.
-/

namespace RigExpr

namespace Builder

/-- The inputs and outputs, with the kinds of their nodes. -/
def hosts (inputs outputs : List String) : List (Kind × String) :=
  inputs.map (Kind.input, ·) ++ outputs.map (Kind.output, ·)

/-- The nodes towards the host, and their plugs by name. -/
structure Interface (b : Builder) (hosts : List (Kind × String))
    (plugs : List (String × Value Plug)) : Prop where
  kinds : ∀ e ∈ hosts, e.1 = .input ∨ e.1 = .output
  nodup : (hosts.map (·.2)).Nodup
  names : plugs.map (·.1) = hosts.map (·.2)
  plug : ∀ name v, (name, v) ∈ plugs → ∃ n ∈ b.graph.nodes, v = .handle { node := n.id } ∧
    n.params = { name := some name } ∧ (n.kind, name) ∈ hosts
  host : ∀ n ∈ b.graph.nodes, n.kind = .input ∨ n.kind = .output →
    ∃ name, (name, .handle { node := n.id }) ∈ plugs

variable {env : String → Option Signal}

/-! ## A new graph -/

/-- The builder of an empty graph. -/
def Interpretation.empty (env : String → Option Signal) : Interpretation env where
  builder := {}
  value _ := default
  solution :=
    { nodup := List.nodup_nil
      known := fun _ _ h => by
        obtain ⟨n, hn, -⟩ := Graph.feeds_iff.1 h
        cases hn
      founded := ⟨fun id => ⟨id, fun source h => by
        obtain ⟨n, hn, -⟩ := Graph.feeds_iff.1 h
        cases hn⟩⟩
      outlet := fun _ h => by cases h
      outputs := fun _ h => by cases h
      distinct := fun _ h => by cases h }
  ids _ h := by cases h
  kinds _ h := by cases h
  sources _ h := by cases h
  constants _ _ h := by cases h

/-- An interface under construction: what is not in it is not there. -/
structure Stage (b : Builder) (hosts : List (Kind × String))
    (plugs : List (String × Value Plug)) : Prop extends Interface b hosts plugs where
  new : ∀ name, name ∉ hosts.map (·.2) → b.inputs.get? name = none ∧ b.outputs.get? name = none

variable {M : Interpretation env} {hosts : List (Kind × String)}
  {plugs : List (String × Value Plug)} {kind : Kind} {name : String}

/-- A node towards the host has a name of its own. -/
theorem Interface.name_mem (h : Interface M.builder hosts plugs) {n : Node}
    (hn : n ∈ M.builder.graph.nodes) (hkind : n.kind = .input ∨ n.kind = .output) :
    ∃ name, n.params = { name := some name } ∧ (n.kind, name) ∈ hosts := by
  obtain ⟨name, hplug⟩ := h.host n hn hkind
  obtain ⟨m, hm, heq, hparams, hmem⟩ := h.plug name _ hplug
  have hid : n.id = m.id := by simpa using heq
  obtain rfl := Engine.eq_of_id_eq M.solution.nodup hn hm hid
  exact ⟨name, hparams, hmem⟩

/-- A node towards the host comes in. -/
theorem Interface.push (h : Interface M.builder hosts plugs)
    (hkind : kind = .input ∨ kind = .output) (hnew : name ∉ hosts.map (·.2)) :
    ∃ M' : Interpretation env, M'.builder = (M.builder.push kind { name := some name } []).2 ∧
      Interface M'.builder (hosts ++ [(kind, name)])
        (plugs ++ [(name, .handle { node := nodeId kind (M.builder.made + 1) })]) := by
  have hs : ∃ s, Interpretation.Computes env kind { name := some name } [] s := by
    rcases hkind with rfl | rfl
    · exact ⟨(env name).getD default, fun n hkind hparams => by simp [Node.outputs, hkind, hparams]⟩
    · exact ⟨default, fun n hkind _ => by
        simp [Node.outputs, hkind, Inlet.get, Table.get?, Table.find]⟩
  obtain ⟨s, hs⟩ := hs
  have hkeys : (([] : List (String × Plug)).map (·.1)).Nodup := List.nodup_nil
  obtain ⟨M', hbuilder, -⟩ := Interpretation.exists_push hkeys
    (fun _ h => absurd h List.not_mem_nil) hs fun m hm _ hout heq => by
      -- another output has another name
      obtain ⟨name', hparams, hmem⟩ := h.name_mem hm (.inr hout)
      rw [hparams] at heq
      obtain rfl := Option.some.inj heq
      exact hnew (List.mem_map.2 ⟨_, hmem, rfl⟩)
  refine ⟨M', hbuilder, ?_⟩
  have hnodes : M'.builder.graph.nodes = M.builder.graph.nodes ++
      [{ id := nodeId kind (M.builder.made + 1), kind, params := { name := some name } }] := by
    rw [hbuilder]
    rfl
  refine ⟨fun e he => ?_, ?_, by simp [h.names], fun name' v hv => ?_, fun n hn hhost => ?_⟩
  · rcases List.mem_append.1 he with he | he
    · exact h.kinds e he
    · rwa [List.mem_singleton.1 he]
  · rw [List.map_append]
    exact List.Nodup.append h.nodup (by simp) (by simpa using hnew)
  · rw [hnodes]
    rcases List.mem_append.1 hv with hv | hv
    · obtain ⟨n, hn, hplug, hparams, hmem⟩ := h.plug name' v hv
      exact ⟨n, List.mem_append_left _ hn, hplug, hparams, List.mem_append_left _ hmem⟩
    · obtain ⟨rfl, rfl⟩ := Prod.mk.inj (List.mem_singleton.1 hv)
      exact ⟨_, List.mem_append_right _ List.mem_cons_self, rfl, rfl, by simp⟩
  · rw [hnodes] at hn
    rcases List.mem_append.1 hn with hn | hn
    · obtain ⟨name', hplug⟩ := h.host n hn hhost
      exact ⟨name', List.mem_append_left _ hplug⟩
    · obtain rfl := List.mem_singleton.1 hn
      exact ⟨name, List.mem_append_right _ List.mem_cons_self⟩

/-- A node towards the host comes in, and the tables of the host change for its name only. -/
theorem Stage.push (h : Stage M.builder hosts plugs) (hkind : kind = .input ∨ kind = .output)
    (hnew : name ∉ hosts.map (·.2)) {inputs outputs : Table String Plug}
    (hinputs : ∀ other, name ≠ other → inputs.get? other = M.builder.inputs.get? other)
    (houtputs : ∀ other, name ≠ other → outputs.get? other = M.builder.outputs.get? other) :
    ∃ M' : Interpretation env,
      M'.builder = { (M.builder.push kind { name := some name } []).2 with inputs, outputs } ∧
        Stage M'.builder (hosts ++ [(kind, name)])
          (plugs ++ [(name, .handle { node := nodeId kind (M.builder.made + 1) })]) := by
  obtain ⟨M₁, hbuilder, hinterface⟩ := h.toInterface.push hkind hnew
  refine ⟨{ M₁ with builder := { M₁.builder with inputs, outputs } },
    congrArg (fun b : Builder => { b with inputs, outputs }) hbuilder,
    ⟨hinterface.kinds, hinterface.nodup, hinterface.names, hinterface.plug, hinterface.host⟩,
    fun other hother => ?_⟩
  rw [List.map_append, List.mem_append, not_or] at hother
  have hne : name ≠ other := fun heq => hother.2 (by simp [heq])
  obtain ⟨hinput, houtput⟩ := h.new other hother.1
  exact ⟨(hinputs other hne).trans hinput, (houtputs other hne).trans houtput⟩

/-- An input of the host comes in. -/
theorem Stage.input (h : Stage M.builder hosts plugs) (hnew : name ∉ hosts.map (·.2))
    (log : List Line) :
    ∃ (M' : Interpretation env) (v : Value Plug) (log' : List Line),
      (Builder.input name none).runOn ⟨M.builder, log⟩ = (.ok v, ⟨M'.builder, log'⟩) ∧
        Stage M'.builder (hosts ++ [(.input, name)]) (plugs ++ [(name, v)]) := by
  let p : Plug := { node := nodeId .input (M.builder.made + 1) }
  let line : Line := ⟨.debug, "node " ++ p.node ++ ": " ++ Kind.input.title⟩
  obtain ⟨M', hbuilder, hstage⟩ := h.push (.inl rfl) hnew
    (fun _ hne => Table.get?_insert_of_ne M.builder.inputs p hne) fun _ _ => rfl
  refine ⟨M', .handle p, log ++ [line], ?_, hstage⟩
  rw [hbuilder, Builder.input, Action.runOn_bind, Action.runOn_state]
  dsimp only
  rw [(h.new name hnew).1]
  rfl

/-- An output of the host comes in. -/
theorem Stage.output (h : Stage M.builder hosts plugs) (hnew : name ∉ hosts.map (·.2))
    (log : List Line) :
    ∃ (M' : Interpretation env) (v : Value Plug) (log' : List Line),
      (Builder.output name).runOn ⟨M.builder, log⟩ = (.ok v, ⟨M'.builder, log'⟩) ∧
        Stage M'.builder (hosts ++ [(.output, name)]) (plugs ++ [(name, v)]) := by
  let p : Plug := { node := nodeId .output (M.builder.made + 1) }
  let line : Line := ⟨.debug, "node " ++ p.node ++ ": " ++ Kind.output.title⟩
  obtain ⟨M', hbuilder, hstage⟩ := h.push (.inr rfl) hnew (fun _ _ => rfl)
    fun _ hne => Table.get?_insert_of_ne M.builder.outputs p hne
  refine ⟨M', .handle p, log ++ [line], ?_, hstage⟩
  rw [hbuilder, Builder.output, Action.runOn_bind, Action.runOn_state]
  dsimp only
  rw [(h.new name hnew).2]
  rfl

/-- The inputs, or the outputs, come in one after the other. -/
theorem Stage.mapM {make : String → Build (Value Plug)}
    (hmake : ∀ {M : Interpretation env} {hosts : List (Kind × String)}
      {plugs : List (String × Value Plug)} {name : String},
      Stage M.builder hosts plugs → name ∉ hosts.map (·.2) → ∀ log : List Line,
      ∃ (M' : Interpretation env) (v : Value Plug) (log' : List Line),
        (make name).runOn ⟨M.builder, log⟩ = (.ok v, ⟨M'.builder, log'⟩) ∧
          Stage M'.builder (hosts ++ [(kind, name)]) (plugs ++ [(name, v)]))
    (names : List String) (hnodup : (hosts.map (·.2) ++ names).Nodup)
    (h : Stage M.builder hosts plugs) (log : List Line) :
    ∃ (M' : Interpretation env) (more : List (String × Value Plug)) (log' : List Line),
      (names.mapM fun name => do return (name, ← make name)).runOn ⟨M.builder, log⟩ =
        (.ok more, ⟨M'.builder, log'⟩) ∧
        Stage M'.builder (hosts ++ names.map (kind, ·)) (plugs ++ more) := by
  induction names generalizing M hosts plugs log with
  | nil => exact ⟨M, [], log, rfl, by simpa using h⟩
  | cons name names ih =>
    have hnew : name ∉ hosts.map (·.2) := fun hmem =>
      (List.nodup_append.1 hnodup).2.2 name hmem name List.mem_cons_self rfl
    obtain ⟨M₁, v, log₁, hrun, hstage⟩ := hmake h hnew log
    obtain ⟨M', more, log', hmore, hstage'⟩ := ih (by simpa using hnodup) hstage log₁
    refine ⟨M', (name, v) :: more, log', ?_, by simpa using hstage'⟩
    have hfirst : (do return (name, ← make name) : Build (String × Value Plug)).runOn
        ⟨M.builder, log⟩ = (.ok (name, v), ⟨M₁.builder, log₁⟩) := by
      rw [Action.runOn_bind_of_ok hrun]
      rfl
    rw [List.mapM_cons, Action.runOn_bind_of_ok hfirst, Action.runOn_bind_of_ok hmore]
    rfl

/-- The interface of a new graph. -/
theorem exists_interface (env : String → Option Signal) {inputs outputs : List String}
    (hnodup : (inputs ++ outputs).Nodup) (log : List Line) :
    ∃ (M : Interpretation env) (plugs : List (String × Value Plug)) (log' : List Line),
      (bindings inputs outputs).runOn ⟨{}, log⟩ = (.ok plugs, ⟨M.builder, log'⟩) ∧
        Interface M.builder (Builder.hosts inputs outputs) plugs := by
  have hempty : Stage (Interpretation.empty env).builder [] [] :=
    { kinds := fun _ h => absurd h List.not_mem_nil
      nodup := List.nodup_nil
      names := rfl
      plug := fun _ _ h => absurd h List.not_mem_nil
      host := fun _ h => absurd h List.not_mem_nil
      new := fun _ _ => ⟨rfl, rfl⟩ }
  obtain ⟨M₁, ins, log₁, hins, hstage⟩ := Stage.mapM Stage.input inputs
    (by simpa using (List.nodup_append.1 hnodup).1) hempty log
  obtain ⟨M, outs, log', houts, hstage'⟩ := Stage.mapM Stage.output outputs
    (by simpa [Function.comp_def] using hnodup) hstage log₁
  refine ⟨M, ins ++ outs, log', ?_, hstage'.toInterface⟩
  exact (Action.runOn_bind_of_ok hins _).trans (Action.runOn_bind_of_ok houts _)

/-! ## Names and plugs -/

namespace Interface

/-- What is built later leaves the interface as it is. -/
theorem grows {M' : Interpretation env} (h : Interface M.builder hosts plugs)
    (hgrows : M.Grows M') : Interface M'.builder hosts plugs := by
  refine ⟨h.kinds, h.nodup, h.names, fun name v hv => ?_, fun n hn hhost => ?_⟩
  · obtain ⟨n, hn, hplug⟩ := h.plug name v hv
    exact ⟨n, hgrows.mem hn, hplug⟩
  · obtain ⟨more, hmore, hinner⟩ := hgrows.nodes
    rw [hmore, List.mem_append] at hn
    rcases hn with hn | hn
    · exact h.host n hn hhost
    · exact absurd hhost (not_or.2 (hinner n hn))

variable (h : Interface M.builder hosts plugs)

include h

/-- A name stands for the plug of its node. -/
theorem exists_node (hmem : (kind, name) ∈ hosts) :
    ∃ n ∈ M.builder.graph.nodes, n.kind = kind ∧ n.params = { name := some name } ∧
      (name, .handle { node := n.id }) ∈ plugs := by
  have hname : name ∈ plugs.map (·.1) := by
    rw [h.names]
    exact List.mem_map.2 ⟨_, hmem, rfl⟩
  obtain ⟨⟨name, v⟩, hplug, rfl⟩ := List.mem_map.1 hname
  obtain ⟨n, hn, rfl, hparams, hkind⟩ := h.plug name v hplug
  have heq : (n.kind, name) = (kind, name) := List.inj_on_of_nodup_map h.nodup hkind hmem rfl
  exact ⟨n, hn, (Prod.mk.inj heq).1, hparams, hplug⟩

/-- Two names that stand for plugs with one text are one name. -/
theorem name_injective {name' : String} {v v' : Value Plug} (hv : (name, v) ∈ plugs)
    (hv' : (name', v') ∈ plugs) (htext : v.text = v'.text) : name = name' := by
  obtain ⟨n, hn, rfl, hparams, -⟩ := h.plug name v hv
  obtain ⟨n', hn', rfl, hparams', -⟩ := h.plug name' v' hv'
  obtain rfl := Engine.eq_of_id_eq M.solution.nodup hn hn' htext
  rw [hparams] at hparams'
  exact Option.some.inj (Params.mk.inj hparams').2.1

theorem nodup_names : (plugs.map (·.1)).Nodup := by
  rw [h.names]
  exact h.nodup

theorem nodup_texts : (plugs.map (·.2.text)).Nodup := by
  refine h.nodup_names.of_map.map_on fun e he e' he' htext => ?_
  have hname := h.name_injective he he' htext
  exact List.inj_on_of_nodup_map h.nodup_names he he' hname

/-- The names are bound to their plugs. -/
theorem get?_values {v : Value Plug} :
    (Bindings.empty.register plugs).values.get? name = some v ↔ (name, v) ∈ plugs := by
  rw [Bindings.get?_values_register h.nodup_names]
  exact or_iff_left fun h => nomatch h.2

/-- The plugs are described by their names. -/
theorem get?_names {v : Value Plug} (hv : (name, v) ∈ plugs) :
    (Bindings.empty.register plugs).names.get? v.text = some name :=
  Bindings.get?_names_register h.nodup_names h.nodup_texts (fun _ _ => rfl) hv

/-- An input carries what the host gives. -/
theorem carries_input (hmem : (Kind.input, name) ∈ hosts) {v : Value Plug}
    (hv : (name, v) ∈ plugs) : M.Carries v ((env name).getD default) := by
  obtain ⟨n, hn, hkind, hparams, hplug⟩ := h.exists_node hmem
  obtain rfl : v = .handle { node := n.id } := by
    have heq := List.inj_on_of_nodup_map h.nodup_names hv hplug rfl
    exact (Prod.mk.inj heq).2
  refine ⟨⟨rfl, n, hn, rfl, by simp [hkind]⟩, ?_⟩
  have houtputs := M.solution.outputs n hn
  simp only [Node.outputs, hkind, Node.given, hparams, Option.bind_some, Option.or_none,
    Except.ok.injEq] at houtputs
  have hsignal := congrArg (Table.get? · Kind.mainOutlet) houtputs
  exact (Option.some.inj hsignal).symm

end Interface

end Builder

end RigExpr
