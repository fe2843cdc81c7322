import RigExpr.Proofs.Graph.Session
import RigExpr.Proofs.Graph.Translation

/-!
# Rigs

A rig is a graph with inputs and outputs towards the host, where sources drive the outputs
(`Compiler.rig`). Evaluating it hands to the host, for each output that is driven, the signal
of the last expression that drives it (`Compiler.result_of_rig`), if the names of the inputs
that are read are clear. It can go wrong if they are not (`Compiler.result_of_rig_add`).

* `Interpretation.exists_drive`: driving an output changes its signal, and no other.
* `Driver.Fits.exists_emit`: one source.
* `Driver.exists_forM`: all sources, one after the other.
-/

namespace RigExpr

namespace Builder

variable {env : String → Option Signal} {M M' : Interpretation env}
  {hosts : List (Kind × String)} {plugs : List (String × Value Plug)} {p : Plug} {x : Node}
  {name : String} {s : Signal}

/-! ## Driving an output -/

theorem mem_nodes_connect {b : Builder} {id : String} {n : Node} :
    n ∈ (b.connect id p).graph.nodes ↔ ∃ m ∈ b.graph.nodes, m.connected id p = n := by
  rw [connect_eq]
  exact List.mem_map

/-- A connection does not touch the interface. -/
theorem Interface.connect {b : Builder} (h : Interface b hosts plugs) (id : String) (p : Plug) :
    Interface (b.connect id p) hosts plugs := by
  refine ⟨h.kinds, h.nodup, h.names, fun name v hv => ?_, fun n hn hhost => ?_⟩
  · obtain ⟨n, hn, hplug, hparams, hkind⟩ := h.plug name v hv
    exact ⟨n.connected id p, List.mem_map_of_mem hn, by simpa using hplug, by simpa using hparams,
      by simpa using hkind⟩
  · obtain ⟨m, hm, rfl⟩ := mem_nodes_connect.1 hn
    obtain ⟨name, hname⟩ := h.host m hm (by simpa using hhost)
    exact ⟨name, by simpa using hname⟩

theorem exists_node_connect (P : Kind → Prop) {b : Builder} {id node : String}
    (h : ∃ n ∈ b.graph.nodes, n.id = node ∧ P n.kind) :
    ∃ n ∈ (b.connect id p).graph.nodes, n.id = node ∧ P n.kind := by
  obtain ⟨n, hn, hid, hkind⟩ := h
  exact ⟨n.connected id p, mem_nodes_connect.2 ⟨n, hn, rfl⟩, by simpa using hid,
    by simpa using hkind⟩

theorem IsSource.connect {b : Builder} {q : Plug} (h : b.IsSource q) (id : String) (p : Plug) :
    (b.connect id p).IsSource q :=
  ⟨h.1, exists_node_connect (· ≠ .output) h.2⟩

theorem IsInner.connect {b : Builder} {q : Plug} (h : b.IsInner q) (id : String) (p : Plug) :
    (b.connect id p).IsInner q :=
  ⟨h.1, exists_node_connect (fun kind => kind ≠ .input ∧ kind ≠ .output) h.2⟩

theorem exists_runOn_drive {b b' : Builder} {v : Value Plug} {d : Plug} {log log' : List Line}
    (hkind : b.kind? d = some .output)
    (hmaterialize : (materialize v).runOn ⟨b, log⟩ = (.ok p, ⟨b', log'⟩))
    (hnode : d.node ∈ b'.graph.nodeIds) :
    ∃ log'', (drive v (.handle d)).runOn ⟨b, log⟩ = (.ok (), ⟨b'.connect d.node p, log''⟩) := by
  obtain ⟨n, hn⟩ : ∃ n, b'.graph.node? d.node = some n := by
    obtain ⟨m, hm, hid⟩ := List.mem_map.1 hnode
    exact Option.isSome_iff_exists.1 (List.find?_isSome.2 ⟨m, hm, by simpa using hid⟩)
  simp only [drive, Action.runOn_bind, Action.runOn_state, hkind, if_true, hmaterialize, hn,
    Action.runOn_change]
  split
  · exact ⟨_, rfl⟩
  · exact ⟨_, rfl⟩

namespace Interpretation

/-- What can be read is not an output. -/
theorem node_ne_of_isSource (hx : x ∈ M.builder.graph.nodes) (hkind : x.kind = .output)
    (hp : M.builder.IsSource p) : p.node ≠ x.id := by
  obtain ⟨-, n, hn, hid, hout⟩ := hp
  intro heq
  obtain rfl := Engine.eq_of_id_eq M.solution.nodup hn hx (hid.trans heq)
  exact hout hkind

/-- An output carries what it is connected to. -/
theorem exists_connect (hx : x ∈ M.builder.graph.nodes) (hkind : x.kind = .output)
    (hp : M.builder.IsSource p) :
    ∃ M' : Interpretation env, M'.builder = M.builder.connect x.id p ∧
      M'.value = Function.update M.value x.id (M.value p.node) := by
  have hsink (id : String) : ¬M.builder.graph.Feeds x.id id := by
    intro hfeeds
    obtain ⟨n, hn, -, q, hq, hnode⟩ := Graph.feeds_iff.1 hfeeds
    exact node_ne_of_isSource hx hkind (M.sources n hn q hq) hnode
  have hmem : p.node ∈ M.builder.graph.nodeIds := by
    obtain ⟨-, n, hn, hid, -⟩ := id hp
    exact hid ▸ List.mem_map.2 ⟨n, hn, rfl⟩
  refine ⟨{ builder := M.builder.connect x.id p
            value := Function.update M.value x.id (M.value p.node)
            solution :=
              M.solution.connect hx hkind hsink hmem (node_ne_of_isSource hx hkind hp) hp.1
            ids := fun m hm => ?_
            kinds := fun m hm => ?_
            sources := fun m hm q hq => ?_
            constants := fun text q hq => ?_ }, rfl, rfl⟩
  · obtain ⟨n, hn, rfl⟩ := mem_nodes_connect.1 hm
    rw [Node.id_connected, Node.kind_connected]
    exact M.ids n hn
  · obtain ⟨n, hn, rfl⟩ := mem_nodes_connect.1 hm
    rw [Node.id_connected, Node.kind_connected]
    exact M.kinds n hn
  · obtain ⟨n, hn, rfl⟩ := mem_nodes_connect.1 hm
    rcases Node.mem_values_connected hq with ⟨rfl, -⟩ | hq
    · exact hp.connect x.id q
    · exact (M.sources n hn q hq).connect x.id p
  · obtain ⟨hinner, htext⟩ := M.constants text q hq
    rw [Function.update_of_ne (node_ne_of_isSource hx hkind hinner.isSource)]
    exact ⟨hinner.connect x.id p, htext⟩

/-- The output with this name hands this signal to the host. -/
def Drives (M : Interpretation env) (name : String) (s : Signal) : Prop :=
  ∃ n ∈ M.builder.graph.nodes, n.kind = .output ∧ n.params.name = some name ∧ M.value n.id = s

theorem Drives.grows (h : M.Drives name s) (hgrows : M.Grows M') : M'.Drives name s := by
  obtain ⟨n, hn, hkind, hname, hs⟩ := h
  exact ⟨n, hgrows.mem hn, hkind, hname, (hgrows.value n hn).trans hs⟩

/-- Driving an output changes its signal, and no other. -/
theorem exists_drive (h : Interface M.builder hosts plugs) (hname : (Kind.output, name) ∈ hosts)
    {v d : Value Plug} (hd : (name, d) ∈ plugs) (hv : M.Carries v s) (log : List Line) :
    ∃ (M' : Interpretation env) (log' : List Line),
      (drive v d).runOn ⟨M.builder, log⟩ = (.ok (), ⟨M'.builder, log'⟩) ∧
        Interface M'.builder hosts plugs ∧ M'.Drives name s ∧
        ∀ other t, other ≠ name → M.Drives other t → M'.Drives other t := by
  obtain ⟨x, hx, hkind, hparams, hplug⟩ := h.exists_node hname
  obtain rfl : d = .handle { node := x.id } := by
    have heq := List.inj_on_of_nodup_map h.nodup_names hd hplug rfl
    exact (Prod.mk.inj heq).2
  obtain ⟨p, M₁, log₁, hmaterialize, hgrows, hp⟩ := yields_materialize hv.1 log
  obtain ⟨M', hbuilder, hvalue⟩ := exists_connect (hgrows.mem hx) hkind hp.1
  have hdriven : M'.Drives name s := by
    refine ⟨x.connected x.id p, hbuilder ▸ mem_nodes_connect.2 ⟨x, hgrows.mem hx, rfl⟩,
      by simpa using hkind, by simp [hparams], ?_⟩
    rw [hvalue, Node.id_connected, Function.update_self]
    exact hp.2.trans hv.2
  obtain ⟨log', hrun⟩ := exists_runOn_drive (d := { node := x.id }) (hkind ▸ M.kinds x hx)
    hmaterialize (List.mem_map.2 ⟨x, hgrows.mem hx, rfl⟩)
  refine ⟨M', log', by rw [hrun, hbuilder], hbuilder ▸ (h.grows hgrows).connect x.id p, hdriven,
    fun other t hother hdrives => ?_⟩
  obtain ⟨n, hn, hout, hname', rfl⟩ := hdrives.grows hgrows
  have hne : n.id ≠ x.id := by
    intro heq
    obtain rfl := Engine.eq_of_id_eq M₁.solution.nodup hn (hgrows.mem hx) heq
    rw [hparams] at hname'
    exact hother (Option.some.inj hname').symm
  exact ⟨n.connected x.id p, hbuilder ▸ mem_nodes_connect.2 ⟨n, hn, rfl⟩, by simpa using hout,
    by simpa using hname', by rw [hvalue, Node.id_connected, Function.update_of_ne hne]⟩

/-- An assignment drives its output. -/
theorem exists_assign {e : Logged (Evaluation Builder Plug)} (he : M.Represents hosts plugs e.state)
    (hname : (Kind.output, name) ∈ hosts) {v d : Value Plug} (hd : (name, d) ∈ plugs)
    (hv : M.Carries v s) :
    ∃ (M' : Interpretation env) (log : List Line),
      (Evaluation.assign .emit (some v) (some d)).runOn e =
        (.ok none, ⟨{ e.state with backend := M'.builder }, log⟩) ∧
        Interface M'.builder hosts plugs ∧ M'.Drives name s ∧
        ∀ other t, other ≠ name → M.Drives other t → M'.Drives other t := by
  obtain ⟨M', log, hdrive, hkept⟩ := exists_drive he.interface hname hd hv
    (e.log ++ [⟨.debug, "equal(" ++ v.text ++ ", " ++ d.text ++ ")"⟩])
  refine ⟨M', log, ?_, hkept⟩
  rw [← he.backend] at hdrive
  simp only [Evaluation.assign, Backend.drive, Action.runOn_bind, Action.runOn_say,
    Evaluation.onBackend, Primitive.onBackend, Action.runOn_zoom, Action.mapError_id, id_eq, hdrive]
  rfl

end Interpretation

end Builder

namespace Compiler

/-- Validation accepts the source, whatever names it is given. -/
def Accepts (config : Config) (source : String) : Prop :=
  ∃ (c : Compiler Builder Plug) (names : List (String × Value Plug)) (log : List Line)
    (report : Report) (s : Logged (Compiler Builder Plug)), c.config = config ∧
    (validate source names).runOn ⟨c, log⟩ = (.ok report, s)

/-- Build a graph with these inputs and outputs, and compile the sources into it. -/
def rig (inputs outputs sources : List String) : Run Builder Plug Unit := do
  let names ← Request.onBuilder (Builder.bindings inputs outputs)
  sources.forM fun source => do
    let _ ← emit source names

end Compiler

/-- A source that drives an output by an expression. -/
structure Driver where
  source : String
  output : String
  expression : Expr

namespace Driver

open Builder Interpretation Compiler

/-- The source drives one of the outputs, by an expression over the inputs whose names are
    clear. -/
structure Fits (config : Config) (inputs outputs : List String) (d : Driver) : Prop where
  parse : Statement.parse config.maxDepth d.source = .ok ⟨some d.output, d.expression⟩
  accepted : Accepts config d.source
  output : d.output ∈ outputs
  plain : ∀ t ∈ d.expression.tokens, t.IsPlain (· ∈ inputs)
  clear : ∀ name, .identifier name ∈ d.expression.tokens → IsClear name

variable {env : String → Option Signal} {M : Interpretation env} {config : Config}
  {inputs outputs : List String} {plugs : List (String × Value Plug)} {d : Driver}

/-! ## One source -/

/-- What is evaluated: the expression, and the assignment. -/
theorem foldNegation_tokens (d : Driver) :
    Token.foldNegation (Statement.mk (some d.output) d.expression).tokens =
      d.expression.folded.tokens ++ [.identifier d.output, .assign] :=
  d.expression.foldNegation_assignment d.output

namespace Fits

variable (h : d.Fits config inputs outputs)

include h

theorem mem_hosts : (Kind.output, d.output) ∈ hosts inputs outputs :=
  List.mem_append_right _ (List.mem_map.2 ⟨_, h.output, rfl⟩)

/-- Moving negations into numbers keeps the signal. -/
theorem signal_folded : d.expression.folded.signal env = d.expression.signal env :=
  d.expression.signal_folded fun _ ht => Statement.isWritten_of_parse h.parse _ ht

/-- What is evaluated is a plain expression without faults. -/
theorem translates : ∀ t ∈ d.expression.folded.tokens,
    Expr.Translates (hosts inputs outputs) t := by
  intro t ht
  refine ⟨?_, ?_⟩
  · cases t with
    | number | constant | list | negate | not | binary | ternary | alternative | assign
    | comparison => trivial
    | identifier name =>
      rw [Expr.tokens_folded] at ht
      have ht := Token.mem_foldNegation (by simp) ht
      exact ⟨List.mem_append_left _ (List.mem_map.2 ⟨name, h.plain _ ht, rfl⟩),
        Statement.isWritten_of_parse h.parse _ ht, h.clear name ht⟩
    | call | component | rotateOrder =>
      rw [Expr.tokens_folded] at ht
      exact h.plain _ (Token.mem_foldNegation (by simp) ht)
  · obtain ⟨c, names, log, report, s, rfl, hvalidate⟩ := h.accepted
    rcases validate_cases c h.parse names log with ⟨hfault, -⟩ | ⟨e, -, herror⟩
    · rw [d.foldNegation_tokens, Token.firstFault?, List.findSome?_eq_none_iff] at hfault
      exact hfault t (List.mem_reverse.2 (List.mem_append_left _ ht))
    · rw [hvalidate] at herror
      cases herror

/-- Evaluation drives the output, and no other. -/
theorem exists_evaluate {e : Logged (Evaluation Builder Plug)}
    (he : M.Represents (hosts inputs outputs) plugs e.state) :
    ∃ (M' : Interpretation env) (e' : Logged (Evaluation Builder Plug)),
      (Evaluation.Recursive.evaluate (.ofMode .emit)
        (Token.foldNegation (Statement.mk (some d.output) d.expression).tokens)).runOn e =
          (.ok none, e') ∧
        e'.state.backend = M'.builder ∧ Interface M'.builder (hosts inputs outputs) plugs ∧
        M'.Drives d.output (d.expression.signal env) ∧
        ∀ other t, other ≠ d.output → M.Drives other t → M'.Drives other t := by
  obtain ⟨n, -, -, -, hdestination⟩ := he.interface.exists_node h.mem_hosts
  obtain ⟨slot, M₀, e₀, hidentifier, -, he₀, rfl, rfl⟩ := evaluates_identifier hdestination
    ⟨{ e.state with left := d.expression.folded.tokens.reverse }, e.log⟩
    ⟨he.backend, he.values, he.names, he.interface, he.remembers⟩
  obtain ⟨slot, M₁, e₁, hexpression, hgrows, he₁, v, rfl, hv⟩ :=
    d.expression.folded.evaluates h.translates [] M₀ e₀ he₀
  rw [h.signal_folded] at hv
  obtain ⟨M', log, hassign, hinterface, hdrives, hothers⟩ :=
    exists_assign he₁ h.mem_hosts hdestination hv.carries
  refine ⟨M', ⟨{ e₁.state with backend := M'.builder }, log⟩, ?_, rfl, hinterface, hdrives,
    fun other t hne ht => hothers other t hne (ht.grows hgrows)⟩
  rw [d.foldNegation_tokens, Expr.evaluate_assignment]
  exact (Action.runOn_bind_of_ok hidentifier _).trans
    ((Action.runOn_bind_of_ok hexpression _).trans hassign)

/-- Compiling the source drives the output, and no other. -/
theorem exists_emit {c : Compiler Builder Plug} (hconfig : c.config = config)
    (hbackend : c.evaluation.backend = M.builder)
    (hinterface : Interface M.builder (hosts inputs outputs) plugs) (log : List Line) :
    ∃ (M' : Interpretation env) (s : Logged (Compiler Builder Plug)),
      (emit d.source plugs).runOn ⟨c, log⟩ = (.ok none, s) ∧ s.state.config = config ∧
        s.state.evaluation.backend = M'.builder ∧
        Interface M'.builder (hosts inputs outputs) plugs ∧
        M'.Drives d.output (d.expression.signal env) ∧
        ∀ other t, other ≠ d.output → M.Drives other t → M'.Drives other t := by
  subst hconfig
  have hrepresents : M.Represents (hosts inputs outputs) plugs (c.primed plugs).evaluation :=
    { backend := hbackend
      values := rfl
      names := rfl
      interface := hinterface
      remembers := fun _ _ hget => by cases hget }
  obtain ⟨log', hemit⟩ := exists_runOn_emit h.parse plugs log
  obtain ⟨M', e, hrun, hbuilder, hkept⟩ :=
    h.exists_evaluate (e := ⟨(c.primed plugs).evaluation, log'⟩) hrepresents
  have hdetects := (Statement.mk (some d.output) d.expression).detects
    (Evaluation.detect_emit (β := Builder) (Bindings.empty.register plugs).values) []
  obtain ⟨-, -, -, hleft⟩ := hdetects.ok _ none e rfl hrun
  refine ⟨M', ⟨{ c.primed plugs with evaluation := e.state }, e.log⟩, ?_, rfl, hbuilder, hkept⟩
  rw [hemit, runOn_run_of_ok (s := ⟨c.primed plugs, log'⟩) hrun hleft]
  rfl

end Fits

/-! ## All sources -/

/-- The last of the drivers of an output. -/
def last? (drivers : List Driver) (name : String) : Option Driver :=
  drivers.reverse.find? fun d => d.output = name

theorem last?_append (drivers : List Driver) (d : Driver) (name : String) :
    last? (drivers ++ [d]) name = if d.output = name then some d else last? drivers name := by
  rw [last?, List.reverse_append, List.reverse_singleton, List.singleton_append, List.find?_cons]
  by_cases hname : d.output = name <;> simp [hname, last?]

/-- Every output that is driven hands on the signal of the last expression that drives it. -/
def Settled (M : Interpretation env) (drivers : List Driver) : Prop :=
  ∀ name d, last? drivers name = some d → M.Drives name (d.expression.signal env)

theorem Settled.append {M' : Interpretation env} {drivers : List Driver} (h : Settled M drivers)
    (hd : M'.Drives d.output (d.expression.signal env))
    (hothers : ∀ other t, other ≠ d.output → M.Drives other t → M'.Drives other t) :
    Settled M' (drivers ++ [d]) := by
  intro name d' hlast
  rw [last?_append] at hlast
  split at hlast
  · next hname =>
    cases hlast
    exact hname ▸ hd
  · next hname => exact hothers name _ (Ne.symm hname) (h name d' hlast)

/-- The sources are compiled one after the other. -/
theorem exists_forM {drivers before : List Driver}
    (h : ∀ d ∈ drivers, d.Fits config inputs outputs) {c : Logged (Compiler Builder Plug)}
    (hconfig : c.state.config = config) (hbackend : c.state.evaluation.backend = M.builder)
    (hinterface : Interface M.builder (hosts inputs outputs) plugs) (hsettled : Settled M before) :
    ∃ (M' : Interpretation env) (s : Logged (Compiler Builder Plug)),
      ((drivers.map Driver.source).forM fun source => do
        let _ ← emit source plugs).runOn c = (.ok (), s) ∧
        s.state.evaluation.backend = M'.builder ∧ Settled M' (before ++ drivers) := by
  induction drivers generalizing M before c with
  | nil => exact ⟨M, c, rfl, hbackend, by rwa [List.append_nil]⟩
  | cons d drivers ih =>
    obtain ⟨M₁, c₁, hemit, hconfig₁, hbackend₁, hinterface₁, hdrives, hothers⟩ :=
      (h d List.mem_cons_self).exists_emit hconfig hbackend hinterface c.log
    obtain ⟨M', s, hrun, hbackend', hsettled'⟩ := ih (fun d hd => h d (List.mem_cons_of_mem _ hd))
      hconfig₁ hbackend₁ hinterface₁ (hsettled.append hdrives hothers)
    refine ⟨M', s, ?_, hbackend', by rwa [List.append_cons]⟩
    exact (Action.runOn_bind_of_ok (Action.runOn_bind_of_ok hemit _) _).trans hrun

end Driver

namespace Compiler

open Builder Driver

/-- The rig is built, and its outputs hand on the right signals, whatever the host gives. -/
theorem exists_rig (env : String → Option Signal) {config : Config} {inputs outputs : List String}
    {drivers : List Driver} (hnames : (inputs ++ outputs).Nodup)
    (h : ∀ d ∈ drivers, d.Fits config inputs outputs) :
    ∃ (M : Interpretation env) (s : Logged (Compiler Builder Plug)),
      (rig inputs outputs (drivers.map Driver.source)).runOn (Session.new config).compiler =
        (.ok (), s) ∧ s.state.evaluation.backend = M.builder ∧ Settled M drivers := by
  obtain ⟨M, plugs, log, hbindings, hinterface⟩ := exists_interface env hnames []
  have hnone : Settled M [] := fun _ _ hlast => by cases hlast
  obtain ⟨M', s, hrun, hbackend, hsettled⟩ := exists_forM h
    (c := ⟨{ config, evaluation := { backend := M.builder } }, log⟩) rfl rfl hinterface hnone
  refine ⟨M', s, ?_, hbackend, hsettled⟩
  have hnew : (Request.onBuilder (bindings inputs outputs)).runOn (Session.new config).compiler =
      (.ok plugs, ⟨{ config, evaluation := { backend := M.builder } }, log⟩) := by
    simp only [Request.onBuilder, onEvaluation, Evaluation.onBackend, Primitive.onBackend,
      Action.runOn_zoom, Action.mapError_id, Session.new, id_eq, hbindings]
    rfl
  exact (Action.runOn_bind_of_ok hnew _).trans hrun

/-- A rig hands to the host, for each output that is driven, the signal of the last expression
    that drives it. -/
theorem result_of_rig {config : Config} {inputs outputs : List String} {drivers : List Driver}
    (hnames : (inputs ++ outputs).Nodup) (h : ∀ d ∈ drivers, d.Fits config inputs outputs) :
    ∃ s, (rig inputs outputs (drivers.map Driver.source)).runOn (Session.new config).compiler =
        (.ok (), s) ∧
      ∀ (r : Engine) (log : List Line), ∃ r' log',
        (Engine.evaluate s.state.evaluation.backend.graph).runOn ⟨r, log⟩ = (.ok (), ⟨r', log'⟩) ∧
          ∀ name d, last? drivers name = some d →
            r'.result? name = some (d.expression.signal r.staging) := by
  obtain ⟨-, s, hrun, -⟩ := exists_rig (fun _ => none) hnames h
  refine ⟨s, hrun, fun r log => ?_⟩
  -- the run does not depend on what the host gives, but the signals do
  obtain ⟨M, s', hrun', hbackend, hsettled⟩ := exists_rig r.staging hnames h
  obtain rfl : s = s' := (Prod.mk.inj (hrun.symm.trans hrun')).2
  rw [hbackend]
  obtain ⟨r', log', hevaluate, hresults⟩ := Engine.evaluate_of_solution r M.solution log
  refine ⟨r', log', hevaluate, fun name d hlast => ?_⟩
  obtain ⟨n, hn, hkind, hname, hvalue⟩ := hsettled name d hlast
  rw [hresults n hn hkind name hname, hvalue]

theorem accepts_of_isOk {config : Config} {source : String}
    (h : ((validate source ([] : List (String × Value Plug))).runOn
      (Session.new config).compiler).1.isOk = true) : Accepts config source := by
  rcases hrun : (validate source ([] : List (String × Value Plug))).runOn
    (Session.new config).compiler with ⟨e | report, s⟩
  · rw [hrun] at h
    cases h
  · exact ⟨_, [], [], report, s, rfl, hrun⟩

/-- An output that is driven anew, by an expression with two negations. -/
theorem result_of_rig_rewired :
    let e : Expr := .binary .add (.unary .negate (.identifier "x"))
      (.unary .negate (.group (.binary .add (.number "1") (.number "1"))))
    let drivers : List Driver := [⟨"o = x", "o", .identifier "x"⟩, ⟨"o = -x + -(1 + 1)", "o", e⟩]
    (["x"] ++ ["o"]).Nodup ∧ (∀ d ∈ drivers, d.Fits {} ["x"] ["o"]) ∧
      ∃ s, (rig ["x"] ["o"] (drivers.map Driver.source)).runOn (Session.new {}).compiler =
          (.ok (), s) ∧
        ∀ (r : Engine) (log : List Line), ∃ r' log',
          (Engine.evaluate s.state.evaluation.backend.graph).runOn ⟨r, log⟩ = (.ok (), ⟨r', log'⟩) ∧
            r'.result? "o" = some (e.signal r.staging) := by
  intro e drivers
  have hclear : IsClear "x" := isClear_of_notMem (by decide) (by decide) (by decide)
  have hscan : Lexeme.scan "o = x" = .ok
      [⟨.word "o", ⟨0, 1⟩⟩, ⟨.symbol .assign, ⟨2, 3⟩⟩, ⟨.word "x", ⟨4, 5⟩⟩] := by
    rw [Lexeme.scan_eq_scanWithin]
    rfl
  have hscan' : Lexeme.scan "o = -x + -(1 + 1)" = .ok
      [⟨.word "o", ⟨0, 1⟩⟩, ⟨.symbol .assign, ⟨2, 3⟩⟩, ⟨.symbol .minus, ⟨4, 5⟩⟩,
        ⟨.word "x", ⟨5, 6⟩⟩, ⟨.symbol .plus, ⟨7, 8⟩⟩, ⟨.symbol .minus, ⟨9, 10⟩⟩,
        ⟨.symbol .openParen, ⟨10, 11⟩⟩, ⟨.number "1", ⟨11, 12⟩⟩, ⟨.symbol .plus, ⟨13, 14⟩⟩,
        ⟨.number "1", ⟨15, 16⟩⟩, ⟨.symbol .closeParen, ⟨16, 17⟩⟩] := by
    rw [Lexeme.scan_eq_scanWithin]
    rfl
  have haccepted : ∀ d ∈ drivers, ((validate d.source ([] : List (String × Value Plug))).runOn
      (Session.new {}).compiler).1.isOk = true := by
    decide +kernel
  have hfits : ∀ d ∈ drivers, d.Fits {} ["x"] ["o"] := by
    simp only [drivers, List.forall_mem_cons] at haccepted ⊢
    refine ⟨?_, ?_, nofun⟩
    · exact
        { parse := by rw [Statement.parse_eq hscan]; rfl
          accepted := accepts_of_isOk haccepted.1
          output := List.mem_cons_self
          plain := by simp [Expr.tokens, Token.IsPlain]
          clear := by simp [Expr.tokens, hclear] }
    · exact
        { parse := by rw [Statement.parse_eq hscan']; rfl
          accepted := accepts_of_isOk haccepted.2.1
          output := List.mem_cons_self
          plain := by simp [e, Expr.tokens, UnaryOp.token, Token.IsPlain]
          clear := by simp [e, Expr.tokens, UnaryOp.token, hclear] }
  refine ⟨by decide, hfits, ?_⟩
  obtain ⟨s, hrun, hevaluate⟩ := result_of_rig (by decide) hfits
  refine ⟨s, hrun, fun r log => ?_⟩
  obtain ⟨r', log', hr', hresult⟩ := hevaluate r log
  exact ⟨r', log', hr', hresult "o" _ rfl⟩

/-- An input that goes by the id of a node is mistaken for it: the output is `-4` where it should
    be `-12`. -/
theorem result_of_rig_add :
    let source := "o = -add_4 + -(1 + 1)"
    let e : Expr := .binary .add (.unary .negate (.identifier "add_4"))
      (.unary .negate (.group (.binary .add (.number "1") (.number "1"))))
    let s := (rig ["add_4"] ["o"] [source]).runOn (Session.new {}).compiler
    let r := (({} : Engine).stage "add_4" (.float 10)).2
    let r' := (Engine.evaluate s.2.state.evaluation.backend.graph).runOn ⟨r, []⟩
    Statement.parse ({} : Config).maxDepth source = .ok ⟨some "o", e⟩ ∧ Accepts {} source ∧
      s.1.isOk = true ∧ r'.1.isOk = true ∧ r'.2.state.result? "o" = some (.float (-4)) ∧
        e.signal r.staging = .float (-12) := by
  intro source e s r r'
  have hscan : Lexeme.scan "o = -add_4 + -(1 + 1)" = .ok
      [⟨.word "o", ⟨0, 1⟩⟩, ⟨.symbol .assign, ⟨2, 3⟩⟩, ⟨.symbol .minus, ⟨4, 5⟩⟩,
        ⟨.word "add_4", ⟨5, 10⟩⟩, ⟨.symbol .plus, ⟨11, 12⟩⟩, ⟨.symbol .minus, ⟨13, 14⟩⟩,
        ⟨.symbol .openParen, ⟨14, 15⟩⟩, ⟨.number "1", ⟨15, 16⟩⟩, ⟨.symbol .plus, ⟨17, 18⟩⟩,
        ⟨.number "1", ⟨19, 20⟩⟩, ⟨.symbol .closeParen, ⟨20, 21⟩⟩] := by
    rw [Lexeme.scan_eq_scanWithin]
    rfl
  have hrun : ((validate source ([] : List (String × Value Plug))).runOn
        (Session.new {}).compiler).1.isOk = true ∧
      s.1.isOk = true ∧ r'.1.isOk = true ∧ r'.2.state.result? "o" = some (.float (-4)) ∧
        e.signal r.staging = .float (-12) := by
    decide +kernel
  exact ⟨(Statement.parse_eq hscan _).trans rfl, accepts_of_isOk hrun.1, hrun.2⟩

end Compiler

end RigExpr
