import RigExpr.Proofs.Expr.Signal
import RigExpr.Proofs.Graph.Growth
import RigExpr.Proofs.Graph.Names

/-!
# Graphs under construction and their signals

A builder with the signals that its nodes carry, for what the host gives
(`Builder.Interpretation`). The graph of such a builder has a solution at every moment, and
building more of it leaves the signals that are there as they are (`Interpretation.Grows`).

`Interpretation.Yields` says of a step of the construction that it succeeds and what it
returns. Steps follow each other by `Yields.bind`, and each of them has a rule:

* `yields_addNode`: a node carries what it works out from the plugs it reads.
* `yields_constant`, `yields_materialize`: a value becomes a plug with its signal.
* `yields_emit`: a node with operands carries what it works out from their signals.
-/

namespace RigExpr

/-- The signal of a value, if the nodes of a graph carry `value`. -/
def Value.signal (value : String → Signal) : Value Plug → Signal
  | scalar x => .float x
  | bool b => .bool b
  | order o => .float (Number.ofIndex o.index)
  | pair a b => .joined [a.signal value, b.signal value]
  | triple a b c => .joined [a.signal value, b.signal value, c.signal value]
  | quad a b c d => .joined [a.signal value, b.signal value, c.signal value, d.signal value]
  | handle p => value p.node

namespace Value

theorem signal_of_items? {value : String → Signal} {v : Value Plug} {items : List (Value Plug)}
    (h : v.items? = some items) : v.signal value = .joined (items.map (signal value)) := by
  cases v with
  | scalar | bool | order | handle => cases h
  | pair | triple | quad => cases h; rfl

theorem signal_of_scalars? {value : String → Signal} {v : Value Plug} {xs : List Float}
    (h : v.scalars? = some xs) : v.signal value = .vector xs := by
  obtain ⟨items, hitems, hxs⟩ := Option.bind_eq_some_iff.1 h
  rw [signal_of_items? hitems]
  clear h hitems
  induction items generalizing xs with
  | nil => cases hxs; rfl
  | cons a items ih =>
    rw [List.mapM_cons] at hxs
    obtain ⟨x, hx, hrest⟩ := Option.bind_eq_some_iff.1 hxs
    obtain ⟨ys, hys, hcons⟩ := Option.bind_eq_some_iff.1 hrest
    cases hcons
    have htail : (items.map (signal value)).flatMap Signal.components = ys :=
      Signal.vector.inj (ih hys)
    cases a with
    | scalar y =>
      cases hx
      rw [List.map_cons, Signal.joined, List.flatMap_cons, htail]
      rfl
    | bool | order | pair | triple | quad | handle => cases hx

end Value

namespace Builder

/-- A plug that can be read: the default output of a node that is no output towards the
    host. -/
def IsSource (b : Builder) (p : Plug) : Prop :=
  p.outlet = Kind.mainOutlet ∧ ∃ n ∈ b.graph.nodes, n.id = p.node ∧ n.kind ≠ .output

/-- A plug of a node that is no part of the interface to the host. -/
def IsInner (b : Builder) (p : Plug) : Prop :=
  p.outlet = Kind.mainOutlet ∧
    ∃ n ∈ b.graph.nodes, n.id = p.node ∧ n.kind ≠ .input ∧ n.kind ≠ .output

theorem IsInner.isSource {b : Builder} {p : Plug} (h : b.IsInner p) : b.IsSource p := by
  obtain ⟨houtlet, n, hn, hid, -, houtput⟩ := h
  exact ⟨houtlet, n, hn, hid, houtput⟩

/-- A builder, with the signals of its nodes if the host gives `env`. -/
structure Interpretation (env : String → Option Signal) where
  builder : Builder
  value : String → Signal
  solution : builder.graph.Solution env value
  /-- The id of a node has a number that was given out. -/
  ids : ∀ n ∈ builder.graph.nodes, ∃ k ≤ builder.made, n.id = nodeId n.kind k
  kinds : ∀ n ∈ builder.graph.nodes, builder.kinds.get? n.id = some n.kind
  sources : ∀ n ∈ builder.graph.nodes, ∀ p ∈ n.inputs.values, builder.IsSource p
  /-- A constant is found by its text. -/
  constants : ∀ text p, builder.constants.get? text = some p →
    builder.IsInner p ∧ (value p.node).text = text

namespace Interpretation

variable {env : String → Option Signal} {M M' : Interpretation env}

/-- Nodes have come in that are neither inputs nor outputs of the host, and the signals of
    those that were there are the same. -/
structure Grows (M M' : Interpretation env) : Prop where
  nodes : ∃ more, M'.builder.graph.nodes = M.builder.graph.nodes ++ more ∧
    ∀ n ∈ more, n.kind ≠ .input ∧ n.kind ≠ .output
  value : ∀ n ∈ M.builder.graph.nodes, M'.value n.id = M.value n.id

theorem Grows.refl (M : Interpretation env) : M.Grows M :=
  ⟨⟨[], (List.append_nil _).symm, fun _ hn => absurd hn List.not_mem_nil⟩, fun _ _ => rfl⟩

theorem Grows.mem (h : M.Grows M') {n : Node} (hn : n ∈ M.builder.graph.nodes) :
    n ∈ M'.builder.graph.nodes := by
  obtain ⟨more, hmore, -⟩ := h.nodes
  rw [hmore]
  exact List.mem_append_left _ hn

theorem Grows.trans {M'' : Interpretation env} (h : M.Grows M') (h' : M'.Grows M'') :
    M.Grows M'' := by
  obtain ⟨more, hmore, hkinds⟩ := h.nodes
  obtain ⟨more', hmore', hkinds'⟩ := h'.nodes
  refine ⟨⟨more ++ more', by rw [hmore', hmore, List.append_assoc], fun n hn => ?_⟩, fun n hn => ?_⟩
  · exact (List.mem_append.1 hn).elim (hkinds n) (hkinds' n)
  · rw [h'.value n (h.mem hn), h.value n hn]

theorem Grows.isSource (h : M.Grows M') {p : Plug} (hp : M.builder.IsSource p) :
    M'.builder.IsSource p := by
  obtain ⟨houtlet, n, hn, hid, hkind⟩ := hp
  exact ⟨houtlet, n, h.mem hn, hid, hkind⟩

theorem Grows.isInner (h : M.Grows M') {p : Plug} (hp : M.builder.IsInner p) :
    M'.builder.IsInner p := by
  obtain ⟨houtlet, n, hn, hid, hkind⟩ := hp
  exact ⟨houtlet, n, h.mem hn, hid, hkind⟩

theorem Grows.over (h : M.Grows M') {v : Value Plug} (hv : v.Over M.builder.IsSource) :
    v.Over M'.builder.IsSource :=
  hv.imp fun _ => h.isSource

/-- The signal of a value stays as it is. -/
theorem Grows.signal (h : M.Grows M') {v : Value Plug} (hv : v.Over M.builder.IsSource) :
    v.signal M'.value = v.signal M.value := by
  induction v with
  | scalar | bool | order => rfl
  | handle p =>
    obtain ⟨-, n, hn, hid, -⟩ := hv
    rw [Value.signal, Value.signal, ← hid, h.value n hn]
  | pair a b iha ihb => rw [Value.signal, Value.signal, iha hv.1, ihb hv.2]
  | triple a b c iha ihb ihc => rw [Value.signal, Value.signal, iha hv.1, ihb hv.2.1, ihc hv.2.2]
  | quad a b c d iha ihb ihc ihd =>
    rw [Value.signal, Value.signal, iha hv.1, ihb hv.2.1, ihc hv.2.2.1, ihd hv.2.2.2]

/-! ## Steps of the construction -/

variable {ε ε' α β : Type}

/-- From here the action succeeds, and its result satisfies `post` where it leads to. -/
def Yields (M : Interpretation env) (a : Action ε Builder α)
    (post : α → Interpretation env → Prop) : Prop :=
  ∀ log, ∃ v M' log', a.runOn ⟨M.builder, log⟩ = (.ok v, ⟨M'.builder, log'⟩) ∧
    M.Grows M' ∧ post v M'

namespace Yields

variable {a : Action ε Builder α} {post post' : α → Interpretation env → Prop}

protected theorem pure {v : α} (h : post v M) : M.Yields (pure v : Action ε Builder α) post :=
  fun log => ⟨v, M, log, rfl, .refl M, h⟩

protected theorem bind {f : α → Action ε Builder β} {post : β → Interpretation env → Prop}
    (ha : M.Yields a post')
    (hf : ∀ v M', M.Grows M' → post' v M' → M'.Yields (f v) post) : M.Yields (a >>= f) post := by
  intro log
  obtain ⟨v, M', log', hrun, hgrows, hpost⟩ := ha log
  obtain ⟨w, M'', log'', hrun', hgrows', hpost'⟩ := hf v M' hgrows hpost log'
  exact ⟨w, M'', log'', by rw [Action.runOn_bind_of_ok hrun, hrun'], hgrows.trans hgrows', hpost'⟩

theorem mono (h : M.Yields a post') (hpost : ∀ v M', M.Grows M' → post' v M' → post v M') :
    M.Yields a post := by
  intro log
  obtain ⟨v, M', log', hrun, hgrows, hresult⟩ := h log
  exact ⟨v, M', log', hrun, hgrows, hpost v M' hgrows hresult⟩

theorem onBackend {a : Build α} (h : M.Yields a post) :
    M.Yields (Primitive.onBackend a) post := by
  intro log
  obtain ⟨v, M', log', hrun, hgrows, hpost⟩ := h log
  refine ⟨v, M', log', ?_, hgrows, hpost⟩
  simp only [Primitive.onBackend, Action.runOn_zoom, id_eq, hrun]
  rfl

theorem state {f : Builder → Action ε Builder α} (h : M.Yields (f M.builder) post) :
    M.Yields (Action.state >>= f) post := h

theorem change {f : Builder → Builder} {post : Unit → Interpretation env → Prop}
    (h : ∃ M' : Interpretation env, M'.builder = f M.builder ∧ M.Grows M' ∧ post () M') :
    M.Yields (Action.change f : Action ε Builder Unit) post := by
  intro log
  obtain ⟨M', hbuilder, hgrows, hpost⟩ := h
  exact ⟨(), M', log, by rw [hbuilder]; rfl, hgrows, hpost⟩

end Yields

/-- The value can be read, and has this signal. -/
def Carries (M : Interpretation env) (v : Value Plug) (s : Signal) : Prop :=
  v.Over M.builder.IsSource ∧ v.signal M.value = s

theorem Carries.grows {v : Value Plug} {s : Signal} (hv : M.Carries v s) (h : M.Grows M') :
    M'.Carries v s :=
  ⟨h.over hv.1, (h.signal hv.1).trans hv.2⟩

/-- The value is a plug that is no part of the interface to the host, and has this signal. -/
def Makes (M : Interpretation env) : Value Plug → Signal → Prop
  | .handle p, s => M.builder.IsInner p ∧ M.value p.node = s
  | _, _ => False

theorem Makes.carries {v : Value Plug} {s : Signal} (h : M.Makes v s) : M.Carries v s := by
  cases v with
  | handle p => exact ⟨h.1.isSource, h.2⟩
  | scalar | bool | order | pair | triple | quad => exact absurd h id

/-! ## Nodes -/

/-- A new number makes a new id. -/
theorem nodeId_notMem (M : Interpretation env) (kind : Kind) {k : Nat} (hk : M.builder.made < k) :
    nodeId kind k ∉ M.builder.graph.nodeIds := by
  intro hmem
  obtain ⟨n, hn, hid⟩ := List.mem_map.1 hmem
  obtain ⟨k', hk', hid'⟩ := M.ids n hn
  obtain rfl := nodeId_injective (hid'.symm.trans hid)
  exact absurd hk (Nat.not_lt.2 hk')

variable (env) in
/-- A node of this kind with these parameters works out `s` from the signals. -/
def Computes (kind : Kind) (params : Params) (signals : List (String × Signal)) (s : Signal) :
    Prop :=
  ∀ n : Node, n.kind = kind → n.params = params →
    n.outputs { signals := ⟨signals⟩, staged := params.name.bind env } = .ok (Node.single s)

section Push

variable {kind : Kind} {params : Params} {inputs : List (String × Plug)} {s : Signal}
  (hkeys : (inputs.map (·.1)).Nodup) (hsources : ∀ e ∈ inputs, M.builder.IsSource e.2)
  (hs : Computes env kind params (inputs.map fun e => (e.1, M.value e.2.node)) s)

include hkeys hsources hs

/-- A node comes in. -/
theorem exists_push (hdistinct : ∀ m ∈ M.builder.graph.nodes, kind = .output → m.kind = .output →
      params.name ≠ m.params.name) :
    ∃ M' : Interpretation env, M'.builder = (M.builder.push kind params inputs).2 ∧
      M'.value = Function.update M.value (nodeId kind (M.builder.made + 1)) s := by
  let n : Node :=
    { id := nodeId kind (M.builder.made + 1), kind, params, inputs := Table.ofList inputs }
  have hfresh : n.id ∉ M.builder.graph.nodeIds := M.nodeId_notMem kind (Nat.lt_succ_self _)
  have hne {m : Node} (hm : m ∈ M.builder.graph.nodes) : m.id ≠ n.id := fun heq =>
    hfresh (heq ▸ List.mem_map.2 ⟨m, hm, rfl⟩)
  have hentries : n.inputs.entries = inputs := Table.entries_ofList hkeys
  have hreads : ∀ p ∈ n.inputs.values, M.builder.IsSource p := by
    intro p hp
    rw [Table.values, hentries] at hp
    obtain ⟨e, he, rfl⟩ := List.mem_map.1 hp
    exact hsources e he
  have hgiven : n.given env M.value =
      { signals := ⟨inputs.map fun e => (e.1, M.value e.2.node)⟩
        staged := params.name.bind env } := by
    rw [Node.given, hentries]
  have hsolution := M.solution.append (n := n) (s := s) hfresh
    (fun p hp => by
      obtain ⟨houtlet, m, hm, hid, -⟩ := hreads p hp
      exact ⟨List.mem_map.2 ⟨m, hm, hid⟩, houtlet⟩)
    (by rw [hgiven]; exact hs n rfl rfl) hdistinct
  have hsource {p : Plug} (hp : M.builder.IsSource p) :
      (M.builder.push kind params inputs).2.IsSource p := by
    obtain ⟨houtlet, m, hm, hid, hkind⟩ := hp
    exact ⟨houtlet, m, List.mem_append_left _ hm, hid, hkind⟩
  have hmem {m : Node} (hm : m ∈ (M.builder.push kind params inputs).2.graph.nodes) :
      m ∈ M.builder.graph.nodes ∨ m = n := by
    rcases List.mem_append.1 hm with hm | hm
    · exact .inl hm
    · exact .inr (List.mem_singleton.1 hm)
  refine ⟨{ builder := (M.builder.push kind params inputs).2
            value := Function.update M.value n.id s
            solution := hsolution
            ids := fun m hm => ?_
            kinds := fun m hm => ?_
            sources := fun m hm p hp => ?_
            constants := fun text p hp => ?_ }, rfl, rfl⟩
  · rcases hmem hm with hm | rfl
    · obtain ⟨k, hk, hid⟩ := M.ids m hm
      exact ⟨k, Nat.le_succ_of_le hk, hid⟩
    · exact ⟨_, Nat.le_refl _, rfl⟩
  · rcases hmem hm with hm | rfl
    · exact (Table.get?_insert_of_ne _ _ (hne hm).symm).trans (M.kinds m hm)
    · exact Table.get?_insert_self ..
  · rcases hmem hm with hm | rfl
    · exact hsource (M.sources m hm p hp)
    · exact hsource (hreads p hp)
  · obtain ⟨⟨houtlet, m, hm, hid, hkind⟩, htext⟩ := M.constants text p hp
    rw [Function.update_of_ne (hid ▸ hne hm)]
    exact ⟨⟨houtlet, m, List.mem_append_left _ hm, hid, hkind⟩, htext⟩

/-- A node that is not part of the interface to the host carries what it works out. -/
theorem yields_addNode (hinput : kind ≠ .input) (houtput : kind ≠ .output) :
    M.Yields (addNode kind params inputs) fun p M' => M'.Makes (.handle p) s := by
  intro log
  obtain ⟨M', hbuilder, hvalue⟩ :=
    exists_push hkeys hsources hs fun _ _ hkind => absurd hkind houtput
  have hnodes : M'.builder.graph.nodes = M.builder.graph.nodes ++
      [{ id := nodeId kind (M.builder.made + 1), kind, params,
         inputs := Table.ofList inputs }] := by
    rw [hbuilder]
    rfl
  refine ⟨{ node := nodeId kind (M.builder.made + 1) }, M', _, by rw [hbuilder]; rfl,
    ⟨⟨_, hnodes, ?_⟩, fun n hn => ?_⟩, ⟨rfl, ?_⟩, ?_⟩
  · intro n hn
    obtain rfl := List.mem_singleton.1 hn
    exact ⟨hinput, houtput⟩
  · rw [hvalue, Function.update_of_ne]
    intro heq
    exact M.nodeId_notMem kind (Nat.lt_succ_self _) (heq ▸ List.mem_map.2 ⟨n, hn, rfl⟩)
  · rw [hnodes]
    exact ⟨_, List.mem_append_right _ List.mem_cons_self, rfl, hinput, houtput⟩
  · rw [hvalue, Function.update_self]

end Push

/-! ## Values -/

/-- A plug is found again by the text of its signal. -/
theorem exists_constant (M : Interpretation env) {p : Plug} {s : Signal}
    (hp : M.Makes (.handle p) s) :
    ∃ M' : Interpretation env,
      M'.builder = { M.builder with constants := M.builder.constants.insert s.text p } ∧
        M.Grows M' ∧ M'.Makes (.handle p) s := by
  refine ⟨{ M with
      builder := { M.builder with constants := M.builder.constants.insert s.text p }
      constants := fun text q hq => ?_ }, rfl,
    ⟨⟨[], (List.append_nil _).symm, fun _ hn => absurd hn List.not_mem_nil⟩, fun _ _ => rfl⟩, hp⟩
  rw [Table.get?_insert] at hq
  split at hq
  · next heq =>
    cases hq
    exact ⟨hp.1, heq ▸ congrArg Signal.text hp.2⟩
  · exact M.constants text q hq

/-- A constant is found where it was made, or made. -/
theorem yields_constant (M : Interpretation env) (s : Signal) :
    M.Yields (constant s) fun p M' => M'.Makes (.handle p) s := by
  refine .state ?_
  cases hget : M.builder.constants.get? s.text with
  | some p =>
    obtain ⟨hp, htext⟩ := M.constants _ p hget
    exact .pure ⟨hp, Signal.text_injective htext⟩
  | none =>
    have hs : Computes env .constant { value := some s } [] s := by
      intro n hkind hparams
      simp [Node.outputs, hkind, hparams]
    have hkeys : (([] : List (String × Plug)).map (·.1)).Nodup := List.nodup_nil
    refine (yields_addNode hkeys (fun _ h => absurd h List.not_mem_nil) hs (by decide)
      (by decide)).bind fun p M' _ hp => ?_
    obtain ⟨M'', hbuilder, hgrows, hvalue⟩ := M'.exists_constant hp
    exact .bind (.change ⟨M'', hbuilder, hgrows, hvalue⟩) fun _ _ _ hp => .pure hp

/-- Plugs join to the vector of all components. -/
theorem yields_join {parts : List Plug} (hparts : ∀ p ∈ parts, M.builder.IsSource p)
    (hlength : parts.length ≤ 2 ^ 64) :
    M.Yields (join parts) fun p M' =>
      M'.Makes (.handle p) (.joined (parts.map fun q => M.value q.node)) := by
  have hsignals : (Builder.numbered parts).map (fun e => (e.1, M.value e.2.node)) =
      numbered (parts.map fun q => M.value q.node) :=
    List.ext_getElem (by simp [numbered]) (by simp [numbered])
  have hsources : ∀ e ∈ numbered parts, M.builder.IsSource e.2 := by
    intro e he
    obtain ⟨i, hi, rfl⟩ := List.mem_mapIdx.1 he
    exact hparts _ (List.getElem_mem hi)
  refine yields_addNode (Variadic.nodup_numbered parts) hsources ?_ (by decide) (by decide)
  intro n hkind hparams
  rw [hsignals]
  simp only [Node.outputs, hkind, Inlet.numbered]
  rw [Variadic.collect_numbered (by simpa using hlength)]
  rfl

/-- Values that become plugs one after the other. -/
theorem yields_mapM {items : List (Value Plug)} (hitems : ∀ a ∈ items, a.Over M.builder.IsSource)
    (h : ∀ a ∈ items, ∀ M : Interpretation env, a.Over M.builder.IsSource →
      M.Yields (materialize a) fun p M' => M'.Carries (.handle p) (a.signal M.value)) :
    M.Yields (items.mapM materialize) fun parts M' =>
      (∀ p ∈ parts, M'.builder.IsSource p) ∧
        parts.map (fun p => M'.value p.node) = items.map (Value.signal M.value) := by
  induction items generalizing M with
  | nil => exact .pure ⟨fun _ h => absurd h List.not_mem_nil, rfl⟩
  | cons a items ih =>
    rw [List.mapM_cons]
    refine (h a List.mem_cons_self M (hitems a List.mem_cons_self)).bind fun p M' hgrows hp => ?_
    have hrest : ∀ b ∈ items, b.Over M.builder.IsSource := fun b hb =>
      hitems b (List.mem_cons_of_mem _ hb)
    refine (ih (fun b hb => hgrows.over (hrest b hb))
      fun b hb => h b (List.mem_cons_of_mem _ hb)).bind
      fun parts M'' hgrows' hparts => .pure ⟨?_, ?_⟩
    · intro q hq
      rcases List.mem_cons.1 hq with rfl | hq
      · exact hgrows'.isSource hp.1
      · exact hparts.1 q hq
    · have hfirst : M''.value p.node = a.signal M.value := (hp.grows hgrows').2
      rw [List.map_cons, List.map_cons, hfirst, hparts.2,
        List.map_congr_left fun b hb => hgrows.signal (hrest b hb)]

theorem materialize_of_items? {v : Value Plug} {items : List (Value Plug)}
    (h : v.items? = some items) :
    materialize v =
      match v.scalars? with
      | some xs => constant (.vector xs)
      | none => items.mapM materialize >>= join := by
  cases v with
  | scalar | bool | order | handle => cases h
  | pair x y => cases h; rw [materialize]; cases (Value.pair x y).scalars? <;> simp
  | triple x y z => cases h; rw [materialize]; cases (Value.triple x y z).scalars? <;> simp
  | quad x y z w => cases h; rw [materialize]; cases (Value.quad x y z w).scalars? <;> simp

/-- A sequence becomes a constant, or a node that joins its components. -/
theorem yields_sequence {v : Value Plug} {items : List (Value Plug)} (hi : v.items? = some items)
    (hv : v.Over M.builder.IsSource)
    (h : ∀ a ∈ items, ∀ M : Interpretation env, a.Over M.builder.IsSource →
      M.Yields (materialize a) fun p M' => M'.Carries (.handle p) (a.signal M.value)) :
    M.Yields (materialize v) fun p M' => M'.Makes (.handle p) (v.signal M.value) := by
  rw [materialize_of_items? hi]
  cases hxs : v.scalars? with
  | some xs =>
    rw [Value.signal_of_scalars? hxs]
    exact M.yields_constant (.vector xs)
  | none =>
    refine (yields_mapM (hv.items hi) h).bind fun parts M' _ hparts => ?_
    have hlength : parts.length = items.length := by
      simpa using congrArg List.length hparts.2
    have hbound : parts.length ≤ 2 ^ 64 := by
      have := (Value.length_of_items? hi).2
      omega
    rw [Value.signal_of_items? hi, ← hparts.2]
    exact yields_join hparts.1 hbound

/-- A value becomes a plug with its signal. -/
theorem yields_materialize {v : Value Plug} (hv : v.Over M.builder.IsSource) :
    M.Yields (materialize v) fun p M' => M'.Carries (.handle p) (v.signal M.value) := by
  induction v generalizing M with
  | handle p => exact .pure ⟨hv, rfl⟩
  | scalar x => exact (M.yields_constant (.float x)).mono fun _ _ _ h => h.carries
  | bool b => exact (M.yields_constant (.bool b)).mono fun _ _ _ h => h.carries
  | order o =>
    exact (M.yields_constant (.float (Number.ofIndex o.index))).mono fun _ _ _ h => h.carries
  | pair x y ihx ihy =>
    exact (yields_sequence (v := .pair x y) rfl hv
      (by simpa using ⟨fun _ => ihx, fun _ => ihy⟩)).mono fun _ _ _ h => h.carries
  | triple x y z ihx ihy ihz =>
    exact (yields_sequence (v := .triple x y z) rfl hv
      (by simpa using ⟨fun _ => ihx, fun _ => ihy, fun _ => ihz⟩)).mono fun _ _ _ h => h.carries
  | quad x y z w ihx ihy ihz ihw =>
    exact (yields_sequence (v := .quad x y z w) rfl hv
      (by simpa using ⟨fun _ => ihx, fun _ => ihy, fun _ => ihz, fun _ => ihw⟩)).mono
        fun _ _ _ h => h.carries

/-! ## Nodes with operands -/

/-- The signals of operands, by key. -/
def signals (M : Interpretation env) (operands : List (String × Value Plug)) :
    List (String × Signal) :=
  operands.map fun o => (o.1, o.2.signal M.value)

/-- Operands become plugs with their signals, under their keys. -/
theorem yields_wire {operands : List (String × Value Plug)}
    (h : ∀ o ∈ operands, o.2.Over M.builder.IsSource) :
    M.Yields (wire operands) fun inputs M' =>
      (∀ e ∈ inputs, M'.builder.IsSource e.2) ∧
        inputs.map (fun e => (e.1, M'.value e.2.node)) = M.signals operands := by
  induction operands generalizing M with
  | nil => exact .pure ⟨fun _ h => absurd h List.not_mem_nil, rfl⟩
  | cons o operands ih =>
    obtain ⟨key, v⟩ := o
    have hv : v.Over M.builder.IsSource := h (key, v) List.mem_cons_self
    have hrest : ∀ o ∈ operands, o.2.Over M.builder.IsSource := fun o ho =>
      h o (List.mem_cons_of_mem _ ho)
    refine (yields_materialize hv).bind fun p M' hgrows hp => ?_
    refine (ih fun o ho => hgrows.over (hrest o ho)).bind fun inputs M'' hgrows' hinputs =>
      .pure ⟨?_, ?_⟩
    · intro e he
      rcases List.mem_cons.1 he with rfl | he
      · exact hgrows'.isSource hp.1
      · exact hinputs.1 e he
    · have hsignals : M'.signals operands = M.signals operands :=
        List.map_congr_left fun o ho => by rw [hgrows.signal (hrest o ho)]
      have hfirst : M''.value p.node = v.signal M.value := (hp.grows hgrows').2
      rw [List.map_cons, hinputs.2, hsignals, hfirst]
      rfl

/-- A node with operands carries what it works out from their signals. -/
theorem yields_emit {kind : Kind} {params : Params} {operands : List (String × Value Plug)}
    {s : Signal} (hoperands : ∀ o ∈ operands, o.2.Over M.builder.IsSource)
    (hkeys : (operands.map (·.1)).Nodup) (hs : Computes env kind params (M.signals operands) s)
    (hinput : kind ≠ .input) (houtput : kind ≠ .output) :
    M.Yields (emit kind params operands) fun v M' => M'.Makes v s := by
  refine (yields_wire hoperands).bind fun inputs M' _ hinputs => ?_
  have hkeys' : (inputs.map (·.1)).Nodup := by
    have := congrArg (List.map (·.1)) hinputs.2
    simp only [List.map_map, signals, Function.comp_def] at this
    rwa [this]
  refine (yields_addNode hkeys' hinputs.1 (hinputs.2 ▸ hs) hinput houtput).bind
    fun p M'' _ hp => .pure hp

end Interpretation

end Builder

end RigExpr
