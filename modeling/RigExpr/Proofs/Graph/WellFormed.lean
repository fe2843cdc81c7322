import RigExpr.Graph.Builder
import RigExpr.Proofs.Action
import RigExpr.Proofs.Graph.Growth
import RigExpr.Proofs.Graph.Names
import RigExpr.Proofs.Table
import RigExpr.Proofs.Value

/-!
# Well-formed graphs

What holds of a graph under construction at all times (`Builder.Sound`): ids are distinct and
have the kinds that the builder keeps for them, a node reads outputs that earlier nodes have,
an output towards the host reads at most one, and the inputs and outputs of the host are
found by their names. Every step of the construction keeps this, also one that fails.

The outputs towards the host are nodes too, and can be read as any other; then the graph may
have a cycle. So `Sound` comes in two versions: a *strict* builder does not do that, as long
as it is not given their plugs to read.

* `Builder.Sound.push`, `Builder.Sound.connect`: the two ways in which a graph changes,
* `Builder.safe_perform`, `Builder.keeps_drive`: all operations keep it sound.
-/

namespace RigExpr

/-- Whether a node of this kind is no input or output of the host. -/
def Kind.IsInner (kind : Kind) : Prop := kind ≠ .input ∧ kind ≠ .output

namespace Builder

variable {strict : Bool} {b b' : Builder} {p : Plug}

/-- There is an output like this. -/
def Has (nodes : List Node) (p : Plug) : Prop :=
  ∃ n ∈ nodes, n.id = p.node ∧ n.kind.hasOutlet p.outlet = true

/-- A graph that makes sense, and a builder that knows it. -/
structure WellFormed (b : Builder) : Prop where
  nodup : b.graph.nodeIds.Nodup
  /-- The builder keeps the kind of each node, and no others. -/
  kinds : ∀ id kind, b.kinds.get? id = some kind ↔ ∃ n ∈ b.graph.nodes, n.id = id ∧ n.kind = kind
  /-- Only an output towards the host reads nodes that came later. -/
  earlier : ∀ before n after, b.graph.nodes = before ++ n :: after → n.kind ≠ .output →
    ∀ p ∈ n.inputs.values, Has before p
  /-- An output towards the host has at most one input. -/
  driven : ∀ n ∈ b.graph.nodes, n.kind = .output →
    n.inputs.entries = [] ∨ ∃ p, n.inputs.entries = [("in", p)] ∧ Has b.graph.nodes p
  /-- There is one node for each input and for each output of the host. -/
  hosts : ∀ n ∈ b.graph.nodes, ∀ m ∈ b.graph.nodes, n.kind = .input ∨ n.kind = .output →
    n.kind = m.kind → n.params.name = m.params.name → n = m

/-- Whether outputs of nodes of this kind may be read. -/
def Readable (strict : Bool) (kind : Kind) : Prop := strict = true → kind ≠ .output

theorem readable_of_ne {kind : Kind} (h : kind ≠ .output) : Readable strict kind := fun _ => h

/-- The plug is an output that its node has, and may be read. -/
def Offers (strict : Bool) (b : Builder) (p : Plug) : Prop :=
  ∃ n ∈ b.graph.nodes, n.id = p.node ∧ n.kind.hasOutlet p.outlet = true ∧ Readable strict n.kind

/-- The table has the nodes of this kind by their names. -/
structure Lists (nodes : List Node) (kind : Kind) (table : Table String Plug) : Prop where
  entry : ∀ name p, table.get? name = some p →
    ∃ n ∈ nodes, n.kind = kind ∧ n.params.name = some name ∧ p = { node := n.id }
  node : ∀ n ∈ nodes, n.kind = kind →
    ∃ name, n.params.name = some name ∧ table.get? name = some { node := n.id }

/-- The nodes and what they read are as they should be. -/
structure Wired (strict : Bool) (b : Builder) : Prop where
  /-- The id of a node has a number that was given out. -/
  ids : ∀ n ∈ b.graph.nodes, ∃ k ≤ b.made, n.id = nodeId n.kind k
  nodup : b.graph.nodeIds.Nodup
  kinds : ∀ id kind, b.kinds.get? id = some kind ↔ ∃ n ∈ b.graph.nodes, n.id = id ∧ n.kind = kind
  /-- A node reads outputs that earlier nodes have. -/
  earlier : ∀ before n after, b.graph.nodes = before ++ n :: after → n.kind ≠ .output →
    ∀ p ∈ n.inputs.values, ∃ m ∈ before, m.id = p.node ∧ m.kind.hasOutlet p.outlet = true ∧
      Readable strict m.kind
  /-- An output towards the host reads an output that some node has, if any. -/
  driven : ∀ n ∈ b.graph.nodes, n.kind = .output →
    n.inputs.entries = [] ∨ ∃ p, n.inputs.entries = [("in", p)] ∧ b.Offers strict p
  constants : ∀ text p, b.constants.get? text = some p → b.Offers strict p

/-- A builder as it should be. -/
structure Sound (strict : Bool) (b : Builder) : Prop extends Wired strict b where
  inputs : Lists b.graph.nodes .input b.inputs
  outputs : Lists b.graph.nodes .output b.outputs

/-- The nodes are still there, perhaps connected anew. -/
def Extends (b b' : Builder) : Prop :=
  ∀ n ∈ b.graph.nodes, ∃ n' ∈ b'.graph.nodes, n'.id = n.id ∧ n'.kind = n.kind

theorem Extends.refl (b : Builder) : b.Extends b := fun n hn => ⟨n, hn, rfl, rfl⟩

theorem Extends.trans {b'' : Builder} (h : b.Extends b') (h' : b'.Extends b'') :
    b.Extends b'' := by
  intro n hn
  obtain ⟨n', hn', hid, hkind⟩ := h n hn
  obtain ⟨n'', hn'', hid', hkind'⟩ := h' n' hn'
  exact ⟨n'', hn'', hid'.trans hid, hkind'.trans hkind⟩

theorem Extends.offers (h : b.Extends b') (hp : b.Offers strict p) : b'.Offers strict p := by
  obtain ⟨n, hn, hid, houtlet, hread⟩ := hp
  obtain ⟨n', hn', hid', hkind⟩ := h n hn
  exact ⟨n', hn', hid'.trans hid, hkind ▸ houtlet, hkind ▸ hread⟩

theorem Extends.over (h : b.Extends b') {v : Value Plug} (hv : v.Over (b.Offers strict)) :
    v.Over (b'.Offers strict) :=
  hv.imp fun _ => h.offers

/-- A builder that is kept sound and whose nodes stay. -/
def upkeep (strict : Bool) : Upkeep Builder where
  holds := Sound strict
  grows := Extends
  refl := .refl
  trans := .trans

/-- What may be read in a strict builder is an output that its node has. -/
theorem Offers.relax (h : b.Offers strict p) : b.Offers false p := by
  obtain ⟨n, hn, hid, houtlet, -⟩ := h
  exact ⟨n, hn, hid, houtlet, nofun⟩

theorem Wired.kind? (h : b.Wired strict) {n : Node} (hn : n ∈ b.graph.nodes) (hid : n.id = p.node) :
    b.kind? p = some n.kind :=
  (h.kinds p.node n.kind).2 ⟨n, hn, hid, rfl⟩

/-- What is kept besides the nodes does not matter. -/
theorem Wired.congr (h : b.Wired strict) (hgraph : b'.graph = b.graph) (hkinds : b'.kinds = b.kinds)
    (hconstants : b'.constants = b.constants) (hmade : b'.made = b.made) : b'.Wired strict := by
  obtain ⟨graph, kinds, constants, inputs, outputs, made, result⟩ := b'
  subst hgraph hkinds hconstants hmade
  exact ⟨h.ids, h.nodup, h.kinds, h.earlier, h.driven, h.constants⟩

/-! ## Nodes of the host -/

namespace Lists

variable {nodes : List Node} {kind : Kind} {table : Table String Plug} {n : Node}

theorem append_of_ne (h : Lists nodes kind table) (hn : n.kind ≠ kind) :
    Lists (nodes ++ [n]) kind table where
  entry name p hp := by
    obtain ⟨m, hm, hrest⟩ := h.entry name p hp
    exact ⟨m, List.mem_append_left _ hm, hrest⟩
  node m hm hkind := by
    rcases List.mem_append.1 hm with hm | hm
    · exact h.node m hm hkind
    · exact absurd (List.mem_singleton.1 hm ▸ hkind) hn

theorem append (h : Lists nodes kind table) {name : String} (hn : n.kind = kind)
    (hname : n.params.name = some name) (hnew : table.get? name = none) :
    Lists (nodes ++ [n]) kind (table.insert name { node := n.id }) where
  entry name' p hp := by
    rw [Table.get?_insert] at hp
    split at hp
    · next heq =>
      subst heq
      cases hp
      exact ⟨n, List.mem_append_right _ List.mem_cons_self, hn, hname, rfl⟩
    · obtain ⟨m, hm, hrest⟩ := h.entry name' p hp
      exact ⟨m, List.mem_append_left _ hm, hrest⟩
  node m hm hkind := by
    rcases List.mem_append.1 hm with hm | hm
    · obtain ⟨name', hname', hget⟩ := h.node m hm hkind
      refine ⟨name', hname', (Table.get?_insert_of_ne _ _ ?_).trans hget⟩
      rintro rfl
      rw [hnew] at hget
      cases hget
    · obtain rfl := List.mem_singleton.1 hm
      exact ⟨name, hname, Table.get?_insert_self ..⟩

theorem connect (h : Lists nodes kind table) (id : String) (p : Plug) :
    Lists (nodes.map (Node.connected id p)) kind table where
  entry name q hq := by
    obtain ⟨n, hn, hkind, hname, rfl⟩ := h.entry name q hq
    exact ⟨n.connected id p, List.mem_map_of_mem hn, by simpa using hkind, by simpa using hname,
      by simp⟩
  node m hm hkind := by
    obtain ⟨n, hn, rfl⟩ := List.mem_map.1 hm
    simpa using h.node n hn (by simpa using hkind)

/-- No two nodes of this kind have one name. -/
theorem eq_of_name_eq (h : Lists nodes kind table) {m : Node} (hn : n ∈ nodes) (hm : m ∈ nodes)
    (hkind : n.kind = kind) (hkind' : m.kind = kind) (hname : n.params.name = m.params.name) :
    n.id = m.id := by
  obtain ⟨name, hn', hget⟩ := h.node n hn hkind
  obtain ⟨name', hm', hget'⟩ := h.node m hm hkind'
  obtain rfl : name = name' := Option.some.inj (hn'.symm.trans (hname.trans hm'))
  exact congrArg Plug.node (Option.some.inj (hget.symm.trans hget'))

end Lists

theorem Sound.wellFormed (h : b.Sound strict) : b.WellFormed where
  nodup := h.nodup
  kinds := h.kinds
  earlier before n after hnodes hkind p hp := by
    obtain ⟨m, hm, hid, houtlet, -⟩ := h.earlier before n after hnodes hkind p hp
    exact ⟨m, hm, hid, houtlet⟩
  driven n hn hkind := by
    refine (h.driven n hn hkind).imp_right fun ⟨p, hp, m, hm, hid, houtlet, _⟩ => ?_
    exact ⟨p, hp, m, hm, hid, houtlet⟩
  hosts n hn m hm hhost hkind hname := by
    refine Engine.eq_of_id_eq h.nodup hn hm ?_
    rcases hhost with hhost | hhost
    · exact h.inputs.eq_of_name_eq hn hm hhost (hkind ▸ hhost) hname
    · exact h.outputs.eq_of_name_eq hn hm hhost (hkind ▸ hhost) hname

/-! ## Changes of the graph -/

theorem append_singleton_eq {before nodes after : List Node} {n m : Node}
    (h : nodes ++ [n] = before ++ m :: after) :
    (before = nodes ∧ m = n) ∨ ∃ after', nodes = before ++ m :: after' := by
  rcases List.eq_nil_or_concat after with rfl | ⟨after', last, rfl⟩
  · obtain ⟨rfl, hlast⟩ := List.append_inj' h rfl
    exact .inl ⟨rfl, (List.cons.inj hlast).1.symm⟩
  · refine .inr ⟨after', ?_⟩
    rw [List.concat_eq_append, ← List.cons_append, ← List.append_assoc] at h
    exact (List.append_inj' h rfl).1

theorem extends_push (b : Builder) (kind : Kind) (params : Params) (inputs : List (String × Plug)) :
    b.Extends (b.push kind params inputs).2 :=
  fun n hn => ⟨n, List.mem_append_left _ hn, rfl, rfl⟩

section Push

variable {kind : Kind} {params : Params} {inputs : List (String × Plug)}

/-- A node comes in that reads what is there. -/
theorem Wired.push (h : b.Wired strict) (hinputs : ∀ e ∈ inputs, b.Offers strict e.2)
    (houtput : kind = .output → inputs = []) : (b.push kind params inputs).2.Wired strict := by
  let n : Node := { id := nodeId kind (b.made + 1), kind, params, inputs := Table.ofList inputs }
  have hfresh : n.id ∉ b.graph.nodeIds := by
    intro hmem
    obtain ⟨m, hm, hid⟩ := List.mem_map.1 hmem
    obtain ⟨k, hk, hid'⟩ := h.ids m hm
    obtain rfl := nodeId_injective (hid'.symm.trans hid)
    omega
  have hextends := extends_push b kind params inputs
  have hmem {m : Node} (hm : m ∈ b.graph.nodes ++ [n]) : m ∈ b.graph.nodes ∨ m = n := by
    simpa using hm
  refine ⟨fun m hm => ?_, ?_, fun id kind' => ?_, fun before m after hnodes hkind q hq => ?_,
    fun m hm hkind => ?_, fun text q hq => hextends.offers (h.constants text q hq)⟩
  · rcases hmem hm with hm | rfl
    · obtain ⟨k, hk, hid⟩ := h.ids m hm
      exact ⟨k, Nat.le_succ_of_le hk, hid⟩
    · exact ⟨_, Nat.le_refl _, rfl⟩
  · show ((b.graph.nodes ++ [n]).map (·.id)).Nodup
    rw [List.map_append]
    refine List.nodup_append.2 ⟨h.nodup, by simp, fun a ha c hc heq => hfresh ?_⟩
    obtain rfl : c = n.id := List.mem_singleton.1 hc
    exact heq ▸ ha
  · show (b.kinds.insert n.id kind).get? id = some kind' ↔ ∃ m ∈ b.graph.nodes ++ [n], _
    rw [Table.get?_insert]
    constructor
    · split
      · next heq =>
        intro hkind
        exact ⟨n, List.mem_append_right _ List.mem_cons_self, heq, Option.some.inj hkind⟩
      · intro hkind
        obtain ⟨m, hm, hrest⟩ := (h.kinds id kind').1 hkind
        exact ⟨m, List.mem_append_left _ hm, hrest⟩
    · rintro ⟨m, hm, rfl, rfl⟩
      rcases hmem hm with hm | rfl
      · have hne : n.id ≠ m.id := fun heq => hfresh (heq ▸ List.mem_map.2 ⟨m, hm, rfl⟩)
        rw [if_neg hne]
        exact (h.kinds m.id m.kind).2 ⟨m, hm, rfl, rfl⟩
      · exact if_pos rfl
  · rcases append_singleton_eq hnodes with ⟨rfl, rfl⟩ | ⟨after', hbefore⟩
    · obtain ⟨e, he, rfl⟩ := Table.mem_values_ofList hq
      exact hinputs e he
    · exact h.earlier before m after' hbefore hkind q hq
  · rcases hmem hm with hm | rfl
    · refine (h.driven m hm hkind).imp_right fun hdriven => ?_
      obtain ⟨q, hq, hoffers⟩ := hdriven
      exact ⟨q, hq, hextends.offers hoffers⟩
    · left
      show (Table.ofList inputs).entries = []
      rw [houtput hkind]
      rfl

theorem offers_push (b : Builder) (hkind : Readable strict kind) :
    (b.push kind params inputs).2.Offers strict { node := (b.push kind params inputs).1 } :=
  ⟨_, List.mem_append_right _ List.mem_cons_self, rfl, rfl, hkind⟩

/-- A node comes in that is not part of the interface to the host. -/
theorem Sound.push (h : b.Sound strict) (hinputs : ∀ e ∈ inputs, b.Offers strict e.2)
    (hkind : kind.IsInner) : (b.push kind params inputs).2.Sound strict where
  toWired := h.toWired.push hinputs fun houtput => absurd houtput hkind.2
  inputs := h.inputs.append_of_ne hkind.1
  outputs := h.outputs.append_of_ne hkind.2

end Push

theorem extends_connect (b : Builder) (id : String) (p : Plug) : b.Extends (b.connect id p) :=
  fun n hn => ⟨n.connected id p, List.mem_map_of_mem hn, by simp, by simp⟩

theorem Sound.connect (h : b.Sound strict) {x : Node} (hx : x ∈ b.graph.nodes)
    (hkind : x.kind = .output) (hp : b.Offers strict p) : (b.connect x.id p).Sound strict := by
  have hextends := extends_connect b x.id p
  rw [connect_eq] at hextends ⊢
  have hids : (⟨b.graph.nodes.map (Node.connected x.id p)⟩ : Graph).nodeIds = b.graph.nodeIds := by
    simp [Graph.nodeIds]
  have hsame {n : Node} (hn : n ∈ b.graph.nodes) (hid : n.id = x.id) : n = x :=
    Engine.eq_of_id_eq h.nodup hn hx hid
  refine ⟨⟨fun m hm => ?_, hids ▸ h.nodup, fun id kind => ?_,
    fun before m after hnodes hm q hq => ?_, fun m hm hout => ?_,
    fun text q hq => hextends.offers (h.constants text q hq)⟩,
    h.inputs.connect x.id p, h.outputs.connect x.id p⟩
  · obtain ⟨n, hn, rfl⟩ := List.mem_map.1 hm
    simpa using h.ids n hn
  · refine (h.kinds id kind).trans ⟨?_, ?_⟩
    · rintro ⟨n, hn, hid, hkind⟩
      exact ⟨n.connected x.id p, List.mem_map_of_mem hn, by simpa using hid, by simpa using hkind⟩
    · rintro ⟨m, hm, hid, hkind⟩
      obtain ⟨n, hn, rfl⟩ := List.mem_map.1 hm
      exact ⟨n, hn, by simpa using hid, by simpa using hkind⟩
  · -- only the output itself reads anything new
    obtain ⟨before', rest, hsplit, rfl, hrest⟩ := List.map_eq_append_iff.1 hnodes
    obtain ⟨n, after', rfl, rfl, rfl⟩ := List.map_eq_cons_iff.1 hrest
    have hn : n ∈ b.graph.nodes := hsplit ▸ List.mem_append_right _ List.mem_cons_self
    have hne : n.id ≠ x.id := fun hid => hm (by simpa [hsame hn hid] using hkind)
    rw [Node.connected_of_ne hne] at hq hm
    obtain ⟨m, hmem, hid, houtlet, hread⟩ := h.earlier before' n after' hsplit hm q hq
    exact ⟨m.connected x.id p, List.mem_map_of_mem hmem, by simpa using hid, by simpa using houtlet,
      by simpa using hread⟩
  · obtain ⟨n, hn, rfl⟩ := List.mem_map.1 hm
    by_cases hid : n.id = x.id
    · obtain rfl := hsame hn hid
      refine .inr ⟨p, ?_, hextends.offers hp⟩
      rw [Node.connected, if_pos rfl]
      rcases h.driven n hn hkind with hentries | ⟨q, hentries, -⟩
      · simp [Table.insert, hentries, Table.put]
      · simp [Table.insert, hentries, Table.put]
    · rw [Node.connected_of_ne hid]
      rw [Node.kind_connected] at hout
      refine (h.driven n hn hout).imp_right fun hdriven => ?_
      obtain ⟨q, hq, hoffers⟩ := hdriven
      exact ⟨q, hq, hextends.offers hoffers⟩

/-! ## Steps of the construction -/

/-- The step keeps the builder sound, and its value may be read. -/
def Safe {ε : Type} (strict : Bool) (b : Builder) (a : Action ε Builder (Value Plug)) : Prop :=
  (upkeep strict).Keeps b a fun v b' => v.Over (b'.Offers strict)

section Steps

variable {kind : Kind} {params : Params}

theorem keeps_addNode (h : b.Sound strict) {inputs : List (String × Plug)}
    (hinputs : ∀ e ∈ inputs, b.Offers strict e.2) (hkind : kind.IsInner) :
    (upkeep strict).Keeps b (addNode kind params inputs) fun p b' => b'.Offers strict p :=
  fun _ => ⟨h.push hinputs hkind, extends_push b kind params inputs, fun _ hp =>
    Except.ok.inj hp ▸ offers_push b (readable_of_ne hkind.2)⟩

theorem keeps_constant (h : b.Sound strict) (s : Signal) :
    (upkeep strict).Keeps b (constant s) fun p b' => b'.Offers strict p := by
  refine .state ?_
  split
  · next p hp => exact .pure h (h.constants _ _ hp)
  · refine .bind (keeps_addNode h (fun _ h => absurd h List.not_mem_nil) ⟨nofun, nofun⟩)
      fun p t ht _ hp => ?_
    have ht' : ({ t with constants := t.constants.insert s.text p } : Builder).Sound strict := ?_
    · exact .change (.refl t) (.pure ht' hp)
    refine ⟨⟨ht.ids, ht.nodup, ht.kinds, ht.earlier, ht.driven, fun text q hq => ?_⟩,
      ht.inputs, ht.outputs⟩
    rw [Table.get?_insert] at hq
    split at hq
    · cases hq
      exact hp
    · exact ht.constants text q hq

theorem keeps_join (h : b.Sound strict) {parts : List Plug}
    (hparts : ∀ p ∈ parts, b.Offers strict p) :
    (upkeep strict).Keeps b (join parts) fun p b' => b'.Offers strict p := by
  refine keeps_addNode h (fun e he => ?_) ⟨nofun, nofun⟩
  obtain ⟨i, hi, rfl⟩ := List.mem_mapIdx.1 he
  exact hparts _ (List.getElem_mem hi)

/-- The plug of a value may be read if the plugs in it may. -/
theorem keeps_materialize {v : Value Plug} (h : b.Sound strict) (hv : v.Over (b.Offers strict)) :
    (upkeep strict).Keeps b (materialize v) fun p b' => b'.Offers strict p := by
  induction v generalizing b with
  | handle p => exact .pure h hv
  | scalar | bool | order => exact keeps_constant h _
  | pair x y ihx ihy =>
    rw [materialize]
    split
    · exact keeps_constant h _
    · refine .bind (ihx h hv.1) fun p b₁ h₁ e₁ hp => ?_
      refine .bind (ihy h₁ (e₁.over hv.2)) fun q b₂ h₂ e₂ hq => ?_
      exact keeps_join h₂ (by simpa using ⟨e₂.offers hp, hq⟩)
  | triple x y z ihx ihy ihz =>
    rw [materialize]
    split
    · exact keeps_constant h _
    · refine .bind (ihx h hv.1) fun p b₁ h₁ e₁ hp => ?_
      refine .bind (ihy h₁ (e₁.over hv.2.1)) fun q b₂ h₂ e₂ hq => ?_
      refine .bind (ihz h₂ ((e₁.trans e₂).over hv.2.2)) fun r b₃ h₃ e₃ hr => ?_
      exact keeps_join h₃ (by simpa using ⟨(e₂.trans e₃).offers hp, e₃.offers hq, hr⟩)
  | quad x y z w ihx ihy ihz ihw =>
    rw [materialize]
    split
    · exact keeps_constant h _
    · refine .bind (ihx h hv.1) fun p b₁ h₁ e₁ hp => ?_
      refine .bind (ihy h₁ (e₁.over hv.2.1)) fun q b₂ h₂ e₂ hq => ?_
      refine .bind (ihz h₂ ((e₁.trans e₂).over hv.2.2.1)) fun r b₃ h₃ e₃ hr => ?_
      refine .bind (ihw h₃ ((e₁.trans (e₂.trans e₃)).over hv.2.2.2)) fun t b₄ h₄ e₄ ht => ?_
      exact keeps_join h₄ (by
        simpa using ⟨(e₂.trans (e₃.trans e₄)).offers hp, (e₃.trans e₄).offers hq, e₄.offers hr, ht⟩)

theorem keeps_wire {operands : List (String × Value Plug)} (h : b.Sound strict)
    (hops : ∀ e ∈ operands, e.2.Over (b.Offers strict)) :
    (upkeep strict).Keeps b (wire operands) fun inputs b' =>
      ∀ e ∈ inputs, b'.Offers strict e.2 := by
  induction operands generalizing b with
  | nil => exact .pure h fun _ he => absurd he List.not_mem_nil
  | cons e operands ih =>
    obtain ⟨he, hrest⟩ := List.forall_mem_cons.1 hops
    refine .bind (keeps_materialize h he) fun p b₁ h₁ e₁ hp => ?_
    refine .bind (ih h₁ fun e he => e₁.over (hrest e he)) fun inputs b₂ h₂ e₂ hinputs => ?_
    exact .pure h₂ (List.forall_mem_cons.2 ⟨e₂.offers hp, hinputs⟩)

theorem safe_emit {operands : List (String × Value Plug)} (h : b.Sound strict)
    (hops : ∀ e ∈ operands, e.2.Over (b.Offers strict)) (hkind : kind.IsInner) :
    b.Safe strict (emit kind params operands) := by
  refine .bind (keeps_wire h hops) fun inputs b₁ h₁ _ hinputs => ?_
  refine .bind (keeps_addNode h₁ hinputs hkind) fun p b₂ h₂ _ hp => ?_
  exact .pure h₂ hp

end Steps

/-! ## Operations -/

section Operations

variable {v x y : Value Plug} {args : List (Value Plug)}

/-- The operands and the order come from the arguments. -/
theorem splitOrder_over {P : Plug → Prop} (hargs : ∀ v ∈ args, v.Over P) :
    (∀ v ∈ (b.splitOrder args).1, v.Over P) ∧ ∀ v, (b.splitOrder args).2 = some v → v.Over P := by
  rw [splitOrder]
  split
  · next last hlast =>
    split
    · refine ⟨fun v hv => hargs v (List.dropLast_subset _ hv), fun v hv => ?_⟩
      cases hv
      exact hargs last (List.mem_of_getLast? hlast)
    · exact ⟨hargs, nofun⟩
  · exact ⟨hargs, nofun⟩

theorem numbered_over {P : Plug → Prop} (hargs : ∀ v ∈ args, v.Over P) :
    ∀ e ∈ numbered args, e.2.Over P := by
  intro e he
  obtain ⟨i, hi, rfl⟩ := List.mem_mapIdx.1 he
  exact hargs _ (List.getElem_mem hi)

theorem safe_rotation {kind : Kind} {operands : List (String × Value Plug)}
    {order : Option (Value Plug)} (h : b.Sound strict)
    (hops : ∀ e ∈ operands, e.2.Over (b.Offers strict))
    (horder : ∀ v, order = some v → v.Over (b.Offers strict)) (hkind : kind.IsInner) :
    b.Safe strict (rotation kind operands order) := by
  unfold rotation
  split
  · exact safe_emit h hops hkind
  · next v _ =>
    refine safe_emit h (fun e he => ?_) hkind
    rcases List.mem_append.1 he with he | he
    · exact hops e he
    · obtain rfl := List.mem_singleton.1 he
      exact horder v rfl
  · exact safe_emit h hops hkind

theorem safe_euler (h : b.Sound strict) (hargs : ∀ v ∈ args, v.Over (b.Offers strict)) :
    b.Safe strict (euler args) := by
  obtain ⟨hops, horder⟩ := splitOrder_over (b := b) hargs
  refine .state ?_
  generalize b.splitOrder args = split at hops horder
  obtain ⟨operands, order⟩ := split
  dsimp only at hops horder ⊢
  split
  · exact safe_rotation h (by simpa using hops) horder ⟨nofun, nofun⟩
  · exact safe_rotation h (numbered_over hops) horder ⟨nofun, nofun⟩
  · exact .throw h

/-- Another output of a node that has it. -/
theorem Offers.outlet (h : b.Sound strict) {kind : Kind} (hp : b.Offers strict p)
    (hkind : b.kind? p = some kind) {outlet : String} (houtlet : kind.hasOutlet outlet = true) :
    b.Offers strict { p with outlet } := by
  obtain ⟨n, hn, hid, -, hread⟩ := hp
  obtain rfl : n.kind = kind := Option.some.inj ((h.kind? hn hid).symm.trans hkind)
  exact ⟨n, hn, hid, houtlet, hread⟩

theorem safe_quat (h : b.Sound strict) (hargs : ∀ v ∈ args, v.Over (b.Offers strict)) :
    b.Safe strict (quat args) := by
  obtain ⟨hops, horder⟩ := splitOrder_over (b := b) hargs
  refine .state ?_
  generalize b.splitOrder args = split at hops horder
  obtain ⟨operands, order⟩ := split
  dsimp only at hops horder ⊢
  split
  · next q hq =>
    refine .pure h ?_
    unfold eulerQuat? at hq
    split at hq
    · next p =>
      split at hq
      · next hcond =>
        cases hq
        exact Offers.outlet h (hops _ List.mem_cons_self) hcond.2 rfl
      · cases hq
    · cases hq
  · split
    · exact .throw h
    · exact safe_rotation h (numbered_over hops) horder ⟨nofun, nofun⟩

theorem safe_rotateOrder (h : b.Sound strict) (hv : v.Over (b.Offers strict)) :
    b.Safe strict (rotateOrder v) := by
  unfold rotateOrder
  split
  · exact .pure h trivial
  · split
    · split
      · exact .pure h trivial
      · exact .throw h
    · exact .throw h
  · exact safe_emit h (by simpa using hv) ⟨nofun, nofun⟩
  · exact .throw h

theorem safe_component (h : b.Sound strict) (hv : v.Over (b.Offers strict)) (which : Component) :
    b.Safe strict (component v which) := by
  unfold component
  split
  · exact safe_emit h (by simpa using hv) ⟨nofun, nofun⟩
  · refine .state ?_
    split
    · exact .throw h
    · next hkind =>
      split
      · next hcond => exact .pure h (Offers.outlet h hv hkind hcond.2)
      · exact .throw h
  · split
    · next items hitems =>
      split
      · next item hitem => exact .pure h (hv.items hitems item (List.mem_of_getElem? hitem))
      · exact .throw h
    · exact .throw h
  · exact .throw h

theorem safe_unary (kind : Kind) (h : b.Sound strict) (hv : v.Over (b.Offers strict))
    (hkind : kind.IsInner) : b.Safe strict (unary kind v) :=
  safe_emit h (by simpa using hv) hkind

theorem safe_binary (kind : Kind) (h : b.Sound strict) (hx : x.Over (b.Offers strict))
    (hy : y.Over (b.Offers strict)) (hkind : kind.IsInner) :
    b.Safe strict (binary kind x y) :=
  safe_emit h (by simpa using ⟨hx, hy⟩) hkind

theorem safe_vectors (kind : Kind) (h : b.Sound strict) (hx : x.Over (b.Offers strict))
    (hy : y.Over (b.Offers strict)) (hkind : kind.IsInner) :
    b.Safe strict (vectors kind x y) :=
  safe_emit h (by simpa using ⟨hx, hy⟩) hkind

/-- Every operation keeps the builder sound, and its value may be read if its operands may. -/
theorem safe_perform (h : b.Sound strict) {op : Operation Plug}
    (hargs : ∀ v ∈ op.operands, v.Over (b.Offers strict)) : b.Safe strict (perform op) := by
  cases op with
  | arith op a c =>
    obtain ⟨ha, hc⟩ : _ ∧ _ := by simpa [Operation.operands] using hargs
    exact safe_binary _ h ha hc (by cases op <;> exact ⟨nofun, nofun⟩)
  | logic op a c =>
    obtain ⟨ha, hc⟩ : _ ∧ _ := by simpa [Operation.operands] using hargs
    exact safe_binary _ h ha hc (by cases op <;> exact ⟨nofun, nofun⟩)
  | trig f a =>
    exact safe_unary _ h (hargs a List.mem_cons_self) (by cases f <;> exact ⟨nofun, nofun⟩)
  | not a | noise a | slope a | normalize a | length a | int a | bool a =>
    exact safe_unary _ h (hargs a List.mem_cons_self) ⟨nofun, nofun⟩
  | dot a c | cross a c | distance a c | angle a c =>
    obtain ⟨ha, hc⟩ : _ ∧ _ := by simpa [Operation.operands] using hargs
    exact safe_vectors _ h ha hc ⟨nofun, nofun⟩
  | clamp | condition | lerp | remap | slerp =>
    exact safe_emit h (by simpa [Operation.operands] using hargs) ⟨nofun, nofun⟩
  | component object which => exact safe_component h (hargs object List.mem_cons_self) which
  | vector components =>
    rw [perform]
    split
    · next v hv =>
      exact .bind (keeps_materialize h (Value.over_of_ofItems? hv hargs)) fun p b₁ h₁ _ hp =>
        .pure h₁ hp
    · exact .throw h
  | euler args => exact safe_euler h hargs
  | rotateOrder v => exact safe_rotateOrder h (hargs v List.mem_cons_self)
  | quat args => exact safe_quat h hargs
  | transform args =>
    exact safe_emit h (fun e he => hargs e.2 (List.of_mem_zip he).2) ⟨nofun, nofun⟩
  | matrix args => exact safe_emit h (numbered_over hargs) ⟨nofun, nofun⟩
  | switch selector options =>
    obtain ⟨hselector, hoptions⟩ := List.forall_mem_cons.1 hargs
    refine safe_emit h (fun e he => ?_) ⟨nofun, nofun⟩
    rcases List.mem_append.1 he with he | he
    · exact numbered_over hoptions e he
    · obtain rfl := List.mem_singleton.1 he
      exact hselector

/-- Whatever is driven, what drives it has to be readable only. -/
theorem keeps_drive (h : b.Sound strict) {source : Value Plug}
    (hsource : source.Over (b.Offers strict)) (destination : Value Plug) :
    (upkeep strict).Keeps b (drive source destination) fun _ _ => True := by
  unfold drive
  split
  · next d =>
    refine .state ?_
    split
    · next hkind =>
      obtain ⟨x, hx, hid, hout⟩ := (h.kinds d.node .output).1 hkind
      refine .bind (keeps_materialize h hsource) fun p b₁ h₁ e₁ hp => .state ?_
      split
      · exact .throw h₁
      · obtain ⟨x', hx', hid', hkind'⟩ := e₁ x hx
        have h₂ : (b₁.connect d.node p).Sound strict := by
          rw [← hid, ← hid']
          exact h₁.connect hx' (hkind'.trans hout) hp
        refine .change (extends_connect b₁ d.node p) ?_
        split
        · exact .say (.pure h₂ trivial)
        · exact .pure h₂ trivial
    · exact .throw h
  · exact .throw h

/-- The value of an expression is kept as it is. -/
theorem keeps_conclude (h : b.Sound strict) (v : Value Plug) :
    (upkeep strict).Keeps b (conclude v) fun w _ => w = v :=
  .say (.change (.refl b) (.pure ⟨h.toWired.congr rfl rfl rfl rfl, h.inputs, h.outputs⟩ rfl))

end Operations

/-! ## The host -/

section Host

variable {name : String}

theorem Lists.offers {kind : Kind} {table : Table String Plug} (h : Lists b.graph.nodes kind table)
    (hp : table.get? name = some p) : b.Offers false p := by
  obtain ⟨n, hn, -, -, rfl⟩ := h.entry _ _ hp
  exact ⟨n, hn, rfl, rfl, nofun⟩

/-- The plug of an input; a new one goes into the table of inputs. -/
theorem keeps_input (h : b.Sound strict) (name : String) (value : Option Signal) :
    (upkeep strict).Keeps b (input name value) fun v b' => v.Over (b'.Offers false) := by
  refine .state ?_
  split
  · next p hp => exact .pure h (h.inputs.offers hp)
  · next hnew =>
    have hwired : (b.push .input { name := some name, value } []).2.Wired strict :=
      h.toWired.push (fun _ he => absurd he List.not_mem_nil) fun _ => rfl
    refine fun _ => ⟨⟨hwired.congr rfl rfl rfl rfl, ?_, ?_⟩,
      extends_push b .input { name := some name, value } [], ?_⟩
    · exact h.inputs.append rfl rfl hnew
    · exact h.outputs.append_of_ne nofun
    · exact fun v hv => Except.ok.inj hv ▸ offers_push b nofun

/-- The plug of an output; a new one goes into the table of outputs. -/
theorem keeps_output (h : b.Sound strict) (name : String) :
    (upkeep strict).Keeps b (output name) fun v b' => v.Over (b'.Offers false) := by
  refine .state ?_
  split
  · next p hp => exact .pure h (h.outputs.offers hp)
  · next hnew =>
    have hwired : (b.push .output { name := some name } []).2.Wired strict :=
      h.toWired.push (fun _ he => absurd he List.not_mem_nil) fun _ => rfl
    refine fun _ => ⟨⟨hwired.congr rfl rfl rfl rfl, ?_, ?_⟩,
      extends_push b .output { name := some name } [], ?_⟩
    · exact h.inputs.append_of_ne nofun
    · exact h.outputs.append rfl rfl hnew
    · exact fun v hv => Except.ok.inj hv ▸ offers_push b nofun

/-- A plug for each name. -/
theorem keeps_named {f : String → Build (Value Plug)} (h : b.Sound strict) (names : List String)
    (hf : ∀ name b, b.Sound strict →
      (upkeep strict).Keeps b (f name) fun v b' => v.Over (b'.Offers false)) :
    (upkeep strict).Keeps b (names.mapM fun name => do return (name, ← f name)) fun pairs b' =>
      ∀ e ∈ pairs, e.2.Over (b'.Offers false) := by
  refine Upkeep.Keeps.mapM h (fun name _ b₁ h₁ => ?_) fun e _ _ hext he => hext.over he
  exact .bind (hf name b₁ h₁) fun v b₂ h₂ _ hv => .pure h₂ hv

/-- The plugs of inputs and outputs, with their names. -/
theorem keeps_bindings (h : b.Sound strict) (inputs outputs : List String) :
    (upkeep strict).Keeps b (bindings inputs outputs) fun pairs b' =>
      ∀ e ∈ pairs, e.2.Over (b'.Offers false) := by
  refine .bind (keeps_named h inputs fun name _ h => keeps_input h name none)
    fun ins b₁ h₁ _ hins => ?_
  refine .bind (keeps_named h₁ outputs fun name _ h => keeps_output h name)
    fun outs b₂ h₂ hext houts => ?_
  refine .pure h₂ fun e he => ?_
  rcases List.mem_append.1 he with he | he
  · exact hext.over (hins e he)
  · exact houts e he

/-- A new builder has no nodes at all. -/
theorem sound_empty : Sound strict {} where
  ids _ h := by cases h
  nodup := List.nodup_nil
  kinds _ _ := ⟨nofun, fun ⟨_, h, _⟩ => by cases h⟩
  earlier before n after h := by simp at h
  driven _ h := by cases h
  constants _ _ h := by cases h
  inputs := ⟨nofun, fun _ h => absurd h List.not_mem_nil⟩
  outputs := ⟨nofun, fun _ h => absurd h List.not_mem_nil⟩

end Host

end Builder

end RigExpr
