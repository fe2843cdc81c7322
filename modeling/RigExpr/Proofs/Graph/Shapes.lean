import RigExpr.Proofs.Graph.Permutation
import RigExpr.Proofs.Graph.Runnable
import RigExpr.Proofs.Table

/-!
# Shapes of signals

The builder knows some shapes in advance, by the kinds of nodes: it takes the output of a node
of some kinds for a number or truth value, and that of others for a vector. The vectors are
always right. The numbers are not: a function that is applied to each component of what a
node reads makes a vector of a vector, and all such functions but one are taken for numbers.
This is all that can go wrong (`Engine.Spreads`).

* `Engine.shape_of_settled`: the shapes of a single node,
* `Engine.settled_of_value?`: every signal comes from a node that is evaluated like this,
* `Session.shapes_of_evaluation`: so this holds of all graphs that are built.
-/

namespace RigExpr

/-- Whether a node of this kind applies a function to each component of what it reads. -/
def Kind.isComponentwise : Kind → Bool
  | remap | cos | sin | acos | asin | atan | noise | dnoise | int => true
  | _ => false

namespace Builder.Shape

theorem ofSignal_map (f : Float → Float) (s : Signal) : ofSignal (s.map f) = ofSignal s := by
  cases s <;> rfl

theorem ofSignal_eq_scalar_iff {s : Signal} : ofSignal s = .scalar ↔ ofSignal s ≠ .vector := by
  cases s <;> simp [ofSignal]

theorem ofSignal_eq_vector_iff {s : Signal} : ofSignal s = .vector ↔ ∃ xs, s = .vector xs := by
  cases s <;> simp [ofSignal]

end Builder.Shape

open Builder (Shape)

/-! ## A single node -/

namespace Node

variable {n : Node} {i : Inlet} {outlets : Outlets} {outlet : String} {s : Signal}

theorem get?_single (s : Signal) : (single s).get? Kind.mainOutlet = some s := rfl

theorem exists_outputs_of_isComponentwise (h : n.kind.isComponentwise = true) (i : Inlet) :
    ∃ f, n.outputs i = .ok (single (.map f (i.get "in"))) := by
  cases hkind : n.kind <;> rw [hkind] at h <;> cases h <;> simp only [outputs, hkind] <;>
    exact ⟨_, rfl⟩

/-- All outputs of a node that yields a vector are vectors. -/
theorem shape_of_yieldsVector (h : n.outputs i = .ok outlets) (hkind : n.kind.yieldsVector = true)
    (hs : outlets.get? outlet = some s) : Shape.ofSignal s = .vector := by
  suffices ∀ s ∈ outlets.values, Shape.ofSignal s = .vector from
    this s (Table.mem_values_of_get? hs)
  have hsingle (xs : List Float) : ∀ s ∈ (single (.vector xs)).values, Shape.ofSignal s = .vector :=
    fun s hs => List.mem_singleton.1 hs ▸ rfl
  cases hcase : n.kind with
  | join | normalize | cross =>
    simp only [outputs, hcase] at h
    exact Except.ok.inj h ▸ hsingle _
  | quat | matrix =>
    simp only [outputs, hcase] at h
    obtain ⟨_, -, h⟩ := Parser.bind_eq_ok.1 h
    exact Except.ok.inj h ▸ hsingle _
  | slerp =>
    simp only [outputs, hcase] at h
    obtain ⟨_, -, h⟩ := Parser.bind_eq_ok.1 h
    obtain ⟨_, -, h⟩ := Parser.bind_eq_ok.1 h
    exact Except.ok.inj h ▸ hsingle _
  | euler =>
    simp only [outputs, hcase] at h
    obtain ⟨_, -, h⟩ := Parser.bind_eq_ok.1 h
    cases h
    intro s hs
    obtain ⟨e, he, rfl⟩ := Table.mem_values_ofList hs
    revert e
    simp [Shape.ofSignal]
  | transform =>
    simp only [outputs, hcase] at h
    obtain ⟨_, _, _, _, rfl⟩ := exists_transform h
    intro s hs
    obtain ⟨e, he, rfl⟩ := Table.mem_values_ofList hs
    revert e
    simp [Shape.ofSignal]
  | _ =>
    rw [hcase] at hkind
    cases hkind

/-- All outputs besides the default one are vectors. -/
theorem shape_of_extra (h : n.outputs i = .ok outlets) (houtlet : outlet ≠ Kind.mainOutlet)
    (hs : outlets.get? outlet = some s) : Shape.ofSignal s = .vector := by
  by_cases hextra : n.kind.extraOutlets = []
  · obtain ⟨own, rfl⟩ := exists_single h hextra
    have hnone : (single own).get? outlet = none := by
      rw [single, Table.ofList, List.foldl_cons, List.foldl_nil,
        Table.get?_insert_of_ne _ _ (Ne.symm houtlet), Table.get?_empty]
    rw [hnone] at hs
    cases hs
  · refine shape_of_yieldsVector h ?_ hs
    cases hkind : n.kind with
    | euler | transform => rfl
    | _ =>
      rw [hkind] at hextra
      exact absurd rfl hextra

/-- A node that yields a number or truth value does so, unless it works on the components of
    a vector. -/
theorem shape_of_yieldsScalar (h : n.outputs i = .ok outlets) (hkind : n.kind.yieldsScalar = true)
    (hs : outlets.get? Kind.mainOutlet = some s) :
    Shape.ofSignal s = .scalar ↔
      ¬(n.kind.isComponentwise = true ∧ Shape.ofSignal (i.get "in") = .vector) := by
  by_cases hcomponentwise : n.kind.isComponentwise = true
  · obtain ⟨f, houtputs⟩ := exists_outputs_of_isComponentwise hcomponentwise i
    obtain rfl := Except.ok.inj (houtputs.symm.trans h)
    rw [get?_single] at hs
    rw [← Option.some.inj hs, Shape.ofSignal_map, Shape.ofSignal_eq_scalar_iff]
    simp [hcomponentwise]
  · refine iff_of_true ?_ fun h => hcomponentwise h.1
    cases hcase : n.kind with
    | and | or | xor | not | component | dot | length | distance | angle | rotateOrder | bool =>
      simp only [outputs, hcase] at h
      cases h
      rw [get?_single] at hs
      exact Option.some.inj hs ▸ rfl
    | cos | sin | acos | asin | atan | noise | dnoise | int =>
      rw [hcase] at hcomponentwise
      exact absurd rfl hcomponentwise
    | _ =>
      rw [hcase] at hkind
      cases hkind

end Node

namespace Engine

variable {g : Graph} {n : Node} {r r' : Engine} {i : Inlet} {outlets : Node.Outlets}
  {outlet : String} {s : Signal}

theorem get?_of_read {entries : List (String × Plug)} {signals : List (String × Signal)}
    (h : r.read entries = .ok signals) (key : String) :
    (⟨signals⟩ : Table String Signal).get? key =
      ((⟨entries⟩ : Table String Plug).get? key).bind r.value? := by
  simp only [Table.get?]
  induction entries generalizing signals with
  | nil =>
    cases h
    rfl
  | cons e entries ih =>
    obtain ⟨own, p⟩ := e
    rw [read] at h
    split at h
    · next v hv =>
      obtain ⟨rest, hrest, h⟩ := Parser.bind_eq_ok.1 h
      cases h
      rw [Table.find, Table.find]
      split
      · exact hv.symm
      · exact ih hrest
    · cases h

/-- What a node is given under a key is what the node at the other end carries. -/
theorem get?_of_inlet (h : r.inlet n = .ok i) (key : String) :
    i.signals.get? key = (n.inputs.get? key).bind r.value? := by
  rw [inlet] at h
  obtain ⟨signals, hread, h⟩ := Parser.bind_eq_ok.1 h
  cases h
  exact get?_of_read hread key

/-- The node works on the components of a vector. -/
def Spreads (r : Engine) (n : Node) : Prop :=
  n.kind.isComponentwise = true ∧
    ∃ p xs, n.inputs.get? "in" = some p ∧ r.value? p = some (.vector xs)

theorem spreads_iff (h : r.inlet n = .ok i) :
    r.Spreads n ↔ n.kind.isComponentwise = true ∧ Shape.ofSignal (i.get "in") = .vector := by
  refine and_congr_right fun _ => ?_
  rw [Inlet.get, get?_of_inlet h, Shape.ofSignal_eq_vector_iff]
  cases hp : n.inputs.get? "in" with
  | none => simp [default]
  | some p =>
    cases hv : r.value? p with
    | none => simp [hv, default]
    | some v => simp [hv]

/-- The shapes of the signals of a node. -/
theorem shape_of_settled (h : r.inlet n = .ok i) (houtputs : n.outputs i = .ok outlets)
    (hs : outlets.get? outlet = some s) :
    (n.kind.yieldsVector = true ∨ outlet ≠ Kind.mainOutlet → Shape.ofSignal s = .vector) ∧
      (n.kind.yieldsScalar = true → outlet = Kind.mainOutlet →
        (Shape.ofSignal s = .scalar ↔ ¬r.Spreads n)) := by
  refine ⟨fun hvector => ?_, fun hscalar houtlet => ?_⟩
  · rcases hvector with hkind | houtlet
    · exact Node.shape_of_yieldsVector houtputs hkind hs
    · exact Node.shape_of_extra houtputs houtlet hs
  · subst houtlet
    rw [Node.shape_of_yieldsScalar houtputs hscalar hs, spreads_iff h]

/-! ## Evaluations -/

variable (hids : g.nodeIds.Nodup) (hnames : g.outputNames.Nodup)

include hids hnames

/-- What an evaluation has come to, also if it has failed. -/
theorem exists_settles (r : Engine) (log : List Line) :
    ∃ done, Settles g r.staging done ((evaluate g).runOn ⟨r, log⟩).2.state ∧
      (((evaluate g).runOn ⟨r, log⟩).1 = .ok () → ∀ id ∈ g.nodeIds, id ∈ done) := by
  cases horder : g.order with
  | error e =>
    rw [runOn_evaluate_of_error horder]
    exact ⟨[], settles_begin r, fun h => by cases h⟩
  | ok order =>
    have hmem := Graph.mem_order_iff horder (Graph.nodup_sources hids)
    have hready := Graph.isReady_order horder (Graph.nodup_sources hids)
    rw [runOn_evaluate_of_ok horder]
    obtain ⟨done, rest, heq, hsettles, hend⟩ :=
      (settles_begin r).exists_run hids hnames hready fun id hid => (hmem id).1 hid
    refine ⟨done, hsettles, fun hok id hid => ?_⟩
    rcases hend with ⟨-, rfl⟩ | ⟨_, _, _, _, _, herror, _⟩
    · exact List.append_nil done ▸ heq ▸ (hmem id).2 hid
    · rw [hok] at herror
      cases herror

/-- Whatever is found at an output of a node, the node has worked it out. -/
theorem settled_of_value? {log : List Line} (hn : n ∈ g.nodes)
    (hs : ((evaluate g).runOn ⟨r, log⟩).2.state.value? ⟨n.id, outlet⟩ = some s) :
    ((evaluate g).runOn ⟨r, log⟩).2.state.Settled n := by
  obtain ⟨done, hsettles, -⟩ := exists_settles hids hnames r log
  refine hsettles.settled n hn ?_
  by_contra hid
  rw [value?, hsettles.rest n.id hid] at hs
  cases hs

/-- After an evaluation that has not failed, there is a signal at each output. -/
theorem exists_value? {log : List Line} (hok : ((evaluate g).runOn ⟨r, log⟩).1 = .ok ())
    (hn : n ∈ g.nodes) (houtlet : n.kind.hasOutlet outlet = true) :
    ∃ s, ((evaluate g).runOn ⟨r, log⟩).2.state.value? ⟨n.id, outlet⟩ = some s := by
  obtain ⟨done, hsettles, hdone⟩ := exists_settles hids hnames r log
  obtain ⟨i, outlets, -, houtputs, hget⟩ :=
    hsettles.settled n hn (hdone hok n.id (List.mem_map_of_mem hn))
  obtain ⟨s, hs⟩ := Node.exists_outlet houtputs houtlet
  exact ⟨s, by rw [value?, hget]; exact hs⟩

end Engine

/-! ## What the builder knows -/

namespace Builder

variable {b : Builder} {p : Plug} {kind : Kind}

/-- No two outputs towards the host have one name. -/
theorem WellFormed.nodup_outputNames (h : b.WellFormed) : b.graph.outputNames.Nodup := by
  have hnodes : b.graph.nodes.Pairwise (· ≠ ·) := h.nodup.of_map _
  rw [Graph.outputNames, List.Nodup, List.pairwise_filterMap, List.pairwise_filter]
  refine hnodes.imp_of_mem fun {n m} hn hm hne hkind hkind' name hname name' hname' heq => ?_
  have hkind : n.kind = .output := by simpa using hkind
  have hkind' : m.kind = .output := by simpa using hkind'
  exact hne (h.hosts n hn m hm (.inr hkind) (hkind.trans hkind'.symm)
    (hname.trans (heq ▸ hname'.symm)))

/-- The shape of a plug whose node has a kind of known shape. -/
theorem shape_eq (hkind : b.kind? p = some kind)
    (hknown : kind.yieldsScalar = true ∨ kind.yieldsVector = true) :
    b.shape p =
      if p.outlet = Kind.mainOutlet ∧ kind.yieldsScalar = true then .scalar else .vector := by
  rw [shape, hkind]
  by_cases houtlet : p.outlet = Kind.mainOutlet
  · by_cases hscalar : kind.yieldsScalar = true
    · simp [houtlet, hscalar]
    · simp [houtlet, hscalar, hknown.resolve_left hscalar]
  · simp [houtlet]

namespace WellFormed

variable {r : Engine} {log : List Line}

/-- After an evaluation that has not failed, there is a signal at each plug. -/
theorem exists_value? (h : b.WellFormed) (hkind : b.kind? p = some kind)
    (houtlet : kind.hasOutlet p.outlet = true)
    (hok : ((Engine.evaluate b.graph).runOn ⟨r, log⟩).1 = .ok ()) :
    ∃ v, ((Engine.evaluate b.graph).runOn ⟨r, log⟩).2.state.value? p = some v := by
  obtain ⟨n, hn, hid, rfl⟩ := (h.kinds p.node kind).1 hkind
  obtain ⟨v, hv⟩ := Engine.exists_value? h.nodup h.nodup_outputNames hok hn houtlet
  exact ⟨v, by rw [← hv, hid]⟩

/-- The shape of the signal at a plug whose node has a kind of known shape. -/
theorem shape_of_value? (h : b.WellFormed) (hkind : b.kind? p = some kind)
    (hknown : kind.yieldsScalar = true ∨ kind.yieldsVector = true) {v : Signal}
    (hv : ((Engine.evaluate b.graph).runOn ⟨r, log⟩).2.state.value? p = some v) :
    (b.isVector (.handle p) = true → Shape.ofSignal v = .vector) ∧
      (b.isScalar (.handle p) = true → (Shape.ofSignal v = .scalar ↔
        ∀ n ∈ b.graph.nodes, n.id = p.node →
          ¬((Engine.evaluate b.graph).runOn ⟨r, log⟩).2.state.Spreads n)) := by
  obtain ⟨n, hn, hid, rfl⟩ := (h.kinds p.node kind).1 hkind
  have hv' : ((Engine.evaluate b.graph).runOn ⟨r, log⟩).2.state.value? ⟨n.id, p.outlet⟩ =
      some v := by
    rw [hid]
    exact hv
  obtain ⟨i, outlets, hinlet, houtputs, hget⟩ :=
    Engine.settled_of_value? h.nodup h.nodup_outputNames hn hv'
  have hs : outlets.get? p.outlet = some v := by
    rw [Engine.value?, hget] at hv'
    exact hv'
  obtain ⟨hvector, hscalar⟩ := Engine.shape_of_settled hinlet houtputs hs
  rw [isVector, isScalar, shape_eq hkind hknown]
  refine ⟨fun hshape => hvector ?_, fun hshape => ?_⟩
  · by_contra hno
    rw [not_or, not_not] at hno
    rw [if_pos ⟨hno.2, hknown.resolve_right hno.1⟩] at hshape
    exact absurd hshape (by decide)
  · split at hshape
    · next hmain =>
      rw [hscalar hmain.2 hmain.1]
      -- there is no other node with this id
      refine ⟨fun hspreads m hm hidm => ?_, fun hall => hall n hn hid⟩
      rwa [Engine.eq_of_id_eq h.nodup hm hn (hidm.trans hid.symm)]
    · exact absurd hshape (by decide)

end WellFormed

end Builder

namespace Session

/-- Known shapes. A node that is evaluated has a vector at its default output if its kind
    yields one. If its kind yields a number or truth value, it has one unless it works on the
    components of a vector, and only then. So whenever the builder of a session knows, by the
    kind of a node, that a plug has a vector, each evaluation of its graph finds one there,
    whatever the host has staged. If the builder knows that there is a number or truth value,
    it is right up to the same exception. -/
theorem shapes_of_evaluation (r : Engine) :
    (∀ (n : Node) (r' : Engine), r.evaluateNode n = .ok r' →
      ∃ v, r'.value? { node := n.id } = some v ∧
        (n.kind.yieldsVector = true → Shape.ofSignal v = .vector) ∧
        (n.kind.yieldsScalar = true → (Shape.ofSignal v = .scalar ↔ ¬r.Spreads n))) ∧
    ∀ (past : List (Session × Request)) (s : Session), Trace past s →
      ∀ (p : Plug) (kind : Kind), s.builder.kind? p = some kind →
        kind.yieldsScalar = true ∨ kind.yieldsVector = true → ∀ log : List Line,
          let evaluated := (Engine.evaluate s.builder.graph).runOn ⟨r, log⟩
          (evaluated.1 = .ok () → kind.hasOutlet p.outlet = true →
            ∃ v, evaluated.2.state.value? p = some v) ∧
          ∀ v, evaluated.2.state.value? p = some v →
            (s.builder.isVector (.handle p) = true → Shape.ofSignal v = .vector) ∧
            (s.builder.isScalar (.handle p) = true → (Shape.ofSignal v = .scalar ↔
              ∀ n ∈ s.builder.graph.nodes, n.id = p.node → ¬evaluated.2.state.Spreads n)) := by
  refine ⟨fun n r' hr => ?_, fun past s h p kind hkind hknown log => ?_⟩
  · obtain ⟨i, outlets, hinlet, houtputs, rfl⟩ := Engine.evaluateNode_eq_ok.1 hr
    have hmain : n.kind.hasOutlet Kind.mainOutlet = true := by simp [Kind.hasOutlet]
    obtain ⟨v, hv⟩ := Node.exists_outlet houtputs hmain
    obtain ⟨hvector, hscalar⟩ := Engine.shape_of_settled hinlet houtputs hv
    exact ⟨v, by rw [Engine.value?_record_self, hv], fun hkind => hvector (.inl hkind),
      fun hkind => hscalar hkind rfl⟩
  · have hkept : s.Kept false := h.kept fun hstrict => absurd hstrict Bool.false_ne_true
    have hformed := hkept.sound.wellFormed
    exact ⟨fun hok houtlet => hformed.exists_value? hkind houtlet hok,
      fun v hv => hformed.shape_of_value? hkind hknown hv⟩

/-- A truth value that is computed from vectors, one of which the host has staged. -/
theorem shapes_of_evaluation_and :
    let host : List (String × Value Plug) := [("v", .handle { node := "input_1" })]
    let s := ((new {}).perform (.bindings ["v"] [])).perform (.emit "[v, 1] & v" host)
    let r := (Engine.stage {} "v" (.vector [0, 1.5])).2
    let evaluated := (Engine.evaluate s.builder.graph).runOn ⟨r, []⟩
    let p : Plug := { node := "and_4" }
    s.builder.kind? p = some .and ∧ s.builder.isScalar (.handle p) = true ∧
      evaluated.1 = .ok () ∧ ∃ v, evaluated.2.state.value? p = some v ∧
        (Shape.ofSignal v = .scalar ↔
          ∀ n ∈ s.builder.graph.nodes, n.id = p.node → ¬evaluated.2.state.Spreads n) := by
  intro host s r evaluated p
  have hrun : s.builder.kind? p = some .and ∧ s.builder.isScalar (.handle p) = true ∧
      evaluated.1 = .ok () ∧ ∀ e ∈ host, ∀ p ∈ e.2.handles,
        ∃ v ∈ ((new {}).perform (.bindings ["v"] [])).returned, p ∈ v.handles := by
    decide +kernel
  obtain ⟨hkind, hscalar, hok, hown⟩ := hrun
  have hnew : (Request.bindings ["v"] []).Own [] := fun _ h => absurd h List.not_mem_nil
  have htrace : Trace _ s := .step (.step (.new {}) hnew) hown
  obtain ⟨hvalue, hshape⟩ :=
    (shapes_of_evaluation r).2 _ s htrace p .and hkind (.inl rfl) []
  obtain ⟨v, hv⟩ := hvalue hok rfl
  exact ⟨hkind, hscalar, hok, v, hv, (hshape v hv).2 hscalar⟩

/-- A node that is known to yield a number yields a vector: its function is applied to each
    component of what the host has staged. -/
theorem shapes_of_int :
    let host : List (String × Value Plug) := [("v", .handle { node := "input_1" })]
    let s := ((new {}).perform (.bindings ["v"] [])).perform (.emit "is_scalar(int(v))" host)
    let r := (Engine.stage {} "v" (.vector [1.5])).2
    let evaluated := (Engine.evaluate s.builder.graph).runOn ⟨r, []⟩
    let p : Plug := { node := "int_2" }
    s.builder.kind? p = some .int ∧ Kind.int.yieldsScalar = true ∧
      s.builder.isScalar (.handle p) = true ∧ evaluated.1 = .ok () ∧
      (evaluated.2.state.value? p).map Shape.ofSignal = some .vector := by
  decide +kernel

end Session

end RigExpr
