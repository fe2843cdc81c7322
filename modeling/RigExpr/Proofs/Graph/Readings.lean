import RigExpr.Proofs.Graph.Interpretation
import RigExpr.Proofs.Graph.Requests
import RigExpr.Proofs.Graph.Shapes

/-!
# What values read at run time

A value of the builder stands for a signal in every evaluation: a literal for itself, a plug for
what is found there, and a sequence for all components of its parts (`Value.signal?`). The plug
that a value becomes carries this signal, in whatever graph is built around it and whatever the
host stages (`Builder.attains_materialize`).

A constant is made once for each value and found by its text. That the node which is found has
that value holds of every builder that a host can come to (`Session.Trace.findsConstants`).
-/

namespace RigExpr

namespace Builder

variable {b b' : Builder}

/-! ## Constants -/

/-- The plugs of constants are those of nodes with these values. -/
def FindsConstants (b : Builder) : Prop :=
  ∀ text p, b.constants.get? text = some p → ∃ s, s.text = text ∧
    ∃ n ∈ b.graph.nodes, n.kind = .constant ∧ n.params.value = some s ∧ p = { node := n.id }

namespace FindsConstants

/-- The nodes that there are may be connected anew, and others come in. -/
theorem extend (h : b.FindsConstants) (hconstants : b'.constants = b.constants)
    (hnodes : ∀ n ∈ b.graph.nodes, ∃ m ∈ b'.graph.nodes,
      m.id = n.id ∧ m.kind = n.kind ∧ m.params = n.params) : b'.FindsConstants := by
  intro text p hp
  obtain ⟨s, htext, n, hn, hkind, hvalue, rfl⟩ := h text p (hconstants ▸ hp)
  obtain ⟨m, hm, hid, hkind', hparams⟩ := hnodes n hn
  exact ⟨s, htext, m, hm, hkind'.trans hkind, hparams ▸ hvalue, by rw [hid]⟩

theorem push (h : b.FindsConstants) (kind : Kind) (params : Params)
    (inputs : List (String × Plug)) : (b.push kind params inputs).2.FindsConstants :=
  h.extend rfl fun n hn => ⟨n, List.mem_append_left _ hn, rfl, rfl, rfl⟩

/-- A constant comes in, and note is taken of it. -/
theorem note (h : b.FindsConstants) (s : Signal) :
    ({ (b.push .constant { value := some s } []).2 with
      constants :=
        b.constants.insert s.text { node := (b.push .constant { value := some s } []).1 } } :
        Builder).FindsConstants := by
  intro text p hp
  rw [Table.get?_insert] at hp
  split at hp
  · next htext =>
    cases hp
    exact ⟨s, htext, _, List.mem_append_right _ List.mem_cons_self, rfl, rfl, rfl⟩
  · exact h.push .constant { value := some s } [] text p hp

theorem maintained : Maintains (fun _ => True) (.preserving FindsConstants) where
  construction :=
    { pure := .pure
      throw := .throw
      state := fun _ h => h
      bind := fun ha hf => .bind ha hf
      addNode := fun inputs _ _ _ _ h => h.push _ _ inputs
      constant := fun s => grows_constant fun _ h => h.note s }
  host kind params _ _ _ h := h.push kind params []
  connect b id p h := by
    rw [connect_eq]
    refine h.extend rfl fun n hn => ⟨_, List.mem_map_of_mem hn, ?_⟩
    simp
  congr b b' hgraph _ hconstants h :=
    h.extend hconstants fun n hn => ⟨n, hgraph ▸ hn, rfl, rfl, rfl⟩
  written _ _ := trivial

end FindsConstants

end Builder

theorem Session.Trace.findsConstants {s : Session} {past : List (Session × Request)}
    (h : Trace past s) : s.builder.FindsConstants :=
  h.preserved Builder.FindsConstants.maintained fun _ _ hp => by cases hp

/-! ## Signals of nodes -/

namespace Engine

variable {r : Engine} {n : Node} {entries : List (String × Plug)}
  {signals : List (String × Signal)}

/-- A signal that is found at a node is one that the node works out. -/
def Explains (r : Engine) (nodes : List Node) : Prop :=
  ∀ n ∈ nodes, ∀ outlet s, r.value? ⟨n.id, outlet⟩ = some s → r.Settled n

theorem Explains.mono {nodes nodes' : List Node} (h : r.Explains nodes')
    (hnodes : nodes <+: nodes') : r.Explains nodes :=
  fun n hn => h n (hnodes.subset hn)

theorem explains_evaluate {b : Builder} (h : b.WellFormed) (r : Engine) (log : List Line) :
    ((evaluate b.graph).runOn ⟨r, log⟩).2.state.Explains b.graph.nodes :=
  fun _ hn _ _ hs => settled_of_value? h.nodup h.nodup_outputNames hn hs

theorem map_of_read (h : r.read entries = .ok signals) :
    entries.map (fun e => (e.1, r.value? e.2)) = signals.map fun e => (e.1, some e.2) := by
  induction entries generalizing signals with
  | nil =>
    cases h
    rfl
  | cons e entries ih =>
    obtain ⟨key, p⟩ := e
    rw [read] at h
    split at h
    · next s hs =>
      obtain ⟨rest, hrest, h⟩ := Parser.bind_eq_ok.1 h
      cases h
      rw [List.map_cons, List.map_cons, ih hrest, hs]
    · cases h

/-- Numbered plugs are read as their signals with the same numbers. -/
theorem exists_numbered {parts : List Plug} (h : r.read (Builder.numbered parts) = .ok signals) :
    ∃ values, parts.map r.value? = values.map some ∧ signals = Builder.numbered values := by
  have hmap := map_of_read h
  have hlength : parts.length = signals.length := by
    simpa [Builder.numbered] using congrArg List.length hmap
  have hget (i : Nat) (hi : i < parts.length) (hi' : i < signals.length) :
      (Variadic.key i, r.value? parts[i]) = (signals[i].1, some signals[i].2) := by
    simpa [Builder.numbered] using List.getElem_of_eq hmap (by simpa [Builder.numbered] using hi)
  -- a plug and its signal are at the same index, and the key tells it
  refine ⟨signals.map (·.2), ?_, ?_⟩
  · refine List.ext_getElem (by simpa using hlength) fun i hi hi' => ?_
    simpa using (Prod.mk.inj (hget i (by simpa using hi) (by simpa using hi'))).2
  · refine List.ext_getElem (by simp [Builder.numbered]) fun i hi hi' => ?_
    have hkey := (Prod.mk.inj (hget i (hlength ▸ hi) hi)).1
    simp [Builder.numbered, hkey]

namespace Settled

theorem value?_constant (h : r.Settled n) (hkind : n.kind = .constant) {s : Signal}
    (hvalue : n.params.value = some s) : r.value? { node := n.id } = some s := by
  obtain ⟨i, outlets, -, houtputs, hget⟩ := h
  simp only [Node.outputs, hkind, hvalue] at houtputs
  cases houtputs
  rw [value?, hget]
  rfl

/-- A node that joins plugs carries all components of their signals. -/
theorem exists_joined (h : r.Settled n) (hkind : n.kind = .join) {parts : List Plug}
    (hinputs : n.inputs = Table.ofList (Builder.numbered parts)) (hlength : parts.length ≤ 2 ^ 64) :
    ∃ signals, parts.map r.value? = signals.map some ∧
      r.value? { node := n.id } = some (.joined signals) := by
  obtain ⟨i, outlets, hinlet, houtputs, hget⟩ := h
  have hentries : n.inputs.entries = Builder.numbered parts := by
    rw [hinputs, Table.entries_ofList (Variadic.nodup_numbered parts)]
  rw [inlet, hentries] at hinlet
  obtain ⟨signals, hread, hi⟩ := Parser.bind_eq_ok.1 hinlet
  obtain ⟨values, hvalues, rfl⟩ := exists_numbered hread
  cases hi
  have hvalue : values.length ≤ 2 ^ 64 := by
    have := congrArg List.length hvalues
    simp only [List.length_map] at this
    omega
  simp only [Node.outputs, hkind, Inlet.numbered, Variadic.collect_numbered hvalue] at houtputs
  cases houtputs
  exact ⟨values, hvalues, by rw [value?, hget]; rfl⟩

/-- A node that takes a component carries the one of what it reads. -/
theorem exists_component (h : r.Settled n) (hkind : n.kind = .component) {p : Plug} {index : Nat}
    (hindex : n.params.index = some index) (hinputs : n.inputs = Table.ofList [("in", p)]) :
    ∃ s, r.value? p = some s ∧
      r.value? { node := n.id } = some (.float (s.components[index]?.getD Number.nan)) := by
  obtain ⟨i, outlets, hinlet, houtputs, hget⟩ := h
  have hentries : n.inputs.entries = [("in", p)] := by rw [hinputs]; rfl
  rw [inlet, hentries] at hinlet
  obtain ⟨signals, hread, hi⟩ := Parser.bind_eq_ok.1 hinlet
  cases hi
  obtain ⟨e, rfl, he⟩ := List.map_eq_singleton_iff.1 (map_of_read hread).symm
  obtain ⟨hkey, hvalue⟩ := Prod.mk.inj he
  refine ⟨e.2, hvalue.symm, ?_⟩
  have hin : (⟨[e]⟩ : Table String Signal).get? "in" = some e.2 := by
    rw [Table.get?, Table.find, if_pos hkey]
  simp only [Node.outputs, hkind, hindex, Inlet.components, Inlet.get, hin] at houtputs
  cases houtputs
  rw [value?, hget]
  rfl

end Settled

end Engine

/-! ## Signals of values -/

namespace Value

variable {r : Engine} {v : Value Plug} {items : List (Value Plug)}

/-- The signal of a value, as the last evaluation has left it. -/
def signal? (r : Engine) : Value Plug → Option Signal
  | scalar x => some (.float x)
  | bool b => some (.bool b)
  | order o => some (.float (Number.ofIndex o.index))
  | pair a b => do return .joined [← a.signal? r, ← b.signal? r]
  | triple a b c => do return .joined [← a.signal? r, ← b.signal? r, ← c.signal? r]
  | quad a b c d => do
    return .joined [← a.signal? r, ← b.signal? r, ← c.signal? r, ← d.signal? r]
  | handle p => r.value? p

theorem mapM_eq_some_iff {α β : Type} {f : α → Option β} {l : List α} {l' : List β} :
    l.mapM f = some l' ↔ l.map f = l'.map some := by
  induction l generalizing l' with
  | nil => cases l' <;> simp
  | cons a l ih =>
    cases l' with
    | nil => simp [List.mapM_cons, Option.bind_eq_some_iff]
    | cons b l' => simp [List.mapM_cons, Option.bind_eq_some_iff, ← ih]

/-- A sequence has the components of all its parts. -/
theorem signal?_eq_some_iff (h : v.items? = some items) {s : Signal} :
    v.signal? r = some s ↔
      ∃ signals, items.map (signal? r) = signals.map some ∧ s = .joined signals := by
  have hmapM : v.signal? r = (items.mapM (signal? r)).map .joined := by
    cases v with
    | scalar | bool | order | handle => cases h
    | pair a b => cases h; simp [signal?, Option.bind_assoc]
    | triple a b c => cases h; simp [signal?, Option.bind_assoc]
    | quad a b c d => cases h; simp [signal?, Option.bind_assoc]
  rw [hmapM, Option.map_eq_some_iff]
  simp only [mapM_eq_some_iff, eq_comm (a := s)]

theorem signal?_of_scalars? {xs : List Float} (h : v.scalars? = some xs) :
    v.signal? r = some (.vector xs) := by
  obtain ⟨items, hitems, hxs⟩ := Option.bind_eq_some_iff.1 h
  rw [mapM_eq_some_iff] at hxs
  have hsignal : ∀ a ∈ items, a.signal? r = a.scalar?.map .float := by
    intro a ha
    have hmem : a.scalar? ∈ xs.map some := hxs ▸ List.mem_map_of_mem ha
    obtain ⟨x, -, hx⟩ := List.mem_map.1 hmem
    cases a with
    | scalar => rfl
    | bool | order | pair | triple | quad | handle => cases hx
  refine (signal?_eq_some_iff hitems).2 ⟨xs.map .float, ?_, ?_⟩
  · calc
      items.map (signal? r) = items.map fun a => a.scalar?.map .float := List.map_congr_left hsignal
      _ = (items.map scalar?).map (Option.map .float) := by rw [List.map_map]; rfl
      _ = (xs.map .float).map some := by rw [hxs, List.map_map, List.map_map]; rfl
  · simp [Signal.joined, Signal.components, List.flatMap_map]

end Value

/-! ## Plugs of values -/

namespace Builder

variable {b b' : Builder} {p : Plug} {v : Value Plug}

/-- A builder that finds its constants, whose nodes stay where they are. -/
def reading : Upkeep Builder where
  holds := FindsConstants
  grows b b' := b.graph.nodes <+: b'.graph.nodes
  refl b := List.prefix_refl b.graph.nodes
  trans := List.IsPrefix.trans

/-- Whatever is found at the plug is the signal of the value. -/
def Shows (b : Builder) (p : Plug) (v : Value Plug) : Prop :=
  ∀ r : Engine, r.Explains b.graph.nodes → ∀ s, r.value? p = some s → v.signal? r = some s

theorem Shows.mono (h : b.Shows p v) (hnodes : reading.grows b b') : b'.Shows p v :=
  fun r hr => h r (hr.mono hnodes)

theorem attains_addNode (h : b.FindsConstants) (kind : Kind) (params : Params)
    (inputs : List (String × Plug)) :
    reading.Attains b (addNode kind params inputs) fun p b' =>
      ∃ n ∈ b'.graph.nodes, n.kind = kind ∧ n.params = params ∧ n.inputs = Table.ofList inputs ∧
        p = { node := n.id } := by
  intro log
  refine ⟨_, _, rfl, h.push kind params inputs, List.prefix_append _ _, ?_⟩
  exact ⟨_, List.mem_append_right _ List.mem_cons_self, rfl, rfl, rfl, rfl⟩

/-- The node of a constant has its value, whether it is found or made. -/
theorem attains_constant (h : b.FindsConstants) (s : Signal) :
    reading.Attains b (constant s) fun p b' =>
      ∃ n ∈ b'.graph.nodes, n.kind = .constant ∧ n.params.value = some s ∧
        p = { node := n.id } := by
  refine .state ?_
  split
  · next p hp =>
    -- there is one signal only with this text
    obtain ⟨s', htext, hnode⟩ := h _ p hp
    obtain rfl := Signal.text_injective htext
    exact .pure h hnode
  · intro log
    refine ⟨_, _, rfl, h.note s, List.prefix_append _ _, ?_⟩
    exact ⟨_, List.mem_append_right _ List.mem_cons_self, rfl, rfl, rfl⟩

/-- A value with a signal of its own becomes a constant. -/
theorem attains_literal {s : Signal} (hv : ∀ r, v.signal? r = some s) (hb : b.FindsConstants) :
    reading.Attains b (constant s) fun p b' => b'.Shows p v := by
  refine (attains_constant hb s).mono fun p b' _ _ hp => ?_
  obtain ⟨n, hn, hkind, hvalue, rfl⟩ := hp
  intro r hr t ht
  rw [hv, ← ht, (hr n hn _ t ht).value?_constant hkind hvalue]

/-- Values that become plugs one after the other. -/
theorem attains_mapM {items : List (Value Plug)} (hb : b.FindsConstants)
    (h : ∀ a ∈ items, ∀ b : Builder, b.FindsConstants →
      reading.Attains b (materialize a) fun p b' => b'.Shows p a) :
    reading.Attains b (items.mapM materialize) fun parts b' =>
      List.Forall₂ b'.Shows parts items := by
  induction items generalizing b with
  | nil => exact .pure hb .nil
  | cons a items ih =>
    rw [List.forall_mem_cons] at h
    rw [List.mapM_cons]
    refine (h.1 b hb).bind fun p b₁ hb₁ _ hp => ?_
    refine (ih hb₁ h.2).bind fun parts b₂ hb₂ hgrows hparts => .pure hb₂ ?_
    exact .cons (hp.mono hgrows) hparts

theorem map_signal?_of_shows {parts : List Plug} {items : List (Value Plug)}
    (h : List.Forall₂ b.Shows parts items) {r : Engine} (hr : r.Explains b.graph.nodes)
    {signals : List Signal} (hsignals : parts.map r.value? = signals.map some) :
    items.map (Value.signal? r) = signals.map some := by
  induction h generalizing signals with
  | nil => exact hsignals
  | cons hp _ ih =>
    cases signals with
    | nil => cases hsignals
    | cons s signals =>
      obtain ⟨hs, hrest⟩ := List.cons.inj hsignals
      rw [List.map_cons, List.map_cons, hp r hr s hs, ih hrest]

/-- A sequence becomes a constant, or a node that joins its parts. -/
theorem attains_sequence {items : List (Value Plug)} (hi : v.items? = some items)
    (hb : b.FindsConstants)
    (h : ∀ a ∈ items, ∀ b : Builder, b.FindsConstants →
      reading.Attains b (materialize a) fun p b' => b'.Shows p a) :
    reading.Attains b (materialize v) fun p b' => b'.Shows p v := by
  rw [Interpretation.materialize_of_items? hi]
  cases hxs : v.scalars? with
  | some xs => exact attains_literal (fun _ => Value.signal?_of_scalars? hxs) hb
  | none =>
    refine (attains_mapM hb h).bind fun parts b₁ hb₁ _ hparts => ?_
    refine (attains_addNode hb₁ .join {} (numbered parts)).mono fun p b₂ _ hgrows hp => ?_
    obtain ⟨n, hn, hkind, -, hinputs, rfl⟩ := hp
    -- four parts at most, so that all their numbers are read
    have hlength : parts.length ≤ 2 ^ 64 := by
      have := (Value.length_of_items? hi).2
      rw [hparts.length_eq]
      omega
    intro r hr s hs
    obtain ⟨signals, hsignals, hjoined⟩ := (hr n hn _ s hs).exists_joined hkind hinputs hlength
    rw [hs] at hjoined
    refine (Value.signal?_eq_some_iff hi).2 ⟨signals, ?_, Option.some.inj hjoined⟩
    exact map_signal?_of_shows hparts (hr.mono hgrows) hsignals

/-- A value becomes a plug with its signal. -/
theorem attains_materialize (v : Value Plug) (hb : b.FindsConstants) :
    reading.Attains b (materialize v) fun p b' => b'.Shows p v := by
  induction v generalizing b with
  | handle p => exact .pure hb fun _ _ _ hs => hs
  | scalar | bool | order => exact attains_literal (fun _ => rfl) hb
  | pair x y ihx ihy =>
    refine attains_sequence (v := .pair x y) rfl hb ?_
    simpa using ⟨fun _ => ihx, fun _ => ihy⟩
  | triple x y z ihx ihy ihz =>
    refine attains_sequence (v := .triple x y z) rfl hb ?_
    simpa using ⟨fun _ => ihx, fun _ => ihy, fun _ => ihz⟩
  | quad x y z w ihx ihy ihz ihw =>
    refine attains_sequence (v := .quad x y z w) rfl hb ?_
    simpa using ⟨fun _ => ihx, fun _ => ihy, fun _ => ihz, fun _ => ihw⟩

end Builder

end RigExpr
