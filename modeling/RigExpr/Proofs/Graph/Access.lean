import RigExpr.Proofs.Graph.Readings

/-!
# Components of sequences

A component of a sequence is taken from the sequence itself, at the time of the construction,
while a component of a plug is taken at run time, by a node. For the plug that the sequence
becomes this is not the same (`Session.component_of_sequence`): the one is the part at that
index, whatever it carries, and the other is the number at that index among the components of all
parts. They agree on parts that carry one number each, and differ where a part before it, or the
part itself, carries a vector (`Session.component_of_sequence_vector`).
-/

namespace RigExpr

namespace Signal

/-- Behind signals of one component each, the first component of a signal is at its index. -/
theorem getElem?_flatMap_components {signals : List Signal} {i : Nat} {x : Float}
    (h : ∀ s ∈ signals.take i, s.components.length = 1) (hx : signals[i]? = some (.float x)) :
    (signals.flatMap components)[i]? = some x := by
  induction signals generalizing i with
  | nil => cases hx
  | cons s signals ih =>
    cases i with
    | zero =>
      cases hx
      rfl
    | succ i =>
      -- the signal in front takes up one place in both lists
      rw [List.take_succ_cons, List.forall_mem_cons] at h
      obtain ⟨y, hy⟩ := List.length_eq_one_iff.1 h.1
      rw [List.flatMap_cons, hy, List.singleton_append, List.getElem?_cons_succ]
      exact ih h.2 hx

end Signal

namespace Builder

variable {strict : Bool} {b : Builder} {v : Value Plug} {items : List (Value Plug)} {i : Nat}

/-- The plugs of a component of a value: of the one that is taken from the value, and of the one
    that is taken from the plug of the value. -/
def componentBothWays (v : Value Plug) (i : Nat) : Build (Plug × Plug) := do
  let direct ← materialize (← component v (.axis i))
  let taken ← component (.handle (← materialize v)) (.axis i)
  return (direct, ← materialize taken)

theorem component_of_items? (hi : v.items? = some items) (hlt : i < items.length) :
    component v (.axis i) = pure items[i] := by
  have hget : items[i]? = some items[i] := List.getElem?_eq_getElem hlt
  cases v with
  | scalar | bool | order | handle => cases hi
  | pair | triple | quad =>
    simp only [component, hi]
    rw [hget]

theorem component_handle (p : Plug) (i : Nat) :
    component (.handle p) (.axis i) =
      Value.handle <$> addNode .component { index := some i } [("in", p)] := by
  simp [component, emit, wire, materialize]

/-- A list of parts is the sequence of them, as a plug. -/
theorem perform_vector (hi : v.items? = some items) :
    perform (.vector items) = Value.handle <$> materialize v := by
  rw [map_eq_pure_bind]
  cases v with
  | scalar | bool | order | handle => cases hi
  | pair | triple | quad => cases hi; rfl

theorem attains_componentBothWays (hi : v.items? = some items) (hlt : i < items.length)
    (hb : b.FindsConstants) :
    reading.Attains b (componentBothWays v i) fun plugs b' => b'.Shows plugs.1 items[i] ∧
      ∃ whole, b'.Shows whole v ∧ ∃ n ∈ b'.graph.nodes, n.kind = .component ∧
        n.params = { index := some i } ∧ n.inputs = Table.ofList [("in", whole)] ∧
        plugs.2 = { node := n.id } := by
  rw [componentBothWays, component_of_items? hi hlt]
  simp only [pure_bind]
  refine (attains_materialize items[i] hb).bind fun direct b₁ hb₁ _ hdirect => ?_
  refine (attains_materialize v hb₁).bind fun whole b₂ hb₂ hgrows hwhole => ?_
  simp only [component_handle, map_eq_pure_bind, bind_assoc, pure_bind, materialize]
  refine (attains_addNode hb₂ _ _ _).bind fun taken b₃ hb₃ hgrows' htaken => .pure hb₃ ?_
  exact ⟨(hdirect.mono hgrows).mono hgrows', whole, hwhole.mono hgrows', htaken⟩

theorem keeps_componentBothWays (h : b.Sound strict) (hv : v.Over (b.Offers strict)) (i : Nat) :
    (upkeep strict).Keeps b (componentBothWays v i) fun plugs b' =>
      b'.Offers strict plugs.1 ∧ b'.Offers strict plugs.2 := by
  refine (safe_component h hv _).bind fun item b₁ h₁ e₁ hitem => ?_
  refine (keeps_materialize h₁ hitem).bind fun direct b₂ h₂ e₂ hdirect => ?_
  have hv₂ := (e₁.trans e₂).over hv
  refine (keeps_materialize h₂ hv₂).bind fun whole b₃ h₃ e₃ hwhole => ?_
  refine (safe_component h₃ (v := .handle whole) hwhole _).bind fun taken b₄ h₄ e₄ htaken => ?_
  refine (keeps_materialize h₄ htaken).bind fun p b₅ h₅ e₅ hp => .pure h₅ ⟨?_, hp⟩
  exact ((e₃.trans e₄).trans e₅).offers hdirect

/-- After an evaluation that has not failed, there is a signal at each plug that is offered. -/
theorem Offers.exists_value? {p : Plug} {r : Engine} {log : List Line} (hp : b.Offers strict p)
    (h : b.WellFormed) (hok : ((Engine.evaluate b.graph).runOn ⟨r, log⟩).1 = .ok ()) :
    ∃ s, ((Engine.evaluate b.graph).runOn ⟨r, log⟩).2.state.value? p = some s := by
  obtain ⟨n, hn, hid, houtlet, -⟩ := hp
  exact h.exists_value? ((h.kinds p.node n.kind).2 ⟨n, hn, hid, rfl⟩) houtlet hok

/-- The component of a sequence carries what the part at this index does, and that of its plug the
    number at this index among the components of all parts. -/
theorem readings_componentBothWays (h : b.Sound strict) (hb : b.FindsConstants)
    (hi : v.items? = some items) (hv : v.Over (b.Offers strict)) (hlt : i < items.length)
    (log : List Line) :
    ∃ direct taken t, (componentBothWays v i).runOn ⟨b, log⟩ = (.ok (direct, taken), t) ∧
      ∀ (r : Engine) (log' : List Line),
        let e := (Engine.evaluate t.state.graph).runOn ⟨r, log'⟩
        (e.1 = .ok () →
          ∃ x y, e.2.state.value? direct = some x ∧ e.2.state.value? taken = some y) ∧
        ∀ x y, e.2.state.value? direct = some x → e.2.state.value? taken = some y →
          ∃ signals : List Signal, items.map (Value.signal? e.2.state) = signals.map some ∧
            signals[i]? = some x ∧
            y = .float ((signals.flatMap Signal.components)[i]?.getD Number.nan) := by
  obtain ⟨⟨direct, taken⟩, t, hrun, -, -, hdirect, whole, hwhole, n, hn, hkind, hparams, hinputs,
    rfl⟩ := attains_componentBothWays hi hlt hb log
  obtain ⟨hsound, -, hoffers⟩ := keeps_componentBothWays h hv i log
  rw [hrun] at hsound hoffers
  have hwellFormed := hsound.wellFormed
  refine ⟨direct, _, t, hrun, fun r log' => ⟨fun hok => ?_, fun x y hx hy => ?_⟩⟩
  · obtain ⟨hdirect, htaken⟩ := hoffers _ rfl
    obtain ⟨x, hx⟩ := hdirect.exists_value? hwellFormed hok
    obtain ⟨y, hy⟩ := htaken.exists_value? hwellFormed hok
    exact ⟨x, y, hx, hy⟩
  · have hexplains := Engine.explains_evaluate hwellFormed r log'
    obtain ⟨joined, hjoined, htaken⟩ :=
      (hexplains n hn _ y hy).exists_component hkind (congrArg Params.index hparams) hinputs
    obtain ⟨signals, hsignals, rfl⟩ :=
      (Value.signal?_eq_some_iff hi).1 (hwhole _ hexplains _ hjoined)
    refine ⟨signals, hsignals, ?_, Option.some.inj (hy.symm.trans htaken)⟩
    -- the part has the signal of the plug that it becomes on its own
    have hget := congrArg (·[i]?) hsignals
    simp only [List.getElem?_map, List.getElem?_eq_getElem hlt, Option.map_some,
      hdirect _ hexplains x hx] at hget
    obtain ⟨part, hpart, heq⟩ := Option.map_eq_some_iff.1 hget.symm
    rw [hpart, heq]

end Builder

namespace Session

variable {s : Session} {past : List (Session × Request)}

open Builder (componentBothWays)

/-- A component of a sequence of parts is the part at this index, and a component of the vector
    that the sequence becomes is the number at this index among the components of all parts.
    Behind parts that carry one component each, they agree just if the part carries a number. -/
theorem component_of_sequence (h : Trace past s) {v : Value Plug} {items : List (Value Plug)}
    (hi : v.items? = some items) (hv : v.Over (s.builder.Offers false)) {i : Nat}
    (hlt : i < items.length) (log : List Line) :
    Builder.perform (.vector items) = Value.handle <$> Builder.materialize v ∧
    ∃ direct taken t,
      (componentBothWays v i).runOn ⟨s.builder, log⟩ = (.ok (direct, taken), t) ∧
      ∀ (r : Engine) (log' : List Line),
        let e := (Engine.evaluate t.state.graph).runOn ⟨r, log'⟩
        (e.1 = .ok () →
          ∃ x y, e.2.state.value? direct = some x ∧ e.2.state.value? taken = some y) ∧
        ∀ x y, e.2.state.value? direct = some x → e.2.state.value? taken = some y →
          ∃ signals : List Signal, items.map (Value.signal? e.2.state) = signals.map some ∧
            signals[i]? = some x ∧
            y = .float ((signals.flatMap Signal.components)[i]?.getD Number.nan) ∧
            ((∀ p ∈ signals.take i, p.components.length = 1) → (x = y ↔ ∃ c, x = .float c)) := by
  have hkept : s.Kept false := h.kept (by simp)
  obtain ⟨direct, taken, t, hrun, hreadings⟩ :=
    Builder.readings_componentBothWays hkept.sound h.findsConstants hi hv hlt log
  refine ⟨Builder.perform_vector hi, direct, taken, t, hrun, fun r log' => ?_⟩
  refine ⟨(hreadings r log').1, fun x y hx hy => ?_⟩
  obtain ⟨signals, hsignals, hpart, rfl⟩ := (hreadings r log').2 x y hx hy
  refine ⟨signals, hsignals, hpart, rfl, fun hsingle => ⟨fun hxy => ⟨_, hxy⟩, ?_⟩⟩
  rintro ⟨c, rfl⟩
  rw [Signal.getElem?_flatMap_components hsingle hpart]
  rfl

/-- Behind a number the second part of a pair is its second component either way. -/
theorem component_of_sequence_number :
    let s := (new {}).perform (.bindings ["a"] [])
    let v : Value Plug := .pair (.handle { node := "input_1" }) (.scalar 3)
    let t := (componentBothWays v 1).runOn ⟨s.builder, []⟩
    let e := (Engine.evaluate t.2.state.graph).runOn ⟨(({} : Engine).stage "a" (.float 5)).2, []⟩
    t.1.toOption = some ({ node := "constant_2" }, { node := "component_4" }) ∧
      e.2.state.value? { node := "constant_2" } = some (.float 3) ∧
      e.2.state.value? { node := "component_4" } = some (.float 3) := by
  intro s v t e
  -- the kernel can run all of it but for the order in which a join reads its operands
  have hkernel : t.1.toOption = some ({ node := "constant_2" }, { node := "component_4" }) ∧
      e.1 = .ok () ∧ e.2.state.value? { node := "input_1" } = some (.float 5) := by
    decide +kernel
  obtain ⟨hplugs, hok, hinput⟩ := hkernel
  have hnew : (Request.bindings ["a"] []).Own [] := fun _ h => absurd h List.not_mem_nil
  have htrace : Trace _ s := .step (.new {}) hnew
  have hv : v.Over (s.builder.Offers false) :=
    ⟨⟨_, List.mem_cons_self, rfl, rfl, Builder.readable_of_ne (by decide)⟩, trivial⟩
  obtain ⟨-, direct, taken, u, hrun, hreadings⟩ :=
    component_of_sequence htrace rfl hv Nat.one_lt_two []
  obtain rfl : t.2 = u := congrArg Prod.snd hrun
  have hsome : some (direct, taken) = _ := (congrArg (·.1.toOption) hrun).symm.trans hplugs
  cases hsome
  have he : (Engine.evaluate t.2.state.graph).runOn ⟨_, []⟩ = e := rfl
  obtain ⟨hvalued, hvalues⟩ := hreadings (({} : Engine).stage "a" (.float 5)).2 []
  rw [he] at hvalued hvalues
  obtain ⟨x, y, hx, hy⟩ := hvalued hok
  obtain ⟨signals, hsignals, hpart, -, hagree⟩ := hvalues x y hx hy
  obtain rfl : [.float 5, .float 3] = signals := by
    refine List.map_injective_iff.2 (Option.some_injective _) ?_
    rw [← hsignals]
    exact congrArg (· :: _) hinput.symm
  cases hpart
  obtain rfl := (hagree (by decide)).2 ⟨_, rfl⟩
  exact ⟨hplugs, hx, hy⟩

/-- Behind a vector of two numbers the second part of a pair is its third component, and what is
    taken from the plug of the pair is the second number of the vector. -/
theorem component_of_sequence_vector :
    let s := (new {}).perform (.bindings ["a"] [])
    let v : Value Plug := .pair (.handle { node := "input_1" }) (.scalar 3)
    let t := (componentBothWays v 1).runOn ⟨s.builder, []⟩
    let e := (Engine.evaluate t.2.state.graph).runOn
      ⟨(({} : Engine).stage "a" (.vector [1, 2])).2, []⟩
    t.1.toOption = some ({ node := "constant_2" }, { node := "component_4" }) ∧
      e.2.state.value? { node := "constant_2" } = some (.float 3) ∧
      e.2.state.value? { node := "component_4" } = some (.float 2) := by
  intro s v t e
  have hkernel : t.1.toOption = some ({ node := "constant_2" }, { node := "component_4" }) ∧
      e.1 = .ok () ∧ e.2.state.value? { node := "input_1" } = some (.vector [1, 2]) := by
    decide +kernel
  obtain ⟨hplugs, hok, hinput⟩ := hkernel
  have hnew : (Request.bindings ["a"] []).Own [] := fun _ h => absurd h List.not_mem_nil
  have htrace : Trace _ s := .step (.new {}) hnew
  have hkept : s.Kept false := htrace.kept (by simp)
  have hv : v.Over (s.builder.Offers false) :=
    ⟨⟨_, List.mem_cons_self, rfl, rfl, Builder.readable_of_ne (by decide)⟩, trivial⟩
  obtain ⟨direct, taken, u, hrun, hreadings⟩ :=
    Builder.readings_componentBothWays hkept.sound htrace.findsConstants rfl hv Nat.one_lt_two []
  obtain rfl : t.2 = u := congrArg Prod.snd hrun
  have hsome : some (direct, taken) = _ := (congrArg (·.1.toOption) hrun).symm.trans hplugs
  cases hsome
  have he : (Engine.evaluate t.2.state.graph).runOn ⟨_, []⟩ = e := rfl
  obtain ⟨hvalued, hvalues⟩ := hreadings (({} : Engine).stage "a" (.vector [1, 2])).2 []
  rw [he] at hvalued hvalues
  obtain ⟨x, y, hx, hy⟩ := hvalued hok
  obtain ⟨signals, hsignals, hpart, rfl⟩ := hvalues x y hx hy
  obtain rfl : [.vector [1, 2], .float 3] = signals := by
    refine List.map_injective_iff.2 (Option.some_injective _) ?_
    rw [← hsignals]
    exact congrArg (· :: _) hinput.symm
  cases hpart
  exact ⟨hplugs, hx, hy⟩

end Session

end RigExpr
