import RigExpr.Proofs.Bindings
import RigExpr.Proofs.Compiler.Validation
import RigExpr.Proofs.Graph.Emission

/-!
# Sessions

A host asks a builder for inputs and outputs, and has sources compiled into it, in any
order; it binds names to literals and to values that it was returned before. Then the graph
is well-formed at all times (`Builder.WellFormed`), whatever the sources are and whether
their compilations succeed or fail.

* `Session.Trace.kept`: every request keeps the builder sound,
* `Session.wellFormed_of_trace`: so the graph is well-formed after every session.
-/

namespace RigExpr

open Compiler (Run)

/-- The values of names have the handles of what was bound. -/
theorem Bindings.over_register {H : Type} [ToString H] {P : H → Prop}
    {names : List (String × Value H)} (hnames : ∀ e ∈ names, e.2.Over P) {name : String}
    {v : Value H} (hv : (Bindings.empty.register names).values.get? name = some v) : v.Over P :=
  forall_register (P := fun _ v => v.Over P) (fun _ _ h => by cases h) hnames hv

/-! ## Compilations -/

/-- Moving negations into numbers changes nothing about which names are read. -/
theorem Token.Reads.of_foldNegation {tokens : List Token} {name : String}
    (h : Reads (foldNegation tokens) name) : Reads tokens name := by
  have hcons {t : Token} {rest : List Token} (h : Reads rest name) : Reads (t :: rest) name := by
    obtain ⟨before, next, after, rfl, hnext⟩ := h
    exact ⟨t :: before, next, after, rfl, hnext⟩
  fun_induction foldNegation tokens with
  | case1 text rest ih =>
    obtain ⟨before, next, after, heq, hnext⟩ := h
    cases before with
    | nil => cases heq
    | cons t before => exact hcons (hcons (ih ⟨before, next, after, (List.cons.inj heq).2, hnext⟩))
  | case2 t rest _ ih =>
    obtain ⟨before, next, after, heq, hnext⟩ := h
    cases before with
    | nil =>
      -- the token after the name is still the same, up to a sign
      obtain ⟨rfl, hrest⟩ := List.cons.inj heq
      fun_cases foldNegation rest with
      | case1 text rest => exact ⟨[], .number text, .negate :: rest, rfl, fun ht => by cases ht⟩
      | case2 t rest hnumber =>
        rw [foldNegation.eq_2 _ _ hnumber] at hrest
        obtain ⟨rfl, -⟩ := List.cons.inj hrest
        exact ⟨[], t, rest, rfl, hnext⟩
      | case3 => cases hrest
    | cons t' before => exact hcons (ih ⟨before, next, after, (List.cons.inj heq).2, hnext⟩)
  | case3 => exact h

namespace Compiler

variable {strict : Bool} {c : Compiler Builder Plug}

/-- A compiler whose builder is kept sound. -/
def upkeep (strict : Bool) : Upkeep (Compiler Builder Plug) where
  holds c := c.evaluation.backend.Sound strict
  grows c d := c.evaluation.backend.Extends d.evaluation.backend
  refl c := .refl c.evaluation.backend
  trans := .trans

/-- The value, if there is one, has plugs that are there. -/
def Known (slot : Slot Plug) (c : Compiler Builder Plug) : Prop :=
  Slot.Fine false c.evaluation.backend slot

theorem keeps_onEvaluation {α : Type} {a : Evaluation.Step Builder Plug α}
    {values : Table String (Value Plug)} {P : String → Prop}
    {post : α → Evaluation Builder Plug → Prop}
    (ha : (Evaluation.upkeep strict values P).Keeps c.evaluation a post) :
    (upkeep strict).Keeps c (onEvaluation a) fun v d => post v d.evaluation :=
  (Upkeep.Keeps.zoom ha fun _ he hext => ⟨he.sound, hext⟩).mono
    fun _ _ _ _ ⟨_, heq, hpost⟩ => heq ▸ hpost

/-- A step of the construction, between compilations or at their end. -/
theorem keeps_onBuilder {α : Type} {a : Action CompileError Builder α} {post : α → Builder → Prop}
    (ha : (Builder.upkeep strict).Keeps c.evaluation.backend a post) :
    (upkeep strict).Keeps c (onEvaluation (Evaluation.onBackend a))
      fun v d => post v d.evaluation.backend := by
  intro log
  obtain ⟨hholds, hgrows, hpost⟩ := ha log
  simp only [onEvaluation, Evaluation.onBackend, Action.runOn_zoom, Action.mapError_id]
  exact ⟨hholds, hgrows, hpost⟩

/-- The evaluation of tokens that read values that may be read. -/
theorem keeps_run {values : Table String (Value Plug)} {tokens : List Token}
    (h : c.evaluation.Kept strict values (Token.Reads tokens)) :
    (upkeep strict).Keeps c (run .emit tokens) Known := by
  unfold run
  refine .bind (keeps_onEvaluation (Evaluation.keeps_evaluate h)) fun slot d hd _ hslot => ?_
  have hconclude : (upkeep strict).Keeps d (conclude .emit slot) Known := by
    cases slot with
    | none => exact .pure hd nofun
    | some v =>
      rw [conclude, map_eq_pure_bind]
      refine .bind (keeps_onBuilder (Builder.keeps_onBackend (Builder.keeps_conclude hd v)))
        fun w d' hd' hext hw => .pure hd' ?_
      rw [hw]
      exact Slot.Fine.mono hslot hext
  refine .state ?_
  dsimp only
  split
  · exact hconclude
  · exact .say hconclude

/-- The post-order of a source, if it has one. -/
def postorder (limit : Nat) (source : String) : List Token :=
  match Statement.parse limit source with
  | .ok statement => statement.tokens
  | .error _ => []

/-- The names are bound to values of plugs that are there, and those that are read may be. -/
structure Admits (strict : Bool) (b : Builder) (tokens : List Token)
    (names : List (String × Value Plug)) : Prop where
  bound : ∀ e ∈ names, e.2.Over (b.Offers false)
  read : ∀ name v, Token.Reads tokens name →
    (Bindings.empty.register names).values.get? name = some v → v.Over (b.Offers strict)

theorem Admits.kept {tokens : List Token} {names : List (String × Value Plug)}
    (hc : c.evaluation.backend.Sound strict)
    (h : Admits strict c.evaluation.backend tokens names) :
    (c.primed names).evaluation.Kept strict (Bindings.empty.register names).values
      (Token.Reads tokens) where
  sound := hc
  table := rfl
  bound _ _ hv := Bindings.over_register h.bound hv
  read := h.read
  cache signature v hv := absurd hv (nofun : Table.empty.get? signature ≠ some v)

theorem Admits.fold {b : Builder} {tokens : List Token} {names : List (String × Value Plug)}
    (h : Admits strict b tokens names) : Admits strict b (Token.foldNegation tokens) names where
  bound := h.bound
  read name v hname := h.read name v hname.of_foldNegation

theorem keeps_prepare (hc : c.evaluation.backend.Sound strict) (source : String) :
    (upkeep strict).Keeps c (prepare source) fun tokens d =>
      d = c ∧ tokens = Token.foldNegation (postorder c.config.maxDepth source) := by
  refine .state ?_
  dsimp only
  split
  · exact .throw hc
  · next statement hparse => exact .say (.say (.pure hc ⟨rfl, by rw [postorder, hparse]⟩))

section

variable {names : List (String × Value Plug)} {source : String}
  (hc : c.evaluation.backend.Sound strict)
  (hnames : Admits strict c.evaluation.backend (postorder c.config.maxDepth source) names)

include hc hnames

theorem keeps_emit : (upkeep strict).Keeps c (emit source names) Known := by
  refine .change (.refl c.evaluation.backend) (.say ?_)
  refine .bind (keeps_prepare (c := c.primed names) hc source) fun tokens d hd _ htokens => ?_
  obtain ⟨rfl, rfl⟩ := htokens
  exact keeps_run (hnames.fold.kept hc)

theorem keeps_compile :
    (upkeep strict).Keeps c (compile .emit source names) fun product d =>
      ∃ slot, product = .value slot ∧ Known slot d := by
  refine .change (.refl c.evaluation.backend) (.state (.say ?_))
  refine .bind (keeps_prepare (c := c.primed names) hc source) fun tokens d hd _ htokens => ?_
  obtain ⟨rfl, rfl⟩ := htokens
  refine .bind (keeps_run (hnames.fold.kept hc)) fun slot d hd _ hslot => ?_
  exact .pure hd ⟨slot, rfl, hslot⟩

end

theorem keeps_compileTokens {names : List (String × Value Plug)} {tokens : List Token}
    (hc : c.evaluation.backend.Sound strict)
    (hnames : Admits strict c.evaluation.backend tokens names) :
    (upkeep strict).Keeps c (compileTokens .emit tokens names) fun product d =>
      ∃ slot, product = .value slot ∧ Known slot d := by
  refine .change (.refl c.evaluation.backend) (.say ?_)
  refine .bind (keeps_run (hnames.kept hc)) fun slot d hd _ hslot => ?_
  exact .pure hd ⟨slot, rfl, hslot⟩

end Compiler

/-! ## Requests -/

/-- The handles in a value. -/
def Value.handles {H : Type} : Value H → List H
  | scalar _ | bool _ | order _ => []
  | pair a b => a.handles ++ b.handles
  | triple a b c => a.handles ++ (b.handles ++ c.handles)
  | quad a b c d => a.handles ++ (b.handles ++ (c.handles ++ d.handles))
  | handle h => [h]

theorem Value.over_iff {H : Type} {P : H → Prop} {v : Value H} :
    v.Over P ↔ ∀ h ∈ v.handles, P h := by
  induction v with
  | scalar | bool | order => simp [Over, handles]
  | handle => simp [Over, handles]
  | pair a b iha ihb => simp [Over, handles, iha, ihb, or_imp, forall_and]
  | triple a b c iha ihb ihc => simp [Over, handles, iha, ihb, ihc, or_imp, forall_and]
  | quad a b c d iha ihb ihc ihd => simp [Over, handles, iha, ihb, ihc, ihd, or_imp, forall_and]

/-- What a host asks for. -/
inductive Request
  /-- Go on in a compiler with these settings. -/
  | configure (config : Config)
  | input (name : String) (value : Option Signal)
  | output (name : String)
  | bindings (inputs outputs : List String)
  | emit (source : String) (names : List (String × Value Plug))
  | compile (source : String) (names : List (String × Value Plug))
  | compileTokens (tokens : List Token) (names : List (String × Value Plug))

namespace Request

/-- The values that names are bound to. -/
def names : Request → List (String × Value Plug)
  | emit _ names | compile _ names | compileTokens _ names => names
  | _ => []

/-- The post-order of what is compiled. -/
def tokens (limit : Nat) : Request → List Token
  | emit source _ | compile source _ => Compiler.postorder limit source
  | compileTokens tokens _ => tokens
  | _ => []

/-- A step of the construction as part of a compilation. -/
def onBuilder {α : Type} (a : Builder.Build α) : Run Builder Plug α :=
  Compiler.onEvaluation (Evaluation.onBackend (Primitive.onBackend a))

/-- The value that a compilation yields, if any. -/
def values : Product Plug → List (Value Plug)
  | .value slot => slot.toList
  | .report _ => []

/-- Do what is asked for, and return the values that it yields. -/
def action : Request → Run Builder Plug (List (Value Plug))
  | configure config => do
    Action.change fun c => { config, evaluation := { backend := c.evaluation.backend } }
    return []
  | input name value => do return [← onBuilder (Builder.input name value)]
  | output name => do return [← onBuilder (Builder.output name)]
  | bindings inputs outputs => do
    return (← onBuilder (Builder.bindings inputs outputs)).map (·.2)
  | emit source names => do return (← Compiler.emit source names).toList
  | compile source names => do return values (← Compiler.compile .emit source names)
  | compileTokens tokens names => do return values (← Compiler.compileTokens .emit tokens names)

/-- Names are bound to literals and to plugs that were returned before. -/
def Own (returned : List (Value Plug)) (r : Request) : Prop :=
  ∀ e ∈ r.names, ∀ p ∈ e.2.handles, ∃ v ∈ returned, p ∈ v.handles

/-- An operand, or the source of an assignment, is a value with a plug of an output towards
    the host. -/
def ReadsOutput (c : Compiler Builder Plug) (r : Request) : Prop :=
  ∃ name, Token.Reads (r.tokens c.config.maxDepth) name ∧
    ∃ v, (Bindings.empty.register r.names).values.get? name = some v ∧
      ∃ p ∈ v.handles, c.evaluation.backend.kind? p = some .output

variable {strict : Bool} {c : Compiler Builder Plug} {returned : List (Value Plug)} {r : Request}

/-- A request that reads no output of the host is admitted by a strict builder, and every
    request by any. -/
theorem admits (hc : c.evaluation.backend.Sound strict)
    (hreturned : ∀ v ∈ returned, v.Over (c.evaluation.backend.Offers false))
    (hown : r.Own returned) (hread : strict = true → ¬r.ReadsOutput c) :
    Compiler.Admits strict c.evaluation.backend (r.tokens c.config.maxDepth) r.names := by
  have hbound : ∀ e ∈ r.names, e.2.Over (c.evaluation.backend.Offers false) := by
    refine fun e he => Value.over_iff.2 fun p hp => ?_
    obtain ⟨v, hv, hpv⟩ := hown e he p hp
    exact Value.over_iff.1 (hreturned v hv) p hpv
  refine ⟨hbound, fun name v hname hv => Value.over_iff.2 fun p hp => ?_⟩
  obtain ⟨n, hn, hid, houtlet, -⟩ := Value.over_iff.1 (Bindings.over_register hbound hv) p hp
  refine ⟨n, hn, hid, houtlet, fun hstrict hkind => hread hstrict ?_⟩
  exact ⟨name, hname, v, hv, p, hp, hkind ▸ hc.kind? hn hid⟩

/-- Every request keeps the builder sound, and returns values of plugs that are there. -/
theorem keeps_action (hc : c.evaluation.backend.Sound strict)
    (hreturned : ∀ v ∈ returned, v.Over (c.evaluation.backend.Offers false))
    (hown : r.Own returned) (hread : strict = true → ¬r.ReadsOutput c) :
    (Compiler.upkeep strict).Keeps c r.action fun values d =>
      ∀ v ∈ values, v.Over (d.evaluation.backend.Offers false) := by
  have hadmits := admits hc hreturned hown hread
  have hslot {slot : Slot Plug} {d : Compiler Builder Plug} (h : Compiler.Known slot d) :
      ∀ v ∈ slot.toList, v.Over (d.evaluation.backend.Offers false) :=
    fun v hv => h v (by simpa using hv)
  cases r with
  | configure config =>
    exact .change (.refl c.evaluation.backend) (.pure hc fun _ hv => absurd hv List.not_mem_nil)
  | input name value =>
    refine .bind (Compiler.keeps_onBuilder (Builder.keeps_onBackend
      (Builder.keeps_input hc name value))) fun v d hd _ hv => ?_
    exact .pure hd (by simpa using hv)
  | output name =>
    refine .bind (Compiler.keeps_onBuilder (Builder.keeps_onBackend
      (Builder.keeps_output hc name))) fun v d hd _ hv => ?_
    exact .pure hd (by simpa using hv)
  | bindings inputs outputs =>
    refine .bind (Compiler.keeps_onBuilder (Builder.keeps_onBackend
      (Builder.keeps_bindings hc inputs outputs))) fun pairs d hd _ hpairs => ?_
    refine .pure hd fun v hv => ?_
    obtain ⟨e, he, rfl⟩ := List.mem_map.1 hv
    exact hpairs e he
  | emit source names =>
    exact .bind (Compiler.keeps_emit hc hadmits) fun slot d hd _ h => .pure hd (hslot h)
  | compile source names =>
    refine .bind (Compiler.keeps_compile hc hadmits) fun product d hd _ hproduct => ?_
    obtain ⟨slot, rfl, h⟩ := hproduct
    exact .pure hd (hslot h)
  | compileTokens tokens names =>
    refine .bind (Compiler.keeps_compileTokens hc hadmits) fun product d hd _ hproduct => ?_
    obtain ⟨slot, rfl, h⟩ := hproduct
    exact .pure hd (hslot h)

end Request

/-- The requests so far have led to this compiler, and have returned these values. -/
structure Session where
  compiler : Logged (Compiler Builder Plug)
  returned : List (Value Plug) := []

namespace Session

/-- A new builder in a compiler with these settings. -/
def new (config : Config) : Session where
  compiler := ⟨{ config, evaluation := { backend := {} } }, []⟩

/-- The session after one more request. One that fails returns nothing. -/
def perform (s : Session) (r : Request) : Session :=
  match r.action.runOn s.compiler with
  | (.ok values, compiler) => { compiler, returned := s.returned ++ values }
  | (.error _, compiler) => { s with compiler }

/-- The graph under construction. -/
def builder (s : Session) : Builder := s.compiler.state.evaluation.backend

/-- The requests that led from a new builder to a session, each with the session before it. -/
inductive Trace : List (Session × Request) → Session → Prop
  | new (config : Config) : Trace [] (.new config)
  | step {past : List (Session × Request)} {s : Session} (h : Trace past s) {r : Request}
    (hown : r.Own s.returned) : Trace (past ++ [(s, r)]) (s.perform r)

variable {strict : Bool} {s : Session} {past : List (Session × Request)}

/-- The builder is sound, and all values that were returned are of plugs that are there. -/
structure Kept (strict : Bool) (s : Session) : Prop where
  sound : s.builder.Sound strict
  returned : ∀ v ∈ s.returned, v.Over (s.builder.Offers false)

theorem kept_new (config : Config) : (new config).Kept strict where
  sound := Builder.sound_empty
  returned _ hv := absurd hv List.not_mem_nil

/-- One request. -/
theorem Kept.perform (h : s.Kept strict) {r : Request} (hown : r.Own s.returned)
    (hread : strict = true → ¬r.ReadsOutput s.compiler.state) : (s.perform r).Kept strict := by
  obtain ⟨hsound, hext, hvalues⟩ :=
    Request.keeps_action h.sound h.returned hown hread s.compiler.log
  unfold Session.perform
  rcases hrun : r.action.runOn s.compiler with ⟨e | values, compiler⟩
  · rw [hrun] at hsound hext
    exact ⟨hsound, fun v hv => hext.over (h.returned v hv)⟩
  · rw [hrun] at hsound hext hvalues
    refine ⟨hsound, fun v hv => ?_⟩
    rcases List.mem_append.1 hv with hv | hv
    · exact hext.over (h.returned v hv)
    · exact hvalues values rfl v hv

/-- All requests. A strict builder is kept so if none of them reads an output of the host. -/
theorem Trace.kept (h : Trace past s)
    (hread : strict = true → ∀ step ∈ past, ¬step.2.ReadsOutput step.1.compiler.state) :
    s.Kept strict := by
  induction h with
  | new config => exact kept_new config
  | step h hown ih =>
    exact (ih fun hstrict step hstep => hread hstrict step (List.mem_append_left _ hstep)).perform
      hown fun hstrict => hread hstrict _ (List.mem_append_right _ List.mem_cons_self)

/-- The graph is well-formed after every session. -/
theorem wellFormed_of_trace (h : Trace past s) : s.builder.WellFormed :=
  (h.kept nofun : s.Kept false).sound.wellFormed

/-- An output that drives itself, by way of the quaternion of an Euler rotation. -/
theorem wellFormed_feedback :
    let host : List (String × Value Plug) :=
      [("a", .handle { node := "input_1" }), ("o", .handle { node := "output_2" })]
    let s := ((new {}).perform (.bindings ["a"] ["o"])).perform
      (.emit "o = euler([a, 0, o]).quat" host)
    s.builder.graph.nodeIds = ["input_1", "output_2", "constant_3", "join_4", "euler_5"] ∧
      s.builder.WellFormed := by
  intro host s
  have hrun : s.builder.graph.nodeIds =
        ["input_1", "output_2", "constant_3", "join_4", "euler_5"] ∧
      ∀ e ∈ host, ∀ p ∈ e.2.handles,
        ∃ v ∈ ((new {}).perform (.bindings ["a"] ["o"])).returned, p ∈ v.handles := by
    decide +kernel
  have hnew : (Request.bindings ["a"] ["o"]).Own [] := fun _ h => absurd h List.not_mem_nil
  exact ⟨hrun.1, wellFormed_of_trace (.step (.step (.new {}) hnew) hrun.2)⟩

end Session

end RigExpr
