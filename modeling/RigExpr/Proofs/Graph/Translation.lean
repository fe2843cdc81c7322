import RigExpr.Proofs.Compiler.Validation
import RigExpr.Proofs.Graph.Interface
import RigExpr.Proofs.Graph.Operations

/-!
# Expressions become nodes with their signals

Evaluating an expression over the inputs of the host builds nodes, and the value that comes
of it carries the signal of the expression (`Expr.evaluates`).

Applications are shared: one that was made before is found by its signature, which is
written with the names of the inputs and the ids of the other nodes. So an input that goes
by the id of a node, or by the text of a number, can be mistaken for it. Where the names
that are read are clear of these (`Builder.IsClear`), a signature determines the application
(`Interface.signature_injective`), and what the cache remembers is what the application
carries (`Interpretation.Remembers`).
-/

namespace RigExpr

/-- The application takes that many operands, and is written by its name. -/
theorem Primitive.accepts_of_signal {p : Primitive} {args : List Signal} {s : Signal}
    (h : p.signal args = some s) : p.accepts args.length = true ∧ p.HasName := by
  unfold signal at h
  split at h
  · exact ⟨rfl, trivial⟩
  · exact ⟨rfl, trivial⟩
  · exact ⟨rfl, trivial⟩
  · exact ⟨rfl, trivial⟩
  · split at h
    · next hlength => exact ⟨by simpa [accepts] using hlength, trivial⟩
    · cases h
  · split at h
    · next hf => exact ⟨hf.2, trivial⟩
    · cases h
  · cases h

namespace Builder

/-- A name by which neither a number goes, nor a node that is no part of the interface to
    the host. -/
structure IsClear (name : String) : Prop where
  infinity : name ≠ "inf"
  nan : name ≠ "NaN"
  node : ∀ kind k, kind ≠ .input → kind ≠ .output → name ≠ nodeId kind k

/-- A name without underscore is not the id of a node. -/
theorem isClear_of_notMem {name : String} (h : '_' ∉ name.toList) (hinfinity : name ≠ "inf")
    (hnan : name ≠ "NaN") : IsClear name where
  infinity := hinfinity
  nan := hnan
  node kind k _ _ := by
    rintro rfl
    exact h (isLabel_nodeId kind k).underscore

/-- Only a plug can go by a clear name. -/
theorem IsClear.exists_handle {name : String} (h : IsClear name)
    (hwritten : (Token.identifier name).IsWritten) {v : Value Plug} (htext : v.text = name) :
    ∃ p, v = .handle p := by
  have hbracket {v : Value Plug} {items : List (Value Plug)} (hi : v.items? = some items)
      (htext : v.text = name) : False := by
    obtain ⟨c, cs, hcs, hc, -⟩ := hwritten.1
    rw [← htext, Value.text_of_items? hi, toList_bracket] at hcs
    rw [← (List.cons.inj hcs).1] at hc
    exact absurd hc (by decide)
  cases v with
  | handle p => exact ⟨p, rfl⟩
  | scalar x =>
    obtain ⟨c, cs, hcs, hc, -⟩ := hwritten.1
    have htext : Number.text x = name := htext
    rcases Number.text_eq_of_isAlpha (htext ▸ hcs) hc with hnan | hinfinity
    · exact absurd (htext.symm.trans hnan) h.nan
    · exact absurd (htext.symm.trans hinfinity) h.infinity
  | bool b =>
    have hword := hwritten.2
    rw [← htext] at hword
    cases b <;> exact absurd hword (by decide)
  | order o =>
    have hword := hwritten.2
    rw [← htext] at hword
    cases o <;> exact absurd hword (by decide)
  | pair | triple | quad => exact (hbracket rfl htext).elim

/-- A plug that may be read: of a node that is no part of the interface to the host, or of
    an input with a clear name. -/
def Usable (b : Builder) (plugs : List (String × Value Plug)) (p : Plug) : Prop :=
  b.IsInner p ∨ b.IsSource p ∧ ∃ name, (Token.identifier name).IsWritten ∧ IsClear name ∧
    (name, .handle p) ∈ plugs

variable {env : String → Option Signal} {M M' : Interpretation env}
  {hosts : List (Kind × String)} {plugs : List (String × Value Plug)} {p : Plug}

theorem Usable.isSource (h : M.builder.Usable plugs p) : M.builder.IsSource p :=
  h.elim IsInner.isSource And.left

theorem Interpretation.Grows.usable (hgrows : M.Grows M') (h : M.builder.Usable plugs p) :
    M'.builder.Usable plugs p :=
  h.imp hgrows.isInner fun h => ⟨hgrows.isSource h.1, h.2⟩

/-- The plug of a node that is there. -/
def Known (b : Builder) (p : Plug) : Prop :=
  p.outlet = Kind.mainOutlet ∧ ∃ n ∈ b.graph.nodes, n.id = p.node

theorem Usable.known (h : M.builder.Usable plugs p) : M.builder.Known p := by
  obtain ⟨houtlet, n, hn, hid, -⟩ := h.isSource
  exact ⟨houtlet, n, hn, hid⟩

theorem Known.toString_eq {b : Builder} (h : b.Known p) : toString p = p.node := if_pos h.1

/-- Plugs are told apart by the ids of their nodes. -/
theorem labels_known (M : Interpretation env) : Value.Labels M.builder.Known where
  isLabel {p} hp := by
    obtain ⟨-, n, hn, hid⟩ := id hp
    obtain ⟨k, -, hk⟩ := M.ids n hn
    rw [hp.toString_eq, ← hid, hk]
    exact isLabel_nodeId n.kind k
  injective {p q} hp hq h := by
    rw [hp.toString_eq, hq.toString_eq] at h
    obtain ⟨node, outlet⟩ := p
    obtain ⟨node', outlet'⟩ := q
    obtain rfl : outlet = Kind.mainOutlet := hp.1
    obtain rfl : outlet' = Kind.mainOutlet := hq.1
    obtain rfl : node = node' := h
    rfl

namespace Interface

variable (h : Interface M.builder hosts plugs)

include h

theorem known {name : String} {v : Value Plug} (hv : (name, v) ∈ plugs) :
    v.Over M.builder.Known := by
  obtain ⟨n, hn, rfl, -, -⟩ := h.plug name v hv
  exact ⟨rfl, n, hn, rfl⟩

theorem over_known : (Bindings.empty.register plugs).Over M.builder.Known where
  mirrors := Bindings.mirrors_register plugs
  values hv := h.known (h.get?_values.1 hv)

/-- A value that may be read, and that a name stands for, has a clear name. -/
theorem isClear {name : String} {v : Value Plug} (hv : v.Over (M.builder.Usable plugs))
    (hmem : (name, v) ∈ plugs) : (Token.identifier name).IsWritten ∧ IsClear name := by
  obtain ⟨n, hn, rfl, -, hhost⟩ := h.plug name v hmem
  rcases hv with ⟨-, m, hm, hid, hinput, houtput⟩ | ⟨-, name', hwritten, hclear, hmem'⟩
  · obtain rfl := Engine.eq_of_id_eq M.solution.nodup hm hn hid
    exact absurd (h.kinds _ hhost) (not_or.2 ⟨hinput, houtput⟩)
  · obtain rfl := h.name_injective hmem hmem' rfl
    exact ⟨hwritten, hclear⟩

/-- The name of one value is not the text of another one that has no name. -/
theorem eq_of_text {v w : Value Plug} (hv : v.Over (M.builder.Usable plugs))
    (hw : w.Over (M.builder.Usable plugs))
    (hnone : (Bindings.empty.register plugs).names.get? w.text = none)
    (hbound : (Bindings.empty.register plugs).values.get? w.text = some v) : v = w := by
  obtain ⟨hwritten, hclear⟩ := h.isClear hv (h.get?_values.1 hbound)
  obtain ⟨p, rfl⟩ := hclear.exists_handle hwritten rfl
  rcases hw with hinner | ⟨-, name, -, -, hmem⟩
  · -- an inner node goes by its id, which is no clear name
    have husable : M.builder.Usable plugs p := .inl hinner
    obtain ⟨-, n, hn, hid, hinput, houtput⟩ := hinner
    obtain ⟨k, -, hk⟩ := M.ids n hn
    refine absurd ?_ (hclear.node n.kind k hinput houtput)
    rw [← hk, hid]
    exact husable.known.toString_eq
  · rw [h.get?_names hmem] at hnone
    cases hnone

/-- Descriptions tell values that may be read apart. -/
theorem describe_injective {v w : Value Plug} (hv : v.Over (M.builder.Usable plugs))
    (hw : w.Over (M.builder.Usable plugs))
    (heq :
      (Bindings.empty.register plugs).describe v = (Bindings.empty.register plugs).describe w) :
    v = w :=
  h.over_known.describe_injective (labels_known M) (hv.imp fun _ => Usable.known)
    (hw.imp fun _ => Usable.known) (h.eq_of_text hv hw) (h.eq_of_text hw hv) heq

/-- The signature determines the application. -/
theorem signature_injective {p q : Primitive} {args args' : List (Value Plug)}
    (hp : p.accepts args.length = true ∧ p.HasName) (hq : q.accepts args'.length = true ∧ q.HasName)
    (hargs : ∀ a ∈ args, a.Over (M.builder.Usable plugs))
    (hargs' : ∀ a ∈ args', a.Over (M.builder.Usable plugs))
    (heq : p.signature (args.map (Bindings.empty.register plugs).describe) =
      q.signature (args'.map (Bindings.empty.register plugs).describe)) : p = q ∧ args = args' := by
  have hrender {args : List (Value Plug)} (hargs : ∀ a ∈ args, a.Over (M.builder.Usable plugs)) :
      ∀ s ∈ args.map (Bindings.empty.register plugs).describe, Rendering s := by
    intro s hs
    obtain ⟨a, ha, rfl⟩ := List.mem_map.1 hs
    exact h.over_known.rendering_describe (labels_known M) ((hargs a ha).imp fun _ => Usable.known)
      fun hbound => (h.isClear (hargs a ha) (h.get?_values.1 hbound)).1.1
  obtain ⟨hpq, hmap⟩ := Primitive.signature_injective (by simpa using hp.1) (by simpa using hq.1)
    hp.2 hq.2 (hrender hargs) (hrender hargs') heq
  exact ⟨hpq, Value.eq_of_map_eq (fun a ha b hb => h.describe_injective (hargs a ha) (hargs' b hb))
    hmap⟩

end Interface

namespace Interpretation

/-! ## Applications that are remembered -/

/-- The value may be read, and has this signal. -/
def Bears (M : Interpretation env) (plugs : List (String × Value Plug)) (v : Value Plug)
    (s : Signal) : Prop :=
  v.Over (M.builder.Usable plugs) ∧ v.signal M.value = s

/-- The values may be read, and have these signals. -/
def BearAll (M : Interpretation env) (plugs : List (String × Value Plug))
    (args : List (Value Plug)) (signals : List Signal) : Prop :=
  (∀ a ∈ args, a.Over (M.builder.Usable plugs)) ∧ args.map (Value.signal M.value) = signals

variable {args : List (Value Plug)} {signals : List Signal} {v : Value Plug} {s : Signal}

theorem Bears.carries (h : M.Bears plugs v s) : M.Carries v s :=
  ⟨h.1.imp fun _ => Usable.isSource, h.2⟩

theorem Bears.grows (h : M.Bears plugs v s) (hgrows : M.Grows M') : M'.Bears plugs v s :=
  ⟨h.1.imp fun _ => hgrows.usable, (h.carries.grows hgrows).2⟩

theorem bearAll_nil : M.BearAll plugs [] [] := ⟨fun _ h => absurd h List.not_mem_nil, rfl⟩

theorem Bears.cons (h : M.Bears plugs v s) (hrest : M.BearAll plugs args signals) :
    M.BearAll plugs (v :: args) (s :: signals) := by
  refine ⟨fun a ha => ?_, by rw [List.map_cons, h.2, hrest.2]⟩
  rcases List.mem_cons.1 ha with rfl | ha
  · exact h.1
  · exact hrest.1 a ha

theorem BearAll.bears (h : M.BearAll plugs args signals) {a : Value Plug} (ha : a ∈ args) :
    M.Bears plugs a (a.signal M.value) := ⟨h.1 a ha, rfl⟩

theorem BearAll.grows (h : M.BearAll plugs args signals) (hgrows : M.Grows M') :
    M'.BearAll plugs args signals := by
  refine ⟨fun a ha => ((h.bears ha).grows hgrows).1, ?_⟩
  rw [← h.2]
  exact List.map_congr_left fun a ha => ((h.bears ha).grows hgrows).2

/-- What comes of values that may be read may be read. -/
theorem Comes.bears (h : M.Comes args v s) (hargs : ∀ a ∈ args, a.Over (M.builder.Usable plugs)) :
    M.Bears plugs v s := by
  refine ⟨?_, h.carries.2⟩
  cases h with
  | made h =>
    cases v with
    | handle p => exact .inl h.1
    | scalar | bool | order | pair | triple | quad => exact absurd h id
  | operand hmem => exact hargs v hmem
  | sequence hitems =>
    cases v <;> cases hitems <;> simpa [Value.Over] using hargs

/-- What is kept for a signature bears the signal of the application with this signature. -/
def Remembers (M : Interpretation env) (plugs : List (String × Value Plug))
    (cache : Table String (Value Plug)) : Prop :=
  ∀ ⦃signature v⦄, cache.get? signature = some v → ∃ (p : Primitive) (args : List (Value Plug))
    (signals : List Signal) (s : Signal),
    signature = p.signature (args.map (Bindings.empty.register plugs).describe) ∧
      M.BearAll plugs args signals ∧ p.signal signals = some s ∧ M.Bears plugs v s

namespace Remembers

variable {cache : Table String (Value Plug)} {p : Primitive}

theorem grows (h : M.Remembers plugs cache) (hgrows : M.Grows M') : M'.Remembers plugs cache := by
  intro signature v hv
  obtain ⟨p, args, signals, s, hsignature, hargs, hs, hv⟩ := h hv
  exact ⟨p, args, signals, s, hsignature, hargs.grows hgrows, hs, hv.grows hgrows⟩

theorem insert (h : M.Remembers plugs cache) (hargs : M.BearAll plugs args signals)
    (hs : p.signal signals = some s) (hv : M.Bears plugs v s) :
    M.Remembers plugs
      (cache.insert (p.signature (args.map (Bindings.empty.register plugs).describe)) v) := by
  intro signature w hw
  rw [Table.get?_insert] at hw
  split at hw
  · next heq =>
    cases hw
    exact ⟨p, args, signals, s, heq.symm, hargs, hs, hv⟩
  · exact h hw

/-- What is remembered for an application is what it would come to. -/
theorem bears (h : M.Remembers plugs cache) (hinterface : Interface M.builder hosts plugs)
    (hargs : M.BearAll plugs args signals) (hs : p.signal signals = some s)
    (hget : cache.get? (p.signature (args.map (Bindings.empty.register plugs).describe)) = some v) :
    M.Bears plugs v s := by
  obtain ⟨q, args', signals', s', heq, hargs', hs', hv⟩ := h hget
  have haccepts {p : Primitive} {args : List (Value Plug)} {signals : List Signal} {s : Signal}
      (hargs : M.BearAll plugs args signals) (hs : p.signal signals = some s) :
      p.accepts args.length = true ∧ p.HasName := by
    have := Primitive.accepts_of_signal hs
    rwa [← hargs.2, List.length_map] at this
  obtain ⟨rfl, rfl⟩ := hinterface.signature_injective (haccepts hargs hs) (haccepts hargs' hs')
    hargs.1 hargs'.1 heq
  rw [← hargs'.2, hargs.2, hs] at hs'
  rwa [Option.some.inj hs']

end Remembers

/-! ## Steps of an evaluation -/

open Evaluation

/-- An evaluation that works on this builder, with the names of the host. -/
structure Represents (M : Interpretation env) (hosts : List (Kind × String))
    (plugs : List (String × Value Plug)) (e : Evaluation Builder Plug) : Prop where
  backend : e.backend = M.builder
  values : e.bindings.values = (Bindings.empty.register plugs).values
  names : e.bindings.names = (Bindings.empty.register plugs).names
  interface : Interface M.builder hosts plugs
  remembers : M.Remembers plugs e.cache

/-- From here the step succeeds, and its result satisfies `post` where it leads to. -/
def Evaluates {α : Type} (M : Interpretation env) (hosts : List (Kind × String))
    (plugs : List (String × Value Plug)) (a : Step Builder Plug α)
    (post : α → Interpretation env → Prop) : Prop :=
  ∀ e : Logged (Evaluation Builder Plug), M.Represents hosts plugs e.state →
    ∃ v M' e', a.runOn e = (.ok v, e') ∧ M.Grows M' ∧ M'.Represents hosts plugs e'.state ∧ post v M'

namespace Evaluates

variable {α β : Type} {a : Step Builder Plug α} {post : α → Interpretation env → Prop}

protected theorem pure {v : α} (h : post v M) :
    M.Evaluates hosts plugs (pure v : Step Builder Plug α) post :=
  fun e he => ⟨v, M, e, rfl, .refl M, he, h⟩

protected theorem bind {f : α → Step Builder Plug β} {post' : β → Interpretation env → Prop}
    (ha : M.Evaluates hosts plugs a post)
    (hf : ∀ v M', M.Grows M' → post v M' → M'.Evaluates hosts plugs (f v) post') :
    M.Evaluates hosts plugs (a >>= f) post' := by
  intro e he
  obtain ⟨v, M', e', hrun, hgrows, he', hpost⟩ := ha e he
  obtain ⟨w, M'', e'', hrun', hgrows', he'', hpost'⟩ := hf v M' hgrows hpost e' he'
  exact ⟨w, M'', e'', by rw [Action.runOn_bind_of_ok hrun, hrun'], hgrows.trans hgrows', he'',
    hpost'⟩

/-- The tokens that are left do not matter. -/
theorem leave {tokens : List Token} (h : M.Evaluates hosts plugs a post) :
    M.Evaluates hosts plugs (do Evaluation.leave tokens; a) post := by
  intro e he
  exact h ⟨{ e.state with left := tokens }, e.log⟩
    ⟨he.backend, he.values, he.names, he.interface, he.remembers⟩

end Evaluates

/-- The slot has a value that may be read, and has this signal. -/
def Fills (M : Interpretation env) (plugs : List (String × Value Plug)) (slot : Slot Plug)
    (s : Signal) : Prop :=
  ∃ v, slot = some v ∧ M.Bears plugs v s

/-- A name stands for its plug. -/
theorem evaluates_identifier {name : String} (hv : (name, v) ∈ plugs) :
    M.Evaluates hosts plugs (identifier .emit name) fun slot M' => slot = some v ∧ M' = M := by
  intro e he
  have hget : e.state.bindings.values.get? name = some v := by
    rw [he.values]
    exact he.interface.get?_values.2 hv
  refine ⟨some v, M, _, by rw [runOn_identifier, hget], .refl M, ?_, rfl, rfl⟩
  rw [Bindings.resolve, hget]
  exact ⟨he.backend, he.values, he.names, he.interface, he.remembers⟩

theorem values?_map_some (args : List (Value Plug)) : values? (args.map some) = some args := by
  induction args with
  | nil => rfl
  | cons a args ih => rw [List.map_cons, values?, ih, Option.map_some]

/-- An application carries its formula, whether it is made or found. -/
theorem evaluates_apply (p : Primitive) (hargs : M.BearAll plugs args signals)
    (hs : p.signal signals = some s) :
    M.Evaluates hosts plugs (apply .emit p (args.map some)) fun slot M' =>
      M'.Fills plugs slot s := by
  intro e he
  have hdescribe : e.state.bindings.describe = (Bindings.empty.register plugs).describe := by
    funext v
    rw [Bindings.describe, Bindings.describe, he.names]
  cases hget : e.state.cache.get? (p.signature (args.map e.state.bindings.describe)) with
  | some v =>
    -- the application was made before
    have hrun : ∃ log,
        (apply .emit p (args.map some)).runOn e = (.ok (some v), ⟨e.state, log⟩) := by
      simp [apply, values?_map_some, hget, Action.runOn_bind, Except.map]
    obtain ⟨log, hrun⟩ := hrun
    rw [hdescribe] at hget
    exact ⟨some v, M, _, hrun, .refl M, he, v, rfl,
      he.remembers.bears he.interface hargs hs hget⟩
  | none =>
    have hsources : ∀ a ∈ args, a.Over M.builder.IsSource := fun a ha =>
      (hargs.bears ha).carries.1
    obtain ⟨v, M', log, hinvoke, hgrows, hcomes⟩ :=
      yields_invoke p (hargs.2 ▸ hs) hsources (e.log ++ [⟨.debug, "emit " ++ p.label ++ ": " ++
        p.signature (args.map e.state.bindings.describe)⟩])
    have hv := hcomes.bears (hargs.grows hgrows).1
    refine ⟨some v, M', ⟨{ e.state with
      backend := M'.builder
      cache := e.state.cache.insert (p.signature (args.map e.state.bindings.describe)) v }, log⟩,
      ?_, hgrows, ⟨rfl, he.values, he.names, he.interface.grows hgrows, ?_⟩, v, rfl, hv⟩
    · rw [← he.backend] at hinvoke
      simp only [apply, values?_map_some, hget, Action.runOn_bind, Action.runOn_state,
        Action.runOn_say, onBackend, Action.runOn_zoom, Action.mapError_id, hinvoke]
      rfl
    · rw [hdescribe]
      exact (he.remembers.grows hgrows).insert (hargs.grows hgrows) hs hv

end Interpretation

end Builder

/-! ## Expressions -/

/-- A token of an expression that has a signal, if it reads only `names`. -/
def Token.IsPlain (names : String → Prop) : Token → Prop
  | identifier name => names name
  | call name _ => ∀ f, Function.ofName? name = some f → f.isPlain = true
  | component _ | rotateOrder _ => False
  | _ => True

namespace Expr

open Builder Interpretation Evaluation

variable {env : String → Option Signal} {hosts : List (Kind × String)}
  {plugs : List (String × Value Plug)}

theorem length_signalAll (es : List Expr) : (signalAll env es).length = es.length := by
  induction es with
  | nil => rfl
  | cons e es ih => rw [signalAll, List.length_cons, ih, List.length_cons]

variable (hosts) in
/-- The names that an expression may read. -/
def Reads (name : String) : Prop :=
  (Kind.input, name) ∈ hosts ∧ (Token.identifier name).IsWritten ∧ IsClear name

variable (hosts) in
/-- A token that is plain and not at fault. -/
def Translates (t : Token) : Prop := t.IsPlain (Reads hosts) ∧ t.fault? (fun _ => true) = none

mutual

/-- An expression comes to a value with its signal. -/
theorem evaluates : (e : Expr) → (∀ t ∈ e.tokens, Translates hosts t) → (rest : List Token) →
    (M : Interpretation env) →
    M.Evaluates hosts plugs (e.evaluate (.ofMode .emit) rest) fun slot M' =>
      M'.Fills plugs slot (e.signal env)
  | number text, h, rest, M => by
    have hfault := (h _ List.mem_cons_self).2
    rw [evaluate]
    refine .leave ?_
    cases hread : Number.read? text with
    | some x => exact .pure ⟨.scalar x, rfl, trivial, by rw [signal, hread]; rfl⟩
    | none => simp [Token.fault?, hread] at hfault
  | constant c, _, rest, M => by
    rw [evaluate]
    refine .leave (.pure ⟨_, rfl, ?_, ?_⟩)
    · cases c <;> trivial
    · cases c <;> rfl
  | order o, h, _, _ => ((h _ List.mem_cons_self).1).elim
  | identifier name, h, rest, M => by
    obtain ⟨hmem, hwritten, hclear⟩ := (h _ List.mem_cons_self).1
    rw [evaluate]
    refine .leave fun e he => ?_
    obtain ⟨n, hn, hkind, -, hv⟩ := he.interface.exists_node hmem
    have hcarries := he.interface.carries_input hmem hv
    obtain ⟨slot, M', e', hrun, hgrows, he', hslot, rfl⟩ := evaluates_identifier hv e he
    exact ⟨slot, M', e', hrun, hgrows, he', _, hslot,
      .inr ⟨hcarries.1, name, hwritten, hclear, hv⟩, hcarries.2⟩
  | call name args, h, rest, M => by
    obtain ⟨hplain, hfault⟩ := h (.call name args.length) (by simp [tokens])
    rw [evaluate]
    cases hf : Function.ofName? name with
    | none => simp [Token.fault?, hf] at hfault
    | some f =>
      have harity : f.arity.accepts args.length = true := by simpa [Token.fault?, hf] using hfault
      simp only [if_pos harity]
      refine (evaluatesAll args (fun t ht => h t (by simp [tokens, ht])) rest M).bind ?_
      rintro slots M' hgrows ⟨values, rfl, hvalues⟩
      refine evaluates_apply (.call f) hvalues ?_
      rw [Primitive.signal, if_pos ⟨hplain f hf, by rwa [length_signalAll]⟩, signal, hf]
  | list items, h, rest, M => by
    have hlength : 2 ≤ items.length ∧ items.length ≤ 4 := by
      simpa [Token.fault?] using (h (.list items.length) (by simp [tokens])).2
    rw [evaluate, if_pos hlength]
    refine (evaluatesAll items (fun t ht => h t (by simp [tokens, ht])) rest M).bind ?_
    rintro slots M' hgrows ⟨values, rfl, hvalues⟩
    refine evaluates_apply .list hvalues ?_
    rw [Primitive.signal, if_pos (by rwa [length_signalAll]), signal]
  | group inner, h, rest, M => evaluates inner h rest M
  | component object which, h, _, _ => (h (.component which) (by simp [tokens])).1.elim
  | unary op operand, h, rest, M => by
    rw [evaluate]
    refine (evaluates operand (fun t ht => h t (by simp [tokens, ht])) rest M).bind ?_
    rintro slot M' hgrows ⟨v, rfl, hv⟩
    refine evaluates_apply op.primitive (hv.cons bearAll_nil) ?_
    cases op <;> rfl
  | binary op lhs rhs, h, rest, M => by
    rw [evaluate]
    refine (evaluates rhs (fun t ht => h t (by simp [tokens, ht])) _ M).bind ?_
    rintro slot M₁ - ⟨second, rfl, hsecond⟩
    refine (evaluates lhs (fun t ht => h t (by simp [tokens, ht])) rest M₁).bind ?_
    rintro slot M₂ hgrows ⟨first, rfl, hfirst⟩
    exact evaluates_apply (.binary op)
      (hfirst.cons ((hsecond.grows hgrows).cons bearAll_nil)) rfl
  | compare test lhs rhs, h, rest, M => by
    rw [evaluate]
    refine (evaluates rhs (fun t ht => h t (by simp [tokens, ht])) _ M).bind ?_
    rintro slot M₁ - ⟨second, rfl, hsecond⟩
    refine (evaluates lhs (fun t ht => h t (by simp [tokens, ht])) rest M₁).bind ?_
    rintro slot M₂ hgrows ⟨first, rfl, hfirst⟩
    have htruth (b : Bool) : M₂.Bears plugs (.bool b) (.bool b) := ⟨trivial, rfl⟩
    exact evaluates_apply (.condition test) (hfirst.cons ((hsecond.grows hgrows).cons
      ((htruth true).cons ((htruth false).cons bearAll_nil)))) rfl
  | ternary test lhs rhs ifTrue ifFalse, h, rest, M => by
    rw [evaluate]
    refine (evaluates ifFalse (fun t ht => h t (by simp [tokens, ht])) _ M).bind ?_
    rintro slot M₁ - ⟨otherwise, rfl, hotherwise⟩
    refine (evaluates ifTrue (fun t ht => h t (by simp [tokens, ht])) _ M₁).bind ?_
    rintro slot M₂ hgrows₂ ⟨consequent, rfl, hconsequent⟩
    refine (evaluates rhs (fun t ht => h t (by simp [tokens, ht])) _ M₂).bind ?_
    rintro slot M₃ hgrows₃ ⟨second, rfl, hsecond⟩
    refine (evaluates lhs (fun t ht => h t (by simp [tokens, ht])) rest M₃).bind ?_
    rintro slot M₄ hgrows₄ ⟨first, rfl, hfirst⟩
    have hbranches := (hconsequent.cons ((hotherwise.grows hgrows₂).cons bearAll_nil)).grows hgrows₃
    exact evaluates_apply (.condition test)
      (hfirst.cons ((hsecond.cons hbranches).grows hgrows₄)) rfl

/-- Expressions come to values with their signals. -/
theorem evaluatesAll : (es : List Expr) → (∀ t ∈ tokensAll es, Translates hosts t) →
    (rest : List Token) → (M : Interpretation env) →
    M.Evaluates hosts plugs (evaluateAll (.ofMode .emit) es rest) fun slots M' =>
      ∃ values, slots = values.map some ∧ M'.BearAll plugs values (signalAll env es)
  | [], _, _, _ => .pure ⟨[], rfl, bearAll_nil⟩
  | e :: es, h, rest, M => by
    rw [evaluateAll]
    refine (evaluatesAll es (fun t ht => h t (by simp [tokensAll, ht])) _ M).bind ?_
    rintro slots M₁ - ⟨values, rfl, hvalues⟩
    refine (evaluates e (fun t ht => h t (by simp [tokensAll, ht])) rest M₁).bind ?_
    rintro slot M₂ hgrows ⟨v, rfl, hv⟩
    exact .pure ⟨v :: values, rfl, hv.cons (hvalues.grows hgrows)⟩

end

end Expr

end RigExpr
