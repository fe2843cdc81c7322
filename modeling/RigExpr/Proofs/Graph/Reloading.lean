import RigExpr.Proofs.Graph.Json
import RigExpr.Proofs.Graph.Reordering
import RigExpr.Proofs.Graph.Requests
import RigExpr.Proofs.Signature.Components
import RigExpr.Proofs.Table

/-!
# Graphs of sessions as text and back

Whatever a host asks for, each node of the graph has its operands under distinct keys, a value
only if it is a constant or an input, and an index of at most 64 bits if the components that are
asked for have such indices (`Builder.storable_maintained`); a source asks for the first four
components only. So the graph of every session comes back from its text just if the numbers of its
constants and inputs do (`Session.exists_reloaded_iff`).
-/

namespace RigExpr

/-- A component with an index of at most 64 bits, or with a name. -/
def Component.IsIndexable : Component → Prop
  | axis i => i < UInt64.size
  | named _ => True

theorem Component.isIndexable_of_isWritten {which : Component}
    (h : (Token.component which).IsWritten) : which.IsIndexable := by
  have hnamed := isNamed_iff_isWritten.2 h
  cases which with
  | axis i => exact Nat.lt_trans hnamed (by decide)
  | named => trivial

/-- A node that can be written and read, with a value only if it is a constant or an input. -/
structure Node.IsStorable (n : Node) : Prop extends n.IsWritable where
  kind_of_value : n.params.value ≠ none → n.kind = .constant ∨ n.kind = .input

namespace Node.IsStorable

variable {n m : Node}

theorem connected (h : n.IsStorable) (id : String) (p : Plug) : (n.connected id p).IsStorable := by
  rw [Node.connected]
  split
  · exact ⟨⟨Table.nodup_keys_insert h.nodup_keys _ _, h.index_lt⟩, h.kind_of_value⟩
  · exact h

theorem reordered (h : n.IsStorable) (hnm : n.Reordered m) : m.IsStorable where
  nodup_keys := (hnm.inputs.map _).nodup_iff.2 h.nodup_keys
  index_lt := by
    rw [hnm.params]
    exact h.index_lt
  kind_of_value := by
    rw [hnm.params, hnm.kind]
    exact h.kind_of_value

end Node.IsStorable

/-! ## Sessions -/

namespace Builder

/-- All nodes can be written and read. -/
def IsStorable (b : Builder) : Prop := ∀ n ∈ b.graph.nodes, n.IsStorable

theorem storable_addNode {kind : Kind} {params : Params} (inputs : List (String × Plug))
    (hvalue : params.value ≠ none → kind = .constant ∨ kind = .input)
    (hindex : ∀ i ∈ params.index, i < UInt64.size) :
    (Upkeep.preserving IsStorable).Grows (addNode kind params inputs) := by
  intro s hb n hn
  rcases List.mem_append.1 hn with hn | hn
  · exact hb n hn
  · obtain rfl := List.mem_singleton.1 hn
    exact ⟨⟨Table.nodup_keys_ofList inputs, hindex⟩, hvalue⟩

/-- Whatever the builder is asked for, all nodes can be written and read. -/
theorem storable_maintained :
    Maintains Component.IsIndexable (.preserving IsStorable) where
  construction :=
    { pure := .pure
      throw := .throw
      state := fun _ h => h
      bind := fun ha hf => .bind ha hf
      addNode := fun inputs _ hparams _ =>
        storable_addNode inputs (fun h => absurd hparams.value h) hparams.index
      constant := fun s => by
        refine grows_constant
          (.bind (storable_addNode [] (fun _ => .inl rfl) (by rintro _ ⟨⟩)) fun p => ?_)
        exact .bind (.change fun _ h => h) fun _ => .pure p }
  host kind params hkind hindex := by
    refine storable_addNode [] (fun hvalue => ?_) (by rw [hindex]; rintro _ ⟨⟩)
    exact .inr (hkind.resolve_right fun h => hvalue h.2)
  connect b id p h := by
    rw [connect_eq]
    intro n hn
    obtain ⟨m, hm, rfl⟩ := List.mem_map.1 hn
    exact (h m hm).connected id p
  congr b b' hgraph _ _ h := by
    rw [IsStorable, hgraph]
    exact h
  written _ h := Component.isIndexable_of_isWritten h

end Builder

namespace Graph

/-- The numbers in the constants of a graph, and in the values of its inputs. -/
def numbers (g : Graph) : List Float :=
  (g.nodes.filter fun n => n.kind = .constant ∨ n.kind = .input).flatMap fun n =>
    n.params.value.toList.flatMap Signal.numbers

/-- There are no other numbers in a graph whose nodes have values only if they are constants or
    inputs. -/
theorem forall_mem_numbers_iff {g : Graph} (h : ∀ n ∈ g.nodes, n.IsStorable) {P : Float → Prop} :
    (∀ x ∈ g.numbers, P x) ↔ ∀ n ∈ g.nodes, ∀ s ∈ n.params.value, ∀ x ∈ s.numbers, P x := by
  constructor
  · intro hP n hn s hs x hx
    have hkind := (h n hn).kind_of_value (by rw [Option.mem_def.1 hs]; exact Option.some_ne_none s)
    refine hP x (List.mem_flatMap.2 ⟨n, List.mem_filter.2 ⟨hn, decide_eq_true hkind⟩, ?_⟩)
    exact List.mem_flatMap.2 ⟨s, Option.mem_toList.2 hs, hx⟩
  · intro hP x hx
    obtain ⟨n, hn, hx⟩ := List.mem_flatMap.1 hx
    obtain ⟨s, hs, hx⟩ := List.mem_flatMap.1 hx
    exact hP n (List.mem_filter.1 hn).1 s (Option.mem_toList.1 hs) x hx

theorem Reordered.isStorable {g h : Graph} (hgh : g.Reordered h)
    (hg : ∀ n ∈ g.nodes, n.IsStorable) : ∀ n ∈ h.nodes, n.IsStorable := by
  intro n hn
  obtain ⟨i, hi, rfl⟩ := List.mem_iff_getElem.1 hn
  have hi' : i < g.nodes.length := hgh.length_eq ▸ hi
  exact (hg _ (List.getElem_mem hi')).reordered (List.Forall₂.get hgh hi' hi)

end Graph

namespace Session

variable {s : Session} {past : List (Session × Request)}

open Numeral (Restores reread?)

/-- The graph of a session, with the connections of its nodes in any order, comes back the same
    from its text just if each number in its constants and in the values of its inputs is equal
    to the value of its numeral. If the finite ones are those values, it comes back the same just
    if all of them are finite. -/
theorem exists_reloaded_iff (h : Trace past s)
    (haccess : ∀ step ∈ past, step.2.Accesses Component.IsIndexable) {g : Graph}
    (hg : s.builder.graph.Reordered g) :
    ((∃ k, Graph.read? g.write = some k ∧ g.same k = true) ↔ ∀ x ∈ g.numbers, Restores x) ∧
    ((∀ x ∈ g.numbers, x.isFinite = true → reread? x = some x) →
      ((∃ k, Graph.read? g.write = some k ∧ g.same k = true) ↔
        ∀ x ∈ g.numbers, x.isFinite = true)) := by
  have hstorable : ∀ n ∈ g.nodes, n.IsStorable := hg.isStorable
    (h.preserved_of_accesses Builder.storable_maintained (by rintro _ ⟨⟩) haccess)
  have hrestores : (∃ k, Graph.read? g.write = some k ∧ g.same k = true) ↔
      ∀ x ∈ g.numbers, Restores x := by
    rw [Graph.exists_read?_write_iff fun n hn => (hstorable n hn).toIsWritable,
      Graph.forall_mem_numbers_iff hstorable]
  refine ⟨hrestores, fun hexact => hrestores.trans (forall₂_congr fun x hx => ?_)⟩
  exact Numeral.restores_iff_isFinite (hexact x hx)

/-- An input with a vector and two constants, which come back, and then an infinite constant,
    which does not. -/
theorem exists_reloaded_iff_infinite :
    let host : List (String × Value Plug) :=
      [("a", .handle { node := "input_1" }), ("o", .handle { node := "output_2" })]
    let s := (((new {}).perform (.input "a" (some (.vector [0.5, -2])))).perform
      (.output "o")).perform (.emit "o = a.y * 0.001 + 3" host)
    let t := s.perform (.emit "o = a * 1e999" host)
    let xs : List Float := [0.5, -2, 0.001, 3]
    s.builder.graph.numbers = xs ∧ t.builder.graph.numbers = xs ++ [Number.infinity false] ∧
      (∃ k, Graph.read? s.builder.graph.write = some k ∧ s.builder.graph.same k = true) ∧
      ¬∃ k, Graph.read? t.builder.graph.write = some k ∧ t.builder.graph.same k = true := by
  intro host s t xs
  let known := ((new {}).perform (.input "a" (some (.vector [0.5, -2])))).perform (.output "o")
  have hrun : s.builder.graph.numbers = xs ∧
      t.builder.graph.numbers = xs ++ [Number.infinity false] ∧
      (∀ e ∈ host, ∀ p ∈ e.2.handles, ∃ v ∈ known.returned, p ∈ v.handles) ∧
      ∀ e ∈ host, ∀ p ∈ e.2.handles, ∃ v ∈ s.returned, p ∈ v.handles := by
    decide +kernel
  obtain ⟨hs, ht, hknown, hreturned⟩ := hrun
  have hnumbers : (∀ x ∈ xs, x.isFinite = true ∧ reread? x = some x) ∧
      (Number.infinity false).isFinite = false := by
    decide +kernel
  have hsame (g : Graph) : g.Reordered g :=
    List.forall₂_same.2 fun n _ => ⟨rfl, rfl, rfl, .refl _⟩
  have hnone {returned : List (Value Plug)} {r : Request} (h : r.names = []) : r.Own returned := by
    intro e he
    rw [h] at he
    cases he
  have htrace : Trace _ s := .step (.step (.step (.new {}) (hnone rfl)) (hnone rfl)) hknown
  have htrace' : Trace _ t := .step htrace hreturned
  refine ⟨hs, ht, ?_, fun hback => ?_⟩
  · have hreloaded := (exists_reloaded_iff htrace (by simp [Request.Accesses]) (hsame _)).2
    rw [hs] at hreloaded
    exact (hreloaded fun x hx _ => (hnumbers.1 x hx).2).2 fun x hx => (hnumbers.1 x hx).1
  · have hreloaded := (exists_reloaded_iff htrace' (by simp [Request.Accesses]) (hsame _)).2
    rw [ht] at hreloaded
    have hfinite := (hreloaded fun x hx hfinite => ?_).1 hback (Number.infinity false)
      (List.mem_append_right _ List.mem_cons_self)
    · exact Bool.false_ne_true (hnumbers.2.symm.trans hfinite)
    · rcases List.mem_append.1 hx with hx | hx
      · exact (hnumbers.1 x hx).2
      · rw [List.mem_singleton.1 hx, hnumbers.2] at hfinite
        cases hfinite

end Session

end RigExpr
