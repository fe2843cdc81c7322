import RigExpr.Graph.Json
import RigExpr.Proofs.Bindings
import RigExpr.Proofs.Graph.Growth
import RigExpr.Proofs.Json.Numeral

/-!
# Graphs as text and back

A graph that is written and read again is the same but for the numbers in it: a number comes back
as the value of its numeral, and one that is not finite has none. A single number is then missing,
and an array with such a number in it is not read at all. So the graph comes back the same just
if every number in it is equal to the value of its numeral (`Graph.exists_read?_write_iff`).

Of the nodes this takes that their keys are distinct and their indices have at most 64 bits
(`Node.IsWritable`).
-/

namespace RigExpr

/-- The results of a step on all items are related to the items just if they are one by one. -/
theorem exists_mapM_zipWith_iff {α β : Type} {f : α → Option β} {p : α → β → Bool} {xs : List α} :
    (∃ ys, xs.mapM f = some ys ∧
      (decide (xs.length = ys.length) && (List.zipWith p xs ys).all id) = true) ↔
    ∀ x ∈ xs, ∃ y, f x = some y ∧ p x y = true := by
  induction xs with
  | nil => simp
  | cons x xs ih =>
    rw [List.forall_mem_cons, ← ih]
    constructor
    · rintro ⟨ys, hys, hp⟩
      rw [List.mapM_cons] at hys
      cases hx : f x with
      | none => simp [hx] at hys
      | some y =>
        cases hxs : xs.mapM f with
        | none => simp [hx, hxs] at hys
        | some more =>
          obtain rfl : y :: more = ys := by simpa [hx, hxs] using hys
          simp only [List.length_cons, List.zipWith_cons_cons, List.all_cons, id_eq,
            Bool.and_eq_true, decide_eq_true_eq, Nat.add_right_cancel_iff] at hp
          refine ⟨⟨y, rfl, hp.2.1⟩, more, rfl, ?_⟩
          rw [Bool.and_eq_true, decide_eq_true_eq]
          exact ⟨hp.1, hp.2.2⟩
    · rintro ⟨⟨y, hy, hxy⟩, ys, hys, hp⟩
      refine ⟨y :: ys, by simp [List.mapM_cons, hy, hys], ?_⟩
      simpa [hxy] using hp

namespace Numeral

/-- The value of the numeral of a number. -/
def reread? (x : Float) : Option Float := (ofFloat? x).bind toFloat?

/-- The value of the numeral of this number is equal to it. -/
def Restores (x : Float) : Prop := ∃ y, reread? x = some y ∧ (x == y) = true

theorem Restores.isFinite {x : Float} (h : Restores x) : x.isFinite = true := by
  obtain ⟨y, hy, -⟩ := h
  obtain ⟨n, hn, -⟩ := Option.bind_eq_some_iff.1 hy
  exact exists_ofFloat?_iff.1 ⟨n, hn⟩

/-- Where the value of the numeral of a finite number is that number, finite numbers are those that
    are restored. -/
theorem restores_iff_isFinite {x : Float} (hexact : x.isFinite = true → reread? x = some x) :
    Restores x ↔ x.isFinite = true :=
  ⟨fun h => h.isFinite, fun h => ⟨x, hexact h, Binary64.beq_self_of_isFinite h⟩⟩

/-- The steps that round do not always lead back to a finite number. -/
example : (reread? 1e-25).map (fun y => (1e-25 : Float) == y) = some false := by decide +kernel

end Numeral

open Numeral (Restores)

/-! ## Signals -/

namespace Signal

/-- The numbers of a signal. -/
def numbers : Signal → List Float
  | float x => [x]
  | bool _ => []
  | vector xs => xs

theorem toFloat?_jsonOfFloat (x : Float) : (jsonOfFloat x).toFloat? = Numeral.reread? x := by
  rw [jsonOfFloat, Numeral.reread?]
  cases Numeral.ofFloat? x <;> rfl

theorem isProper_jsonOfFloat (x : Float) : (jsonOfFloat x).IsProper := by
  rw [jsonOfFloat]
  cases h : Numeral.ofFloat? x with
  | none => exact .null
  | some n => exact .number (Numeral.isProper_of_ofFloat? h)

theorem isProper_toJson (s : Signal) : s.toJson.IsProper := by
  cases s with
  | float x => exact isProper_jsonOfFloat x
  | bool b => exact .bool b
  | vector xs =>
    refine .array fun j hj => ?_
    obtain ⟨x, -, rfl⟩ := List.mem_map.1 hj
    exact isProper_jsonOfFloat x

end Signal

/-! ## Parameters -/

namespace Json

theorem unrepeated?_toList (o : Option Json) : unrepeated? o.toList = some o := by
  cases o <;> rfl

theorem named_append (members members' : List (String × Json)) (name : String) :
    named (members ++ members') name = named members name ++ named members' name := by
  simp [named]

theorem named_member {α : Type} (name name' : String) (write : α → Json) (o : Option α) :
    named (Params.member name write o) name' =
      if name = name' then (o.map write).toList else [] := by
  cases o with
  | none => simp [named, Params.member]
  | some a => by_cases h : name = name' <;> simp [named, Params.member, h]

/-- A field that is not written comes back, and so does one that is not written as null. -/
theorem Fields.nullable_eq {α : Type} {f : Fields} {i : Nat} {o : Option α} {write : α → Json}
    {decode : Json → Option α} (hf : f.values[i]? = some (o.map write))
    (h : ∀ a ∈ o, write a ≠ null ∧ decode (write a) = some a) :
    f.nullable i decode = some o := by
  cases o with
  | none => rw [nullable, hf, Option.map_none]
  | some a =>
    obtain ⟨hnull, hdecode⟩ := h a rfl
    rw [nullable, hf, Option.map_some]
    split
    · next heq => exact absurd (by simpa using heq) hnull
    · next j hj heq =>
      obtain rfl : write a = j := by simpa using heq
      rw [hdecode, Option.map_some]
    · next hnone => exact absurd rfl (hnone (write a))

end Json

namespace Params

/-- The parameters as fields. -/
def fields (p : Params) : Json.Fields :=
  ⟨[p.value.map Signal.toJson, p.name.map .string, p.comparison.map fun c => .string c.name,
    p.index.map fun n => .number (Numeral.ofNat n), p.order.map fun o => .string o.keyword]⟩

theorem record?_toJson (p : Params) :
    p.toJson.record? ["value", "name", "comparison", "index", "order"] = some p.fields := by
  simp [toJson, Json.record?, Json.named_append, Json.named_member, Json.unrepeated?_toList, fields]

/-- A member per parameter. -/
theorem isProper_toJson (p : Params) : p.toJson.IsProper := by
  have hmember {α : Type} {name : String} {write : α → Json} {o : Option α}
      (h : ∀ a, (write a).IsProper) : ∀ m ∈ member name write o, m.2.IsProper := by
    cases o with
    | none => exact fun _ hm => absurd hm List.not_mem_nil
    | some a =>
      intro m hm
      rw [List.mem_singleton.1 hm]
      exact h a
  refine .object fun m hm => ?_
  simp only [List.mem_append] at hm
  rcases hm with (((hm | hm) | hm) | hm) | hm
  · exact hmember Signal.isProper_toJson m hm
  · exact hmember .string m hm
  · exact hmember (fun _ => .string _) m hm
  · exact hmember (fun n => .number (Numeral.isProper_ofNat n)) m hm
  · exact hmember (fun _ => .string _) m hm

/-- All parameters come back but for the value. -/
theorem ofJson?_toJson {p : Params} (hindex : ∀ i ∈ p.index, i < UInt64.size) :
    ofJson? p.toJson =
      (p.fields.nullable 0 Signal.ofJson?).map fun v => { p with value := v } := by
  have hname : p.fields.nullable 1 Json.toText? = some p.name :=
    Json.Fields.nullable_eq rfl fun _ _ => ⟨by rintro ⟨⟩, rfl⟩
  have hcomparison : p.fields.nullable 2 (fun j => j.toWord?.bind Comparison.ofName?) =
      some p.comparison :=
    Json.Fields.nullable_eq rfl fun c _ => ⟨by rintro ⟨⟩, Comparison.ofName?_name c⟩
  have hnumber : p.fields.nullable 3 Json.toNat? = some p.index :=
    Json.Fields.nullable_eq rfl fun i hi =>
      ⟨by rintro ⟨⟩, Numeral.toNat?_ofNat (hindex i hi)⟩
  have horder : p.fields.nullable 4 (fun j => j.toWord?.bind RotateOrder.ofKeyword?) =
      some p.order :=
    Json.Fields.nullable_eq rfl fun o _ => ⟨by rintro ⟨⟩, RotateOrder.ofKeyword?_keyword o⟩
  rw [ofJson?, record?_toJson]
  simp only [Option.bind_eq_bind, Option.bind_some, hname, hcomparison, hnumber, horder]
  cases p.fields.nullable 0 Signal.ofJson? <;> rfl

/-- The value comes back just if its numbers do: a single number that has no numeral is missing
    then, and a vector with such a number is not read. -/
theorem exists_value_iff (p : Params) :
    (∃ v, p.fields.nullable 0 Signal.ofJson? = some v ∧ sameValue p.value v = true) ↔
      ∀ s ∈ p.value, ∀ x ∈ s.numbers, Restores x := by
  have hfield : p.fields.values[0]? = some (p.value.map Signal.toJson) := rfl
  rw [Json.Fields.nullable, hfield]
  rcases p.value with _ | ⟨x | b | xs⟩
  · simp [sameValue]
  · simp only [Option.map_some, Signal.toJson, Signal.jsonOfFloat, Option.mem_def,
      Option.some.injEq, forall_eq', Signal.numbers, List.mem_singleton, forall_eq,
      Numeral.Restores, Numeral.reread?]
    cases Numeral.ofFloat? x with
    | none =>
      -- null is read as no value at all
      simp [sameValue]
    | some n => simp [Signal.ofJson?, sameValue, Signal.same]
  · simp [Signal.toJson, Signal.ofJson?, sameValue, Signal.same, Signal.numbers]
  · -- null among the items is no number
    simp only [Option.map_some, Signal.toJson, Option.mem_def, Option.some.injEq, forall_eq',
      Signal.numbers, Signal.ofJson?, List.mapM_map, Function.comp_def, Signal.toFloat?_jsonOfFloat]
    refine Iff.trans ?_ (exists_mapM_zipWith_iff (f := Numeral.reread?) (p := fun x y => x == y))
    constructor
    · rintro ⟨v, hv, hsame⟩
      obtain ⟨s, hs, rfl⟩ := Option.map_eq_some_iff.1 hv
      obtain ⟨ys, hys, rfl⟩ := Option.map_eq_some_iff.1 hs
      exact ⟨ys, hys, hsame⟩
    · rintro ⟨ys, hys, hsame⟩
      exact ⟨some (.vector ys), by rw [hys]; rfl, hsame⟩

end Params

/-! ## Nodes -/

theorem Kind.ofName?_name (k : Kind) : ofName? k.name = some k := by
  cases k <;> rfl

namespace Plug

theorem ofJson?_toJson (p : Plug) : ofJson? p.toJson = some p := by
  simp [ofJson?, toJson, Json.record?, Json.named, Json.unrepeated?, Json.Fields.required,
    Json.Fields.optional, Json.toText?]

theorem isProper_toJson (p : Plug) : p.toJson.IsProper := by
  refine .object fun m hm => ?_
  simp only [List.mem_cons, List.not_mem_nil, or_false] at hm
  rcases hm with rfl | rfl <;> exact .string _

end Plug

namespace Node

/-- The keys of the node are distinct, and its index, if it has one, has at most 64 bits. -/
structure IsWritable (n : Node) : Prop where
  nodup_keys : n.inputs.keys.Nodup
  index_lt : ∀ i ∈ n.params.index, i < UInt64.size

theorem inputsOfJson?_map {t : Table String Plug} (h : t.keys.Nodup) :
    inputsOfJson? (.object (t.entries.map fun e => (e.1, e.2.toJson))) = some t := by
  have hpairs (entries : List (String × Plug)) :
      (entries.map fun e => (e.1, e.2.toJson)).mapM
        (fun m => do return (m.1, ← Plug.ofJson? m.2)) = some entries := by
    induction entries with
    | nil => rfl
    | cons e entries ih =>
      rw [List.map_cons, List.mapM_cons, ih, Plug.ofJson?_toJson]
      rfl
  rw [inputsOfJson?, hpairs]
  exact congrArg (fun entries => some (Table.mk entries)) (Table.entries_ofList h)

theorem isProper_toJson (n : Node) : n.toJson.IsProper := by
  refine .object fun m hm => ?_
  simp only [List.mem_cons, List.not_mem_nil, or_false] at hm
  rcases hm with rfl | rfl | rfl | rfl
  · exact .string _
  · exact .string _
  · exact n.params.isProper_toJson
  · refine .object fun m hm => ?_
    obtain ⟨e, -, rfl⟩ := List.mem_map.1 hm
    exact e.2.isProper_toJson

/-- A node comes back but for the value among its parameters. -/
theorem ofJson?_toJson {n : Node} (h : n.IsWritable) : ofJson? n.toJson =
    (n.params.fields.nullable 0 Signal.ofJson?).map fun v =>
      { n with params := { n.params with value := v } } := by
  have hrecord : n.toJson.record? ["id", "type", "params", "inputs"] =
      some ⟨[some (.string n.id), some (.string n.kind.name), some n.params.toJson,
        some (.object (n.inputs.entries.map fun e => (e.1, e.2.toJson)))]⟩ := by
    simp [toJson, Json.record?, Json.named, Json.unrepeated?]
  rw [ofJson?, hrecord]
  simp [Json.Fields.required, Json.Fields.optional, Json.toText?, Json.toWord?, Kind.ofName?_name,
    Params.ofJson?_toJson h.index_lt, inputsOfJson?_map h.nodup_keys]
  cases n.params.fields.nullable 0 Signal.ofJson? <;> simp

/-- A node is the same as itself with another value just if the values are. -/
theorem same_with_value {n : Node} (h : n.IsWritable) (v : Option Signal) :
    n.same { n with params := { n.params with value := v } } =
      Params.sameValue n.params.value v := by
  have hall : (n.inputs.entries.all fun e => decide (n.inputs.get? e.1 = some e.2)) = true := by
    rw [List.all_eq_true]
    intro e he
    rw [decide_eq_true_eq]
    exact Table.get?_of_mem h.nodup_keys he
  simp [same, hall]

theorem exists_ofJson?_iff {n : Node} (h : n.IsWritable) :
    (∃ m, ofJson? n.toJson = some m ∧ n.same m = true) ↔
      ∀ s ∈ n.params.value, ∀ x ∈ s.numbers, Restores x := by
  rw [← n.params.exists_value_iff, ofJson?_toJson h]
  constructor
  · rintro ⟨m, hm, hsame⟩
    obtain ⟨v, hv, rfl⟩ := Option.map_eq_some_iff.1 hm
    exact ⟨v, hv, by rwa [same_with_value h] at hsame⟩
  · rintro ⟨v, hv, hsame⟩
    exact ⟨_, by rw [hv]; rfl, by rwa [same_with_value h]⟩

end Node

/-! ## Graphs -/

namespace Graph

theorem isProper_toJson (g : Graph) : g.toJson.IsProper := by
  refine .object fun m hm => ?_
  rw [List.mem_singleton.1 hm]
  refine .array fun j hj => ?_
  obtain ⟨n, -, rfl⟩ := List.mem_map.1 hj
  exact n.isProper_toJson

/-- The nodes are read one by one from what they are written as. -/
theorem read?_write (g : Graph) :
    read? g.write = (g.nodes.mapM fun n => Node.ofJson? n.toJson).map Graph.mk := by
  have hrecord : g.toJson.record? ["nodes"] = some ⟨[some (.array (g.nodes.map Node.toJson))]⟩ := by
    simp [toJson, Json.record?, Json.named, Json.unrepeated?]
  rw [read?, write, Json.read?_pretty g.isProper_toJson, Option.bind_eq_bind, Option.bind_some,
    ofJson?, hrecord]
  show ((g.nodes.map Node.toJson).mapM Node.ofJson?).bind (fun nodes => some (Graph.mk nodes)) = _
  rw [List.mapM_map, Option.map_eq_bind]
  rfl

/-- A graph comes back the same just if each number in it does. -/
theorem exists_read?_write_iff {g : Graph} (h : ∀ n ∈ g.nodes, n.IsWritable) :
    (∃ k, read? g.write = some k ∧ g.same k = true) ↔
      ∀ n ∈ g.nodes, ∀ s ∈ n.params.value, ∀ x ∈ s.numbers, Restores x := by
  have hnodes : (∀ n ∈ g.nodes, ∃ m, Node.ofJson? n.toJson = some m ∧ n.same m = true) ↔
      ∀ n ∈ g.nodes, ∀ s ∈ n.params.value, ∀ x ∈ s.numbers, Restores x :=
    forall₂_congr fun n hn => Node.exists_ofJson?_iff (h n hn)
  rw [← hnodes, ← exists_mapM_zipWith_iff, read?_write]
  constructor
  · rintro ⟨k, hk, hsame⟩
    obtain ⟨nodes, hread, rfl⟩ := Option.map_eq_some_iff.1 hk
    exact ⟨nodes, hread, hsame⟩
  · rintro ⟨nodes, hread, hsame⟩
    exact ⟨⟨nodes⟩, by rw [hread]; rfl, hsame⟩

end Graph

end RigExpr
