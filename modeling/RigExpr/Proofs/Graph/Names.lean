import RigExpr.Graph.Builder
import RigExpr.Proofs.Graph.Keys
import RigExpr.Proofs.Value

/-!
# Names in a graph

What the parts of a graph go by, and why it tells them apart.

* `Builder.nodeId_injective`: a node has the kind and the number of the node in its id,
  so ids with different numbers are different.
* `Signal.text_injective`: a constant goes by its text.
* `Variadic.collect_numbered`: numbered inputs are read in the order of their numbers.
-/

namespace RigExpr

/-! ## Ids of nodes -/

namespace Builder

/-- The id of the `k`-th node, if it is of this kind. -/
def nodeId (kind : Kind) (k : Nat) : String := kind.stem ++ "_" ++ toString k

theorem toList_nodeId (kind : Kind) (k : Nat) :
    (nodeId kind k).toList = kind.stem.toList ++ '_' :: (toString k).toList := by
  simp [nodeId, String.toList_append]

theorem underscore_notMem_toString (k : Nat) : '_' ∉ (toString k).toList := fun h =>
  absurd (Number.isDigit_of_mem_toString h) (by decide)

theorem nodeId_injective {kind kind' : Kind} {k k' : Nat} (h : nodeId kind k = nodeId kind' k') :
    k = k' := by
  have h := congrArg String.toList h
  rw [toList_nodeId, toList_nodeId] at h
  have hdigits := (last_inj (underscore_notMem_toString k) (underscore_notMem_toString k') h).2
  rw [← Number.digitsValue_toString k, hdigits, Number.digitsValue_toString]

theorem isSeparator_stem (kind : Kind) : ∀ c ∈ kind.stem.toList, isSeparator c = false := by
  have hall : kind.stem.toList.all (fun c => !isSeparator c) = true := by
    cases kind <;> decide
  simpa using hall

theorem isLabel_nodeId (kind : Kind) (k : Nat) : Value.IsLabel (nodeId kind k) where
  plain c hc := by
    rw [toList_nodeId, List.mem_append, List.mem_cons] at hc
    rcases hc with hc | rfl | hc
    · exact isSeparator_stem kind c hc
    · decide
    · have hdigit := Number.isDigit_of_mem_toString hc
      exact isSeparator_eq_false (.inl (by simp [Char.isAlphanum, hdigit]))
  underscore := by simp [toList_nodeId]

end Builder

/-! ## Texts of constants -/

namespace Signal

/-- The kinds of signals, by what their texts start with. -/
def shapeOf (c : Char) : Nat := if c = '[' then 2 else if c = 't' ∨ c = 'f' then 1 else 0

/-- The kind of a signal. -/
def shape : Signal → Nat
  | float _ => 0
  | bool _ => 1
  | vector _ => 2

theorem head?_text (s : Signal) : s.text.toList.head?.map shapeOf = some s.shape := by
  cases s with
  | float x =>
    obtain ⟨c, cs, hcs, hc⟩ := Number.exists_cons_text x
    have hne {d : Char} (hd : ¬(d = '-' ∨ d = 'N' ∨ d = 'i' ∨ d.isDigit = true)) : c ≠ d := by
      rintro rfl
      exact hd hc
    rw [text, hcs, List.head?_cons, Option.map_some, shapeOf, if_neg (hne (by decide)),
      if_neg (not_or.2 ⟨hne (by decide), hne (by decide)⟩), shape]
  | bool b => cases b <;> simp [text, shape, shapeOf]
  | vector xs => simp [text, shape, shapeOf, String.toList_append]

/-- A vector that is not empty has something between its brackets. -/
theorem commas_numbers_ne (x : Float) (xs : List Float) :
    (Primitive.commas ((x :: xs).map Number.text)).toList ++ [']'] ≠ [']'] := by
  obtain ⟨c, cs, hcs, hc⟩ := Number.exists_cons_text x
  intro h
  have hhead : ∃ rest, (Primitive.commas ((x :: xs).map Number.text)).toList = c :: rest := by
    cases xs with
    | nil => exact ⟨cs, by rw [List.map_cons, List.map_nil, toList_commas_singleton, hcs]⟩
    | cons y ys => exact ⟨_, by rw [List.map_cons, List.map_cons, toList_commas_cons, hcs]; rfl⟩
  obtain ⟨rest, hrest⟩ := hhead
  rw [hrest] at h
  obtain ⟨rfl, -⟩ := List.cons.inj h
  exact absurd hc (by decide)

theorem numbers_injective {xs ys : List Float}
    (h : "[" ++ Primitive.commas (xs.map Number.text) ++ "]" =
      "[" ++ Primitive.commas (ys.map Number.text) ++ "]") : xs = ys := by
  have hrender (xs : List Float) : ∀ s ∈ xs.map Number.text, Rendering s := by
    intro s hs
    obtain ⟨x, -, rfl⟩ := List.mem_map.1 hs
    exact Value.rendering_number x
  have hlist := congrArg String.toList h
  rw [toList_bracket, toList_bracket] at hlist
  have hlist := (List.cons.inj hlist).2
  cases xs with
  | nil =>
    cases ys with
    | nil => rfl
    | cons y ys => exact absurd hlist.symm (commas_numbers_ne y ys)
  | cons x xs =>
    cases ys with
    | nil => exact absurd hlist (commas_numbers_ne x xs)
    | cons y ys =>
      have hmap := Value.commas_injective (List.cons_ne_nil _ _) (List.cons_ne_nil _ _)
        (hrender (x :: xs)) (hrender (y :: ys)) h
      exact (List.map_injective_iff.2 fun _ _ h => Number.text_injective h) hmap

/-- Two signals with one text are one signal. -/
theorem text_injective {s t : Signal} (h : s.text = t.text) : s = t := by
  have hshape : s.shape = t.shape := by
    have := head?_text s
    rw [h, head?_text t] at this
    exact (Option.some.inj this).symm
  cases s with
  | float x =>
    cases t with
    | float y => rw [Number.text_injective h]
    | bool | vector => cases hshape
  | bool a =>
    cases t with
    | bool b => cases a <;> cases b <;> simp_all [text]
    | float | vector => cases hshape
  | vector xs =>
    cases t with
    | vector ys => rw [numbers_injective h]
    | float | bool => cases hshape

end Signal

/-! ## Numbered inputs -/

namespace Variadic

theorem key_injective {i j : Nat} (h : key i = key j) : i = j := by
  have h := congrArg String.toList h
  simp only [key, String.toList_append] at h
  rw [← Number.digitsValue_toString i, List.append_cancel_left h, Number.digitsValue_toString]

theorem nodup_numbered {α : Type} (operands : List α) :
    ((Builder.numbered operands).map (·.1)).Nodup := by
  refine List.pairwise_iff_getElem.2 fun i j hi hj hij => ?_
  simp only [Builder.numbered, List.getElem_map, List.getElem_mapIdx]
  exact fun h => absurd (key_injective h) (Nat.ne_of_lt hij)

theorem isNumbered_key {i : Nat} (h : i < 2 ^ 64) : isNumbered (key i) = true := by
  simp only [isNumbered, split_key h, decide_true]

theorem compareKeys_key {i j : Nat} (hi : i < 2 ^ 64) (hj : j < 2 ^ 64) :
    compareKeys (key i) (key j) = compare i j := by
  simp only [compareKeys, split_key hi, split_key hj]
  rfl

theorem filter_numbered {signals : List Signal} (h : signals.length ≤ 2 ^ 64) :
    (Builder.numbered signals).filter (fun e => isNumbered e.1) = Builder.numbered signals := by
  refine List.filter_eq_self.2 fun e he => ?_
  obtain ⟨i, hi, rfl⟩ := List.mem_mapIdx.1 he
  exact isNumbered_key (Nat.lt_of_lt_of_le hi h)

/-- The signals under numbered keys are collected in their order. -/
theorem collect_numbered {signals : List Signal} (h : signals.length ≤ 2 ^ 64) :
    collect ⟨Builder.numbered signals⟩ = signals := by
  have hbound {i : Nat} (hi : i < signals.length) : i < 2 ^ 64 := Nat.lt_of_lt_of_le hi h
  have hsorted : (Builder.numbered signals).Pairwise
      fun a b => (compareKeys a.1 b.1 != .gt) = true := by
    refine List.pairwise_iff_getElem.2 fun i j hi hj hij => ?_
    simp only [Builder.numbered, List.length_mapIdx, List.getElem_mapIdx] at hi hj ⊢
    rw [compareKeys_key (hbound hi) (hbound hj), Nat.compare_eq_lt.2 hij]
    rfl
  rw [collect, filter_numbered h, List.mergeSort_of_pairwise hsorted]
  exact List.ext_getElem (by simp [Builder.numbered]) (by simp [Builder.numbered])

end Variadic

end RigExpr
