import RigExpr.Proofs.Graph.Growth
import RigExpr.Proofs.Graph.Names
import RigExpr.Proofs.Table

/-!
# Numbered inputs in any order

Operands that are numbered are read in the order of their numbers, in whatever order they are
wired and whatever else is wired besides (`Variadic.collect_of_perm`). The numbers of keys are
decimal, so `in_10` comes after `in_9`, and a number that is written is read again as it was
(`Variadic.split_key`).
-/

namespace RigExpr

namespace Variadic

variable {signals : List Signal} {others pairs : List (String × Signal)}

theorem isNumbered_iff {k : String} : isNumbered k = true ↔ ∃ i, split k = (stem, some i) := by
  unfold isNumbered
  split
  · next front i h => simp [h]
  · next h =>
    refine iff_of_false (by simp) ?_
    rintro ⟨i, hi⟩
    exact h _ _ hi

theorem filter_numbered_append (h : signals.length ≤ UInt64.size)
    (hothers : ∀ e ∈ others, ∀ i, split e.1 ≠ (stem, some i)) :
    (Builder.numbered signals ++ others).filter (fun e => isNumbered e.1) =
      Builder.numbered signals := by
  have hnone : others.filter (fun e => isNumbered e.1) = [] := by
    refine List.filter_eq_nil_iff.2 fun e he hnumber => ?_
    obtain ⟨i, hi⟩ := isNumbered_iff.1 hnumber
    exact hothers e he i hi
  rw [List.filter_append, filter_numbered h, hnone, List.append_nil]

/-- The number of an entry, with its signal. -/
def rank (e : String × Signal) : Nat × Signal := ((split e.1).2.getD 0, e.2)

theorem rank_numbered (h : signals.length ≤ UInt64.size) :
    (Builder.numbered signals).map rank = signals.mapIdx fun i s => (i, s) := by
  refine List.ext_getElem (by simp [Builder.numbered]) fun i hi _ => ?_
  have hi : i < signals.length := by simpa [Builder.numbered] using hi
  simp [Builder.numbered, rank, split_key (Nat.lt_of_lt_of_le hi h)]

/-- The order of numbered signals. -/
def byNumber (a b : Nat × Signal) : Bool := a.1 ≤ b.1

theorem byNumber_trans (a b c : Nat × Signal) (hab : byNumber a b = true)
    (hbc : byNumber b c = true) : byNumber a c = true :=
  decide_eq_true (Nat.le_trans (of_decide_eq_true hab) (of_decide_eq_true hbc))

theorem byNumber_total (a b : Nat × Signal) : (byNumber a b || byNumber b a) = true := by
  simpa [byNumber] using Nat.le_total a.1 b.1

theorem compare_bne_gt (i j : Nat) : (compare i j != .gt) = decide (i ≤ j) := by
  rcases Nat.lt_trichotomy i j with hij | rfl | hij
  · simp [Nat.compare_eq_lt.2 hij, Nat.le_of_lt hij]
  · simp
  · simp [Nat.compare_eq_gt.2 hij, hij]

theorem compareKeys_of_mem (h : signals.length ≤ UInt64.size) {a b : String × Signal}
    (ha : a ∈ Builder.numbered signals) (hb : b ∈ Builder.numbered signals) :
    (compareKeys a.1 b.1 != .gt) = byNumber (rank a) (rank b) := by
  obtain ⟨i, hi, rfl⟩ := List.mem_mapIdx.1 ha
  obtain ⟨j, hj, rfl⟩ := List.mem_mapIdx.1 hb
  have hi := Nat.lt_of_lt_of_le hi h
  have hj := Nat.lt_of_lt_of_le hj h
  rw [compareKeys_key hi hj, compare_bne_gt]
  simp only [byNumber, rank, split_key hi, split_key hj, Option.getD_some]

theorem pairwise_mergeSort_byNumber (l : List (Nat × Signal)) :
    (l.mergeSort byNumber).Pairwise fun a b => byNumber a b = true :=
  List.pairwise_mergeSort byNumber_trans byNumber_total l

/-- Sorting by key is sorting by number, which leaves one order only. -/
theorem map_mergeSort_of_perm (h : signals.length ≤ UInt64.size) {entries : List (String × Signal)}
    (hentries : entries.Perm (Builder.numbered signals)) :
    (entries.mergeSort fun a b => compareKeys a.1 b.1 != .gt).map rank =
      signals.mapIdx fun i s => (i, s) := by
  have hkeys : ∀ a ∈ entries, ∀ b ∈ entries,
      (compareKeys a.1 b.1 != .gt) = byNumber (rank a) (rank b) := fun a ha b hb =>
    compareKeys_of_mem h (hentries.mem_iff.1 ha) (hentries.mem_iff.1 hb)
  rw [List.map_mergeSort hkeys]
  have hperm : ((entries.map rank).mergeSort byNumber).Perm (signals.mapIdx fun i s => (i, s)) :=
    (List.mergeSort_perm _ _).trans (rank_numbered h ▸ hentries.map rank)
  -- a number belongs to one signal, so signals that are not apart by number are the same
  have hunique : ∀ a b, a ∈ (entries.map rank).mergeSort byNumber →
      b ∈ signals.mapIdx (fun i s => (i, s)) →
      byNumber a b = true → byNumber b a = true → a = b := by
    intro a b ha hb hab hba
    obtain ⟨i, hi, rfl⟩ := List.mem_mapIdx.1 (hperm.mem_iff.1 ha)
    obtain ⟨j, hj, rfl⟩ := List.mem_mapIdx.1 hb
    obtain rfl : i = j := Nat.le_antisymm (of_decide_eq_true hab) (of_decide_eq_true hba)
    rfl
  refine hperm.eq_of_pairwise hunique (pairwise_mergeSort_byNumber _)
    (List.pairwise_iff_getElem.2 fun i j hi hj hij => ?_)
  simpa [byNumber] using Nat.le_of_lt hij

/-- Signals under the keys of numbered inputs are collected by number, in whatever order they and
    other inputs are given; the key with a number is read as the stem and this number. -/
theorem collect_of_perm (h : signals.length ≤ UInt64.size)
    (hothers : ∀ e ∈ others, ∀ i, split e.1 ≠ (stem, some i))
    (hpairs : pairs.Perm (Builder.numbered signals ++ others)) :
    collect (Table.ofList pairs) = signals ∧
      ∀ i < UInt64.size, split (key i) = (stem, some i) := by
  refine ⟨?_, fun i hi => split_key hi⟩
  -- the numbered inputs among the pairs, with a key each
  have hperm : (pairs.filter fun e => isNumbered e.1).Perm (Builder.numbered signals) :=
    filter_numbered_append h hothers ▸ hpairs.filter _
  have hnodup : ((pairs.filter fun e => isNumbered e.1).map (·.1)).Nodup :=
    (hperm.map _).nodup_iff.2 (nodup_numbered signals)
  have hentries : (Table.ofList pairs).entries.filter (fun e => isNumbered e.1) =
      pairs.filter fun e => isNumbered e.1 := by
    rw [Table.filter_ofList, Table.entries_ofList hnodup]
  have hsignals : (signals.mapIdx fun i s => (i, s)).map (·.2) = signals :=
    List.ext_getElem (by simp) (by simp)
  have hsorted := congrArg (List.map (·.2)) (map_mergeSort_of_perm h hperm)
  rw [hsignals, List.map_map] at hsorted
  rw [collect, hentries]
  exact hsorted

/-- Eleven options that are wired from the last to the first, with the selector among them and a
    key without a number. -/
theorem collect_of_perm_switch :
    let signals := (List.range 11).map fun i => Signal.float (Float.ofNat i)
    let wired := (Builder.numbered signals).reverse
    let pairs := wired.take 5 ++ ("selector", .bool true) :: wired.drop 5 ++ [("in", .float 7)]
    pairs.map (·.1) = ["in_10", "in_9", "in_8", "in_7", "in_6", "selector", "in_5", "in_4", "in_3",
      "in_2", "in_1", "in_0", "in"] ∧ collect (Table.ofList pairs) = signals := by
  intro signals wired pairs
  have hothers : ∀ e ∈ [("selector", Signal.bool true), ("in", .float 7)], ∀ i,
      split e.1 ≠ (stem, some i) := by
    have hsplit : split "selector" = ("selector", none) ∧ split "in" = ("in", none) := by decide
    simp [hsplit]
  have hpairs : pairs.Perm
      (Builder.numbered signals ++ [("selector", .bool true), ("in", .float 7)]) := by
    decide +kernel
  exact ⟨by decide +kernel, (collect_of_perm (by decide) hothers hpairs).1⟩

end Variadic

end RigExpr
