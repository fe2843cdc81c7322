import RigExpr.Proofs.Graph.Numbered

/-!
# The order of keys

Keys are compared by what stands before their number, and then by the number, so that all keys
are ranked (`Variadic.compareKeys_eq`). But a number can be written in more than one way, with
zeros before it or a plus sign, and keys that differ in nothing else are not told apart
(`Variadic.compareKeys_eq_eq_iff`). Such inputs are collected in the order in which they are
found. So it depends on this order what is collected, just if two inputs with one number carry
different signals (`Variadic.collect_eq_of_perm_iff`).
-/

namespace RigExpr

namespace Variadic

/-! ## The order -/

/-- The number of a key; a key without a number comes after all numbers. -/
def place (key : String) : Nat := (split key).2.getD UInt64.size

theorem lt_of_split {key : String} {n : Nat} (h : (split key).2 = some n) : n < UInt64.size :=
  (split_eq_some_iff.1 (Prod.ext rfl h)).1

theorem place_eq_place_iff {a b : String} : place a = place b ↔ (split a).2 = (split b).2 := by
  unfold place
  cases ha : (split a).2 with
  | none =>
    cases hb : (split b).2 with
    | none => simp
    | some j => simpa using Nat.ne_of_gt (lt_of_split hb)
  | some i =>
    cases hb : (split b).2 with
    | none => simpa using Nat.ne_of_lt (lt_of_split ha)
    | some j => simp

/-- Keys are in the order of what stands before the number, and then of the number. -/
theorem compareKeys_eq (a b : String) :
    compareKeys a b = (compare (split a).1 (split b).1).then (compare (place a) (place b)) := by
  cases hfront : compare (split a).1 (split b).1 with
  | lt | gt => simp [compareKeys, hfront]
  | eq =>
    simp only [compareKeys, hfront, Ordering.then, place]
    cases ha : (split a).2 with
    | none =>
      cases hb : (split b).2 with
      | none =>
        rw [split_fst_of_none ha, split_fst_of_none hb] at hfront
        simp [hfront]
      | some j => simp [Nat.compare_eq_gt.2 (lt_of_split hb)]
    | some i =>
      cases hb : (split b).2 with
      | none => simp [Nat.compare_eq_lt.2 (lt_of_split ha)]
      | some j => rfl

/-- Keys are not told apart just if they are split alike. -/
theorem compareKeys_eq_eq_iff_split {a b : String} :
    compareKeys a b = .eq ↔ split a = split b := by
  rw [compareKeys_eq, Ordering.then_eq_eq, Std.LawfulEqOrd.compare_eq_iff_eq,
    Std.LawfulEqOrd.compare_eq_iff_eq, place_eq_place_iff, Prod.ext_iff]

/-- Keys are not told apart just if they spell one number behind one front. -/
theorem compareKeys_eq_eq_iff {a b : String} :
    compareKeys a b = .eq ↔ a = b ∨ ∃ front n, Spells a front n ∧ Spells b front n := by
  rw [compareKeys_eq_eq_iff_split]
  constructor
  · intro h
    cases ha : (split a).2 with
    | none =>
      left
      rw [← split_fst_of_none ha, h, split_fst_of_none (h ▸ ha)]
    | some n =>
      have ha : split a = ((split a).1, some n) := Prod.ext rfl ha
      exact .inr ⟨_, n, split_eq_some_iff.1 ha, split_eq_some_iff.1 (h ▸ ha)⟩
  · rintro (rfl | ⟨front, n, ha, hb⟩)
    · rfl
    · rw [split_eq_some_iff.2 ha, split_eq_some_iff.2 hb]

instance : Std.TransCmp compareKeys := by
  have hlex : compareKeys = compareLex (compareOn fun key => (split key).1) (compareOn place) :=
    funext fun a => funext fun b => compareKeys_eq a b
  rw [hlex]
  infer_instance

/-! ## Collecting -/

theorem compareKeys_of_isNumbered {a b : String × Signal} (ha : isNumbered a.1 = true)
    (hb : isNumbered b.1 = true) :
    (compareKeys a.1 b.1 != .gt) = byNumber (rank a) (rank b) := by
  obtain ⟨i, hi⟩ := isNumbered_iff.1 ha
  obtain ⟨j, hj⟩ := isNumbered_iff.1 hb
  rw [compareKeys_eq]
  simp only [place, byNumber, rank, hi, hj, Option.getD_some, Std.ReflCmp.compare_self,
    Ordering.then, compare_bne_gt]

/-- The numbered inputs, with their numbers. -/
def ranks (entries : List (String × Signal)) : List (Nat × Signal) :=
  (entries.filter fun e => isNumbered e.1).map rank

theorem ranks_cons {e : String × Signal} {n : Nat} (h : Spells e.1 stem n)
    (rest : List (String × Signal)) : ranks (e :: rest) = (n, e.2) :: ranks rest := by
  have hsplit := split_eq_some_iff.2 h
  have hnumber : isNumbered e.1 = true := isNumbered_iff.2 ⟨n, hsplit⟩
  simp [ranks, rank, hnumber, hsplit]

theorem exists_of_mem_ranks {p : Nat × Signal} {entries : List (String × Signal)}
    (h : p ∈ ranks entries) : ∃ e ∈ entries, Spells e.1 stem p.1 ∧ e.2 = p.2 := by
  obtain ⟨e, he, rfl⟩ := List.mem_map.1 h
  obtain ⟨he, hnumber⟩ := List.mem_filter.1 he
  obtain ⟨n, hn⟩ := isNumbered_iff.1 hnumber
  refine ⟨e, he, ?_, rfl⟩
  simpa [rank, hn] using split_eq_some_iff.1 hn

/-- The signals that are collected are sorted by the numbers of their keys. -/
theorem collect_eq (inputs : Table String Signal) :
    collect inputs = ((ranks inputs.entries).mergeSort byNumber).map (·.2) := by
  have hkeys : ∀ a ∈ inputs.entries.filter (fun e => isNumbered e.1),
      ∀ b ∈ inputs.entries.filter (fun e => isNumbered e.1),
      (compareKeys a.1 b.1 != .gt) = byNumber (rank a) (rank b) := fun a ha b hb =>
    compareKeys_of_isNumbered (List.mem_filter.1 ha).2 (List.mem_filter.1 hb).2
  rw [ranks, ← List.map_mergeSort hkeys, List.map_map]
  rfl

/-- What comes first in a list comes first among its equals when the list is sorted. -/
theorem getElem?_mergeSort_cons (p : Nat × Signal) (l : List (Nat × Signal)) :
    ((p :: l).mergeSort byNumber)[l.countP fun q => q.1 < p.1]? = some p := by
  obtain ⟨below, above, hcons, hl, hbelow⟩ :=
    List.mergeSort_cons byNumber_trans byNumber_total p l
  have hsorted := pairwise_mergeSort_byNumber (p :: l)
  rw [hcons, List.pairwise_append, List.pairwise_cons] at hsorted
  have hcount : (l.countP fun q => q.1 < p.1) = below.length := by
    rw [← (List.mergeSort_perm l byNumber).countP_eq, hl, List.countP_append,
      List.countP_eq_length.2, List.countP_eq_zero.2, Nat.add_zero]
    · intro q hq
      simpa [byNumber] using hsorted.2.1.1 q hq
    · intro q hq
      simpa [byNumber] using hbelow q hq
  rw [hcount, hcons, List.getElem?_append_right (Nat.le_refl _), Nat.sub_self]
  rfl

/-- If inputs with one number carry one signal, it does not matter in which order they are found. -/
theorem collect_eq_of_perm {inputs : Table String Signal} {entries : List (String × Signal)}
    (hties : ∀ e ∈ inputs.entries, ∀ e' ∈ inputs.entries, ∀ n,
      Spells e.1 stem n → Spells e'.1 stem n → e.2 = e'.2)
    (hperm : entries.Perm inputs.entries) : collect ⟨entries⟩ = collect inputs := by
  rw [collect_eq, collect_eq]
  have hperm : (ranks entries).Perm (ranks inputs.entries) := (hperm.filter _).map rank
  -- what is sorted is in one order only, since no two ranks are equal in number alone
  refine congrArg (List.map (·.2)) (List.Perm.eq_of_pairwise ?_ (pairwise_mergeSort_byNumber _)
    (pairwise_mergeSort_byNumber _)
    (((List.mergeSort_perm _ _).trans hperm).trans (List.mergeSort_perm _ _).symm))
  intro p q hp hq hpq hqp
  obtain ⟨e, he, hspell, hep⟩ := exists_of_mem_ranks (hperm.mem_iff.1 (List.mem_mergeSort.1 hp))
  obtain ⟨e', he', hspell', heq⟩ := exists_of_mem_ranks (List.mem_mergeSort.1 hq)
  have hnumber : p.1 = q.1 := Nat.le_antisymm (of_decide_eq_true hpq) (of_decide_eq_true hqp)
  refine Prod.ext hnumber ?_
  rw [← hep, ← heq]
  exact hties e he e' he' q.1 (hnumber ▸ hspell) hspell'

/-- An input that is found first is collected behind the inputs with smaller numbers only. -/
theorem getElem?_collect_cons {e : String × Signal} {n : Nat} (h : Spells e.1 stem n)
    (rest : List (String × Signal)) :
    (collect ⟨e :: rest⟩)[(ranks rest).countP fun q => q.1 < n]? = some e.2 := by
  rw [collect_eq, ranks_cons h, List.getElem?_map, getElem?_mergeSort_cons (n, e.2)]
  rfl

/-- Of two inputs with one number, the one that is found first is collected first. -/
theorem eq_of_collect_eq {e e' : String × Signal} {n : Nat} (h : Spells e.1 stem n)
    (h' : Spells e'.1 stem n) (rest : List (String × Signal))
    (heq : collect ⟨e :: e' :: rest⟩ = collect ⟨e' :: e :: rest⟩) : e.2 = e'.2 := by
  have hcount {f : String × Signal} (hf : Spells f.1 stem n) :
      ((ranks (f :: rest)).countP fun q => q.1 < n) = (ranks rest).countP fun q => q.1 < n := by
    rw [ranks_cons hf, List.countP_cons_of_neg (by simp)]
  have hfirst := getElem?_collect_cons h (e' :: rest)
  have hfirst' := getElem?_collect_cons h' (e :: rest)
  rw [hcount h', heq] at hfirst
  rw [hcount h, hfirst] at hfirst'
  exact Option.some.inj hfirst'

/-- Keys are ranked, and those that spell one number behind one front are not told apart. So what
    is collected does not depend on the order of the inputs just if all inputs with one number
    carry one signal. -/
theorem collect_eq_of_perm_iff (inputs : Table String Signal) :
    (∀ a b, compareKeys b a = (compareKeys a b).swap) ∧
      (∀ a b c, (compareKeys a b).isLE = true → (compareKeys b c).isLE = true →
        (compareKeys a c).isLE = true) ∧
      (∀ a b, compareKeys a b = .eq ↔ a = b ∨ ∃ front n, Spells a front n ∧ Spells b front n) ∧
      ((∀ entries, entries.Perm inputs.entries → collect ⟨entries⟩ = collect inputs) ↔
        ∀ e ∈ inputs.entries, ∀ e' ∈ inputs.entries, ∀ n,
          Spells e.1 stem n → Spells e'.1 stem n → e.2 = e'.2) := by
  refine ⟨fun a b => Std.OrientedCmp.eq_swap, fun a b c => Std.TransCmp.isLE_trans,
    fun a b => compareKeys_eq_eq_iff, ?_, fun hties entries => collect_eq_of_perm hties⟩
  intro horder e he e' he' n h h'
  by_cases heq : e' = e
  · rw [heq]
  · -- bring the two to the front, in either order
    have hmem : e' ∈ inputs.entries.erase e := (List.mem_erase_of_ne heq).2 he'
    have hperm : (e :: e' :: (inputs.entries.erase e).erase e').Perm inputs.entries :=
      ((List.perm_cons_erase he).trans ((List.perm_cons_erase hmem).cons e)).symm
    refine eq_of_collect_eq h h' ((inputs.entries.erase e).erase e') ?_
    rw [horder _ hperm, horder _ ((List.Perm.swap e e' _).trans hperm)]

/-- One signal under two spellings of a number, found in two orders. -/
theorem collect_eq_of_perm_iff_signs :
    let entries := [("in_+1", Signal.float 5), ("in_0", .float 7), ("in_01", .float 5)]
    compareKeys "in_+1" "in_01" = .eq ∧ collect ⟨entries.reverse⟩ = collect ⟨entries⟩ := by
  intro entries
  have hties : ∀ e ∈ entries, ∀ e' ∈ entries, ∀ n,
      Spells e.1 stem n → Spells e'.1 stem n → e.2 = e'.2 := by
    have hplaces : ∀ e ∈ entries, ∀ e' ∈ entries, place e.1 = place e'.1 → e.2 = e'.2 := by
      decide +kernel
    intro e he e' he' n h h'
    refine hplaces e he e' he' ?_
    rw [place, place, split_eq_some_iff.2 h, split_eq_some_iff.2 h']
  exact ⟨by decide +kernel,
    (collect_eq_of_perm_iff ⟨entries⟩).2.2.2.2 hties _ (List.reverse_perm entries)⟩

/-- Two spellings of a number with a signal each. -/
theorem collect_depends_on_order :
    compareKeys "in_1" "in_01" = .eq ∧ "in_1" ≠ "in_01" ∧
      collect ⟨[("in_1", .float 1), ("in_01", .float 2)]⟩ ≠
        collect ⟨[("in_01", .float 2), ("in_1", .float 1)]⟩ := by
  have h : Spells "in_1" stem 1 := split_eq_some_iff.1 (by decide +kernel)
  have h' : Spells "in_01" stem 1 := split_eq_some_iff.1 (by decide +kernel)
  refine ⟨compareKeys_eq_eq_iff.2 (.inr ⟨stem, 1, h, h'⟩), by decide, fun heq => ?_⟩
  have hsignals : Signal.float 1 = .float 2 :=
    @eq_of_collect_eq ("in_1", .float 1) ("in_01", .float 2) 1 h h' [] heq
  exact absurd hsignals (by decide +kernel)

end Variadic

end RigExpr
