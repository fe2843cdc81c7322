import Mathlib.Data.List.Induction
import RigExpr.Graph.Variadic
import RigExpr.Proofs.Number.Text

/-!
# Numbers in keys

The number of a key stands behind its last underscore. It is decimal, and can be written in more
than one way: with a plus sign, and with zeros before it (`Variadic.number?_eq_some_iff`). A key is
split at a number just if it spells this number in one of these ways
(`Variadic.split_eq_some_iff`).
-/

namespace RigExpr

namespace Number

/-- A digit is that of its value, which is below ten. -/
theorem digitChar_of_isDigit {c : Char} (h : c.isDigit = true) :
    c.toNat - '0'.toNat < 10 ∧ (c.toNat - '0'.toNat).digitChar = c := by
  have hzero : '0'.toNat = 48 := rfl
  have hbounds : 48 ≤ c.toNat ∧ c.toNat < 58 := by
    simp [Char.isDigit, UInt32.le_iff_toNat_le] at h
    omega
  refine ⟨by omega, Char.toNat_inj.1 ?_⟩
  rw [Nat.toNat_digitChar_of_lt_ten (by omega)]
  omega

theorem digitsValue_concat (ds : List Char) (c : Char) :
    digitsValue (ds ++ [c]) = 10 * digitsValue ds + (c.toNat - '0'.toNat) := by
  simp [digitsValue]

/-- Digits are those of their value, with zeros before them. -/
theorem exists_zeros_append {ds : List Char} (hne : ds ≠ []) (hds : ∀ c ∈ ds, c.isDigit = true) :
    ∃ n, ds = List.replicate n '0' ++ (toString (digitsValue ds)).toList := by
  simp only [Nat.toString_eq_repr, Nat.toList_repr]
  induction ds using List.reverseRecOn with
  | nil => exact absurd rfl hne
  | append_singleton ds c ih =>
    rw [List.forall_mem_append, List.forall_mem_singleton] at hds
    obtain ⟨hdigit, hchar⟩ := digitChar_of_isDigit hds.2
    have hlast : Nat.toDigits 10 (c.toNat - '0'.toNat) = [c] := by
      rw [Nat.toDigits_of_lt_base hdigit, hchar]
    rw [digitsValue_concat]
    by_cases hempty : ds = []
    · subst hempty
      exact ⟨0, by simpa [digitsValue] using hlast.symm⟩
    · obtain ⟨n, hn⟩ := ih hempty hds.1
      rcases Nat.eq_zero_or_pos (digitsValue ds) with hzero | hpos
      · -- nothing but zeros before the last digit
        rw [hzero] at hn
        refine ⟨n + 1, ?_⟩
        rw [hzero, Nat.mul_zero, Nat.zero_add, hlast, List.replicate_succ', hn]
        rfl
      · refine ⟨n, ?_⟩
        rw [← Nat.toDigits_append_toDigits (by decide) hpos hdigit, hlast, ← List.append_assoc,
          ← hn]

end Number

namespace Variadic

/-- The key is this number behind this front, perhaps with a plus sign and zeros before it. -/
def Spells (key front : String) (n : Nat) : Prop :=
  n < UInt64.size ∧ ∃ (plus : Bool) (zeros : Nat),
    key = front ++ "_" ++ (if plus then "+" else "") ++ Number.zeros zeros ++ toString n

theorem isDigit_zeros_append (zeros n : Nat) :
    ∀ c ∈ List.replicate zeros '0' ++ (toString n).toList, c.isDigit = true := by
  intro c hc
  rcases List.mem_append.1 hc with hc | hc
  · rw [List.eq_of_mem_replicate hc]
    rfl
  · exact Number.isDigit_of_mem_toString hc

/-- A number without a plus sign is read by its digits. -/
theorem number?_of_ne {cs : List Char} (h : ∀ ds, cs ≠ '+' :: ds) : number? cs = digits? cs := by
  unfold number?
  split
  · next ds => exact absurd rfl (h ds)
  · rfl

/-- Digits are those of their value, with zeros before them. -/
theorem digits?_eq_some_iff {ds : List Char} {n : Nat} :
    digits? ds = some n ↔ n < UInt64.size ∧
      ∃ zeros, ds = List.replicate zeros '0' ++ (toString n).toList := by
  constructor
  · intro h
    rw [digits?] at h
    split at h
    · cases h
    · next hproper =>
      simp only [not_or, List.isEmpty_iff, Bool.not_eq_true', Bool.not_eq_false,
        List.all_eq_true] at hproper
      split at h
      · next hlt =>
        cases h
        exact ⟨hlt, Number.exists_zeros_append hproper.1 hproper.2⟩
      · cases h
  · rintro ⟨hlt, zeros, rfl⟩
    have hvalue : Number.digitsValue (List.replicate zeros '0' ++ (toString n).toList) = n := by
      rw [Number.digitsValue_zeros_append, Number.digitsValue_toString]
    have hproper : ¬((List.replicate zeros '0' ++ (toString n).toList).isEmpty = true ∨
        (!(List.replicate zeros '0' ++ (toString n).toList).all Char.isDigit) = true) := by
      rw [List.all_eq_true.2 (isDigit_zeros_append zeros n)]
      simp
    rw [digits?, if_neg hproper, hvalue, if_pos hlt]

theorem isDigit_of_digits? {ds : List Char} {n : Nat} (h : digits? ds = some n) :
    ∀ c ∈ ds, c.isDigit = true := by
  obtain ⟨-, zeros, rfl⟩ := digits?_eq_some_iff.1 h
  exact isDigit_zeros_append zeros n

/-- The numerals of a number. -/
theorem number?_eq_some_iff {cs : List Char} {n : Nat} :
    number? cs = some n ↔ n < UInt64.size ∧ ∃ (plus : Bool) (zeros : Nat),
      cs = (if plus then ['+'] else []) ++ (List.replicate zeros '0' ++ (toString n).toList) := by
  constructor
  · intro h
    by_cases hplus : ∃ ds, cs = '+' :: ds
    · obtain ⟨ds, rfl⟩ := hplus
      obtain ⟨hlt, zeros, rfl⟩ := digits?_eq_some_iff.1 h
      exact ⟨hlt, true, zeros, rfl⟩
    · rw [number?_of_ne (not_exists.1 hplus)] at h
      obtain ⟨hlt, zeros, rfl⟩ := digits?_eq_some_iff.1 h
      exact ⟨hlt, false, zeros, rfl⟩
  · rintro ⟨hlt, plus, zeros, rfl⟩
    have hdigits := digits?_eq_some_iff.2 ⟨hlt, zeros, rfl⟩
    cases plus with
    | true => exact hdigits
    | false =>
      refine (number?_of_ne fun ds hds => ?_).trans hdigits
      have hdigit := isDigit_of_digits? hdigits '+' (hds ▸ List.mem_cons_self)
      exact absurd hdigit (by decide)

theorem underscore_notMem {cs : List Char} {n : Nat} (h : number? cs = some n) : '_' ∉ cs := by
  obtain ⟨-, plus, zeros, rfl⟩ := number?_eq_some_iff.1 h
  have hsign : '_' ∉ (if plus then ['+'] else []) := by cases plus <;> decide
  simp [hsign, List.mem_replicate]

/-- A key spells a number just if this number is read behind its last underscore. -/
theorem spells_iff {key front : String} {n : Nat} :
    Spells key front n ↔ ∃ cs, key.toList = front.toList ++ '_' :: cs ∧ number? cs = some n := by
  have htext (plus : Bool) (zeros : Nat) :
      (front ++ "_" ++ (if plus then "+" else "") ++ Number.zeros zeros ++ toString n).toList =
        front.toList ++ '_' :: ((if plus then ['+'] else []) ++
          (List.replicate zeros '0' ++ (toString n).toList)) := by
    cases plus <;> simp [String.toList_append, Number.zeros]
  constructor
  · rintro ⟨hlt, plus, zeros, rfl⟩
    exact ⟨_, htext plus zeros, number?_eq_some_iff.2 ⟨hlt, plus, zeros, rfl⟩⟩
  · rintro ⟨cs, hkey, hcs⟩
    obtain ⟨hlt, plus, zeros, rfl⟩ := number?_eq_some_iff.1 hcs
    exact ⟨hlt, plus, zeros, String.toList_injective (hkey.trans (htext plus zeros).symm)⟩

/-- A key is split at the number that it spells. -/
theorem split_eq_some_iff {key front : String} {n : Nat} :
    split key = (front, some n) ↔ Spells key front n := by
  rw [spells_iff]
  constructor
  · intro h
    unfold split at h
    dsimp only at h
    split at h
    · cases h
    · next c rest hdrop =>
      split at h
      · next hnumber =>
        cases h
        refine ⟨_, ?_, hnumber⟩
        -- the key is read from its end, and the first underscore there is the last one
        have hc : c = '_' := by
          have := List.head?_dropWhile_not (· ≠ '_') key.toList.reverse
          rw [hdrop] at this
          simpa using this
        have happend := List.takeWhile_append_dropWhile (p := (· ≠ '_')) (l := key.toList.reverse)
        rw [hdrop, hc] at happend
        have hreverse := congrArg List.reverse happend
        simpa using hreverse.symm
      · cases h
  · rintro ⟨cs, hkey, hcs⟩
    have hreverse : key.toList.reverse = cs.reverse ++ '_' :: front.toList.reverse := by
      simp [hkey]
    have hne : ∀ c ∈ cs.reverse, (decide (c ≠ '_')) = true := by
      intro c hc
      have : c ≠ '_' := fun h => underscore_notMem hcs (h ▸ List.mem_reverse.1 hc)
      simpa using this
    have hdrop : key.toList.reverse.dropWhile (· ≠ '_') = '_' :: front.toList.reverse := by
      rw [hreverse, List.dropWhile_append_of_pos hne]
      rfl
    have htake : key.toList.reverse.takeWhile (· ≠ '_') = cs.reverse := by
      rw [hreverse, List.takeWhile_append_of_pos hne]
      simp
    simp only [split, hdrop, htake, List.reverse_reverse, hcs, String.ofList_toList]

/-- A key without a number is not split. -/
theorem split_fst_of_none {key : String} (h : (split key).2 = none) : (split key).1 = key := by
  unfold split at h ⊢
  dsimp only at h ⊢
  split
  · rfl
  · next hdrop =>
    rw [hdrop] at h
    dsimp only at h
    split
    · next hnumber =>
      rw [hnumber] at h
      cases h
    · rfl

/-- A number that is written is read again as it was. -/
theorem split_key {i : Nat} (h : i < 2 ^ 64) : split (key i) = (stem, some i) :=
  split_eq_some_iff.2 ⟨h, false, 0, by simp [key, Number.zeros]⟩

end Variadic

end RigExpr
