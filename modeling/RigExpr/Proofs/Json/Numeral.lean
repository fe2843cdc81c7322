import RigExpr.Json.Record
import RigExpr.Proofs.Json.Reading

/-!
# Numerals of numbers

The numeral of a natural number, and of a double that has one, is a proper one
(`Numeral.isProper_ofNat`, `Numeral.isProper_of_ofFloat?`); the doubles that have one are the
finite ones (`Numeral.exists_ofFloat?_iff`). A natural number below `2^64` is the value of its
numeral. Of a double this need not hold, as its value is found by steps that round.
-/

namespace RigExpr

/-! ## Finite doubles -/

namespace Binary64

open Float.Model

theorem unpackExponent_eq_iff (x : Float) :
    @UnpackedFloat.unpackExponent .binary64 x.toBits.toBitVec = -1#11 ↔
      x.toBits.toNat / 2 ^ 52 % 2 ^ 11 = 2 ^ 11 - 1 := by
  rw [← BitVec.toNat_inj]
  simp [UnpackedFloat.unpackExponent, Nat.shiftRight_eq_div_pow]

/-- A double is finite if its exponent field is not the greatest. -/
theorem isFinite_unpack_iff (b : BitVec 64) :
    (UnpackedFloat.unpack .binary64 b).isFinite = true ↔
      @UnpackedFloat.unpackExponent .binary64 b ≠ -1#11 := by
  delta UnpackedFloat.unpack
  by_cases hmax : @UnpackedFloat.unpackExponent .binary64 b = -1#11
  · rw [if_pos hmax]
    refine iff_of_false ?_ (absurd hmax)
    by_cases hzero : @UnpackedFloat.unpackMantissa .binary64 b = 0#52
    · rw [if_pos hzero]
      exact Bool.false_ne_true
    · rw [if_neg hzero]
      exact Bool.false_ne_true
  · rw [if_neg hmax]
    refine iff_of_true ?_ hmax
    by_cases hleast : @UnpackedFloat.unpackExponent .binary64 b = 0#11
    · rw [if_pos hleast]
      by_cases hzero : @UnpackedFloat.unpackMantissa .binary64 b = 0#52
      · rw [dif_pos hzero]
        rfl
      · rw [dif_neg hzero]
        rfl
    · rw [if_neg hleast]
      rfl

theorem isFinite_iff {x : Float} :
    x.isFinite = true ↔ ∃ negative m q, ofFloat x = .finite negative m q := by
  have hunpack : x.isFinite = (UnpackedFloat.unpack .binary64 x.toBits.toBitVec).isFinite := rfl
  rw [hunpack, isFinite_unpack_iff, Ne, unpackExponent_eq_iff]
  simp only [ofFloat, Nat.pow_eq]
  by_cases hmax : x.toBits.toNat / 2 ^ 52 % 2 ^ 11 = 2 ^ 11 - 1
  · rw [if_pos hmax]
    refine iff_of_false (not_not_intro hmax) ?_
    split <;> rintro ⟨_, _, _, ⟨⟩⟩
  · rw [if_neg hmax]
    refine iff_of_true hmax ?_
    split <;> exact ⟨_, _, _, rfl⟩

/-- A finite double is equal to itself. -/
theorem beq_self_of_isFinite {x : Float} (h : x.isFinite = true) : (x == x) = true := by
  have hcompare (u : UnpackedFloat) (hu : u.isFinite = true) : u.compare u = some .eq := by
    cases u with
    | notANumber => cases hu
    | infinity => cases hu
    | zero => rfl
    | finite s m e =>
      have hsame : (compare e e).then (compare m m) = .eq := by simp
      cases s with
      | positive => exact congrArg some hsame
      | negative => exact congrArg (fun c => some c.swap) hsame
  show (x.toModel.unpack.compare x.toModel.unpack == some .eq) = true
  rw [hcompare _ h]
  rfl

end Binary64

namespace Numeral

/-! ## Digits -/

/-- The digits of a positive number do not start with a zero. -/
theorem head_toDigits_ne {n : Nat} (h : 0 < n) : (Nat.toDigits 10 n).head? ≠ some '0' := by
  induction n using Nat.strongRecOn with
  | ind n ih =>
    by_cases hn : n < 10
    · have hsmall : ∀ n < 10, 0 < n → [n.digitChar].head? ≠ some '0' := by decide
      rw [Nat.toDigits_of_lt_base hn]
      exact hsmall n hn h
    · rw [Nat.toDigits_of_base_le (by decide) (Nat.le_of_not_lt hn),
        List.head?_append_of_ne_nil _ Nat.toDigits_ne_nil]
      exact ih (n / 10) (by omega) (by omega)

theorem toList_toString (n : Nat) : (toString n).toList = Nat.toDigits 10 n := by
  rw [Nat.toString_eq_repr, Nat.toList_repr]

theorem isProper_ofNat (n : Nat) : (ofNat n).IsProper where
  whole_ne_nil := by simp [ofNat]
  isDigit_whole _ hc := Number.isDigit_of_mem_toString hc
  head_whole hlength := by
    rw [ofNat, toList_toString] at hlength ⊢
    refine head_toDigits_ne (Nat.pos_of_ne_zero ?_)
    rintro rfl
    exact absurd hlength (by decide)
  isDigit_fraction _ hc := absurd hc List.not_mem_nil

theorem toNat?_ofNat {n : Nat} (h : n < UInt64.size) : (ofNat n).toNat? = some n := by
  have hvalue : (ofNat n).value? = some (.natural n) := by
    simp only [value?, ofNat, Number.digitsValue_toString]
    rw [if_pos ⟨rfl, rfl, h⟩]
    rfl
  rw [toNat?, hvalue]

/-! ## Doubles -/

theorem isDigit_zeros (n : Nat) : ∀ c ∈ List.replicate n '0', c.isDigit = true := by
  intro c hc
  rw [List.eq_of_mem_replicate hc]
  decide

theorem isProper_ofDecimal (negative : Bool) {d : Decimal} (hd : d.digits ≠ 0) :
    (ofDecimal negative d).IsProper := by
  have hdigit : ∀ c ∈ (toString d.digits).toList, c.isDigit = true :=
    fun c hc => Number.isDigit_of_mem_toString hc
  have hne : (toString d.digits).toList ≠ [] := by simp
  have hhead : (toString d.digits).toList.head? ≠ some '0' := by
    rw [toList_toString]
    exact head_toDigits_ne (Nat.pos_of_ne_zero hd)
  unfold ofDecimal
  generalize (toString d.digits).toList = ds at *
  dsimp only
  split
  · -- all digits before the point, and zeros after them
    refine ⟨by simp [hne], fun c hc => ?_, fun _ => ?_, isDigit_zeros 1⟩
    · exact (List.mem_append.1 hc).elim (hdigit c) (isDigit_zeros _ c)
    · rwa [List.head?_append_of_ne_nil _ hne]
  split
  · next hpoint =>
    -- the point among the digits
    refine ⟨?_, fun c hc => hdigit c (List.mem_of_mem_take hc), fun _ => ?_,
      fun c hc => hdigit c (List.mem_of_mem_drop hc)⟩
    · rw [Ne, List.take_eq_nil_iff]
      exact not_or.2 ⟨by omega, hne⟩
    · rwa [List.head?_take, if_neg (by omega)]
  split
  · -- all digits after the point
    refine ⟨List.cons_ne_nil _ _, isDigit_zeros 1, fun h => absurd h (Nat.lt_irrefl 1),
      fun c hc => ?_⟩
    exact (List.mem_append.1 hc).elim (isDigit_zeros _ c) (hdigit c)
  · -- one digit before the point, and an exponent
    refine ⟨by simp [hne], fun c hc => hdigit c (List.mem_of_mem_take hc), fun hlength => ?_,
      fun c hc => hdigit c (List.mem_of_mem_drop hc)⟩
    exact absurd (List.length_take_le 1 ds) (Nat.not_le.2 hlength)

/-- The doubles that have a numeral are the finite ones. -/
theorem exists_ofFloat?_iff {x : Float} : (∃ n, ofFloat? x = some n) ↔ x.isFinite = true := by
  rw [Binary64.isFinite_iff, ofFloat?]
  constructor
  · rintro ⟨n, h⟩
    split at h
    · next hx => exact ⟨_, _, _, hx⟩
    · next hx => exact ⟨_, _, _, hx⟩
    · cases h
  · rintro ⟨negative, m, q, hx⟩
    rw [hx]
    cases m <;> exact ⟨_, rfl⟩

theorem isProper_of_ofFloat? {x : Float} {n : Numeral} (h : ofFloat? x = some n) : n.IsProper := by
  rw [ofFloat?] at h
  split at h
  · cases h
    exact ⟨List.cons_ne_nil _ _, isDigit_zeros 1, fun h => absurd h (Nat.lt_irrefl 1),
      isDigit_zeros 1⟩
  · next negative m q hm hx =>
    cases h
    have hpos : 0 < m := Nat.pos_of_ne_zero fun h => hm (h ▸ rfl)
    refine isProper_ofDecimal negative fun hzero => ?_
    have hrounds := Decimal.roundsTo_shortest .even hpos (Binary64.canonical_of_ofFloat hx)
    rw [hzero, Nat.cast_zero, zero_mul] at hrounds
    exact Number.not_roundsTo_zero hpos q hrounds
  · cases h

end Numeral

end RigExpr
