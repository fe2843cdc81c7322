import Mathlib.Tactic.Ring
import RigExpr.Number.Text
import RigExpr.Proofs.Lexeme
import RigExpr.Token

/-!
# The sign of a number

The product of a double with minus one is the double with the other sign
(`Binary64.neg_one_mul_ofBits`): the significand fits as it is, and nothing is rounded.
So the text of a numeral with a minus sign in front stands for minus one times the number
that the numeral stands for (`Number.read?_turnSign`).
-/

namespace RigExpr

namespace Binary64

section Fields

open Float.Model Float.Model.UnpackedFloat

/-! ## The fields of a double -/

/-- The sign field. -/
def sign (negative : Bool) : Sign := if negative then .negative else .positive

theorem toNat_packComponents (s : Sign) (e : BitVec 11) (m : BitVec 52) :
    (packComponents .binary64 s e m).toNat =
      s.toBitVec.toNat * 2 ^ 63 + e.toNat * 2 ^ 52 + m.toNat := by
  rw [packComponents, BitVec.toNat_append, BitVec.toNat_append,
    ← Nat.shiftLeft_add_eq_or_of_lt e.isLt, ← Nat.shiftLeft_add_eq_or_of_lt m.isLt]
  simp only [Nat.shiftLeft_eq]
  ring

/-- The fields of the double with this magnitude and sign. -/
theorem ofNat_eq_packComponents (negative : Bool) {c : Nat} (hc : c < 2 ^ 63) :
    BitVec.ofNat 64 (c + if negative then 2 ^ 63 else 0) =
      packComponents .binary64 (sign negative) (BitVec.ofNat 11 (c / 2 ^ 52))
        (BitVec.ofNat 52 c) := by
  refine BitVec.eq_of_toNat_eq ?_
  rw [toNat_packComponents]
  simp only [BitVec.toNat_ofNat]
  cases negative <;> simp [sign, Sign.toBitVec] <;> omega

theorem unpackSign_packComponents {spec : Format} {s : Sign} {e : BitVec spec.exponentBits}
    {m : BitVec spec.mantissaBitsWithoutImplicit} :
    Sign.ofBitVec (unpackSign (packComponents spec s e m)) = s := by
  have h : unpackSign (packComponents spec s e m) = s.toBitVec := by
    delta unpackSign
    ext i hi
    obtain rfl : i = 0 := by omega
    simp [packComponents, BitVec.getLsbD_append, BitVec.getElem_append]
  rw [h]
  cases s <;> rfl

theorem toNat_ne_zero {w : Nat} {b : BitVec w} (h : b ≠ 0#w) : b.toNat ≠ 0 := fun hzero =>
  h (BitVec.eq_of_toNat_eq hzero)

theorem toNat_implicit (m : BitVec 52) : (1#1 ++ m).toNat = 2 ^ 52 + m.toNat := by
  rw [BitVec.toNat_append, ← Nat.shiftLeft_add_eq_or_of_lt m.isLt]
  rfl

theorem toNat_implicit_pos (m : BitVec 52) : 0 < (1#1 ++ m).toNat := by
  rw [toNat_implicit]
  omega

theorem log2_implicit (m : BitVec 52) : (1#1 ++ m).toNat.log2 = 52 := by
  rw [toNat_implicit, Nat.log2_eq_iff (by omega)]
  have := m.isLt
  omega

theorem log2_lt {m : BitVec 52} (hm : m ≠ 0#52) : m.toNat.log2 < 52 :=
  (Nat.log2_lt (toNat_ne_zero hm)).2 m.isLt

/-- What the fields of a double say. -/
theorem unpack_packComponents (s : Sign) (e : BitVec 11) (m : BitVec 52) :
    UnpackedFloat.unpack .binary64 (packComponents .binary64 s e m) =
      if e = -1#11 then
        if m = 0#52 then .infinity s else .notANumber
      else if e = 0#11 then
        if h : m = 0#52 then .zero s
        else .finite s m.toNat (e.toNat - (Format.binary64.exponentBias + (52 : Nat)) + 1)
          (Nat.pos_of_ne_zero (toNat_ne_zero h))
      else .finite s (1#1 ++ m).toNat (e.toNat - (Format.binary64.exponentBias + (52 : Nat)))
        (toNat_implicit_pos m) := by
  have hs : Sign.ofBitVec (unpackSign (packComponents .binary64 s e m)) = s :=
    unpackSign_packComponents
  have he : unpackExponent (packComponents .binary64 s e m) = e := unpackExponent_packComponents
  have hm : unpackMantissa (packComponents .binary64 s e m) = m := unpackMantissa_packComponents
  generalize packComponents .binary64 s e m = b at hs he hm ⊢
  subst hs he hm
  rfl

/-- A double is infinite, not a number, zero, subnormal or normal, whatever its sign. -/
theorem unpack_cases (e : BitVec 11) (m : BitVec 52) :
    (e = -1#11 ∧ m = 0#52 ∧
      ∀ s, UnpackedFloat.unpack .binary64 (packComponents .binary64 s e m) = .infinity s) ∨
    (e = -1#11 ∧ m ≠ 0#52 ∧
      ∀ s, UnpackedFloat.unpack .binary64 (packComponents .binary64 s e m) = .notANumber) ∨
    (e = 0#11 ∧ m = 0#52 ∧
      ∀ s, UnpackedFloat.unpack .binary64 (packComponents .binary64 s e m) = .zero s) ∨
    (e = 0#11 ∧ ∃ h : m ≠ 0#52,
      ∀ s, UnpackedFloat.unpack .binary64 (packComponents .binary64 s e m) =
        .finite s m.toNat (e.toNat - (Format.binary64.exponentBias + (52 : Nat)) + 1)
          (Nat.pos_of_ne_zero (toNat_ne_zero h))) ∨
    (e ≠ -1#11 ∧ e ≠ 0#11 ∧
      ∀ s, UnpackedFloat.unpack .binary64 (packComponents .binary64 s e m) =
        .finite s (1#1 ++ m).toNat (e.toNat - (Format.binary64.exponentBias + (52 : Nat)))
          (toNat_implicit_pos m)) := by
  by_cases hmax : e = -1#11
  · by_cases hm : m = 0#52
    · refine .inl ⟨hmax, hm, fun s => ?_⟩
      rw [unpack_packComponents, if_pos hmax, if_pos hm]
    · refine .inr (.inl ⟨hmax, hm, fun s => ?_⟩)
      rw [unpack_packComponents, if_pos hmax, if_neg hm]
  · by_cases hzero : e = 0#11
    · by_cases hm : m = 0#52
      · refine .inr (.inr (.inl ⟨hzero, hm, fun s => ?_⟩))
        rw [unpack_packComponents, if_neg hmax, if_pos hzero, dif_pos hm]
      · refine .inr (.inr (.inr (.inl ⟨hzero, hm, fun s => ?_⟩)))
        rw [unpack_packComponents, if_neg hmax, if_pos hzero, dif_neg hm]
    · refine .inr (.inr (.inr (.inr ⟨hmax, hzero, fun s => ?_⟩)))
      rw [unpack_packComponents, if_neg hmax, if_neg hzero]

/-- Turning the sign field negates. -/
theorem unpack_packComponents_negative (e : BitVec 11) (m : BitVec 52) :
    UnpackedFloat.unpack .binary64 (packComponents .binary64 .negative e m) =
      (UnpackedFloat.unpack .binary64 (packComponents .binary64 .positive e m)).neg := by
  rcases unpack_cases e m with ⟨-, -, h⟩ | ⟨-, -, h⟩ | ⟨-, -, h⟩ | ⟨-, _, h⟩ | ⟨-, -, h⟩ <;>
    rw [h, h] <;> rfl

theorem pack_finite (s : Sign) {m : Nat} (hm : 0 < m) (e : Int) :
    UnpackedFloat.pack .binary64 (.finite s m e hm) =
      if 2 ^ 11 ≤ (e + Format.binary64.exponentBias + (52 : Nat)).toNat + 1 then
        packedInfinity .binary64 s
      else if m.log2 + 1 = 53 then
        packComponents .binary64 s
          (BitVec.ofNat 11 (e + Format.binary64.exponentBias + (52 : Nat)).toNat)
          (BitVec.ofNat 52 m)
      else packComponents .binary64 s 0#11 (BitVec.ofNat 52 m) := rfl

/-- The fields of a double are packed as they were, unless it is not a number. -/
theorem pack_unpack {s : Sign} {e : BitVec 11} {m : BitVec 52} (hnumber : e = -1#11 → m = 0#52) :
    UnpackedFloat.pack .binary64
        (UnpackedFloat.unpack .binary64 (packComponents .binary64 s e m)) =
      packComponents .binary64 s e m := by
  rcases unpack_cases e m with
    ⟨rfl, rfl, h⟩ | ⟨he, hm, -⟩ | ⟨rfl, rfl, h⟩ | ⟨rfl, hm, h⟩ | ⟨hmax, -, h⟩
  · rw [h]
    rfl
  · exact absurd (hnumber he) hm
  · rw [h]
    rfl
  · -- a subnormal number
    have hlog := log2_lt hm
    rw [h, pack_finite, if_neg (by simp [Format.exponentBias]), if_neg (by omega)]
    simp
  · -- a normal number, whose first bit is left out
    have hmax : e.toNat ≠ 2 ^ 11 - 1 := fun h => hmax (BitVec.eq_of_toNat_eq h)
    have hbound : ¬2 ^ 11 ≤ e.toNat + 1 := by
      have := e.isLt
      omega
    have hbiased : ((e.toNat : Int) - (Format.binary64.exponentBias + (52 : Nat)) +
        Format.binary64.exponentBias + (52 : Nat)).toNat = e.toNat := by
      omega
    have hexponent : BitVec.ofNat 11 e.toNat = e := by simp
    have hmantissa : BitVec.ofNat 52 (1#1 ++ m).toNat = m := by
      refine BitVec.eq_of_toNat_eq ?_
      rw [BitVec.toNat_ofNat, toNat_implicit, Nat.add_mod_left, Nat.mod_eq_of_lt m.isLt]
    rw [h, pack_finite, hbiased, if_neg hbound, log2_implicit, if_pos rfl, hexponent, hmantissa]

/-! ## The product with minus one -/

theorem unpack_neg_one :
    (-1 : Float).toModel.unpack = .finite .negative (2 ^ 52) (-52) (by decide) := rfl

theorem targetExponent_eq (t : Int) :
    Format.binary64.targetExponent t = max (t - 53) (-1074) := rfl

theorem shiftRight_mul (m k : Nat) :
    (⟨m * 2 ^ k, false, false⟩ : ExtendedMantissa) >>> k = ⟨m, false, false⟩ := by
  induction k generalizing m with
  | zero => simp [HShiftRight.hShiftRight, Nat.repeat]
  | succ k ih =>
    rw [Nat.pow_succ', ← Nat.mul_assoc]
    show ExtendedMantissa.shiftRightOne
      ((⟨m * 2 * 2 ^ k, false, false⟩ : ExtendedMantissa) >>> k) = _
    rw [ih]
    simp [ExtendedMantissa.shiftRightOne]

/-- A significand that fits its exponent, written with a smaller one, is shifted back to
    where it was, and no bit is lost. -/
theorem shiftToTargetExponent_mul {m : Nat} (hm : 0 < m) {e : Int}
    (h : Format.binary64.targetExponent (totalExponent m e) = e) (k : Nat) :
    shiftToTargetExponent .binary64 (m * 2 ^ k) (e - k) .exact = (⟨m, false, false⟩, e) := by
  have hlog : (m * 2 ^ k).log2 = m.log2 + k := by
    rw [Nat.log2_eq_iff (Nat.mul_ne_zero (Nat.ne_of_gt hm) (by simp)), Nat.pow_add,
      Nat.add_right_comm, Nat.pow_add]
    exact ⟨Nat.mul_le_mul_right _ (Nat.log2_self_le (Nat.ne_of_gt hm)),
      Nat.mul_lt_mul_of_pos_right Nat.lt_log2_self (Nat.two_pow_pos k)⟩
  have htotal : totalExponent (m * 2 ^ k) (e - k) = totalExponent m e := by
    simp only [totalExponent, hlog]
    omega
  have hshift : (e - (e - (k : Int))).toNat = k := by omega
  rw [shiftToTargetExponent, htotal, h, shiftToExponent]
  simp only [hshift, ExtendedMantissa.ofMantissaAndAccuracy, shiftRight_mul]
  simp

/-- What is shifted without loss is not rounded. -/
theorem roundWithAccuracy_of_exact (s : Sign) {n m : Nat} (hm : 0 < m) {d e : Int}
    (hfirst : shiftToTargetExponent .binary64 n d .exact = (⟨m, false, false⟩, e))
    (hsecond : shiftToTargetExponent .binary64 m e .exact = (⟨m, false, false⟩, e)) :
    roundWithAccuracy .binary64 s n d .exact = .finite s m e hm := by
  rw [roundWithAccuracy, hfirst]
  dsimp only
  rw [show (⟨m, false, false⟩ : ExtendedMantissa).roundedMantissa = m from rfl, hsecond]
  exact dif_neg (Nat.ne_of_gt hm)

/-- The product with one of either sign is exact. -/
theorem mul_finite (s s' : Sign) {m : Nat} (hm : 0 < m) {e : Int}
    (h : Format.binary64.targetExponent (totalExponent m e) = e) :
    UnpackedFloat.mul .binary64 (.finite s (2 ^ 52) (-52) (by decide)) (.finite s' m e hm) =
      .finite (s * s') m e hm := by
  have hexponent : (-52 + e : Int) = e - (52 : Nat) := by omega
  have hfirst := shiftToTargetExponent_mul hm h 52
  have hsecond := shiftToTargetExponent_mul hm h 0
  rw [Nat.pow_zero, Nat.mul_one, Int.natCast_zero, Int.sub_zero] at hsecond
  show roundWithAccuracy .binary64 (s * s') (2 ^ 52 * m) (-52 + e) .exact = _
  rw [Nat.mul_comm, hexponent]
  exact roundWithAccuracy_of_exact _ hm hfirst hsecond

theorem mul_unpack (s : Sign) (e : BitVec 11) (m : BitVec 52) :
    UnpackedFloat.mul .binary64 (.finite .negative (2 ^ 52) (-52) (by decide))
        (UnpackedFloat.unpack .binary64 (packComponents .binary64 s e m)) =
      (UnpackedFloat.unpack .binary64 (packComponents .binary64 s e m)).neg := by
  have hs : Sign.negative * s = -s := by cases s <;> rfl
  rcases unpack_cases e m with ⟨-, -, h⟩ | ⟨-, -, h⟩ | ⟨-, -, h⟩ | ⟨rfl, hm, h⟩ | ⟨-, he, h⟩
  · rw [h]
    exact congrArg UnpackedFloat.infinity hs
  · rw [h]
    rfl
  · rw [h]
    exact congrArg UnpackedFloat.zero hs
  · have hlog := log2_lt hm
    rw [h, mul_finite, hs]
    · rfl
    · rw [targetExponent_eq, totalExponent]
      simp [Format.exponentBias]
      omega
  · have he := toNat_ne_zero he
    rw [h, mul_finite, hs]
    · rfl
    · rw [targetExponent_eq, totalExponent, log2_implicit]
      simp [Format.exponentBias]
      omega

theorem unpack_ofBits {a : UInt64} {s : Sign} {e : BitVec 11} {m : BitVec 52}
    (ha : a.toBitVec = packComponents .binary64 s e m) (h : e = -1#11 → m = 0#52) :
    (Float.ofBits a).toModel.unpack =
      UnpackedFloat.unpack .binary64 (packComponents .binary64 s e m) := by
  show UnpackedFloat.unpack .binary64
    (UnpackedFloat.pack .binary64 (UnpackedFloat.unpack .binary64 a.toBitVec)) = _
  rw [ha, pack_unpack h]

/-- The product with minus one turns the sign bit of a number. -/
theorem neg_one_mul_ofBits {c : Nat} (hc : c ≤ (2 ^ 11 - 1) * 2 ^ 52) :
    -1 * Float.ofBits (UInt64.ofNat c) = Float.ofBits (UInt64.ofNat (c + 2 ^ 63)) := by
  have hpositive : (UInt64.ofNat c).toBitVec = _ :=
    ofNat_eq_packComponents false (by omega)
  have hnegative : (UInt64.ofNat (c + 2 ^ 63)).toBitVec = _ :=
    ofNat_eq_packComponents true (by omega)
  have hnumber : BitVec.ofNat 11 (c / 2 ^ 52) = -1#11 → BitVec.ofNat 52 c = 0#52 := by
    intro h
    have h := congrArg BitVec.toNat h
    simp at h
    refine BitVec.eq_of_toNat_eq ?_
    simp
    omega
  show Float.ofModel (Float.Model.pack (UnpackedFloat.mul .binary64 (-1 : Float).toModel.unpack
      (Float.ofBits (UInt64.ofNat c)).toModel.unpack)) =
    Float.ofModel (Float.Model.pack (UnpackedFloat.unpack .binary64
      (UInt64.ofNat (c + 2 ^ 63)).toBitVec))
  rw [unpack_neg_one, unpack_ofBits hpositive hnumber, mul_unpack, hnegative]
  exact congrArg (fun u => Float.ofModel (Float.Model.pack u))
    (unpack_packComponents_negative _ _).symm

end Fields

theorem pack_true (m : Nat) (q : Int) : pack true m q = -1 * pack false m q := by
  simp only [pack, if_true, Bool.false_eq_true, if_false, Nat.add_zero]
  exact (neg_one_mul_ofBits (Nat.min_le_right _ _)).symm

theorem round_true (num den : Nat) : round true num den = -1 * round false num den := by
  unfold round
  split
  · exact pack_true _ _
  · exact pack_true _ _

end Binary64

/-! ## Numerals -/

namespace Lexeme

/-- What may follow the point of a numeral, with the point. -/
def IsFraction (cs : List Char) : Prop :=
  cs = [] ∨ ∃ ds, cs = '.' :: ds ∧ ds ≠ [] ∧ ∀ d ∈ ds, d.isDigit = true

/-- The exponent of a numeral: nothing, or a letter, a sign if any, and digits. -/
def IsExponent (cs : List Char) : Prop :=
  cs = [] ∨ ∃ c s ds, cs = c :: (s ++ ds) ∧ (c = 'e' ∨ c = 'E') ∧
    (s = [] ∨ s = ['+'] ∨ s = ['-']) ∧ ds ≠ [] ∧ ∀ d ∈ ds, d.isDigit = true

theorem digits_ne_nil {cs : List Char} (h : startsWithDigit cs = true) : (digits cs).1 ≠ [] := by
  cases cs with
  | nil => cases h
  | cons c cs =>
    have hc : c.isDigit = true := h
    simp [digits, hc]

theorem isDigit_of_mem_digits {cs : List Char} : ∀ d ∈ (digits cs).1, d.isDigit = true :=
  List.all_eq_true.1 List.all_takeWhile

theorem isFraction_fraction (cs : List Char) : IsFraction (fraction cs).1 := by
  unfold fraction
  split
  · next d cs =>
    split
    · next hd => exact .inr ⟨_, rfl, digits_ne_nil hd, isDigit_of_mem_digits⟩
    · exact .inl rfl
  · exact .inl rfl

theorem isExponent_exponent (cs : List Char) : IsExponent (exponent cs).1 := by
  unfold exponent
  split
  · next c cs =>
    split
    · next hc =>
      dsimp only
      split
      · next hdigit =>
        refine .inr ⟨c, (sign cs).1, _, rfl, hc, ?_, digits_ne_nil hdigit, isDigit_of_mem_digits⟩
        unfold sign
        split
        · exact .inr (.inl rfl)
        · exact .inr (.inr rfl)
        · exact .inl rfl
      · exact .inl rfl
    · exact .inl rfl
  · exact .inl rfl

/-- A numeral has digits before the point or after it. -/
theorem IsNumeral.exists_parts {s : String} (h : IsNumeral s) :
    ∃ whole part power, s.toList = whole ++ part ++ power ∧ (∀ d ∈ whole, d.isDigit = true) ∧
      IsFraction part ∧ IsExponent power ∧ (whole = [] → part ≠ []) := by
  obtain ⟨cs, hstart, hs⟩ := h
  refine ⟨_, _, _, hs, isDigit_of_mem_digits, isFraction_fraction _, isExponent_exponent _, ?_⟩
  intro hwhole
  unfold startsNumber at hstart
  split at hstart
  · -- with no digit before the point there is one after it
    next cs =>
    cases cs with
    | nil => cases hstart
    | cons d cs =>
      have hd : d.isDigit = true := hstart
      simp [digits, hd]
  · exact absurd hwhole (digits_ne_nil hstart)

end Lexeme

namespace Number

open Lexeme

theorem ofDecimal_true (digits : Nat) (exponent : Int) :
    ofDecimal true digits exponent = -1 * ofDecimal false digits exponent := by
  unfold ofDecimal
  dsimp only
  split
  · exact Binary64.round_true _ _
  · split
    · exact (Binary64.neg_one_mul_ofBits (Nat.le_refl _)).symm
    · split <;> exact Binary64.round_true _ _

theorem exists_readExponent? {cs : List Char} (h : IsExponent cs) :
    ∃ e, readExponent? cs = some e := by
  rcases h with rfl | ⟨c, s, ds, rfl, hc, hs, hne, hds⟩
  · exact ⟨0, rfl⟩
  · have hdigits : ¬(ds.isEmpty = true ∨ (!ds.all Char.isDigit) = true) := by
      simpa [hne] using hds
    unfold readExponent?
    dsimp only
    rw [if_pos hc]
    rcases hs with rfl | rfl | rfl
    · -- the first digit is no sign
      have hplus (rest : List Char) : ds ≠ '+' :: rest := by
        rintro rfl
        exact absurd (hds '+' List.mem_cons_self) (by decide)
      have hminus (rest : List Char) : ds ≠ '-' :: rest := by
        rintro rfl
        exact absurd (hds '-' List.mem_cons_self) (by decide)
      rw [List.nil_append]
      split
      · exact absurd rfl (hplus _)
      · exact absurd rfl (hminus _)
      · exact ⟨_, if_neg hdigits⟩
    · exact ⟨_, if_neg hdigits⟩
    · exact ⟨_, if_neg hdigits⟩

/-- The digits in front of an exponent end where it starts. -/
theorem digits_append_exponent {ds power : List Char} (hds : ∀ d ∈ ds, d.isDigit = true)
    (h : IsExponent power) : digits (ds ++ power) = (ds, power) := by
  have hpower : power.takeWhile Char.isDigit = [] ∧ power.dropWhile Char.isDigit = power := by
    rcases h with rfl | ⟨c, s, ds, rfl, rfl | rfl, -⟩ <;> exact ⟨rfl, rfl⟩
  rw [digits, List.takeWhile_append_of_pos hds, List.dropWhile_append_of_pos hds, hpower.1,
    hpower.2, List.append_nil]

/-- A numeral stands for a decimal number, whatever its sign. -/
theorem exists_readNumeral? {whole part power : List Char}
    (hwhole : ∀ d ∈ whole, d.isDigit = true) (hpart : IsFraction part) (hpower : IsExponent power)
    (hne : whole = [] → part ≠ []) :
    ∃ n e, ∀ negative, readNumeral? negative (whole ++ part ++ power) =
      some (ofDecimal negative n e) := by
  obtain ⟨e, he⟩ := exists_readExponent? hpower
  rcases hpart with rfl | ⟨ds, rfl, hdsne, hds⟩
  · -- no point: the exponent follows the digits
    have hdigits := digits_append_exponent hwhole hpower
    rw [digits, Prod.mk.injEq] at hdigits
    have hpoint (rest : List Char) : power ≠ '.' :: rest := by
      rcases hpower with rfl | ⟨c, s, ds, rfl, rfl | rfl, -⟩ <;> simp
    have hwhole : whole ≠ [] := fun h => hne h rfl
    refine ⟨digitsValue whole, e, fun negative => ?_⟩
    simp [readNumeral?, hdigits, he, hwhole]
  · have hdigits := digits_append_exponent hds hpower
    rw [digits, Prod.mk.injEq] at hdigits
    refine ⟨digitsValue (whole ++ ds), e - ds.length, fun negative => ?_⟩
    have hpoint : ('.' :: (ds ++ power)).takeWhile Char.isDigit = [] ∧
        ('.' :: (ds ++ power)).dropWhile Char.isDigit = '.' :: (ds ++ power) := ⟨rfl, rfl⟩
    simp only [readNumeral?, List.append_assoc, List.cons_append,
      List.takeWhile_append_of_pos hwhole, List.dropWhile_append_of_pos hwhole, hpoint, hdigits,
      List.append_nil]
    simp [he, hdsne]

/-- A numeral starts with a digit or a point. -/
theorem exists_cons_of_isNumeral {s : String} (h : IsNumeral s) :
    ∃ c cs, s.toList = c :: cs ∧ (c = '.' ∨ c.isDigit = true) := by
  obtain ⟨whole, part, power, hs, hwhole, hpart, -, hne⟩ := h.exists_parts
  cases whole with
  | cons c whole => exact ⟨c, _, hs, .inr (hwhole c List.mem_cons_self)⟩
  | nil =>
    rcases hpart with rfl | ⟨ds, rfl, -⟩
    · exact absurd rfl (hne rfl)
    · exact ⟨'.', _, hs, .inl rfl⟩

/-- A numeral is read as such, and not as a word. -/
theorem readUnsigned?_of_isNumeral {s : String} (h : IsNumeral s) (negative : Bool) :
    readUnsigned? negative s.toList = readNumeral? negative s.toList := by
  obtain ⟨c, cs, hs, hc⟩ := exists_cons_of_isNumeral h
  have hlower : c.toLower = c := by
    rcases hc with rfl | hc
    · rfl
    · simp only [Char.isDigit, Bool.and_eq_true, decide_eq_true_eq] at hc
      refine dif_neg ?_
      rintro ⟨hletter, -⟩
      exact absurd (UInt32.le_trans hletter hc.2) (by decide)
  have hne (word : String) {w : Char} {ws : List Char} (hw : word.toList = w :: ws)
      (hnot : ¬(w = '.' ∨ w.isDigit = true)) :
      String.ofList (s.toList.map Char.toLower) ≠ word := by
    rintro rfl
    rw [String.toList_ofList, hs, List.map_cons] at hw
    rw [hlower] at hw
    exact hnot ((List.cons.inj hw).1 ▸ hc)
  have hinf := hne "inf" rfl (by decide)
  have hinfinity := hne "infinity" rfl (by decide)
  have hnan := hne "nan" rfl (by decide)
  rw [readUnsigned?, if_neg (not_or.2 ⟨hinf, hinfinity⟩), if_neg hnan]

/-- A minus sign in front of a numeral turns the sign of the number, as the product with
    minus one does. -/
theorem read?_turnSign {s : String} (h : IsNumeral s) :
    ∃ x, read? s = some x ∧ read? (Token.turnSign s) = some (-1 * x) := by
  obtain ⟨whole, part, power, hs, hwhole, hpart, hpower, hne⟩ := h.exists_parts
  obtain ⟨n, e, hread⟩ := exists_readNumeral? hwhole hpart hpower hne
  have hunsigned (negative : Bool) :
      readUnsigned? negative s.toList = some (ofDecimal negative n e) := by
    rw [readUnsigned?_of_isNumeral h, hs, hread]
  -- a numeral has no sign of its own
  obtain ⟨c, cs, hcs, hc⟩ := exists_cons_of_isNumeral h
  have hminus : c ≠ '-' := by
    rintro rfl
    exact absurd hc (by decide)
  have hplus : c ≠ '+' := by
    rintro rfl
    exact absurd hc (by decide)
  refine ⟨ofDecimal false n e, ?_, ?_⟩
  · rw [← hunsigned false, read?, hcs]
    split
    · next heq => exact absurd (List.cons.inj heq).1 hminus
    · next heq => exact absurd (List.cons.inj heq).1 hplus
    · rfl
  · have hturn : (Token.turnSign s).toList = '-' :: s.toList := by
      rw [Token.turnSign, hcs]
      split
      · next heq => exact absurd (List.cons.inj heq).1 hminus
      · rw [String.toList_append, hcs]
        rfl
    rw [← ofDecimal_true, ← hunsigned true, read?, hturn]
    rfl

end Number

end RigExpr
