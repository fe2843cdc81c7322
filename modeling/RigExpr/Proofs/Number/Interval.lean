import Mathlib.Algebra.Order.Field.Power
import Mathlib.Data.Rat.Cast.Order
import Mathlib.Tactic.FieldSimp
import Mathlib.Tactic.Linarith
import Mathlib.Tactic.NormNum
import Mathlib.Tactic.Positivity
import Mathlib.Tactic.Ring
import RigExpr.Number.Decimal

/-!
# Rounding intervals

The rationals that round to a positive double make up an interval around it, and
the intervals of two doubles do not meet. So a decimal inside an interval
determines the double.

* `Binary64.ofFloat_injective`: a double is determined by its sign, significand
  and exponent.
* `Binary64.RoundsTo.unique`: a rational rounds to one double at most.
* `Decimal.roundsTo_shortest`: the shortest decimal of a double rounds to it.
-/

namespace RigExpr

namespace Binary64

/-! ## Doubles and their bits -/

/-- The significands and exponents of doubles: only at the least exponent is the
    leading bit missing. -/
structure Canonical (m : Nat) (q : Int) : Prop where
  lt : m < 2 ^ 53
  least : minExponent ≤ q
  greatest : q ≤ 971
  normal : minExponent < q → 2 ^ 52 ≤ m

theorem canonical_of_ofFloat {x : Float} {negative : Bool} {m : Nat} {q : Int}
    (h : ofFloat x = .finite negative m q) : Canonical m q := by
  simp only [ofFloat, Nat.pow_eq] at h
  split at h
  · split at h <;> cases h
  · split at h
    · cases h
      refine ⟨?_, Int.le_refl _, by decide, fun h => absurd h (Int.lt_irrefl _)⟩
      omega
    · cases h
      exact ⟨by omega, by unfold minExponent; omega, by omega, by omega⟩

theorem toBits_injective {x y : Float} (h : x.toBits = y.toBits) : x = y := by
  obtain ⟨⟨b, hb⟩⟩ := x
  obtain ⟨⟨b', hb'⟩⟩ := y
  obtain rfl : b = b' := h
  rfl

/-- What is not a number has the same bits always. -/
theorem toBits_eq_of_nan {x : Float} (h : ofFloat x = .nan) :
    x.toBits.toBitVec = Float.Model.UnpackedFloat.packedNaN .binary64 := by
  simp only [ofFloat, Nat.pow_eq] at h
  split at h
  · next hfield =>
    split at h
    · cases h
    · next hfraction =>
      delta Float.toBits at hfield hfraction
      refine x.toModel.valid.eq_packedNaN ?_ fun hzero => hfraction ?_
      · apply BitVec.eq_of_toNat_eq
        simpa [Float.Model.UnpackedFloat.unpackExponent, Nat.shiftRight_eq_div_pow] using hfield
      · simpa [Float.Model.UnpackedFloat.unpackMantissa] using congrArg BitVec.toNat hzero
  · split at h <;> cases h

/-- A double is determined by what its bits say. -/
theorem ofFloat_injective {x y : Float} (h : ofFloat x = ofFloat y) : x = y := by
  apply toBits_injective
  by_cases hnan : ofFloat x = .nan
  · rw [← UInt64.toBitVec_inj, toBits_eq_of_nan hnan, toBits_eq_of_nan (h ▸ hnan)]
  · apply UInt64.toNat_inj.1
    have hx := x.toBits.toNat_lt
    have hy := y.toBits.toNat_lt
    generalize hb : x.toBits.toNat = b at *
    generalize hc : y.toBits.toNat = c at *
    simp only [ofFloat, Nat.pow_eq, hb, hc, minExponent] at h hnan
    obtain ⟨hsign, hfield, hfraction⟩ : decide (2 ^ 63 ≤ b) = decide (2 ^ 63 ≤ c) ∧
        b / 2 ^ 52 % 2 ^ 11 = c / 2 ^ 52 % 2 ^ 11 ∧ b % 2 ^ 52 = c % 2 ^ 52 := by
      grind
    rw [decide_eq_decide] at hsign
    omega

/-! ## The rationals that round to a double -/

/-- The lower end of the rounding interval, in quarters of a unit: half a unit below
    the double, or a quarter below a power of two. -/
def lower (m : Nat) (q : Int) : ℚ :=
  (if m = 2 ^ 52 ∧ minExponent < q then 4 * (m : ℚ) - 1 else 4 * m - 2) * 2 ^ (q - 2)

/-- The upper end of the rounding interval, half a unit above the double. -/
def upper (m : Nat) (q : Int) : ℚ := (4 * m + 2) * 2 ^ (q - 2)

/-- The rational lies in the rounding interval. The ends belong to it when the
    significand is even. -/
def RoundsTo (m : Nat) (q : Int) (x : ℚ) : Prop :=
  if m % 2 = 0 then lower m q ≤ x ∧ x ≤ upper m q else lower m q < x ∧ x < upper m q

theorem RoundsTo.le {m : Nat} {q : Int} {x : ℚ} (h : RoundsTo m q x) :
    lower m q ≤ x ∧ x ≤ upper m q := by
  rw [RoundsTo] at h
  split at h
  · exact h
  · exact ⟨h.1.le, h.2.le⟩

theorem RoundsTo.even_of_eq {m : Nat} {q : Int} {x : ℚ} (h : RoundsTo m q x)
    (hx : x = lower m q ∨ x = upper m q) : m % 2 = 0 := by
  rw [RoundsTo] at h
  split at h
  · assumption
  · rcases hx with hx | hx
    · exact absurd hx h.1.ne'
    · exact absurd hx h.2.ne

theorem roundsTo_of_lt {m : Nat} {q : Int} {x : ℚ} (hl : lower m q < x) (hu : x < upper m q) :
    RoundsTo m q x := by
  rw [RoundsTo]
  split
  · exact ⟨hl.le, hu.le⟩
  · exact ⟨hl, hu⟩

/-- Of two doubles with one exponent, the intervals meet in an end at most, and
    there the significands are neighbours. -/
theorem upper_le_lower_of_lt {m m' : Nat} {q : Int} (hc : Canonical m q) (hm : m < m') :
    upper m q ≤ lower m' q ∧ (upper m q = lower m' q → m' = m + 1) := by
  have hscale : (0 : ℚ) < 2 ^ (q - 2) := by positivity
  have hwide : ¬(m' = 2 ^ 52 ∧ minExponent < q) := by
    rintro ⟨rfl, hq⟩
    have := hc.normal hq
    omega
  have hle : (m : ℚ) + 1 ≤ m' := by exact_mod_cast hm
  rw [upper, lower, if_neg hwide]
  refine ⟨?_, fun h => ?_⟩
  · exact mul_le_mul_of_nonneg_right (by linarith) hscale.le
  · have h := mul_right_cancel₀ hscale.ne' h
    have : (m' : ℚ) = m + 1 := by linarith
    exact_mod_cast this

/-- Of two doubles with different exponents, the intervals meet in an end at most,
    and there the smaller double has the greatest significand. -/
theorem upper_le_lower_of_exponent_lt {m m' : Nat} {q q' : Int} (hc : Canonical m q)
    (hc' : Canonical m' q') (hq : q < q') :
    upper m q ≤ lower m' q' ∧ (upper m q = lower m' q' → m = 2 ^ 53 - 1) := by
  have hscale : (0 : ℚ) < 2 ^ (q - 2) := by positivity
  have hdouble : (2 : ℚ) * 2 ^ (q - 2) ≤ 2 ^ (q' - 2) := by
    rw [← zpow_one_add₀ (by norm_num)]
    exact zpow_le_zpow_right₀ (by norm_num) (by omega)
  have hnormal := hc'.normal (lt_of_le_of_lt hc.least hq)
  have hm' : (2 ^ 52 : ℚ) ≤ m' := by exact_mod_cast hnormal
  have hm : (m : ℚ) + 1 ≤ 2 ^ 53 := by exact_mod_cast hc.lt
  -- the lower end is at least `4 · 2^52 - 1` quarters of the larger unit
  have hlow : (4 * 2 ^ 52 - 1 : ℚ) * 2 ^ (q' - 2) ≤ lower m' q' := by
    rw [lower]
    refine mul_le_mul_of_nonneg_right ?_ (by positivity)
    split
    · linarith
    · next hnarrow =>
      have hne : m' ≠ 2 ^ 52 := fun h => hnarrow ⟨h, lt_of_le_of_lt hc.least hq⟩
      have : (2 ^ 52 + 1 : ℚ) ≤ m' := by exact_mod_cast (show 2 ^ 52 + 1 ≤ m' by omega)
      linarith
  have hgap : (8 * 2 ^ 52 - 2 : ℚ) * 2 ^ (q - 2) ≤ (4 * 2 ^ 52 - 1) * 2 ^ (q' - 2) := by
    nlinarith
  rw [upper]
  refine ⟨?_, fun h => ?_⟩
  · have : (4 * m + 2 : ℚ) * 2 ^ (q - 2) ≤ (8 * 2 ^ 52 - 2) * 2 ^ (q - 2) :=
      mul_le_mul_of_nonneg_right (by linarith) hscale.le
    linarith
  · have hle : (8 * 2 ^ 52 - 2 : ℚ) ≤ 4 * m + 2 := by
      refine le_of_mul_le_mul_right ?_ hscale
      linarith
    have : (2 ^ 53 : ℚ) ≤ m + 1 := by linarith
    have : 2 ^ 53 ≤ m + 1 := by exact_mod_cast this
    have := hc.lt
    omega

/-- The interval of the smaller double ends before the interval of the larger one. -/
theorem not_roundsTo_of_lt {m m' : Nat} {q q' : Int} {x : ℚ} (hc : Canonical m q)
    (hc' : Canonical m' q') (h : q < q' ∨ q = q' ∧ m < m') (hx : RoundsTo m q x) :
    ¬RoundsTo m' q' x := by
  intro hx'
  obtain ⟨hle, hodd⟩ : upper m q ≤ lower m' q' ∧
      (upper m q = lower m' q' → m % 2 ≠ 0 ∨ m' % 2 ≠ 0) := by
    rcases h with hq | ⟨rfl, hm⟩
    · obtain ⟨hle, heq⟩ := upper_le_lower_of_exponent_lt hc hc' hq
      exact ⟨hle, fun h => .inl (by rw [heq h]; decide)⟩
    · obtain ⟨hle, heq⟩ := upper_le_lower_of_lt hc hm
      refine ⟨hle, fun h => ?_⟩
      have := heq h
      omega
  have hu := hx.le.2
  have hl := hx'.le.1
  have heven := hx.even_of_eq (.inr (by linarith))
  have heven' := hx'.even_of_eq (.inl (by linarith))
  rcases hodd (by linarith) with h | h
  · exact h heven
  · exact h heven'

/-- A rational rounds to one double at most. -/
theorem RoundsTo.unique {m m' : Nat} {q q' : Int} {x : ℚ} (hc : Canonical m q)
    (hc' : Canonical m' q') (hx : RoundsTo m q x) (hx' : RoundsTo m' q' x) :
    m = m' ∧ q = q' := by
  rcases lt_trichotomy q q' with hq | rfl | hq
  · exact absurd hx' (not_roundsTo_of_lt hc hc' (.inl hq) hx)
  · rcases lt_trichotomy m m' with hm | rfl | hm
    · exact absurd hx' (not_roundsTo_of_lt hc hc' (.inr ⟨rfl, hm⟩) hx)
    · exact ⟨rfl, rfl⟩
    · exact absurd hx (not_roundsTo_of_lt hc' hc (.inr ⟨rfl, hm⟩) hx')
  · exact absurd hx (not_roundsTo_of_lt hc' hc (.inl hq) hx')

end Binary64

namespace Decimal

open Binary64

/-! ## Decimal grids -/

theorem pow_toNat (b : ℚ) (hb : b ≠ 0) (z : ℤ) : b ^ z.toNat = b ^ z * b ^ (-z).toNat := by
  rw [← zpow_natCast, ← zpow_natCast, ← zpow_add₀ hb]
  congr 1
  omega

/-- The common denominator of quarters of `2^q` and of multiples of `10^k`. -/
def common (q k : ℤ) : ℚ := 2 ^ (2 - q).toNat * 10 ^ (-k).toNat

theorem common_pos (q k : ℤ) : 0 < common q k := by
  unfold common
  positivity

theorem cast_quarters (a : Nat) (q k : ℤ) :
    ((a * 2 ^ (q - 2).toNat * 10 ^ (-k).toNat : Nat) : ℚ) = a * 2 ^ (q - 2) * common q k := by
  push_cast
  rw [pow_toNat 2 (by norm_num) (q - 2), common, neg_sub]
  ring

theorem cast_multiple (n : Nat) (q k : ℤ) :
    ((n * (2 ^ (2 - q).toNat * 10 ^ k.toNat) : Nat) : ℚ) = n * 10 ^ k * common q k := by
  push_cast
  rw [pow_toNat 10 (by norm_num) k, common]
  ring

/-- Quarters of `2^q` against multiples of `10^k`, in natural arithmetic. -/
theorem quarters_le_iff (a n : Nat) (q k : ℤ) :
    a * 2 ^ (q - 2).toNat * 10 ^ (-k).toNat ≤ n * (2 ^ (2 - q).toNat * 10 ^ k.toNat) ↔
      (a : ℚ) * 2 ^ (q - 2) ≤ n * 10 ^ k := by
  rw [← Nat.cast_le (α := ℚ), cast_quarters, cast_multiple,
    mul_le_mul_iff_of_pos_right (common_pos q k)]

theorem le_quarters_iff (a n : Nat) (q k : ℤ) :
    n * (2 ^ (2 - q).toNat * 10 ^ k.toNat) ≤ a * 2 ^ (q - 2).toNat * 10 ^ (-k).toNat ↔
      (n : ℚ) * 10 ^ k ≤ a * 2 ^ (q - 2) := by
  rw [← Nat.cast_le (α := ℚ), cast_quarters, cast_multiple,
    mul_le_mul_iff_of_pos_right (common_pos q k)]

theorem quarters_lt_iff (a n : Nat) (q k : ℤ) :
    a * 2 ^ (q - 2).toNat * 10 ^ (-k).toNat < n * (2 ^ (2 - q).toNat * 10 ^ k.toNat) ↔
      (a : ℚ) * 2 ^ (q - 2) < n * 10 ^ k := by
  rw [← not_le, ← not_le, le_quarters_iff]

theorem lt_quarters_iff (a n : Nat) (q k : ℤ) :
    n * (2 ^ (2 - q).toNat * 10 ^ k.toNat) < a * 2 ^ (q - 2).toNat * 10 ^ (-k).toNat ↔
      (n : ℚ) * 10 ^ k < a * 2 ^ (q - 2) := by
  rw [← not_le, ← not_le, quarters_le_iff]

theorem covers_iff (t : Target) (n : Nat) :
    t.covers n = true ↔
      if t.closed = true then t.low ≤ n * t.denominator ∧ n * t.denominator ≤ t.high
      else t.low < n * t.denominator ∧ n * t.denominator < t.high := by
  rw [Target.covers]
  split <;> simp

/-- A point of a grid is covered just if it rounds to the double. -/
theorem covers_onGrid_iff {m : Nat} (hm : 0 < m) (q k : ℤ) (n : Nat) :
    ((target m q).onGrid k).covers n = true ↔ RoundsTo m q (n * 10 ^ k) := by
  have hlow : lower m q =
      (if m = 2 ^ 52 ∧ minExponent < q then 4 * m - 1 else 4 * m - 2 : Nat) * 2 ^ (q - 2) := by
    rw [lower]
    congr 1
    split
    · rw [Nat.cast_sub (by omega)]
      norm_num
    · rw [Nat.cast_sub (by omega)]
      norm_num
  have hhigh : upper m q = (4 * m + 2 : Nat) * 2 ^ (q - 2) := by
    rw [upper]
    push_cast
    rfl
  have hclosed : ((target m q).onGrid k).closed = true ↔ m % 2 = 0 := decide_eq_true_iff
  rw [RoundsTo, hlow, hhigh, covers_iff, ← quarters_le_iff, ← le_quarters_iff, ← quarters_lt_iff,
    ← lt_quarters_iff]
  simp only [hclosed]
  rfl

/-! ## The search for the shortest digits -/

theorem covers_of_nearest? {t : Target} {tie : Tie} {n : Nat} (h : t.nearest? tie = some n) :
    t.covers n = true := by
  rw [Target.nearest?] at h
  split_ifs at h <;> cases h <;> assumption

/-- If the point below the value is covered, there is a nearest one. -/
theorem nearest?_isSome {t : Target} (tie : Tie) (h : t.covers (t.value / t.denominator) = true) :
    (t.nearest? tie).isSome = true := by
  rw [Target.nearest?]
  split_ifs <;> simp_all

/-- On a grid no coarser than a quarter of the unit, the point below the double
    rounds to it. -/
theorem nearest?_onGrid_isSome {m : Nat} (hm : 0 < m) (tie : Tie) {q k : ℤ}
    (hk : (10 : ℚ) ^ k ≤ 2 ^ (q - 2)) :
    (((target m q).onGrid k).nearest? tie).isSome = true := by
  apply nearest?_isSome
  rw [covers_onGrid_iff hm]
  set t := (target m q).onGrid k with ht
  have hvalue : t.value = 4 * m * 2 ^ (q - 2).toNat * 10 ^ (-k).toNat := rfl
  have hden : t.denominator = 2 ^ (2 - q).toNat * 10 ^ k.toNat := rfl
  -- the double lies between the two neighbouring points of the grid
  have hbelow : (t.value / t.denominator : Nat) * (10 : ℚ) ^ k ≤ (4 * m : Nat) * 2 ^ (q - 2) := by
    rw [← le_quarters_iff, ← hvalue, ← hden]
    exact Nat.div_mul_le_self ..
  have habove : ((4 * m : Nat) : ℚ) * 2 ^ (q - 2) <
      (t.value / t.denominator + 1 : Nat) * (10 : ℚ) ^ k := by
    rw [← not_le, ← le_quarters_iff, ← hvalue, ← hden, not_le]
    exact Nat.lt_mul_of_div_lt (Nat.lt_succ_self _) (by rw [hden]; positivity)
  push_cast at hbelow habove
  have hscale : (0 : ℚ) < 2 ^ (q - 2) := by positivity
  have hm1 : (1 : ℚ) ≤ m := by exact_mod_cast hm
  have hlow : lower m q ≤ (4 * m - 1) * 2 ^ (q - 2) := by
    rw [lower]
    refine mul_le_mul_of_nonneg_right ?_ hscale.le
    split <;> linarith
  apply roundsTo_of_lt
  · refine lt_of_le_of_lt hlow ?_
    linarith
  · rw [upper]
    linarith

/-- The result of a search that meets the interval on one of its grids. -/
theorem covers_search {t : Target} {tie : Tie} {fuel : Nat} {k : ℤ}
    (h : ∃ j < fuel, ((t.onGrid (k - j)).nearest? tie).isSome = true) :
    (t.onGrid (search t tie fuel k).exponent).covers (search t tie fuel k).digits = true := by
  induction fuel generalizing k with
  | zero =>
    obtain ⟨j, hj, -⟩ := h
    exact absurd hj (Nat.not_lt_zero j)
  | succ fuel ih =>
    rw [search]
    split
    · next n hn => exact covers_of_nearest? hn
    · next hn =>
      obtain ⟨j, hj, hsome⟩ := h
      cases j with
      | zero =>
        rw [Nat.cast_zero, sub_zero, hn] at hsome
        cases hsome
      | succ j =>
        refine ih ⟨j, Nat.lt_of_succ_lt_succ hj, ?_⟩
        rwa [sub_sub, add_comm (1 : ℤ), ← Nat.cast_succ]

/-- Powers of ten and two compare as multiples of their exponents do, if those
    multiples of the bases do. -/
theorem ten_zpow_le_of_multiple {a b : ℤ} {j n : Nat} (hj : j ≠ 0)
    (h : ((10 : ℚ) ^ j) ^ a ≤ (2 ^ n) ^ a) (hab : n * a ≤ j * b) : (10 : ℚ) ^ a ≤ 2 ^ b := by
  refine le_of_pow_le_pow_left₀ hj (by positivity) ?_
  calc ((10 : ℚ) ^ a) ^ j = (10 ^ j) ^ a := by rw [← zpow_natCast, ← zpow_natCast, zpow_comm]
    _ ≤ (2 ^ n) ^ a := h
    _ = 2 ^ (n * a) := by rw [← zpow_natCast, ← zpow_mul]
    _ ≤ 2 ^ (j * b) := zpow_le_zpow_right₀ (by norm_num) hab
    _ = (2 ^ b) ^ j := by rw [mul_comm, zpow_mul, zpow_natCast]

/-- The last grid of the search is finer than a quarter of the unit. The exponents
    of ten in `ceiling` are `30103 / 100000` of those of two, and 59 to 196 is below
    the true ratio, 28 to 93 above it. -/
theorem ten_zpow_ceiling_le {m : Nat} {q : ℤ} (hc : Canonical m q) :
    (10 : ℚ) ^ (ceiling m q - 19) ≤ 2 ^ (q - 2) := by
  have hlog : (Nat.log2 m : ℤ) ≤ 52 := by
    have : Nat.log2 m < 53 := by
      rcases Nat.eq_zero_or_pos m with rfl | hm
      · decide
      · exact (Nat.log2_lt hm.ne').2 hc.lt
    omega
  have hleast := hc.least
  have hgreatest := hc.greatest
  unfold minExponent at hleast
  have hdiv := Int.mul_ediv_self_le
    (show (100000 : ℤ) ≠ 0 by decide) (x := (Nat.log2 m + q) * 30103)
  unfold ceiling
  rcases le_total 0 ((Nat.log2 m + q) * 30103 / 100000 + 2 - 19) with ha | ha
  · refine ten_zpow_le_of_multiple (j := 59) (n := 196) (by decide) ?_ (by push_cast; omega)
    exact zpow_le_zpow_left₀ ha (by positivity) (by norm_num)
  · refine ten_zpow_le_of_multiple (j := 28) (n := 93) (by decide) ?_ (by push_cast; omega)
    rw [← inv_le_inv₀ (by positivity) (by positivity), ← zpow_neg, ← zpow_neg]
    exact zpow_le_zpow_left₀ (by omega) (by positivity) (by norm_num)

/-- The shortest decimal of a double rounds to it. -/
theorem roundsTo_shortest (tie : Tie) {m : Nat} (hm : 0 < m) {q : ℤ} (hc : Canonical m q) :
    RoundsTo m q ((shortest tie m q).digits * 10 ^ (shortest tie m q).exponent) := by
  rw [← covers_onGrid_iff hm]
  refine covers_search ⟨19, by decide, nearest?_onGrid_isSome hm tie ?_⟩
  exact ten_zpow_ceiling_le hc

end Decimal

end RigExpr
