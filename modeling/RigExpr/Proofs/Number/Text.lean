import Mathlib.Data.List.TakeWhile
import RigExpr.Number.Text
import RigExpr.Proofs.Number.Interval

/-!
# The text of a number determines it

Two numbers with one text are one number (`Number.text_injective`); there is only
one value that is not a number. A text without sign and exponent stands for a
rational (`decimalValue`), which rounds to the number it is the text of.

* `Number.decimalValue_positional`: a decimal and its text stand for one rational.
* `Number.mem_text`: the characters of a text.
-/

namespace RigExpr.Number

/-! ## Decimals in positional notation -/

theorem digitsValue_eq (ds : List Char) : digitsValue ds = Nat.ofDigitChars 10 ds 0 := by
  rw [digitsValue, Nat.ofDigitChars_eq_foldl]

theorem digitsValue_toString (n : Nat) : digitsValue (toString n).toList = n := by
  rw [digitsValue_eq, Nat.toString_eq_repr, Nat.toList_repr, Nat.ofDigitChars_ten_toDigits]

theorem digitsValue_append_zeros (ds : List Char) (n : Nat) :
    digitsValue (ds ++ List.replicate n '0') = digitsValue ds * 10 ^ n := by
  induction n with
  | zero => simp
  | succ n ih =>
    rw [List.replicate_succ', ← List.append_assoc, digitsValue, List.foldl_append]
    show 10 * digitsValue (ds ++ List.replicate n '0') + 0 = _
    rw [ih]
    ring

theorem digitsValue_zeros_append (n : Nat) (ds : List Char) :
    digitsValue (List.replicate n '0' ++ ds) = digitsValue ds := by
  induction n with
  | zero => rfl
  | succ n ih => exact ih

/-- The rational that digits with a point among them stand for. -/
def decimalValue (cs : List Char) : ℚ :=
  let whole := cs.takeWhile (· ≠ '.')
  let fraction := (cs.dropWhile (· ≠ '.')).tail
  digitsValue (whole ++ fraction) / 10 ^ fraction.length

theorem isDigit_of_mem_toString {n : Nat} {c : Char} (h : c ∈ (toString n).toList) :
    c.isDigit = true := by
  rw [Nat.toString_eq_repr, Nat.toList_repr] at h
  exact Nat.isDigit_of_mem_toDigits (by decide) (by decide) h

theorem ne_point_of_isDigit {c : Char} (h : c.isDigit = true) : c ≠ '.' := by
  rintro rfl
  exact absurd h (by decide)

theorem decimalValue_of_digits {cs : List Char} (h : ∀ c ∈ cs, c ≠ '.') :
    decimalValue cs = digitsValue cs := by
  have htake : cs.takeWhile (· ≠ '.') = cs := List.takeWhile_eq_self_iff.2 (by simpa using h)
  have hdrop : cs.dropWhile (· ≠ '.') = [] := List.dropWhile_eq_nil_iff.2 (by simpa using h)
  simp only [decimalValue, htake, hdrop, List.tail_nil, List.append_nil, List.length_nil, pow_zero,
    div_one]

theorem decimalValue_append {whole fraction : List Char} (h : ∀ c ∈ whole, c ≠ '.') :
    decimalValue (whole ++ '.' :: fraction) =
      digitsValue (whole ++ fraction) / 10 ^ fraction.length := by
  have htake : (whole ++ '.' :: fraction).takeWhile (· ≠ '.') = whole := by
    rw [List.takeWhile_append_of_pos (by simpa using h)]
    simp
  have hdrop : (whole ++ '.' :: fraction).dropWhile (· ≠ '.') = '.' :: fraction := by
    rw [List.dropWhile_append_of_pos (by simpa using h)]
    simp
  simp only [decimalValue, htake, hdrop, List.tail_cons]

/-- The characters of a decimal: its digits with zeros after them, with a point among
    them, or after a point and zeros. -/
theorem positional_cases (d : Decimal) {ds : List Char} (hds : (toString d.digits).toList = ds) :
    (0 ≤ d.exponent ∧ (positional d).toList = ds ++ List.replicate d.exponent.toNat '0') ∨
    ∃ places : Nat, d.exponent = -places ∧
      (places < ds.length ∧ (positional d).toList =
          ds.take (ds.length - places) ++ '.' :: ds.drop (ds.length - places) ∨
        ds.length ≤ places ∧
          (positional d).toList =
            ['0'] ++ '.' :: (List.replicate (places - ds.length) '0' ++ ds)) := by
  unfold positional
  simp only [hds]
  split
  · next he => exact .inl ⟨he, by simp [zeros]⟩
  · next he =>
    refine .inr ⟨(-d.exponent).toNat, by omega, ?_⟩
    split
    · next hlt => exact .inl ⟨hlt, by simp⟩
    · next hge => exact .inr ⟨Nat.not_lt.1 hge, by simp [zeros]⟩

/-- A decimal and its text stand for one rational. -/
theorem decimalValue_positional (d : Decimal) :
    decimalValue (positional d).toList = d.digits * 10 ^ d.exponent := by
  have hdigit : ∀ c ∈ (toString d.digits).toList, c ≠ '.' :=
    fun c hc => ne_point_of_isDigit (isDigit_of_mem_toString hc)
  have hvalue := digitsValue_toString d.digits
  rcases positional_cases d rfl with ⟨he, h⟩ | ⟨places, he, ⟨hlt, h⟩ | ⟨hge, h⟩⟩
  · rw [h, decimalValue_of_digits, digitsValue_append_zeros, hvalue]
    · push_cast
      rw [← zpow_natCast, Int.toNat_of_nonneg he]
    · intro c hc
      rcases List.mem_append.1 hc with hc | hc
      · exact hdigit c hc
      · rw [List.eq_of_mem_replicate hc]
        decide
  · rw [h, decimalValue_append fun c hc => hdigit c (List.mem_of_mem_take hc),
      List.take_append_drop, hvalue, List.length_drop, he, zpow_neg, zpow_natCast, ← div_eq_mul_inv]
    congr 2
    omega
  · have hzeros (n : Nat) (ds : List Char) :
        ['0'] ++ (List.replicate n '0' ++ ds) = List.replicate (n + 1) '0' ++ ds := rfl
    rw [h, decimalValue_append (by simp), hzeros, digitsValue_zeros_append, hvalue,
      List.length_append, List.length_replicate, he, zpow_neg, zpow_natCast, ← div_eq_mul_inv]
    congr 2
    omega

/-- The digits of a decimal come first, or the zero before the point. -/
theorem exists_digit_positional (d : Decimal) :
    ∃ c cs, (positional d).toList = c :: cs ∧ c.isDigit = true := by
  obtain ⟨c, cs, hc⟩ : ∃ c cs, (toString d.digits).toList = c :: cs := by
    rw [Nat.toString_eq_repr, Nat.toList_repr]
    exact List.exists_cons_of_ne_nil Nat.toDigits_ne_nil
  have hdigit : c.isDigit = true := isDigit_of_mem_toString (by rw [hc]; exact List.mem_cons_self)
  rcases positional_cases d hc with ⟨-, h⟩ | ⟨places, -, ⟨hlt, h⟩ | ⟨-, h⟩⟩
  · exact ⟨c, _, h, hdigit⟩
  · obtain ⟨k, hk⟩ : ∃ k, (c :: cs).length - places = k + 1 :=
      ⟨(c :: cs).length - places - 1, by omega⟩
    rw [hk] at h
    exact ⟨c, _, h, hdigit⟩
  · exact ⟨'0', _, h, by decide⟩

theorem mem_positional {d : Decimal} {c : Char} (hc : c ∈ (positional d).toList) :
    c.isDigit = true ∨ c = '.' := by
  have hdigit {c : Char} (hc : c ∈ (toString d.digits).toList) : c.isDigit = true ∨ c = '.' :=
    .inl (isDigit_of_mem_toString hc)
  have hzero {n : Nat} {c : Char} (hc : c ∈ List.replicate n '0') : c.isDigit = true ∨ c = '.' := by
    rw [List.eq_of_mem_replicate hc]
    exact .inl (by decide)
  rcases positional_cases d rfl with ⟨-, h⟩ | ⟨places, -, ⟨-, h⟩ | ⟨-, h⟩⟩
  · rw [h, List.mem_append] at hc
    exact hc.elim hdigit hzero
  · rw [h, List.mem_append, List.mem_cons] at hc
    rcases hc with hc | rfl | hc
    · exact hdigit (List.mem_of_mem_take hc)
    · exact .inr rfl
    · exact hdigit (List.mem_of_mem_drop hc)
  · rw [h, List.singleton_append, List.mem_cons, List.mem_cons, List.mem_append] at hc
    rcases hc with rfl | rfl | hc | hc
    · exact .inl (by decide)
    · exact .inr rfl
    · exact hzero hc
    · exact hdigit hc

/-! ## Texts of numbers -/

/-- The text of a number without its sign: a word, or digits with a point among
    them. -/
inductive Unsigned : Binary64 → String → Prop
  | nan : Unsigned .nan "NaN"
  | infinite (negative : Bool) : Unsigned (.infinite negative) "inf"
  | zero (negative : Bool) (q : Int) : Unsigned (.finite negative 0 q) "0"
  | positive (negative : Bool) {m : Nat} (q : Int) (hm : 0 < m) :
      Unsigned (.finite negative m q) (positional (Decimal.shortest .up m q))

/-- The sign of a number that has one. -/
def isNegative : Binary64 → Bool
  | .nan => false
  | .infinite negative => negative
  | .finite negative _ _ => negative

theorem exists_unsigned (x : Float) :
    ∃ t, text x = signed (isNegative (Binary64.ofFloat x)) t ∧ Unsigned (Binary64.ofFloat x) t := by
  rw [text]
  cases h : Binary64.ofFloat x with
  | nan => exact ⟨_, rfl, .nan⟩
  | infinite negative => exact ⟨_, rfl, .infinite negative⟩
  | finite negative m q =>
    cases m with
    | zero => exact ⟨_, rfl, .zero negative q⟩
    | succ m => exact ⟨_, rfl, .positive negative q (Nat.succ_pos m)⟩

namespace Unsigned

/-- A text without sign starts with a digit, or it is a word. -/
theorem head {b : Binary64} {t : String} (h : Unsigned b t) :
    t = "NaN" ∨ t = "inf" ∨ ∃ c cs, t.toList = c :: cs ∧ c.isDigit = true := by
  cases h with
  | nan => exact .inl rfl
  | infinite => exact .inr (.inl rfl)
  | zero => exact .inr (.inr ⟨'0', [], rfl, by decide⟩)
  | positive => exact .inr (.inr (exists_digit_positional _))

theorem exists_cons {b : Binary64} {t : String} (h : Unsigned b t) :
    ∃ c cs, t.toList = c :: cs ∧ (c = 'N' ∨ c = 'i' ∨ c.isDigit = true) := by
  rcases h.head with rfl | rfl | ⟨c, cs, ht, hc⟩
  · exact ⟨'N', _, rfl, .inl rfl⟩
  · exact ⟨'i', _, rfl, .inr (.inl rfl)⟩
  · exact ⟨c, cs, ht, .inr (.inr hc)⟩

/-- A text without sign does not start with one. -/
theorem exists_cons_ne_minus {b : Binary64} {t : String} (h : Unsigned b t) :
    ∃ c cs, t.toList = c :: cs ∧ c ≠ '-' := by
  obtain ⟨c, cs, ht, hc⟩ := h.exists_cons
  refine ⟨c, cs, ht, ?_⟩
  rintro rfl
  exact absurd hc (by decide)

theorem mem {b : Binary64} {t : String} (h : Unsigned b t) {c : Char} (hc : c ∈ t.toList) :
    c.isAlphanum = true ∨ c = '.' := by
  cases h with
  | nan =>
    have hall : "NaN".toList.all Char.isAlphanum = true := by decide
    exact .inl (List.all_eq_true.1 hall c hc)
  | infinite =>
    have hall : "inf".toList.all Char.isAlphanum = true := by decide
    exact .inl (List.all_eq_true.1 hall c hc)
  | zero =>
    have hall : "0".toList.all Char.isAlphanum = true := by decide
    exact .inl (List.all_eq_true.1 hall c hc)
  | positive => exact (mem_positional hc).imp_left fun h => by simp [Char.isAlphanum, h]

/-- Digits are not a word. -/
theorem ne_of_isDigit {t word : String} {c w : Char} {cs ws : List Char} (ht : t.toList = c :: cs)
    (hc : c.isDigit = true) (hword : word.toList = w :: ws) (hw : w.isDigit = false) :
    t ≠ word := by
  rintro rfl
  rw [ht] at hword
  obtain ⟨rfl, -⟩ := List.cons.inj hword
  exact absurd hc (by rw [hw]; decide)

theorem eq_nan {b : Binary64} {t : String} (h : Unsigned b t) (ht : t = "NaN") : b = .nan := by
  cases h with
  | nan => rfl
  | infinite => exact absurd ht (by decide)
  | zero => exact absurd ht (by decide)
  | positive =>
    obtain ⟨c, cs, hcs, hc⟩ := exists_digit_positional _
    exact absurd ht (ne_of_isDigit hcs hc rfl (by decide))

theorem eq_infinite {b : Binary64} {t : String} (h : Unsigned b t) (ht : t = "inf") :
    b = .infinite (isNegative b) := by
  cases h with
  | nan => exact absurd ht (by decide)
  | infinite => rfl
  | zero => exact absurd ht (by decide)
  | positive =>
    obtain ⟨c, cs, hcs, hc⟩ := exists_digit_positional _
    exact absurd ht (ne_of_isDigit hcs hc rfl (by decide))

theorem exists_finite {b : Binary64} {t : String} (h : Unsigned b t) (hnan : t ≠ "NaN")
    (hinf : t ≠ "inf") : ∃ negative m q, b = .finite negative m q := by
  cases h with
  | nan => exact absurd rfl hnan
  | infinite => exact absurd rfl hinf
  | zero negative q => exact ⟨negative, 0, q, rfl⟩
  | positive negative q => exact ⟨negative, _, q, rfl⟩

/-- Without its sign, the text of a finite number stands for a rational that rounds
    to it. -/
theorem roundsTo {negative : Bool} {m : Nat} {q : Int} {t : String}
    (h : Unsigned (.finite negative m q) t) (hc : Binary64.Canonical m q) :
    m = 0 ∧ decimalValue t.toList = 0 ∨ 0 < m ∧ Binary64.RoundsTo m q (decimalValue t.toList) := by
  cases h with
  | zero =>
    refine .inl ⟨rfl, ?_⟩
    rw [decimalValue_of_digits (by simp)]
    exact congrArg Nat.cast (show digitsValue ['0'] = 0 by decide)
  | positive _ _ hm =>
    refine .inr ⟨hm, ?_⟩
    rw [decimalValue_positional]
    exact Decimal.roundsTo_shortest .up hm hc

end Unsigned

theorem signed_injective {negative negative' : Bool} {b b' : Binary64} {t t' : String}
    (ht : Unsigned b t) (ht' : Unsigned b' t') (h : signed negative t = signed negative' t') :
    negative = negative' ∧ t = t' := by
  obtain ⟨c, cs, hc, hne⟩ := ht.exists_cons_ne_minus
  obtain ⟨c', cs', hc', hne'⟩ := ht'.exists_cons_ne_minus
  have hlist := congrArg String.toList h
  cases negative <;> cases negative'
  · exact ⟨rfl, h⟩
  · have : c :: cs = '-' :: t'.toList := by simpa [signed, hc] using hlist
    exact absurd (List.cons.inj this).1 hne
  · have : '-' :: t.toList = c' :: cs' := by simpa [signed, hc'] using hlist
    exact absurd (List.cons.inj this).1.symm hne'
  · have : t.toList = t'.toList := by simpa [signed] using hlist
    exact ⟨rfl, String.toList_injective this⟩

/-- The rationals that round to a positive double are positive. -/
theorem not_roundsTo_zero {m : Nat} (hm : 0 < m) (q : Int) : ¬Binary64.RoundsTo m q 0 := by
  intro h
  have hscale : (0 : ℚ) < 2 ^ (q - 2) := by positivity
  have hm1 : (1 : ℚ) ≤ m := by exact_mod_cast hm
  have hpos : 0 < Binary64.lower m q := by
    rw [Binary64.lower]
    refine mul_pos ?_ hscale
    split <;> linarith
  exact absurd h.le.1 (not_le.2 hpos)

/-- Finite numbers with one text but for the sign have one significand and one
    exponent. -/
theorem Unsigned.finite_injective {negative negative' : Bool} {m m' : Nat} {q q' : Int} {t : String}
    (hc : Binary64.Canonical m q) (hc' : Binary64.Canonical m' q')
    (h : Unsigned (.finite negative m q) t) (h' : Unsigned (.finite negative' m' q') t) :
    m = m' ∧ q = q' := by
  rcases h.roundsTo hc with ⟨hm, hv⟩ | ⟨hm, hr⟩ <;>
    rcases h'.roundsTo hc' with ⟨hm', hv'⟩ | ⟨hm', hr'⟩
  · -- a zero has the least exponent
    have hq : q = Binary64.minExponent := by
      have := hc.normal
      have := hc.least
      omega
    have hq' : q' = Binary64.minExponent := by
      have := hc'.normal
      have := hc'.least
      omega
    exact ⟨hm.trans hm'.symm, hq.trans hq'.symm⟩
  · exact absurd (hv ▸ hr') (not_roundsTo_zero hm' q')
  · exact absurd (hv' ▸ hr) (not_roundsTo_zero hm q)
  · exact hr.unique hc hc' hr'

/-- Two numbers with one text are one number. -/
theorem text_injective {x y : Float} (h : text x = text y) : x = y := by
  obtain ⟨t, htext, ht⟩ := exists_unsigned x
  obtain ⟨t', htext', ht'⟩ := exists_unsigned y
  rw [htext, htext'] at h
  obtain ⟨hsign, rfl⟩ := signed_injective ht ht' h
  apply Binary64.ofFloat_injective
  by_cases hnan : t = "NaN"
  · rw [ht.eq_nan hnan, ht'.eq_nan hnan]
  by_cases hinf : t = "inf"
  · rw [ht.eq_infinite hinf, ht'.eq_infinite hinf, hsign]
  -- what is left is finite
  obtain ⟨negative, m, q, hx⟩ := ht.exists_finite hnan hinf
  obtain ⟨negative', m', q', hy⟩ := ht'.exists_finite hnan hinf
  rw [hx] at ht hsign ⊢
  rw [hy] at ht' hsign ⊢
  obtain ⟨rfl, rfl⟩ := ht.finite_injective (Binary64.canonical_of_ofFloat hx)
    (Binary64.canonical_of_ofFloat hy) ht'
  exact congrArg (Binary64.finite · m q) hsign

/-- The characters of the text of a number. -/
theorem mem_text {x : Float} {c : Char} (h : c ∈ (text x).toList) :
    c.isAlphanum = true ∨ c = '.' ∨ c = '-' := by
  obtain ⟨t, htext, ht⟩ := exists_unsigned x
  rw [htext, signed] at h
  split at h
  · rcases List.mem_cons.1 (show c ∈ '-' :: t.toList by simpa using h) with rfl | h
    · exact .inr (.inr rfl)
    · exact (ht.mem h).imp_right .inl
  · exact (ht.mem h).imp_right .inl

/-- The first character of the text of a number. -/
theorem exists_cons_text (x : Float) :
    ∃ c cs, (text x).toList = c :: cs ∧
      (c = '-' ∨ c = 'N' ∨ c = 'i' ∨ c.isDigit = true) := by
  obtain ⟨t, htext, ht⟩ := exists_unsigned x
  rw [htext, signed]
  split
  · exact ⟨'-', t.toList, by simp, .inl rfl⟩
  · obtain ⟨c, cs, hc, h⟩ := ht.exists_cons
    exact ⟨c, cs, hc, .inr h⟩

/-- The codes of letters. -/
theorem isAlpha_iff {c : Char} : c.isAlpha = true ↔
    65 ≤ c.toNat ∧ c.toNat ≤ 90 ∨ 97 ≤ c.toNat ∧ c.toNat ≤ 122 := by
  delta Char.isAlpha Char.isUpper Char.isLower
  simp [UInt32.le_iff_toNat_le]

theorem isDigit_eq_false_of_isAlpha {c : Char} (h : c.isAlpha = true) : c.isDigit = false := by
  rw [Bool.eq_false_iff]
  intro hdigit
  rw [isAlpha_iff] at h
  simp [Char.isDigit, UInt32.le_iff_toNat_le] at hdigit
  omega

/-- A number that is written with letters is not finite. -/
theorem text_eq_of_isAlpha {x : Float} {c : Char} {cs : List Char} (h : (text x).toList = c :: cs)
    (hc : c.isAlpha = true) : text x = "NaN" ∨ text x = "inf" := by
  obtain ⟨t, htext, ht⟩ := exists_unsigned x
  rw [htext, signed] at h ⊢
  split at h
  · obtain ⟨rfl, -⟩ := List.cons.inj (show '-' :: t.toList = c :: cs by simpa using h)
    exact absurd hc (by decide)
  · next hsign =>
    rw [if_neg hsign]
    rcases ht.head with hnan | hinf | ⟨d, ds, hd, hdigit⟩
    · exact .inl hnan
    · exact .inr hinf
    · obtain ⟨rfl, -⟩ := List.cons.inj (hd.symm.trans h)
      rw [isDigit_eq_false_of_isAlpha hc] at hdigit
      cases hdigit

end RigExpr.Number
