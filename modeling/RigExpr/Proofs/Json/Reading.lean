import Mathlib.Data.List.TakeWhile
import RigExpr.Json.Reader
import RigExpr.Proofs.Number.Text

/-!
# Reading what is written

A value that is written over many lines is read back as it is (`Json.read?_pretty`), if its
numerals are proper ones and all its strings denote a text. Each reader takes what is written
off the front of the text and leaves what comes after it, as long as that does not go on with a
numeral (`Json.Ends`).

* `Json.readString_quote`: strings,
* `Json.readUnsigned_text`: numerals,
* `Json.spells_pretty`: values of all depths.
-/

namespace RigExpr

namespace Json

/-! ## Blanks -/

theorem skip_append {blanks : List Char} (h : ∀ c ∈ blanks, isBlank c = true) (cs : List Char) :
    skip (blanks ++ cs) = skip cs :=
  List.dropWhile_append_of_pos h

theorem skip_cons {c : Char} (h : isBlank c = false) (cs : List Char) :
    skip (c :: cs) = c :: cs := by
  rw [skip, List.dropWhile_cons_of_neg (by rw [h]; exact Bool.false_ne_true)]

theorem skip_skip (cs : List Char) : skip (skip cs) = skip cs := by
  induction cs with
  | nil => rfl
  | cons c cs ih =>
    cases h : isBlank c with
    | true =>
      have hcons : skip (c :: cs) = skip cs := List.dropWhile_cons_of_pos h
      rw [hcons, ih]
    | false => rw [skip_cons h, skip_cons h]

theorem isBlank_newline (level : Nat) : ∀ c ∈ (newline level).toList, isBlank c = true := by
  intro c h
  simp only [newline, String.toList_append, List.mem_append, String.toList_ofList] at h
  rcases h with h | h
  · rw [List.mem_singleton.1 h]
    decide
  · rw [List.eq_of_mem_replicate h]
    decide

/-! ## Strings -/

/-- The characters of a string between its quotes. -/
def escaped (cs : List Char) : List Char := cs.flatMap fun c => (escape c).toList

theorem toList_quote (s : String) :
    (quote s).toList = '\x22' :: (escaped s.toList ++ ['\x22']) := by
  simp [quote, escaped, String.toList_join, List.flatMap_map]

/-- What the piece of this character adds to a text. -/
def Piece.Denotes (p : Piece) (c : Char) : Prop :=
  ∀ more, joinPieces (p :: more) = (joinPieces more).map (c :: ·)

theorem Piece.denotes_char (c : Char) : (Piece.char c).Denotes c := fun _ => rfl

/-- A code before the surrogates stands for itself, whatever comes after it. -/
theorem Piece.denotes_code {n : Nat} (h : n < 0xd800) : (Piece.code n).Denotes (Char.ofNat n) := by
  intro more
  rcases more with _ | ⟨_ | low, more⟩
  · rw [joinPieces.eq_4 _ _ (by rintro _ _ ⟨⟩), if_neg (by omega)]
  · rw [joinPieces.eq_4 _ _ (by rintro _ _ ⟨⟩), if_neg (by omega)]
  · rw [joinPieces, if_neg (by omega), if_neg (by omega)]

theorem hexCode?_control {n : Nat} (h : n < 0x20) :
    (match List.replicate (4 - (Nat.toDigits 16 n).length) '0' ++ Nat.toDigits 16 n with
      | [a, b, c, d] => hexCode? a b c d
      | _ => none) = some n := by
  revert n
  decide

/-- A character is read as one piece, which denotes it. -/
theorem readPieces_escape (c : Char) (rest : List Char) : ∃ p : Piece, p.Denotes c ∧
    readPieces ((escape c).toList ++ rest) =
      (readPieces rest).map fun r => (p :: r.1, r.2) := by
  have hshort {x : Char} (hx : x ≠ 'u') (hc : shortEscape? x = some c) :
      ∃ p : Piece, p.Denotes c ∧ readPieces ('\\' :: x :: rest) =
        (readPieces rest).map fun r => (p :: r.1, r.2) := by
    refine ⟨.char c, Piece.denotes_char c, ?_⟩
    rw [readPieces.eq_3 _ _ fun _ _ _ _ _ hu => absurd hu hx, hc]
    cases readPieces rest <;> rfl
  rw [escape.eq_def]
  -- seven characters have an escape of one letter
  iterate 7
    split
    · next h => exact hshort (by decide) (by rw [h]; rfl)
  split
  · next hcontrol =>
    refine ⟨.code c.toNat, ?_, ?_⟩
    · have h := Piece.denotes_code (n := c.toNat) (by omega)
      rwa [Char.ofNat_toNat] at h
    · have h := hexCode?_control hcontrol
      split at h
      · next digits a b c' d hdigits =>
        simp only [String.toList_append, String.toList_ofList, hdigits]
        show readPieces ('\\' :: 'u' :: a :: b :: c' :: d :: rest) = _
        rw [readPieces, h]
        cases readPieces rest <;> rfl
      · cases h
  · next hquote hslash _ _ _ _ _ hcontrol =>
    refine ⟨.char c, Piece.denotes_char c, ?_⟩
    rw [String.toList_singleton, List.singleton_append,
      readPieces.eq_4 _ _ (fun _ _ _ _ _ h => absurd h hslash) fun _ _ h => absurd h hslash,
      if_neg hquote, if_neg (not_or.2 ⟨hcontrol, hslash⟩)]
    cases readPieces rest <;> rfl

theorem readPieces_escaped (cs rest : List Char) : ∃ pieces,
    readPieces (escaped cs ++ '\x22' :: rest) = some (pieces, rest) ∧
      joinPieces pieces = some cs := by
  induction cs with
  | nil =>
    refine ⟨[], ?_, rfl⟩
    show readPieces ('\x22' :: rest) = _
    rw [readPieces.eq_4 _ _ (by rintro _ _ _ _ _ ⟨⟩) (by rintro _ _ ⟨⟩), if_pos rfl]
  | cons c cs ih =>
    obtain ⟨pieces, hread, hjoin⟩ := ih
    obtain ⟨p, hp, hescape⟩ := readPieces_escape c (escaped cs ++ '\x22' :: rest)
    refine ⟨p :: pieces, ?_, by rw [hp, hjoin, Option.map_some]⟩
    rw [escaped, List.flatMap_cons, List.append_assoc, ← escaped, hescape, hread, Option.map_some]

/-- A string is read up to its closing quote. -/
theorem readString_quote (s : String) (rest : List Char) :
    readString (escaped s.toList ++ '\x22' :: rest) = some (.string s, rest) := by
  obtain ⟨pieces, hread, hjoin⟩ := readPieces_escaped s.toList rest
  rw [readString, hread]
  simp only [Option.bind_eq_bind, Option.bind_some, hjoin, String.ofList_toList]
  rfl

end Json

/-! ## Numerals -/

/-- A numeral of JSON: digits before the point, without zeros in front. -/
structure Numeral.IsProper (n : Numeral) : Prop where
  whole_ne_nil : n.whole ≠ []
  isDigit_whole : ∀ c ∈ n.whole, c.isDigit = true
  head_whole : n.whole.length > 1 → n.whole.head? ≠ some '0'
  isDigit_fraction : ∀ c ∈ n.fraction, c.isDigit = true

namespace Json

/-- What comes after a value: it does not go on with a numeral. -/
def Ends (rest : List Char) : Prop :=
  ∀ c ∈ rest.head?, c.isDigit = false ∧ c ≠ '.' ∧ c ≠ 'e' ∧ c ≠ 'E'

theorem readDigits_append {ds rest : List Char} (hne : ds ≠ []) (hds : ∀ c ∈ ds, c.isDigit = true)
    (hrest : ∀ c ∈ rest.head?, c.isDigit = false) : readDigits (ds ++ rest) = some (ds, rest) := by
  have htake : rest.takeWhile Char.isDigit = [] := by
    cases rest with
    | nil => rfl
    | cons c rest => simp [hrest c rfl]
  have hdrop : rest.dropWhile Char.isDigit = rest := by
    cases rest with
    | nil => rfl
    | cons c rest => simp [hrest c rfl]
  rw [readDigits, List.takeWhile_append_of_pos hds, List.dropWhile_append_of_pos hds, htake, hdrop,
    List.append_nil]
  simp [hne]

/-- The point of a numeral and the digits after it. -/
def point (fraction : List Char) : List Char :=
  if fraction.isEmpty then [] else '.' :: fraction

/-- The exponent of a numeral. -/
def power : Option Int → List Char
  | some k => (Numeral.exponentText k).toList
  | none => []

theorem toList_text (n : Numeral) : n.text.toList =
    (if n.negative then ['-'] else []) ++ (n.whole ++ (point n.fraction ++ power n.exponent)) := by
  obtain ⟨negative, whole, fraction, exponent⟩ := n
  cases negative <;> cases exponent <;> cases fraction <;>
    simp [Numeral.text, Number.signed, point, power]

theorem readFraction_point {fraction rest : List Char}
    (hfraction : ∀ c ∈ fraction, c.isDigit = true)
    (hrest : ∀ c ∈ rest.head?, c.isDigit = false ∧ c ≠ '.') :
    readFraction (point fraction ++ rest) = some (fraction, rest) := by
  by_cases hempty : fraction = []
  · subst hempty
    cases rest with
    | nil => rfl
    | cons c rest => exact readFraction.eq_2 _ fun _ h => (hrest c rfl).2 (List.cons.inj h).1
  · rw [point, if_neg (mt List.isEmpty_iff.1 hempty), List.cons_append, readFraction]
    exact readDigits_append hempty hfraction fun c hc => (hrest c hc).1

theorem readExponent_power (exponent : Option Int) {rest : List Char} (hrest : Ends rest) :
    readExponent (power exponent ++ rest) = some (exponent, rest) := by
  cases exponent with
  | none =>
    cases rest with
    | nil => rfl
    | cons c rest =>
      obtain ⟨-, -, hlower, hupper⟩ := hrest c rfl
      rw [power, List.nil_append, readExponent, if_neg (not_or.2 ⟨hlower, hupper⟩)]
  | some k =>
    have hdigits : readDigits ((toString k.natAbs).toList ++ rest) =
        some ((toString k.natAbs).toList, rest) :=
      readDigits_append (by simp) (fun c hc => Number.isDigit_of_mem_toString hc)
        fun c hc => (hrest c hc).1
    have hread {minus : Bool} {cs : List Char}
        (hcs : readSign cs = (minus, (toString k.natAbs).toList ++ rest)) :
        readExponent ('e' :: cs) =
          some (some (if minus then -(k.natAbs : Int) else k.natAbs), rest) := by
      rw [readExponent, if_pos (.inl rfl), hcs]
      simp only [hdigits, Number.digitsValue_toString, Option.bind_eq_bind, Option.bind_some]
      rfl
    by_cases hk : 0 ≤ k
    · have htext : power (some k) ++ rest = 'e' :: '+' :: ((toString k.natAbs).toList ++ rest) := by
        simp [power, Numeral.exponentText, hk]
      rw [htext, hread rfl, if_neg Bool.false_ne_true, Int.natAbs_of_nonneg hk]
    · have htext : power (some k) ++ rest = 'e' :: '-' :: ((toString k.natAbs).toList ++ rest) := by
        simp [power, Numeral.exponentText, hk]
      rw [htext, hread rfl, if_pos rfl, Int.ofNat_natAbs_of_nonpos (by omega), neg_neg]

/-- A numeral is read as it is, its sign apart. -/
theorem readUnsigned_text {n : Numeral} (hn : n.IsProper) {rest : List Char} (hrest : Ends rest) :
    readUnsigned n.negative (n.whole ++ (point n.fraction ++ (power n.exponent ++ rest))) =
      some (.number n, rest) := by
  have hpower : ∀ c ∈ (power n.exponent ++ rest).head?, c.isDigit = false ∧ c ≠ '.' := by
    cases n.exponent with
    | none => exact fun c hc => ⟨(hrest c hc).1, (hrest c hc).2.1⟩
    | some k =>
      have hhead : (power (some k) ++ rest).head? = some 'e' := by
        by_cases hk : 0 ≤ k <;> simp [power, Numeral.exponentText, hk]
      rw [hhead]
      rintro c ⟨⟩
      decide
  have hpoint : ∀ c ∈ (point n.fraction ++ (power n.exponent ++ rest)).head?,
      c.isDigit = false := by
    rw [point]
    split
    · exact fun c hc => (hpower c hc).1
    · rintro c ⟨⟩
      decide
  rw [readUnsigned, readDigits_append hn.whole_ne_nil hn.isDigit_whole hpoint]
  have hhead : ¬(n.whole.length > 1 ∧ n.whole.head? = some '0') := fun h => hn.head_whole h.1 h.2
  simp only [Option.bind_eq_bind, Option.bind_some, if_neg hhead,
    readFraction_point hn.isDigit_fraction hpower, readExponent_power n.exponent hrest]
  rfl

/-! ## Values -/

/-- A value whose numerals are proper ones and whose strings denote a text. -/
inductive IsProper : Json → Prop
  | null : IsProper null
  | bool (b : Bool) : IsProper (bool b)
  | number {n : Numeral} (h : n.IsProper) : IsProper (number n)
  | string (s : String) : IsProper (string s)
  | array {items : List Json} (h : ∀ j ∈ items, IsProper j) : IsProper (array items)
  | object {members : List (String × Json)} (h : ∀ m ∈ members, IsProper m.2) :
      IsProper (object members)

/-- The characters are read as this value, wherever they stand. -/
structure Spells (cs : List Char) (j : Json) : Prop where
  /-- They are not taken for blanks, nor for the end of an array. -/
  head : ∃ c tail, cs = c :: tail ∧ isBlank c = false ∧ c ≠ ']'
  read : ∀ (fuel : Nat) (rest : List Char), 2 * cs.length ≤ fuel → Ends rest →
    readValue fuel (cs ++ rest) = some (j, rest)

/-- It is enough to read on from the first character, with one call less. -/
theorem spells_cons {c : Char} {cs : List Char} {j : Json} (hc : isBlank c = false ∧ c ≠ ']')
    (hread : ∀ (fuel : Nat) (rest : List Char), 2 * cs.length < fuel → Ends rest →
      readValue (fuel + 1) (c :: (cs ++ rest)) = some (j, rest)) : Spells (c :: cs) j := by
  refine ⟨⟨c, cs, rfl, hc⟩, fun fuel rest hfuel hrest => ?_⟩
  rw [List.length_cons] at hfuel
  obtain ⟨fuel, rfl⟩ := Nat.exists_eq_succ_of_ne_zero (n := fuel) (by omega)
  exact hread fuel rest (by omega) hrest

theorem ends_cons {c : Char} (h : c.isDigit = false ∧ c ≠ '.' ∧ c ≠ 'e' ∧ c ≠ 'E')
    (rest : List Char) : Ends (c :: rest) := by
  rintro _ ⟨⟩
  exact h

theorem ends_append {blanks rest : List Char} (h : ∀ c ∈ blanks, isBlank c = true)
    (hrest : Ends rest) : Ends (blanks ++ rest) := by
  cases blanks with
  | nil => exact hrest
  | cons c blanks =>
    refine ends_cons ?_ _
    have hc := h c List.mem_cons_self
    simp only [isBlank, Bool.or_eq_true, decide_eq_true_eq] at hc
    rcases hc with ((rfl | rfl) | rfl) | rfl <;> decide

theorem readValue_append {blanks : List Char} (h : ∀ c ∈ blanks, isBlank c = true) (fuel : Nat)
    (cs : List Char) : readValue fuel (blanks ++ cs) = readValue fuel cs := by
  cases fuel with
  | zero => rfl
  | succ fuel => rw [readValue, readValue, skip_append h]

theorem readValue_skip (fuel : Nat) (cs : List Char) :
    readValue fuel (skip cs) = readValue fuel cs := by
  cases fuel with
  | zero => rfl
  | succ fuel => rw [readValue, readValue, skip_skip]

theorem readItems_skip (fuel : Nat) (cs : List Char) :
    readItems fuel (skip cs) = readItems fuel cs := by
  cases fuel with
  | zero => rfl
  | succ fuel => rw [readItems, readItems, readValue_skip]

theorem readMembers_skip (fuel : Nat) (cs : List Char) :
    readMembers fuel (skip cs) = readMembers fuel cs := by
  cases fuel with
  | zero => rfl
  | succ fuel => rw [readMembers, readMembers, skip_skip]

theorem toList_commas_singleton (s : String) : (commas [s]).toList = s.toList := by
  simp [commas]

theorem toList_commas_cons (s t : String) (more : List String) :
    (commas (s :: t :: more)).toList = s.toList ++ ',' :: (commas (t :: more)).toList := by
  simp [commas, String.toList_intercalate]

theorem exists_toList_commas (s : String) (more : List String) :
    ∃ tail, (commas (s :: more)).toList = s.toList ++ tail := by
  cases more with
  | nil => exact ⟨[], by rw [toList_commas_singleton, List.append_nil]⟩
  | cons t more => exact ⟨_, toList_commas_cons s t more⟩

/-! ### Numbers and strings -/

theorem not_isBlank_of_isDigit {c : Char} (hc : c.isDigit = true) : isBlank c = false := by
  rw [← Bool.not_eq_true]
  intro hblank
  simp only [isBlank, Bool.or_eq_true, decide_eq_true_eq] at hblank
  rcases hblank with ((rfl | rfl) | rfl) | rfl <;> exact absurd hc (by decide)

theorem readValue_of_isDigit {c : Char} (hc : c.isDigit = true) (fuel : Nat) (cs : List Char) :
    readValue (fuel + 1) (c :: cs) = readUnsigned false (c :: cs) := by
  rw [readValue, skip_cons (not_isBlank_of_isDigit hc)]
  split
  -- no other value starts with a digit
  all_goals first
    | rfl
    | next h =>
      rw [(List.cons.inj h).1] at hc
      exact absurd hc (by decide)

theorem spells_number {n : Numeral} (hn : n.IsProper) : Spells n.text.toList (number n) := by
  have hread (rest : List Char) (hrest : Ends rest) := readUnsigned_text hn hrest
  rw [toList_text]
  cases hsign : n.negative with
  | true =>
    rw [if_pos rfl, List.singleton_append]
    refine spells_cons (by decide) fun fuel rest _ hrest => ?_
    rw [readValue, skip_cons (by decide)]
    simpa only [List.append_assoc, hsign] using hread rest hrest
  | false =>
    obtain ⟨c, whole, hwhole⟩ := List.exists_cons_of_ne_nil hn.whole_ne_nil
    have hc : c.isDigit = true := hn.isDigit_whole c (by rw [hwhole]; exact List.mem_cons_self)
    have hbracket : c ≠ ']' := by
      rintro rfl
      exact absurd hc (by decide)
    rw [if_neg Bool.false_ne_true, List.nil_append, hwhole, List.cons_append]
    refine spells_cons ⟨not_isBlank_of_isDigit hc, hbracket⟩ fun fuel rest _ hrest => ?_
    rw [readValue_of_isDigit hc]
    simpa only [List.append_assoc, List.cons_append, hsign, hwhole] using hread rest hrest

theorem spells_string (s : String) : Spells (quote s).toList (string s) := by
  rw [toList_quote]
  refine spells_cons (by decide) fun fuel rest _ _ => ?_
  rw [List.append_assoc, readValue, skip_cons (by decide)]
  exact readString_quote s rest

/-! ### Arrays and objects -/

theorem toList_prettyItems_singleton (level : Nat) (j : Json) :
    (commas (prettyItems level [j])).toList =
      (newline level).toList ++ (pretty level j).toList := by
  rw [prettyItems, prettyItems, toList_commas_singleton, String.toList_append]

theorem toList_prettyItems_cons (level : Nat) (j j' : Json) (items : List Json) :
    (commas (prettyItems level (j :: j' :: items))).toList = (newline level).toList ++
      ((pretty level j).toList ++ ',' :: (commas (prettyItems level (j' :: items))).toList) := by
  rw [prettyItems, prettyItems, toList_commas_cons, String.toList_append, List.append_assoc]

/-- Items are read up to the closing bracket. -/
theorem readItems_pretty {level : Nat} {items : List Json} (hne : items ≠ [])
    (h : ∀ j ∈ items, Spells (pretty level j).toList j) {blanks : List Char}
    (hblanks : ∀ c ∈ blanks, isBlank c = true) (fuel : Nat)
    (hfuel : 2 * (commas (prettyItems level items)).toList.length < fuel) (rest : List Char) :
    readItems fuel ((commas (prettyItems level items)).toList ++ (blanks ++ ']' :: rest)) =
      some (items, rest) := by
  induction items generalizing fuel with
  | nil => exact absurd rfl hne
  | cons j items ih =>
    obtain ⟨hj, hitems⟩ := List.forall_mem_cons.1 h
    obtain ⟨fuel, rfl⟩ := Nat.exists_eq_succ_of_ne_zero (n := fuel) (by omega)
    cases items with
    | nil =>
      rw [toList_prettyItems_singleton] at hfuel ⊢
      rw [List.length_append] at hfuel
      rw [readItems, List.append_assoc, readValue_append (isBlank_newline level),
        hj.read _ _ (by omega) (ends_append hblanks (ends_cons (by decide) rest))]
      simp only [Option.bind_eq_bind, Option.bind_some]
      rw [skip_append hblanks, skip_cons (by decide)]
      rfl
    | cons j' items =>
      rw [toList_prettyItems_cons] at hfuel ⊢
      rw [List.length_append, List.length_append, List.length_cons] at hfuel
      rw [readItems, List.append_assoc, readValue_append (isBlank_newline level),
        List.append_assoc, List.cons_append, hj.read _ _ (by omega) (ends_cons (by decide) _)]
      simp only [Option.bind_eq_bind, Option.bind_some]
      rw [skip_cons (by decide)]
      simp only [ih (List.cons_ne_nil _ _) hitems fuel (by omega), Option.bind_some]
      rfl

/-- The first item is not taken for the end of the array. -/
theorem exists_skip_prettyItems {level : Nat} {items : List Json} (hne : items ≠ [])
    (h : ∀ j ∈ items, Spells (pretty level j).toList j) (rest : List Char) : ∃ c tail,
    skip ((commas (prettyItems level items)).toList ++ rest) = c :: tail ∧ c ≠ ']' := by
  obtain ⟨j, items, rfl⟩ := List.exists_cons_of_ne_nil hne
  obtain ⟨c, tail, hcs, hblank, hc⟩ := (h j List.mem_cons_self).head
  obtain ⟨more, hmore⟩ :=
    exists_toList_commas (newline level ++ pretty level j) (prettyItems level items)
  refine ⟨c, tail ++ (more ++ rest), ?_, hc⟩
  rw [prettyItems, hmore, String.toList_append, List.append_assoc, List.append_assoc,
    skip_append (isBlank_newline level), hcs, List.cons_append, skip_cons hblank]

theorem spells_array {level : Nat} {items : List Json}
    (h : ∀ j ∈ items, Spells (pretty (level + 1) j).toList j) :
    Spells (pretty level (array items)).toList (array items) := by
  by_cases hempty : items = []
  · have htext : (pretty level (array items)).toList = ['[', ']'] := by
      rw [hempty, pretty, List.isEmpty_nil, if_pos rfl]
      decide
    rw [htext, hempty]
    exact spells_cons (by decide) fun _ _ _ _ => rfl
  · have htext : (pretty level (array items)).toList = '[' ::
        ((commas (prettyItems (level + 1) items)).toList ++ ((newline level).toList ++ [']'])) := by
      rw [pretty, if_neg (mt List.isEmpty_iff.1 hempty)]
      simp
    rw [htext]
    refine spells_cons (by decide) fun fuel rest hfuel _ => ?_
    rw [List.length_append] at hfuel
    have hread := readItems_pretty hempty h (isBlank_newline level) fuel (by omega) rest
    obtain ⟨c, tail, hskip, hc⟩ := exists_skip_prettyItems hempty h
      ((newline level).toList ++ ']' :: rest)
    rw [← readItems_skip, hskip] at hread
    rw [List.append_assoc, List.append_assoc, readValue, skip_cons (by decide)]
    simp only [List.singleton_append, hskip]
    split
    · next heq => exact absurd (List.cons.inj heq).1 hc
    · rw [hread]
      rfl

theorem toList_prettyMembers_singleton (level : Nat) (m : String × Json) :
    (commas (prettyMembers level [m])).toList = (newline level).toList ++
      '\x22' :: (escaped m.1.toList ++ '\x22' :: ':' :: ' ' :: (pretty level m.2).toList) := by
  rw [prettyMembers, prettyMembers, toList_commas_singleton]
  simp [toList_quote]

theorem toList_prettyMembers_cons (level : Nat) (m m' : String × Json)
    (members : List (String × Json)) :
    (commas (prettyMembers level (m :: m' :: members))).toList = (newline level).toList ++
      '\x22' :: (escaped m.1.toList ++ '\x22' :: ':' :: ' ' :: ((pretty level m.2).toList ++
        ',' :: (commas (prettyMembers level (m' :: members))).toList)) := by
  rw [prettyMembers, prettyMembers, toList_commas_cons]
  simp [toList_quote]

/-- Members are read up to the closing brace. -/
theorem readMembers_pretty {level : Nat} {members : List (String × Json)} (hne : members ≠ [])
    (h : ∀ m ∈ members, Spells (pretty level m.2).toList m.2) {blanks : List Char}
    (hblanks : ∀ c ∈ blanks, isBlank c = true) (fuel : Nat)
    (hfuel : 2 * (commas (prettyMembers level members)).toList.length < fuel) (rest : List Char) :
    readMembers fuel ((commas (prettyMembers level members)).toList ++ (blanks ++ '\x7d' :: rest)) =
      some (members, rest) := by
  induction members generalizing fuel with
  | nil => exact absurd rfl hne
  | cons m members ih =>
    obtain ⟨hm, hmembers⟩ := List.forall_mem_cons.1 h
    obtain ⟨fuel, rfl⟩ := Nat.exists_eq_succ_of_ne_zero (n := fuel) (by omega)
    have hvalue {after : List Char} (hlength : 2 * (pretty level m.2).toList.length ≤ fuel)
        (hafter : Ends after) :
        readValue fuel (' ' :: ((pretty level m.2).toList ++ after)) = some (m.2, after) := by
      rw [← List.singleton_append, readValue_append (List.all_eq_true.1 rfl),
        hm.read _ _ hlength hafter]
    cases members with
    | nil =>
      rw [toList_prettyMembers_singleton] at hfuel ⊢
      simp only [List.length_append, List.length_cons] at hfuel
      simp only [List.append_assoc, List.cons_append]
      rw [readMembers, skip_append (isBlank_newline level), skip_cons (by decide)]
      simp only [readString_quote, Option.bind_eq_bind, Option.bind_some]
      rw [skip_cons (by decide)]
      simp only [hvalue (by omega) (ends_append hblanks (ends_cons (c := '\x7d') (by decide) rest)),
        Option.bind_some]
      rw [skip_append hblanks, skip_cons (by decide)]
      rfl
    | cons m' members =>
      rw [toList_prettyMembers_cons] at hfuel ⊢
      simp only [List.length_append, List.length_cons] at hfuel
      simp only [List.append_assoc, List.cons_append]
      rw [readMembers, skip_append (isBlank_newline level), skip_cons (by decide)]
      simp only [readString_quote, Option.bind_eq_bind, Option.bind_some]
      rw [skip_cons (by decide)]
      simp only [hvalue (by omega) (ends_cons (c := ',') (by decide) _), Option.bind_some]
      rw [skip_cons (by decide)]
      simp only [ih (List.cons_ne_nil _ _) hmembers fuel (by omega), Option.bind_some]
      rfl

theorem exists_skip_prettyMembers (level : Nat) {members : List (String × Json)}
    (hne : members ≠ []) (rest : List Char) : ∃ tail,
    skip ((commas (prettyMembers level members)).toList ++ rest) = '\x22' :: tail := by
  obtain ⟨m, members, rfl⟩ := List.exists_cons_of_ne_nil hne
  obtain ⟨more, hmore⟩ := exists_toList_commas
    (newline level ++ quote m.1 ++ ": " ++ pretty level m.2) (prettyMembers level members)
  rw [prettyMembers, hmore]
  simp only [String.toList_append, List.append_assoc, toList_quote, List.cons_append]
  rw [skip_append (isBlank_newline level), skip_cons (by decide)]
  exact ⟨_, rfl⟩

theorem spells_object {level : Nat} {members : List (String × Json)}
    (h : ∀ m ∈ members, Spells (pretty (level + 1) m.2).toList m.2) :
    Spells (pretty level (object members)).toList (object members) := by
  by_cases hempty : members = []
  · have htext : (pretty level (object members)).toList = ['\x7b', '\x7d'] := by
      rw [hempty, pretty, List.isEmpty_nil, if_pos rfl]
      decide
    rw [htext, hempty]
    exact spells_cons (by decide) fun _ _ _ _ => rfl
  · have htext : (pretty level (object members)).toList = '\x7b' ::
        ((commas (prettyMembers (level + 1) members)).toList ++
          ((newline level).toList ++ ['\x7d'])) := by
      rw [pretty, if_neg (mt List.isEmpty_iff.1 hempty)]
      simp
    rw [htext]
    refine spells_cons (by decide) fun fuel rest hfuel _ => ?_
    rw [List.length_append] at hfuel
    have hread := readMembers_pretty hempty h (isBlank_newline level) fuel (by omega) rest
    obtain ⟨tail, hskip⟩ := exists_skip_prettyMembers (level + 1) hempty
      ((newline level).toList ++ '\x7d' :: rest)
    rw [← readMembers_skip, hskip] at hread
    rw [List.append_assoc, List.append_assoc, readValue, skip_cons (by decide)]
    simp only [List.singleton_append, hskip]
    show (readMembers fuel ('\x22' :: tail)).map _ = _
    rw [hread]
    rfl

/-- Every proper value is read as it is written, at every level. -/
theorem spells_pretty {j : Json} (h : j.IsProper) (level : Nat) :
    Spells (pretty level j).toList j := by
  have hword {word : String} {c : Char} {cs : List Char} {j : Json} (hcs : word.toList = c :: cs)
      (hc : isBlank c = false ∧ c ≠ ']')
      (hread : ∀ fuel rest, readValue (fuel + 1) (c :: (cs ++ rest)) = some (j, rest)) :
      Spells word.toList j := by
    rw [hcs]
    exact spells_cons hc fun fuel rest _ _ => hread fuel rest
  induction h generalizing level with
  | null =>
    have hcs : "null".toList = ['n', 'u', 'l', 'l'] := by decide
    exact hword hcs (by decide) fun _ _ => rfl
  | bool b =>
    cases b with
    | true =>
      have hcs : "true".toList = ['t', 'r', 'u', 'e'] := by decide
      exact hword hcs (by decide) fun _ _ => rfl
    | false =>
      have hcs : "false".toList = ['f', 'a', 'l', 's', 'e'] := by decide
      exact hword hcs (by decide) fun _ _ => rfl
  | number hn => exact spells_number hn
  | string s => exact spells_string s
  | array _ ih => exact spells_array fun j hj => ih j hj (level + 1)
  | object _ ih => exact spells_object fun m hm => ih m hm (level + 1)

/-- A proper value is what its text is read as. -/
theorem read?_pretty {j : Json} (h : j.IsProper) : read? (j.pretty 0) = some j := by
  have hread := (spells_pretty h 0).read (2 * (pretty 0 j).toList.length + 2) []
    (Nat.le_add_right _ _) (by rintro _ ⟨⟩)
  rw [List.append_nil] at hread
  simp only [read?, hread]
  rfl

end Json

end RigExpr
