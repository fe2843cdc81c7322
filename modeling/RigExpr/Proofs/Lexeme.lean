import RigExpr.Lexeme.Scan

/-!
# The texts of lexemes

A scanned word is a letter with letters, digits, `_` and `$` after it, and a scanned
number is a numeral (`Lexeme.isWritten_of_scan`). What a source says about names and
numbers holds of the texts of its lexemes, and so of its tokens.

`Lexeme.scanWithin` scans by recursion on a bound for the number of characters, so that
the lexemes of a given source can be computed (`Lexeme.scan_eq_scanWithin`).
-/

namespace RigExpr

namespace Lexeme

/-- A text that is read as one word: a letter, and letters, digits, `_` and `$` after
    it. -/
def IsWord (s : String) : Prop :=
  ∃ c cs, s.toList = c :: cs ∧ c.isAlpha = true ∧ ∀ d ∈ cs, isWordRest d = true

theorem IsWord.mem {s : String} (h : IsWord s) {d : Char} (hd : d ∈ s.toList) :
    d.isAlphanum = true ∨ d = '_' ∨ d = '$' := by
  obtain ⟨c, cs, hs, hc, hcs⟩ := h
  rw [hs] at hd
  rcases List.mem_cons.1 hd with rfl | hd
  · exact .inl (by simp [Char.isAlphanum, hc])
  · simpa [isWordRest, or_assoc] using hcs d hd

/-- A text that is read as one number. -/
def IsNumeral (s : String) : Prop :=
  ∃ cs, startsNumber cs = true ∧ s.toList = (numeral cs).1

/-- The text of the lexeme is one that scanning gives to such lexemes. -/
def IsWritten : Lexeme → Prop
  | number text => IsNumeral text
  | word text => IsWord text
  | symbol _ => True

theorem isWritten_of_next? {cs rest : List Char} {l : Lexeme} (h : next? cs = some (l, rest)) :
    l.IsWritten := by
  unfold next? at h
  split at h
  · next hn =>
    simp only [Option.some.injEq, Prod.mk.injEq] at h
    obtain ⟨rfl, -⟩ := h
    exact ⟨cs, hn, String.toList_ofList⟩
  · split at h
    · next c rest' _ =>
      split at h
      · next hc =>
        simp only [Option.some.injEq, Prod.mk.injEq] at h
        obtain ⟨rfl, -⟩ := h
        exact ⟨c, rest'.takeWhile isWordRest, String.toList_ofList, hc,
          List.all_eq_true.1 List.all_takeWhile⟩
      · obtain ⟨⟨s, r⟩, -, heq⟩ := Option.map_eq_some_iff.1 h
        cases heq
        trivial
    · cases h

theorem isWritten_of_scanFrom {start : Nat} {cs : List Char} {input : List Located}
    (h : scanFrom start cs = .ok input) : ∀ l ∈ input, l.lexeme.IsWritten := by
  fun_induction scanFrom start cs generalizing input with
  | case1 => cases h; exact fun l hl => absurd hl List.not_mem_nil
  | case2 start c rest hc ih => exact ih h
  | @case3 _ c rest _ l rest' hnext _ more hmore ih =>
    cases h
    intro l' hl'
    rcases List.mem_cons.1 hl' with rfl | hl'
    · exact isWritten_of_next? hnext
    · exact ih hmore l' hl'
  | case4 => cases h
  | case5 => cases h

/-- Scanning gives words and numerals. -/
theorem isWritten_of_scan {source : String} {input : List Located}
    (h : scan source = .ok input) : ∀ l ∈ input, l.lexeme.IsWritten :=
  isWritten_of_scanFrom h

/-! ## Scanning within a bound -/

/-- The lexemes of up to `bound` characters. -/
def scanWithin : (bound start : Nat) → List Char → Except SyntaxError (List Located)
  | 0, _, _ => .ok []
  | _ + 1, _, [] => .ok []
  | bound + 1, start, c :: rest =>
    if isBlank c then scanWithin bound (start + 1) rest
    else
      match next? (c :: rest) with
      | some (l, rest) =>
        let stop := start + l.text.length
        match scanWithin bound stop rest with
        | .ok more => .ok (⟨l, ⟨start, stop⟩⟩ :: more)
        | .error e => .error e
      | none => .error ⟨.character c, ⟨start, start + c.utf8Size⟩⟩

theorem scanFrom_eq_scanWithin {bound start : Nat} {cs : List Char} (h : cs.length ≤ bound) :
    scanFrom start cs = scanWithin bound start cs := by
  induction bound generalizing start cs with
  | zero =>
    rw [List.eq_nil_of_length_eq_zero (Nat.le_zero.1 h), scanFrom, scanWithin]
  | succ bound ih =>
    cases cs with
    | nil => rw [scanFrom, scanWithin]
    | cons c rest =>
      rw [scanFrom, scanWithin]
      split
      · exact ih (Nat.le_of_succ_le_succ h)
      · split
        · next l rest' hnext =>
          -- what a lexeme leaves is within the smaller bound
          have hrest' : rest'.length ≤ bound := by
            have := length_of_next? hnext
            rw [List.length_cons] at this h
            omega
          cases hmore : scanWithin bound (start + l.text.length) rest' with
          | ok more => simp [hnext, ih hrest', hmore]
          | error e => simp [hnext, ih hrest', hmore]
        · next hnext => simp only [hnext]

theorem scan_eq_scanWithin (source : String) :
    scan source = scanWithin source.length 0 source.toList :=
  scanFrom_eq_scanWithin (Nat.le_of_eq String.length_toList)

end Lexeme

end RigExpr
