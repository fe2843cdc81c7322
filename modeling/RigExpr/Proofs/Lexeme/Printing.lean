import RigExpr.Proofs.Lexeme.Blank
import RigExpr.Proofs.Lexeme.Tiling

/-!
# Scanning what is printed

Lexemes that are printed with a space between them are scanned again as they were, each at the
place where its text was put (`Lexeme.scan_spaced`): the text of a lexeme is read as this lexeme,
and a blank ends it.
-/

namespace RigExpr.Lexeme

/-- The texts of the lexemes, with a space between them. -/
def spaced (ls : List Lexeme) : String := String.intercalate " " (ls.map text)

/-- The lexemes at the places of their texts, the first of which is put at byte `start`. -/
def placed : (start : Nat) → List Lexeme → List Located
  | _, [] => []
  | start, l :: ls =>
    let stop := start + l.text.utf8ByteSize
    ⟨l, ⟨start, stop⟩⟩ :: placed (stop + 1) ls

theorem lexeme_placed (start : Nat) (ls : List Lexeme) :
    (placed start ls).map (·.lexeme) = ls := by
  induction ls generalizing start with
  | nil => rfl
  | cons l ls ih => rw [placed, List.map_cons, ih]

theorem utf8ByteSize_text {l : Lexeme} (h : l.IsSpelled) : l.text.utf8ByteSize = l.text.length := by
  rw [← bytes_text h, bytes, String.ofList_toList]

/-- A lexeme is all that its text has. -/
theorem scanFrom_text {l : Lexeme} (h : l.IsSpelled) (start : Nat) :
    scanFrom start l.text.toList = .ok (placed start [l]) := by
  have hnext := next?_text h
  obtain ⟨c, cs, hcs⟩ := List.exists_cons_of_ne_nil (ne_nil_of_next? hnext)
  have hc : isBlank c = false := (h.mem (hcs ▸ List.mem_cons_self)).2
  rw [hcs] at hnext ⊢
  rw [placed, placed, utf8ByteSize_text h]
  exact scanFrom_of_next? hc hnext (by rw [scanFrom])

theorem scanFrom_spaced {ls : List Lexeme} (h : ∀ l ∈ ls, l.IsSpelled) (start : Nat) :
    scanFrom start (spaced ls).toList = .ok (placed start ls) := by
  induction ls generalizing start with
  | nil => exact scanFrom.eq_1 start
  | cons l ls ih =>
    rw [List.forall_mem_cons] at h
    cases ls with
    | nil =>
      rw [spaced, List.map_singleton, String.intercalate_singleton]
      exact scanFrom_text h.1 start
    | cons l' ls =>
      -- the lexeme ends at the space in front of the others
      have htext : (spaced (l :: l' :: ls)).toList =
          l.text.toList ++ ' ' :: (spaced (l' :: ls)).toList := by
        simp [spaced, String.intercalate_cons_cons]
      rw [htext, scanFrom_append (scanFrom_text h.1 start) (ih h.2 _)]
      simp [placed, utf8ByteSize_text h.1, String.length_toList]

/-- Lexemes that are printed are scanned as they were, each at the place of its text. -/
theorem scan_spaced {ls : List Lexeme} (h : ∀ l ∈ ls, l.IsSpelled) :
    scan (spaced ls) = .ok (placed 0 ls) ∧ (placed 0 ls).map (·.lexeme) = ls ∧
      ∀ l ∈ placed 0 ls, l.span.Holds 0 (spaced ls).toList l.lexeme.text.toList :=
  have hscan := scanFrom_spaced h 0
  ⟨hscan, lexeme_placed 0 ls, (scanFrom_eq_ok_iff.1 hscan).holds⟩

/-- Without the spaces the number in the middle would lose its first digit to the exponent of
    another, and the signs would be one symbol. -/
theorem scan_spaced_exponent :
    (∀ l ∈ [number "2", word "e", number "5.5E+7", symbol .assign, symbol .assign, word "v$_1"],
      l.IsSpelled) ∧
    scan "2 e 5.5E+7 = = v$_1" = .ok [⟨.number "2", ⟨0, 1⟩⟩, ⟨.word "e", ⟨2, 3⟩⟩,
      ⟨.number "5.5E+7", ⟨4, 10⟩⟩, ⟨.symbol .assign, ⟨11, 12⟩⟩, ⟨.symbol .assign, ⟨13, 14⟩⟩,
      ⟨.word "v$_1", ⟨15, 19⟩⟩] := by
  have hspelled : ∀ l ∈ [number "2", word "e", number "5.5E+7", symbol .assign, symbol .assign,
      word "v$_1"], l.IsSpelled := by
    simp only [List.forall_mem_cons]
    refine ⟨?_, ?_, ?_, trivial, trivial, ?_, by simp⟩
    · exact ⟨['2'], [], [], rfl, by simp, .inl rfl, .inl rfl, by simp⟩
    · exact ⟨'e', [], rfl, rfl, by simp⟩
    · exact ⟨['5'], ['.', '5'], ['E', '+', '7'], rfl, by simp, .inr ⟨['5'], rfl, by simp, by simp⟩,
        .inr ⟨'E', ['+'], ['7'], rfl, .inr rfl, .inr (.inl rfl), by simp, by simp⟩, by simp⟩
    · exact ⟨'v', ['$', '_', '1'], rfl, rfl, by simp [isWordRest]⟩
  exact ⟨hspelled, (scan_spaced hspelled).1⟩

end RigExpr.Lexeme
