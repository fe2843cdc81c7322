import RigExpr.Proofs.Lexeme.Spelling

/-!
# Lexemes tile the source

The lexemes of a source, with blanks between them, make up the source: each stands at the bytes
of its span, none overlaps another, and at its place it is the longest lexeme
(`Lexeme.Tiles`). A source has one such tiling at most, which is what scanning finds; and where
there is none, the error is at a character that starts no lexeme, after a text that scans
(`Lexeme.scan_tiles`).

The tiling of a source is that of what follows a blank or a lexeme at its start
(`Lexeme.tiles_blank`, `Lexeme.tiles_lexeme`), as scanning has it.
-/

namespace RigExpr

/-- The bytes that characters take. -/
def bytes (cs : List Char) : Nat := (String.ofList cs).utf8ByteSize

@[simp] theorem bytes_nil : bytes [] = 0 := rfl

@[simp] theorem bytes_append (cs ds : List Char) : bytes (cs ++ ds) = bytes cs + bytes ds := by
  rw [bytes, String.ofList_append, String.utf8ByteSize_append, bytes, bytes]

@[simp] theorem bytes_cons (c : Char) (cs : List Char) :
    bytes (c :: cs) = c.utf8Size + bytes cs := by
  rw [bytes, String.ofList_cons, String.utf8ByteSize_append, String.utf8ByteSize_singleton, bytes]

theorem bytes_eq_length {cs : List Char} (h : ∀ c ∈ cs, c.utf8Size = 1) : bytes cs = cs.length := by
  induction cs with
  | nil => rfl
  | cons c cs ih =>
    rw [List.forall_mem_cons] at h
    rw [bytes_cons, h.1, ih h.2, List.length_cons, Nat.add_comm]

/-- The text stands at the span, in a source whose first character stands at byte `start`. -/
def Span.Holds (span : Span) (start : Nat) (cs text : List Char) : Prop :=
  ∃ before after, cs = before ++ (text ++ after) ∧ span.start = start + bytes before ∧
    span.stop = span.start + bytes text

namespace Span.Holds

variable {span : Span} {start : Nat} {c : Char} {cs text : List Char}

theorem start_le (h : span.Holds start cs text) : start ≤ span.start := by
  obtain ⟨before, after, -, hstart, -⟩ := h
  omega

theorem append (t : List Char) (h : span.Holds (start + bytes t) cs text) :
    span.Holds start (t ++ cs) text := by
  obtain ⟨before, after, rfl, hstart, hstop⟩ := h
  exact ⟨t ++ before, after, by rw [List.append_assoc], by rw [bytes_append]; omega, hstop⟩

/-- A text stands at the first character or after it. -/
theorem of_cons (h : span.Holds start (c :: cs) text) :
    span = ⟨start, start + bytes text⟩ ∧ text <+: c :: cs ∨
      span.Holds (start + c.utf8Size) cs text := by
  obtain ⟨before, after, heq, hstart, hstop⟩ := h
  cases before with
  | nil =>
    rw [bytes_nil, Nat.add_zero] at hstart
    refine .inl ⟨?_, after, heq.symm⟩
    cases span
    simp_all
  | cons d before =>
    cases heq
    exact .inr ⟨before, after, rfl, by rw [bytes_cons] at hstart; omega, hstop⟩

theorem of_append {t : List Char} (h : span.Holds start (t ++ cs) text)
    (hstart : start + bytes t ≤ span.start) : span.Holds (start + bytes t) cs text := by
  induction t generalizing start with
  | nil => exact h
  | cons c t ih =>
    rw [bytes_cons] at hstart ⊢
    rw [← Nat.add_assoc]
    rcases h.of_cons with ⟨rfl, -⟩ | h
    · have := c.utf8Size_pos
      dsimp only at hstart
      omega
    · exact ih h (by omega)

theorem start_lt_stop (h : span.Holds start cs [c]) : span.start < span.stop := by
  obtain ⟨before, after, -, -, hstop⟩ := h
  have := c.utf8Size_pos
  rw [bytes_cons] at hstop
  omega

/-- A character that stands before the end of `t` ends within it. -/
theorem stop_le {t : List Char} (h : span.Holds start (t ++ cs) [c])
    (hstart : span.start < start + bytes t) : span.stop ≤ start + bytes t := by
  induction t generalizing start with
  | nil =>
    have := h.start_le
    rw [bytes_nil] at hstart
    omega
  | cons d t ih =>
    rw [bytes_cons] at hstart ⊢
    rcases h.of_cons with ⟨rfl, heq⟩ | h
    · obtain ⟨rfl, -⟩ := List.cons_prefix_cons.1 heq
      simp
    · have := ih h (by omega)
      omega

end Span.Holds

namespace Lexeme

theorem bytes_text {l : Lexeme} (h : l.IsSpelled) : bytes l.text.toList = l.text.length := by
  rw [bytes_eq_length fun c hc => (h.mem hc).1, String.length_toList]

theorem length_text_pos {l : Lexeme} (h : l.IsSpelled) : 0 < l.text.length := by
  rw [← String.length_toList]
  exact List.length_pos_iff.2 (ne_nil_of_next? (next?_text h))

/-- The lexemes tile the characters, the first of which stands at byte `start`. -/
structure Tiles (start : Nat) (cs : List Char) (input : List Located) : Prop where
  holds : ∀ l ∈ input, l.span.Holds start cs l.lexeme.text.toList
  spelled : ∀ l ∈ input, l.lexeme.IsSpelled
  nonempty : ∀ l ∈ input, l.span.start < l.span.stop
  apart : input.Pairwise fun l l' => l.span.stop ≤ l'.span.start
  /-- A character is a blank, or in a lexeme. -/
  gaps : ∀ (c : Char) (span : Span), span.Holds start cs [c] →
    isBlank c = true ∨ ∃ l ∈ input, l.span.start ≤ span.start ∧ span.stop ≤ l.span.stop
  /-- No lexeme is longer at the same place. -/
  longest : ∀ l ∈ input, ∀ (other : Lexeme) (stop : Nat), other.IsSpelled →
    (Span.mk l.span.start stop).Holds start cs other.text.toList → stop ≤ l.span.stop

namespace Tiles

variable {start : Nat} {c : Char} {cs rest : List Char} {input more : List Located} {l : Located}

/-- A lexeme stands at the first character, or starts after it. -/
theorem first_or_after (h : Tiles start (c :: cs) input) (hl : l ∈ input) :
    l.span = ⟨start, start + l.lexeme.text.length⟩ ∧ l.lexeme.text.toList <+: c :: cs ∨
      start + c.utf8Size ≤ l.span.start := by
  rcases (h.holds l hl).of_cons with hfirst | hafter
  · rw [bytes_text (h.spelled l hl)] at hfirst
    exact .inl hfirst
  · exact .inr hafter.start_le

/-- The lexemes that start after `t` tile what follows it, if those before them end in `t`. -/
theorem drop {t : List Char} (done : List Located) (h : Tiles start (t ++ cs) (done ++ input))
    (hdone : ∀ l ∈ done, l.span.stop ≤ start + bytes t)
    (hstart : ∀ l ∈ input, start + bytes t ≤ l.span.start) :
    Tiles (start + bytes t) cs input where
  holds l hl := (h.holds l (List.mem_append_right _ hl)).of_append (hstart l hl)
  spelled l hl := h.spelled l (List.mem_append_right _ hl)
  nonempty l hl := h.nonempty l (List.mem_append_right _ hl)
  apart := (List.pairwise_append.1 h.apart).2.1
  gaps c span hspan := by
    rcases h.gaps c span (hspan.append t) with hblank | ⟨l, hl, hle⟩
    · exact .inl hblank
    · rcases List.mem_append.1 hl with hl | hl
      · -- the character stands after the lexemes in `t`
        have hstop := hdone l hl
        have hge := hspan.start_le
        have hlt := hspan.start_lt_stop
        omega
      · exact .inr ⟨l, hl, hle⟩
  longest l hl other stop hother hholds :=
    h.longest l (List.mem_append_right _ hl) other stop hother (hholds.append t)

end Tiles

theorem tiles_nil {start : Nat} {input : List Located} : Tiles start [] input ↔ input = [] := by
  constructor
  · intro h
    refine List.eq_nil_iff_forall_not_mem.2 fun l hl => ?_
    obtain ⟨before, after, heq, -⟩ := h.holds l hl
    have hpos := length_text_pos (h.spelled l hl)
    have hlength := congrArg List.length heq
    simp only [List.length_append, List.length_nil, String.length_toList] at hlength
    omega
  · rintro rfl
    refine ⟨by simp, by simp, by simp, .nil, fun c span hspan => ?_, by simp⟩
    obtain ⟨before, after, heq, -⟩ := hspan
    simp at heq

theorem utf8Size_of_isBlank {c : Char} (hc : isBlank c = true) : c.utf8Size = 1 := by
  simp only [isBlank, Bool.or_eq_true, decide_eq_true_eq] at hc
  rcases hc with (((rfl | rfl) | rfl) | rfl) | rfl <;> rfl

/-- A blank at the start is in no lexeme. -/
theorem tiles_blank {start : Nat} {c : Char} {cs : List Char} {input : List Located}
    (hc : isBlank c = true) : Tiles start (c :: cs) input ↔ Tiles (start + 1) cs input := by
  have hsize := utf8Size_of_isBlank hc
  have hbytes : bytes [c] = 1 := by rw [bytes_cons, hsize, bytes_nil]
  rw [← hbytes]
  constructor
  · intro h
    refine Tiles.drop (t := [c]) [] h (by simp) fun l hl => ?_
    rcases h.first_or_after hl with ⟨-, hfront⟩ | hle
    · -- no lexeme starts with a blank
      have hspelled := h.spelled l hl
      obtain ⟨d, ds, hd⟩ := List.exists_cons_of_ne_nil (ne_nil_of_next? (next?_text hspelled))
      rw [hd, List.cons_prefix_cons] at hfront
      have hblank := (hspelled.mem (hd ▸ List.mem_cons_self)).2
      rw [hfront.1, hc] at hblank
      cases hblank
    · rwa [hbytes, ← hsize]
  · intro h
    refine ⟨fun l hl => (h.holds l hl).append [c], h.spelled, h.nonempty, h.apart, ?_, ?_⟩
    · intro d span hspan
      rcases hspan.of_cons with ⟨-, hfront⟩ | hspan
      · obtain ⟨rfl, -⟩ := List.cons_prefix_cons.1 hfront
        exact .inl hc
      · rw [hsize, ← hbytes] at hspan
        exact h.gaps d span hspan
    · intro l hl other stop hother hholds
      exact h.longest l hl other stop hother (hholds.of_append (t := [c]) (h.holds l hl).start_le)

/-- Where a tiling starts with no blank, it starts with the lexeme that is read there. -/
theorem Tiles.exists_cons {start : Nat} {c : Char} {cs : List Char} {input : List Located}
    (h : Tiles start (c :: cs) input) (hc : isBlank c = false) :
    ∃ l rest more, next? (c :: cs) = some (l, rest) ∧
      input = ⟨l, ⟨start, start + l.text.length⟩⟩ :: more := by
  have hfirst : (Span.mk start (start + c.utf8Size)).Holds start (c :: cs) [c] :=
    ⟨[], cs, rfl, rfl, by simp⟩
  rcases h.gaps c _ hfirst with hblank | ⟨l, hl, hle, -⟩
  · rw [hc] at hblank
    cases hblank
  rcases h.first_or_after hl with ⟨hspan, rest, hrest⟩ | hafter
  · -- the lexeme that the first character is in
    have hnext : next? (c :: cs) = some (l.lexeme, rest) := by
      refine next?_eq_some_iff.2 ⟨h.spelled l hl, hrest, fun other hother hfront => ?_⟩
      obtain ⟨after, hafter⟩ := hfront
      have hlongest := h.longest l hl other (start + other.text.length) hother
        ⟨[], after, hafter.symm, by simp [hspan], by simp [hspan, bytes_text hother]⟩
      rw [hspan] at hlongest
      exact Nat.le_of_add_le_add_left hlongest
    refine ⟨l.lexeme, rest, ?_⟩
    cases input with
    | nil => cases hl
    | cons l' more =>
      rcases List.mem_cons.1 hl with rfl | hmem
      · exact ⟨more, hnext, by rw [← hspan]⟩
      · -- a lexeme before it would have no place
        have hapart := List.rel_of_pairwise_cons h.apart hmem
        have hnonempty := h.nonempty l' List.mem_cons_self
        have hge := (h.holds l' List.mem_cons_self).start_le
        rw [hspan] at hapart
        exact absurd hnonempty (Nat.not_lt.2 (hapart.trans hge))
  · have := c.utf8Size_pos
    dsimp only at hle
    omega

/-- A lexeme that is read goes in front of those that tile the rest. -/
theorem Tiles.cons {start : Nat} {c : Char} {cs rest : List Char} {l : Lexeme}
    {more : List Located} (hnext : next? (c :: cs) = some (l, rest))
    (h : Tiles (start + l.text.length) rest more) :
    Tiles start (c :: cs) (⟨l, ⟨start, start + l.text.length⟩⟩ :: more) := by
  have hspelled := isSpelled_of_next? hnext
  have hcs := append_of_next? hnext
  have hbytes := bytes_text hspelled
  rw [← hbytes] at h ⊢
  have hmore (l' : Located) (hl' : l' ∈ more) := (h.holds l' hl').start_le
  refine ⟨?holds, ?spelled, ?nonempty, .cons hmore h.apart, ?gaps, ?longest⟩
  case holds =>
    refine List.forall_mem_cons.2 ⟨⟨[], rest, hcs.symm, rfl, rfl⟩, fun l' hl' => ?_⟩
    rw [← hcs]
    exact (h.holds l' hl').append _
  case spelled => exact List.forall_mem_cons.2 ⟨hspelled, h.spelled⟩
  case nonempty =>
    refine List.forall_mem_cons.2 ⟨?_, h.nonempty⟩
    have := length_text_pos hspelled
    dsimp only
    omega
  case gaps =>
    intro d span hspan
    rw [← hcs] at hspan
    by_cases hstart : start + bytes l.text.toList ≤ span.start
    · rcases h.gaps d span (hspan.of_append hstart) with hblank | ⟨l', hl', hle⟩
      · exact .inl hblank
      · exact .inr ⟨l', List.mem_cons_of_mem _ hl', hle⟩
    · -- a character that starts in the lexeme ends in it
      have hstop := hspan.stop_le (Nat.lt_of_not_le hstart)
      exact .inr ⟨_, List.mem_cons_self, hspan.start_le, hstop⟩
  case longest =>
    refine List.forall_mem_cons.2 ⟨fun other stop hother hholds => ?_, ?_⟩
    · rcases hholds.of_cons with ⟨hspan, hfront⟩ | hafter
      · have hle := (next?_eq_some_iff.1 hnext).2.2 other hother hfront
        rw [(Span.mk.inj hspan).2, bytes_text hother, hbytes]
        exact Nat.add_le_add_left hle start
      · have hle := hafter.start_le
        have hpos := c.utf8Size_pos
        dsimp only at hle
        omega
    · intro l' hl' other stop hother hholds
      rw [← hcs] at hholds
      exact h.longest l' hl' other stop hother (hholds.of_append (hmore l' hl'))

/-- A lexeme that is read at the start tiles the source with what tiles the rest. -/
theorem tiles_lexeme {start : Nat} {c : Char} {cs rest : List Char} {l : Lexeme}
    {input : List Located} (hc : isBlank c = false) (hnext : next? (c :: cs) = some (l, rest)) :
    Tiles start (c :: cs) input ↔ ∃ more,
      input = ⟨l, ⟨start, start + l.text.length⟩⟩ :: more ∧
        Tiles (start + l.text.length) rest more := by
  constructor
  · intro h
    obtain ⟨l', rest', more, hnext', rfl⟩ := h.exists_cons hc
    cases hnext'.symm.trans hnext
    refine ⟨more, rfl, ?_⟩
    have hbytes := bytes_text (isSpelled_of_next? hnext)
    rw [← append_of_next? hnext, ← hbytes] at h
    rw [← hbytes]
    exact Tiles.drop [⟨l, _⟩] h (by simp) fun l' hl' => List.rel_of_pairwise_cons h.apart hl'
  · rintro ⟨more, rfl, h⟩
    exact h.cons hnext

/-! ## Scanning -/

theorem scanFrom_eq_ok_iff {start : Nat} {cs : List Char} {input : List Located} :
    scanFrom start cs = .ok input ↔ Tiles start cs input := by
  fun_induction scanFrom start cs generalizing input with
  | case1 start => rw [tiles_nil, Except.ok.injEq, eq_comm]
  | case2 start c rest hc ih => rw [tiles_blank hc, ih]
  | @case3 start c rest hc l rest' hnext stop more hmore ih =>
    rw [tiles_lexeme (by simpa using hc) hnext, Except.ok.injEq]
    constructor
    · rintro rfl
      exact ⟨more, rfl, ih.1 hmore⟩
    · rintro ⟨more', rfl, hmore'⟩
      cases hmore.symm.trans (ih.2 hmore')
      rfl
  | @case4 start c rest hc l rest' hnext stop e he ih =>
    rw [tiles_lexeme (by simpa using hc) hnext]
    refine iff_of_false (by simp) ?_
    rintro ⟨more', -, hmore'⟩
    cases he.symm.trans (ih.2 hmore')
  | case5 start c rest hc hnext =>
    refine iff_of_false (by simp) fun h => ?_
    obtain ⟨l, rest', more, hnext', -⟩ := h.exists_cons (by simpa using hc)
    cases hnext.symm.trans hnext'

/-- What is read does not hang on what comes after it, if all of it is left. -/
theorem next?_of_append {cs before more : List Char} {l : Lexeme}
    (h : next? cs = some (l, before ++ more)) :
    next? (l.text.toList ++ before) = some (l, before) := by
  obtain ⟨hl, hcs, hlongest⟩ := next?_eq_some_iff.1 h
  refine next?_eq_some_iff.2 ⟨hl, rfl, fun other hother hfront => hlongest other hother ?_⟩
  rw [← hcs, ← List.append_assoc]
  exact hfront.trans (List.prefix_append _ _)

theorem exists_of_scanFrom_eq_error {start : Nat} {cs : List Char} {e : SyntaxError}
    (h : scanFrom start cs = .error e) :
    ∃ before c after, cs = before ++ c :: after ∧
      e = ⟨.character c, ⟨start + bytes before, start + bytes before + c.utf8Size⟩⟩ ∧
      (∃ input, scanFrom start before = .ok input) ∧ isBlank c = false ∧
      ∀ l : Lexeme, l.IsSpelled → l.text.toList.head? ≠ some c := by
  fun_induction scanFrom start cs with
  | case1 => cases h
  | case2 start d rest hd ih =>
    obtain ⟨before, c, after, rfl, rfl, ⟨input, hinput⟩, hc⟩ := ih h
    refine ⟨d :: before, c, after, rfl, ?_, ⟨input, ?_⟩, hc⟩
    · rw [bytes_cons, utf8Size_of_isBlank hd, ← Nat.add_assoc]
    · rw [scanFrom_blank hd, hinput]
  | case3 => cases h
  | @case4 start d rest hd l rest' hnext stop e' he ih =>
    cases h
    obtain ⟨before, c, after, rfl, rfl, ⟨input, hinput⟩, hc⟩ := ih he
    have hcs := append_of_next? hnext
    refine ⟨l.text.toList ++ before, c, after, ?_, ?_, ⟨⟨l, ⟨start, stop⟩⟩ :: input, ?_⟩, hc⟩
    · rw [← hcs, List.append_assoc]
    · rw [bytes_append, bytes_text (isSpelled_of_next? hnext), ← Nat.add_assoc]
    · -- the lexeme is read in front of what comes before the character, too
      have hnext' := next?_of_append hnext
      obtain ⟨d', text, htext⟩ := List.exists_cons_of_ne_nil (ne_nil_of_next? hnext)
      rw [htext, List.cons_append] at hcs hnext' ⊢
      obtain ⟨rfl, -⟩ := List.cons.inj hcs
      exact scanFrom_of_next? (by simpa using hd) hnext' hinput
  | case5 start c rest hc hnext =>
    cases h
    exact ⟨[], c, rest, rfl, rfl, ⟨[], by rw [scanFrom]⟩, by simpa using hc,
      next?_eq_none_iff.1 hnext⟩

/-- The lexemes of a source are those that tile it. Where no lexemes do, the error is at one
    character that starts no lexeme, and what stands before it scans. -/
theorem scan_tiles (source : String) :
    (∀ input, scan source = .ok input ↔ Tiles 0 source.toList input) ∧
    ∀ e, scan source = .error e → ∃ before c after, source = before ++ String.singleton c ++ after ∧
      e = ⟨.character c, ⟨before.utf8ByteSize, before.utf8ByteSize + c.utf8Size⟩⟩ ∧
      (∃ input, scan before = .ok input) ∧ isBlank c = false ∧
      ∀ l : Lexeme, l.IsSpelled → l.text.toList.head? ≠ some c := by
  refine ⟨fun input => scanFrom_eq_ok_iff, fun e h => ?_⟩
  obtain ⟨before, c, after, hsource, rfl, ⟨input, hinput⟩, hc⟩ := exists_of_scanFrom_eq_error h
  refine ⟨String.ofList before, c, String.ofList after, ?_, ?_, ⟨input, ?_⟩, hc⟩
  · rw [← String.toList_inj, hsource]
    simp
  · rw [Nat.zero_add]
    rfl
  · rw [scan, String.toList_ofList, hinput]

/-- An exponent needs a digit, a point needs one too, and a fraction sign of two bytes starts no
    lexeme. -/
theorem scan_tiles_fraction :
    Tiles 0 "2e+.5!=v.x".toList [⟨.number "2", ⟨0, 1⟩⟩, ⟨.word "e", ⟨1, 2⟩⟩,
      ⟨.symbol .plus, ⟨2, 3⟩⟩, ⟨.number ".5", ⟨3, 5⟩⟩, ⟨.symbol .notEqual, ⟨5, 7⟩⟩,
      ⟨.word "v", ⟨7, 8⟩⟩, ⟨.symbol .dot, ⟨8, 9⟩⟩, ⟨.word "x", ⟨9, 10⟩⟩] ∧
    ∃ before c after, "1 + ½ x" = before ++ String.singleton c ++ after ∧
      (⟨.character '½', ⟨4, 6⟩⟩ : SyntaxError) =
        ⟨.character c, ⟨before.utf8ByteSize, before.utf8ByteSize + c.utf8Size⟩⟩ ∧
      (∃ input, scan before = .ok input) ∧ isBlank c = false ∧
      ∀ l : Lexeme, l.IsSpelled → l.text.toList.head? ≠ some c := by
  constructor
  · refine ((scan_tiles _).1 _).1 ?_
    rw [scan_eq_scanWithin]
    rfl
  · refine (scan_tiles _).2 _ ?_
    rw [scan_eq_scanWithin]
    rfl

end Lexeme

end RigExpr
