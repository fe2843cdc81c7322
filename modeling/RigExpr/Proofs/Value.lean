import RigExpr.Proofs.Number.Text
import RigExpr.Proofs.Signature

/-!
# Texts of values

The text of a value is a rendering (`Value.Over.rendering_text`), and two values with
one text are one value (`Value.Over.text_injective`), as long as the texts of their
handles are labels that tell the handles apart: the text of a number determines it,
brackets and commas show how sequences are made up, and an underscore gives a label
away. A *literal* holds no handle at all, so its text tells it from all other literals
(`Value.text_eq_text_iff`).
-/

namespace RigExpr

namespace Value

variable {H : Type}

/-- No handle occurs in the value. -/
def IsLiteral : Value H → Prop
  | scalar _ | bool _ | order _ => True
  | pair a b => a.IsLiteral ∧ b.IsLiteral
  | triple a b c => a.IsLiteral ∧ b.IsLiteral ∧ c.IsLiteral
  | quad a b c d => a.IsLiteral ∧ b.IsLiteral ∧ c.IsLiteral ∧ d.IsLiteral
  | handle _ => False

/-- All handles in the value satisfy `P`. -/
def Over (P : H → Prop) : Value H → Prop
  | scalar _ | bool _ | order _ => True
  | pair a b => a.Over P ∧ b.Over P
  | triple a b c => a.Over P ∧ b.Over P ∧ c.Over P
  | quad a b c d => a.Over P ∧ b.Over P ∧ c.Over P ∧ d.Over P
  | handle h => P h

theorem isLiteral_iff_over {v : Value H} : v.IsLiteral ↔ v.Over fun _ => False := by
  induction v with
  | scalar | bool | order | handle => exact Iff.rfl
  | pair a b iha ihb => exact and_congr iha ihb
  | triple a b c iha ihb ihc => exact and_congr iha (and_congr ihb ihc)
  | quad a b c d iha ihb ihc ihd => exact and_congr iha (and_congr ihb (and_congr ihc ihd))

theorem Over.imp {P Q : H → Prop} (hPQ : ∀ h, P h → Q h) {v : Value H} (h : v.Over P) :
    v.Over Q := by
  induction v with
  | scalar | bool | order => trivial
  | handle => exact hPQ _ h
  | pair a b iha ihb => exact ⟨iha h.1, ihb h.2⟩
  | triple a b c iha ihb ihc => exact ⟨iha h.1, ihb h.2.1, ihc h.2.2⟩
  | quad a b c d iha ihb ihc ihd => exact ⟨iha h.1, ihb h.2.1, ihc h.2.2.1, ihd h.2.2.2⟩

/-- The components of a value have its handles. -/
theorem Over.items {P : H → Prop} {v : Value H} (h : v.Over P) {items : List (Value H)}
    (hi : v.items? = some items) : ∀ a ∈ items, a.Over P := by
  cases v with
  | scalar | bool | order | handle => cases hi
  | pair a b =>
    cases hi
    simpa [Over] using h
  | triple a b c =>
    cases hi
    simpa [Over] using h
  | quad a b c d =>
    cases hi
    simpa [Over] using h

/-- A sequence has the handles of its components. -/
theorem over_of_ofItems? {P : H → Prop} {items : List (Value H)} {v : Value H}
    (h : ofItems? items = some v) (hi : ∀ a ∈ items, a.Over P) : v.Over P := by
  unfold ofItems? at h
  split at h
  · cases h
    simpa [Over] using hi
  · cases h
    simpa [Over] using hi
  · cases h
    simpa [Over] using hi
  · cases h

/-- A sequence of literals is a literal. -/
theorem isLiteral_of_ofItems? {items : List (Value H)} {v : Value H} (h : ofItems? items = some v)
    (hi : ∀ a ∈ items, a.IsLiteral) : v.IsLiteral :=
  isLiteral_iff_over.2 (over_of_ofItems? h fun a ha => isLiteral_iff_over.1 (hi a ha))

/-- There are two to four components. -/
theorem length_of_items? {v : Value H} {items : List (Value H)} (h : v.items? = some items) :
    2 ≤ items.length ∧ items.length ≤ 4 := by
  cases v <;> cases h <;> exact ⟨by simp, by simp⟩

theorem exists_ofItems? {items : List (Value H)} (h : 2 ≤ items.length ∧ items.length ≤ 4) :
    ∃ v, ofItems? items = some v := by
  match items, h with
  | [_, _], _ | [_, _, _], _ | [_, _, _, _], _ => exact ⟨_, rfl⟩

/-- A sequence is determined by its components. -/
theorem items?_injective {v w : Value H} {items : List (Value H)} (hv : v.items? = some items)
    (hw : w.items? = some items) : v = w := by
  cases v <;> cases hv <;> cases w <;> cases hw <;> rfl

/-- Lists of values that go by texts are the same if their texts are, and each text
    tells the values apart that go by it. -/
theorem eq_of_map_eq {f : Value H → String} {items items' : List (Value H)}
    (hf : ∀ a ∈ items, ∀ b ∈ items', f a = f b → a = b) (h : items.map f = items'.map f) :
    items = items' := by
  induction items generalizing items' with
  | nil => exact (List.map_eq_nil_iff.1 h.symm).symm
  | cons a items ih =>
    obtain ⟨b, items', rfl, hb, hitems⟩ := List.map_eq_cons_iff.1 h.symm
    rw [hf a List.mem_cons_self b List.mem_cons_self hb.symm,
      ih (fun a ha b hb => hf a (List.mem_cons_of_mem _ ha) b (List.mem_cons_of_mem _ hb))
        hitems.symm]

/-- The kinds of values. -/
inductive Kind
  | number | truth | order | sequence | handle
  deriving DecidableEq

/-- The kind of a value. -/
def kind : Value H → Kind
  | scalar _ => .number
  | bool _ => .truth
  | .order _ => .order
  | .handle _ => .handle
  | _ => .sequence

theorem exists_items_of_kind {w : Value H} (h : w.kind = .sequence) :
    ∃ items, w.items? = some items := by
  cases w with
  | scalar | bool | order | handle => cases h
  | pair | triple | quad => exact ⟨_, rfl⟩

/-- A text that no literal has: of one piece, and with an underscore in it. -/
structure IsLabel (s : String) : Prop where
  plain : ∀ c ∈ s.toList, isSeparator c = false
  underscore : '_' ∈ s.toList

theorem IsLabel.rendering {s : String} (h : IsLabel s) : Rendering s := by
  refine .plain ?_ h.plain
  rintro rfl
  exact absurd h.underscore (by simp)

variable [ToString H]

theorem text_of_items? {v : Value H} {items : List (Value H)} (h : v.items? = some items) :
    v.text = "[" ++ Primitive.commas (items.map text) ++ "]" := by
  cases v with
  | scalar | bool | order | handle => cases h
  | pair => cases h; simp [text, Primitive.commas, String.append_assoc]
  | triple => cases h; simp [text, Primitive.commas, String.append_assoc]
  | quad => cases h; simp [text, Primitive.commas, String.append_assoc]

theorem rendering_number (x : Float) : Rendering (Number.text x) := by
  obtain ⟨c, cs, hcs, -⟩ := Number.exists_cons_text x
  refine .plain ?_ fun c hc => ?_
  · intro h
    rw [h] at hcs
    cases hcs
  · rcases Number.mem_text hc with h | h | h
    · exact isSeparator_eq_false (.inl h)
    · exact isSeparator_eq_false (.inr (.inl h))
    · exact isSeparator_eq_false (.inr (.inr (.inl h)))

theorem rendering_truth (b : Bool) : Rendering (bool b : Value H).text := by
  cases b with
  | true => exact rendering_of_all (s := "TRUE") (by decide) (by decide)
  | false => exact rendering_of_all (s := "FALSE") (by decide) (by decide)

theorem rendering_keyword (o : RotateOrder) : Rendering o.keyword := by
  cases o <;> exact rendering_of_all (by decide) (by decide)

/-- Handles whose texts are labels and tell them apart. -/
structure Labels (P : H → Prop) : Prop where
  isLabel : ∀ {h : H}, P h → IsLabel (toString h)
  injective : ∀ {h h' : H}, P h → P h' → toString h = toString h' → h = h'

theorem labels_false : Labels fun _ : H => False where
  isLabel h := h.elim
  injective h := h.elim

/-- Two lists of renderings in brackets with one text are the same. -/
theorem commas_injective {items items' : List String} (hne : items ≠ []) (hne' : items' ≠ [])
    (hi : ∀ s ∈ items, Rendering s) (hi' : ∀ s ∈ items', Rendering s)
    (h : "[" ++ Primitive.commas items ++ "]" = "[" ++ Primitive.commas items' ++ "]") :
    items = items' := by
  have h := congrArg String.toList h
  rw [toList_bracket, toList_bracket] at h
  exact (commas_append_inj hne hne' (fun s hs => (hi s hs).append_inj) hi' (c := ']') (by decide)
    (by decide) (List.cons.inj h).2).1

/-- The kind of literal that a text starting with this character has: a bracket, a
    letter of a keyword, or what numbers start with. -/
def Kind.ofChar (c : Char) : Kind :=
  if c = '[' then .sequence
  else if c = 'T' ∨ c = 'F' then .truth
  else if c = 'X' ∨ c = 'Y' ∨ c = 'Z' then .order
  else .number

theorem Kind.ofChar_number {c : Char} (h : c = '-' ∨ c = 'N' ∨ c = 'i' ∨ c.isDigit = true) :
    ofChar c = .number := by
  have hne {d : Char} (hd : ¬(d = '-' ∨ d = 'N' ∨ d = 'i' ∨ d.isDigit = true)) : c ≠ d := by
    rintro rfl
    exact hd h
  rw [ofChar, if_neg (hne (by decide)), if_neg (not_or.2 ⟨hne (by decide), hne (by decide)⟩),
    if_neg (not_or.2 ⟨hne (by decide), not_or.2 ⟨hne (by decide), hne (by decide)⟩⟩)]

/-- The kind of value that a text has. -/
def Kind.ofChars : List Char → Kind
  | [] => .number
  | c :: cs => if c ≠ '[' ∧ '_' ∈ c :: cs then .handle else ofChar c

theorem Kind.ofChars_bracket (cs : List Char) : ofChars ('[' :: cs) = .sequence := by
  rw [ofChars, if_neg fun h => h.1 rfl]
  rfl

theorem Kind.ofChars_literal {c : Char} {cs : List Char} (h : '_' ∉ c :: cs) :
    ofChars (c :: cs) = ofChar c := by
  rw [ofChars, if_neg fun hc => h hc.2]

theorem IsLabel.ofChars {s : String} (h : IsLabel s) : Kind.ofChars s.toList = .handle := by
  obtain ⟨hplain, hmem⟩ := h
  cases hs : s.toList with
  | nil => simp [hs] at hmem
  | cons c cs =>
    rw [hs] at hplain hmem
    have hc : c ≠ '[' := by
      rintro rfl
      exact absurd (hplain '[' List.mem_cons_self) (by decide)
    rw [Kind.ofChars, if_pos ⟨hc, hmem⟩]

theorem kind_number (x : Float) : Kind.ofChars (Number.text x).toList = .number := by
  obtain ⟨c, cs, hcs, hc⟩ := Number.exists_cons_text x
  rw [hcs, Kind.ofChars_literal, Kind.ofChar_number hc]
  intro h
  rw [← hcs] at h
  exact absurd (Number.mem_text h) (by decide)

/-- The text of a value with labelled handles shows its kind. -/
theorem Over.ofChars_text {P : H → Prop} (hP : Labels P) {v : Value H} (h : v.Over P) :
    Kind.ofChars v.text.toList = v.kind := by
  have hsequence {v : Value H} {items : List (Value H)} (hi : v.items? = some items) :
      Kind.ofChars v.text.toList = .sequence := by
    rw [text_of_items? hi, toList_bracket, Kind.ofChars_bracket]
  cases v with
  | scalar x => exact kind_number x
  | bool b => cases b <;> simp [text, kind, Kind.ofChars, Kind.ofChar]
  | order o => cases o <;> simp [text, kind, RotateOrder.keyword, Kind.ofChars, Kind.ofChar]
  | pair a b => exact hsequence (v := pair a b) rfl
  | triple a b c => exact hsequence (v := triple a b c) rfl
  | quad a b c d => exact hsequence (v := quad a b c d) rfl
  | handle p => exact (hP.isLabel h).ofChars

/-- The text of a value is a rendering if the texts of its handles are. -/
theorem Over.rendering_text_of {P : H → Prop} (hP : ∀ h, P h → Rendering (toString h))
    {v : Value H} (h : v.Over P) : Rendering v.text := by
  induction v with
  | scalar x => exact rendering_number x
  | bool b => exact rendering_truth b
  | order o => exact rendering_keyword o
  | handle => exact hP _ h
  | pair a b iha ihb =>
    rw [text_of_items? (v := pair a b) rfl]
    refine .sequence (by simp) (by simp) ?_
    simpa using ⟨iha h.1, ihb h.2⟩
  | triple a b c iha ihb ihc =>
    rw [text_of_items? (v := triple a b c) rfl]
    refine .sequence (by simp) (by simp) ?_
    simpa using ⟨iha h.1, ihb h.2.1, ihc h.2.2⟩
  | quad a b c d iha ihb ihc ihd =>
    rw [text_of_items? (v := quad a b c d) rfl]
    refine .sequence (by simp) (by simp) ?_
    simpa using ⟨iha h.1, ihb h.2.1, ihc h.2.2.1, ihd h.2.2.2⟩

namespace Over

variable {P : H → Prop} (hP : Labels P)

include hP

/-- The text of a value with labelled handles is a rendering. -/
theorem rendering_text {v : Value H} (h : v.Over P) : Rendering v.text :=
  h.rendering_text_of fun _ hh => (hP.isLabel hh).rendering

theorem kind_eq_of_text_eq {v w : Value H} (hv : v.Over P) (hw : w.Over P)
    (h : v.text = w.text) : v.kind = w.kind := by
  rw [← hv.ofChars_text hP, ← hw.ofChars_text hP, h]

/-- The text of a sequence determines it, if the texts of its components do. -/
theorem text_injective_of_items {v : Value H} {items : List (Value H)} (hi : v.items? = some items)
    (hkind : v.kind = .sequence) (hv : v.Over P)
    (ih : ∀ a ∈ items, ∀ ⦃w : Value H⦄, w.Over P → a.text = w.text → a = w) ⦃w : Value H⦄
    (hw : w.Over P) (h : v.text = w.text) : v = w := by
  obtain ⟨items', hi'⟩ :=
    exists_items_of_kind ((kind_eq_of_text_eq hP hv hw h).symm.trans hkind)
  have hrender {v : Value H} (hv : v.Over P) {items : List (Value H)}
      (hi : v.items? = some items) : ∀ s ∈ items.map text, Rendering s := by
    intro s hs
    obtain ⟨a, ha, rfl⟩ := List.mem_map.1 hs
    exact rendering_text hP (hv.items hi a ha)
  rw [text_of_items? hi, text_of_items? hi'] at h
  have hmap := commas_injective (ne_nil_of_two_le (by simpa using (length_of_items? hi).1))
    (ne_nil_of_two_le (by simpa using (length_of_items? hi').1)) (hrender hv hi) (hrender hw hi') h
  have hitems := eq_of_map_eq (fun a ha b hb => ih a ha (hw.items hi' b hb)) hmap
  exact items?_injective hi (hitems ▸ hi')

/-- Two values with one text are one value. -/
theorem text_injective {v : Value H} (hv : v.Over P) ⦃w : Value H⦄ (hw : w.Over P)
    (h : v.text = w.text) : v = w := by
  induction v generalizing w with
  | scalar x =>
    cases w with
    | scalar y => rw [Number.text_injective h]
    | bool | order | pair | triple | quad | handle => cases kind_eq_of_text_eq hP hv hw h
  | bool b =>
    cases w with
    | bool b' => cases b <;> cases b' <;> simp_all [text]
    | scalar | order | pair | triple | quad | handle => cases kind_eq_of_text_eq hP hv hw h
  | order o =>
    cases w with
    | order o' =>
      have := congrArg RotateOrder.ofKeyword? h
      simpa [text] using this
    | scalar | bool | pair | triple | quad | handle => cases kind_eq_of_text_eq hP hv hw h
  | handle p =>
    cases w with
    | handle q => rw [hP.injective hv hw h]
    | scalar | bool | order | pair | triple | quad => cases kind_eq_of_text_eq hP hv hw h
  | pair a b iha ihb =>
    exact text_injective_of_items hP (v := pair a b) rfl rfl hv
      (by simpa using ⟨iha hv.1, ihb hv.2⟩) hw h
  | triple a b c iha ihb ihc =>
    exact text_injective_of_items hP (v := triple a b c) rfl rfl hv
      (by simpa using ⟨iha hv.1, ihb hv.2.1, ihc hv.2.2⟩) hw h
  | quad a b c d iha ihb ihc ihd =>
    exact text_injective_of_items hP (v := quad a b c d) rfl rfl hv
      (by simpa using ⟨iha hv.1, ihb hv.2.1, ihc hv.2.2.1, ihd hv.2.2.2⟩) hw h

end Over

/-- The text of a number is that of no other value, if no handle looks like a number. -/
theorem eq_scalar_of_text {v : Value H} {x : Float}
    (hv : ∀ p, v = .handle p → toString p ≠ Number.text x) (h : v.text = Number.text x) :
    v = .scalar x := by
  have hkind {w : Value H} (hw : w.IsLiteral) (h : w.text = Number.text x) : w.kind = .number := by
    rw [← (isLiteral_iff_over.1 hw).ofChars_text labels_false, h, kind_number]
  have hsequence {w : Value H} {items : List (Value H)} (hi : w.items? = some items) :
      w.text ≠ Number.text x := by
    intro h
    have hnumber := kind_number x
    rw [← h, text_of_items? hi, toList_bracket, Kind.ofChars_bracket] at hnumber
    cases hnumber
  cases v with
  | scalar y => rw [Number.text_injective h]
  | bool b => cases hkind (w := bool b) trivial h
  | order o => cases hkind (w := order o) trivial h
  | handle p => exact absurd h (hv p rfl)
  | pair a b => exact absurd h (hsequence (w := pair a b) rfl)
  | triple a b c => exact absurd h (hsequence (w := triple a b c) rfl)
  | quad a b c d => exact absurd h (hsequence (w := quad a b c d) rfl)

/-- Two literals have one text just if they are one literal: sequences are made up of the same
    literals in the same way, and numbers have the same bits, as zeros of either sign do not. -/
theorem text_eq_text_iff {v w : Value H} (hv : v.IsLiteral) (hw : w.IsLiteral) :
    v.text = w.text ↔ v = w := by
  constructor
  · exact (isLiteral_iff_over.1 hv).text_injective labels_false (isLiteral_iff_over.1 hw)
  · rintro rfl
    rfl

/-- A triple in a pair, beside the same parts in other brackets, and beside the same triple with a
    negative zero. -/
theorem text_eq_text_iff_nested :
    let left : Value String := .pair (.triple (.scalar 0) (.bool true) (.scalar 1.5)) (.order .xyz)
    let right : Value String := .pair (.scalar 0) (.triple (.bool true) (.scalar 1.5) (.order .xyz))
    let minus : Value String := .pair
      (.triple (.scalar (Float.ofBits 0x8000000000000000)) (.bool true) (.scalar 1.5)) (.order .xyz)
    left.text = "[[0, TRUE, 1.5], XYZ]" ∧ minus.text = "[[-0, TRUE, 1.5], XYZ]" ∧
      left.text ≠ right.text ∧ left.text ≠ minus.text := by
  intro left right minus
  have hleft : left.IsLiteral := ⟨⟨trivial, trivial, trivial⟩, trivial⟩
  have hright : right.IsLiteral := ⟨trivial, trivial, trivial, trivial⟩
  have hminus : minus.IsLiteral := ⟨⟨trivial, trivial, trivial⟩, trivial⟩
  refine ⟨by decide +kernel, by decide +kernel, fun h => ?_, fun h => ?_⟩
  · have heq : left = right := (text_eq_text_iff hleft hright).1 h
    injection heq with htriple
    cases htriple
  · have heq : left = minus := (text_eq_text_iff hleft hminus).1 h
    injection heq with htriple
    injection htriple with hscalar
    injection hscalar with hzero
    exact absurd hzero (by decide)

end Value

end RigExpr
