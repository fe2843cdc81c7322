import RigExpr.Primitive

/-!
# Signatures

The signature of an application determines the primitive and the descriptions of
its operands (`Primitive.signature_injective`). A description is a *rendering*: a
text without separators, or renderings in brackets. A rendering at the start of a
text is delimited by what follows it, and so the parts of a signature can be read
off one after the other.

* `Rendering.append_inj`: two renderings, each followed by a separator, that start
  one text are the same.
-/

namespace RigExpr

/-- The characters that separate the parts of a signature. -/
def isSeparator (c : Char) : Bool :=
  c = ' ' || c = ',' || c = '(' || c = ')' || c = '[' || c = ']'

theorem isSeparator_eq_false {c : Char}
    (h : c.isAlphanum = true ∨ c = '.' ∨ c = '-' ∨ c = '_' ∨ c = '$') : isSeparator c = false := by
  rw [Bool.eq_false_iff]
  intro hsep
  simp only [isSeparator, Bool.or_eq_true, decide_eq_true_eq] at hsep
  rcases hsep with ((((rfl | rfl) | rfl) | rfl) | rfl) | rfl <;> exact absurd h (by decide)

/-- A text that describes an operand: it is free of separators, or it has two to
    four renderings in brackets. -/
inductive Rendering : String → Prop
  | plain {s : String} (hne : s ≠ "") (hs : ∀ c ∈ s.toList, isSeparator c = false) : Rendering s
  | sequence {items : List String} (hlow : 2 ≤ items.length) (hhigh : items.length ≤ 4)
      (hitems : ∀ s ∈ items, Rendering s) : Rendering ("[" ++ Primitive.commas items ++ "]")

theorem rendering_of_all {s : String} (hne : s ≠ "")
    (hs : s.toList.all (fun c => !isSeparator c) = true) : Rendering s :=
  .plain hne (by simpa using hs)

/-! ## Reading renderings off a text -/

/-- The text is over, or goes on with a separator. -/
def Separated : List Char → Prop
  | [] => True
  | c :: _ => isSeparator c = true

theorem separated_cons {c : Char} {cs : List Char} (h : isSeparator c = true) :
    Separated (c :: cs) := h

/-- A text without separators ends where a separator follows. -/
theorem plain_append_inj {s s' x x' : List Char} (hs : ∀ c ∈ s, isSeparator c = false)
    (hs' : ∀ c ∈ s', isSeparator c = false) (h : s ++ x = s' ++ x') (hx : Separated x)
    (hx' : Separated x') : s = s' ∧ x = x' := by
  induction s generalizing s' with
  | nil =>
    cases s' with
    | nil => exact ⟨rfl, h⟩
    | cons c' s' =>
      have h : x = c' :: (s' ++ x') := h
      rw [h] at hx
      exact absurd hx (by rw [Separated, hs' c' List.mem_cons_self]; decide)
  | cons c s ih =>
    cases s' with
    | nil =>
      have h : c :: (s ++ x) = x' := h
      rw [← h] at hx'
      exact absurd hx' (by rw [Separated, hs c List.mem_cons_self]; decide)
    | cons c' s' =>
      obtain ⟨rfl, htail⟩ := List.cons.inj h
      obtain ⟨rfl, rfl⟩ := ih (fun c hc => hs c (List.mem_cons_of_mem _ hc))
        (fun c hc => hs' c (List.mem_cons_of_mem _ hc)) htail
      exact ⟨rfl, rfl⟩

/-- The rendering is delimited by what follows it, which a closing bracket makes
    sure of. -/
def Delimited (s : String) (x : List Char) : Prop := s.toList.head? = some '[' ∨ Separated x

/-- Two texts of this kind that start one text are the same. -/
def AppendInj (s : String) : Prop :=
  ∀ ⦃s' : String⦄ ⦃x x' : List Char⦄, Rendering s' → s.toList ++ x = s'.toList ++ x' →
    Delimited s x → Delimited s' x' → s = s' ∧ x = x'

theorem toList_commas_singleton (s : String) : (Primitive.commas [s]).toList = s.toList := by
  simp [Primitive.commas]

theorem toList_commas_cons (s t : String) (rest : List String) :
    (Primitive.commas (s :: t :: rest)).toList =
      s.toList ++ ',' :: ' ' :: (Primitive.commas (t :: rest)).toList := by
  simp [Primitive.commas, String.intercalate_cons_cons]

/-- Renderings with commas between them, up to a separator that is none. -/
theorem commas_append_inj {items items' : List String} (hne : items ≠ []) (hne' : items' ≠ [])
    (hitems : ∀ s ∈ items, AppendInj s) (hitems' : ∀ s ∈ items', Rendering s) {c : Char}
    (hc : isSeparator c = true) (hcomma : c ≠ ',') {x x' : List Char}
    (h : (Primitive.commas items).toList ++ c :: x = (Primitive.commas items').toList ++ c :: x') :
    items = items' ∧ x = x' := by
  induction items generalizing items' with
  | nil => exact absurd rfl hne
  | cons s rest ih =>
    have hs := hitems s List.mem_cons_self
    cases items' with
    | nil => exact absurd rfl hne'
    | cons s' rest' =>
      have hs' := hitems' s' List.mem_cons_self
      cases rest with
      | nil =>
        rw [toList_commas_singleton] at h
        cases rest' with
        | nil =>
          rw [toList_commas_singleton] at h
          obtain ⟨rfl, htail⟩ := hs hs' h (.inr hc) (.inr hc)
          exact ⟨rfl, (List.cons.inj htail).2⟩
        | cons t' rest' =>
          rw [toList_commas_cons, List.append_assoc] at h
          obtain ⟨-, h⟩ := hs hs' h (.inr hc) (.inr (separated_cons (by decide)))
          exact absurd (List.cons.inj h).1 hcomma
      | cons t rest =>
        rw [toList_commas_cons, List.append_assoc] at h
        cases rest' with
        | nil =>
          rw [toList_commas_singleton] at h
          obtain ⟨-, h⟩ := hs hs' h (.inr (separated_cons (by decide))) (.inr hc)
          exact absurd (List.cons.inj h).1.symm hcomma
        | cons t' rest' =>
          rw [toList_commas_cons, List.append_assoc] at h
          obtain ⟨rfl, htail⟩ := hs hs' h (.inr (separated_cons (by decide)))
            (.inr (separated_cons (by decide)))
          have htail := (List.cons.inj (List.cons.inj htail).2).2
          obtain ⟨hrest, hx⟩ := ih (List.cons_ne_nil _ _) (List.cons_ne_nil _ _)
            (fun s hs => hitems s (List.mem_cons_of_mem _ hs))
            (fun s hs => hitems' s (List.mem_cons_of_mem _ hs)) htail
          exact ⟨by rw [hrest], hx⟩

theorem toList_bracket (items : List String) :
    ("[" ++ Primitive.commas items ++ "]").toList =
      '[' :: ((Primitive.commas items).toList ++ [']']) := by
  simp

theorem exists_cons_of_plain {s : String} (hne : s ≠ "")
    (hs : ∀ c ∈ s.toList, isSeparator c = false) :
    ∃ c cs, s.toList = c :: cs ∧ isSeparator c = false := by
  obtain ⟨c, cs, hcs⟩ := List.exists_cons_of_ne_nil fun h => hne (String.toList_eq_nil_iff.1 h)
  exact ⟨c, cs, hcs, hs c (by rw [hcs]; exact List.mem_cons_self)⟩

/-- What has no separators does not start as what is in brackets. -/
theorem plain_append_ne_bracket {s : String} (hne : s ≠ "")
    (hs : ∀ c ∈ s.toList, isSeparator c = false) (x x' : List Char) :
    s.toList ++ x ≠ '[' :: x' := by
  intro h
  obtain ⟨c, cs, hcs, hc⟩ := exists_cons_of_plain hne hs
  rw [hcs] at h
  obtain ⟨rfl, -⟩ := List.cons.inj h
  exact absurd hc (by decide)

theorem not_head?_bracket {s : String} (hs : ∀ c ∈ s.toList, isSeparator c = false) :
    s.toList.head? ≠ some '[' := by
  intro h
  have := hs '[' (List.mem_of_mem_head? h)
  exact absurd this (by decide)

theorem ne_nil_of_two_le {items : List String} (h : 2 ≤ items.length) : items ≠ [] := by
  rintro rfl
  exact absurd h (by decide)

theorem Rendering.append_inj {s : String} (h : Rendering s) : AppendInj s := by
  induction h with
  | plain hne hs =>
    intro s' x x' h' heq hx hx'
    cases h' with
    | plain hne' hs' =>
      obtain ⟨hss, hxx⟩ := plain_append_inj hs hs' heq
        (hx.resolve_left (not_head?_bracket hs)) (hx'.resolve_left (not_head?_bracket hs'))
      exact ⟨String.toList_injective hss, hxx⟩
    | sequence =>
      rw [toList_bracket] at heq
      exact absurd heq (plain_append_ne_bracket hne hs _ _)
  | sequence hlow _ _ ih =>
    intro s' x x' h' heq hx hx'
    rw [toList_bracket] at heq
    cases h' with
    | plain hne' hs' => exact absurd heq.symm (plain_append_ne_bracket hne' hs' _ _)
    | sequence hlow' _ hitems' =>
      rw [toList_bracket, List.cons_append, List.cons_append, List.cons.injEq, List.append_assoc,
        List.append_assoc] at heq
      obtain ⟨rfl, rfl⟩ := commas_append_inj (ne_nil_of_two_le hlow) (ne_nil_of_two_le hlow') ih
        hitems' (c := ']') (by decide) (by decide) heq.2
      exact ⟨rfl, rfl⟩

/-- A rendering and a separator do not start as a component access. -/
theorem separated_ne_access {s a : String} {c : Char} {x name : List Char} (hs : Rendering s)
    (hc : isSeparator c = true) (ha : Rendering a) (hname : ∀ c ∈ name, isSeparator c = false) :
    s.toList ++ c :: x ≠ a.toList ++ '.' :: name := by
  intro h
  cases ha with
  | plain hne ha =>
    -- the access as a whole has no separators
    have hplain : ∀ d ∈ a.toList ++ '.' :: name, isSeparator d = false := by
      intro d hd
      rcases List.mem_append.1 hd with hd | hd
      · exact ha d hd
      · rcases List.mem_cons.1 hd with rfl | hd
        · decide
        · exact hname d hd
    have := hplain c (by rw [← h]; simp)
    rw [hc] at this
    cases this
  | sequence hlow hhigh hitems =>
    obtain ⟨-, h⟩ := hs.append_inj (.sequence hlow hhigh hitems) h (.inr hc) (.inl (by simp))
    obtain ⟨rfl, -⟩ := List.cons.inj h
    exact absurd hc (by decide)

/-- What stands after the last `c` of a text. -/
theorem last_inj {c : Char} {s s' name name' : List Char} (hname : c ∉ name) (hname' : c ∉ name')
    (h : s ++ c :: name = s' ++ c :: name') : s = s' ∧ name = name' := by
  have hrev := congrArg List.reverse h
  simp only [List.reverse_append, List.reverse_cons, List.append_assoc, List.singleton_append]
    at hrev
  have htake := congrArg (List.takeWhile (· ≠ c)) hrev
  have hne {name : List Char} (hname : c ∉ name) {rest : List Char} :
      (name.reverse ++ c :: rest).takeWhile (· ≠ c) = name.reverse := by
    rw [List.takeWhile_append_of_pos]
    · simp
    · intro d hd
      have : d ≠ c := fun hd' => hname (hd' ▸ List.mem_reverse.1 hd)
      simpa using this
  rw [hne hname, hne hname'] at htake
  obtain rfl := List.reverse_inj.1 htake
  exact ⟨List.append_cancel_right h, rfl⟩

/-! ## The parts of a signature -/

namespace Primitive

/-- Whether the primitive takes this many operands. -/
def accepts : Primitive → Nat → Bool
  | binary _, n => n = 2
  | condition _, n => n = 4
  | list, n => 2 ≤ n && n ≤ 4
  | call f, n => f.arity.accepts n
  | negate, n | not, n | component _, n => n = 1

/-- The word that stands before the operands of a primitive, if it is written so. -/
def word? : Primitive → Option String
  | negate => some "-"
  | not => some "!"
  | list => some Token.listName
  | call f => some f.name
  | _ => none

/-- The name of a component as sources write it: a word. -/
def HasName : Primitive → Prop
  | component which =>
    which = .ofName which.text ∧ ∀ c ∈ which.text.toList, isSeparator c = false ∧ c ≠ '.'
  | _ => True

/-- The characters of the signature of an application, by the kind of primitive. -/
inductive Layout : Primitive → List String → List Char → Prop
  | word {p : Primitive} {w : String} {args : List String} {cs : List Char}
      (hw : p.word? = some w) (hargs : args ≠ [])
      (h : cs = w.toList ++ '(' :: ((commas args).toList ++ [')'])) : Layout p args cs
  | binary {op : BinaryOp} {a b : String} {cs : List Char}
      (h : cs = a.toList ++ ' ' :: (op.symbol.toList ++ ' ' :: b.toList)) :
      Layout (binary op) [a, b] cs
  | condition {test : Comparison} {a b c d : String} {cs : List Char}
      (h : cs = a.toList ++ ' ' :: (test.symbol.toList ++ ' ' :: (b.toList ++ ' ' :: '?' :: ' ' ::
        (c.toList ++ ' ' :: ':' :: ' ' :: d.toList)))) :
      Layout (condition test) [a, b, c, d] cs
  | access {which : Component} {a : String} {cs : List Char}
      (h : cs = a.toList ++ '.' :: which.text.toList) : Layout (component which) [a] cs

theorem layout {p : Primitive} {args : List String} (h : p.accepts args.length = true) :
    Layout p args (p.signature args).toList := by
  cases p with
  | binary op =>
    match args, of_decide_eq_true h with
    | [a, b], _ => exact .binary (by simp [signature])
  | negate =>
    obtain ⟨a, rfl⟩ := List.length_eq_one_iff.1 (of_decide_eq_true h)
    exact .word rfl (List.cons_ne_nil _ _) (by simp [signature, toList_commas_singleton])
  | not =>
    obtain ⟨a, rfl⟩ := List.length_eq_one_iff.1 (of_decide_eq_true h)
    exact .word rfl (List.cons_ne_nil _ _) (by simp [signature, toList_commas_singleton])
  | condition test =>
    match args, of_decide_eq_true h with
    | [a, b, c, d], _ => exact .condition (by simp [signature])
  | component which =>
    obtain ⟨a, rfl⟩ := List.length_eq_one_iff.1 (of_decide_eq_true h)
    exact .access (by simp [signature])
  | list =>
    refine .word rfl ?_ (by simp [signature])
    rintro rfl
    exact absurd h (by decide)
  | call f =>
    refine .word rfl ?_ (by simp [signature])
    rintro rfl
    exact absurd h (by rw [accepts, List.length_nil, f.accepts_zero]; decide)

/-- The words before operands have no separators. -/
theorem rendering_of_word? {p : Primitive} {w : String} (h : p.word? = some w) : Rendering w := by
  cases p with
  | binary | condition | component => cases h
  | negate | not | list => cases h; exact rendering_of_all (by decide) (by decide)
  | call f => cases h; cases f <;> exact rendering_of_all (by decide) (by decide)

/-- The primitive with this word before its operands. -/
def ofWord? (w : String) : Option Primitive :=
  if w = "-" then some .negate
  else if w = "!" then some .not
  else if w = Token.listName then some .list
  else (Function.ofName? w).map .call

theorem ofWord?_of_word? {p : Primitive} {w : String} (h : p.word? = some w) :
    ofWord? w = some p := by
  cases p with
  | binary | condition | component => cases h
  | negate | not | list => cases h; rfl
  | call f => cases h; cases f <;> rfl

theorem word?_injective {p q : Primitive} {w : String} (hp : p.word? = some w)
    (hq : q.word? = some w) : p = q := by
  have h := ofWord?_of_word? hp
  rw [ofWord?_of_word? hq] at h
  exact (Option.some.inj h).symm

theorem rendering_symbol (op : BinaryOp) : Rendering op.symbol := by
  cases op <;> exact rendering_of_all (by decide) (by decide)

theorem rendering_symbol_of_comparison (test : Comparison) : Rendering test.symbol := by
  cases test <;> exact rendering_of_all (by decide) (by decide)

theorem symbol_injective {op op' : BinaryOp} (h : op.symbol = op'.symbol) : op = op' := by
  cases op <;> cases op' <;> first | rfl | exact absurd h (by decide)

theorem symbol_injective_of_comparison {test test' : Comparison} (h : test.symbol = test'.symbol) :
    test = test' := by
  cases test <;> cases test' <;> first | rfl | exact absurd h (by decide)

theorem symbol_ne_symbol (op : BinaryOp) (test : Comparison) : op.symbol ≠ test.symbol := by
  cases op <;> cases test <;> decide

/-- A parenthesis does not follow as a blank does. -/
theorem word_ne_operator {w a : String} {x x' : List Char} (hw : Rendering w) (ha : Rendering a) :
    w.toList ++ '(' :: x ≠ a.toList ++ ' ' :: x' := by
  intro h
  obtain ⟨-, h⟩ := hw.append_inj ha h (.inr (separated_cons (by decide)))
    (.inr (separated_cons (by decide)))
  exact absurd (List.cons.inj h).1 (by decide)

/-- Two renderings with blanks after them. -/
theorem blank_append_inj {a a' : String} {x x' : List Char} (ha : Rendering a) (ha' : Rendering a')
    (h : a.toList ++ ' ' :: x = a'.toList ++ ' ' :: x') : a = a' ∧ x = x' := by
  obtain ⟨haa, h⟩ := ha.append_inj ha' h (.inr (separated_cons (by decide)))
    (.inr (separated_cons (by decide)))
  exact ⟨haa, (List.cons.inj h).2⟩

theorem HasName.isSeparator {which : Component} (h : (component which).HasName) :
    ∀ c ∈ which.text.toList, isSeparator c = false := fun c hc => (h.2 c hc).1

theorem HasName.point {which : Component} (h : (component which).HasName) :
    '.' ∉ which.text.toList := fun hc => (h.2 '.' hc).2 rfl

/-- The signature of an application determines the primitive and the descriptions of
    its operands. -/
theorem signature_injective {p q : Primitive} {args args' : List String}
    (hp : p.accepts args.length = true) (hq : q.accepts args'.length = true) (hpn : p.HasName)
    (hqn : q.HasName) (hargs : ∀ s ∈ args, Rendering s) (hargs' : ∀ s ∈ args', Rendering s)
    (h : p.signature args = q.signature args') : p = q ∧ args = args' := by
  have hp := layout hp
  have hq := layout hq
  rw [h] at hp
  generalize (q.signature args').toList = cs at hp hq
  cases hp with
  | word hw hne heq =>
    have hword := rendering_of_word? hw
    cases hq with
    | word hw' hne' heq' =>
      obtain ⟨rfl, hrest⟩ := hword.append_inj (rendering_of_word? hw') (heq.symm.trans heq')
        (.inr (separated_cons (by decide))) (.inr (separated_cons (by decide)))
      obtain ⟨rfl, -⟩ := commas_append_inj hne hne' (fun s hs => (hargs s hs).append_inj) hargs'
        (c := ')') (by decide) (by decide) (List.cons.inj hrest).2
      exact ⟨word?_injective hw hw', rfl⟩
    | binary heq' =>
      exact absurd (heq.symm.trans heq') (word_ne_operator hword (hargs' _ (by simp)))
    | condition heq' =>
      exact absurd (heq.symm.trans heq') (word_ne_operator hword (hargs' _ (by simp)))
    | access heq' =>
      exact absurd (heq.symm.trans heq')
        (separated_ne_access hword (by decide) (hargs' _ (by simp)) hqn.isSeparator)
  | binary heq =>
    have ha := hargs _ List.mem_cons_self
    cases hq with
    | word hw' _ heq' =>
      exact absurd (heq'.symm.trans heq) (word_ne_operator (rendering_of_word? hw') ha)
    | binary heq' =>
      obtain ⟨rfl, hrest⟩ := blank_append_inj ha (hargs' _ (by simp)) (heq.symm.trans heq')
      obtain ⟨hop, hb⟩ := blank_append_inj (rendering_symbol _) (rendering_symbol _) hrest
      rw [symbol_injective hop, String.toList_injective hb]
      exact ⟨rfl, rfl⟩
    | condition heq' =>
      obtain ⟨-, hrest⟩ := blank_append_inj ha (hargs' _ (by simp)) (heq.symm.trans heq')
      obtain ⟨hop, -⟩ :=
        blank_append_inj (rendering_symbol _) (rendering_symbol_of_comparison _) hrest
      exact absurd hop (symbol_ne_symbol _ _)
    | access heq' =>
      exact absurd (heq.symm.trans heq')
        (separated_ne_access ha (by decide) (hargs' _ (by simp)) hqn.isSeparator)
  | condition heq =>
    have ha := hargs _ List.mem_cons_self
    cases hq with
    | word hw' _ heq' =>
      exact absurd (heq'.symm.trans heq) (word_ne_operator (rendering_of_word? hw') ha)
    | binary heq' =>
      obtain ⟨-, hrest⟩ := blank_append_inj ha (hargs' _ (by simp)) (heq.symm.trans heq')
      obtain ⟨hop, -⟩ :=
        blank_append_inj (rendering_symbol_of_comparison _) (rendering_symbol _) hrest
      exact absurd hop.symm (symbol_ne_symbol _ _)
    | condition heq' =>
      obtain ⟨rfl, h₁⟩ := blank_append_inj ha (hargs' _ (by simp)) (heq.symm.trans heq')
      obtain ⟨htest, h₂⟩ := blank_append_inj (rendering_symbol_of_comparison _)
        (rendering_symbol_of_comparison _) h₁
      obtain ⟨rfl, h₃⟩ := blank_append_inj (hargs _ (by simp)) (hargs' _ (by simp)) h₂
      rw [List.cons.injEq, List.cons.injEq] at h₃
      obtain ⟨rfl, h₄⟩ := blank_append_inj (hargs _ (by simp)) (hargs' _ (by simp)) h₃.2.2
      rw [List.cons.injEq, List.cons.injEq] at h₄
      rw [symbol_injective_of_comparison htest, String.toList_injective h₄.2.2]
      exact ⟨rfl, rfl⟩
    | access heq' =>
      exact absurd (heq.symm.trans heq')
        (separated_ne_access ha (by decide) (hargs' _ (by simp)) hqn.isSeparator)
  | access heq =>
    have ha := hargs _ List.mem_cons_self
    cases hq with
    | word hw' _ heq' =>
      exact absurd (heq'.symm.trans heq) (separated_ne_access (rendering_of_word? hw') (by decide)
        ha hpn.isSeparator)
    | binary heq' =>
      exact absurd (heq'.symm.trans heq) (separated_ne_access (hargs' _ (by simp)) (by decide)
        ha hpn.isSeparator)
    | condition heq' =>
      exact absurd (heq'.symm.trans heq) (separated_ne_access (hargs' _ (by simp)) (by decide)
        ha hpn.isSeparator)
    | access heq' =>
      obtain ⟨hs, hname⟩ := last_inj hpn.point hqn.point (heq.symm.trans heq')
      rw [hpn.1, hqn.1, String.toList_injective hname, String.toList_injective hs]
      exact ⟨rfl, rfl⟩

end Primitive

end RigExpr
