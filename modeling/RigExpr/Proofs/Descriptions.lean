import RigExpr.Calculator
import RigExpr.Compiler
import RigExpr.Proofs.Bindings
import RigExpr.Proofs.Grammar.Derivation

/-!
# Descriptions that two values share

Of two values with different texts each has a description of its own, with one exception: a
value that no name is bound to goes by its text, and that may be the name of another value
(`Bindings.Hides`). Where names are words this can happen to truth values, rotate orders,
handles, infinity and what is not a number, and to nothing else (`Value.TextIsWord`). Then two
applications have one signature, and the cache takes one for the other
(`Bindings.describe_confused`).

* `Bindings.Mirrors.describe_eq_iff`: when two values share a description.
* `Bindings.map_text_eq`: operands that are told apart by their descriptions.
-/

namespace RigExpr

namespace Bindings

variable {H : Type} [ToString H] {b : Bindings H} {pairs : List (String × Value H)} {v w : Value H}

/-! ## Descriptions of all values -/

/-- Every value that a name is bound to has a description. -/
def Covered (b : Bindings H) : Prop :=
  ∀ name v, b.values.get? name = some v → ∃ n, b.names.get? v.text = some n

theorem get?_release (values : Table String (Value H)) (names : Table String String)
    (old name key : String) :
    (release values names old name).get? key =
      if names.get? old = some name ∧ old = key then other? values old name
      else names.get? key := by
  rw [release]
  by_cases hname : names.get? old = some name
  · cases hother : other? values old name with
    | some next =>
      rw [if_pos hname, Table.get?_insert]
      simp [hname]
    | none =>
      rw [if_pos hname, Table.get?_erase]
      simp [hname]
  · simp [hname]

/-- Another name that is bound to the value can take over as its description. -/
theorem exists_other? {values : Table String (Value H)} {name n : String}
    (h : values.get? n = some v) (hne : n ≠ name) :
    ∃ next, other? values v.text name = some next := by
  refine Option.isSome_iff_exists.1 ?_
  rw [other?, Option.isSome_map, List.find?_isSome]
  exact ⟨(n, v), List.mem_reverse.2 (Table.mem_entries_of_get? h), by simp [hne]⟩

theorem Covered.bind (h : b.Covered) (name : String) (v : Value H) : (b.bind name v).Covered := by
  intro n u hu
  rw [Bindings.bind, Table.get?_insert]
  by_cases htext : v.text = u.text
  · exact ⟨name, if_pos htext⟩
  · rw [if_neg htext]
    have hne : n ≠ name := by
      rintro rfl
      rw [Bindings.bind, Table.get?_insert_self] at hu
      exact htext (congrArg Value.text (Option.some.inj hu))
    have hold : b.values.get? n = some u := by
      rwa [Bindings.bind, Table.get?_insert_of_ne _ _ (Ne.symm hne)] at hu
    split
    · next old _ =>
      rw [get?_release]
      split
      · next hrelease =>
        -- the name was its description, and `n` is bound to it too
        rw [hrelease.2]
        exact exists_other? hu hne
      · exact h n u hold
    · exact h n u hold

theorem covered_register (pairs : List (String × Value H)) :
    (empty.register pairs : Bindings H).Covered := by
  have hempty : (empty : Bindings H).Covered := fun _ _ h => by cases h
  suffices ∀ b : Bindings H, b.Covered → (b.register pairs).Covered from this empty hempty
  induction pairs with
  | nil => exact fun b h => h
  | cons p pairs ih => exact fun b h => ih _ (h.bind p.1 p.2)

/-! ## Values that share a description -/

/-- The text of `w` stands for `v`: no name is bound to a value with this text, and it is itself
    the name that describes `v`. -/
structure Hides (b : Bindings H) (v w : Value H) : Prop where
  unbound : ∀ name u, b.values.get? name = some u → u.text ≠ w.text
  bound : ∃ u, b.values.get? w.text = some u ∧ u.text = v.text
  described : b.describe v = w.text

namespace Mirrors

/-- A value is described by a name that is bound to a value with its text, or by its text. -/
theorem describe_cases (h : b.Mirrors) (v : Value H) :
    (b.names.get? v.text = some (b.describe v) ∧
      ∃ u, b.values.get? (b.describe v) = some u ∧ u.text = v.text) ∨
    b.names.get? v.text = none ∧ b.describe v = v.text := by
  rw [describe]
  cases hn : b.names.get? v.text with
  | none => exact .inr ⟨rfl, rfl⟩
  | some name => exact .inl ⟨rfl, h.text hn⟩

theorem hides_of_describe_eq (h : b.Mirrors) (hcovered : b.Covered) (hne : v.text ≠ w.text)
    (hnone : b.names.get? w.text = none) (heq : b.describe v = w.text) : b.Hides v w where
  unbound name u hu htext := by
    obtain ⟨n, hn⟩ := hcovered name u hu
    rw [htext, hnone] at hn
    cases hn
  bound := by
    rcases h.describe_cases v with ⟨-, hbound⟩ | ⟨-, htext⟩
    · rwa [heq] at hbound
    · exact absurd (htext.symm.trans heq) hne
  described := heq

theorem describe_eq_of_hides (h : b.Mirrors) (hides : b.Hides v w) :
    b.describe v = b.describe w := by
  rcases h.describe_cases w with ⟨-, u, hu, htext⟩ | ⟨-, htext⟩
  · exact absurd htext (hides.unbound _ u hu)
  · rw [hides.described, htext]

/-- Two values with different texts share a description just if one hides the other. -/
theorem describe_eq_iff (h : b.Mirrors) (hcovered : b.Covered) (hne : v.text ≠ w.text) :
    b.describe v = b.describe w ↔ b.Hides v w ∨ b.Hides w v := by
  constructor
  · intro heq
    rcases h.describe_cases v with ⟨-, u, hu, htext⟩ | ⟨hnone, htext⟩ <;>
      rcases h.describe_cases w with ⟨-, u', hu', htext'⟩ | ⟨hnone', htext'⟩
    · -- one name is bound to one value
      rw [heq, hu'] at hu
      exact absurd (htext.symm.trans (Option.some.inj hu ▸ htext')) hne
    · exact .inl (h.hides_of_describe_eq hcovered hne hnone' (heq.trans htext'))
    · exact .inr (h.hides_of_describe_eq hcovered (Ne.symm hne) hnone (heq.symm.trans htext))
    · exact absurd (htext.symm.trans (heq.trans htext')) hne
  · rintro (hides | hides)
    · exact h.describe_eq_of_hides hides
    · exact (h.describe_eq_of_hides hides).symm

end Mirrors

end Bindings

/-! ## Texts that are words -/

namespace Value

variable {H : Type} [ToString H]

/-- A value whose text can be a word. That of a truth value or a rotate order is a keyword. -/
def TextIsWord : Value H → Prop
  | scalar x => Number.text x = "NaN" ∨ Number.text x = "inf"
  | bool b => Token.ofWord (text (bool b : Value H)) ≠ .identifier (text (bool b : Value H))
  | order o => Token.ofWord o.keyword ≠ .identifier o.keyword
  | handle h => Lexeme.IsWord (toString h)
  | pair _ _ | triple _ _ _ | quad _ _ _ _ => False

theorem ofWord_keyword (o : RotateOrder) : Token.ofWord o.keyword = .rotateOrder o := by
  cases o <;> decide

theorem ofWord_truth (b : Bool) : ∃ c, Token.ofWord (bool b : Value H).text = .constant c := by
  cases b
  · exact ⟨.false, rfl⟩
  · exact ⟨.true, rfl⟩

theorem textIsWord {v : Value H} (h : Lexeme.IsWord v.text) : v.TextIsWord := by
  have hsequence {items : List (Value H)} (hi : v.items? = some items) : False := by
    obtain ⟨c, cs, hcs, hc, -⟩ := h
    rw [text_of_items? hi, toList_bracket] at hcs
    obtain ⟨rfl, -⟩ := List.cons.inj hcs
    exact absurd hc (by decide)
  cases v with
  | scalar x =>
    obtain ⟨c, cs, hcs, hc, -⟩ := h
    exact Number.text_eq_of_isAlpha hcs hc
  | bool b =>
    obtain ⟨c, hc⟩ := ofWord_truth (H := H) b
    simp [TextIsWord, hc]
  | order o => simp [TextIsWord, ofWord_keyword]
  | handle => exact h
  | pair | triple | quad => exact hsequence rfl

end Value

namespace Bindings

variable {H : Type} [ToString H] {b : Bindings H} {pairs : List (String × Value H)} {v w : Value H}

/-! ## Applications -/

theorem isWord_register (hwords : ∀ p ∈ pairs, Lexeme.IsWord p.1) {name : String}
    (h : (empty.register pairs).values.get? name = some v) : Lexeme.IsWord name :=
  forall_register (P := fun name _ => Lexeme.IsWord name) (fun _ _ h => by cases h) hwords h

theorem rendering_describe (hb : b.Mirrors)
    (hwords : ∀ {name : String} {v : Value H}, b.values.get? name = some v → Lexeme.IsWord name)
    (hv : Rendering v.text) : Rendering (b.describe v) := by
  rcases hb.describe_cases v with ⟨-, u, hu, -⟩ | ⟨-, htext⟩
  · exact rendering_of_isWord (hwords hu)
  · rwa [htext]

/-- Operands with the same descriptions have the same texts, if none hides another. -/
theorem map_text_eq (hb : b.Mirrors) (hcovered : b.Covered) {args args' : List (Value H)}
    (hides : ∀ v ∈ args, ∀ w ∈ args', ¬b.Hides v w ∧ ¬b.Hides w v)
    (h : args.map b.describe = args'.map b.describe) :
    args.map Value.text = args'.map Value.text := by
  induction args generalizing args' with
  | nil => rw [List.map_eq_nil_iff.1 h.symm]
  | cons v args ih =>
    obtain ⟨w, args', rfl, hw, hargs⟩ := List.map_eq_cons_iff.1 h.symm
    have htext : v.text = w.text := by
      by_contra hne
      have := (hb.describe_eq_iff hcovered hne).1 hw.symm
      have hnone := hides v List.mem_cons_self w List.mem_cons_self
      tauto
    rw [List.map_cons, List.map_cons, htext,
      ih (fun v hv w hw => hides v (List.mem_cons_of_mem _ hv) w (List.mem_cons_of_mem _ hw))
        hargs.symm]

/-- Two values that differ in their texts share a description just if one, which no name is bound
    to, has the name of the other as its text. Only a keyword, an infinity, what is not a number
    or a handle can have such a text. Applications of different primitives, or to operands that
    differ in their texts, have different signatures if no operand of one has the name of an
    operand of the other as its text. -/
theorem describe_eq_describe_iff (hwords : ∀ p ∈ pairs, Lexeme.IsWord p.1) :
    let b : Bindings H := empty.register pairs
    (∀ v w, v.text ≠ w.text → (b.describe v = b.describe w ↔ b.Hides v w ∨ b.Hides w v)) ∧
    (∀ v w, b.Hides v w → w.TextIsWord) ∧
    ∀ (p q : Primitive) (args args' : List (Value H)),
      p.accepts args.length = true → q.accepts args'.length = true → p.HasName → q.HasName →
      (∀ v ∈ args ++ args', Rendering v.text) →
      (∀ v ∈ args, ∀ w ∈ args', ¬b.Hides v w ∧ ¬b.Hides w v) →
      p.signature (args.map b.describe) = q.signature (args'.map b.describe) →
      p = q ∧ args.map Value.text = args'.map Value.text := by
  intro b
  have hb : b.Mirrors := mirrors_register pairs
  have hcovered : b.Covered := covered_register pairs
  refine ⟨fun v w hne => hb.describe_eq_iff hcovered hne, fun v w hides => ?_, ?_⟩
  · obtain ⟨u, hu, -⟩ := hides.bound
    exact Value.textIsWord (isWord_register hwords hu)
  · intro p q args args' hp hq hpn hqn hrendering hides h
    have hdescribe : ∀ v ∈ args ++ args', Rendering (b.describe v) := fun v hv =>
      rendering_describe hb (isWord_register hwords) (hrendering v hv)
    obtain ⟨hpq, hargs⟩ := Primitive.signature_injective (by simpa using hp) (by simpa using hq)
      hpn hqn (List.forall_mem_map.2 fun v hv => hdescribe v (List.mem_append_left _ hv))
      (List.forall_mem_map.2 fun v hv => hdescribe v (List.mem_append_right _ hv)) h
    exact ⟨hpq, map_text_eq hb hcovered hides hargs⟩

/-- The text of an infinite number may be a name. -/
theorem isWord_inf : Lexeme.IsWord "inf" :=
  ⟨'i', ['n', 'f'], rfl, by decide, List.all_eq_true.1 rfl⟩

/-- With the name `inf` for `2`, the sums `2 + 3` and `3 + 2` are told apart. -/
theorem describe_eq_describe_iff_sum :
    let b : Bindings Calculator.Name := empty.register [("inf", .scalar 2)]
    Lexeme.IsWord "inf" ∧ b.describe (.scalar 2) ≠ b.describe (.scalar 3) ∧
      (Primitive.binary .add).signature ([.scalar 2, .scalar 3].map b.describe) ≠
        (Primitive.binary .add).signature ([.scalar 3, .scalar 2].map b.describe) := by
  intro b
  have htext : Number.text 2 = "2" ∧ Number.text 3 = "3" := by decide +kernel
  have hne : Number.text 2 ≠ Number.text 3 := by simp [htext]
  -- neither number has the name as its text
  have hhides : ∀ w ∈ [.scalar 2, .scalar 3], ∀ v, ¬b.Hides v w := by
    rintro w hw v ⟨-, ⟨u, hu, -⟩, -⟩
    rcases List.mem_pair.1 hw with rfl | rfl
    · rw [Value.text, htext.1] at hu
      cases hu
    · rw [Value.text, htext.2] at hu
      cases hu
  obtain ⟨hdescribe, -, hsignature⟩ :=
    @describe_eq_describe_iff Calculator.Name _ [("inf", .scalar 2)] (by simpa using isWord_inf)
  refine ⟨isWord_inf, fun h => ?_, fun h => ?_⟩
  · rcases (hdescribe (.scalar 2) (.scalar 3) hne).1 h with h | h
    · exact hhides _ (by simp) _ h
    · exact hhides _ (by simp) _ h
  · obtain ⟨-, htexts⟩ := hsignature (.binary .add) (.binary .add) [.scalar 2, .scalar 3]
      [.scalar 3, .scalar 2] rfl rfl trivial trivial
      (by simp [Value.rendering_number, Value.text])
      (fun v hv w hw => ⟨hhides w (List.mem_pair.2 (List.mem_pair.1 hw).symm) v, hhides v hv w⟩) h
    exact hne (List.cons.inj htexts).1

/-- With the name `inf` for `2`, an infinite number has the description of `2`: of the two sums in
    `(inf + 1) - (1e999 + 1)` only the second is computed, and is taken for the first. -/
theorem describe_confused :
    let pairs : List (String × Value Calculator.Name) := [("inf", .scalar 2)]
    let b := empty.register pairs
    let c : Compiler Calculator Calculator.Name := { evaluation := { backend := {} } }
    let after := ((Compiler.emit "(inf + 1) - (1e999 + 1)" pairs).runOn ⟨c, []⟩).2.state
    (∀ p ∈ pairs, Lexeme.IsWord p.1) ∧
      (.scalar 2 : Value Calculator.Name).text ≠ (.scalar (1 / 0) : Value Calculator.Name).text ∧
      b.describe (.scalar 2) = b.describe (.scalar (1 / 0)) ∧
      after.evaluation.backend.calls = ["add(inf, 1)", "subtract(inf, inf)"] := by
  refine ⟨?_, by decide +kernel, by decide +kernel, by decide +kernel⟩
  simpa using isWord_inf

end Bindings

end RigExpr
