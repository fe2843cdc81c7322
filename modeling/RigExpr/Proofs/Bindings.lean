import RigExpr.Bindings
import RigExpr.Proofs.Lexeme
import RigExpr.Proofs.Table
import RigExpr.Proofs.Value

/-!
# Bindings and descriptions

However names were bound, one after the other, the name that describes a value is
bound to a value with the same text (`Bindings.mirrors_register`). So descriptions
tell values apart (`Bindings.Over.describe_injective`), except where the text of one
is the name of another.
-/

namespace RigExpr

namespace Bindings

variable {H : Type}

/-- What holds of all pairs that were bound holds of each name and its value. -/
theorem forall_register {P : String → Value H → Prop} [ToString H] {b : Bindings H}
    {pairs : List (String × Value H)} (hb : ∀ name v, b.values.get? name = some v → P name v)
    (hpairs : ∀ p ∈ pairs, P p.1 p.2) {name : String} {v : Value H}
    (h : (b.register pairs).values.get? name = some v) : P name v := by
  induction pairs generalizing b with
  | nil => exact hb name v h
  | cons p pairs ih =>
    refine ih (b := b.bind p.1 p.2) ?_ (fun q hq => hpairs q (List.mem_cons_of_mem _ hq)) h
    intro name v hv
    rw [bind, Table.get?_insert] at hv
    split at hv
    · next heq =>
      cases hv
      exact heq ▸ hpairs p List.mem_cons_self
    · exact hb name v hv

@[simp] theorem values_resolve (b : Bindings H) (name : String) :
    (b.resolve name).2.values = b.values := by
  unfold resolve
  split <;> rfl

@[simp] theorem names_resolve (b : Bindings H) (name : String) :
    (b.resolve name).2.names = b.names := by
  unfold resolve
  split <;> rfl

variable [ToString H]

/-- A name has the value that it was bound to last. -/
theorem get?_values_register_eq (b : Bindings H) (pairs : List (String × Value H))
    (name : String) :
    (b.register pairs).values.get? name =
      ((pairs.reverse.find? fun p => p.1 = name).map (·.2)).or (b.values.get? name) := by
  induction pairs generalizing b with
  | nil => rfl
  | cons p pairs ih =>
    rw [register, List.foldl_cons, ← register, ih, bind, Table.get?_insert, List.reverse_cons,
      List.find?_append]
    cases pairs.reverse.find? fun p => p.1 = name with
    | some q => rfl
    | none =>
      by_cases hp : p.1 = name
      · simp [hp]
      · simp [hp]

/-- The names that describe values are bound to values with these texts. -/
structure Mirrors (b : Bindings H) : Prop where
  nodup : b.values.keys.Nodup
  text : ∀ {key name : String}, b.names.get? key = some name →
    ∃ v, b.values.get? name = some v ∧ v.text = key

theorem mirrors_empty : (empty : Bindings H).Mirrors where
  nodup := List.nodup_nil
  text h := by cases h

theorem exists_of_other? {values : Table String (Value H)} (hnodup : values.keys.Nodup)
    {key name next : String} (h : other? values key name = some next) :
    ∃ v, values.get? next = some v ∧ v.text = key := by
  obtain ⟨e, he, rfl⟩ := Option.map_eq_some_iff.1 h
  have hmem := List.mem_reverse.1 (List.mem_of_find?_eq_some he)
  have hfound : e.1 ≠ name ∧ e.2.text = key := by simpa using List.find?_some he
  exact ⟨e.2, Table.get?_of_mem hnodup hmem, hfound.2⟩

/-- A name that takes a new value is released as the description of its old one, so
    that all descriptions are right again. -/
theorem text_of_release {values : Table String (Value H)} (hnodup : values.keys.Nodup)
    {names : Table String String} {old name : String}
    (hnames : ∀ {key n : String}, names.get? key = some n →
      n = name ∧ key = old ∨ ∃ v, values.get? n = some v ∧ v.text = key)
    {key n : String} (h : (release values names old name).get? key = some n) :
    ∃ v, values.get? n = some v ∧ v.text = key := by
  rw [release] at h
  split at h
  · split at h
    · next next hnext =>
      rw [Table.get?_insert] at h
      split at h
      · next heq =>
        cases h
        exact heq ▸ exists_of_other? hnodup hnext
      · next hne => exact (hnames h).resolve_left fun hn => hne hn.2.symm
    · rw [Table.get?_erase] at h
      split at h
      · cases h
      · next hne => exact (hnames h).resolve_left fun hn => hne hn.2.symm
  · next hother =>
    refine (hnames h).resolve_left ?_
    rintro ⟨rfl, rfl⟩
    exact hother h

theorem Mirrors.bind {b : Bindings H} (h : b.Mirrors) (name : String) (v : Value H) :
    (b.bind name v).Mirrors := by
  have hnodup : (b.values.insert name v).keys.Nodup := Table.nodup_keys_insert h.nodup name v
  refine ⟨hnodup, fun {key n} hn => ?_⟩
  -- a description from before is right, or it is that of the old value of the name
  have hbefore {key n : String} (hn : b.names.get? key = some n) :
      n = name ∧ (∃ old, b.values.get? name = some old ∧ key = old.text) ∨
        ∃ u, (b.values.insert name v).get? n = some u ∧ u.text = key := by
    obtain ⟨u, hu, htext⟩ := h.text hn
    by_cases hname : n = name
    · exact .inl ⟨hname, u, hname ▸ hu, htext.symm⟩
    · exact .inr ⟨u, by rw [Table.get?_insert_of_ne _ _ (Ne.symm hname), hu], htext⟩
  rw [Bindings.bind, Table.get?_insert] at hn
  split at hn
  · next heq =>
    cases hn
    exact ⟨v, Table.get?_insert_self .., heq⟩
  · split at hn
    · next old hold =>
      refine text_of_release hnodup (fun {key n} hn => ?_) hn
      refine (hbefore hn).imp_left ?_
      rintro ⟨hname, old', hold', rfl⟩
      rw [hold] at hold'
      exact ⟨hname, by rw [Option.some.inj hold']⟩
    · next hnone =>
      refine (hbefore hn).resolve_left ?_
      rintro ⟨-, old, hold, -⟩
      rw [hnone] at hold
      cases hold

/-- However names are bound in turn, each describes a value with the text that it is
    looked up by. -/
theorem mirrors_register (pairs : List (String × Value H)) :
    (empty.register pairs : Bindings H).Mirrors := by
  suffices ∀ b : Bindings H, b.Mirrors → (b.register pairs).Mirrors from this _ mirrors_empty
  induction pairs with
  | nil => exact fun b h => h
  | cons p pairs ih => exact fun b h => ih _ (h.bind p.1 p.2)

/-! ## Different names for different values -/

/-- Names are bound to the values that they come with. -/
theorem get?_values_register {b : Bindings H} {pairs : List (String × Value H)}
    (hnames : (pairs.map (·.1)).Nodup) {name : String} {v : Value H} :
    (b.register pairs).values.get? name = some v ↔
      (name, v) ∈ pairs ∨ name ∉ pairs.map (·.1) ∧ b.values.get? name = some v := by
  induction pairs generalizing b with
  | nil => simp [register]
  | cons p pairs ih =>
    obtain ⟨name', v'⟩ := p
    obtain ⟨hp, hpairs⟩ := List.nodup_cons.1 hnames
    rw [register, List.foldl_cons, ← register, ih hpairs, bind, Table.get?_insert]
    by_cases hname : name' = name
    · subst hname
      have hnone : (name', v) ∉ pairs := fun h => hp (List.mem_map.2 ⟨_, h, rfl⟩)
      simp_all [eq_comm]
    · simp [hname, Ne.symm hname]

variable {b : Bindings H} {pairs : List (String × Value H)}

/-- A name that is new releases no description. -/
theorem names_bind {name : String} (h : b.values.get? name = none) (v : Value H) :
    (b.bind name v).names = b.names.insert v.text name := by
  rw [bind, h]

theorem get?_values_bind_of_new {p : String × Value H} (hp : p.1 ∉ pairs.map (·.1))
    (hb : ∀ q ∈ pairs, b.values.get? q.1 = none) :
    ∀ q ∈ pairs, (b.bind p.1 p.2).values.get? q.1 = none := by
  intro q hq
  have hne : p.1 ≠ q.1 := by
    intro h
    rw [h] at hp
    exact hp (List.mem_map.2 ⟨q, hq, rfl⟩)
  rw [bind, Table.get?_insert_of_ne _ _ hne]
  exact hb q hq

theorem get?_names_register_of_notMem (hnames : (pairs.map (·.1)).Nodup)
    (hb : ∀ p ∈ pairs, b.values.get? p.1 = none) {key : String}
    (hkey : key ∉ pairs.map (·.2.text)) :
    (b.register pairs).names.get? key = b.names.get? key := by
  induction pairs generalizing b with
  | nil => rfl
  | cons p pairs ih =>
    obtain ⟨hp, hpairs⟩ := List.nodup_cons.1 hnames
    rw [List.map_cons, List.mem_cons, not_or] at hkey
    rw [register, List.foldl_cons, ← register,
      ih hpairs (get?_values_bind_of_new hp fun q hq => hb q (List.mem_cons_of_mem _ hq)) hkey.2,
      names_bind (hb p List.mem_cons_self), Table.get?_insert_of_ne _ _ (Ne.symm hkey.1)]

/-- New names describe the values that they come with, if these have different texts. -/
theorem get?_names_register (hnames : (pairs.map (·.1)).Nodup)
    (htexts : (pairs.map (·.2.text)).Nodup) (hb : ∀ p ∈ pairs, b.values.get? p.1 = none)
    {name : String} {v : Value H} (h : (name, v) ∈ pairs) :
    (b.register pairs).names.get? v.text = some name := by
  induction pairs generalizing b with
  | nil => cases h
  | cons p pairs ih =>
    obtain ⟨hp, hpairs⟩ := List.nodup_cons.1 hnames
    obtain ⟨hp', hpairs'⟩ := List.nodup_cons.1 htexts
    have hb' := get?_values_bind_of_new hp fun q hq => hb q (List.mem_cons_of_mem _ hq)
    rw [register, List.foldl_cons, ← register]
    rcases List.mem_cons.1 h with rfl | h
    · rw [get?_names_register_of_notMem hpairs hb' hp', names_bind (hb _ List.mem_cons_self),
        Table.get?_insert_self]
    · exact ih hpairs hpairs' hb' h

/-! ## Descriptions -/

/-- The bindings of a compilation with values over `P`. -/
structure Over (P : H → Prop) (b : Bindings H) : Prop where
  mirrors : b.Mirrors
  values : ∀ {name : String} {v : Value H}, b.values.get? name = some v → v.Over P

theorem rendering_of_isWord {s : String} (h : Lexeme.IsWord s) : Rendering s := by
  refine .plain ?_ fun d hd => ?_
  · rintro rfl
    obtain ⟨c, cs, hs, -⟩ := h
    cases hs
  · rcases h.mem hd with hd | hd | hd
    · exact isSeparator_eq_false (.inl hd)
    · exact isSeparator_eq_false (.inr (.inr (.inr (.inl hd))))
    · exact isSeparator_eq_false (.inr (.inr (.inr (.inr hd))))

namespace Over

variable {P : H → Prop} (hP : Value.Labels P) {b : Bindings H} (h : b.Over P)

include hP h

/-- A value is described by a name that is bound to it, or by its text if there is
    none. -/
theorem describe_cases {v : Value H} (hv : v.Over P) :
    b.values.get? (b.describe v) = some v ∨
      b.names.get? v.text = none ∧ b.describe v = v.text := by
  rw [describe]
  cases hn : b.names.get? v.text with
  | none => exact .inr ⟨rfl, rfl⟩
  | some name =>
    obtain ⟨u, hu, htext⟩ := h.mirrors.text hn
    exact .inl (by rw [Option.getD_some, hu, (h.values hu).text_injective hP hv htext])

/-- Descriptions tell two values apart, unless the text of one, which has no name, is
    the name of the other. -/
theorem describe_injective {v w : Value H} (hv : v.Over P) (hw : w.Over P)
    (hvw : b.names.get? w.text = none → b.values.get? w.text = some v → v = w)
    (hwv : b.names.get? v.text = none → b.values.get? v.text = some w → w = v)
    (heq : b.describe v = b.describe w) : v = w := by
  rcases h.describe_cases hP hv with hbound | ⟨hnone, htext⟩ <;>
    rcases h.describe_cases hP hw with hbound' | ⟨hnone', htext'⟩
  · rw [heq, hbound'] at hbound
    exact (Option.some.inj hbound).symm
  · exact hvw hnone' (by rw [← htext', ← heq, hbound])
  · exact (hwv hnone (by rw [← htext, heq, hbound'])).symm
  · exact hv.text_injective hP hw (htext.symm.trans (heq.trans htext'))

/-- The description of a value is a rendering if all its names are words. -/
theorem rendering_describe {v : Value H} (hv : v.Over P)
    (hword : ∀ {name : String}, b.values.get? name = some v → Lexeme.IsWord name) :
    Rendering (b.describe v) := by
  rcases h.describe_cases hP hv with hbound | ⟨-, htext⟩
  · exact rendering_of_isWord (hword hbound)
  · rw [htext]
    exact hv.rendering_text hP

end Over

/-- The bindings of a compilation whose names are words and whose values are literals. -/
structure Literal (b : Bindings H) : Prop where
  mirrors : b.Mirrors
  isWord : ∀ {name : String} {v : Value H}, b.values.get? name = some v → Lexeme.IsWord name
  isLiteral : ∀ {name : String} {v : Value H}, b.values.get? name = some v → v.IsLiteral

theorem literal_register {pairs : List (String × Value H)}
    (h : ∀ p ∈ pairs, Lexeme.IsWord p.1 ∧ p.2.IsLiteral) :
    (empty.register pairs : Bindings H).Literal where
  mirrors := mirrors_register pairs
  isWord hv := (forall_register (P := fun name v => Lexeme.IsWord name ∧ v.IsLiteral)
    (fun _ _ h => by cases h) h hv).1
  isLiteral hv := (forall_register (P := fun name v => Lexeme.IsWord name ∧ v.IsLiteral)
    (fun _ _ h => by cases h) h hv).2

theorem Literal.over {b : Bindings H} (h : b.Literal) : b.Over fun _ => False where
  mirrors := h.mirrors
  values hv := Value.isLiteral_iff_over.1 (h.isLiteral hv)

/-- The text of the value is not the name of another one. -/
def Distinct (b : Bindings H) (v : Value H) : Prop :=
  ∀ {name : String} {u : Value H}, b.values.get? name = some u → name = v.text → u = v

/-- Descriptions tell literals apart, unless the text of one is the name of another. -/
theorem Literal.describe_injective {b : Bindings H} (h : b.Literal) {v w : Value H}
    (hv : v.IsLiteral) (hw : w.IsLiteral) (hdv : b.Distinct v) (hdw : b.Distinct w)
    (heq : b.describe v = b.describe w) : v = w :=
  h.over.describe_injective Value.labels_false (Value.isLiteral_iff_over.1 hv)
    (Value.isLiteral_iff_over.1 hw) (fun _ hu => hdw hu rfl) (fun _ hu => hdv hu rfl) heq

/-- The description of a literal is a rendering. -/
theorem Literal.rendering_describe {b : Bindings H} (h : b.Literal) {v : Value H}
    (hv : v.IsLiteral) : Rendering (b.describe v) :=
  h.over.rendering_describe Value.labels_false (Value.isLiteral_iff_over.1 hv) h.isWord

end Bindings

end RigExpr
