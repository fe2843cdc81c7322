import RigExpr.Proofs.Grammar.Tokens

/-!
# Signatures with components

A signature has one format of seven, and in one of them a component stands after a point. Sources
name a component by a word (`Component.isNamed_iff_isWritten`), in which there is no point and no
separator; so the last point of the signature is the one before it. With components that are named
so, a signature stands for one application only (`Primitive.signature_eq_signature_iff`).
-/

namespace RigExpr

/-- A component as sources name it: one of the four axes, or a word that is the name of none. -/
def Component.IsNamed : Component → Prop
  | axis i => i < 4
  | named name => Lexeme.IsWord name ∧ name ∉ ["x", "y", "z", "w"]

namespace Component

theorem isWord_axis : ∀ name ∈ ["x", "y", "z", "w"], Lexeme.IsWord name := by
  have hletter {c : Char} (hc : c.isAlpha = true) : Lexeme.IsWord (String.singleton c) :=
    ⟨c, [], by simp, hc, fun _ hd => absurd hd List.not_mem_nil⟩
  simp only [List.forall_mem_cons]
  exact ⟨hletter (c := 'x') rfl, hletter (c := 'y') rfl, hletter (c := 'z') rfl,
    hletter (c := 'w') rfl, fun _ h => absurd h List.not_mem_nil⟩

theorem ofName_eq_named {name : String} (h : name ∉ ["x", "y", "z", "w"]) :
    ofName name = named name := by
  simp only [List.mem_cons, List.not_mem_nil, or_false, not_or] at h
  obtain ⟨hx, hy, hz, hw⟩ := h
  rw [ofName, if_neg hx, if_neg hy, if_neg hz, if_neg hw]

/-- These are the components that the tokens of a source ask for. -/
theorem isNamed_iff_isWritten {which : Component} :
    which.IsNamed ↔ (Token.component which).IsWritten := by
  constructor
  · intro h
    cases which with
    | named name => exact ⟨name, h.1, (ofName_eq_named h.2).symm⟩
    | axis i =>
      have haxis : ∀ i < 4, ∃ name ∈ ["x", "y", "z", "w"], axis i = ofName name := by decide
      obtain ⟨name, hname, heq⟩ := haxis i h
      exact ⟨name, isWord_axis name hname, heq⟩
  · rintro ⟨name, hword, rfl⟩
    by_cases hname : name ∈ ["x", "y", "z", "w"]
    · simp only [List.mem_cons, List.not_mem_nil, or_false] at hname
      rcases hname with rfl | rfl | rfl | rfl
      · exact (by decide : (0 : Nat) < 4)
      · exact (by decide : (1 : Nat) < 4)
      · exact (by decide : (2 : Nat) < 4)
      · exact (by decide : (3 : Nat) < 4)
    · rw [ofName_eq_named hname]
      exact ⟨hword, hname⟩

end Component

namespace Primitive

/-- A component that the primitive asks for is named as in sources. -/
def IsNamed : Primitive → Prop
  | component which => which.IsNamed
  | _ => True

theorem IsNamed.hasName {p : Primitive} (h : p.IsNamed) : p.HasName := by
  cases p with
  | component => exact (Component.isNamed_iff_isWritten.1 h).hasName
  | _ => trivial

/-- Signatures are unambiguous: applications to renderings, in numbers that the primitives take,
    have one signature only if the primitives are the same and the operands are, one by one. -/
theorem signature_eq_signature_iff {p q : Primitive} {args args' : List String}
    (hp : p.accepts args.length = true) (hq : q.accepts args'.length = true) (hpn : p.IsNamed)
    (hqn : q.IsNamed) (hargs : ∀ s ∈ args, Rendering s) (hargs' : ∀ s ∈ args', Rendering s) :
    p.signature args = q.signature args' ↔ p = q ∧ args = args' := by
  constructor
  · exact signature_injective hp hq hpn.hasName hqn.hasName hargs hargs'
  · rintro ⟨rfl, rfl⟩
    rfl

/-- The component `quat` of two sequences that differ in nothing but where the inner brackets
    stand. -/
theorem signature_eq_signature_iff_nested :
    let p : Primitive := .component (.named "quat")
    let left := "[[a.x, b], -1.5]"
    let right := "[a.x, [b, -1.5]]"
    p.accepts 1 = true ∧ p.IsNamed ∧ Rendering left ∧ Rendering right ∧
      p.signature [left] = "[[a.x, b], -1.5].quat" ∧ p.signature [left] ≠ p.signature [right] := by
  intro p left right
  have hname : p.IsNamed :=
    ⟨⟨'q', ['u', 'a', 't'], rfl, rfl, List.all_eq_true.1 rfl⟩, by decide⟩
  have hpair {s t : String} (hs : Rendering s) (ht : Rendering t) :
      Rendering ("[" ++ commas [s, t] ++ "]") :=
    .sequence (by simp) (by simp) (by simpa using ⟨hs, ht⟩)
  have ha : Rendering "a.x" := rendering_of_all (by decide) (by decide)
  have hb : Rendering "b" := rendering_of_all (by decide) (by decide)
  have hc : Rendering "-1.5" := rendering_of_all (by decide) (by decide)
  have hleft : Rendering left := hpair (hpair ha hb) hc
  have hright : Rendering right := hpair ha (hpair hb hc)
  refine ⟨rfl, hname, hleft, hright, rfl, fun h => ?_⟩
  obtain ⟨-, hargs⟩ := (signature_eq_signature_iff (p := p) (q := p) rfl rfl hname hname
    (by simpa using hleft) (by simpa using hright)).1 h
  exact absurd hargs (by decide)

end Primitive

end RigExpr
