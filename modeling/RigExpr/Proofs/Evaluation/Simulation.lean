import RigExpr.Proofs.Action
import RigExpr.Proofs.Evaluation.Recursive
import RigExpr.Proofs.Signature

/-!
# Evaluations that keep up

Two evaluations of the same tokens differ only in their rules for identifiers,
applications and assignments. If the rules of one keep up with those of the other
(`Rules.Follow`), so does the whole evaluation (`Rules.Follow.evaluate`): by
recursion on the tokens, as in the evaluation itself.
-/

namespace RigExpr

/-- A component that goes by a word. -/
def Token.IsNamed : Token → Prop
  | .component which => (Primitive.component which).HasName
  | _ => True

/-- The value, if there is one, satisfies `P`. -/
def Slot.Holds {H : Type} (P : Value H → Prop) (slot : Slot H) : Prop := ∀ v ∈ slot, P v

theorem Slot.Holds.none {H : Type} {P : Value H → Prop} : Slot.Holds P none :=
  fun _ hw => absurd hw (Option.not_mem_none _)

theorem Slot.Holds.some {H : Type} {P : Value H → Prop} {v : Value H} (h : P v) :
    Slot.Holds P (some v) := fun _ hw => Option.some.inj hw ▸ h

namespace Evaluation

open Recursive

variable {β β' H : Type} {c : Coupling (Evaluation β H) (Evaluation β' H)}
  {P : Value H → Prop} {rules : Rules β H} {rules' : Rules β' H}

variable (c P) in
/-- The first rules keep up with the second ones, on values that satisfy `P`. -/
structure Rules.Follow (rules : Rules β H) (rules' : Rules β' H) : Prop where
  leave : ∀ tokens, c.Follows True (fun _ => True) (leave tokens) (leave tokens)
  scalar : ∀ x, P (.scalar x)
  bool : ∀ b, P (.bool b)
  order : ∀ o, P (.order o)
  identifier : ∀ name,
    c.Follows True (Slot.Holds P) (rules.identifier name) (rules'.identifier name)
  apply : ∀ p operands, c.Follows
    (p.accepts operands.length = true ∧ p.HasName ∧ ∀ slot ∈ operands, Slot.Holds P slot)
    (Slot.Holds P) (rules.apply p operands) (rules'.apply p operands)
  assign : ∀ source destination,
    c.Follows True (Slot.Holds P) (rules.assign source destination)
      (rules'.assign source destination)

namespace Rules.Follow

theorem constant (h : Rules.Follow c P rules rules') (k : Constant) :
    P (Evaluation.constant k) := by
  cases k with
  | true => exact h.bool true
  | false => exact h.bool false
  | e => exact h.scalar _
  | pi => exact h.scalar _

variable (c P rules rules') in
/-- Evaluations of an operand from up to `n` tokens keep up. -/
def UpTo (n : Nat) : Prop :=
  ∀ tokens : List Token, tokens.length ≤ n →
    c.Follows (∀ t ∈ tokens, t.IsNamed) (fun r => Slot.Holds P r.1 ∧ ∀ t ∈ r.2.1, t.IsNamed)
      (operand rules tokens) (operand rules' tokens)

theorem UpTo.mono {m n : Nat} (h : UpTo c P rules rules' n) (hmn : m ≤ n) :
    UpTo c P rules rules' m :=
  fun tokens htokens => h tokens (Nat.le_trans htokens hmn)

theorem operands {n : Nat} {tokens : List Token} (ih : UpTo c P rules rules' tokens.length) :
    c.Follows (∀ t ∈ tokens, t.IsNamed)
      (fun r => (r.1.length = n ∧ ∀ slot ∈ r.1, Slot.Holds P slot) ∧ ∀ t ∈ r.2.1, t.IsNamed)
      (Recursive.operands rules n tokens) (Recursive.operands rules' n tokens) := by
  induction n generalizing tokens with
  | zero =>
    rw [Recursive.operands, Recursive.operands]
    exact .pure fun htokens => ⟨⟨rfl, fun _ hslot => absurd hslot List.not_mem_nil⟩, htokens⟩
  | succ n ihn =>
    rw [Recursive.operands, Recursive.operands]
    refine (ih tokens (Nat.le_refl _)).bind fun r => ?_
    obtain ⟨value, rest, hrest⟩ := r
    refine ((ihn (ih.mono (Nat.le_of_lt hrest))).weaken (fun h => h.2.2)
      (fun _ h hr => And.intro h.2.1 hr)).bind fun r => ?_
    obtain ⟨values, left, hleft⟩ := r
    refine .pure fun h => ?_
    obtain ⟨-, hvalue, ⟨hlength, hvalues⟩, hleft⟩ := h
    refine ⟨⟨congrArg (· + 1) hlength, fun slot hslot => ?_⟩, hleft⟩
    rcases List.mem_cons.1 hslot with rfl | hslot
    · exact hvalue
    · exact hvalues slot hslot

theorem applied (h : Rules.Follow c P rules rules') {p : Primitive} {n : Nat}
    (hp : p.accepts n = true) {tokens : List Token} (ih : UpTo c P rules rules' tokens.length) :
    c.Follows (p.HasName ∧ ∀ t ∈ tokens, t.IsNamed)
      (fun r => Slot.Holds P r.1 ∧ ∀ t ∈ r.2.1, t.IsNamed)
      (Recursive.applied rules p n tokens) (Recursive.applied rules' p n tokens) := by
  rw [Recursive.applied, Recursive.applied]
  refine ((operands ih).weaken And.right fun _ _ hr => hr).bind fun r => ?_
  obtain ⟨values, left⟩ := r
  refine ((h.apply p values.reverse).weaken (fun hv => ?_)
    (fun _ hv hr => And.intro hr hv.2.2)).bind fun value => ?_
  · obtain ⟨⟨hname, -⟩, ⟨hlength, hvalues⟩, -⟩ := hv
    refine ⟨by rwa [List.length_reverse, hlength], hname, fun slot hslot => ?_⟩
    exact hvalues slot (List.mem_reverse.1 hslot)
  · exact .pure fun hv => hv.2

theorem condition (h : Rules.Follow c P rules rules') (tokens : List Token) :
    c.Follows (∀ t ∈ tokens, t.IsNamed) (fun r => ∀ t ∈ r.2.1, t.IsNamed)
      (Recursive.condition tokens) (Recursive.condition tokens) := by
  cases tokens with
  | nil => exact .throw _
  | cons token rest =>
    refine ((h.leave rest).weaken (fun _ => trivial) fun _ _ h => h).bind fun _ => ?_
    cases token with
    | comparison test =>
      exact .pure fun htokens t ht => htokens.1 t (List.mem_cons_of_mem _ ht)
    | _ => exact .throw _

/-- One token with its operands, if evaluations of operands from the tokens before it
    keep up. -/
theorem ofToken (h : Rules.Follow c P rules rules') (token : Token) {tokens : List Token}
    (ih : UpTo c P rules rules' tokens.length) :
    c.Follows (token.IsNamed ∧ ∀ t ∈ tokens, t.IsNamed)
      (fun r => Slot.Holds P r.1 ∧ ∀ t ∈ r.2.1, t.IsNamed)
      (Recursive.ofToken rules token tokens) (Recursive.ofToken rules' token tokens) := by
  -- the operand that `tokens` end with
  have last {pre : Prop} {rest : List Token} (hrest : rest.length ≤ tokens.length)
      (hpre : pre → ∀ t ∈ rest, t.IsNamed) :
      c.Follows pre (fun r => Slot.Holds P r.1 ∧ ∀ t ∈ r.2.1, t.IsNamed)
        (operand rules rest) (operand rules' rest) :=
    (ih rest hrest).weaken hpre fun _ _ hr => hr
  -- a token without operands that stands for a value
  have value {v : Value H} (hv : P v) (htokens : token.IsNamed ∧ ∀ t ∈ tokens, t.IsNamed) :
      Slot.Holds P (some v) ∧ ∀ t ∈ tokens, t.IsNamed :=
    ⟨.some hv, htokens.2⟩
  rw [Recursive.ofToken.eq_def rules, Recursive.ofToken.eq_def rules']
  cases token with
  | call name arity =>
    dsimp only
    split
    · exact .throw _
    · split
      · next hf harity =>
        exact (h.applied (p := .call _) harity ih).weaken
          (fun htokens => ⟨trivial, htokens.2⟩) fun _ _ hr => hr
      · exact .throw _
  | list arity =>
    dsimp only
    split
    · next harity =>
      exact (h.applied (p := .list) (by simpa [Primitive.accepts] using harity) ih).weaken
        (fun htokens => ⟨trivial, htokens.2⟩) fun _ _ hr => hr
    · exact .throw _
  | negate | not | binary op =>
    exact (h.applied rfl ih).weaken (fun htokens => ⟨trivial, htokens.2⟩) fun _ _ hr => hr
  | component which => exact (h.applied rfl ih).weaken id fun _ _ hr => hr
  | ternary =>
    refine (last (Nat.le_refl _) And.right).bind fun r => ?_
    obtain ⟨ifFalse, rest, hrest⟩ := r
    refine (last (Nat.le_of_lt hrest) fun hv => hv.2.2).bind fun r => ?_
    obtain ⟨ifTrue, rest', hrest'⟩ := r
    refine ((h.condition rest').weaken (fun hv => hv.2.2) fun _ _ hr => hr).bind
      fun r => ?_
    obtain ⟨test, before, hbefore⟩ := r
    dsimp only at hrest hrest' hbefore ⊢
    refine (last (by omega) And.right).bind fun r => ?_
    obtain ⟨second, before', hbefore'⟩ := r
    dsimp only
    refine (last (by omega) fun hv => hv.2.2).bind fun r => ?_
    obtain ⟨first, left, hleft⟩ := r
    refine ((h.apply (.condition test) [first, second, ifTrue, ifFalse]).weaken (fun hv => ?_)
      fun _ hv hr => And.intro hr hv.2.2).bind fun value => .pure fun hv => hv.2
    obtain ⟨⟨⟨⟨⟨-, hifFalse, -⟩, hifTrue, -⟩, -⟩, hsecond, -⟩, hfirst, -⟩ := hv
    refine ⟨rfl, trivial, fun slot hslot => ?_⟩
    simp only [List.mem_cons, List.not_mem_nil, or_false] at hslot
    rcases hslot with rfl | rfl | rfl | rfl
    · exact hfirst
    · exact hsecond
    · exact hifTrue
    · exact hifFalse
  | alternative =>
    refine (last (Nat.le_refl _) And.right).bind fun r => ?_
    obtain ⟨value, left, hleft⟩ := r
    exact .pure fun hv => hv.2
  | assign =>
    refine (last (Nat.le_refl _) And.right).bind fun r => ?_
    obtain ⟨destination, rest, hrest⟩ := r
    refine (last (Nat.le_of_lt hrest) fun hv => hv.2.2).bind fun r => ?_
    obtain ⟨source, left, hleft⟩ := r
    exact ((h.assign source destination).weaken (fun _ => trivial)
      fun _ hv hr => And.intro hr hv.2.2).bind fun value => .pure fun hv => hv.2
  | constant k => exact .pure (value (h.constant k))
  | rotateOrder o => exact .pure (value (h.order o))
  | identifier name =>
    exact ((h.identifier name).weaken (fun _ => trivial) fun _ hv hr => And.intro hr hv.2).bind
      fun slot => .pure fun hv => hv.2
  | comparison test => exact .throw _
  | number text =>
    dsimp only
    split
    · next x hx => exact .pure (value (h.scalar x))
    · exact .throw _

theorem upTo (h : Rules.Follow c P rules rules') (n : Nat) : UpTo c P rules rules' n := by
  induction n with
  | zero =>
    intro tokens hn
    rw [List.eq_nil_of_length_eq_zero (Nat.le_zero.1 hn), operand, operand]
    exact .throw _
  | succ n ih =>
    intro tokens hn
    rw [operand.eq_def, operand.eq_def rules']
    cases tokens with
    | nil => exact .throw _
    | cons token rest =>
      dsimp only
      refine ((h.leave rest).weaken (fun _ => trivial) fun _ _ h => h).bind fun _ => ?_
      refine ((h.ofToken token (ih.mono (Nat.le_of_succ_le_succ hn))).weaken
        (fun htokens => List.forall_mem_cons.1 htokens.1) fun _ _ hr => hr).bind
          fun r => ?_
      obtain ⟨value, left, hleft⟩ := r
      exact .pure fun hv => hv.2

/-- Evaluation keeps up if its rules do. -/
theorem evaluate (h : Rules.Follow c P rules rules') (tokens : List Token) :
    c.Follows (∀ t ∈ tokens, t.IsNamed) (Slot.Holds P)
      (Recursive.evaluate rules tokens) (Recursive.evaluate rules' tokens) := by
  rw [Recursive.evaluate, Recursive.evaluate]
  refine ((h.leave _).weaken (fun _ => trivial) fun _ _ h => h).bind fun _ => ?_
  refine ((h.upTo _ tokens.reverse (Nat.le_refl _)).weaken
    (fun htokens t ht => htokens.1 t (List.mem_reverse.1 ht)) fun _ _ hr => hr).bind
      fun r => ?_
  obtain ⟨value, left, hleft⟩ := r
  exact .pure fun hv => hv.2.1

end Rules.Follow

end Evaluation

end RigExpr
