import RigExpr.Proofs.Compiler.Emission
import RigExpr.Proofs.Evaluation.Lockstep
import RigExpr.Proofs.Expr.Folded
import RigExpr.Proofs.Number.Sign

/-!
# Folding keeps the meaning

A number that negations follow takes one of them into its sign, and all other tokens stay
(`Token.Folding`). On the calculator, without bindings, the tokens of a source come to the same
value or the same error before and after (`Compiler.compileTokens_folding`).

The two evaluations do not have the same cache: only the one of the tokens as they are negates
numbers as written, and remembers that it has. What it remembers is right, so that it does not
matter where such a negation is found and where it is carried out (`Evaluation.Unfolds`).
-/

namespace RigExpr

namespace Token

/-- The texts differ in a minus sign in front: the first has one, which is taken away, or it has
    none and gets one. -/
def Opposite (text text' : String) : Prop :=
  text = "-" ++ text' ∨ text' = "-" ++ text ∧ ∀ unsigned, text ≠ "-" ++ unsigned

theorem opposite_iff {text text' : String} : Opposite text text' ↔ text' = turnSign text := by
  have hminus (unsigned : String) :
      text = "-" ++ unsigned ↔ text.toList = '-' :: unsigned.toList := by
    rw [← String.toList_inj, String.toList_append]
    rfl
  unfold Opposite turnSign
  split
  · next rest hlist =>
    have hsigned : text = "-" ++ String.ofList rest := by rw [hminus, hlist, String.toList_ofList]
    constructor
    · rintro (h | ⟨-, h⟩)
      · rw [hminus, hlist, List.cons.injEq] at h
        rw [h.2, String.ofList_toList]
      · exact absurd hsigned (h _)
    · rintro rfl
      exact .inl hsigned
  · next hlist =>
    have hunsigned (unsigned : String) : text ≠ "-" ++ unsigned := by
      rw [Ne, hminus]
      exact hlist _
    constructor
    · rintro (h | ⟨h, -⟩)
      · exact absurd h (hunsigned _)
      · exact h
    · intro h
      exact .inr ⟨h, hunsigned⟩

/-- The second stream is the first one with negations moved into numbers: a number and all the
    negations that follow it are the number with the other sign and one negation less. Every other
    token stands where it stood. -/
inductive Folding : List Token → List Token → Prop
  | nil : Folding [] []
  | negated {text text' : String} (k : Nat) {rest out : List Token} (hsign : Opposite text text')
      (hrest : rest.head? ≠ some .negate) (h : Folding rest out) :
      Folding (.number text :: (List.replicate (k + 1) .negate ++ rest))
        (.number text' :: (List.replicate k .negate ++ out))
  | other {t : Token} {rest out : List Token}
      (ht : ∀ text, t = .number text → rest.head? ≠ some .negate) (h : Folding rest out) :
      Folding (t :: rest) (t :: out)

theorem foldNegation_other {t : Token} {rest : List Token}
    (ht : ∀ text, t = .number text → rest.head? ≠ some .negate) :
    foldNegation (t :: rest) = t :: foldNegation rest := by
  refine foldNegation.eq_2 t rest fun text more hnumber hnegate => ht text hnumber ?_
  rw [hnegate, List.head?_cons]

theorem foldNegation_negations (k : Nat) (rest : List Token) :
    foldNegation (List.replicate k .negate ++ rest) =
      List.replicate k .negate ++ foldNegation rest := by
  induction k with
  | zero => rfl
  | succ k ih =>
    rw [List.replicate_succ, List.cons_append, List.cons_append, ← ih]
    exact foldNegation_other fun text h => by cases h

theorem exists_negations (tokens : List Token) :
    ∃ k rest, tokens = List.replicate k .negate ++ rest ∧ rest.head? ≠ some .negate := by
  induction tokens with
  | nil => exact ⟨0, [], rfl, by simp⟩
  | cons t tokens ih =>
    by_cases ht : t = .negate
    · obtain ⟨k, rest, rfl, hrest⟩ := ih
      exact ⟨k + 1, rest, by rw [ht, List.replicate_succ, List.cons_append], hrest⟩
    · exact ⟨0, t :: tokens, rfl, by simpa using ht⟩

theorem folding_foldNegation : (tokens : List Token) → Folding tokens (foldNegation tokens)
  | [] => .nil
  | t :: tokens => by
    by_cases ht : ∀ text, t = .number text → tokens.head? ≠ some .negate
    · rw [foldNegation_other ht]
      exact .other ht (folding_foldNegation tokens)
    · -- a number, of which one negation goes
      simp only [not_forall, not_not] at ht
      obtain ⟨text, rfl, hhead⟩ := ht
      obtain ⟨k, rest, htokens, hrest⟩ := exists_negations tokens
      cases k with
      | zero =>
        rw [htokens] at hhead
        exact absurd hhead hrest
      | succ k =>
        have hshorter : rest.length < (Token.number text :: tokens).length := by
          rw [htokens]
          simp only [List.length_cons, List.length_append]
          omega
        rw [htokens, List.replicate_succ, List.cons_append, foldNegation, foldNegation_negations]
        exact .negated k (opposite_iff.2 rfl) hrest (folding_foldNegation rest)
termination_by tokens => tokens.length

/-- Folding is what it is said to be. -/
theorem folding_iff {tokens out : List Token} :
    Folding tokens out ↔ out = foldNegation tokens := by
  constructor
  · intro h
    induction h with
    | nil => rfl
    | negated k hsign _ _ ih =>
      rw [List.replicate_succ, List.cons_append, foldNegation, foldNegation_negations, ← ih,
        opposite_iff.1 hsign]
    | other ht _ ih => rw [foldNegation_other ht, ← ih]
  · rintro rfl
    exact folding_foldNegation tokens

end Token

/-! ## Evaluations of folded expressions -/

/-- A number in parentheses is evaluated like the number. -/
theorem Expr.evaluate_of_literal? {β H : Type} {rules : Evaluation.Rules β H} {e : Expr}
    {text : String} (h : e.literal? = some text) (rest : List Token) :
    e.evaluate rules rest = (number text).evaluate rules rest := by
  fun_induction literal? e with
  | case1 text' => cases h; rfl
  | case2 inner ih => exact ih h
  | case3 => cases h

namespace Evaluation

open Calculator (Name)
open Coupling (free)

/-- The signature of a negated number. -/
def negation (x : Float) : String := Primitive.negate.signature [Number.text x]

/-- A negated number. -/
theorem runOn_negate (x : Float) (c : Logged Calculator) :
    let negated := (Primitive.negate.invoke [.scalar x]).runOn c
    negated.1 = .ok (.scalar (-1 * x)) ∧ negated.2.state.made = c.state.made :=
  ⟨rfl, rfl⟩

/-- An application that its signature tells from others, on the values of an evaluation without
    bindings. -/
structure Applies (p : Primitive) (args : List (Value Name)) : Prop where
  accepts : p.accepts args.length = true
  hasName : p.HasName
  handles : ∀ a ∈ args, a.Over Name.IsMade

/-- No other application has the signature of a negated number. -/
theorem Applies.eq_negate {p : Primitive} {args : List (Value Name)} (h : Applies p args)
    {x : Float} (heq : p.signature (args.map Value.text) = negation x) :
    p = .negate ∧ args = [.scalar x] := by
  have hrender : ∀ s ∈ args.map Value.text, Rendering s := by
    intro s hs
    obtain ⟨a, ha, rfl⟩ := List.mem_map.1 hs
    exact (h.handles a ha).rendering_text_of fun _ hn => hn.rendering
  obtain ⟨rfl, htexts⟩ := Primitive.signature_injective (q := .negate) (by simpa using h.accepts)
    rfl h.hasName trivial hrender (by simpa using Value.rendering_number x) heq
  obtain ⟨a, rfl, ha⟩ := List.map_eq_singleton_iff.1 htexts
  refine ⟨rfl, ?_⟩
  have hover := h.handles a List.mem_cons_self
  rw [Value.eq_scalar_of_text (fun n hn => ?_) ha]
  subst hn
  exact hover.ne_number x

theorem negation_injective {x y : Float} (h : negation x = negation y) : x = y := by
  have happlies : Applies .negate [.scalar x] := ⟨rfl, trivial, by simp [Value.Over]⟩
  cases (happlies.eq_negate h).2
  rfl

/-- The states of evaluations of the tokens as they are and of the folded ones. The first has more
    in its cache, but no more than negated numbers. -/
structure Unfolds (s t : Evaluation Calculator Name) : Prop where
  made : s.backend.made = t.backend.made
  unbound : s.bindings = .empty
  unbound' : t.bindings = .empty
  /-- What the second evaluation remembers, the first one does. -/
  remembers : ∀ {key v}, t.cache.get? key = some v → s.cache.get? key = some v
  /-- Apart from negated numbers, the second one remembers as much. -/
  apart : ∀ {key}, (∀ x, key ≠ negation x) → s.cache.get? key = t.cache.get? key
  negated : ∀ {x v}, s.cache.get? (negation x) = some v → v = .scalar (-1 * x)
  handles : ∀ {key v}, s.cache.get? key = some v → v.Over Name.IsMade

namespace Unfolds

variable {s t : Evaluation Calculator Name}

theorem describe (h : Unfolds s t) :
    s.bindings.describe = Value.text ∧ t.bindings.describe = Value.text := by
  rw [h.unbound, h.unbound']
  exact ⟨rfl, rfl⟩

/-- Both evaluations remember one more application. -/
theorem insert (h : Unfolds s t) {b b' : Calculator} (hmade : b.made = b'.made) {key : String}
    {v : Value Name} (hv : v.Over Name.IsMade)
    (hkey : ∀ x, key = negation x → v = .scalar (-1 * x)) :
    Unfolds { s with backend := b, cache := s.cache.insert key v }
      { t with backend := b', cache := t.cache.insert key v } where
  made := hmade
  unbound := h.unbound
  unbound' := h.unbound'
  remembers {key' w} hw := by
    rw [Table.get?_insert] at hw ⊢
    split
    · next heq => rwa [if_pos heq] at hw
    · next hne =>
      rw [if_neg hne] at hw
      exact h.remembers hw
  apart hkey' := by
    rw [Table.get?_insert, Table.get?_insert, h.apart hkey']
  negated {x w} hw := by
    rw [Table.get?_insert] at hw
    split at hw
    · next heq =>
      cases hw
      exact hkey x heq
    · exact h.negated hw
  handles {key' w} hw := by
    rw [Table.get?_insert] at hw
    split at hw
    · cases hw
      exact hv
    · exact h.handles hw

/-- The first evaluation remembers a negated number. -/
theorem insert_left (h : Unfolds s t) {b : Calculator} (hmade : b.made = t.backend.made)
    (x : Float) :
    Unfolds { s with backend := b, cache := s.cache.insert (negation x) (.scalar (-1 * x)) } t where
  made := hmade
  unbound := h.unbound
  unbound' := h.unbound'
  remembers {key w} hw := by
    have hs := h.remembers hw
    rw [Table.get?_insert]
    split
    · next heq =>
      subst heq
      rw [h.negated hs]
    · exact hs
  apart hkey := by
    rw [Table.get?_insert_of_ne _ _ (hkey x).symm, h.apart hkey]
  negated {y w} hw := by
    rw [Table.get?_insert] at hw
    split at hw
    · next heq =>
      cases hw
      rw [negation_injective heq]
    · exact h.negated hw
  handles hw := by
    rw [Table.get?_insert] at hw
    split at hw
    · cases hw
      trivial
    · exact h.handles hw

/-- The second evaluation remembers what the first one does. -/
theorem insert_right (h : Unfolds s t) {b : Calculator} (hmade : s.backend.made = b.made)
    {key : String} {v : Value Name} (hv : s.cache.get? key = some v) :
    Unfolds s { t with backend := b, cache := t.cache.insert key v } where
  made := hmade
  unbound := h.unbound
  unbound' := h.unbound'
  remembers hw := by
    rw [Table.get?_insert] at hw
    split at hw
    · next heq =>
      rw [← heq, hv, hw]
    · exact h.remembers hw
  apart hkey := by
    rw [Table.get?_insert]
    split
    · next heq => rw [← heq, hv]
    · exact h.apart hkey
  negated := h.negated
  handles := h.handles

/-- A number is negated by the first evaluation alone. -/
theorem apply_negate {s : Logged (Evaluation Calculator Name)} (h : Unfolds s.state t) (x : Float) :
    ((Evaluation.apply .emit .negate [some (.scalar x)]).runOn s).1 =
        .ok (some (.scalar (-1 * x))) ∧
      Unfolds ((Evaluation.apply .emit .negate [some (.scalar x)]).runOn s).2.state t := by
  have hargs : values? [some (.scalar x : Value Name)] = some [.scalar x] := rfl
  cases hget : s.state.cache.get? (negation x) with
  | some v =>
    obtain rfl := h.negated hget
    obtain ⟨log, hrun⟩ := runOn_apply_of_some (p := .negate) hargs (by rwa [h.describe.1])
    rw [hrun]
    exact ⟨rfl, h⟩
  | none =>
    obtain ⟨log, hrun⟩ := exists_runOn_apply (p := .negate) hargs (by rwa [h.describe.1])
    obtain ⟨houtcome, hmade⟩ := runOn_negate x ⟨s.state.backend, log⟩
    dsimp only at hrun
    rw [houtcome, h.describe.1] at hrun
    rw [hrun]
    exact ⟨rfl, h.insert_left (hmade.trans h.made) x⟩

/-- Each application comes to the same in both evaluations. -/
theorem apply {s t : Logged (Evaluation Calculator Name)} (h : Unfolds s.state t.state)
    {p : Primitive} {operands : List (Slot Name)} {args : List (Value Name)}
    (hargs : values? operands = some args) (happlies : Applies p args) :
    let left := (Evaluation.apply .emit p operands).runOn s
    let right := (Evaluation.apply .emit p operands).runOn t
    left.1 = right.1 ∧ Unfolds left.2.state right.2.state ∧
      ∀ v, right.1 = .ok (some v) → v.Over Name.IsMade := by
  dsimp only
  obtain ⟨hdescribe, hdescribe'⟩ := h.describe
  cases hget' : t.state.cache.get? (p.signature (args.map Value.text)) with
  | some v =>
    -- both remember it
    have hget := h.remembers hget'
    obtain ⟨log, hrun⟩ := runOn_apply_of_some hargs (by rwa [hdescribe])
    obtain ⟨log', hrun'⟩ := runOn_apply_of_some hargs (by rwa [hdescribe'])
    rw [hrun, hrun']
    refine ⟨rfl, h, fun w hw => ?_⟩
    cases hw
    exact h.handles hget
  | none =>
    obtain ⟨log', hrun'⟩ := exists_runOn_apply hargs (by rwa [hdescribe'])
    dsimp only at hrun'
    rw [hdescribe'] at hrun'
    cases hget : s.state.cache.get? (p.signature (args.map Value.text)) with
    | some v =>
      -- a negated number, which the second evaluation meets for the first time
      have hnegation : ∃ x, p.signature (args.map Value.text) = negation x := by
        by_contra hne
        rw [h.apart fun x heq => hne ⟨x, heq⟩, hget'] at hget
        cases hget
      obtain ⟨x, hx⟩ := hnegation
      obtain ⟨rfl, rfl⟩ := happlies.eq_negate hx
      obtain rfl := h.negated (hx ▸ hget)
      obtain ⟨log, hrun⟩ := runOn_apply_of_some hargs (by rwa [hdescribe])
      obtain ⟨houtcome, hmade⟩ := runOn_negate x ⟨t.state.backend, log'⟩
      rw [houtcome] at hrun'
      rw [hrun, hrun']
      refine ⟨rfl, h.insert_right (h.made.trans hmade.symm) hget, fun w hw => ?_⟩
      cases hw
      trivial
    | none =>
      -- new to both, and they go on in lockstep
      obtain ⟨log, hrun⟩ := exists_runOn_apply hargs (by rwa [hdescribe])
      dsimp only at hrun
      rw [hdescribe] at hrun
      obtain ⟨houtcome, hmade, hover⟩ := (Calculator.lockstep_made.invoke p happlies.handles).keeps
        trivial ⟨s.state.backend, log⟩ ⟨t.state.backend, log'⟩ h.made trivial
      rw [houtcome] at hrun
      rw [hrun, hrun']
      cases hinvoke : ((p.invoke args).runOn ⟨t.state.backend, log'⟩).1 with
      | error e =>
        refine ⟨rfl, ⟨hmade, h.unbound, h.unbound', h.remembers, h.apart, h.negated, h.handles⟩, ?_⟩
        intro w hw
        cases hw
      | ok v =>
        refine ⟨rfl, h.insert hmade (hover v hinvoke) fun x hx => ?_, fun w hw => ?_⟩
        · obtain ⟨rfl, rfl⟩ := happlies.eq_negate hx
          rw [(runOn_negate x _).1] at hinvoke
          cases hinvoke
          rfl
        · cases hw
          exact hover v hinvoke

theorem follows_leave (tokens tokens' : List Token) :
    (free Unfolds).Follows True (fun _ => True) (leave tokens) (leave tokens') :=
  .change (fun _ _ => trivial) fun _ _ h =>
    ⟨h.made, h.unbound, h.unbound', h.remembers, h.apart, h.negated, h.handles⟩

/-- No identifier has a value. -/
theorem follows_identifier (name : String) :
    (free Unfolds).Follows True (fun _ => False) (identifier .emit name)
      (identifier .emit name) where
  fine _ _ := trivial
  keeps _ s t h _ := by
    have h : Unfolds s.state t.state := h
    rw [runOn_identifier, runOn_identifier, h.unbound, h.unbound']
    refine ⟨rfl, ⟨h.made, rfl, rfl, h.remembers, h.apart, h.negated, h.handles⟩, ?_⟩
    intro slot hslot
    cases hslot

theorem follows_apply {p : Primitive} {operands : List (Slot Name)}
    (haccepts : p.accepts operands.length = true) (hname : p.HasName)
    (hoperands : ∀ slot ∈ operands, Slot.Holds (Value.Over Name.IsMade) slot) :
    (free Unfolds).Follows True (Slot.Holds (Value.Over Name.IsMade))
      (Evaluation.apply .emit p operands) (Evaluation.apply .emit p operands) := by
  cases hargs : values? operands with
  | none =>
    simp only [Evaluation.apply, hargs]
    exact .pure fun _ => .none
  | some args =>
    rw [values?_eq_some hargs] at haccepts hoperands
    have happlies : Applies p args := ⟨by simpa using haccepts, hname, fun a ha =>
      hoperands (some a) (List.mem_map.2 ⟨a, ha, rfl⟩) a rfl⟩
    refine ⟨fun _ _ => trivial, fun _ s t h _ => ?_⟩
    obtain ⟨houtcome, hleft, hover⟩ := apply h hargs happlies
    refine ⟨houtcome, hleft, fun slot hslot v hv => hover v ?_⟩
    rw [hslot, hv]

/-- A number that is negated, and the number with the other sign. -/
theorem follows_negate {text : String} (htext : Lexeme.IsNumeral text) (rest rest' : List Token) :
    (free Unfolds).Follows True (Slot.Holds (Value.Over Name.IsMade))
      (do Evaluation.apply .emit .negate [← (Expr.number text).evaluate (.ofMode .emit) rest])
      ((Expr.number (Token.turnSign text)).evaluate (.ofMode .emit) rest') := by
  obtain ⟨x, hx, hturned⟩ := Number.read?_turnSign htext
  rw [Expr.evaluate, Expr.evaluate, hx, hturned, bind_assoc]
  refine (follows_leave rest rest').step fun _ _ => ⟨fun _ _ => trivial, fun _ s t h _ => ?_⟩
  obtain ⟨houtcome, hleft⟩ := apply_negate h x
  refine ⟨houtcome, hleft, fun slot hslot v hv => ?_⟩
  cases hslot
  cases hv
  trivial

end Unfolds

end Evaluation

namespace Expr

open Calculator (Name)
open Coupling (free)
open Evaluation (Unfolds)

mutual

/-- An expression and the folded one come to the same. -/
theorem follows_folded : (e : Expr) → (∀ t ∈ e.tokens, t.IsWritten) → (rest rest' : List Token) →
    (free Unfolds).Follows True (Slot.Holds (Value.Over Name.IsMade))
      (e.evaluate (.ofMode .emit) rest) (e.folded.evaluate (.ofMode .emit) rest')
  | number text, _, rest, rest' => by
    rw [folded, evaluate, evaluate]
    refine (Unfolds.follows_leave rest rest').step fun _ _ => ?_
    cases Number.read? text with
    | some x => exact .pure fun _ => .some trivial
    | none => exact .throw _
  | constant c, _, rest, rest' =>
    (Unfolds.follows_leave rest rest').step fun _ _ => .pure fun _ => .some (by cases c <;> trivial)
  | order _, _, rest, rest' =>
    (Unfolds.follows_leave rest rest').step fun _ _ => .pure fun _ => .some trivial
  | identifier name, _, rest, rest' =>
    (Unfolds.follows_leave rest rest').step fun _ _ =>
      (Unfolds.follows_identifier name).weaken id fun _ _ => False.elim
  | call name args, h, rest, rest' => by
    have hargs : ∀ t ∈ tokensAll args, t.IsWritten := fun t ht => h t (List.mem_append_left _ ht)
    rw [folded, evaluate, evaluate, length_foldedAll]
    split
    · exact (Unfolds.follows_leave _ _).step fun _ _ => .throw _
    · split
      · next haccepts =>
        refine (follows_foldedAll args hargs rest rest').step fun slots hslots => ?_
        exact Unfolds.follows_apply (p := .call _) (by rwa [hslots.1]) trivial hslots.2
      · exact (Unfolds.follows_leave _ _).step fun _ _ => .throw _
  | list items, h, rest, rest' => by
    have hitems : ∀ t ∈ tokensAll items, t.IsWritten := fun t ht => h t (List.mem_append_left _ ht)
    rw [folded, evaluate, evaluate, length_foldedAll]
    split
    · next haccepts =>
      refine (follows_foldedAll items hitems rest rest').step fun slots hslots => ?_
      refine Unfolds.follows_apply ?_ trivial hslots.2
      simpa [Primitive.accepts, hslots.1] using haccepts
    · exact (Unfolds.follows_leave _ _).step fun _ _ => .throw _
  | group inner, h, rest, rest' => follows_folded inner h rest rest'
  | component object which, h, rest, rest' => by
    obtain ⟨hobject, hwhich⟩ := List.forall_mem_append.1 h
    refine (follows_folded object hobject rest rest').step fun slot hslot => ?_
    exact Unfolds.follows_apply rfl (hwhich _ List.mem_cons_self).hasName (by simpa using hslot)
  | unary .negate operand, h, rest, rest' => by
    obtain ⟨hoperand, -⟩ := List.forall_mem_append.1 h
    rw [folded]
    split
    · next text htext =>
      rw [tokens_of_literal? htext] at hoperand
      have hnegate := Unfolds.follows_negate (hoperand _ List.mem_cons_self) rest rest'
      rwa [← evaluate_of_literal? htext] at hnegate
    · refine (follows_folded operand hoperand rest rest').step fun slot hslot => ?_
      exact Unfolds.follows_apply rfl trivial (by simpa using hslot)
  | unary .not operand, h, rest, rest' => by
    obtain ⟨hoperand, -⟩ := List.forall_mem_append.1 h
    refine (follows_folded operand hoperand rest rest').step fun slot hslot => ?_
    exact Unfolds.follows_apply rfl trivial (by simpa using hslot)
  | binary op lhs rhs, h, rest, rest' => by
    simp only [tokens, List.forall_mem_append] at h
    obtain ⟨⟨hlhs, hrhs⟩, -⟩ := h
    refine (follows_folded rhs hrhs _ _).step fun second hsecond => ?_
    refine (follows_folded lhs hlhs rest rest').step fun first hfirst => ?_
    exact Unfolds.follows_apply rfl trivial (by simpa using ⟨hfirst, hsecond⟩)
  | compare test lhs rhs, h, rest, rest' => by
    simp only [tokens, List.forall_mem_append] at h
    obtain ⟨⟨hlhs, hrhs⟩, -⟩ := h
    refine (follows_folded rhs hrhs _ _).step fun second hsecond => ?_
    refine (follows_folded lhs hlhs rest rest').step fun first hfirst => ?_
    refine Unfolds.follows_apply rfl trivial ?_
    simpa using ⟨hfirst, hsecond, .some trivial, .some trivial⟩
  | ternary test lhs rhs ifTrue ifFalse, h, rest, rest' => by
    simp only [tokens, List.forall_mem_append] at h
    obtain ⟨⟨⟨⟨⟨hlhs, hrhs⟩, -⟩, htrue⟩, hfalse⟩, -⟩ := h
    refine (follows_folded ifFalse hfalse _ _).step fun otherwise hotherwise => ?_
    refine (follows_folded ifTrue htrue _ _).step fun consequent hconsequent => ?_
    refine (follows_folded rhs hrhs _ _).step fun second hsecond => ?_
    refine (follows_folded lhs hlhs rest rest').step fun first hfirst => ?_
    refine Unfolds.follows_apply rfl trivial ?_
    simpa using ⟨hfirst, hsecond, hconsequent, hotherwise⟩

theorem follows_foldedAll : (es : List Expr) → (∀ t ∈ tokensAll es, t.IsWritten) →
    (rest rest' : List Token) → (free Unfolds).Follows True
      (fun slots => slots.length = es.length ∧
        ∀ slot ∈ slots, Slot.Holds (Value.Over Name.IsMade) slot)
      (evaluateAll (.ofMode .emit) es rest) (evaluateAll (.ofMode .emit) (foldedAll es) rest')
  | [], _, _, _ => .pure fun _ => ⟨rfl, List.forall_mem_nil _⟩
  | e :: es, h, rest, rest' => by
    obtain ⟨he, hes⟩ := List.forall_mem_append.1 h
    refine (follows_foldedAll es hes _ _).step fun slots hslots => ?_
    refine (follows_folded e he rest rest').step fun slot hslot => ?_
    exact .pure fun _ =>
      ⟨congrArg (· + 1) hslots.1, List.forall_mem_cons.2 ⟨hslot, hslots.2⟩⟩

end

end Expr

/-- A statement and the folded one come to the same. There is no destination to assign to. -/
theorem Statement.follows_folded (s : Statement) (h : ∀ t ∈ s.expression.tokens, t.IsWritten) :
    (Coupling.free Evaluation.Unfolds).Follows True (fun _ => True)
      (s.evaluate (.ofMode .emit)) (s.folded.evaluate (.ofMode .emit)) := by
  obtain ⟨destination, e⟩ := s
  cases destination with
  | none => exact (e.follows_folded h [] []).weaken id fun _ _ _ => trivial
  | some name =>
    refine (Evaluation.Unfolds.follows_leave _ _).step fun _ _ => ?_
    exact (Evaluation.Unfolds.follows_identifier name).step fun _ => False.elim

/-! ## Compilation -/

namespace Compiler

open Calculator (Name)
open Coupling (free)

/-- The tokens of a statement and the folded ones are run to the same end. -/
theorem follows_run_folded {statement : Statement}
    (h : ∀ t ∈ statement.expression.tokens, t.IsWritten) :
    (free fun s t : Compiler Calculator Name =>
      Evaluation.Unfolds s.evaluation t.evaluation).Follows True (fun _ => True)
      (run .emit statement.tokens) (run .emit (Token.foldNegation statement.tokens)) := by
  rw [run, run, ← Evaluation.recursive_evaluate_ofMode, ← Evaluation.recursive_evaluate_ofMode,
    ← statement.tokens_folded, statement.evaluate_tokens, statement.folded.evaluate_tokens]
  refine .step (.zoom (statement.follows_folded h) (fun _ _ hst => hst) fun _ _ _ _ _ hst => hst)
    fun slot _ => ?_
  refine .quiet (.quiet_right ?_ (exists_runOn_warning _)) (exists_runOn_warning _)
  -- the calculator concludes with the value as it is
  cases slot with
  | none => exact .pure fun _ => trivial
  | some v => exact ⟨fun _ _ => trivial, fun _ s t hst _ => ⟨rfl, hst, fun _ _ => trivial⟩⟩

/-- Folding moves just one of the negations that follow a number into the number, and leaves all
    other tokens in place. The tokens of an accepted source come to the same value or the same
    error whether they are folded or not, on every calculator, if nothing is bound. -/
theorem compileTokens_folding (c : Compiler Calculator Name) (log log' : List Line) :
    (∀ tokens out, Token.Folding tokens out ↔ out = Token.foldNegation tokens) ∧
      ∀ {limit : Nat} {source : String} {statement : Statement},
        Statement.parse limit source = .ok statement →
          ((compileTokens .emit (Token.foldNegation statement.tokens) []).runOn ⟨c, log⟩).1 =
            ((compileTokens .emit statement.tokens []).runOn ⟨c, log'⟩).1 := by
  refine ⟨fun tokens out => Token.folding_iff, fun {limit source statement} hparse => ?_⟩
  have hfollows : (free fun s t : Compiler Calculator Name =>
      Evaluation.Unfolds s.evaluation t.evaluation).Follows True (fun _ => True)
      (run .emit statement.tokens >>= product .emit)
      (run .emit (Token.foldNegation statement.tokens) >>= product .emit) :=
    (follows_run_folded (Statement.isWritten_of_parse hparse)).step fun _ _ =>
      .pure fun _ => trivial
  -- nothing is bound, and there is nothing in the cache
  have hstart : Evaluation.Unfolds (c.primed []).evaluation (c.primed []).evaluation :=
    { made := rfl, unbound := rfl, unbound' := rfl, remembers := id, apart := fun _ => rfl
      negated := fun h => by cases h
      handles := fun h => by cases h }
  exact (hfollows.keeps trivial ⟨c.primed [], _⟩ ⟨c.primed [], _⟩ hstart trivial).1.symm

/-- A product whose operands are one negated number, with and without parentheses, less a number
    negated twice, of which one negation stays. -/
theorem compileTokens_folding_difference :
    let source := "-2 * -(2) - --3"
    let two : Expr := .number "2"
    let e : Expr := .binary .subtract
      (.binary .multiply (.unary .negate two) (.unary .negate (.group two)))
      (.unary .negate (.unary .negate (.number "3")))
    let folded : List Token :=
      [.number "-2", .number "-2", .binary .multiply, .number "-3", .negate, .binary .subtract]
    let c : Compiler Calculator Name := { evaluation := { backend := {} } }
    Statement.parse 256 source = .ok ⟨none, e⟩ ∧ Token.foldNegation e.tokens = folded ∧
      Token.Folding e.tokens folded ∧
      ((compileTokens .emit folded []).runOn ⟨c, []⟩).1 =
        ((compileTokens .emit e.tokens []).runOn ⟨c, []⟩).1 := by
  intro source two e folded c
  have hscan : Lexeme.scan source = .ok
      [⟨.symbol .minus, ⟨0, 1⟩⟩, ⟨.number "2", ⟨1, 2⟩⟩, ⟨.symbol .star, ⟨3, 4⟩⟩,
        ⟨.symbol .minus, ⟨5, 6⟩⟩, ⟨.symbol .openParen, ⟨6, 7⟩⟩, ⟨.number "2", ⟨7, 8⟩⟩,
        ⟨.symbol .closeParen, ⟨8, 9⟩⟩, ⟨.symbol .minus, ⟨10, 11⟩⟩, ⟨.symbol .minus, ⟨12, 13⟩⟩,
        ⟨.symbol .minus, ⟨13, 14⟩⟩, ⟨.number "3", ⟨14, 15⟩⟩] := by
    decide +kernel
  have hparse : Statement.parse 256 source = .ok ⟨none, e⟩ := by
    rw [Statement.parse_eq hscan]
    rfl
  have hfold : Token.foldNegation e.tokens = folded := by decide +kernel
  obtain ⟨hfolding, hsame⟩ := compileTokens_folding c [] []
  have houtcome := hsame hparse
  rw [Statement.tokens, Statement.assignment, List.append_nil, hfold] at houtcome
  exact ⟨hparse, hfold, (hfolding _ _).2 hfold.symm, houtcome⟩

end Compiler

end RigExpr
