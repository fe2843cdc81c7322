import Mathlib.Data.List.Induction
import RigExpr.Proofs.Action
import RigExpr.Proofs.Evaluation.Congruence

/-!
# The applications of an evaluation

Primitives are applied through the cache. `Rules.recorded` are the rules of a mode with a record
of all applications, one after the other: whether the primitive was invoked or its value taken
from the cache, and what came of it. The record itself does not show (`seenAs_evaluate`).

As long as nothing fails, the cache has the value of each invocation and nothing else
(`History`), and the first failure ends the evaluation (`Ended`, `books_evaluate`). So a
primitive is invoked once for each signature.

* `Ended.invokedFirst`: an application is invoked just if it is the first with its signature.
* `Ended.pairwise`: applications with the same signature have the same value.
* `Ended.size`: the cache has an entry for each invocation that succeeded.
-/

namespace RigExpr

/-- An application of a primitive in the course of an evaluation. -/
structure Application (H : Type) where
  primitive : Primitive
  signature : String
  /-- Whether the primitive was invoked. If not, the value was in the cache. -/
  invoked : Bool
  outcome : Except CompileError (Value H)

/-- A backend, with all applications so far. -/
structure Recorded (β H : Type) where
  backend : β
  history : List (Application H) := []

namespace Recorded

variable {β H ε α : Type}

/-- A computation on the backend alone. -/
def within (a : Action ε β α) : Action ε (Recorded β H) α :=
  a.zoom (·.backend) (fun s b => { s with backend := b }) id

/-- Note an application whose value is in the cache. -/
def reuse (p : Primitive) (signature : String) (v : Value H) : Action ε (Recorded β H) Unit :=
  Action.change fun s => { s with history := s.history ++ [⟨p, signature, false, .ok v⟩] }

/-- Invoke a primitive, and note what comes of it. -/
def invoke [Backend β H ε] (p : Primitive) (signature : String) (args : List (Value H)) :
    Action CompileError (Recorded β H) (Value H) :=
  Action.ofFunction fun s =>
    let (outcome, left) := (p.invoke args).runOn ⟨s.state.backend, s.log⟩
    (outcome, ⟨⟨left.state, s.state.history ++ [⟨p, signature, true, outcome⟩]⟩, left.log⟩)

theorem seenAs_within (a : Action ε β α) :
    (within a : Action ε (Recorded β H) α).SeenAs (·.backend) a := by
  intro s
  rw [within, Action.runOn_zoom, Action.mapError_id]

theorem seenAs_reuse (p : Primitive) (signature : String) (v : Value H) :
    (reuse p signature v : Action ε (Recorded β H) Unit).SeenAs (·.backend) (pure ()) :=
  fun _ => rfl

theorem seenAs_invoke [Backend β H ε] (p : Primitive) (signature : String)
    (args : List (Value H)) :
    (invoke p signature args : Action CompileError (Recorded β H) (Value H)).SeenAs (·.backend)
      (p.invoke args) :=
  fun _ => rfl

end Recorded

namespace Evaluation

variable {β H ε : Type} [ToString H] [Backend β H ε]

/-- The rules of a mode, with a record of applications. -/
def Rules.recorded (mode : Mode) : Rules (Recorded β H) H where
  identifier := Evaluation.identifier mode
  apply p operands := do
    match mode, values? operands with
    | .validate, _ => return none
    | .emit, none => return none
    | .emit, some args =>
      let s ← Action.state
      let signature := p.signature (args.map s.bindings.describe)
      match s.cache.get? signature with
      | some v =>
        Action.say .trace ("cache hit: " ++ signature)
        onBackend (Recorded.reuse p signature v)
        return some v
      | none =>
        Action.say .debug ("emit " ++ p.label ++ ": " ++ signature)
        let v ← onBackend (Recorded.invoke p signature args)
        Action.change fun s => { s with cache := s.cache.insert signature v }
        return some v
  assign source destination := do
    match mode, source, destination with
    | .emit, some source, some destination =>
      Action.say .debug ("equal(" ++ source.text ++ ", " ++ destination.text ++ ")")
      onBackend (Recorded.within (Primitive.onBackend (Backend.drive source destination)))
    | _, _, _ => pure ()
    return none

/-! ## The record does not show -/

/-- The evaluation without the record. -/
def plain (s : Evaluation (Recorded β H) H) : Evaluation β H where
  backend := s.backend.backend
  bindings := s.bindings
  cache := s.cache
  left := s.left

omit [ToString H] in
theorem seenAs_onBackend {α : Type} {a : Action CompileError (Recorded β H) α}
    {b : Action CompileError β α} (h : a.SeenAs (·.backend) b) :
    (onBackend a : Step (Recorded β H) H α).SeenAs plain (onBackend b) :=
  .zoom h (fun _ => rfl) fun _ _ => rfl

omit [ToString H] in
theorem seenAs_identifier (mode : Mode) (name : String) :
    (identifier mode name : Step (Recorded β H) H (Slot H)).SeenAs plain
      (identifier mode name) := by
  refine .state fun s => ?_
  dsimp only [plain]
  obtain ⟨found, bindings⟩ := s.bindings.resolve name
  refine .bind (.change fun _ => by rfl) fun _ => ?_
  cases found with
  | some v => exact .pure _
  | none =>
    cases mode with
    | emit => exact .throw _
    | validate => exact .bind (.change fun _ => by rfl) fun _ => .pure _

theorem seenAs_apply (mode : Mode) (p : Primitive) (operands : List (Slot H)) :
    ((Rules.recorded mode).apply p operands : Step (Recorded β H) H (Slot H)).SeenAs plain
      (apply mode p operands) := by
  dsimp only [Rules.recorded, apply]
  cases mode with
  | validate => exact .pure _
  | emit =>
    cases values? operands with
    | none => exact .pure _
    | some args =>
      refine .state fun s => ?_
      dsimp only [plain]
      generalize p.signature (args.map s.bindings.describe) = signature
      cases s.cache.get? signature with
      | some v =>
        refine .bind (.say _ _) fun _ => ?_
        exact (seenAs_onBackend (Recorded.seenAs_reuse _ _ _)).andThen (.pure _)
      | none =>
        refine .bind (.say _ _) fun _ => ?_
        refine .bind (seenAs_onBackend (Recorded.seenAs_invoke _ _ _)) fun v => ?_
        exact .bind (.change fun _ => by rfl) fun _ => .pure _

theorem seenAs_assign (mode : Mode) (source destination : Slot H) :
    ((Rules.recorded mode).assign source destination : Step (Recorded β H) H (Slot H)).SeenAs plain
      (assign mode source destination) := by
  match mode, source, destination with
  | .emit, some source, some destination =>
    refine .bind (.say _ _) fun _ => ?_
    exact .bind (seenAs_onBackend (Recorded.seenAs_within _)) fun _ => .pure _
  | .emit, none, _ | .emit, some _, none | .validate, _, _ => exact .pure _

/-- Without the record, an evaluation with a record is an evaluation. -/
theorem seenAs_evaluate (mode : Mode) (tokens : List Token) :
    (Recursive.evaluate (.recorded mode) tokens : Step (Recorded β H) H (Slot H)).SeenAs plain
      (evaluate mode tokens) := by
  have hcongruence : Congruence fun {α} (a : Step (Recorded β H) H α) b => a.SeenAs plain b :=
    { pure := .pure
      throw := .throw
      bind := fun ha hf => .bind ha hf
      leave := fun _ => .change fun _ => rfl }
  rw [← recursive_evaluate_ofMode]
  exact hcongruence.evaluate
    ⟨⟨seenAs_identifier mode, seenAs_apply mode⟩, seenAs_assign mode⟩ tokens

end Evaluation

/-! ## Histories -/

section History

variable {H : Type} {cache : Table String (Value H)} {history : List (Application H)}

/-- The applications so far, all of which went well, with what the cache holds after them. -/
inductive History : Table String (Value H) → List (Application H) → Prop
  | nil : History {} []
  | reuse {cache : Table String (Value H)} {history : List (Application H)} {signature : String}
      {v : Value H} (h : History cache history) (hv : cache.get? signature = some v)
      (p : Primitive) : History cache (history ++ [⟨p, signature, false, .ok v⟩])
  | invoke {cache : Table String (Value H)} {history : List (Application H)} {signature : String}
      (h : History cache history) (hnone : cache.get? signature = none) (p : Primitive)
      (v : Value H) :
      History (cache.insert signature v) (history ++ [⟨p, signature, true, .ok v⟩])

/-- The applications of an evaluation that has come to an end: only the last one may have
    failed. -/
inductive Ended : Table String (Value H) → List (Application H) → Prop
  | well {cache : Table String (Value H)} {history : List (Application H)}
      (h : History cache history) : Ended cache history
  | failed {cache : Table String (Value H)} {history : List (Application H)} {signature : String}
      (h : History cache history) (hnone : cache.get? signature = none) (p : Primitive)
      (e : CompileError) : Ended cache (history ++ [⟨p, signature, true, .error e⟩])

namespace History

/-- The cache has the value of each application. -/
theorem get? (h : History cache history) :
    ∀ a ∈ history, ∃ v, a.outcome = .ok v ∧ cache.get? a.signature = some v := by
  induction h with
  | nil => exact fun a ha => absurd ha List.not_mem_nil
  | reuse h hv p ih =>
    exact List.forall_mem_append.2 ⟨ih, List.forall_mem_singleton.2 ⟨_, rfl, hv⟩⟩
  | invoke h hnone p v ih =>
    refine List.forall_mem_append.2 ⟨fun a ha => ?_, ?_⟩
    · obtain ⟨w, hw, hget⟩ := ih a ha
      refine ⟨w, hw, ?_⟩
      -- the new signature is none of those before
      rw [Table.get?_insert_of_ne _ _ ?_, hget]
      rintro rfl
      exact absurd (hnone.symm.trans hget) nofun
    · exact List.forall_mem_singleton.2 ⟨v, rfl, Table.get?_insert_self ..⟩

theorem signature_ne (h : History cache history) {signature : String}
    (hnone : cache.get? signature = none) : ∀ a ∈ history, a.signature ≠ signature := by
  rintro a ha rfl
  obtain ⟨v, -, hget⟩ := h.get? a ha
  exact absurd (hnone.symm.trans hget) nofun

/-- What is in the cache was invoked. -/
theorem exists_of_get? (h : History cache history) {signature : String} {v : Value H}
    (hv : cache.get? signature = some v) : ∃ a ∈ history, a.signature = signature := by
  induction h with
  | nil => cases hv
  | reuse h hv' p ih =>
    obtain ⟨a, ha, hsignature⟩ := ih hv
    exact ⟨a, List.mem_append_left _ ha, hsignature⟩
  | @invoke _ _ signature' h hnone p w ih =>
    by_cases heq : signature' = signature
    · exact ⟨_, List.mem_append_right _ List.mem_cons_self, heq⟩
    · rw [Table.get?_insert_of_ne _ _ heq] at hv
      obtain ⟨a, ha, hsignature⟩ := ih hv
      exact ⟨a, List.mem_append_left _ ha, hsignature⟩

theorem size (h : History cache history) :
    cache.size = ((history.filter (·.invoked)).filter (·.outcome.isOk)).length := by
  induction h with
  | nil => rfl
  | reuse h hv p ih => simpa using ih
  | invoke h hnone p v ih =>
    rw [Table.size_insert_of_get?_eq_none hnone, ih]
    simp [Except.isOk, Except.toBool]

/-- Applications with the same signature have the same value. -/
theorem pairwise (h : History cache history) :
    history.Pairwise fun a b =>
      a.signature = b.signature → ∃ v, a.outcome = .ok v ∧ b.outcome = .ok v := by
  refine List.pairwise_of_forall_mem_list fun a ha b hb hsignature => ?_
  obtain ⟨v, hv, hget⟩ := h.get? a ha
  obtain ⟨w, hw, hget'⟩ := h.get? b hb
  rw [hsignature, hget'] at hget
  exact ⟨v, hv, Option.some.inj hget ▸ hw⟩

end History

/-- What holds of each application and those before it, with one more application. -/
theorem forall_prefix_concat {P : List (Application H) → Application H → Prop}
    (h : ∀ before a, before ++ [a] <+: history → P before a) {x : Application H}
    (hx : P history x) : ∀ before a, before ++ [a] <+: history ++ [x] → P before a := by
  intro before a hpre
  rcases List.prefix_concat_iff.1 hpre with heq | hpre
  · obtain ⟨rfl, hlast⟩ := List.append_inj' heq rfl
    exact List.singleton_inj.1 hlast ▸ hx
  · exact h before a hpre

/-- An application is invoked if and only if it is the first with its signature. -/
def InvokedFirst (history : List (Application H)) : Prop :=
  ∀ before a, before ++ [a] <+: history →
    (a.invoked = true ↔ ∀ b ∈ before, b.signature ≠ a.signature)

theorem History.invokedFirst (h : History cache history) : InvokedFirst history := by
  induction h with
  | nil =>
    intro before a hpre
    exact absurd (List.prefix_nil.1 hpre) (by simp)
  | reuse h hv p ih =>
    refine forall_prefix_concat ih ⟨nofun, fun hfirst => ?_⟩
    obtain ⟨a, ha, hsignature⟩ := h.exists_of_get? hv
    exact absurd hsignature (hfirst a ha)
  | invoke h hnone p v ih =>
    exact forall_prefix_concat ih ⟨fun _ => h.signature_ne hnone, fun _ => rfl⟩

/-- Where only first applications are invoked, the signatures of invocations are distinct. -/
theorem InvokedFirst.nodup (h : InvokedFirst history) :
    ((history.filter (·.invoked)).map (·.signature)).Nodup := by
  -- the last application is the one that has all others before it
  induction history using List.reverseRecOn with
  | nil => exact List.nodup_nil
  | append_singleton rest x ih =>
    have hrest : InvokedFirst rest := fun before a hpre =>
      h before a (hpre.trans (List.prefix_append _ _))
    rw [List.filter_append, List.map_append]
    refine List.nodup_append.2 ⟨ih hrest, ?_, ?_⟩
    · cases hx : x.invoked <;> simp [hx]
    · intro signature hsignature signature' hx
      obtain ⟨a, ha, rfl⟩ := List.mem_map.1 hsignature
      obtain ⟨x', hx', rfl⟩ := List.mem_map.1 hx
      obtain ⟨hmem, hinvoked⟩ := List.mem_filter.1 hx'
      obtain rfl := List.mem_singleton.1 hmem
      exact (h rest x' (List.prefix_refl _)).1 hinvoked a (List.mem_filter.1 ha).1

namespace Ended

theorem invokedFirst (h : Ended cache history) : InvokedFirst history := by
  cases h with
  | well h => exact h.invokedFirst
  | failed h hnone p e =>
    exact forall_prefix_concat h.invokedFirst ⟨fun _ => h.signature_ne hnone, fun _ => rfl⟩

theorem pairwise (h : Ended cache history) :
    history.Pairwise fun a b =>
      a.signature = b.signature → ∃ v, a.outcome = .ok v ∧ b.outcome = .ok v := by
  cases h with
  | well h => exact h.pairwise
  | failed h hnone p e =>
    refine List.pairwise_append.2 ⟨h.pairwise, List.pairwise_singleton _ _, ?_⟩
    intro a ha b hb hsignature
    obtain rfl := List.mem_singleton.1 hb
    exact absurd hsignature (h.signature_ne hnone a ha)

/-- The cache has an entry for each invocation that went well. -/
theorem size (h : Ended cache history) :
    cache.size = ((history.filter (·.invoked)).filter (·.outcome.isOk)).length := by
  cases h with
  | well h => exact h.size
  | failed h hnone p e =>
    rw [h.size]
    simp [Except.isOk, Except.toBool]

end Ended

end History

/-! ## The record of an evaluation -/

/-- The cache goes with the applications: at all times those have come to an end, perhaps. -/
def bookkeeping {σ H : Type} (ledger : σ → Table String (Value H) × List (Application H)) :
    Upkeep σ where
  holds s := Ended (ledger s).1 (ledger s).2
  grows _ _ := True
  refl _ := trivial
  trans _ _ := trivial

/-- If all applications so far went well, this is so after the action too, unless it fails. -/
def Books {ε σ H α : Type} (ledger : σ → Table String (Value H) × List (Application H))
    (a : Action ε σ α) : Prop :=
  ∀ s, History (ledger s).1 (ledger s).2 →
    (bookkeeping ledger).Keeps s a fun _ t => History (ledger t).1 (ledger t).2

namespace Books

variable {ε ε' σ τ H α γ : Type} {ledger : σ → Table String (Value H) × List (Application H)}

theorem of_leaves {a : Action ε σ α} (h : a.Leaves ledger) : Books ledger a := by
  intro s hs log
  rw [← h ⟨s, log⟩] at hs
  exact ⟨.well hs, trivial, fun _ _ => hs⟩

protected theorem throw (e : ε) : Books ledger (throw e : Action ε σ α) := .of_leaves (.throw e)

protected theorem pure (v : α) : Books ledger (pure v : Action ε σ α) := .of_leaves (.pure v)

protected theorem bind {a : Action ε σ α} (h : Books ledger a) {f : α → Action ε σ γ}
    (hf : ∀ v, Books ledger (f v)) : Books ledger (a >>= f) :=
  fun s hs => .bind (h s hs) fun v t _ _ ht => hf v t ht

/-- An action on a part of the state that has both the cache and the record. -/
protected theorem zoom {inner : σ → τ} {put : σ → τ → σ} {explain : ε → ε'}
    {ledger' : τ → Table String (Value H) × List (Application H)} {a : Action ε τ α}
    (h : Books ledger' a) (hinner : ∀ s, ledger' (inner s) = ledger s)
    (hput : ∀ s t, ledger (put s t) = ledger' t) :
    Books ledger (Action.zoom inner put explain a) := by
  intro s hs
  rw [← hinner] at hs
  refine (Upkeep.Keeps.zoom (h (inner s) hs) fun t ht _ => ⟨?_, trivial⟩).mono ?_
  · show Ended (ledger (put s t)).1 (ledger (put s t)).2
    rw [hput]
    exact ht
  · rintro v _ - - ⟨t, rfl, ht⟩
    rw [hput]
    exact ht

end Books

namespace Evaluation

variable {β H ε : Type} [ToString H] [Backend β H ε]

/-- The cache, and the applications so far. -/
def ledger (s : Evaluation (Recorded β H) H) : Table String (Value H) × List (Application H) :=
  (s.cache, s.backend.history)

omit [ToString H] in
theorem leaves_identifier (mode : Mode) (name : String) :
    (identifier mode name : Step (Recorded β H) H (Slot H)).Leaves ledger := by
  refine .bind .state fun s => ?_
  dsimp only
  refine .bind (.change fun _ => by rfl) fun _ => ?_
  split
  · exact .pure _
  · exact .throw _
  · exact .bind (.change fun _ => by rfl) fun _ => .pure _

omit [ToString H] in
theorem leaves_within {α : Type} (a : Action CompileError β α) :
    (onBackend (Recorded.within a) : Step (Recorded β H) H α).Leaves ledger := by
  intro s
  rfl

omit [ToString H] in
theorem runOn_invoke {p : Primitive} {args : List (Value H)}
    {s : Logged (Evaluation (Recorded β H) H)} {outcome : Except CompileError (Value H)}
    {left : Logged β}
    (h : (p.invoke args).runOn ⟨s.state.backend.backend, s.log⟩ = (outcome, left))
    (signature : String) :
    (onBackend (Recorded.invoke p signature args)).runOn s =
      (outcome, ⟨{ s.state with backend :=
        ⟨left.state, s.state.backend.history ++ [⟨p, signature, true, outcome⟩]⟩ }, left.log⟩) := by
  rw [onBackend, Action.runOn_zoom, Action.mapError_id, Recorded.invoke, Action.runOn_ofFunction, h]

theorem books_apply (mode : Mode) (p : Primitive) (operands : List (Slot H)) :
    Books ledger ((Rules.recorded mode).apply p operands : Step (Recorded β H) H (Slot H)) := by
  dsimp only [Rules.recorded]
  cases mode with
  | validate => exact .pure _
  | emit =>
    cases values? operands with
    | none => exact .pure _
    | some args =>
      refine fun s hs => .state ?_
      generalize p.signature (args.map s.bindings.describe) = signature
      cases hget : s.cache.get? signature with
      | some v =>
        have hreuse := hs.reuse hget p
        exact .say fun log => ⟨.well hreuse, trivial, fun _ _ => hreuse⟩
      | none =>
        refine .say fun log => ?_
        -- the cache and the record are right again only once both are up to date
        rcases hrun : (p.invoke args).runOn ⟨s.backend.backend, log⟩ with ⟨e | v, left⟩
        · rw [Action.runOn_bind_of_error (runOn_invoke (s := ⟨s, log⟩) hrun signature)]
          exact ⟨.failed hs hget p e, trivial, nofun⟩
        · rw [Action.runOn_bind_of_ok (runOn_invoke (s := ⟨s, log⟩) hrun signature)]
          have hstored := hs.invoke hget p v
          exact ⟨.well hstored, trivial, fun _ _ => hstored⟩

theorem leaves_assign (mode : Mode) (source destination : Slot H) :
    ((Rules.recorded mode).assign source destination : Step (Recorded β H) H (Slot H)).Leaves
      ledger := by
  match mode, source, destination with
  | .emit, some source, some destination =>
    exact .bind (.say _ _) fun _ => .bind (leaves_within _) fun _ => .pure _
  | .emit, none, _ | .emit, some _, none | .validate, _, _ => exact .pure _

/-- The cache keeps up with the applications of an evaluation, up to the first failure. -/
theorem books_evaluate (mode : Mode) (tokens : List Token) :
    Books ledger (Recursive.evaluate (.recorded mode) tokens : Step (Recorded β H) H (Slot H)) := by
  have hcongruence : Congruence fun {α} (a _ : Step (Recorded β H) H α) => Books ledger a :=
    { pure := .pure
      throw := .throw
      bind := fun ha hf => .bind ha hf
      leave := fun _ => .of_leaves (.change fun _ => rfl) }
  have hrules : Rules.Related (fun {α} (a _ : Step (Recorded β H) H α) => Books ledger a)
      (.recorded mode) (.recorded mode) :=
    { identifier := fun name => .of_leaves (leaves_identifier mode name)
      apply := books_apply mode
      assign := fun source destination => .of_leaves (leaves_assign mode source destination) }
  exact hcongruence.evaluate hrules tokens

/-- Validation applies nothing. -/
theorem leaves_evaluate_validate (tokens : List Token) :
    (Recursive.evaluate (.recorded .validate) tokens : Step (Recorded β H) H (Slot H)).Leaves
      ledger := by
  have hrules : Rules.Related (fun {α} (a _ : Step (Recorded β H) H α) => a.Leaves ledger)
      (.recorded .validate) (.recorded .validate) :=
    { identifier := leaves_identifier .validate
      apply := fun _ _ => .pure _
      assign := leaves_assign .validate }
  exact leaves_evaluate (fun _ => .change fun _ => rfl) hrules tokens

end Evaluation

end RigExpr
