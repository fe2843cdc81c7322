import RigExpr.Calculator
import RigExpr.Graph.Builder
import RigExpr.Proofs.Evaluation.History
import RigExpr.Proofs.Graph.Construction
import RigExpr.Proofs.Primitive

/-!
# Emissions in the log

The log announces each invocation of a primitive by a line of its own, which tells the signature
(`Application.signature_eq_of_line_eq`). Nothing else that an evaluation writes looks like that,
nor does anything that the calculator or the builder writes (`Backend.Quiet`). So the invocations
can be read off the log (`Evaluation.announces_evaluate`).
-/

namespace RigExpr

/-- Whether the line announces the invocation of a primitive. -/
def Line.isEmission (line : Line) : Bool :=
  line.level = .debug ∧ "emit ".toList <+: line.text.toList

theorem Line.isEmission_of_level {level : Level} (h : level ≠ .debug) (text : String) :
    Line.isEmission ⟨level, text⟩ = false := by
  simp [isEmission, h]

/-- A line that starts otherwise is no emission. -/
theorem Line.isEmission_append {start : String} (hlength : 5 ≤ start.toList.length)
    (hstart : ¬"emit ".toList <+: start.toList) (level : Level) (rest : String) :
    Line.isEmission ⟨level, start ++ rest⟩ = false := by
  refine decide_eq_false fun h => hstart ?_
  have hemit : "emit ".toList <+: (start ++ rest).toList := h.2
  rw [String.toList_append] at hemit
  exact List.prefix_of_prefix_length_le hemit (List.prefix_append _ _) hlength

/-! ## The line of an invocation -/

/-- The words of the log for a primitive have no colon. -/
theorem Primitive.colon_notMem_label (p : Primitive) : ':' ∉ p.label.toList := by
  cases p with
  | binary op => cases op <;> decide
  | call f => cases f <;> decide
  | condition test => exact (by decide : ':' ∉ "condition".toList)
  | component which => exact (by decide : ':' ∉ "get_component".toList)
  | negate | not | list => decide

namespace Application

variable {H : Type}

/-- The line of the log that announces an invocation. -/
def line (a : Application H) : Line :=
  ⟨.debug, "emit " ++ a.primitive.label ++ ": " ++ a.signature⟩

theorem isEmission_line (a : Application H) : a.line.isEmission = true := by
  refine decide_eq_true ⟨rfl, ?_⟩
  simp [line, String.append_assoc]

/-- The line tells the signature: it comes after the first colon. -/
theorem signature_eq_of_line_eq {a b : Application H} (h : a.line = b.line) :
    a.signature = b.signature := by
  have hrest (a : Application H) :
      (a.primitive.label.toList ++ ':' :: ' ' :: a.signature.toList).dropWhile (· ≠ ':') =
        ':' :: ' ' :: a.signature.toList := by
    rw [List.dropWhile_append_of_pos]
    · simp
    · rintro c hc
      refine decide_eq_true ?_
      rintro rfl
      exact a.primitive.colon_notMem_label hc
  have htext : a.primitive.label.toList ++ ':' :: ' ' :: a.signature.toList =
      b.primitive.label.toList ++ ':' :: ' ' :: b.signature.toList := by
    have h := congrArg (·.text.toList) h
    simpa [line] using h
  have hdrop := congrArg (List.dropWhile (· ≠ ':')) htext
  rw [hrest, hrest] at hdrop
  exact String.toList_injective (List.cons.inj (List.cons.inj hdrop).2).2

end Application

/-! ## What backends write -/

/-- The action only adds lines to the log, and no emissions. -/
abbrev Action.Quiet {ε σ α : Type} (a : Action ε σ α) : Prop :=
  a.Writes fun line => line.isEmission = false

namespace Backend

variable {β H ε : Type} [Backend β H ε]

variable (β) in
/-- What the backend writes are no emissions. -/
structure Quiet : Prop where
  perform : ∀ op, (perform op : Action ε β (Value H)).Quiet
  drive : ∀ source destination, (drive source destination : Action ε β Unit).Quiet
  conclude : ∀ v, (conclude v : Action ε β (Value H)).Quiet

theorem Quiet.composed (h : Quiet β) {known : Operation H → Prop} {args : List (Value H)}
    {a : Action ε β (Value H)} (ha : Composed known args a) : a.Quiet := by
  induction ha with
  | perform op => exact h.perform op
  | bind op _ _ _ _ _ ih => exact .bind (h.perform op) ih

theorem Quiet.does (h : Quiet β) {known : Operation H → Prop} {args : List (Value H)}
    {a : Action CompileError β (Value H)} (ha : Primitive.Does known args a) : a.Quiet := by
  cases ha with
  | composed ha => exact .zoom (h.composed ha)
  | operand => exact .pure _
  | isScalar v => exact .bind .state fun _ => .pure _
  | isVector v => exact .bind .state fun _ => .pure _
  | list => exact .ofExcept _
  | throw e => exact .throw e

end Backend

theorem Calculator.quiet : Backend.Quiet Calculator where
  perform op := by
    refine .bind (.change _) fun _ => .bind (.ofExcept _) fun found => ?_
    cases found with
    | some v => exact .pure _
    | none => exact .bind (.change _) fun _ => .bind .state fun _ => .pure _
  drive _ _ := .change _
  conclude _ := .pure _

namespace Builder

theorem quiet_addNode (kind : Kind) (params : Params) (inputs : List (String × Plug)) :
    (addNode kind params inputs).Quiet := by
  refine .bind .state fun b => .bind (.say ?_) fun _ => .bind (.change _) fun _ => .pure _
  rw [String.append_assoc, String.append_assoc]
  exact Line.isEmission_append (by decide) (by decide) _ _

theorem quiet_construction :
    Construction False (fun _ => True) fun {α} (a : Build α) => a.Quiet where
  pure := .pure
  throw := .throw
  state := .state
  bind ha hf := .bind ha hf
  addNode inputs _ _ _ := quiet_addNode _ _ inputs
  constant _ := by
    refine .bind .state fun b => ?_
    split
    · exact .pure _
    · exact .bind (quiet_addNode _ _ _) fun p => .bind (.change _) fun _ => .pure p

theorem quiet_drive (source destination : Value Plug) : (drive source destination).Quiet := by
  rw [drive.eq_def]
  split
  · refine .bind .state fun b => ?_
    split
    · refine .bind (quiet_construction.materialize source) fun p => .bind .state fun b' => ?_
      split
      · exact .throw _
      · refine .bind (.change _) fun _ => ?_
        split
        · exact .say (Line.isEmission_of_level (by decide) _)
        · exact .pure _
    · exact .throw _
  · exact .throw _

theorem quiet : Backend.Quiet Builder where
  perform op := quiet_construction.perform False.elim op.accesses_all
  drive := quiet_drive
  conclude v := by
    refine .bind (.say ?_) fun _ => .bind (.change _) fun _ => .pure _
    exact Line.isEmission_append (by decide) (by decide) _ _

end Builder

/-! ## The record in the log -/

/-- The emissions that the action writes are the lines of the invocations that it adds to the
    history. -/
def Announces {ε σ H α : Type} (history : σ → List (Application H)) (a : Action ε σ α) : Prop :=
  ∀ s, ∃ applications lines,
    history (a.runOn s).2.state = history s.state ++ applications ∧
    (a.runOn s).2.log = s.log ++ lines ∧
    lines.filter (·.isEmission) = (applications.filter (·.invoked)).map (·.line)

namespace Announces

variable {ε ε' σ τ H α γ : Type} {history : σ → List (Application H)} {a : Action ε σ α}

theorem of_quiet (hleaves : a.Leaves history) (hquiet : a.Quiet) : Announces history a := by
  intro s
  obtain ⟨lines, hlog, hlines⟩ := hquiet s
  refine ⟨[], lines, by rw [hleaves, List.append_nil], hlog, ?_⟩
  exact List.filter_eq_nil_iff.2 fun line hline => by simp [hlines line hline]

protected theorem pure (v : α) : Announces history (pure v : Action ε σ α) :=
  .of_quiet (.pure v) (.pure v)

protected theorem throw (e : ε) : Announces history (throw e : Action ε σ α) :=
  .of_quiet (.throw e) (.throw e)

protected theorem bind (h : Announces history a) {f : α → Action ε σ γ}
    (hf : ∀ v, Announces history (f v)) : Announces history (a >>= f) := by
  intro s
  obtain ⟨applications, lines, hhistory, hlog, hlines⟩ := h s
  rcases hrun : a.runOn s with ⟨e | v, s'⟩
  · rw [Action.runOn_bind_of_error hrun]
    rw [hrun] at hhistory hlog
    exact ⟨applications, lines, hhistory, hlog, hlines⟩
  · rw [Action.runOn_bind_of_ok hrun]
    rw [hrun] at hhistory hlog
    obtain ⟨applications', lines', hhistory', hlog', hlines'⟩ := hf v s'
    refine ⟨applications ++ applications', lines ++ lines', ?_, ?_, ?_⟩
    · rw [hhistory', hhistory, List.append_assoc]
    · rw [hlog', hlog, List.append_assoc]
    · rw [List.filter_append, hlines, hlines', List.filter_append, List.map_append]

/-- An action on a part of the state that has the history. -/
protected theorem zoom {inner : σ → τ} {put : σ → τ → σ} {explain : ε → ε'}
    {history' : τ → List (Application H)} {a : Action ε τ α} (h : Announces history' a)
    (hinner : ∀ s, history' (inner s) = history s)
    (hput : ∀ s t, history (put s t) = history' t) :
    Announces history (Action.zoom inner put explain a) := by
  intro s
  rw [Action.runOn_zoom, hput, ← hinner]
  exact h ⟨inner s.state, s.log⟩

end Announces

namespace Evaluation

variable {β H ε : Type}

theorem quiet_identifier (mode : Mode) (name : String) :
    (identifier mode name : Step (Recorded β H) H (Slot H)).Quiet := by
  refine .bind .state fun s => ?_
  dsimp only
  refine .bind (.change _) fun _ => ?_
  split
  · exact .pure _
  · exact .throw _
  · exact .bind (.change _) fun _ => .pure _

theorem announces_identifier (mode : Mode) (name : String) :
    Announces (·.backend.history)
      (identifier mode name : Step (Recorded β H) H (Slot H)) :=
  .of_quiet (fun s => congrArg Prod.snd (leaves_identifier mode name s))
    (quiet_identifier mode name)

variable [Backend β H ε]

/-- The line comes first, and then the invocation that it announces. -/
theorem announces_invoke (hquiet : Backend.Quiet β) (p : Primitive) (signature : String)
    (args : List (Value H)) :
    Announces (·.backend.history)
      (do
        Action.say .debug ("emit " ++ p.label ++ ": " ++ signature)
        onBackend (Recorded.invoke p signature args) : Step (Recorded β H) H (Value H)) := by
  intro s
  let line : Line := ⟨.debug, "emit " ++ p.label ++ ": " ++ signature⟩
  obtain ⟨more, hlog, hmore⟩ :=
    hquiet.does (p.does_invoke args) ⟨s.state.backend.backend, s.log ++ [line]⟩
  rcases hrun : (p.invoke args).runOn ⟨s.state.backend.backend, s.log ++ [line]⟩
    with ⟨outcome, left⟩
  rw [hrun] at hlog
  have hinvoke := runOn_invoke (s := ⟨s.state, s.log ++ [line]⟩) hrun signature
  rw [Action.runOn_bind_of_ok (Action.runOn_say _ _ _), hinvoke]
  let invocation : Application H := ⟨p, signature, true, outcome⟩
  refine ⟨[invocation], line :: more, rfl, ?_, ?_⟩
  · rw [hlog, List.append_assoc]
    rfl
  · have hline : line.isEmission = true := invocation.isEmission_line
    rw [List.filter_cons_of_pos hline, List.filter_eq_nil_iff.2 fun _ h => by simp [hmore _ h]]
    rfl

variable [ToString H]

theorem announces_apply (hquiet : Backend.Quiet β) (mode : Mode) (p : Primitive)
    (operands : List (Slot H)) :
    Announces (·.backend.history)
      ((Rules.recorded mode).apply p operands : Step (Recorded β H) H (Slot H)) := by
  dsimp only [Rules.recorded]
  cases mode with
  | validate => exact .pure _
  | emit =>
    cases values? operands with
    | none => exact .pure _
    | some args =>
      refine .bind (.of_quiet .state .state) fun s => ?_
      generalize p.signature (args.map s.bindings.describe) = signature
      cases s.cache.get? signature with
      | some v =>
        have hsay : Line.isEmission ⟨.trace, "cache hit: " ++ signature⟩ = false :=
          Line.isEmission_of_level (by decide) _
        refine .bind (.of_quiet (.say _ _) (.say hsay)) fun _ => ?_
        refine .bind (fun s => ?_) fun _ => .pure _
        exact ⟨[⟨p, signature, false, .ok v⟩], [], rfl, (List.append_nil _).symm, rfl⟩
      | none =>
        rw [← bind_assoc]
        refine .bind (announces_invoke hquiet p signature args) fun v => ?_
        exact .bind (.of_quiet (.change fun _ => by rfl) (.change _)) fun _ => .pure _

theorem announces_assign (hquiet : Backend.Quiet β) (mode : Mode) (source destination : Slot H) :
    Announces (·.backend.history)
      ((Rules.recorded mode).assign source destination : Step (Recorded β H) H (Slot H)) := by
  refine .of_quiet (fun s => congrArg Prod.snd (leaves_assign mode source destination s)) ?_
  match mode, source, destination with
  | .emit, some source, some destination =>
    refine .bind (.say ?_) fun _ => ?_
    · rw [String.append_assoc, String.append_assoc, String.append_assoc]
      exact Line.isEmission_append (by decide) (by decide) _ _
    · exact .bind (.zoom (.zoom (.zoom (hquiet.drive _ _)))) fun _ => .pure _
  | .emit, none, _ | .emit, some _, none | .validate, _, _ => exact .pure _

/-- On a quiet backend, the emissions in the log are the lines of the invocations, in order. -/
theorem announces_evaluate (hquiet : Backend.Quiet β) (mode : Mode) (tokens : List Token) :
    Announces (·.backend.history)
      (Recursive.evaluate (.recorded mode) tokens : Step (Recorded β H) H (Slot H)) := by
  have hcongruence : Congruence fun {α} (a _ : Step (Recorded β H) H α) =>
      Announces (·.backend.history) a :=
    { pure := .pure
      throw := .throw
      bind := fun ha hf => .bind ha hf
      leave := fun _ => .of_quiet (.change fun _ => rfl) (.change _) }
  have hrules : Rules.Related
      (fun {α} (a _ : Step (Recorded β H) H α) => Announces (·.backend.history) a)
      (.recorded mode) (.recorded mode) :=
    { identifier := announces_identifier mode
      apply := announces_apply hquiet mode
      assign := announces_assign hquiet mode }
  exact hcongruence.evaluate hrules tokens

end Evaluation

end RigExpr
