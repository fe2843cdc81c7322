import RigExpr.Proofs.Compiler.Validation
import RigExpr.Proofs.Evaluation.Congruence

/-!
# Reports

Validation reads the tokens of a source from the end and reports on each identifier: the bound
ones are connected, the others invalid, and the names that are bound to no purpose are unused.
The report lists each name once, and it depends on the names alone, not on the values that
they are bound to. The backend stays as it is, also where validation fails.

* `Bindings.report_foldl_look`: the report after names were looked up.
* `Evaluation.leaves_validate`: validation does not touch the backend.
* `Compiler.validate_report`: all of this for a source.
-/

namespace RigExpr

namespace Bindings

/-- To note names one after the other is to list them without repetition. -/
theorem note_eraseDups (name : String) (names : List String) :
    note name names.eraseDups = (names ++ [name]).eraseDups := by
  rw [note, List.eraseDups_append, List.removeAll]
  by_cases h : name ∈ names
  · simp [h]
  · simp [h, List.eraseDups_cons]

theorem nodup_note {name : String} {names : List String} (h : names.Nodup) :
    (note name names).Nodup := by
  rw [note]
  split
  · exact h
  · next hname =>
    refine List.nodup_append.2 ⟨h, by simp, fun a ha b hb => ?_⟩
    rintro rfl
    exact hname (List.mem_singleton.1 hb ▸ ha)

theorem nodup_eraseDups (names : List String) : names.eraseDups.Nodup := by
  rw [← List.reverse_reverse names]
  induction names.reverse with
  | nil => simp
  | cons name names ih =>
    rw [List.reverse_cons, ← note_eraseDups]
    exact nodup_note ih

variable {H : Type}

/-! ## Names that were looked up -/

/-- The state of the bindings `b` after `names` were looked up. -/
structure Looked (b : Bindings H) (names : List String) (b' : Bindings H) : Prop where
  values : b'.values = b.values
  connected : b'.connected = (names.filter (· ∈ b.values.keys)).eraseDups
  invalid : b'.invalid = (names.filter (· ∉ b.values.keys)).eraseDups

theorem Looked.look {b b' : Bindings H} {names : List String} (h : b.Looked names b')
    (name : String) : b.Looked (names ++ [name]) (b'.look name) := by
  have hbound := Table.isSome_get?_iff (t := b.values) (k := name)
  refine ⟨(values_look b' name).trans h.values, ?_, ?_⟩
  all_goals
    rw [List.filter_append, Bindings.look, resolve, h.values]
    cases hname : b.values.get? name with
    | some v =>
      rw [hname] at hbound
      simp [← hbound, ← note_eraseDups, h.connected, h.invalid]
    | none =>
      rw [hname] at hbound
      simp [← hbound, ← note_eraseDups, markInvalid, h.connected, h.invalid]

theorem looked_foldl {b : Bindings H} (hconnected : b.connected = []) (hinvalid : b.invalid = [])
    (names : List String) : b.Looked names (names.foldl look b) := by
  suffices ∀ seen b', b.Looked seen b' → b.Looked (seen ++ names) (names.foldl look b') from
    this [] b ⟨rfl, hconnected, hinvalid⟩
  induction names with
  | nil => simp
  | cons name names ih =>
    intro seen b' h
    have := ih (seen ++ [name]) _ (h.look name)
    rwa [List.append_assoc] at this

/-! ## Names that were bound -/

variable [ToString H]

theorem connected_register (b : Bindings H) (pairs : List (String × Value H)) :
    (b.register pairs).connected = b.connected := by
  induction pairs generalizing b with
  | nil => rfl
  | cons p pairs ih => exact ih (b.bind p.1 p.2)

/-- The names are kept in the order in which they were first bound. -/
theorem keys_register (pairs : List (String × Value H)) :
    (empty.register pairs : Bindings H).values.keys = (pairs.map (·.1)).eraseDups := by
  suffices ∀ (b : Bindings H) (names : List String), b.values.keys = names.eraseDups →
      (b.register pairs).values.keys = (names ++ pairs.map (·.1)).eraseDups from
    this empty [] rfl
  induction pairs with
  | nil =>
    intro b names h
    rwa [List.map_nil, List.append_nil]
  | cons p pairs ih =>
    intro b names h
    have hkeys : (b.bind p.1 p.2).values.keys = (names ++ [p.1]).eraseDups := by
      rw [← note_eraseDups, ← h]
      exact Table.keys_insert b.values p.1 p.2
    rw [List.map_cons, List.append_cons]
    exact ih _ _ hkeys

end Bindings

/-! ## Reports of names -/

namespace Report

/-- The report on the identifiers `names`, in the order in which they are looked up, where the
    names `bound` are bound. -/
def ofNames (bound names : List String) : Report where
  connected := (names.filter (· ∈ bound)).eraseDups
  invalid := (names.filter (· ∉ bound)).eraseDups
  unused := bound.eraseDups.filter (· ∉ names)

variable {bound names : List String} {name : String}

theorem mem_connected : name ∈ (ofNames bound names).connected ↔ name ∈ names ∧ name ∈ bound := by
  simp [ofNames]

theorem mem_invalid : name ∈ (ofNames bound names).invalid ↔ name ∈ names ∧ name ∉ bound := by
  simp [ofNames]

theorem mem_unused : name ∈ (ofNames bound names).unused ↔ name ∈ bound ∧ name ∉ names := by
  simp [ofNames]

/-- The lists cover all names, those that are looked up and those that are bound. -/
theorem mem_append :
    name ∈ (ofNames bound names).connected ++ (ofNames bound names).invalid ++
      (ofNames bound names).unused ↔ name ∈ names ∨ name ∈ bound := by
  rw [List.mem_append, List.mem_append, mem_connected, mem_invalid, mem_unused]
  by_cases hnames : name ∈ names <;> by_cases hbound : name ∈ bound <;> simp [hnames, hbound]

/-- No name is listed twice, in one list or in two. -/
theorem nodup_ofNames (bound names : List String) :
    ((ofNames bound names).connected ++ (ofNames bound names).invalid ++
      (ofNames bound names).unused).Nodup := by
  refine List.nodup_append.2 ⟨List.nodup_append.2 ⟨?_, ?_, ?_⟩, ?_, ?_⟩
  · exact Bindings.nodup_eraseDups _
  · exact Bindings.nodup_eraseDups _
  · rintro name hconnected _ hinvalid rfl
    exact (mem_invalid.1 hinvalid).2 (mem_connected.1 hconnected).2
  · exact (Bindings.nodup_eraseDups _).filter _
  · rintro name hused _ hunused rfl
    refine (mem_unused.1 hunused).2 ?_
    rcases List.mem_append.1 hused with h | h
    · exact (mem_connected.1 h).1
    · exact (mem_invalid.1 h).1

end Report

/-- The report on names that were looked up depends on the names that are bound, and not on
    their values. -/
theorem Bindings.report_foldl_look {H : Type} [ToString H] (pairs : List (String × Value H))
    (names : List String) :
    (names.foldl look (empty.register pairs : Bindings H)).report =
      .ofNames (pairs.map (·.1)) names := by
  obtain ⟨hvalues, hconnected, hinvalid⟩ :=
    looked_foldl (connected_register empty pairs) (invalid_register empty pairs) names
  simp only [keys_register, List.mem_eraseDups] at hconnected hinvalid
  rw [report, hvalues, keys_register, hconnected, hinvalid, Report.ofNames, Report.mk.injEq]
  refine ⟨rfl, rfl, List.filter_congr fun name hname => ?_⟩
  have hbound : name ∈ pairs.map (·.1) := List.mem_eraseDups.1 hname
  simp [hbound]

namespace Token

/-- A negation that goes into a number is none of an identifier. -/
theorem names_foldNegation (tokens : List Token) : names (foldNegation tokens) = names tokens := by
  fun_induction foldNegation tokens with
  | case1 text rest ih => simp [name?, ih]
  | case2 token rest _ ih => rw [names_cons, names_cons, ih]
  | case3 => rfl

theorem mem_names {name : String} {tokens : List Token} :
    name ∈ names tokens ↔ .identifier name ∈ tokens := by
  have hname (t : Token) : t.name? = some name ↔ t = .identifier name := by
    cases t <;> simp [name?]
  simp [names, hname]

end Token

/-! ## The backend -/

namespace Evaluation

variable {β H ε : Type} [ToString H] [Backend β H ε]

/-- Validation of any stream of tokens leaves the backend as it is. -/
theorem leaves_validate (tokens : List Token) :
    (evaluate .validate tokens : Step β H (Slot H)).Leaves (·.backend) := by
  have hrules : Rules.Related (fun {α} (a _ : Step β H α) => a.Leaves (·.backend))
      (.ofMode .validate) (.ofMode .validate) :=
    { identifier := fun name s => congrArg (·.2.state.backend) (runOn_identifier_validate name s)
      apply := fun _ _ => .pure _
      assign := fun _ _ => .pure _ }
  rw [← recursive_evaluate_ofMode]
  exact leaves_evaluate (fun _ => .change fun _ => rfl) hrules tokens

end Evaluation

namespace Compiler

open Token (names foldNegation)

variable {β H ε : Type}

theorem leaves_prepare {ρ : Type} (part : Compiler β H → ρ) (source : String) :
    (prepare source : Run β H (List Token)).Leaves part := by
  refine .bind .state fun s => ?_
  dsimp only
  split
  · exact .throw _
  · exact .bind (.say _ _) fun _ => .bind (.say _ _) fun _ => .pure _

variable [ToString H] [Backend β H ε]

theorem leaves_run_validate (tokens : List Token) :
    (run .validate tokens : Run β H (Slot H)).Leaves (·.evaluation.backend) := by
  refine .bind (.zoom (Evaluation.leaves_validate tokens) (fun _ => rfl) fun _ _ => rfl) fun v => ?_
  refine .bind .state fun s => ?_
  dsimp only
  split
  · exact .pure _
  · exact .bind (.say _ _) fun _ => .pure _

theorem leaves_validate (source : String) (bindings : List (String × Value H)) :
    (validate source bindings : Run β H Report).Leaves (·.evaluation.backend) := by
  refine .bind (a := reset bindings) (.change fun _ => rfl) fun _ => .bind (.say _ _) fun _ => ?_
  refine .bind (leaves_prepare _ source) fun tokens => ?_
  exact .bind (leaves_run_validate tokens) fun _ => .bind .state fun s => .pure _

/-- Validation of a source reports on its identifiers, from the end to the start: connected are
    the bound ones, invalid the others, and unused the names that are bound and do not occur.
    Every name is listed, and none twice. The backend stays as it is, and the outcome does not
    depend on the values of the names, nor on what was compiled before. -/
theorem validate_report (c : Compiler β H) (source : String) (bindings : List (String × Value H))
    (log : List Line) :
    let validated := (validate source bindings).runOn ⟨c, log⟩
    let bound := bindings.map (·.1)
    (∀ report, validated.1 = .ok report →
      ∃ statement, Statement.parse c.config.maxDepth source = .ok statement ∧
        report = .ofNames bound (names (foldNegation statement.tokens)) ∧
        (∀ name,
          (name ∈ report.connected ↔ .identifier name ∈ statement.tokens ∧ name ∈ bound) ∧
          (name ∈ report.invalid ↔ .identifier name ∈ statement.tokens ∧ name ∉ bound) ∧
          (name ∈ report.unused ↔ name ∈ bound ∧ .identifier name ∉ statement.tokens) ∧
          (name ∈ report.connected ++ report.invalid ++ report.unused ↔
            .identifier name ∈ statement.tokens ∨ name ∈ bound)) ∧
        (report.connected ++ report.invalid ++ report.unused).Nodup) ∧
    validated.2.state.evaluation.backend = c.evaluation.backend ∧
    ∀ (evaluation : Evaluation β H) (bindings' : List (String × Value H)) (log' : List Line),
      bindings'.map (·.1) = bound →
      ((validate source bindings').runOn ⟨{ c with evaluation }, log'⟩).1 = validated.1 := by
  intro validated bound
  have hbackend : validated.2.state.evaluation.backend = c.evaluation.backend :=
    leaves_validate source bindings ⟨c, log⟩
  cases hparse : Statement.parse c.config.maxDepth source with
  | error e =>
    have herror : validated.1 = .error (.source e) := (runOn_of_parse_error hparse bindings log).1
    rw [herror]
    exact ⟨nofun, hbackend, fun evaluation bindings' log' _ =>
      (runOn_of_parse_error (c := { c with evaluation }) hparse bindings' log').1⟩
  | ok statement =>
    have hcases := validate_cases c hparse bindings log
    rw [Bindings.report_foldl_look] at hcases
    refine ⟨fun report hreport => ?_, hbackend, fun evaluation bindings' log' hnames => ?_⟩
    · rcases hcases with ⟨-, s, hrun, -⟩ | ⟨e, -, hrun⟩
      · have hrun : validated.1 = .ok (.ofNames bound _) := congrArg Prod.fst hrun
        obtain rfl := Except.ok.inj (hreport.symm.trans hrun)
        refine ⟨statement, rfl, rfl, fun name => ?_, Report.nodup_ofNames _ _⟩
        have hname : name ∈ names (foldNegation statement.tokens) ↔
            .identifier name ∈ statement.tokens := by
          rw [Token.names_foldNegation, Token.mem_names]
        rw [Report.mem_append, Report.mem_connected, Report.mem_invalid, Report.mem_unused, hname]
        exact ⟨Iff.rfl, Iff.rfl, Iff.rfl, Iff.rfl⟩
      · exact absurd (hreport.symm.trans hrun) nofun
    · -- whether validation fails is up to the tokens alone
      have hcases' := validate_cases { c with evaluation } hparse bindings' log'
      rw [Bindings.report_foldl_look, hnames] at hcases'
      rcases hcases with ⟨hnone, s, hrun, -⟩ | ⟨e, hsome, hrun⟩ <;>
        rcases hcases' with ⟨hnone', s', hrun', -⟩ | ⟨e', hsome', hrun'⟩
      · exact (congrArg Prod.fst hrun').trans (congrArg Prod.fst hrun).symm
      · exact absurd (hnone.symm.trans hsome') nofun
      · exact absurd (hnone'.symm.trans hsome) nofun
      · obtain rfl := Option.some.inj (hsome.symm.trans hsome')
        exact hrun'.trans hrun.symm

/-- A name that is bound twice and one that is not used, with two choices of values. -/
theorem validate_report_rebound :
    let c : Compiler Calculator Calculator.Name := { evaluation := { backend := {} } }
    let bindings : List (String × Value Calculator.Name) :=
      [("a", .scalar 1), ("x", .scalar 2), ("a", .bool true)]
    let bindings' : List (String × Value Calculator.Name) :=
      [("a", .handle ⟨"h"⟩), ("x", .order .xyz), ("a", .scalar 3)]
    let report : Report := { connected := ["a"], invalid := ["c", "o"], unused := ["x"] }
    ((validate "o-a*c" bindings).runOn ⟨c, []⟩).1 = .ok report ∧
      ((validate "o-a*c" bindings').runOn ⟨c, []⟩).1 = .ok report ∧
      (report.connected ++ report.invalid ++ report.unused).Nodup := by
  intro c bindings bindings' report
  have hoption : ((validate "o-a*c" bindings).runOn ⟨c, []⟩).1.toOption = some report := by
    decide +kernel
  have hvalidated : ((validate "o-a*c" bindings).runOn ⟨c, []⟩).1 = .ok report := by
    rcases hrun : ((validate "o-a*c" bindings).runOn ⟨c, []⟩).1 with e | report'
    · rw [hrun] at hoption
      cases hoption
    · rw [hrun] at hoption
      exact congrArg Except.ok (Option.some.inj hoption)
  obtain ⟨hreport, -, hblind⟩ := validate_report c "o-a*c" bindings []
  obtain ⟨statement, -, -, -, hnodup⟩ := hreport report hvalidated
  exact ⟨hvalidated, (hblind c.evaluation bindings' [] rfl).trans hvalidated, hnodup⟩

end Compiler

end RigExpr
