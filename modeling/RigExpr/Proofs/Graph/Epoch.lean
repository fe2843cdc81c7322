import Mathlib.Data.List.Induction
import RigExpr.Proofs.Graph.Coverage

/-!
# Epochs

A value that the host stages counts in the next evaluation only. Over any history of staging,
new epochs and evaluations, failed ones among them, what an engine has staged for the epoch to
come are the values given since the last epoch began (`Engine.follows_after`), and this is all
that an evaluation sees of the history (`Engine.evaluate_congr`).

* `Engine.Follows.perform`: what one event preserves.
* `Engine.Alike.run`: two engines that have the same inputs, node by node.
* `Engine.evaluate_after`: an evaluation after a history.
-/

namespace RigExpr

namespace Engine

variable {g : Graph} {r r' : Engine} {n : Node}

/-! ## Histories -/

/-- What a host does to an engine. -/
inductive Event where
  | stage (name : String) (value : Signal)
  | advance
  | evaluate (g : Graph)

namespace Event

/-- The engine after an event. Evaluations may fail. -/
def perform (r : Engine) : Event → Engine
  | stage name value => (r.stage name value).2
  | advance => r.advance
  | evaluate g => ((Engine.evaluate g).runOn ⟨r, []⟩).2.state

/-- Whether the epoch goes on. -/
def isStage : Event → Bool
  | stage .. => true
  | _ => false

/-- The value that the event gives to the name. -/
def value? (name : String) : Event → Option Signal
  | stage own value => if own = name then some value else none
  | _ => none

end Event

/-- The engine after a history, from an engine that nothing has been done to. -/
def after (events : List Event) : Engine := events.foldl Event.perform {}

/-- The number of epochs that a history starts. -/
def ticks (events : List Event) : Nat := events.countP fun e => !e.isStage

/-- The last value given to a name since the last epoch began. -/
def pending (events : List Event) (name : String) : Option Signal :=
  (events.reverse.takeWhile Event.isStage).findSome? (Event.value? name)

theorem pending_append_stage (events : List Event) (own name : String) (value : Signal) :
    pending (events ++ [.stage own value]) name =
      if own = name then some value else pending events name := by
  simp only [pending, List.reverse_append, List.reverse_singleton, List.singleton_append,
    List.takeWhile_cons, Event.isStage, if_true, List.findSome?_cons, Event.value?]
  split <;> simp_all

theorem pending_append_of_not_isStage {events : List Event} {e : Event} (h : e.isStage = false)
    (name : String) : pending (events ++ [e]) name = none := by
  simp [pending, h]

theorem ticks_append (events : List Event) (e : Event) :
    ticks (events ++ [e]) = ticks events + if e.isStage then 0 else 1 := by
  cases h : e.isStage <;> simp [ticks, h]

/-! ## What is staged -/

theorem next_eq {epoch : Nat} (h : epoch < lastEpoch) : next epoch = epoch + 1 := Nat.min_eq_left h

/-- What is staged for the next epoch. -/
theorem staging_eq (hkeys : r.staged.keys.Nodup) (name : String) :
    r.staging name =
      ((r.staged.get? name).filter fun s => s.epoch = next r.epoch).map (·.value) := by
  have hget : r.begin.staged.get? name =
      (r.staged.get? name).filter fun s => s.epoch = next r.epoch :=
    Table.get?_filterValues hkeys _ name
  have hepoch : r.begin.epoch = next r.epoch := rfl
  simp only [staging, input?, hget, hepoch, Option.filter_filter, Bool.and_self]

theorem staging_stage (hkeys : r.staged.keys.Nodup) (own name : String) (value : Signal) :
    (r.stage own value).2.staging name = if own = name then some value else r.staging name := by
  rw [staging_eq (Table.nodup_keys_insert hkeys own _), staging_eq hkeys, stage]
  dsimp only
  rw [Table.get?_insert]
  split <;> simp [Option.filter]

/-- What was staged for an epoch is not there for the one after it. -/
theorem staging_advance (hkeys : r.staged.keys.Nodup) (h : next r.epoch < lastEpoch)
    (name : String) : r.advance.staging name = none := by
  have hget : r.advance.staged.get? name =
      (r.staged.get? name).filter fun s => s.epoch = next r.epoch :=
    Table.get?_filterValues hkeys _ name
  have hepoch : r.advance.epoch = next r.epoch := rfl
  rw [staging_eq (Table.nodup_keys_filterValues hkeys _), hget, Option.filter_filter,
    Option.map_eq_none_iff, Option.filter_eq_none_iff]
  -- it would have to be staged for two epochs at once
  intro s _
  simp only [hepoch, next_eq h, Bool.and_eq_true, decide_eq_true_eq]
  omega

/-- A run only reads what is staged. -/
theorem staged_run (r : Engine) (nodes : List Node) :
    (r.run nodes).2.staged = r.staged ∧ (r.run nodes).2.epoch = r.epoch := by
  induction nodes generalizing r with
  | nil => exact ⟨rfl, rfl⟩
  | cons n nodes ih =>
    rw [run]
    cases hr : r.evaluateNode n with
    | error e => exact ⟨rfl, rfl⟩
    | ok next =>
      obtain ⟨_, _, -, -, rfl⟩ := evaluateNode_eq_ok.1 hr
      exact ih _

/-- For the host, an evaluation is a new epoch, whether it succeeds or not. -/
theorem staged_evaluate (g : Graph) (s : Logged Engine) :
    ((evaluate g).runOn s).2.state.staged = s.state.advance.staged ∧
      ((evaluate g).runOn s).2.state.epoch = s.state.advance.epoch := by
  cases horder : g.order with
  | error e =>
    rw [runOn_evaluate_of_error horder]
    exact ⟨rfl, rfl⟩
  | ok order =>
    rw [runOn_evaluate_of_ok horder]
    exact staged_run ..

/-! ## What a history comes to -/

/-- The engine has what the history leaves for the epoch to come. -/
structure Follows (events : List Event) (r : Engine) : Prop where
  keys : r.staged.keys.Nodup
  epoch : r.epoch = ticks events
  staging : ∀ name, r.staging name = pending events name

theorem Follows.advance {events : List Event} {e : Event} (h : Follows events r)
    (he : e.isStage = false) (hticks : ticks (events ++ [e]) < lastEpoch) :
    Follows (events ++ [e]) r.advance := by
  have hnext : next r.epoch = ticks (events ++ [e]) := by
    rw [ticks_append, he] at hticks ⊢
    rw [h.epoch, next_eq (Nat.lt_of_succ_lt hticks)]
    rfl
  refine ⟨Table.nodup_keys_filterValues h.keys _, hnext, fun name => ?_⟩
  rw [pending_append_of_not_isStage he, staging_advance h.keys (hnext ▸ hticks)]

/-- One event. -/
theorem Follows.perform {events : List Event} (h : Follows events r) (e : Event)
    (hticks : ticks (events ++ [e]) < lastEpoch) : Follows (events ++ [e]) (e.perform r) := by
  cases e with
  | stage own value =>
    refine ⟨Table.nodup_keys_insert h.keys own _, ?_, fun name => ?_⟩
    · rw [ticks_append]
      exact h.epoch
    · rw [pending_append_stage, ← h.staging]
      exact staging_stage h.keys own name value
  | advance => exact h.advance rfl hticks
  | evaluate g =>
    -- signals and results change too, but they are not staged
    obtain ⟨hstaged, hepoch⟩ := staged_evaluate g ⟨r, []⟩
    have hnew := h.advance (e := .evaluate g) rfl hticks
    refine ⟨?_, ?_, fun name => ?_⟩
    · rw [Event.perform, hstaged]
      exact hnew.keys
    · rw [Event.perform, hepoch]
      exact hnew.epoch
    · rw [← hnew.staging, Event.perform, Engine.staging, input?, begin, Engine.advance, hstaged,
        hepoch]
      rfl

/-- A whole history. -/
theorem follows_after {events : List Event} (hticks : ticks events < lastEpoch) :
    Follows events (after events) := by
  induction events using List.reverseRecOn with
  | nil => exact ⟨List.nodup_nil, rfl, fun _ => rfl⟩
  | append_singleton events e ih =>
    rw [after, List.foldl_append]
    refine (ih (Nat.lt_of_le_of_lt ?_ hticks)).perform e hticks
    rw [ticks_append]
    exact Nat.le_add_right ..

/-! ## What an evaluation sees -/

/-- The engines have the same signals, and hand the same inputs to nodes. -/
structure Alike (r r' : Engine) : Prop where
  outputs : r.outputs = r'.outputs
  results : r.results = r'.results
  input : ∀ name, (r.input? name).map (·.value) = (r'.input? name).map (·.value)

theorem Alike.record (h : Alike r r') (n : Node) (outlets : Node.Outlets) :
    Alike (r.record n outlets) (r'.record n outlets) where
  outputs := by rw [Engine.record, Engine.record, h.outputs]
  results := by rw [Engine.record, Engine.record, h.results]
  input := h.input

/-- One step: a node fails in both engines, or in none. -/
theorem Alike.evaluateNode (h : Alike r r') (n : Node) :
    (∃ e, r.evaluateNode n = .error e ∧ r'.evaluateNode n = .error e) ∨
      ∃ next next', r.evaluateNode n = .ok next ∧ r'.evaluateNode n = .ok next' ∧
        Alike next next' := by
  have hinlet : r.inlet n = r'.inlet n := inlet_congr h.input fun p _ => by rw [h.outputs]
  rw [Engine.evaluateNode, Engine.evaluateNode, hinlet]
  cases r'.inlet n with
  | error e => exact .inl ⟨e, rfl, rfl⟩
  | ok i =>
    simp only [bind, Except.bind]
    cases n.outputs i with
    | error fault => exact .inl ⟨_, rfl, rfl⟩
    | ok outlets => exact .inr ⟨_, _, rfl, rfl, h.record n outlets⟩

/-- A whole run. -/
theorem Alike.run (h : Alike r r') (nodes : List Node) :
    (r.run nodes).1 = (r'.run nodes).1 ∧ Alike (r.run nodes).2 (r'.run nodes).2 := by
  induction nodes generalizing r r' with
  | nil => exact ⟨rfl, h⟩
  | cons n nodes ih =>
    rcases h.evaluateNode n with ⟨e, he, he'⟩ | ⟨next, next', hnext, hnext', hnew⟩
    · rw [Engine.run, Engine.run, he, he']
      exact ⟨rfl, h⟩
    · rw [Engine.run, Engine.run, hnext, hnext']
      exact ih hnew

/-- An evaluation depends on the graph and on what is staged. -/
theorem evaluate_congr (g : Graph) (h : ∀ name, r.staging name = r'.staging name)
    (log log' : List Line) :
    ((evaluate g).runOn ⟨r, log⟩).1 = ((evaluate g).runOn ⟨r', log'⟩).1 ∧
      Alike ((evaluate g).runOn ⟨r, log⟩).2.state ((evaluate g).runOn ⟨r', log'⟩).2.state := by
  have hbegin : Alike r.begin r'.begin := ⟨rfl, rfl, h⟩
  cases horder : g.order with
  | error e =>
    rw [runOn_evaluate_of_error horder, runOn_evaluate_of_error horder]
    exact ⟨rfl, hbegin⟩
  | ok order =>
    rw [runOn_evaluate_of_ok horder, runOn_evaluate_of_ok horder]
    exact hbegin.run _

/-! ## What inputs carry -/

/-- What an input carries: what is staged under its name, or else the value of its own. -/
def carried (n : Node) (env : String → Option Signal) : Node.Outlets :=
  Node.single (((n.params.name.bind env).or n.params.value).getD default)

/-- The inputs of the graph that have signals carry what is staged. -/
structure Receives (g : Graph) (env : String → Option Signal) (r : Engine) : Prop where
  input : ∀ name, (r.input? name).map (·.value) = env name
  carried : ∀ n, g.last? n.id = some n → n.kind = .input →
    ∀ outlets, r.outputs.get? n.id = some outlets → outlets = carried n env

variable {env : String → Option Signal}

theorem Receives.outputs (h : Receives g env r) {i : Inlet} {outlets : Node.Outlets}
    (hinlet : r.inlet n = .ok i) (hkind : n.kind = .input) (houtputs : n.outputs i = .ok outlets) :
    outlets = Engine.carried n env := by
  have hstaged : i.staged = n.params.name.bind env := by
    rw [staged_of_inlet hinlet]
    cases n.params.name with
    | none => rfl
    | some name => exact h.input name
  rw [Node.outputs_of_input hkind, hstaged] at houtputs
  exact (Except.ok.inj houtputs).symm

/-- A run, whether it succeeds or not. -/
theorem Receives.run (h : Receives g env r) {nodes : List Node}
    (hnodes : ∀ n ∈ nodes, g.last? n.id = some n) : Receives g env (r.run nodes).2 := by
  induction nodes generalizing r with
  | nil => exact h
  | cons n nodes ih =>
    rw [Engine.run]
    cases hr : r.evaluateNode n with
    | error e => exact h
    | ok next =>
      refine ih ?_ fun n hn => hnodes n (List.mem_cons_of_mem _ hn)
      obtain ⟨i, outlets, hinlet, houtputs, rfl⟩ := evaluateNode_eq_ok.1 hr
      refine ⟨h.input, fun m hm hkind recorded hrecorded => ?_⟩
      rw [get?_outputs_record] at hrecorded
      split at hrecorded
      · next hid =>
        -- only the last node with an id is run
        have hlast := hnodes n List.mem_cons_self
        rw [hid, hm] at hlast
        obtain rfl := Option.some.inj hlast
        obtain rfl := Option.some.inj hrecorded
        exact h.outputs hinlet hkind houtputs
      · exact h.carried m hm hkind recorded hrecorded

/-- Whatever an evaluation records of an input is what is staged for it. -/
theorem receives_evaluate (g : Graph) (r : Engine) (log : List Line) :
    Receives g r.staging ((evaluate g).runOn ⟨r, log⟩).2.state := by
  have hbegin : Receives g r.staging r.begin := by
    refine ⟨fun _ => rfl, fun n _ _ outlets houtlets => ?_⟩
    cases houtlets
  cases horder : g.order with
  | error e =>
    rw [runOn_evaluate_of_error horder]
    exact hbegin
  | ok order =>
    rw [runOn_evaluate_of_ok horder]
    refine hbegin.run fun n hn => ?_
    obtain ⟨id, -, hlast⟩ := List.mem_filterMap.1 hn
    have hid : n.id = id := by simpa using List.find?_some hlast
    rwa [hid]

/-! ## Evaluations after a history -/

/-- An evaluation after any history depends on the graph and on the values that were staged
    since the last epoch began, and on nothing that was staged, computed or handed out before:
    histories that leave the same values have the same outcome, signals and results. Whatever
    is recorded of an input is its value among them, or else its own, and an evaluation that
    succeeds records every input that is in order. -/
theorem evaluate_after (g : Graph) {events : List Event} (hticks : ticks events < lastEpoch)
    (log : List Line) :
    (∀ events', ticks events' < lastEpoch → pending events' = pending events → ∀ log',
      ((evaluate g).runOn ⟨after events', log'⟩).1 = ((evaluate g).runOn ⟨after events, log⟩).1 ∧
      ((evaluate g).runOn ⟨after events', log'⟩).2.state.outputs =
        ((evaluate g).runOn ⟨after events, log⟩).2.state.outputs ∧
      ((evaluate g).runOn ⟨after events', log'⟩).2.state.results =
        ((evaluate g).runOn ⟨after events, log⟩).2.state.results) ∧
    ∀ n, g.last? n.id = some n → n.kind = .input →
      (∀ outlets,
        ((evaluate g).runOn ⟨after events, log⟩).2.state.outputs.get? n.id = some outlets →
        outlets = carried n (pending events)) ∧
      (((evaluate g).runOn ⟨after events, log⟩).1 = .ok () → ∀ order, g.order = .ok order →
        n.id ∈ order →
        ∃ outlets, ((evaluate g).runOn ⟨after events, log⟩).2.state.outputs.get? n.id =
          some outlets) := by
  have hstaging := (follows_after hticks).staging
  refine ⟨fun events' hticks' hpending log' => ?_,
    fun n hn hkind => ⟨fun outlets houtlets => ?_, ?_⟩⟩
  · have hsame : ∀ name, (after events').staging name = (after events).staging name := by
      intro name
      rw [(follows_after hticks').staging, hpending, hstaging]
    obtain ⟨houtcome, halike⟩ := evaluate_congr g hsame log' log
    exact ⟨houtcome, halike.outputs, halike.results⟩
  · rw [← funext hstaging]
    exact (receives_evaluate g (after events) log).carried n hn hkind outlets houtlets
  · intro hok order horder hid
    obtain ⟨order', horder', hrun⟩ := exists_run_of_evaluate (Prod.ext hok rfl)
    obtain rfl : order = order' := Except.ok.inj (horder.symm.trans horder')
    exact (covers_of_run hrun n (.inr (List.mem_filterMap.2 ⟨n.id, hid, hn⟩))).outputs

/-- Values staged for an evaluation that fails, or for an epoch without one, are gone after it:
    the input falls back to its own value, as in an engine that nothing has been done to. -/
theorem evaluate_after_lapse :
    ∃ (g loop : Graph) (input : Node) (events : List Event),
      events = [.stage "x" (.float 1), .evaluate loop, .stage "x" (.float 2), .advance] ∧
      ((evaluate loop).runOn ⟨after [.stage "x" (.float 1)], []⟩).1 = .error .cycle ∧
      g.last? "i" = some input ∧ input.params.name = some "x" ∧
      ((evaluate g).runOn ⟨after events, []⟩).1 = .ok () ∧
      ((evaluate g).runOn ⟨after events, []⟩).2.state.outputs.get? "i" =
        some (Node.single (.float 3)) ∧
      ((evaluate g).runOn ⟨after events, []⟩).2.state.results =
        ((evaluate g).runOn ⟨{}, []⟩).2.state.results := by
  let input : Node :=
    { id := "i", kind := .input, params := { value := some (.float 3), name := some "x" } }
  let output : Node :=
    { id := "o", kind := .output, params := { name := some "o" },
      inputs := ⟨[("in", ⟨"i", "out"⟩)]⟩ }
  let loop : Graph := ⟨[{ id := "a", kind := .not, inputs := ⟨[("in", ⟨"a", "out"⟩)]⟩ }]⟩
  let events : List Event :=
    [.stage "x" (.float 1), .evaluate loop, .stage "x" (.float 2), .advance]
  have hticks : ticks events < lastEpoch := by decide
  have hpending : pending [] = pending events := rfl
  have hafter := evaluate_after ⟨[input, output]⟩ hticks []
  obtain ⟨houtcome, -, hresults⟩ := hafter.1 [] (by decide) hpending []
  have hok := houtcome.symm.trans rfl
  obtain ⟨outlets, hget⟩ := (hafter.2 input rfl rfl).2 hok ["i", "o"] rfl (by decide)
  refine ⟨⟨[input, output]⟩, loop, input, events, rfl, rfl, rfl, rfl, hok, ?_, hresults.symm⟩
  rw [hget, (hafter.2 input rfl rfl).1 outlets hget]
  rfl

end Engine

end RigExpr
