import RigExpr.Proofs.Evaluation.Upkeep
import RigExpr.Proofs.Graph.Construction
import RigExpr.Proofs.Graph.Session

/-!
# What requests keep up

A host can have nodes added, of its own and by operations, and have outputs connected. What these
steps keep up (`Builder.Maintains`) is kept up by every request, whether it succeeds or fails
(`Request.grows_action`). So what they preserve, and holds of a new builder, holds after every
session (`Session.Trace.preserved`).
-/

namespace RigExpr

/-- A property that is not lost. -/
def Upkeep.preserving {σ : Type} (P : σ → Prop) : Upkeep σ where
  holds _ := True
  grows s s' := P s → P s'
  refl _ h := h
  trans h h' hs := h' (h hs)

namespace Builder

/-- All that a host can do to a builder keeps it up, as far as there is `access` to the components
    that are asked for. -/
structure Maintains (access : Component → Prop) (k : Upkeep Builder) : Prop where
  construction : Construction True access fun {α} (a : Build α) => k.Grows a
  /-- Nodes of the host come without anything connected to them. -/
  host : ∀ (kind : Kind) (params : Params),
    kind = .input ∨ kind = .output ∧ params.value = none → params.index = none →
    k.Grows (addNode kind params [])
  connect : ∀ (b : Builder) (id : String) (p : Plug), k.grows b (b.connect id p)
  /-- It depends on the nodes, their number and the constants only. -/
  congr : ∀ b b' : Builder, b'.graph = b.graph → b'.made = b.made →
    b'.constants = b.constants → k.grows b b'
  /-- A source can ask for all components that it can name. -/
  written : ∀ which, (Token.component which).IsWritten → access which

namespace Maintains

variable {access : Component → Prop} {k : Upkeep Builder} (hk : Maintains access k)

include hk

theorem drive (source destination : Value Plug) : k.Grows (drive source destination) := by
  rw [drive.eq_def]
  split
  · refine .state fun b => ?_
    split
    · refine .bind (hk.construction.materialize source) fun p => .state fun b' => ?_
      split
      · exact .throw _
      · refine .bind (.change fun b => hk.connect b _ p) fun _ => ?_
        split
        · exact .say _ _
        · exact .pure _
    · exact .throw _
  · exact .throw _

/-- Whatever a compilation asks for. -/
theorem upholds : Backend.Upholds (β := Builder) access k where
  written := hk.written
  perform _ hop haccess := hk.construction.perform (fun _ => hop) haccess
  drive := hk.drive
  conclude v := by
    refine .bind (.say _ _) fun _ => .bind ?_ fun _ => .pure v
    exact .change fun b => hk.congr b _ rfl rfl rfl

theorem input (name : String) (value : Option Signal) : k.Grows (input name value) := by
  refine .state fun b => ?_
  split
  · exact .pure _
  · refine .bind (hk.host .input _ (.inl rfl) rfl) fun p => .bind ?_ fun _ => .pure _
    exact .change fun b => hk.congr b _ rfl rfl rfl

theorem output (name : String) : k.Grows (output name) := by
  refine .state fun b => ?_
  split
  · exact .pure _
  · refine .bind (hk.host .output _ (.inr ⟨rfl, rfl⟩) rfl) fun p => .bind ?_ fun _ => .pure _
    exact .change fun b => hk.congr b _ rfl rfl rfl

theorem bindings (inputs outputs : List String) : k.Grows (bindings inputs outputs) :=
  .bind (.mapM (fun name => .bind (hk.input name none) fun _ => .pure _) inputs) fun _ =>
  .bind (.mapM (fun name => .bind (hk.output name) fun _ => .pure _) outputs) fun _ => .pure _

end Maintains

end Builder

open Builder (Maintains)

variable {access : Component → Prop}

/-- The tokens that are handed over ask for no component but these. -/
def Request.Accesses (access : Component → Prop) : Request → Prop
  | compileTokens tokens _ => Token.Access access tokens
  | _ => True

theorem Request.accesses_all (r : Request) : r.Accesses fun _ => True := by
  cases r with
  | compileTokens => exact fun _ _ => trivial
  | _ => trivial

/-- Every request keeps it up, whether it succeeds or fails. -/
theorem Request.grows_action {k : Upkeep Builder} (hk : Maintains access k) {r : Request}
    (hr : r.Accesses access) : k.onCompiler.Grows r.action := by
  cases r with
  | configure config =>
    refine .bind ?_ fun _ => .pure _
    exact .change fun c => k.refl c.evaluation.backend
  | input name value =>
    exact .bind (Compiler.grows_onBackend (hk.input name value)) fun _ => .pure _
  | output name => exact .bind (Compiler.grows_onBackend (hk.output name)) fun _ => .pure _
  | bindings inputs outputs =>
    exact .bind (Compiler.grows_onBackend (hk.bindings inputs outputs)) fun _ => .pure _
  | emit source names => exact .bind (Compiler.grows_emit hk.upholds source names) fun _ => .pure _
  | compile source names =>
    exact .bind (Compiler.grows_compile hk.upholds .emit source names) fun _ => .pure _
  | compileTokens tokens names =>
    exact .bind (Compiler.grows_compileTokens hk.upholds .emit hr names) fun _ => .pure _

namespace Session

variable {s : Session} {past : List (Session × Request)} {k : Upkeep Builder}

theorem grows_perform (hk : Maintains access k) (s : Session) {r : Request}
    (hr : r.Accesses access) : k.grows s.builder (s.perform r).builder := by
  have hgrows := Request.grows_action hk hr s.compiler
  unfold Session.perform
  rcases hrun : r.action.runOn s.compiler with ⟨e | values, compiler⟩ <;> rw [hrun] at hgrows <;>
    exact hgrows

/-- What a new builder has and no step takes away is there after every session that asks for no
    other components. -/
theorem Trace.preserved_of_accesses {P : Builder → Prop} (hP : Maintains access (.preserving P))
    (hnew : P {}) (h : Trace past s) (haccess : ∀ step ∈ past, step.2.Accesses access) :
    P s.builder := by
  induction h with
  | new config => exact hnew
  | step _ _ ih =>
    refine grows_perform hP _ (haccess _ (List.mem_append_right _ List.mem_cons_self)) (ih ?_)
    exact fun step hstep => haccess step (List.mem_append_left _ hstep)

/-- What no step takes away, whatever it asks for, is there after every session. -/
theorem Trace.preserved {P : Builder → Prop} (hP : Maintains (fun _ => True) (.preserving P))
    (hnew : P {}) (h : Trace past s) : P s.builder :=
  h.preserved_of_accesses hP hnew fun step _ => step.2.accesses_all

end Session

end RigExpr
