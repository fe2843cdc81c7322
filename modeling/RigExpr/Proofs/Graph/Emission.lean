import RigExpr.Evaluation
import RigExpr.Proofs.Evaluation.Cache
import RigExpr.Proofs.Evaluation.Recursive
import RigExpr.Proofs.Graph.WellFormed

/-!
# Evaluation into a graph

An evaluation on a builder keeps it sound, on every stream of tokens and also if it fails
(`Evaluation.keeps_evaluate`). The frames that wait hold values that may be read, and so
does the cache. The destination of an assignment and the value of the whole are not read:
they may be plugs of outputs also where nothing else may.
-/

namespace RigExpr

namespace Builder

variable {strict : Bool} {b : Builder} {args : List (Value Plug)}

/-! ## Primitives -/

theorem keeps_onBackend {α : Type} {a : Build α} {post : α → Builder → Prop}
    (h : (upkeep strict).Keeps b a post) :
    (upkeep strict).Keeps b (Primitive.onBackend a) post :=
  (Upkeep.Keeps.zoom h fun _ ht hgrows => ⟨ht, hgrows⟩).mono fun _ _ _ _ ⟨_, heq, hpost⟩ =>
    heq ▸ hpost

theorem safe_of_composed {known : Operation Plug → Prop} {a : Build (Value Plug)}
    (ha : Backend.Composed known args a) (h : b.Sound strict)
    (hargs : ∀ v ∈ args, v.Over (b.Offers strict)) : b.Safe strict a := by
  have hnumber {b : Builder} (x : Float) : (Value.scalar x).Over (b.Offers strict) := trivial
  induction ha generalizing b with
  | perform op _ hop hreads =>
    exact safe_perform h (Backend.forall_operands hop hreads hargs hnumber)
  | bind op _ hop hreads _ _ ih =>
    refine .bind (safe_perform h (Backend.forall_operands hop hreads hargs hnumber))
      fun v b' h' hext hv => ih v h' ?_
    exact List.forall_mem_cons.2 ⟨hv, fun w hw => hext.over (hargs w hw)⟩

theorem safe_of_does {known : Operation Plug → Prop} {a : Action CompileError Builder (Value Plug)}
    (ha : Primitive.Does known args a) (h : b.Sound strict)
    (hargs : ∀ v ∈ args, v.Over (b.Offers strict)) : b.Safe strict a := by
  cases ha with
  | composed ha => exact keeps_onBackend (safe_of_composed ha h hargs)
  | operand hv => exact .pure h (hargs _ hv)
  | isScalar | isVector => exact .state (.pure h trivial)
  | list =>
    refine .ofExcept h fun v hv => ?_
    unfold Value.ofItems at hv
    split at hv <;> cases hv
    next hitems => exact Value.over_of_ofItems? hitems hargs
  | throw => exact .throw h

/-- Every primitive keeps the builder sound, and its value may be read if its operands may. -/
theorem safe_invoke (h : b.Sound strict) (p : Primitive)
    (hargs : ∀ v ∈ args, v.Over (b.Offers strict)) :
    b.Safe strict (p.invoke args : Action CompileError Builder (Value Plug)) :=
  safe_of_does (p.does_invoke args) h hargs

end Builder

/-! ## Frames -/

/-- The value, if there is one, may be read. -/
def Slot.Fine (strict : Bool) (b : Builder) (slot : Slot Plug) : Prop :=
  ∀ v, slot = some v → v.Over (b.Offers strict)

theorem Slot.Fine.mono {strict : Bool} {b b' : Builder} {slot : Slot Plug}
    (h : Slot.Fine strict b slot) (hext : b.Extends b') : Slot.Fine strict b' slot :=
  fun v hv => hext.over (h v hv)

theorem Slot.Fine.relax {strict : Bool} {b : Builder} {slot : Slot Plug}
    (h : Slot.Fine strict b slot) : Slot.Fine false b slot :=
  fun v hv => (h v hv).imp fun _ => Builder.Offers.relax

namespace Frame

/-- The values that a frame reads. -/
def slots : Frame Plug → List (Slot Plug)
  | collect _ _ operands => operands
  | consequent ifFalse => [ifFalse]
  | test ifTrue ifFalse | second _ ifTrue ifFalse => [ifTrue, ifFalse]
  | first _ rhs ifTrue ifFalse => [rhs, ifTrue, ifFalse]
  | otherwise | forward | destination | source _ => []

end Frame

/-- The values that are read to complete an operation. -/
def Completion.slots : Completion Plug → List (Slot Plug)
  | apply _ operands => operands
  | forward value => [value]
  | assign source _ => [source]

/-- A frame that is fed reads the new value and those it has. -/
theorem Frame.slots_feed {frame : Frame Plug} {value : Slot Plug} {Q : Slot Plug → Prop}
    (hvalue : Q value) (hframe : ∀ slot ∈ frame.slots, Q slot) :
    match frame.feed value with
    | .inl fed => ∀ slot ∈ fed.slots, Q slot
    | .inr completion => ∀ slot ∈ completion.slots, Q slot := by
  cases frame with
  | collect p missing operands =>
    cases missing <;> exact List.forall_mem_cons.2 ⟨hvalue, hframe⟩
  | otherwise | consequent | second | first | forward | source =>
    exact List.forall_mem_cons.2 ⟨hvalue, hframe⟩
  | test => exact hframe
  | destination => exact hframe

namespace Evaluation

open Builder (Sound Offers Extends)

variable {strict : Bool} {values : Table String (Value Plug)} {P : String → Prop}

/-- What an evaluation on a builder works on: values of names, of which those in `P` may be
    read, and a cache of values that may be read. -/
structure Kept (strict : Bool) (values : Table String (Value Plug)) (P : String → Prop)
    (s : Evaluation Builder Plug) : Prop where
  sound : s.backend.Sound strict
  table : s.bindings.values = values
  bound : ∀ name v, values.get? name = some v → v.Over (s.backend.Offers false)
  read : ∀ name v, P name → values.get? name = some v → v.Over (s.backend.Offers strict)
  cache : ∀ signature v, s.cache.get? signature = some v → v.Over (s.backend.Offers strict)

/-- An evaluation whose builder is kept sound. -/
def upkeep (strict : Bool) (values : Table String (Value Plug)) (P : String → Prop) :
    Upkeep (Evaluation Builder Plug) where
  holds := Kept strict values P
  grows s t := s.backend.Extends t.backend
  refl s := .refl s.backend
  trans := .trans

variable {s : Evaluation Builder Plug}

/-- What happens on the builder. -/
theorem Kept.put (h : Kept strict values P s) {b : Builder} (hb : b.Sound strict)
    (hext : s.backend.Extends b) : Kept strict values P { s with backend := b } where
  sound := hb
  table := h.table
  bound name v hv := hext.over (h.bound name v hv)
  read name v hname hv := hext.over (h.read name v hname hv)
  cache signature v hv := hext.over (h.cache signature v hv)

theorem Kept.leave (h : Kept strict values P s) (tokens : List Token) :
    Kept strict values P { s with left := tokens } :=
  ⟨h.sound, h.table, h.bound, h.read, h.cache⟩

theorem keeps_onBackend {α : Type} {a : Action CompileError Builder α} {post : α → Builder → Prop}
    (h : Kept strict values P s) (ha : (Builder.upkeep strict).Keeps s.backend a post) :
    (upkeep strict values P).Keeps s (onBackend a) fun v t => post v t.backend :=
  (Upkeep.Keeps.zoom ha fun _ hb hext => ⟨h.put hb hext, hext⟩).mono
    fun _ _ _ _ ⟨_, heq, hpost⟩ => heq ▸ hpost

theorem keeps_leave {α : Type} {tokens : List Token} {f : Unit → Step Builder Plug α}
    {post : α → Evaluation Builder Plug → Prop}
    (h : (upkeep strict values P).Keeps { s with left := tokens } (f ()) post) :
    (upkeep strict values P).Keeps s (leave tokens >>= f) post :=
  .change (.refl s.backend) h

/-- The value of an identifier may be read if it is one of those in `P`. -/
theorem keeps_identifier (h : Kept strict values P s) (name : String) :
    (upkeep strict values P).Keeps s (identifier .emit name) fun slot t =>
      Slot.Fine false t.backend slot ∧ (P name → Slot.Fine strict t.backend slot) := by
  refine .state ?_
  cases hv : s.bindings.values.get? name with
  | none =>
    simp only [Bindings.resolve, hv]
    exact .change (.refl s.backend) (.throw h)
  | some v =>
    simp only [Bindings.resolve, hv]
    rw [h.table] at hv
    refine .change (.refl s.backend) (.pure ⟨h.sound, h.table, h.bound, h.read, h.cache⟩ ⟨?_, ?_⟩)
    · rintro w ⟨⟩
      exact h.bound name v hv
    · rintro hname w ⟨⟩
      exact h.read name v hname hv

/-- A primitive is applied to values that may be read, and so may its value. -/
theorem keeps_apply (h : Kept strict values P s) (p : Primitive) {operands : List (Slot Plug)}
    (hops : ∀ slot ∈ operands, Slot.Fine strict s.backend slot) :
    (upkeep strict values P).Keeps s (apply .emit p operands) fun slot t =>
      Slot.Fine strict t.backend slot := by
  unfold apply
  cases hargs : values? operands with
  | none => exact .pure h nofun
  | some args =>
    have hover : ∀ v ∈ args, v.Over (s.backend.Offers strict) := fun v hv =>
      hops (some v) (values?_eq_some hargs ▸ List.mem_map_of_mem hv) v rfl
    refine .state ?_
    dsimp only
    split
    · next v hv =>
      refine .say (.pure h ?_)
      rintro w ⟨⟩
      exact h.cache _ v hv
    · refine .say (.bind (keeps_onBackend h (Builder.safe_invoke h.sound p hover))
        fun v t ht _ hv => ?_)
      refine .change (.refl t.backend) (.pure ⟨ht.sound, ht.table, ht.bound, ht.read, ?_⟩ ?_)
      · intro signature w hw
        rw [Table.get?_insert] at hw
        split at hw
        · cases hw
          exact hv
        · exact ht.cache signature w hw
      · rintro w ⟨⟩
        exact hv

/-- An assignment reads its source only. -/
theorem keeps_assign (h : Kept strict values P s) {source : Slot Plug}
    (hsource : Slot.Fine strict s.backend source) (destination : Slot Plug) :
    (upkeep strict values P).Keeps s (assign .emit source destination) fun slot t =>
      Slot.Fine strict t.backend slot := by
  unfold assign
  cases source with
  | none => exact .pure h nofun
  | some v =>
    cases destination with
    | none => exact .pure h nofun
    | some d =>
      refine .say (.bind (keeps_onBackend h (Builder.keeps_onBackend
        (Builder.keeps_drive h.sound (hsource v rfl) d))) fun _ t ht _ _ => ?_)
      exact .pure ht nofun

theorem keeps_complete (h : Kept strict values P s) {completion : Completion Plug}
    (hslots : ∀ slot ∈ completion.slots, Slot.Fine strict s.backend slot) :
    (upkeep strict values P).Keeps s (complete .emit completion) fun slot t =>
      Slot.Fine strict t.backend slot := by
  cases completion with
  | apply p operands => exact keeps_apply h p hslots
  | forward value => exact .pure h (hslots value List.mem_cons_self)
  | assign source destination => exact keeps_assign h (hslots source List.mem_cons_self) destination

/-- All values that the frames read may be read. -/
def Waiting (strict : Bool) (b : Builder) (frames : List (Frame Plug)) : Prop :=
  ∀ frame ∈ frames, ∀ slot ∈ frame.slots, Slot.Fine strict b slot

theorem Waiting.mono {b b' : Builder} {frames : List (Frame Plug)} (h : Waiting strict b frames)
    (hext : b.Extends b') : Waiting strict b' frames :=
  fun frame hframe slot hslot => (h frame hframe slot hslot).mono hext

/-- A value that may be read goes to the frames that wait. -/
theorem keeps_deliver {frames : List (Frame Plug)} {value : Slot Plug}
    (h : Kept strict values P s) (hframes : Waiting strict s.backend frames)
    (hvalue : Slot.Fine strict s.backend value) :
    (upkeep strict values P).Keeps s (deliver .emit value frames) fun rest t =>
      match rest with
      | .inl frames => Waiting strict t.backend frames
      | .inr value => Slot.Fine strict t.backend value := by
  induction frames generalizing s value with
  | nil => exact .pure h hvalue
  | cons frame outer ih =>
    obtain ⟨hframe, houter⟩ := List.forall_mem_cons.1 hframes
    have hfed := Frame.slots_feed hvalue hframe
    unfold deliver
    cases hfeed : frame.feed value with
    | inl fed =>
      rw [hfeed] at hfed
      exact .pure h (List.forall_mem_cons.2 ⟨hfed, houter⟩)
    | inr completion =>
      rw [hfeed] at hfed
      exact .bind (keeps_complete h hfed) fun value t ht hext hvalue =>
        ih ht (Waiting.mono houter hext) hvalue

/-- A token waits with nothing to read, or has a value. That may be read unless it is the
    value of an identifier that is not in `P`. -/
theorem keeps_start (h : Kept strict values P s) (token : Token) :
    (upkeep strict values P).Keeps s (start .emit token) fun result t =>
      match result with
      | .inl frame => frame.slots = [] ∧ (token = .assign → frame = .destination)
      | .inr value => token ≠ .assign ∧ Slot.Fine false t.backend value ∧
          ((∀ name, token = .identifier name → P name) → Slot.Fine strict t.backend value) := by
  have hliteral {v : Value Plug} (htoken : token ≠ .assign)
      (hv : ∀ strict, v.Over (s.backend.Offers strict)) : token ≠ .assign ∧
        Slot.Fine false s.backend (some v) ∧
          ((∀ name, token = .identifier name → P name) → Slot.Fine strict s.backend (some v)) :=
    ⟨htoken, fun _ hw => Option.some.inj hw ▸ hv false,
      fun _ _ hw => Option.some.inj hw ▸ hv strict⟩
  unfold start
  split
  · split
    · exact .throw h
    · split
      · exact .pure h ⟨rfl, fun htoken => by cases htoken⟩
      · exact .throw h
  · split
    · exact .pure h ⟨rfl, fun htoken => by cases htoken⟩
    · exact .throw h
  · exact .pure h ⟨rfl, fun htoken => by cases htoken⟩
  · exact .pure h ⟨rfl, fun htoken => by cases htoken⟩
  · exact .pure h ⟨rfl, fun htoken => by cases htoken⟩
  · exact .pure h ⟨rfl, fun htoken => by cases htoken⟩
  · exact .pure h ⟨rfl, fun htoken => by cases htoken⟩
  · exact .pure h ⟨rfl, fun htoken => by cases htoken⟩
  · exact .pure h ⟨rfl, fun _ => rfl⟩
  · next c =>
    exact .pure h (hliteral (fun htoken => by cases htoken) fun _ => by cases c <;> trivial)
  · exact .pure h (hliteral (fun htoken => by cases htoken) fun _ => trivial)
  · next name =>
    refine .bind (keeps_identifier h name) fun slot t ht _ hslot => ?_
    exact .pure ht ⟨fun htoken => (by cases htoken), hslot.1, fun hread => hslot.2 (hread name rfl)⟩
  · exact .throw h
  · split
    · exact .pure h (hliteral (fun htoken => by cases htoken) fun _ => trivial)
    · exact .throw h

/-- What is evaluated for the frames that wait, after the tokens that are `taken`. A name is
    in `P` if anything but an assignment was taken before it. -/
theorem keeps_resolve {taken tokens : List Token} {frames : List (Frame Plug)}
    (h : Kept strict values P s) (hframes : Waiting strict s.backend frames)
    (hread : ∀ later next name earlier,
      taken.reverse ++ tokens = later ++ next :: .identifier name :: earlier →
        next ≠ .assign → P name)
    (hwhole : taken = [] → frames = [])
    (hassign : taken.head? = some .assign → ∃ outer, frames = .destination :: outer) :
    (upkeep strict values P).Keeps s (resolve .emit frames tokens) fun slot t =>
      Slot.Fine false t.backend slot := by
  induction tokens generalizing taken frames s with
  | nil =>
    unfold resolve
    split <;> exact .throw h
  | cons token rest ih =>
    have hread' : ∀ later next name earlier,
        (token :: taken).reverse ++ rest = later ++ next :: .identifier name :: earlier →
          next ≠ .assign → P name := fun later next name earlier heq =>
      hread later next name earlier (by simpa using heq)
    by_cases hawaits : AwaitsOperand frames
    · rw [resolve_cons hawaits]
      refine keeps_leave (.bind (keeps_start (h.leave rest) token)
        fun result t ht hext hresult => ?_)
      have hframes := Waiting.mono hframes hext
      cases result with
      | inl frame =>
        -- the token waits too
        obtain ⟨hslots, hdestination⟩ := hresult
        refine ih ht (List.forall_mem_cons.2 ⟨?_, hframes⟩) hread' nofun fun hhead => ?_
        · rw [hslots]
          exact fun _ hslot => absurd hslot List.not_mem_nil
        · exact ⟨frames, by rw [hdestination (Option.some.inj hhead)]⟩
      | inr value =>
        obtain ⟨htoken, hloose, hstrict⟩ := hresult
        have hhead : (token :: taken).head? ≠ some .assign := fun heq =>
          htoken (Option.some.inj heq)
        cases htaken : taken with
        | nil =>
          -- the value of the whole
          rw [hwhole htaken]
          exact .pure ht hloose
        | cons next later =>
          by_cases hnext : next = .assign
          · -- the destination of an assignment
            obtain ⟨outer, rfl⟩ := hassign (by rw [htaken, hnext, List.head?_cons])
            dsimp only
            rw [resume_wait .destination rfl]
            refine ih ht ?_ hread' nofun fun heq => absurd heq hhead
            exact List.forall_mem_cons.2 (List.forall_mem_cons.1 hframes)
          · -- an operand
            have hvalue : Slot.Fine strict t.backend value := hstrict fun name hname =>
              hread later.reverse next name rest (by simp [htaken, hname]) hnext
            refine .bind (keeps_deliver ht hframes hvalue) fun left t' ht' _ hleft => ?_
            cases left with
            | inl frames => exact ih ht' hleft hread' nofun fun heq => absurd heq hhead
            | inr value => exact .pure ht' (Slot.Fine.relax hleft)
    · obtain ⟨ifTrue, ifFalse, outer, rfl⟩ := exists_test_of_not_awaitsOperand hawaits
      unfold resolve
      cases token with
      | comparison test =>
        refine keeps_leave (ih (h.leave rest) ?_ hread' nofun nofun)
        exact List.forall_mem_cons.2 (List.forall_mem_cons.1 hframes)
      | _ => exact keeps_leave (.throw (h.leave rest))

end Evaluation

namespace Token

/-- The name stands for an operand or for the source of an assignment: in the post-order,
    anything but an assignment follows it. -/
def Reads (tokens : List Token) (name : String) : Prop :=
  ∃ before next after, tokens = before ++ .identifier name :: next :: after ∧ next ≠ .assign

end Token

/-- An evaluation keeps its builder sound, if the values of the names that it reads may be
    read. Its value is one of plugs that are there. -/
theorem Evaluation.keeps_evaluate {strict : Bool} {values : Table String (Value Plug)}
    {s : Evaluation Builder Plug} {tokens : List Token}
    (h : Kept strict values (Token.Reads tokens) s) :
    (upkeep strict values (Token.Reads tokens)).Keeps s (evaluate .emit tokens) fun slot t =>
      Slot.Fine false t.backend slot := by
  have hnone : Waiting strict s.backend [] := fun _ hframe => absurd hframe List.not_mem_nil
  refine keeps_leave (keeps_resolve (h.leave tokens.reverse) hnone
    (fun later next name earlier heq hnext => ?_) (fun _ => rfl) (nofun : [].head? = _ → _))
  refine ⟨earlier.reverse, next, later.reverse, ?_, hnext⟩
  rw [← List.reverse_reverse tokens, show tokens.reverse = _ from heq]
  simp

end RigExpr
