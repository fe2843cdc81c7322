import RigExpr.Action

/-!
# Runs of actions

What the ways to build an action do when it is run, and how one action keeps up with
another on a different state.

* `Coupling.Follows`: from related states both actions have the same outcome and leave
  related states, as long as the second one ends well. To have ended well is a fact
  about all of a run: it holds of a state only if it held of the states before.
* `Coupling.Follows.bind`: actions keep up step by step.
* `Coupling.free`: related states, where nothing has to end well.
* `Upkeep.Keeps`: an action keeps an invariant, also where it fails, and `Upkeep.Grows`: it
  does so from all states.
* `Action.Leaves`: an action does not touch a part of the state, and `Action.Writes`: it writes
  only such lines.
* `Action.SeenAs`: what an action is if only a part of its state is looked at.
-/

namespace RigExpr

namespace Action

variable {ε ε' σ τ α β : Type}

@[simp] theorem runOn_pure (v : α) (s : Logged σ) :
    (pure v : Action ε σ α).runOn s = (.ok v, s) := rfl

@[simp] theorem runOn_throw (e : ε) (s : Logged σ) :
    (throw e : Action ε σ α).runOn s = (.error e, s) := rfl

@[simp] theorem runOn_state (s : Logged σ) :
    (state : Action ε σ σ).runOn s = (.ok s.state, s) := rfl

@[simp] theorem runOn_change (f : σ → σ) (s : Logged σ) :
    (change f : Action ε σ Unit).runOn s = (.ok (), { s with state := f s.state }) := rfl

@[simp] theorem runOn_say (level : Level) (text : String) (s : Logged σ) :
    (say level text : Action ε σ Unit).runOn s =
      (.ok (), { s with log := s.log ++ [⟨level, text⟩] }) := rfl

@[simp] theorem runOn_ofExcept (outcome : Except ε α) (s : Logged σ) :
    (ofExcept outcome : Action ε σ α).runOn s = (outcome, s) := by
  cases outcome <;> rfl

@[simp] theorem runOn_ofFunction (f : Logged σ → Except ε α × Logged σ) (s : Logged σ) :
    (ofFunction f : Action ε σ α).runOn s = f s := rfl

theorem runOn_bind (a : Action ε σ α) (f : α → Action ε σ β) (s : Logged σ) :
    (a >>= f).runOn s =
      match a.runOn s with
      | (.ok v, s') => (f v).runOn s'
      | (.error e, s') => (.error e, s') := by
  show (ExceptT.run (a >>= f)).run s = _
  rw [ExceptT.run_bind, StateT.run_bind]
  rcases h : a.runOn s with ⟨outcome, s'⟩
  have h : (ExceptT.run a).run s = (outcome, s') := h
  rw [h]
  cases outcome <;> rfl

theorem runOn_bind_of_ok {a : Action ε σ α} {s s' : Logged σ} {v : α}
    (h : a.runOn s = (.ok v, s')) (f : α → Action ε σ β) :
    (a >>= f).runOn s = (f v).runOn s' := by
  rw [runOn_bind, h]

theorem runOn_bind_of_error {a : Action ε σ α} {s s' : Logged σ} {e : ε}
    (h : a.runOn s = (.error e, s')) (f : α → Action ε σ β) :
    (a >>= f).runOn s = (.error e, s') := by
  rw [runOn_bind, h]

@[simp] theorem runOn_map (f : α → β) (a : Action ε σ α) (s : Logged σ) :
    (f <$> a).runOn s = ((a.runOn s).1.map f, (a.runOn s).2) := by
  rw [← bind_pure_comp, runOn_bind]
  rcases a.runOn s with ⟨_ | _, _⟩ <;> rfl

@[simp] theorem mapError_id (outcome : Except ε α) : outcome.mapError id = outcome := by
  cases outcome <;> rfl

@[simp] theorem runOn_zoom (part : σ → τ) (put : σ → τ → σ) (explain : ε → ε')
    (a : Action ε τ α) (s : Logged σ) :
    (zoom part put explain a).runOn s =
      ((a.runOn ⟨part s.state, s.log⟩).1.mapError explain,
        ⟨put s.state (a.runOn ⟨part s.state, s.log⟩).2.state,
          (a.runOn ⟨part s.state, s.log⟩).2.log⟩) := rfl

end Action

/-! ## One action after another -/

/-- What holds between the states of two computations, and of those of the second one
    if it goes well. -/
structure Coupling (σ τ : Type) where
  related : σ → τ → Prop
  fine : τ → Prop

namespace Coupling

variable {ε σ τ α β : Type} {c : Coupling σ τ}

variable (c) in
/-- The first action does what the second one does, if `pre` holds, and the results of
    both satisfy `post`. -/
structure Follows (pre : Prop) (post : α → Prop) (a : Action ε σ α) (b : Action ε τ α) :
    Prop where
  /-- If all is fine after the second action, it was fine before. -/
  fine : ∀ t, c.fine (b.runOn t).2.state → c.fine t.state
  keeps : pre → ∀ s t, c.related s.state t.state → c.fine (b.runOn t).2.state →
    (a.runOn s).1 = (b.runOn t).1 ∧ c.related (a.runOn s).2.state (b.runOn t).2.state ∧
      ∀ v, (b.runOn t).1 = .ok v → post v

namespace Follows

variable {pre pre' : Prop} {post post' : α → Prop} {a : Action ε σ α} {b : Action ε τ α}

theorem weaken (h : c.Follows pre post a b) (hpre : pre' → pre)
    (hpost : ∀ v, pre' → post v → post' v) : c.Follows pre' post' a b where
  fine := h.fine
  keeps hp s t hst hf :=
    have ⟨houtcome, hrelated, hresult⟩ := h.keeps (hpre hp) s t hst hf
    ⟨houtcome, hrelated, fun v hv => hpost v hp (hresult v hv)⟩

protected theorem pure {v : α} (h : pre → post v) :
    c.Follows pre post (pure v : Action ε σ α) (pure v) where
  fine _ hf := hf
  keeps hp _ _ hst _ := ⟨rfl, hst, fun _ hw => Except.ok.inj hw ▸ h hp⟩

protected theorem throw (e : ε) :
    c.Follows pre post (throw e : Action ε σ α) (throw e) where
  fine _ hf := hf
  keeps _ _ _ hst _ := ⟨rfl, hst, nofun⟩

/-- Actions that keep up one after the other keep up as a whole. -/
protected theorem bind (h : c.Follows pre post a b) {f : α → Action ε σ β}
    {g : α → Action ε τ β} {post' : β → Prop}
    (hfg : ∀ v, c.Follows (pre ∧ post v) post' (f v) (g v)) :
    c.Follows pre post' (a >>= f) (b >>= g) where
  fine t hf := by
    rcases hb : b.runOn t with ⟨outcome, t'⟩
    refine h.fine t ?_
    cases outcome with
    | ok v =>
      rw [Action.runOn_bind_of_ok hb] at hf
      rw [hb]
      exact (hfg v).fine t' hf
    | error e =>
      rw [Action.runOn_bind_of_error hb] at hf
      rwa [hb]
  keeps hp s t hst hf := by
    rcases ha : a.runOn s with ⟨outcome, s'⟩
    rcases hb : b.runOn t with ⟨outcome', t'⟩
    -- All was fine after the first action of the second computation too.
    have hmid : c.fine t'.state := by
      cases outcome' with
      | ok v =>
        rw [Action.runOn_bind_of_ok hb] at hf
        exact (hfg v).fine t' hf
      | error e => rwa [Action.runOn_bind_of_error hb] at hf
    have hfirst := h.keeps hp s t hst (by rwa [hb])
    rw [ha, hb] at hfirst
    obtain ⟨rfl, hrelated, hresult⟩ := hfirst
    cases outcome with
    | ok v =>
      rw [Action.runOn_bind_of_ok hb] at hf ⊢
      rw [Action.runOn_bind_of_ok ha]
      exact (hfg v).keeps ⟨hp, hresult v rfl⟩ s' t' hrelated hf
    | error e =>
      rw [Action.runOn_bind_of_error hb, Action.runOn_bind_of_error ha]
      exact ⟨rfl, hrelated, nofun⟩

/-- Changes of the states that keep them related. -/
protected theorem change {f : σ → σ} {g : τ → τ} (hfine : ∀ t, c.fine (g t) → c.fine t)
    (hrelated : ∀ s t, c.related s t → c.related (f s) (g t)) :
    c.Follows pre (fun _ => True) (Action.change f : Action ε σ Unit) (Action.change g) where
  fine t hf := hfine t.state hf
  keeps _ _ _ hst _ := ⟨rfl, hrelated _ _ hst, fun _ _ => trivial⟩

/-- What is written to the log does not matter. -/
theorem quiet {a' : Action ε σ α} (h : c.Follows pre post a b)
    (hlog : ∀ s, ∃ log, a'.runOn s = a.runOn ⟨s.state, log⟩) : c.Follows pre post a' b where
  fine := h.fine
  keeps hp s t hst hf := by
    obtain ⟨log, hrun⟩ := hlog s
    rw [hrun]
    exact h.keeps hp ⟨s.state, log⟩ t hst hf

end Follows

/-- States that are related, where every computation goes well. -/
def free (R : σ → τ → Prop) : Coupling σ τ where
  related := R
  fine _ := True

namespace Follows

variable {ε' σ' τ' : Type} {R : σ → τ → Prop} {pre : Prop} {post : α → Prop}

/-- Actions that keep up one after the other, where it is known of the first result what it
    satisfies. -/
theorem step {a : Action ε σ α} {b : Action ε τ α} (h : (free R).Follows True post a b)
    {f : α → Action ε σ β} {g : α → Action ε τ β} {post' : β → Prop}
    (hfg : ∀ v, post v → (free R).Follows True post' (f v) (g v)) :
    (free R).Follows True post' (a >>= f) (b >>= g) :=
  h.bind fun v => ⟨fun _ _ => trivial, fun hv => (hfg v hv.2).keeps trivial⟩

protected theorem state {f : σ → Action ε σ α} {g : τ → Action ε τ α}
    (h : ∀ s t, R s t → (free R).Follows pre post (f s) (g t)) :
    (free R).Follows pre post (Action.state >>= f) (Action.state >>= g) where
  fine _ _ := trivial
  keeps hp s t hst hf := (h s.state t.state hst).keeps hp s t hst hf

protected theorem say {level level' : Level} {text text' : String} :
    (free R).Follows pre (fun _ => True) (Action.say level text : Action ε σ Unit)
      (Action.say level' text' : Action ε τ Unit) where
  fine _ _ := trivial
  keeps _ _ _ hst _ := ⟨rfl, hst, fun _ _ => trivial⟩

protected theorem ofExcept {outcome : Except ε α} (h : pre → ∀ v, outcome = .ok v → post v) :
    (free R).Follows pre post (Action.ofExcept outcome : Action ε σ α)
      (Action.ofExcept outcome) where
  fine _ _ := trivial
  keeps hp s t hst _ := by
    rw [Action.runOn_ofExcept, Action.runOn_ofExcept]
    exact ⟨rfl, hst, h hp⟩

/-- What the second action writes to the log does not matter. -/
theorem quiet_right {a : Action ε σ α} {b b' : Action ε τ α} (h : (free R).Follows pre post a b)
    (hlog : ∀ t, ∃ log, b'.runOn t = b.runOn ⟨t.state, log⟩) : (free R).Follows pre post a b' where
  fine _ _ := trivial
  keeps hp s t hst hf := by
    obtain ⟨log, hrun⟩ := hlog t
    rw [hrun]
    exact h.keeps hp s ⟨t.state, log⟩ hst hf

/-- Actions on parts of the states. -/
protected theorem zoom {R' : σ' → τ' → Prop} {part : σ → σ'} {put : σ → σ' → σ} {part' : τ → τ'}
    {put' : τ → τ' → τ} {explain : ε → ε'} {a : Action ε σ' α} {b : Action ε τ' α}
    (h : (free R').Follows pre post a b) (hpart : ∀ s t, R s t → R' (part s) (part' t))
    (hput : ∀ s t x y, R s t → R' x y → R (put s x) (put' t y)) :
    (free R).Follows pre post (Action.zoom part put explain a)
      (Action.zoom part' put' explain b) where
  fine _ _ := trivial
  keeps hp s t hst _ := by
    obtain ⟨houtcome, hrelated, hpost⟩ :=
      h.keeps hp ⟨part s.state, s.log⟩ ⟨part' t.state, t.log⟩ (hpart _ _ hst) trivial
    rw [Action.runOn_zoom, Action.runOn_zoom, houtcome]
    refine ⟨rfl, hput _ _ _ _ hst hrelated, fun v hv => hpost v ?_⟩
    dsimp only at hv
    cases hb : (b.runOn ⟨part' t.state, t.log⟩).1 with
    | ok w =>
      rw [hb] at hv
      cases hv
      rfl
    | error e =>
      rw [hb] at hv
      cases hv

end Follows

end Coupling

/-! ## Invariants -/

/-- What holds of the states of a computation at all times, and between earlier and later
    ones. -/
structure Upkeep (σ : Type) where
  holds : σ → Prop
  grows : σ → σ → Prop
  refl : ∀ s, grows s s
  trans : ∀ {s t u}, grows s t → grows t u → grows s u

namespace Upkeep

variable {ε ε' σ τ α β : Type} {k : Upkeep σ} {s : σ}

/-- From `s` the action leads to a state where the invariant holds, whether it succeeds or
    fails. If it succeeds, its result satisfies `post` there. -/
def Keeps (k : Upkeep σ) (s : σ) (a : Action ε σ α) (post : α → σ → Prop) : Prop :=
  ∀ log, k.holds (a.runOn ⟨s, log⟩).2.state ∧ k.grows s (a.runOn ⟨s, log⟩).2.state ∧
    ∀ v, (a.runOn ⟨s, log⟩).1 = .ok v → post v (a.runOn ⟨s, log⟩).2.state

namespace Keeps

variable {a : Action ε σ α} {post post' : α → σ → Prop}

protected theorem pure {v : α} (hs : k.holds s) (h : post v s) :
    k.Keeps s (pure v : Action ε σ α) post :=
  fun _ => ⟨hs, k.refl s, fun _ hw => Except.ok.inj hw ▸ h⟩

protected theorem throw {e : ε} (hs : k.holds s) : k.Keeps s (throw e : Action ε σ α) post :=
  fun _ => ⟨hs, k.refl s, nofun⟩

protected theorem bind {f : α → Action ε σ β} {post : β → σ → Prop} (ha : k.Keeps s a post')
    (hf : ∀ v t, k.holds t → k.grows s t → post' v t → k.Keeps t (f v) post) :
    k.Keeps s (a >>= f) post := by
  intro log
  obtain ⟨hholds, hgrows, hpost⟩ := ha log
  rcases hrun : a.runOn ⟨s, log⟩ with ⟨e | v, t⟩
  · rw [hrun] at hholds hgrows
    rw [Action.runOn_bind_of_error hrun]
    exact ⟨hholds, hgrows, nofun⟩
  · rw [hrun] at hholds hgrows hpost
    rw [Action.runOn_bind_of_ok hrun]
    obtain ⟨hholds', hgrows', hpost'⟩ := hf v t.state hholds hgrows (hpost v rfl) t.log
    exact ⟨hholds', k.trans hgrows hgrows', hpost'⟩

theorem mono (h : k.Keeps s a post')
    (hpost : ∀ v t, k.holds t → k.grows s t → post' v t → post v t) : k.Keeps s a post := by
  intro log
  obtain ⟨hholds, hgrows, hresult⟩ := h log
  exact ⟨hholds, hgrows, fun v hv => hpost v _ hholds hgrows (hresult v hv)⟩

protected theorem state {f : σ → Action ε σ α} (h : k.Keeps s (f s) post) :
    k.Keeps s (Action.state >>= f) post := h

protected theorem change {f : σ → σ} {g : Unit → Action ε σ α} (hgrows : k.grows s (f s))
    (h : k.Keeps (f s) (g ()) post) : k.Keeps s (Action.change f >>= g) post := by
  intro log
  obtain ⟨hholds, hgrows', hpost⟩ := h log
  exact ⟨hholds, k.trans hgrows hgrows', hpost⟩

protected theorem say {level : Level} {text : String} {g : Unit → Action ε σ α}
    (h : k.Keeps s (g ()) post) : k.Keeps s (Action.say level text >>= g) post :=
  fun _ => h _

protected theorem ofExcept {outcome : Except ε α} (hs : k.holds s)
    (h : ∀ v, outcome = .ok v → post v s) :
    k.Keeps s (Action.ofExcept outcome : Action ε σ α) post := by
  intro log
  rw [Action.runOn_ofExcept]
  exact ⟨hs, k.refl s, h⟩

/-- One action for each element, with results that stay right. -/
theorem mapM {γ : Type} {f : γ → Action ε σ α} {l : List γ} (hs : k.holds s)
    (hf : ∀ a ∈ l, ∀ t, k.holds t → k.Keeps t (f a) post)
    (hmono : ∀ v t u, k.grows t u → post v t → post v u) :
    k.Keeps s (l.mapM f) fun vs t => ∀ v ∈ vs, post v t := by
  induction l generalizing s with
  | nil => exact .pure hs fun _ hv => absurd hv List.not_mem_nil
  | cons a l ih =>
    obtain ⟨ha, hl⟩ := List.forall_mem_cons.1 hf
    rw [List.mapM_cons]
    refine .bind (ha s hs) fun v t ht _ hv => ?_
    refine .bind (ih ht hl) fun vs u hu hgrows hvs => ?_
    exact .pure hu (List.forall_mem_cons.2 ⟨hmono v t u hgrows hv, hvs⟩)

/-- An action that keeps the invariant of a part of the state. -/
protected theorem zoom {j : Upkeep τ} {part : σ → τ} {put : σ → τ → σ} {explain : ε → ε'}
    {a : Action ε τ α} {post : α → τ → Prop} (h : j.Keeps (part s) a post)
    (hput : ∀ t, j.holds t → j.grows (part s) t → k.holds (put s t) ∧ k.grows s (put s t)) :
    k.Keeps s (Action.zoom part put explain a) fun v s' => ∃ t, s' = put s t ∧ post v t := by
  intro log
  obtain ⟨hholds, hgrows, hpost⟩ := h log
  obtain ⟨hholds', hgrows'⟩ := hput _ hholds hgrows
  rw [Action.runOn_zoom]
  refine ⟨hholds', hgrows', fun v hv => ⟨_, rfl, hpost v ?_⟩⟩
  dsimp only at hv
  cases houtcome : (a.runOn ⟨part s, log⟩).1 with
  | ok w =>
    rw [houtcome] at hv
    cases hv
    rfl
  | error e =>
    rw [houtcome] at hv
    cases hv

end Keeps

/-- From `s` the action succeeds, in a state where the invariant holds and its result satisfies
    `post`. -/
def Attains (k : Upkeep σ) (s : σ) (a : Action ε σ α) (post : α → σ → Prop) : Prop :=
  ∀ log, ∃ v t, a.runOn ⟨s, log⟩ = (.ok v, t) ∧ k.holds t.state ∧ k.grows s t.state ∧
    post v t.state

namespace Attains

variable {a : Action ε σ α} {post post' : α → σ → Prop}

protected theorem pure {v : α} (hs : k.holds s) (h : post v s) :
    k.Attains s (pure v : Action ε σ α) post :=
  fun log => ⟨v, ⟨s, log⟩, rfl, hs, k.refl s, h⟩

protected theorem bind {f : α → Action ε σ β} {post : β → σ → Prop} (ha : k.Attains s a post')
    (hf : ∀ v t, k.holds t → k.grows s t → post' v t → k.Attains t (f v) post) :
    k.Attains s (a >>= f) post := by
  intro log
  obtain ⟨v, t, hrun, hholds, hgrows, hpost⟩ := ha log
  obtain ⟨w, u, hrun', hholds', hgrows', hpost'⟩ := hf v t.state hholds hgrows hpost t.log
  exact ⟨w, u, by rw [Action.runOn_bind_of_ok hrun, hrun'], hholds', k.trans hgrows hgrows', hpost'⟩

theorem mono (h : k.Attains s a post')
    (hpost : ∀ v t, k.holds t → k.grows s t → post' v t → post v t) : k.Attains s a post := by
  intro log
  obtain ⟨v, t, hrun, hholds, hgrows, hresult⟩ := h log
  exact ⟨v, t, hrun, hholds, hgrows, hpost v t.state hholds hgrows hresult⟩

protected theorem state {f : σ → Action ε σ α} (h : k.Attains s (f s) post) :
    k.Attains s (Action.state >>= f) post := h

end Attains

/-- A part of the state that is kept up. -/
def along (k : Upkeep τ) (part : σ → τ) : Upkeep σ where
  holds s := k.holds (part s)
  grows s s' := k.grows (part s) (part s')
  refl s := k.refl (part s)
  trans := k.trans

/-- Wherever it is run, the action leads to a state that the state before may grow to. -/
def Grows (k : Upkeep σ) (a : Action ε σ α) : Prop :=
  ∀ s, k.grows s.state (a.runOn s).2.state

namespace Grows

variable {a : Action ε σ α}

protected theorem pure (v : α) : k.Grows (pure v : Action ε σ α) := fun s => k.refl s.state

protected theorem throw (e : ε) : k.Grows (throw e : Action ε σ α) := fun s => k.refl s.state

protected theorem say (level : Level) (text : String) :
    k.Grows (Action.say level text : Action ε σ Unit) := fun s => k.refl s.state

protected theorem change {f : σ → σ} (h : ∀ s, k.grows s (f s)) :
    k.Grows (Action.change f : Action ε σ Unit) := fun s => h s.state

protected theorem ofExcept (outcome : Except ε α) :
    k.Grows (Action.ofExcept outcome : Action ε σ α) := by
  intro s
  rw [Action.runOn_ofExcept]
  exact k.refl s.state

protected theorem bind (h : k.Grows a) {f : α → Action ε σ β} (hf : ∀ v, k.Grows (f v)) :
    k.Grows (a >>= f) := by
  intro s
  have ha := h s
  rcases hrun : a.runOn s with ⟨e | v, s'⟩
  · rw [Action.runOn_bind_of_error hrun]
    rwa [hrun] at ha
  · rw [Action.runOn_bind_of_ok hrun]
    rw [hrun] at ha
    exact k.trans ha (hf v s')

protected theorem state {f : σ → Action ε σ α} (h : ∀ s, k.Grows (f s)) :
    k.Grows (Action.state >>= f) := fun s => h s.state s

protected theorem map (h : k.Grows a) (f : α → β) : k.Grows (f <$> a) := by
  intro s
  rw [Action.runOn_map]
  exact h s

/-- One action for each element. -/
protected theorem mapM {γ : Type} {f : γ → Action ε σ α} (h : ∀ a, k.Grows (f a)) (l : List γ) :
    k.Grows (l.mapM f) := by
  induction l with
  | nil => exact .pure _
  | cons a l ih =>
    rw [List.mapM_cons]
    exact .bind (h a) fun _ => .bind ih fun _ => .pure _

/-- An action on a part of the state. -/
protected theorem zoom {j : Upkeep τ} {part : σ → τ} {put : σ → τ → σ} {explain : ε → ε'}
    {a : Action ε τ α} (h : j.Grows a)
    (hput : ∀ s t, j.grows (part s) t → k.grows s (put s t)) :
    k.Grows (Action.zoom part put explain a) := by
  intro s
  rw [Action.runOn_zoom]
  exact hput s.state _ (h ⟨part s.state, s.log⟩)

end Grows

end Upkeep

/-! ## Parts of the state and the log -/

namespace Action

variable {ε ε' σ σ' τ τ' ρ α β : Type}

/-- The action leaves a part of the state as it is, whether it succeeds or fails. -/
def Leaves (part : σ → ρ) (a : Action ε σ α) : Prop :=
  ∀ s, part (a.runOn s).2.state = part s.state

namespace Leaves

variable {part : σ → ρ} {a : Action ε σ α}

protected theorem pure (v : α) : Leaves part (pure v : Action ε σ α) := fun _ => rfl

protected theorem throw (e : ε) : Leaves part (throw e : Action ε σ α) := fun _ => rfl

protected theorem state : Leaves part (state : Action ε σ σ) := fun _ => rfl

protected theorem say (level : Level) (text : String) :
    Leaves part (say level text : Action ε σ Unit) := fun _ => rfl

protected theorem change {f : σ → σ} (h : ∀ s, part (f s) = part s) :
    Leaves part (change f : Action ε σ Unit) := fun s => h s.state

protected theorem bind (h : Leaves part a) {f : α → Action ε σ β} (hf : ∀ v, Leaves part (f v)) :
    Leaves part (a >>= f) := by
  intro s
  have ha := h s
  rcases hrun : a.runOn s with ⟨e | v, s'⟩
  · rw [runOn_bind_of_error hrun]
    rwa [hrun] at ha
  · rw [runOn_bind_of_ok hrun]
    rw [hrun] at ha
    exact (hf v s').trans ha

protected theorem map (h : Leaves part a) (f : α → β) : Leaves part (f <$> a) := by
  intro s
  rw [runOn_map]
  exact h s

/-- An action on a part of the state that has all of `part`. -/
protected theorem zoom {inner : σ → τ} {put : σ → τ → σ} {explain : ε → ε'} {part' : τ → ρ}
    {a : Action ε τ α} (h : Leaves part' a) (hinner : ∀ s, part' (inner s) = part s)
    (hput : ∀ s t, part (put s t) = part' t) : Leaves part (zoom inner put explain a) := by
  intro s
  rw [runOn_zoom, hput, h, hinner]

end Leaves

/-- The action only adds lines to the log, and `P` holds of each of them. -/
def Writes (P : Line → Prop) (a : Action ε σ α) : Prop :=
  ∀ s, ∃ lines, (a.runOn s).2.log = s.log ++ lines ∧ ∀ line ∈ lines, P line

namespace Writes

variable {P : Line → Prop} {a : Action ε σ α}

theorem of_log_eq (h : ∀ s, (a.runOn s).2.log = s.log) : Writes P a :=
  fun s => ⟨[], by rw [h, List.append_nil], nofun⟩

protected theorem pure (v : α) : Writes P (pure v : Action ε σ α) := of_log_eq fun _ => rfl

protected theorem throw (e : ε) : Writes P (throw e : Action ε σ α) := of_log_eq fun _ => rfl

protected theorem state : Writes P (state : Action ε σ σ) := of_log_eq fun _ => rfl

protected theorem change (f : σ → σ) : Writes P (change f : Action ε σ Unit) :=
  of_log_eq fun _ => rfl

protected theorem ofExcept (outcome : Except ε α) :
    Writes P (ofExcept outcome : Action ε σ α) :=
  of_log_eq fun s => by rw [runOn_ofExcept]

protected theorem say {level : Level} {text : String} (h : P ⟨level, text⟩) :
    Writes P (say level text : Action ε σ Unit) :=
  fun _ => ⟨[⟨level, text⟩], rfl, List.forall_mem_singleton.2 h⟩

protected theorem bind (h : Writes P a) {f : α → Action ε σ β} (hf : ∀ v, Writes P (f v)) :
    Writes P (a >>= f) := by
  intro s
  obtain ⟨lines, hlog, hlines⟩ := h s
  rcases hrun : a.runOn s with ⟨e | v, s'⟩
  · rw [runOn_bind_of_error hrun]
    rw [hrun] at hlog
    exact ⟨lines, hlog, hlines⟩
  · rw [runOn_bind_of_ok hrun]
    rw [hrun] at hlog
    obtain ⟨more, hlog', hmore⟩ := hf v s'
    refine ⟨lines ++ more, by rw [hlog', hlog, List.append_assoc], ?_⟩
    exact List.forall_mem_append.2 ⟨hlines, hmore⟩

protected theorem map (h : Writes P a) (f : α → β) : Writes P (f <$> a) := by
  intro s
  rw [runOn_map]
  exact h s

protected theorem zoom {inner : σ → τ} {put : σ → τ → σ} {explain : ε → ε'} {a : Action ε τ α}
    (h : Writes P a) : Writes P (zoom inner put explain a) := by
  intro s
  rw [runOn_zoom]
  exact h ⟨inner s.state, s.log⟩

end Writes

/-- Seen through `view`, the first action is the second one: it has the same outcome, writes the
    same lines and leaves what the second one leaves. -/
def SeenAs (view : σ → τ) (a : Action ε σ α) (b : Action ε τ α) : Prop :=
  ∀ s, b.runOn ⟨view s.state, s.log⟩ =
    ((a.runOn s).1, ⟨view (a.runOn s).2.state, (a.runOn s).2.log⟩)

namespace SeenAs

variable {view : σ → τ} {a : Action ε σ α} {b : Action ε τ α}

protected theorem pure (v : α) : SeenAs view (pure v : Action ε σ α) (pure v) := fun _ => rfl

protected theorem throw (e : ε) : SeenAs view (throw e : Action ε σ α) (throw e) := fun _ => rfl

protected theorem say (level : Level) (text : String) :
    SeenAs view (say level text : Action ε σ Unit) (say level text) := fun _ => rfl

protected theorem change {f : σ → σ} {g : τ → τ} (h : ∀ s, view (f s) = g (view s)) :
    SeenAs view (change f : Action ε σ Unit) (change g) := by
  intro s
  rw [runOn_change, runOn_change, h]

protected theorem bind (h : SeenAs view a b) {f : α → Action ε σ β} {g : α → Action ε τ β}
    (hfg : ∀ v, SeenAs view (f v) (g v)) : SeenAs view (a >>= f) (b >>= g) := by
  intro s
  have hb := h s
  rcases hrun : a.runOn s with ⟨e | v, s'⟩
  · rw [hrun] at hb
    rw [runOn_bind_of_error hrun, runOn_bind_of_error hb]
  · rw [hrun] at hb
    rw [runOn_bind_of_ok hrun, runOn_bind_of_ok hb]
    exact hfg v s'

/-- What is done about the state is seen as what is done about its view. -/
protected theorem state {f : σ → Action ε σ α} {g : τ → Action ε τ α}
    (h : ∀ s, SeenAs view (f s) (g (view s))) : SeenAs view (state >>= f) (state >>= g) :=
  fun s => h s.state s

/-- What is not seen at all can be added. -/
theorem andThen {u : Action ε σ Unit} (hu : SeenAs view u (pure ())) (h : SeenAs view a b) :
    SeenAs view (do u; a) b := by
  have hbind := hu.bind fun _ => h
  rwa [pure_bind] at hbind

protected theorem map (h : SeenAs view a b) (f : α → β) : SeenAs view (f <$> a) (f <$> b) := by
  intro s
  rw [runOn_map, runOn_map, h s]

protected theorem zoom {inner : σ → σ'} {put : σ → σ' → σ} {inner' : τ → τ'}
    {put' : τ → τ' → τ} {explain : ε → ε'} {view' : σ' → τ'} {a : Action ε σ' α}
    {b : Action ε τ' α} (h : SeenAs view' a b) (hinner : ∀ s, inner' (view s) = view' (inner s))
    (hput : ∀ s t, view (put s t) = put' (view s) (view' t)) :
    SeenAs view (zoom inner put explain a) (zoom inner' put' explain b) := by
  intro s
  rw [runOn_zoom, runOn_zoom, hinner, hput, h ⟨inner s.state, s.log⟩]

end SeenAs

end Action

end RigExpr
