import RigExpr.Proofs.Descriptions

/-!
# Histories of bindings

Names are bound, looked up and found unbound in any order, and a name that is bound again takes
its new value. All along, descriptions mirror the values that names have at that time
(`Bindings.Mirrored`): there is one for each text of a value that a name is bound to, and none
else, and it is a name of such a value. A value that no name is bound to any more leaves no
description behind.

* `Bindings.Mirrored.bind`: binding a name, new or not, keeps it so,
* `Bindings.mirrored_after`: so does every history.
-/

namespace RigExpr.Bindings

variable {H : Type}

/-- What is done to bindings. -/
inductive Step (H : Type)
  | register (pairs : List (String × Value H))
  | resolve (name : String)
  | markInvalid (name : String)

namespace Step

/-- The names that the step binds, with their values. -/
def pairs : Step H → List (String × Value H)
  | register pairs => pairs
  | resolve _ | markInvalid _ => []

variable [ToString H]

/-- The bindings after the step. -/
def apply (b : Bindings H) : Step H → Bindings H
  | register pairs => b.register pairs
  | resolve name => (b.resolve name).2
  | markInvalid name => b.markInvalid name

end Step

/-- The value that a name was bound to last, if it was. -/
def lastBound? (steps : List (Step H)) (name : String) : Option (Value H) :=
  ((steps.flatMap Step.pairs).reverse.find? fun p => p.1 = name).map (·.2)

variable [ToString H]

/-- The bindings after these steps, where there were none before. -/
def after (steps : List (Step H)) : Bindings H := steps.foldl Step.apply empty

/-- There is a description for the text of each value that a name is bound to, and none else. It
    is a name of a value with this text. -/
structure Mirrored (b : Bindings H) : Prop extends Mirrors b where
  covered : b.Covered

namespace Mirrored

variable {b b' : Bindings H} {v : Value H}

theorem empty : (Bindings.empty : Bindings H).Mirrored where
  toMirrors := mirrors_empty
  covered _ _ h := by cases h

/-- What is noted about the use of names does not matter. -/
theorem congr (h : b.Mirrored) (hvalues : b'.values = b.values) (hnames : b'.names = b.names) :
    b'.Mirrored where
  nodup := hvalues ▸ h.nodup
  text hn := by
    rw [hvalues]
    exact h.text (hnames ▸ hn)
  covered name u hu := by
    rw [hnames]
    exact h.covered name u (hvalues ▸ hu)

theorem bind (h : b.Mirrored) (name : String) (v : Value H) : (b.bind name v).Mirrored where
  toMirrors := h.toMirrors.bind name v
  covered := h.covered.bind name v

theorem register (h : b.Mirrored) (pairs : List (String × Value H)) :
    (b.register pairs).Mirrored := by
  induction pairs generalizing b with
  | nil => exact h
  | cons p pairs ih => exact ih (h.bind p.1 p.2)

/-- One step. -/
theorem step (h : b.Mirrored) (s : Step H) : (s.apply b).Mirrored := by
  cases s with
  | register pairs => exact h.register pairs
  | resolve name => exact h.congr (values_resolve b name) (names_resolve b name)
  | markInvalid name => exact h.congr rfl rfl

/-- A text has a description just if a name is bound to a value with this text. -/
theorem isSome_names_iff (h : b.Mirrored) {key : String} :
    (b.names.get? key).isSome = true ↔
      ∃ name u, b.values.get? name = some u ∧ u.text = key := by
  rw [Option.isSome_iff_exists]
  constructor
  · rintro ⟨name, hname⟩
    obtain ⟨u, hu, htext⟩ := h.text hname
    exact ⟨name, u, hu, htext⟩
  · rintro ⟨name, u, hu, rfl⟩
    exact h.covered name u hu

/-- No name describes values with different texts. -/
theorem key_eq (h : b.Mirrored) {key key' name : String} (hkey : b.names.get? key = some name)
    (hkey' : b.names.get? key' = some name) : key = key' := by
  obtain ⟨u, hu, rfl⟩ := h.text hkey
  obtain ⟨u', hu', rfl⟩ := h.text hkey'
  rw [hu] at hu'
  rw [Option.some.inj hu']

/-- A value that a name is bound to is described by such a name. -/
theorem describe_of_bound (h : b.Mirrored)
    (hv : ∃ name u, b.values.get? name = some u ∧ u.text = v.text) :
    ∃ u, b.values.get? (b.describe v) = some u ∧ u.text = v.text := by
  rcases h.describe_cases v with ⟨-, hbound⟩ | ⟨hnone, -⟩
  · exact hbound
  · rw [← h.isSome_names_iff, hnone] at hv
    cases hv

/-- A value that no name is bound to goes by its text. -/
theorem describe_of_unbound (h : b.Mirrored)
    (hv : ¬∃ name u, b.values.get? name = some u ∧ u.text = v.text) : b.describe v = v.text := by
  rcases h.describe_cases v with ⟨-, hbound⟩ | ⟨-, htext⟩
  · exact absurd ⟨_, hbound⟩ hv
  · exact htext

end Mirrored

/-- All steps. -/
theorem mirrored_after (steps : List (Step H)) : (after steps).Mirrored := by
  suffices ∀ b : Bindings H, b.Mirrored → (steps.foldl Step.apply b).Mirrored from this _ .empty
  induction steps with
  | nil => exact fun b h => h
  | cons s steps ih => exact fun b h => ih _ (h.step s)

theorem get?_values_apply (b : Bindings H) (s : Step H) (name : String) :
    (s.apply b).values.get? name =
      ((s.pairs.reverse.find? fun p => p.1 = name).map (·.2)).or (b.values.get? name) := by
  cases s with
  | register pairs => exact get?_values_register_eq b pairs name
  | resolve other => rw [Step.apply, values_resolve]; rfl
  | markInvalid => rfl

/-- A name has the value that it was bound to last. -/
theorem get?_values_after (steps : List (Step H)) (name : String) :
    (after steps).values.get? name = lastBound? steps name := by
  suffices h : ∀ b : Bindings H, (steps.foldl Step.apply b).values.get? name =
      (lastBound? steps name).or (b.values.get? name) by
    rw [after, h]
    exact Option.or_none
  induction steps with
  | nil => exact fun b => rfl
  | cons s steps ih =>
    intro b
    rw [List.foldl_cons, ih, get?_values_apply, ← Option.or_assoc, lastBound?, lastBound?,
      List.flatMap_cons, List.reverse_append, List.find?_append, Option.map_or]

/-- Descriptions mirror the bindings after every history. A name has the value that it was bound
    to last. If a name has a value with the text of `v`, then `v` is described by such a name, and
    by its own text otherwise. So there are descriptions for exactly the texts of values that
    names have, each of them a name that has such a value, and no name describes values with two
    texts. -/
theorem describe_after (steps : List (Step H)) :
    let b := after steps
    (∀ name, b.values.get? name = lastBound? steps name) ∧
    (∀ v : Value H, (∃ name u, lastBound? steps name = some u ∧ u.text = v.text) →
      ∃ u, lastBound? steps (b.describe v) = some u ∧ u.text = v.text) ∧
    (∀ v : Value H, (¬∃ name u, lastBound? steps name = some u ∧ u.text = v.text) →
      b.describe v = v.text) ∧
    (∀ key, (b.names.get? key).isSome = true ↔
      ∃ name u, lastBound? steps name = some u ∧ u.text = key) ∧
    (∀ key name, b.names.get? key = some name →
      ∃ u, lastBound? steps name = some u ∧ u.text = key) ∧
    ∀ key key' name, b.names.get? key = some name → b.names.get? key' = some name →
      key = key' := by
  intro b
  have hb : b.Mirrored := mirrored_after steps
  have hvalues (name : String) : b.values.get? name = lastBound? steps name :=
    get?_values_after steps name
  simp only [← hvalues]
  exact ⟨fun _ => trivial, fun v => hb.describe_of_bound, fun v => hb.describe_of_unbound,
    fun key => hb.isSome_names_iff, fun key name => hb.text, fun key key' name => hb.key_eq⟩

/-- Two names for `1` take other values one after the other. Then `1` goes by its text again, and
    `3` by the one of them that still has it. -/
theorem describe_after_rebound :
    let steps : List (Step String) := [.register [("b", .scalar 1), ("a", .scalar 1)],
      .resolve "a", .register [("a", .scalar 3)], .markInvalid "c",
      .register [("b", .scalar 3), ("b", .scalar 2)]]
    let b := after steps
    b.describe (.scalar 1) = Number.text 1 ∧
      ∃ u, lastBound? steps (b.describe (.scalar 3)) = some u ∧ u.text = Number.text 3 := by
  intro steps b
  obtain ⟨-, hbound, hunbound, hnames, -, -⟩ := describe_after steps
  constructor
  · refine hunbound (.scalar 1) fun hname => ?_
    have hnone : ((after steps).names.get? (Number.text 1)).isSome = false := by decide +kernel
    rw [← hnames, Value.text, hnone] at hname
    cases hname
  · exact hbound (.scalar 3) ⟨"a", .scalar 3, rfl, rfl⟩

end RigExpr.Bindings
