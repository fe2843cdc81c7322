import Mathlib.Data.List.Induction
import RigExpr.Proofs.Descriptions
import RigExpr.Proofs.Table

/-!
# The binding that names a value

Of the names that have a value with some text, the *last holder* is the one whose binding was made
last, and one might expect that it describes the value. There are two rules, though. A name that
is bound describes its value from then on. But when it takes another value, the names that are
left are asked in the order in which they were first bound, which is not the order of their
bindings once a name was bound twice. So the last holder describes the value just if the value was
last bound to it, or if no holder was first bound after it (`Bindings.describe_eq_last_holder_iff`).

* `Bindings.holders`: the names that have a value with some text, last binding last,
* `Bindings.rollcall`: the same names, first bound first,
* `Bindings.Ranks.bind`: how one more binding decides which of them describes the value,
* `Bindings.describe_ne_last_holder`: where it is not the last holder.
-/

namespace RigExpr

namespace Bindings

variable {H : Type}

/-! ## The order of bindings -/

/-- The bindings that stand when all are made, in this order: one that is made again later, for
    the same name, takes the place of the earlier one. -/
def standing : List (String × Value H) → List (String × Value H)
  | [] => []
  | p :: rest => if rest.any fun q => q.1 = p.1 then standing rest else p :: standing rest

theorem standing_concat (pairs : List (String × Value H)) (p : String × Value H) :
    standing (pairs ++ [p]) = (standing pairs).filter (fun q => q.1 ≠ p.1) ++ [p] := by
  induction pairs with
  | nil => simp [standing]
  | cons q rest ih =>
    rw [List.cons_append, standing, standing, ih]
    by_cases hrest : (rest.any fun q' => q'.1 = q.1) = true
    · rw [if_pos (by simp [hrest]), if_pos hrest]
    · rw [if_neg hrest]
      by_cases hp : p.1 = q.1
      · simp [hp]
      · simp [hrest, hp, Ne.symm hp]

variable [ToString H]

/-- The names that have a value with this text once all bindings are made, the one that was bound
    last at the end. -/
def holders (pairs : List (String × Value H)) (key : String) : List String :=
  ((standing pairs).filter fun p => p.2.text = key).map (·.1)

/-- The name that was bound last to a value with this text, which it may have lost again. -/
def newest? (pairs : List (String × Value H)) (key : String) : Option String :=
  (pairs.reverse.find? fun p => p.2.text = key).map (·.1)

/-- The names that have a value with this text, the one that was first bound last at the end. -/
def rollcall (b : Bindings H) (key : String) : List String :=
  (b.values.entries.filter fun e => e.2.text = key).map (·.1)

variable {pairs : List (String × Value H)} {b : Bindings H} {key name : String} {v : Value H}

theorem register_concat (b : Bindings H) (pairs : List (String × Value H))
    (p : String × Value H) : b.register (pairs ++ [p]) = (b.register pairs).bind p.1 p.2 := by
  simp [register]

theorem holders_concat (pairs : List (String × Value H)) (p : String × Value H) (key : String) :
    holders (pairs ++ [p]) key =
      (holders pairs key).filter (fun n => n ≠ p.1) ++ if p.2.text = key then [p.1] else [] := by
  rw [holders, standing_concat, List.filter_append, List.map_append, List.filter_filter, holders,
    List.filter_map, List.filter_filter]
  congr 1
  · simp [Bool.and_comm]
  · by_cases hp : p.2.text = key <;> simp [hp]

theorem newest?_concat (pairs : List (String × Value H)) (p : String × Value H) (key : String) :
    newest? (pairs ++ [p]) key = if p.2.text = key then some p.1 else newest? pairs key := by
  rw [newest?, List.reverse_append, List.reverse_singleton, List.singleton_append, List.find?_cons]
  by_cases hp : p.2.text = key <;> simp [hp, newest?]

/-- The bindings that stand are those that the table has. -/
theorem mem_standing {p : String × Value H} :
    p ∈ standing pairs ↔ (empty.register pairs : Bindings H).values.get? p.1 = some p.2 := by
  induction pairs using List.reverseRecOn with
  | nil => simp [standing, register, empty, Table.get?, Table.find]
  | append_singleton pairs q ih =>
    rw [standing_concat, register_concat, bind, Table.get?_insert, List.mem_append,
      List.mem_filter, ih, List.mem_singleton]
    by_cases hq : q.1 = p.1
    · simp [hq, Prod.ext_iff, eq_comm]
    · have hne : p ≠ q := fun h => hq (h ▸ rfl)
      simp [hq, Ne.symm hq, hne]

/-- The holders are the names that have a value with the text. -/
theorem mem_holders : name ∈ holders pairs key ↔
    ∃ u, (empty.register pairs : Bindings H).values.get? name = some u ∧ u.text = key := by
  simp [holders, mem_standing]

/-! ## The name that describes a value -/

/-- The names that have a value with this text, but for one, as they are asked to describe it. -/
theorem other?_eq (values : Table String (Value H)) (key name : String) :
    other? values key name =
      (((values.entries.filter fun e => e.2.text = key).map (·.1)).filter
        fun n => n ≠ name).getLast? := by
  rw [other?, ← List.getLast?_filter, ← List.getLast?_map, List.filter_map, List.filter_filter]
  simp

theorem rollcall_bind (hnodup : b.values.keys.Nodup) (hkey : v.text ≠ key) (name : String) :
    (b.bind name v).rollcall key = (b.rollcall key).filter fun n => n ≠ name :=
  Table.map_filter_put (by simpa using hkey) hnodup

/-- A name that is bound describes its value. -/
theorem names_bind_text (b : Bindings H) (name : String) (v : Value H) :
    (b.bind name v).names.get? v.text = some name :=
  Table.get?_insert_self ..

/-- A name that takes a value gives up the value that it described before, and the last of the
    others to be first bound takes over. -/
theorem names_bind_of_ne (h : b.Mirrors) (hkey : v.text ≠ key) (name : String) :
    (b.bind name v).names.get? key =
      if b.names.get? key = some name then ((b.bind name v).rollcall key).getLast?
      else b.names.get? key := by
  rw [bind, Table.get?_insert_of_ne _ _ hkey, ← bind]
  cases hold : b.values.get? name with
  | none =>
    have hname : b.names.get? key ≠ some name := by
      intro hname
      obtain ⟨u, hu, -⟩ := h.text hname
      rw [hold] at hu
      cases hu
    exact (if_neg hname).symm
  | some old =>
    rw [get?_release]
    by_cases hname : b.names.get? key = some name
    · obtain ⟨u, hu, rfl⟩ := h.text hname
      obtain rfl : old = u := Option.some.inj (hold.symm.trans hu)
      have hroll := rollcall_bind h.nodup hkey name
      have hothers : ((b.bind name v).rollcall old.text).filter (fun n => n ≠ name) =
          (b.bind name v).rollcall old.text := by
        rw [hroll, List.filter_filter]
        simp only [Bool.and_self]
      rw [if_pos ⟨hname, rfl⟩, if_pos hname, other?_eq]
      exact congrArg List.getLast? hothers
    · have hother : ¬(b.names.get? old.text = some name ∧ old.text = key) := by
        rintro ⟨hname', rfl⟩
        exact hname hname'
      rw [if_neg hother, if_neg hname]

theorem getLast?_filter_ne {names : List String} (h : names.getLast? ≠ some name) :
    (names.filter fun n => n ≠ name).getLast? = names.getLast? := by
  rcases List.eq_nil_or_concat names with rfl | ⟨front, last, rfl⟩
  · rfl
  · have hlast : last ≠ name := by
      rintro rfl
      exact h (by simp)
    simp [List.filter_append, hlast]

/-- Which name describes values with this text after these bindings: the one that was bound last
    to such a value, as long as it holds on to it, and the last in the roll from then on. -/
structure Ranks (pairs : List (String × Value H)) (b : Bindings H) (key : String) : Prop where
  newest : ∀ {name : String}, newest? pairs key = some name → name ∈ holders pairs key →
    (holders pairs key).getLast? = some name ∧ b.names.get? key = some name
  roll : (∀ name, newest? pairs key = some name → name ∉ holders pairs key) →
    b.names.get? key = (b.rollcall key).getLast?

namespace Ranks

theorem empty (key : String) : Ranks [] (Bindings.empty : Bindings H) key where
  newest h := by cases h
  roll _ := rfl

/-- One more binding. -/
theorem bind (h : Ranks pairs b key) (hb : b.Mirrors) (p : String × Value H) :
    Ranks (pairs ++ [p]) (b.bind p.1 p.2) key := by
  by_cases hp : p.2.text = key
  · -- the name has been bound to the value just now
    subst hp
    have hholders := holders_concat pairs p p.2.text
    have hnewest := newest?_concat pairs p p.2.text
    rw [if_pos rfl] at hholders hnewest
    constructor
    · intro name hname _
      rw [hnewest] at hname
      cases hname
      exact ⟨by simp [hholders], names_bind_text b p.1 p.2⟩
    · intro hnone
      exact absurd (by simp [hholders]) (hnone p.1 hnewest)
  · -- the name leaves the holders, if it was one of them
    have hholders := holders_concat pairs p key
    have hnewest := newest?_concat pairs p key
    rw [if_neg hp] at hnewest
    rw [if_neg hp, List.append_nil] at hholders
    have hnames := names_bind_of_ne hb hp p.1
    have hroll := rollcall_bind hb.nodup hp p.1
    constructor
    · intro name hname hmem
      rw [hnewest] at hname
      rw [hholders, List.mem_filter] at hmem
      have hne : name ≠ p.1 := by simpa using hmem.2
      obtain ⟨hlast, hdescribes⟩ := h.newest hname hmem.1
      have hother : some name ≠ some p.1 := fun h => hne (Option.some.inj h)
      constructor
      · rw [hholders, getLast?_filter_ne (hlast ▸ hother), hlast]
      · rw [hnames, if_neg (hdescribes ▸ hother), hdescribes]
    · intro hnone
      by_cases hdescribes : b.names.get? key = some p.1
      · rw [hnames, if_pos hdescribes]
      · -- the newest name was no holder before, or it would describe the value
        have hbefore : ∀ name, newest? pairs key = some name → name ∉ holders pairs key := by
          intro name hname hmem
          have hne : name ≠ p.1 := by
            rintro rfl
            exact hdescribes (h.newest hname hmem).2
          refine hnone name (hnewest.trans hname) ?_
          rw [hholders, List.mem_filter]
          exact ⟨hmem, decide_eq_true hne⟩
        have hlast := h.roll hbefore
        rw [hnames, if_neg hdescribes, hroll, getLast?_filter_ne (hlast ▸ hdescribes), hlast]

end Ranks

/-- All bindings. -/
theorem ranks_register (pairs : List (String × Value H)) (key : String) :
    Ranks pairs (Bindings.empty.register pairs) key := by
  induction pairs using List.reverseRecOn with
  | nil => exact .empty key
  | append_singleton pairs p ih =>
    rw [register_concat]
    exact ih.bind (mirrors_register pairs) p

/-- A value that some name has is described by the name that was bound last to a value with its
    text, if that name is a holder still; then it is the last holder. Otherwise the value is
    described by the holder that was first bound last. So the last holder describes it just if it
    is one of these two. -/
theorem describe_eq_last_holder_iff (pairs : List (String × Value H)) {v : Value H}
    (hv : holders pairs v.text ≠ []) :
    let b : Bindings H := Bindings.empty.register pairs
    let last? := (holders pairs v.text).getLast?
    (∀ name, name ∈ holders pairs v.text ↔
      ∃ u, b.values.get? name = some u ∧ u.text = v.text) ∧
    (last? = some (b.describe v) ↔
      last? = newest? pairs v.text ∨ last? = (b.rollcall v.text).getLast?) ∧
    (last? ≠ newest? pairs v.text → (b.rollcall v.text).getLast? = some (b.describe v)) := by
  intro b last?
  have hranks : Ranks pairs b v.text := ranks_register pairs v.text
  have hdescribe : b.names.get? v.text = some (b.describe v) := by
    obtain ⟨name, hname⟩ := List.exists_mem_of_ne_nil _ hv
    obtain ⟨u, hu, htext⟩ := mem_holders.1 hname
    obtain ⟨n, hn⟩ := covered_register pairs name u hu
    rw [htext] at hn
    rw [describe, hn, Option.getD_some]
  have hlast : last? = newest? pairs v.text → last? = some (b.describe v) := by
    intro heq
    obtain ⟨name, hname⟩ := Option.isSome_iff_exists.1 (List.getLast?_isSome.2 hv)
    have hnewest : newest? pairs v.text = some name := heq.symm.trans hname
    rw [← hdescribe, (hranks.newest hnewest (List.mem_of_getLast? hname)).2]
    exact hname
  have hroll (hne : last? ≠ newest? pairs v.text) :
      (b.rollcall v.text).getLast? = some (b.describe v) := by
    rw [← hdescribe]
    refine (hranks.roll fun name hname hmem => hne ?_).symm
    exact (hranks.newest hname hmem).1.trans hname.symm
  refine ⟨fun name => mem_holders, ?_, hroll⟩
  constructor
  · intro heq
    by_cases hnewest : last? = newest? pairs v.text
    · exact .inl hnewest
    · exact .inr (heq.trans (hroll hnewest).symm)
  · rintro (heq | heq)
    · exact hlast heq
    · by_cases hnewest : last? = newest? pairs v.text
      · exact hlast hnewest
      · exact heq.trans (hroll hnewest)

/-- The name `c` had the value last and takes another one. Of the two names that are left, `b` was
    first bound last, and its binding is the last one too. -/
theorem describe_eq_last_holder_iff_released :
    let pairs : List (String × Value String) := [("a", .scalar 1), ("b", .scalar 1),
      ("b", .scalar 1), ("c", .scalar 1), ("c", .scalar 2)]
    let b : Bindings String := Bindings.empty.register pairs
    holders pairs (Number.text 1) = ["a", "b"] ∧ newest? pairs (Number.text 1) = some "c" ∧
      (holders pairs (Number.text 1)).getLast? = some (b.describe (.scalar 1)) := by
  intro pairs b
  have hrun : holders pairs (Number.text 1) = ["a", "b"] ∧
      newest? pairs (Number.text 1) = some "c" ∧
      (holders pairs (Number.text 1)).getLast? = (b.rollcall (Number.text 1)).getLast? := by
    decide +kernel
  have hne : holders pairs (Number.text 1) ≠ [] := by simp [hrun.1]
  obtain ⟨-, hiff, -⟩ := describe_eq_last_holder_iff pairs (v := .scalar 1) hne
  exact ⟨hrun.1, hrun.2.1, hiff.2 (.inr hrun.2.2)⟩

/-- The same with `a` bound again in the place of `b`. Then the binding of `a` is the last one of
    the two, and yet `b` describes the value. -/
theorem describe_ne_last_holder :
    let pairs : List (String × Value String) := [("a", .scalar 1), ("b", .scalar 1),
      ("a", .scalar 1), ("c", .scalar 1), ("c", .scalar 2)]
    let b : Bindings String := Bindings.empty.register pairs
    holders pairs (Number.text 1) = ["b", "a"] ∧ b.describe (.scalar 1) = "b" ∧
      (holders pairs (Number.text 1)).getLast? ≠ some (b.describe (.scalar 1)) := by
  decide +kernel

end Bindings

end RigExpr
