import Mathlib.Data.Fintype.EquivFin
import Mathlib.Order.WellFounded
import RigExpr.Proofs.Graph.Permutation

/-!
# Loose ends and cycles

A graph whose ids are distinct has an evaluation order unless a connection leads to no node
(`Graph.Dangles`), or unless a node reads from itself along some way (`Graph.HasCycle`). Each
of the two has an error of its own, and the loose end of the first node that has one is the
one reported (`Graph.order_outcome`).

The number of signals that an id waits for is taken down once for each connection that is
settled. It is never zero when it is taken down: `Graph.drain?` checks that at each
connection, and comes to the same as `Graph.drain`.

* `Graph.wellFounded_feeds`: where there is no cycle, sources are well-founded.
* `Graph.Progress.drain?`: no number is taken down below zero.
-/

namespace RigExpr.Graph

variable {g : Graph} {done ready : List String} {waits : Table String Nat}

/-- A connection of the node leads to no node of the graph. -/
def Dangles (g : Graph) (n : Node) : Prop := ∃ p ∈ n.inputs.values, p.node ∉ g.nodeIds

/-- A node reads from itself, be it at once or along others. -/
def HasCycle (g : Graph) : Prop := ∃ id, Relation.TransGen g.Feeds id id

/-! ## Loose ends -/

theorem forall_feeds_iff :
    (∀ source id, g.Feeds source id → source ∈ g.nodeIds) ↔ ∀ n ∈ g.nodes, ¬g.Dangles n := by
  simp only [Dangles, not_exists, not_and, not_not]
  constructor
  · intro h n hn p hp
    exact h p.node n.id (feeds_iff.2 ⟨n, hn, rfl, p, hp, rfl⟩)
  · intro h source id hfeeds
    obtain ⟨n, hn, -, p, hp, rfl⟩ := feeds_iff.1 hfeeds
    exact h n hn p hp

/-- The loose end that is found is one of the first node that has any. -/
theorem exists_of_dangling? {n : Node} {p : Plug} (h : g.dangling? = some (n, p)) :
    ∃ before after, g.nodes = before ++ n :: after ∧ p ∈ n.inputs.values ∧ p.node ∉ g.nodeIds ∧
      ∀ m ∈ before, ¬g.Dangles m := by
  obtain ⟨before, m, after, hnodes, hm, hbefore⟩ := List.findSome?_eq_some_iff.1 h
  obtain ⟨q, hq, heq⟩ := Option.map_eq_some_iff.1 hm
  obtain ⟨rfl, rfl⟩ := Prod.mk.inj heq
  have hloose : q.node ∉ g.ids := by simpa using List.find?_some hq
  rw [g.ids_spec.2] at hloose
  refine ⟨before, after, hnodes, List.mem_of_find?_eq_some hq, hloose, fun k hk => ?_⟩
  rintro ⟨r, hr, hnone⟩
  have hfound := List.find?_eq_none.1 (Option.map_eq_none_iff.1 (hbefore k hk)) r hr
  exact hnone ((g.ids_spec.2 _).1 (by simpa using hfound))

/-- The order fails by the loose end that is found, if there is one. -/
theorem order_eq_unknownNode_iff {reader source : String} :
    g.order = .error (.unknownNode reader source) ↔
      ∃ n p, g.dangling? = some (n, p) ∧ n.id = reader ∧ p.node = source := by
  rw [order]
  cases g.dangling? with
  | none =>
    dsimp only
    split <;> simp
  | some place =>
    obtain ⟨n, p⟩ := place
    simp [and_assoc]

/-- The order fails by a loose end just if there is one. -/
theorem exists_unknownNode_iff :
    (∃ reader source, g.order = .error (.unknownNode reader source)) ↔
      ∃ n ∈ g.nodes, g.Dangles n := by
  simp only [order_eq_unknownNode_iff]
  constructor
  · rintro ⟨reader, source, n, p, h, -⟩
    obtain ⟨before, after, hnodes, hp, hloose, -⟩ := exists_of_dangling? h
    exact ⟨n, by simp [hnodes], p, hp, hloose⟩
  · rintro ⟨n, hn, hloose⟩
    have hne : g.dangling? ≠ none := fun h =>
      forall_feeds_iff.1 (dangling?_eq_none_iff.1 h) n hn hloose
    obtain ⟨⟨m, p⟩, hplace⟩ := Option.ne_none_iff_exists'.1 hne
    exact ⟨m.id, p.node, m, p, hplace, rfl, rfl⟩

/-! ## Cycles -/

/-- Where there is no cycle, sources are well-founded: the ids are finitely many, and to be
    read from along some way is an order of them. -/
theorem wellFounded_feeds (hknown : ∀ source id, g.Feeds source id → source ∈ g.nodeIds)
    (hcycle : ¬g.HasCycle) : WellFounded g.Feeds := by
  let before (a b : { id // id ∈ g.nodeIds }) : Prop := Relation.TransGen g.Feeds a.1 b.1
  have : IsTrans _ before := ⟨fun _ _ _ => Relation.TransGen.trans⟩
  have : Std.Irrefl before := ⟨fun a ha => hcycle ⟨a.1, ha⟩⟩
  have hwf : WellFounded before := Finite.wellFounded_of_trans_of_irrefl before
  have hacc : ∀ a : { id // id ∈ g.nodeIds }, Acc g.Feeds a.1 := by
    intro a
    induction a using hwf.induction with
    | _ a ih =>
      refine ⟨a.1, fun source hfeeds => ?_⟩
      exact ih ⟨source, hknown source a.1 hfeeds⟩ (.single hfeeds)
  -- an id of no node reads from none
  exact ⟨fun id => ⟨id, fun source hfeeds => hacc ⟨source, hknown source id hfeeds⟩⟩⟩

/-- An order of the ids leaves no room for a cycle, and without one there is an order. -/
theorem order_eq_cycle_iff (hnodup : g.nodeIds.Nodup)
    (hknown : ∀ source id, g.Feeds source id → source ∈ g.nodeIds) :
    g.order = .error .cycle ↔ g.HasCycle := by
  constructor
  · intro h
    by_contra hcycle
    obtain ⟨order, horder, -⟩ := exists_order hnodup hknown (wellFounded_feeds hknown hcycle)
    rw [h] at horder
    cases horder
  · rintro ⟨id, hid⟩
    have hnone : ∀ order, g.order ≠ .ok order := fun order horder =>
      (wellFounded_feeds_of_order hnodup horder).transGen.irrefl.irrefl id hid
    rw [order, dangling?_eq_none_iff.2 hknown] at hnone ⊢
    dsimp only at hnone ⊢
    split
    · next hlength => exact absurd (if_pos hlength) (hnone _)
    · rfl

/-- Where there is no cycle, the ids are listed, each after those it reads from. -/
theorem exists_order_of_not_hasCycle (hnodup : g.nodeIds.Nodup)
    (hknown : ∀ source id, g.Feeds source id → source ∈ g.nodeIds) (hcycle : ¬g.HasCycle) :
    ∃ order, g.order = .ok order ∧ order.Perm g.nodeIds ∧
      ∀ n ∈ g.nodes, ∀ p ∈ n.inputs.values, order.idxOf p.node < order.idxOf n.id := by
  obtain ⟨order, horder, hready, hdistinct, hmem⟩ :=
    exists_order hnodup hknown (wellFounded_feeds hknown hcycle)
  refine ⟨order, horder, (List.perm_ext_iff_of_nodup hdistinct hnodup).2 hmem, fun n hn p hp => ?_⟩
  have hfeeds : g.Feeds p.node n.id := feeds_iff.2 ⟨n, hn, rfl, p, hp, rfl⟩
  exact hready.idxOf_lt hfeeds List.not_mem_nil ((hmem n.id).2 (List.mem_map_of_mem hn))

/-! ## Numbers that are taken down -/

/-- `settle` with a check: there is no result if the number of an id is zero when it is to be
    taken down. -/
def settle? : List String → Table String Nat → Option (Table String Nat × List String)
  | [], waits => some (waits, [])
  | id :: rest, waits =>
    match waits.get? id with
    | none => settle? rest waits
    | some 0 => none
    | some (n + 1) => do
      let (waits, ready) ← settle? rest (waits.insert id n)
      return (waits, if n = 0 then id :: ready else ready)

/-- `drain` with the same check. -/
def drain? (g : Graph) : (fuel : Nat) → (ready : List String) → Table String Nat →
    Option (List String)
  | 0, _, _ => some []
  | _ + 1, [], _ => some []
  | fuel + 1, id :: ready, waits => do
    let (waits, more) ← settle? (g.readers id) waits
    let order ← g.drain? fuel (ready ++ more) waits
    return id :: order

/-- If the number of each id covers its places in the list, no number is taken down below
    zero. -/
theorem settle?_eq {list : List String} (h : ∀ id, list.count id ≤ (waits.get? id).getD 0) :
    settle? list waits = some (settle list waits) := by
  induction list generalizing waits with
  | nil => rfl
  | cons first rest ih =>
    have hfirst := h first
    rw [List.count_cons_self] at hfirst
    cases hget : waits.get? first with
    | none => simp [hget] at hfirst
    | some k =>
      cases k with
      | zero => simp [hget] at hfirst
      | succ n =>
        rw [hget, Option.getD_some] at hfirst
        have hrest : ∀ id, rest.count id ≤ ((waits.insert first n).get? id).getD 0 := by
          intro id
          rw [Table.get?_insert]
          split
          · next heq => exact heq ▸ Nat.le_of_succ_le_succ hfirst
          · next hne => simpa [List.count_cons, hne] using h id
        simp [settle?, settle, hget, ih hrest]

/-- A whole run: the number of an id covers its connections to each id that is done. -/
theorem Progress.drain? (h : g.Progress done ready waits) (fuel : Nat) :
    g.drain? fuel ready waits = some (g.drain fuel ready waits) := by
  induction fuel generalizing done ready waits with
  | zero => rfl
  | succ fuel ih =>
    cases ready with
    | nil => rfl
    | cons source ready =>
      simp [Graph.drain?, Graph.drain, settle?_eq h.count_readers_le, ih h.settle]

/-! ## Outcomes -/

/-- What becomes of the order of a graph whose ids are distinct. It fails by a loose end just
    if there is one, and then by one of the first node that has any. If there is none, it fails
    by a cycle just if there is one. Otherwise it lists the ids, each after those it reads from.
    No number of signals waited for is taken down below zero. -/
theorem order_outcome (hnodup : g.nodeIds.Nodup) :
    ((∃ reader source, g.order = .error (.unknownNode reader source)) ↔
      ∃ n ∈ g.nodes, g.Dangles n) ∧
    (∀ reader source, g.order = .error (.unknownNode reader source) →
      ∃ before n after, g.nodes = before ++ n :: after ∧ n.id = reader ∧
        (∃ p ∈ n.inputs.values, p.node = source ∧ source ∉ g.nodeIds) ∧
        ∀ m ∈ before, ¬g.Dangles m) ∧
    ((∀ n ∈ g.nodes, ¬g.Dangles n) →
      (g.order = .error .cycle ↔ g.HasCycle) ∧
      (¬g.HasCycle → ∃ order, g.order = .ok order ∧ order.Perm g.nodeIds ∧
        ∀ n ∈ g.nodes, ∀ p ∈ n.inputs.values, order.idxOf p.node < order.idxOf n.id)) ∧
    g.drain? g.nodes.length g.sources g.waits =
      some (g.drain g.nodes.length g.sources g.waits) := by
  refine ⟨exists_unknownNode_iff, fun reader source h => ?_, fun hclosed => ?_,
    (progress_sources (nodup_sources hnodup)).drain? _⟩
  · obtain ⟨n, p, hplace, rfl, rfl⟩ := order_eq_unknownNode_iff.1 h
    obtain ⟨before, after, hnodes, hp, hloose, hbefore⟩ := exists_of_dangling? hplace
    exact ⟨before, n, after, hnodes, rfl, ⟨p, hp, rfl, hloose⟩, hbefore⟩
  · have hknown := forall_feeds_iff.2 hclosed
    exact ⟨order_eq_cycle_iff hnodup hknown, exists_order_of_not_hasCycle hnodup hknown⟩

/-- A constant that is read twice by a node on a cycle: both signals are settled, one more is
    missing, and the order fails. -/
theorem order_outcome_loop :
    let both : Table String Plug :=
      ⟨[("lhs", ⟨"c", "out"⟩), ("rhs", ⟨"c", "out"⟩), ("t", ⟨"b", "out"⟩)]⟩
    let g : Graph := ⟨[
      { id := "a", kind := .lerp, inputs := both },
      { id := "b", kind := .not, inputs := ⟨[("in", ⟨"a", "out"⟩)]⟩ },
      { id := "c", kind := .constant }]⟩
    g.nodeIds.Nodup ∧ (∀ n ∈ g.nodes, ¬g.Dangles n) ∧ g.HasCycle ∧
      g.order = .error .cycle ∧ g.drain? 3 ["c"] g.waits = some ["c"] := by
  intro both g
  have hnodup : g.nodeIds.Nodup := by decide
  have hclosed : ∀ n ∈ g.nodes, ¬g.Dangles n := by
    simp only [Dangles]
    decide
  have hfeeds (source id : String) (h : ∃ n ∈ g.nodes, n.id = id ∧ ∃ p ∈ n.inputs.values,
      p.node = source) : Relation.TransGen g.Feeds source id := .single (feeds_iff.2 h)
  have hcycle : g.HasCycle :=
    ⟨"a", (hfeeds "a" "b" (by decide)).trans (hfeeds "b" "a" (by decide))⟩
  obtain ⟨-, -, houtcome, hdrain⟩ := order_outcome hnodup
  exact ⟨hnodup, hclosed, hcycle, (houtcome hclosed).1.2 hcycle, hdrain.trans (by decide)⟩

end RigExpr.Graph
