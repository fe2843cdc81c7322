import Mathlib.Data.List.Nodup
import Mathlib.Data.List.Perm.Subperm
import RigExpr.Graph.Order

/-!
# Evaluation orders

The order of a graph takes the ids one by one, each once all nodes it reads from are done
(`Graph.IsReady`). The numbers that `Graph.drain` keeps are those of the connections to
nodes that are not done yet (`Graph.pending`); the ids that wait for none of them are the
ones done and the ones ready (`Graph.Progress`), which is what each step preserves.

* `Graph.Progress.settle`: one id is done.
* `Graph.Progress.drain`: the ids that can be done are done.
* `Graph.exists_order`: where no node reads from itself along any way, that is all of them.
-/

namespace RigExpr.Graph

variable {g : Graph} {done ready : List String} {waits : Table String Nat}

/-- The connections of the nodes with this id. -/
def connections (g : Graph) (id : String) : List Plug :=
  (g.nodes.filter fun n => n.id = id).flatMap fun n => n.inputs.values

/-- The number of connections to nodes that are not done. -/
def pending (g : Graph) (done : List String) (id : String) : Nat :=
  (g.connections id).countP fun p => p.node ∉ done

/-- The ids of the nodes, in the order of the nodes. -/
def nodeIds (g : Graph) : List String := g.nodes.map (·.id)

/-- Whether a node with the second id reads from the first one. -/
def Feeds (g : Graph) (source id : String) : Prop := ∃ p ∈ g.connections id, p.node = source

/-- The ids can be done in this order: no id is done again, and the ids it reads from are
    done before it. -/
def IsReady (g : Graph) : (done order : List String) → Prop
  | _, [] => True
  | done, id :: rest =>
    id ∉ done ∧ (∀ source, g.Feeds source id → source ∈ done) ∧ g.IsReady (done ++ [id]) rest

theorem mem_connections {id : String} {p : Plug} :
    p ∈ g.connections id ↔ ∃ n ∈ g.nodes, n.id = id ∧ p ∈ n.inputs.values := by
  simp [connections, and_assoc]

theorem feeds_iff {source id : String} :
    g.Feeds source id ↔ ∃ n ∈ g.nodes, n.id = id ∧ ∃ p ∈ n.inputs.values, p.node = source := by
  simp only [Feeds, mem_connections]
  constructor
  · rintro ⟨p, ⟨n, hn, hid, hp⟩, hsource⟩
    exact ⟨n, hn, hid, p, hp, hsource⟩
  · rintro ⟨n, hn, hid, p, hp, hsource⟩
    exact ⟨p, ⟨n, hn, hid, hp⟩, hsource⟩

theorem pending_eq_zero {id : String} :
    g.pending done id = 0 ↔ ∀ source, g.Feeds source id → source ∈ done := by
  simp only [pending, List.countP_eq_zero, Feeds]
  refine ⟨?_, fun h p hp => by simpa using h p.node ⟨p, hp, rfl⟩⟩
  rintro h source ⟨p, hp, rfl⟩
  simpa using h p hp

/-! ## The numbers at the start -/

theorem get?_waits (id : String) :
    g.waits.get? id = if id ∈ g.nodeIds then some (g.connections id).length else none := by
  suffices h : ∀ (nodes : List Node) (t : Table String Nat),
      (nodes.foldl (fun t n => t.insert n.id ((t.get? n.id).getD 0 + n.inputs.size)) t).get? id =
        if id ∈ nodes.map (·.id) then
          some ((t.get? id).getD 0 +
            ((nodes.filter fun n => n.id = id).flatMap fun n => n.inputs.values).length)
        else t.get? id by
    simpa [waits, nodeIds, connections] using h g.nodes Table.empty
  intro nodes
  induction nodes with
  | nil => intro t; rfl
  | cons n nodes ih =>
    intro t
    rw [List.foldl_cons, ih, Table.get?_insert]
    by_cases hn : n.id = id
    · subst hn
      by_cases hmem : n.id ∈ nodes.map (·.id)
      · simp [hmem, Table.size, Table.values, Nat.add_assoc]
      · have hnone : nodes.filter (fun m => m.id = n.id) = [] := by
          refine List.filter_eq_nil_iff.2 fun m hm => ?_
          simpa using fun h => hmem (List.mem_map.2 ⟨m, hm, h⟩)
        simp [hmem, hnone, Table.size, Table.values]
    · simp [hn, Ne.symm hn]

theorem pending_nil (id : String) : g.pending [] id = (g.connections id).length := by
  simp [pending]

/-! ## Settling the readers of an id -/

theorem count_readers (source id : String) :
    (g.readers source).count id = (g.connections id).countP fun p => p.node = source := by
  simp only [readers, connections]
  induction g.nodes with
  | nil => rfl
  | cons n nodes ih =>
    rw [List.flatMap_cons, List.count_append, ih]
    by_cases hn : n.id = id
    · simp [hn, List.countP_eq_length_filter]
    · simp [hn, Ne.symm hn, List.count_eq_zero]

/-- The connections to an id are not pending any more once it is done. -/
theorem pending_append {source : String} (h : source ∉ done) (id : String) :
    g.pending done id = g.pending (done ++ [source]) id + (g.readers source).count id := by
  rw [count_readers]
  simp only [pending]
  induction g.connections id with
  | nil => rfl
  | cons p rest ih =>
    simp only [List.countP_cons, ih]
    by_cases hsource : p.node = source
    · subst hsource
      simp [h]
      omega
    · by_cases hdone : p.node ∈ done <;> simp [hdone, hsource]
      omega

/-- Settling a list of readers takes off, for each id, as many signals as it stands in the
    list, and the ids that then wait for none are ready. An id that stands in the list waits
    for a signal each time it comes up. -/
theorem settle_spec {list : List String} (h : ∀ id, list.count id ≤ (waits.get? id).getD 0) :
    (∀ id, (settle list waits).1.get? id = (waits.get? id).map (· - list.count id)) ∧
      (settle list waits).2.Nodup ∧
      ∀ id, id ∈ (settle list waits).2 ↔ id ∈ list ∧ waits.get? id = some (list.count id) := by
  induction list generalizing waits with
  | nil => simp [settle]
  | cons first rest ih =>
    obtain ⟨n, hn⟩ : ∃ n, waits.get? first = some (n + 1) := by
      have hfirst := h first
      cases hget : waits.get? first with
      | none => simp [hget] at hfirst
      | some k =>
        rw [hget, List.count_cons_self, Option.getD_some] at hfirst
        exact ⟨k - 1, by rw [Nat.sub_add_cancel (by omega)]⟩
    have hcount : rest.count first ≤ n := by
      have hfirst := h first
      rw [hn, List.count_cons_self, Option.getD_some] at hfirst
      omega
    have hrest : ∀ id, rest.count id ≤ ((waits.insert first n).get? id).getD 0 := by
      intro id
      rw [Table.get?_insert]
      split
      · next heq => exact heq ▸ hcount
      · next hne => simpa [List.count_cons, hne] using h id
    obtain ⟨hwaits, hnodup, hmem⟩ := ih hrest
    simp only [settle, hn]
    refine ⟨fun id => ?_, ?_, fun id => ?_⟩
    · rw [hwaits, Table.get?_insert]
      by_cases hid : first = id
      · subst hid
        simp [hn]
      · simp [hid]
    · split
      · next hzero =>
        -- the id does not come up again, so it is not ready twice
        refine List.nodup_cons.2 ⟨fun hready => ?_, hnodup⟩
        have := List.count_pos_iff.2 ((hmem first).1 hready).1
        omega
      · exact hnodup
    · have hready : id ∈ (if n = 0 then first :: (settle rest (waits.insert first n)).2
          else (settle rest (waits.insert first n)).2) ↔
          n = 0 ∧ id = first ∨ id ∈ (settle rest (waits.insert first n)).2 := by
        split <;> simp_all
      rw [hready, hmem, Table.get?_insert]
      by_cases hid : first = id
      · subst hid
        have hpos := List.count_pos_iff (a := first) (l := rest)
        simp only [hn, List.count_cons_self, List.mem_cons, if_true, true_or, true_and, and_true,
          Option.some.injEq]
        refine ⟨fun h => h.elim (fun _ => by omega) fun h => by omega, fun h => ?_⟩
        by_cases hzero : n = 0
        · exact .inl hzero
        · exact .inr ⟨hpos.1 (by omega), by omega⟩
      · simp [hid, Ne.symm hid]

/-! ## Steps -/

/-- How far the work has come: the ids done and the ones ready are those that wait for no
    signal, and the table has the numbers of signals waited for. -/
structure Progress (g : Graph) (done ready : List String) (waits : Table String Nat) : Prop where
  nodup : (done ++ ready).Nodup
  waits : ∀ id ∈ g.nodeIds, waits.get? id = some (g.pending done id)
  mem : ∀ id, id ∈ done ++ ready ↔ id ∈ g.nodeIds ∧ g.pending done id = 0

theorem nodup_sources (hnodup : g.nodeIds.Nodup) : g.sources.Nodup := hnodup.filter _

/-- The start, where no id that waits for nothing stands for two nodes. -/
theorem progress_sources (hsources : g.sources.Nodup) : g.Progress [] g.sources g.waits where
  nodup := hsources
  waits id hid := by rw [get?_waits, if_pos hid, pending_nil]
  mem id := by
    rw [List.nil_append, sources, List.mem_filter, pending_nil]
    refine and_congr_right fun hid => ?_
    rw [get?_waits, if_pos (show id ∈ g.nodeIds from hid)]
    simp

theorem mem_nodeIds_of_mem_readers {source id : String} (h : id ∈ g.readers source) :
    id ∈ g.nodeIds := by
  simp only [readers, List.mem_flatMap, List.mem_map] at h
  obtain ⟨n, hn, -, -, rfl⟩ := h
  exact List.mem_map.2 ⟨n, hn, rfl⟩

namespace Progress

/-- The number of signals that an id waits for covers its connections to the next one. -/
theorem count_readers_le {source : String} (h : g.Progress done (source :: ready) waits)
    (id : String) : (g.readers source).count id ≤ (waits.get? id).getD 0 := by
  by_cases hid : id ∈ g.readers source
  · have hsource : source ∉ done := fun hmem =>
      (List.disjoint_of_nodup_append h.nodup) hmem List.mem_cons_self
    rw [h.waits id (mem_nodeIds_of_mem_readers hid), Option.getD_some, pending_append hsource]
    exact Nat.le_add_left _ _
  · rw [List.count_eq_zero.2 hid]
    exact Nat.zero_le _

/-- One step: a ready id is done, and what waited for it alone is ready. -/
theorem settle {source : String} (h : g.Progress done (source :: ready) waits) :
    g.Progress (done ++ [source]) (ready ++ (Graph.settle (g.readers source) waits).2)
      (Graph.settle (g.readers source) waits).1 := by
  have hsource : source ∉ done := fun hmem =>
    (List.disjoint_of_nodup_append h.nodup) hmem List.mem_cons_self
  obtain ⟨hwaits, hnodup, hmem⟩ := settle_spec h.count_readers_le
  have hpending := pending_append (g := g) hsource
  -- the ids that become ready wait for the one that is done, and for it alone
  have hnew : ∀ id, id ∈ (Graph.settle (g.readers source) waits).2 ↔
      id ∈ g.nodeIds ∧ g.pending done id ≠ 0 ∧ g.pending (done ++ [source]) id = 0 := by
    intro id
    rw [hmem]
    have hcount := List.count_pos_iff (a := id) (l := g.readers source)
    have hid := hpending id
    constructor
    · rintro ⟨hreader, hget⟩
      have hnode := mem_nodeIds_of_mem_readers hreader
      rw [h.waits id hnode, Option.some.injEq] at hget
      have := hcount.2 hreader
      exact ⟨hnode, by omega, by omega⟩
    · rintro ⟨hnode, hne, hzero⟩
      rw [h.waits id hnode]
      exact ⟨hcount.1 (by omega), congrArg some (by omega)⟩
  refine ⟨?_, fun id hid => ?_, fun id => ?_⟩
  · rw [← List.append_assoc, List.append_assoc done, List.singleton_append]
    refine List.nodup_append'.2 ⟨h.nodup, hnodup, fun id hid hready => ?_⟩
    exact ((hnew id).1 hready).2.1 ((h.mem id).1 hid).2
  · rw [hwaits, h.waits id hid, Option.map_some, hpending]
    simp
  · rw [← List.append_assoc, List.append_assoc done, List.singleton_append, List.mem_append, h.mem,
      hnew]
    have := hpending id
    by_cases hzero : g.pending done id = 0
    · simp [hzero, show g.pending (done ++ [source]) id = 0 by omega]
    · simp [hzero]

/-- A whole run: the ids are done in turn, until every id that waits for none is done. -/
theorem drain {fuel : Nat} (h : g.Progress done ready waits)
    (hfuel : g.nodeIds.length ≤ done.length + fuel) :
    g.IsReady done (g.drain fuel ready waits) ∧ (done ++ g.drain fuel ready waits).Nodup ∧
      ∀ id, id ∈ done ++ g.drain fuel ready waits ↔
        id ∈ g.nodeIds ∧ g.pending (done ++ g.drain fuel ready waits) id = 0 := by
  induction fuel generalizing done ready waits with
  | zero =>
    -- all ids are done, and so none is ready
    have hlength := (List.subperm_of_subset h.nodup fun id hid => ((h.mem id).1 hid).1).length_le
    have hready : ready = [] := by
      rw [List.length_append] at hlength
      exact List.eq_nil_of_length_eq_zero (by omega)
    subst hready
    exact ⟨trivial, h.nodup, by simpa [Graph.drain] using h.mem⟩
  | succ fuel ih =>
    cases ready with
    | nil => exact ⟨trivial, h.nodup, by simpa [Graph.drain] using h.mem⟩
    | cons source ready =>
      obtain ⟨hready, hnodup, hmem⟩ := ih h.settle (by simp; omega)
      rw [List.append_assoc, List.singleton_append] at hnodup hmem
      have hsource := (h.mem source).1 (by simp)
      refine ⟨⟨?_, pending_eq_zero.1 hsource.2, hready⟩, hnodup, hmem⟩
      exact fun hdone => List.disjoint_of_nodup_append h.nodup hdone List.mem_cons_self

end Progress

/-! ## Orders -/

theorem ids_spec (g : Graph) : g.ids.Nodup ∧ ∀ id, id ∈ g.ids ↔ id ∈ g.nodeIds := by
  suffices h : ∀ (nodes : List Node) (seen : List String), seen.Nodup →
      (nodes.foldl (fun seen n => if n.id ∈ seen then seen else seen ++ [n.id]) seen).Nodup ∧
        ∀ id, id ∈ nodes.foldl (fun seen n => if n.id ∈ seen then seen else seen ++ [n.id]) seen ↔
          id ∈ seen ∨ id ∈ nodes.map (·.id) by
    simpa [ids, nodeIds] using h g.nodes [] List.nodup_nil
  intro nodes
  induction nodes with
  | nil => simp
  | cons n nodes ih =>
    intro seen hseen
    rw [List.foldl_cons]
    split
    · next hmem =>
      refine ⟨(ih seen hseen).1, fun id => ?_⟩
      rw [(ih seen hseen).2, List.map_cons, List.mem_cons]
      have hseen : id = n.id → id ∈ seen := fun heq => heq ▸ hmem
      tauto
    · next hmem =>
      have hnew : (seen ++ [n.id]).Nodup :=
        List.nodup_append'.2 ⟨hseen, List.nodup_singleton _, by simpa using hmem⟩
      refine ⟨(ih _ hnew).1, fun id => ?_⟩
      rw [(ih _ hnew).2, List.map_cons, List.mem_cons, List.mem_append, List.mem_singleton,
        or_assoc]

theorem dangling?_eq_none_iff :
    g.dangling? = none ↔ ∀ source id, g.Feeds source id → source ∈ g.nodeIds := by
  simp only [dangling?, List.findSome?_eq_none_iff, Option.map_eq_none_iff, List.find?_eq_none,
    g.ids_spec.2, decide_eq_true_eq, not_not]
  constructor
  · intro h source id hfeeds
    obtain ⟨n, hn, -, p, hp, rfl⟩ := feeds_iff.1 hfeeds
    exact h n hn p hp
  · intro h n hn p hp
    exact h p.node n.id (feeds_iff.2 ⟨n, hn, rfl, p, hp, rfl⟩)

/-- The ids done from the start on: those that wait for none that is not done. -/
theorem drain_sources (hsources : g.sources.Nodup) :
    g.IsReady [] (g.drain g.nodes.length g.sources g.waits) ∧
      (g.drain g.nodes.length g.sources g.waits).Nodup ∧
      ∀ id, id ∈ g.drain g.nodes.length g.sources g.waits ↔
        id ∈ g.nodeIds ∧ g.pending (g.drain g.nodes.length g.sources g.waits) id = 0 := by
  have hfuel : g.nodeIds.length ≤ ([] : List String).length + g.nodes.length := by simp [nodeIds]
  simpa only [List.nil_append] using (progress_sources hsources).drain hfuel

/-- A graph whose ids are distinct, whose connections lead to its own nodes and where no
    node reads from itself along any way has an evaluation order of all its ids. -/
theorem exists_order (hnodup : g.nodeIds.Nodup)
    (hknown : ∀ source id, g.Feeds source id → source ∈ g.nodeIds) (hwf : WellFounded g.Feeds) :
    ∃ order, g.order = .ok order ∧ g.IsReady [] order ∧ order.Nodup ∧
      ∀ id, id ∈ order ↔ id ∈ g.nodeIds := by
  obtain ⟨hready, hdistinct, hmem⟩ := drain_sources (nodup_sources hnodup)
  -- an id whose sources are all done is done, and so every id is
  have hall : ∀ id, id ∈ g.nodeIds → id ∈ g.drain g.nodes.length g.sources g.waits := by
    intro id
    induction id using hwf.induction with
    | _ id ih =>
      intro hid
      refine (hmem id).2 ⟨hid, pending_eq_zero.2 fun source hsource => ?_⟩
      exact ih source hsource (hknown source id hsource)
  have hiff : ∀ id, id ∈ g.drain g.nodes.length g.sources g.waits ↔ id ∈ g.nodeIds :=
    fun id => ⟨fun h => ((hmem id).1 h).1, hall id⟩
  refine ⟨_, ?_, hready, hdistinct, hiff⟩
  have hperm := (List.perm_ext_iff_of_nodup hdistinct g.ids_spec.1).2 fun id =>
    (hiff id).trans (g.ids_spec.2 id).symm
  rw [order, dangling?_eq_none_iff.2 hknown]
  simp only [hperm.length_eq, if_true]

end RigExpr.Graph
