/-!
# Tables

A table maps keys to values and keeps its keys in the order in which they were
first inserted: giving a key a new value leaves it where it stands. Bindings,
operation caches, wiring and outlet values are all tables, so that every order a
reader can observe is the order of insertion.

* `get?_insert`: looking up after an insertion.
* `get?_erase`: looking up after a removal.
* `get?_filterValues`: looking up after a selection.
* `nodup_keys_insert`: an insertion keeps the keys distinct.
-/

namespace RigExpr

/-- A finite map from `α` to `β` in insertion order. -/
structure Table (α β : Type) where
  /-- The pairs of the table, first inserted first. -/
  entries : List (α × β) := []

namespace Table

variable {α β : Type}

/-- The table without entries. -/
def empty : Table α β := {}

instance : Inhabited (Table α β) := ⟨empty⟩

/-- The keys, first inserted first. -/
def keys (t : Table α β) : List α := t.entries.map (·.1)

/-- The values, in the order of their keys. -/
def values (t : Table α β) : List β := t.entries.map (·.2)

/-- The number of keys. -/
def size (t : Table α β) : Nat := t.entries.length

/-- Whether there is no entry. -/
def isEmpty (t : Table α β) : Bool := t.entries.isEmpty

/-- The entries whose value passes the test. -/
def filterValues (p : β → Bool) (t : Table α β) : Table α β :=
  ⟨t.entries.filter fun e => p e.2⟩

variable [DecidableEq α]

/-- The value of the first pair with the key `k`. -/
def find (k : α) : List (α × β) → Option β
  | [] => none
  | e :: rest => if e.1 = k then some e.2 else find k rest

/-- The value of a key. -/
def get? (t : Table α β) (k : α) : Option β := find k t.entries

/-- Whether the key has a value. -/
def contains (t : Table α β) (k : α) : Bool := (t.get? k).isSome

/-- The pairs with `k` mapped to `v`: in place if `k` is there, at the end
    otherwise. -/
def put (k : α) (v : β) : List (α × β) → List (α × β)
  | [] => [(k, v)]
  | e :: rest => if e.1 = k then (k, v) :: rest else e :: put k v rest

/-- The table with `k` mapped to `v`. -/
def insert (t : Table α β) (k : α) (v : β) : Table α β := ⟨put k v t.entries⟩

/-- The table without `k`. -/
def erase (t : Table α β) (k : α) : Table α β :=
  ⟨t.entries.filter fun e => e.1 ≠ k⟩

/-- The table of a list of pairs, where the last value given to a key wins. -/
def ofList (pairs : List (α × β)) : Table α β :=
  pairs.foldl (fun t e => t.insert e.1 e.2) empty

@[simp] theorem get?_empty (k : α) : (empty : Table α β).get? k = none := rfl

theorem find_put (k k' : α) (v : β) (l : List (α × β)) :
    find k' (put k v l) = if k = k' then some v else find k' l := by
  induction l with
  | nil => simp [put, find]
  | cons e rest ih =>
    by_cases he : e.1 = k
    · by_cases h : k = k' <;> simp [put, find, he, h]
    · by_cases h : k = k'
      · subst h
        simp [put, find, he, ih]
      · simp [put, find, he, ih, h]

theorem get?_insert (t : Table α β) (k k' : α) (v : β) :
    (t.insert k v).get? k' = if k = k' then some v else t.get? k' :=
  find_put k k' v t.entries

@[simp] theorem get?_insert_self (t : Table α β) (k : α) (v : β) :
    (t.insert k v).get? k = some v := by
  simp [get?_insert]

theorem get?_insert_of_ne (t : Table α β) {k k' : α} (v : β) (h : k ≠ k') :
    (t.insert k v).get? k' = t.get? k' := by
  simp [get?_insert, h]

theorem find_eq_none {k : α} {l : List (α × β)} (h : ∀ e ∈ l, e.1 ≠ k) : find k l = none := by
  induction l with
  | nil => rfl
  | cons e rest ih =>
    rw [find, if_neg (h e List.mem_cons_self), ih fun e he => h e (List.mem_cons_of_mem _ he)]

theorem find_filter (k k' : α) (l : List (α × β)) :
    find k' (l.filter fun e => e.1 ≠ k) = if k = k' then none else find k' l := by
  induction l with
  | nil => simp [find]
  | cons e rest ih =>
    by_cases he : e.1 = k
    · rw [List.filter_cons_of_neg (by simpa using he), ih]
      by_cases h : k = k' <;> simp [find, he, h]
    · rw [List.filter_cons_of_pos (by simpa using he), find, ih]
      by_cases h : k = k'
      · subst h
        simp [he]
      · simp [find, h]

theorem get?_erase (t : Table α β) (k k' : α) :
    (t.erase k).get? k' = if k = k' then none else t.get? k' :=
  find_filter k k' t.entries

theorem keys_put (k : α) (v : β) (l : List (α × β)) :
    (put k v l).map (·.1) =
      if k ∈ l.map (·.1) then l.map (·.1) else l.map (·.1) ++ [k] := by
  induction l with
  | nil => simp [put]
  | cons e rest ih =>
    by_cases he : e.1 = k
    · simp [put, he]
    · simp only [put, he, if_false, List.map_cons, ih, List.mem_cons, Ne.symm he, false_or]
      split <;> simp

/-- A known key keeps its place; a new one comes last. -/
theorem keys_insert (t : Table α β) (k : α) (v : β) :
    (t.insert k v).keys = if k ∈ t.keys then t.keys else t.keys ++ [k] :=
  keys_put k v t.entries

theorem nodup_keys_insert {t : Table α β} (h : t.keys.Nodup) (k : α) (v : β) :
    (t.insert k v).keys.Nodup := by
  rw [keys_insert]
  split
  · exact h
  · next hk =>
    refine List.nodup_append.2 ⟨h, by simp, fun a ha b hb => ?_⟩
    rintro rfl
    exact hk (List.mem_singleton.1 hb ▸ ha)

/-- The keys are those that have a value. -/
theorem isSome_get?_iff {t : Table α β} {k : α} : (t.get? k).isSome = true ↔ k ∈ t.keys := by
  obtain ⟨entries⟩ := t
  rw [get?, keys]
  induction entries with
  | nil => simp [find]
  | cons e rest ih =>
    rw [find, List.map_cons, List.mem_cons]
    split
    · next h => simp [h]
    · next h => simp [ih, Ne.symm h]

theorem size_insert_of_get?_eq_none {t : Table α β} {k : α} (h : t.get? k = none) (v : β) :
    (t.insert k v).size = t.size + 1 := by
  have hkeys := keys_insert t k v
  rw [if_neg (by rw [← isSome_get?_iff, h]; exact Bool.false_ne_true)] at hkeys
  simpa [keys, size] using congrArg List.length hkeys

theorem mem_entries_of_get? {t : Table α β} {k : α} {v : β} (h : t.get? k = some v) :
    (k, v) ∈ t.entries := by
  obtain ⟨entries⟩ := t
  rw [get?] at h
  induction entries with
  | nil => cases h
  | cons e rest ih =>
    rw [find] at h
    split at h
    · next hk =>
      cases h
      exact hk ▸ List.mem_cons_self
    · exact List.mem_cons_of_mem _ (ih h)

omit [DecidableEq α] in
theorem nodup_keys_filterValues {t : Table α β} (h : t.keys.Nodup) (p : β → Bool) :
    (t.filterValues p).keys.Nodup :=
  List.Sublist.nodup (List.filter_sublist.map _) h

theorem find_filterValues {p : β → Bool} {l : List (α × β)} (h : (l.map (·.1)).Nodup) (k : α) :
    find k (l.filter fun e => p e.2) = (find k l).filter p := by
  induction l with
  | nil => rfl
  | cons e rest ih =>
    rw [List.map_cons, List.nodup_cons] at h
    by_cases hk : e.1 = k
    · -- the key does not come up again
      have hnone : find k (rest.filter fun e => p e.2) = none := by
        refine find_eq_none fun e' he' heq => h.1 ?_
        exact List.mem_map.2 ⟨e', (List.mem_filter.1 he').1, heq.trans hk.symm⟩
      cases hp : p e.2 <;> simp [find, hk, hp, hnone, Option.filter]
    · cases hp : p e.2 <;> simp [find, hk, hp, ih h.2]

/-- Where keys are distinct, a key keeps its value just if the value passes the test. -/
theorem get?_filterValues {t : Table α β} (h : t.keys.Nodup) (p : β → Bool) (k : α) :
    (t.filterValues p).get? k = (t.get? k).filter p :=
  find_filterValues h k

end Table

end RigExpr
