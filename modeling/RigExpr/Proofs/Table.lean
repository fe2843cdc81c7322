import RigExpr.Table

/-!
# Entries, keys and values of tables

What is in a table after insertions, one or many. Lookup finds the first entry with a key, so it
sees all entries just if the keys are distinct, which insertions keep up. A new key comes last and
a known one stays in its place, so that to select entries by their keys goes well with insertions:
it makes no difference which is done first.

* `Table.get?_of_mem`: where keys are distinct, each entry is found.
* `Table.entries_ofList`: pairs with distinct keys are the entries of their table.
* `Table.filter_ofList`: the entries of some keys come from the insertions under these keys.
-/

namespace RigExpr.Table

variable {α β γ : Type} [DecidableEq α]

/-! ## Lookup -/

/-- Where keys are distinct, each entry is the value of its key. -/
theorem get?_of_mem {t : Table α β} (h : t.keys.Nodup) {e : α × β} (he : e ∈ t.entries) :
    t.get? e.1 = some e.2 := by
  obtain ⟨entries⟩ := t
  rw [get?]
  induction entries with
  | nil => cases he
  | cons first rest ih =>
    obtain ⟨hfirst, hrest⟩ := List.nodup_cons.1 h
    rcases List.mem_cons.1 he with rfl | he
    · simp [find]
    · have hne : first.1 ≠ e.1 := fun h => hfirst (List.mem_map.2 ⟨e, he, h.symm⟩)
      rw [find, if_neg hne]
      exact ih hrest he

theorem mem_values_of_get? {t : Table α β} {k : α} {v : β} (h : t.get? k = some v) :
    v ∈ t.values :=
  List.mem_map_of_mem (mem_entries_of_get? h)

theorem get?_map (f : β → γ) (entries : List (α × β)) (k : α) :
    (⟨entries.map fun e => (e.1, f e.2)⟩ : Table α γ).get? k =
      ((⟨entries⟩ : Table α β).get? k).map f := by
  simp only [get?]
  induction entries with
  | nil => rfl
  | cons e entries ih =>
    rw [List.map_cons, find, find]
    split
    · rfl
    · exact ih

theorem get?_append (t : Table α β) (others : List (α × β)) (k : α) :
    (⟨t.entries ++ others⟩ : Table α β).get? k = (t.get? k).or (find k others) := by
  obtain ⟨entries⟩ := t
  simp only [get?]
  induction entries with
  | nil => rfl
  | cons e entries ih =>
    rw [List.cons_append, find, find]
    split
    · rfl
    · exact ih

/-! ## An insertion -/

/-- To give a key the value that it has changes nothing. -/
theorem insert_of_get? {t : Table α β} {k : α} {v : β} (h : t.get? k = some v) :
    t.insert k v = t := by
  obtain ⟨entries⟩ := t
  rw [get?] at h
  rw [insert, mk.injEq]
  induction entries with
  | nil => cases h
  | cons e rest ih =>
    rw [find] at h
    rw [put]
    split at h
    · next hk =>
      cases h
      rw [if_pos hk, ← hk]
    · next hk => rw [if_neg hk, ih h]

theorem put_of_notMem {k : α} {l : List (α × β)} (h : k ∉ l.map (·.1)) (v : β) :
    put k v l = l ++ [(k, v)] := by
  induction l with
  | nil => rfl
  | cons e l ih =>
    rw [List.map_cons, List.mem_cons, not_or] at h
    rw [put, if_neg (Ne.symm h.1), ih h.2, List.cons_append]

theorem mem_keys_insert {t : Table α β} {k k' : α} {v : β} :
    k' ∈ (t.insert k v).keys ↔ k' = k ∨ k' ∈ t.keys := by
  rw [keys_insert]
  split
  · next hk =>
    refine ⟨.inr, ?_⟩
    rintro (rfl | hk')
    · exact hk
    · exact hk'
  · rw [List.mem_append, List.mem_singleton, or_comm]

theorem mem_values_insert {t : Table α β} {k : α} {v w : β} (h : w ∈ (t.insert k v).values) :
    w = v ∨ w ∈ t.values := by
  obtain ⟨entries⟩ := t
  simp only [values, insert] at h ⊢
  induction entries with
  | nil => simpa [put] using h
  | cons e entries ih =>
    rw [put] at h
    split at h
    · rcases List.mem_cons.1 h with rfl | h
      · exact .inl rfl
      · exact .inr (List.mem_cons_of_mem _ h)
    · rcases List.mem_cons.1 h with rfl | h
      · exact .inr List.mem_cons_self
      · exact (ih h).imp_right (List.mem_cons_of_mem _)

/-! ## The table of a list -/

/-- What holds of the table without entries, and still holds after the insertion of any of the
    pairs, holds of their table. -/
theorem ofList_induction {P : Table α β → Prop} {pairs : List (α × β)} (hempty : P empty)
    (hinsert : ∀ t, P t → ∀ e ∈ pairs, P (t.insert e.1 e.2)) : P (ofList pairs) :=
  List.foldlRecOn pairs _ hempty hinsert

theorem nodup_keys_ofList (pairs : List (α × β)) : (ofList pairs).keys.Nodup :=
  ofList_induction (P := fun t => t.keys.Nodup) List.nodup_nil fun _ ht e _ =>
    nodup_keys_insert ht e.1 e.2

theorem mem_values_ofList {pairs : List (α × β)} {v : β} (h : v ∈ (ofList pairs).values) :
    ∃ e ∈ pairs, e.2 = v := by
  refine ofList_induction (P := fun t => ∀ w ∈ t.values, ∃ e ∈ pairs, e.2 = w)
    (fun w hw => absurd hw List.not_mem_nil) (fun t ht e he w hw => ?_) v h
  rcases mem_values_insert hw with rfl | hw
  · exact ⟨e, he, rfl⟩
  · exact ht w hw

theorem mem_keys_ofList {pairs : List (α × β)} {k : α} :
    k ∈ (ofList pairs).keys ↔ k ∈ pairs.map (·.1) := by
  suffices ∀ t : Table α β, k ∈ (pairs.foldl (fun t e => t.insert e.1 e.2) t).keys ↔
      k ∈ t.keys ∨ k ∈ pairs.map (·.1) from
    (this empty).trans (or_iff_right List.not_mem_nil)
  induction pairs with
  | nil => exact fun t => (or_iff_left List.not_mem_nil).symm
  | cons e pairs ih =>
    intro t
    rw [List.foldl_cons, ih, mem_keys_insert, List.map_cons, List.mem_cons, or_assoc,
      or_left_comm]

/-- Pairs with distinct keys are the entries of their table. -/
theorem entries_ofList {pairs : List (α × β)} (h : (pairs.map (·.1)).Nodup) :
    (ofList pairs).entries = pairs := by
  suffices ∀ t : Table α β, (t.keys ++ pairs.map (·.1)).Nodup →
      (pairs.foldl (fun t e => t.insert e.1 e.2) t).entries = t.entries ++ pairs from this empty h
  intro t ht
  clear h
  induction pairs generalizing t with
  | nil => exact (List.append_nil _).symm
  | cons e pairs ih =>
    have hnew : e.1 ∉ t.keys := fun hmem =>
      (List.nodup_append.1 ht).2.2 _ hmem _ List.mem_cons_self rfl
    have hentries : (t.insert e.1 e.2).entries = t.entries ++ [e] := put_of_notMem hnew e.2
    rw [List.foldl_cons, ih _ (by simpa [keys, hentries] using ht), hentries]
    simp

/-! ## Selections of entries -/

theorem filter_put (p : α → Bool) (k : α) (v : β) (l : List (α × β)) :
    (put k v l).filter (fun e => p e.1) =
      if p k then put k v (l.filter fun e => p e.1) else l.filter fun e => p e.1 := by
  induction l with
  | nil => by_cases hk : p k = true <;> simp [put, hk]
  | cons e l ih =>
    by_cases he : e.1 = k
    · subst he
      by_cases hk : p e.1 = true <;> simp [put, hk]
    · by_cases hk : p k = true <;> by_cases hp : p e.1 = true <;> simp_all [put]

theorem filter_foldl_insert (p : α → Bool) (l : List (α × β)) {t t' : Table α β}
    (h : t.entries.filter (fun e => p e.1) = t'.entries) :
    (l.foldl (fun t e => t.insert e.1 e.2) t).entries.filter (fun e => p e.1) =
      ((l.filter fun e => p e.1).foldl (fun t e => t.insert e.1 e.2) t').entries := by
  induction l generalizing t t' with
  | nil => exact h
  | cons e l ih =>
    rw [List.foldl_cons, List.filter_cons]
    split
    · next he =>
      rw [List.foldl_cons]
      exact ih (by rw [insert, filter_put, if_pos he, h, insert])
    · next he => exact ih (by rw [insert, filter_put, if_neg he, h])

/-- The entries of some keys are those that insertions under these keys make. -/
theorem filter_ofList (p : α → Bool) (pairs : List (α × β)) :
    (ofList pairs).entries.filter (fun e => p e.1) =
      (ofList (pairs.filter fun e => p e.1)).entries :=
  filter_foldl_insert p pairs rfl

/-- A key whose value is to fail the test from now on is no longer among those that pass it, and
    the others stay in their places. -/
theorem map_filter_put {p : α × β → Bool} {k : α} {v : β} (hp : p (k, v) = false)
    {l : List (α × β)} (hl : (l.map (·.1)).Nodup) :
    ((put k v l).filter p).map (·.1) = ((l.filter p).map (·.1)).filter fun a => a ≠ k := by
  induction l with
  | nil => simp [put, hp]
  | cons e rest ih =>
    rw [List.map_cons, List.nodup_cons] at hl
    by_cases he : e.1 = k
    · subst he
      -- the key does not come up again
      have hrest : ((rest.filter p).map (·.1)).filter (fun a => a ≠ e.1) =
          (rest.filter p).map (·.1) := by
        refine List.filter_eq_self.2 fun a ha => ?_
        obtain ⟨e', he', rfl⟩ := List.mem_map.1 ha
        have hne : e'.1 ≠ e.1 := fun h =>
          hl.1 (h ▸ List.mem_map_of_mem (List.mem_filter.1 he').1)
        simpa using hne
      rw [put, if_pos rfl, List.filter_cons_of_neg (by simp [hp])]
      by_cases hpe : p e = true
      · rw [List.filter_cons_of_pos hpe, List.map_cons, List.filter_cons_of_neg (by simp), hrest]
      · rw [List.filter_cons_of_neg hpe, hrest]
    · by_cases hpe : p e = true <;> simp_all [put]

end RigExpr.Table
