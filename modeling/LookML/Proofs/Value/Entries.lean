import LookML.Object

/-!
# Entries — what the operations on an object do to its entries

An object is a row of entries, in which a key is looked up from the front.  Each operation has its
effect on the entries, on the keys and on what is found under a key.
-/

namespace LookML.Object

variable {α : Type} {object : Object α} {key : String} {value : α} {entries : List (String × α)}

/-! ## Looking up -/

theorem contains_iff_mem : object.contains key = true ↔ key ∈ object.keys := by
  simp [contains, keys]

theorem contains_eq_false (h : key ∉ object.keys) : object.contains key = false :=
  Bool.eq_false_iff.mpr (mt contains_iff_mem.mp h)

theorem get?_eq_none_iff : object.get? key = none ↔ key ∉ object.keys := by
  rw [get?, List.lookup_eq_none_iff, keys, List.mem_map]
  constructor
  · rintro h ⟨entry, he, rfl⟩
    simpa using h entry he
  · intro h entry he
    rw [bne_iff_ne]
    rintro rfl
    exact h ⟨entry, he, rfl⟩

theorem get?_of_notMem (h : key ∉ object.keys) : object.get? key = none :=
  get?_eq_none_iff.mpr h

theorem notMem_of_get? (h : object.get? key = none) : key ∉ object.keys :=
  get?_eq_none_iff.mp h

theorem exists_get?_of_mem (h : key ∈ object.keys) : ∃ value, object.get? key = some value :=
  Option.ne_none_iff_exists'.mp fun hn => notMem_of_get? hn h

/-! ## Setting -/

/-- Setting a value changes what is found under its key, if something is. -/
theorem get?_set (object : Object α) (key : String) (value : α) (k : String) :
    (object.set key value).get? k =
      if k = key then (object.get? key).map fun _ => value else object.get? k := by
  obtain ⟨entries⟩ := object
  simp only [get?, set]
  induction entries with
  | nil => simp [setFirst]
  | cons entry rest ih =>
    obtain ⟨first, old⟩ := entry
    rw [setFirst]
    by_cases hfirst : first = key
    · subst hfirst
      rw [if_pos rfl, List.lookup_cons, List.lookup_cons, List.lookup_cons]
      by_cases hk : k = first
      · simp [hk]
      · rw [beq_eq_false_iff_ne.mpr hk, if_neg hk]
    · rw [if_neg hfirst, List.lookup_cons, List.lookup_cons, List.lookup_cons, ih]
      by_cases hk : k = first
      · simp [hk, hfirst]
      · rw [beq_eq_false_iff_ne.mpr hk, beq_eq_false_iff_ne.mpr (Ne.symm hfirst)]

theorem set_last {value' : α} (h : key ∉ entries.map Prod.fst) :
    set ⟨entries ++ [(key, value)]⟩ key value' = ⟨entries ++ [(key, value')]⟩ := by
  induction entries with
  | nil => simp [set, setFirst]
  | cons entry entries ih =>
    rw [List.map_cons, List.mem_cons, not_or] at h
    obtain ⟨hne, h⟩ := h
    have hrest := ih h
    simp only [set, mk.injEq] at hrest ⊢
    rw [List.cons_append, setFirst, if_neg (Ne.symm hne), hrest]
    rfl

/-- A key that is found is found at its first entry, and setting it changes that entry. -/
theorem entries_of_get? (h : object.get? key = some value) :
    ∃ a b, object.entries = a ++ (key, value) :: b ∧ key ∉ a.map Prod.fst ∧
      ∀ value', (object.set key value').entries = a ++ (key, value') :: b := by
  obtain ⟨entries⟩ := object
  unfold get? at h
  unfold set
  induction entries with
  | nil => simp at h
  | cons entry rest ih =>
    obtain ⟨k, v⟩ := entry
    rw [List.lookup_cons] at h
    by_cases hk : k = key
    · subst hk
      obtain rfl : v = value := by simpa using h
      exact ⟨[], rest, rfl, by simp, fun value' => by simp [setFirst]⟩
    · have hne : (key == k) = false := by simpa using Ne.symm hk
      rw [hne] at h
      obtain ⟨a, b, hsplit, hnot, hset⟩ := ih h
      refine ⟨(k, v) :: a, b, ?_, ?_, fun value' => ?_⟩
      · rw [show rest = a ++ (key, value) :: b from hsplit]
        rfl
      · simp [Ne.symm hk, hnot]
      · simp only [setFirst, if_neg hk, List.cons_append]
        rw [show setFirst key value' rest = a ++ (key, value') :: b from hset value']

/-- Where keys are distinct, the entry that is found is the only one for its key. -/
theorem split_of_get? (hd : object.keys.Nodup) (h : object.get? key = some value) :
    ∃ a b, object.entries = a ++ (key, value) :: b ∧ key ∉ a.map Prod.fst ∧
      key ∉ b.map Prod.fst ∧
      ∀ value', (object.set key value').entries = a ++ (key, value') :: b := by
  obtain ⟨a, b, hsplit, ha, hset⟩ := entries_of_get? h
  rw [keys, hsplit, List.map_append, List.map_cons, List.nodup_append, List.nodup_cons] at hd
  exact ⟨a, b, hsplit, ha, hd.2.1.1, hset⟩

/-! ## Inserting -/

theorem insert_of_mem (h : key ∈ object.keys) : object.insert key value = object.set key value :=
  if_pos (contains_iff_mem.mpr h)

theorem insert_of_notMem (h : key ∉ object.keys) :
    object.insert key value = ⟨object.entries ++ [(key, value)]⟩ := by
  rw [insert, contains_eq_false h, if_neg (by simp)]

theorem get?_last (h : key ∉ entries.map Prod.fst) :
    get? ⟨entries ++ [(key, value)]⟩ key = some value := by
  have hnone : get? ⟨entries⟩ key = none := get?_of_notMem h
  rw [get?] at hnone ⊢
  simp [List.lookup_append, hnone]

theorem get?_insert (object : Object α) (key : String) (value : α) (k : String) :
    (object.insert key value).get? k = if k = key then some value else object.get? k := by
  by_cases h : key ∈ object.keys
  · obtain ⟨old, hold⟩ := exists_get?_of_mem h
    rw [insert_of_mem h, get?_set, hold, Option.map_some]
  · rw [insert_of_notMem h]
    by_cases hk : k = key
    · subst hk
      rw [get?_last h, if_pos rfl]
    · simp [get?, List.lookup_append, List.lookup_cons, beq_eq_false_iff_ne.mpr hk, hk]

theorem get?_insert_self (object : Object α) (key : String) (value : α) :
    (object.insert key value).get? key = some value := by
  rw [get?_insert, if_pos rfl]

theorem get?_insert_of_ne (object : Object α) {key k : String} (h : k ≠ key) (value : α) :
    (object.insert key value).get? k = object.get? k := by
  rw [get?_insert, if_neg h]

theorem nodup_insert (h : object.keys.Nodup) (key : String) (value : α) :
    (object.insert key value).keys.Nodup := by
  rw [keys_insert]
  by_cases hk : key ∈ object.keys
  · rwa [if_pos (contains_iff_mem.mpr hk)]
  · rw [if_neg (mt contains_iff_mem.mp hk), List.nodup_append]
    refine ⟨h, by simp, ?_⟩
    rintro a ha b hb rfl
    exact hk (List.mem_singleton.mp hb ▸ ha)

theorem mem_insert {entry : String × α} (h : entry ∈ (object.insert key value).entries) :
    entry ∈ object.entries ∨ entry = (key, value) := by
  by_cases hk : key ∈ object.keys
  · obtain ⟨old, hold⟩ := exists_get?_of_mem hk
    obtain ⟨a, b, hsplit, -, hset⟩ := entries_of_get? hold
    rw [insert_of_mem hk, hset, List.mem_append, List.mem_cons] at h
    rw [hsplit, List.mem_append, List.mem_cons]
    rcases h with h | h | h
    · exact .inl (.inl h)
    · exact .inr h
    · exact .inl (.inr (.inr h))
  · rw [insert_of_notMem hk] at h
    simpa using h

/-! ## Removing -/

/-- Removing a key returns the value that is found under it. -/
theorem remove_fst (object : Object α) (key : String) :
    (object.remove key).1 = object.get? key := by
  obtain ⟨entries⟩ := object
  simp only [remove, get?]
  induction entries with
  | nil => rfl
  | cons entry rest ih =>
    rw [removeFirst, List.lookup_cons]
    by_cases hk : entry.1 = key
    · rw [if_pos hk, beq_iff_eq.mpr hk.symm]
    · rw [if_neg hk, beq_eq_false_iff_ne.mpr (Ne.symm hk)]
      exact ih

/-- Where keys are distinct, removing one keeps all other entries as they stand. -/
theorem entries_remove (h : object.keys.Nodup) (key : String) :
    (object.remove key).2.entries = object.entries.filter (·.1 != key) := by
  obtain ⟨entries⟩ := object
  simp only [remove]
  induction entries with
  | nil => rfl
  | cons entry rest ih =>
    obtain ⟨hnot, hrest⟩ := List.nodup_cons.mp h
    rw [removeFirst]
    by_cases hk : entry.1 = key
    · have hother : ∀ e ∈ rest, (e.1 != key) = true := by
        intro e he
        rw [bne_iff_ne, ← hk]
        exact fun heq => hnot (heq ▸ List.mem_map_of_mem he)
      rw [if_pos hk, List.filter_cons_of_neg (by simp [hk]), List.filter_eq_self.mpr hother]
    · rw [if_neg hk, List.filter_cons_of_pos (by simpa using hk)]
      exact congrArg (entry :: ·) (ih hrest)

theorem keys_remove (h : object.keys.Nodup) (key : String) :
    (object.remove key).2.keys = object.keys.filter (· != key) := by
  rw [keys, entries_remove h, keys, List.filter_map]
  rfl

theorem get?_remove (h : object.keys.Nodup) (key k : String) :
    (object.remove key).2.get? k = if k = key then none else object.get? k := by
  rw [get?, entries_remove h, get?]
  induction object.entries with
  | nil => simp
  | cons entry rest ih =>
    by_cases he : entry.1 = key
    · rw [List.filter_cons_of_neg (by simp [he]), ih, List.lookup_cons]
      by_cases hk : k = key
      · rw [if_pos hk, if_pos hk]
      · rw [if_neg hk, if_neg hk, beq_eq_false_iff_ne.mpr (he ▸ hk)]
    · rw [List.filter_cons_of_pos (by simpa using he), List.lookup_cons, List.lookup_cons, ih]
      by_cases hk : k = entry.1
      · simp [hk, he]
      · rw [beq_eq_false_iff_ne.mpr hk]

/-! ## Collecting -/

theorem foldl_insert {seen entries : List (String × α)}
    (h : ((seen ++ entries).map Prod.fst).Nodup) :
    entries.foldl (fun object entry => object.insert entry.1 entry.2) (⟨seen⟩ : Object α) =
      ⟨seen ++ entries⟩ := by
  induction entries generalizing seen with
  | nil => rw [List.append_nil, List.foldl_nil]
  | cons entry entries ih =>
    obtain ⟨key, value⟩ := entry
    -- A key that is not seen yet goes to the end.
    have hnew : key ∉ (⟨seen⟩ : Object α).keys := by
      rw [List.map_append, List.nodup_append] at h
      intro hkey
      exact h.2.2 key hkey key (by simp) rfl
    have hrest : ((seen ++ [(key, value)] ++ entries).map Prod.fst).Nodup := by simpa using h
    rw [List.foldl_cons, insert_of_notMem hnew, ih hrest, List.append_assoc]
    rfl

/-- Entries with distinct keys are inserted as they stand. -/
theorem ofList_eq (h : (entries.map Prod.fst).Nodup) : ofList entries = ⟨entries⟩ :=
  foldl_insert h

end LookML.Object
