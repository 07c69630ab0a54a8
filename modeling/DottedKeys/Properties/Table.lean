import DottedKeys.Text

/-!
# Tables of properties

A table keeps its keys in the order in which they were first stored. Storing under a key that is
there changes the value and not the place. The laws describe a table through its look-up. A table is
what `parse_properties` fills and what `load_keys` takes its keys from.
-/

namespace DottedKeys.Properties

/-- Keys with their values, each key once, oldest first. -/
@[ext] structure Table where
  entries : List (Text × Text)
  nodup_keys : (entries.map Prod.fst).Nodup

namespace Table

/-- The table without entries. -/
def empty : Table := ⟨[], .nil⟩

/-- The keys, oldest first. -/
def keys (t : Table) : List Text :=
  t.entries.map Prod.fst

/-- The value stored under a key. -/
def get? (t : Table) (key : Text) : Option Text :=
  t.entries.lookup key

/-- Replace the value of a key in place, or add the key at the end. -/
def putEntry (key value : Text) : List (Text × Text) → List (Text × Text)
  | [] => [(key, value)]
  | entry :: rest =>
    if entry.1 = key then (key, value) :: rest else entry :: putEntry key value rest

theorem map_fst_putEntry (key value : Text) (entries : List (Text × Text)) :
    (putEntry key value entries).map Prod.fst =
      if key ∈ entries.map Prod.fst then entries.map Prod.fst
      else entries.map Prod.fst ++ [key] := by
  induction entries with
  | nil => rfl
  | cons entry rest ih =>
    rw [putEntry]
    by_cases same : entry.1 = key
    · simp [same]
    · rw [if_neg same, List.map_cons, ih, List.map_cons]
      by_cases inside : key ∈ rest.map Prod.fst
      · rw [if_pos inside, if_pos (List.mem_cons_of_mem _ inside)]
      · have outside : key ∉ entry.1 :: rest.map Prod.fst := by
          simp only [List.mem_cons, not_or]
          exact ⟨Ne.symm same, inside⟩
        rw [if_neg inside, if_neg outside, List.cons_append]

/-- Store a value under a key. -/
def put (t : Table) (key value : Text) : Table where
  entries := putEntry key value t.entries
  nodup_keys := by
    rw [map_fst_putEntry]
    split
    next => exact t.nodup_keys
    next outside =>
      rw [List.nodup_append]
      refine ⟨t.nodup_keys, by simp, ?_⟩
      intro a inside b last
      rw [List.mem_singleton.1 last]
      rintro rfl
      exact outside inside

/-- Store pairs one after the other. -/
def putAll (t : Table) (pairs : List (Text × Text)) : Table :=
  pairs.foldl (fun t pair => t.put pair.1 pair.2) t

/-- A new key goes to the end, and a known one keeps its place. -/
theorem keys_put (t : Table) (key value : Text) :
    (t.put key value).keys = if key ∈ t.keys then t.keys else t.keys ++ [key] :=
  map_fst_putEntry key value t.entries

/-- Storing under one key changes no other. -/
theorem get?_put (t : Table) (key value other : Text) :
    (t.put key value).get? other = if other = key then some value else t.get? other := by
  simp only [get?, put]
  induction t.entries with
  | nil =>
    rw [putEntry, List.lookup_cons]
    by_cases same : other = key
    · simp [same]
    · simp [same, beq_eq_false_iff_ne.2 same]
  | cons entry rest ih =>
    rw [putEntry]
    by_cases here : entry.1 = key
    · rw [if_pos here, List.lookup_cons, List.lookup_cons, here]
      by_cases same : other = key
      · simp [same]
      · simp [same, beq_eq_false_iff_ne.2 same]
    · rw [if_neg here, List.lookup_cons, List.lookup_cons, ih]
      by_cases same : other = key
      · have apart : ¬ key = entry.1 := Ne.symm here
        simp [same, beq_eq_false_iff_ne.2 apart]
      · simp [same]

end Table

end DottedKeys.Properties
