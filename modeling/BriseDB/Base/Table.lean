import Mathlib.Data.List.AList

/-!
# Finite tables with an arbitrary iteration order

A table maps finitely many keys to values.  Iterating over it visits every
entry once, in an order the language does not fix, so a loop over a table takes
the order as an argument and results about it hold for every order.
-/

namespace BriseDB

/-- A finite map from `κ` to `ν`. -/
abbrev Table (κ ν : Type) := AList fun _ : κ => ν

/-- The order in which one loop visits the keys of a table. -/
structure RangeOrder (κ : Type) where
  arrange : List κ → List κ
  perm : ∀ keys, (arrange keys).Perm keys

namespace RangeOrder

/-- Visit the keys as they are stored. -/
def asStored (κ : Type) : RangeOrder κ where
  arrange := id
  perm _ := List.Perm.refl _

end RangeOrder

namespace Table

variable {κ ν : Type} [DecidableEq κ]

/-- The entries of a table in the order one loop over it visits them. -/
def range (order : RangeOrder κ) (table : Table κ ν) : List (κ × ν) :=
  (order.arrange table.keys).filterMap fun key =>
    (table.lookup key).map fun value => (key, value)

@[simp]
theorem mem_range (order : RangeOrder κ) (table : Table κ ν) (key : κ) (value : ν) :
    (key, value) ∈ range order table ↔ table.lookup key = some value := by
  simp only [range, List.mem_filterMap, Option.map_eq_some_iff, Prod.mk.injEq]
  constructor
  · rintro ⟨found, _, stored, lookupEq, rfl, rfl⟩
    exact lookupEq
  · intro lookupEq
    have isKey : key ∈ table.keys := by
      have some_ : (table.lookup key).isSome := by simp [lookupEq]
      exact AList.lookup_isSome.mp some_
    exact ⟨key, (order.perm _).mem_iff.mpr isKey, value, lookupEq, rfl, rfl⟩

/-- The keys visited are the table's keys in the loop's order. -/
theorem map_fst_range (order : RangeOrder κ) (table : Table κ ν) :
    (range order table).map Prod.fst = order.arrange table.keys := by
  have known : ∀ keys : List κ, (∀ key ∈ keys, key ∈ table.keys) →
      (keys.filterMap fun key =>
        (table.lookup key).map fun value => (key, value)).map Prod.fst = keys := by
    intro keys
    induction keys with
    | nil => intro _; rfl
    | cons key keys ih =>
        intro isKey
        have found : (table.lookup key).isSome :=
          AList.lookup_isSome.mpr (isKey key List.mem_cons_self)
        obtain ⟨value, valueEq⟩ := Option.isSome_iff_exists.mp found
        rw [List.filterMap_cons, valueEq]
        simp only [Option.map_some, List.map_cons]
        rw [ih fun other mem => isKey other (List.mem_cons_of_mem _ mem)]
  exact known _ fun key mem => (order.perm _).mem_iff.mp mem

/-- No key is visited twice. -/
theorem length_range (order : RangeOrder κ) (table : Table κ ν) :
    (range order table).length = table.keys.length := by
  rw [← (order.perm table.keys).length_eq, ← map_fst_range, List.length_map]

theorem nodup_range (order : RangeOrder κ) (table : Table κ ν) :
    ((range order table).map Prod.fst).Nodup := by
  rw [map_fst_range]
  exact (order.perm _).nodup_iff.mpr table.nodupKeys

/-- A table of two entries, as it is stored. -/
theorem range_pair {first second : κ} (different : second ≠ first) (early late : ν) :
    range (.asStored κ) ((AList.insert first early ∅).insert second late : Table κ ν) =
      [(second, late), (first, early)] := by
  have keysEq : ((AList.insert first early ∅).insert second late : Table κ ν).keys =
      [second, first] := by
    rw [AList.keys_insert, AList.keys_insert]
    simp [List.erase_of_not_mem, different]
  have lookups : ((AList.insert first early ∅).insert second late : Table κ ν).lookup first =
      some early := by
    rw [AList.lookup_insert_ne (Ne.symm different), AList.lookup_insert]
  unfold range RangeOrder.asStored
  rw [keysEq]
  change [second, first].filterMap _ = _
  rw [List.filterMap_cons, AList.lookup_insert, List.filterMap_cons, lookups]
  rfl

/-- Results computed from the entries of a table that keep their keys are
computed from different keys. -/
theorem nodup_filterMap_range {β : Type} (order : RangeOrder κ) (table : Table κ ν)
    {pick : κ × ν → Option β} {keyOf : β → κ}
    (keeps : ∀ entry result, pick entry = some result → keyOf result = entry.1) :
    (((range order table).filterMap pick).map keyOf).Nodup := by
  refine List.Nodup.sublist ?_ (nodup_range order table)
  induction range order table with
  | nil => simp
  | cons entry rest ih =>
      rw [List.filterMap_cons]
      cases picked : pick entry with
      | none => exact ih.cons _
      | some result =>
          rw [List.map_cons, List.map_cons, keeps entry result picked]
          exact ih.cons_cons _

/-- Apply a function to every value. -/
def mapValues {μ : Type} (change : ν → μ) (table : Table κ ν) : Table κ μ where
  entries := table.entries.map fun entry => ⟨entry.1, change entry.2⟩
  nodupKeys := by
    have keys := table.nodupKeys
    unfold List.NodupKeys List.keys at keys ⊢
    rwa [List.map_map]

@[simp]
theorem lookup_mapValues {μ : Type} (change : ν → μ) (table : Table κ ν) (key : κ) :
    (table.mapValues change).lookup key = (table.lookup key).map change := by
  obtain ⟨entries, nodup⟩ := table
  simp only [mapValues, AList.lookup]
  induction entries with
  | nil => rfl
  | cons entry rest ih =>
      obtain ⟨entryKey, value⟩ := entry
      by_cases same : key = entryKey
      · subst same
        simp [List.dlookup_cons_eq]
      · rw [List.map_cons, List.dlookup_cons_ne _ _ same, List.dlookup_cons_ne _ _ same]
        exact ih (List.nodupKeys_cons.mp nodup).2

end Table

end BriseDB
