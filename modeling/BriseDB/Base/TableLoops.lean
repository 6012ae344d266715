import BriseDB.Base.KeyLog
import BriseDB.Base.Table

/-!
# Loops over tables

What a loop over one table makes of another: inserting its entries, erasing its keys, and
inserting the entries that are new.  The order of the loop does not matter.
-/

namespace BriseDB

namespace Table

variable {κ ν μ : Type} [DecidableEq κ]

/-- A loop over a table says of each key what the table says. -/
theorem last_range (order : RangeOrder κ) (table : Table κ ν) (update : κ × ν → Option μ)
    (key : κ) :
    KeyLog.last ((table.range order).map fun entry => (entry.1, update entry)) key =
      (table.lookup key).map fun value => update (key, value) := by
  have keys : ((table.range order).map fun entry => (entry.1, update entry)).map Prod.fst =
      (table.range order).map Prod.fst := by
    rw [List.map_map]
    rfl
  cases found : table.lookup key with
  | none =>
      apply KeyLog.last_eq_none
      rintro _ member rfl
      rcases List.mem_map.mp member with ⟨⟨other, value⟩, isEntry, rfl⟩
      rw [Table.mem_range] at isEntry
      exact Option.some_ne_none _ (isEntry.symm.trans found)
  | some value =>
      apply KeyLog.last_of_mem
      · rw [keys]
        exact nodup_range order table
      · exact List.mem_map.mpr ⟨(key, value), (mem_range order table key value).mpr found, rfl⟩

/-- A loop over one table whose rounds each decide one key of another. -/
theorem lookup_updateAll (order : RangeOrder κ) (source : Table κ ν)
    {body : Table κ μ → κ × ν → Table κ μ} {update : κ × ν → Option μ}
    (round : ∀ table entry key, (body table entry).lookup key =
      if key = entry.1 then update entry else table.lookup key) (target : Table κ μ) (key : κ) :
    ((source.range order).foldl body target).lookup key =
      ((source.lookup key).map fun value => update (key, value)).getD (target.lookup key) := by
  have folded : ∀ (entries : List (κ × ν)) (table : Table κ μ),
      (entries.foldl body table).lookup key = KeyLog.run (fun key => table.lookup key)
        (entries.map fun entry => (entry.1, update entry)) key := by
    intro entries
    induction entries with
    | nil => exact fun _ => rfl
    | cons entry rest ih =>
        intro table
        have updated : (fun key => (body table entry).lookup key) =
            KeyLog.apply (fun key => table.lookup key) (entry.1, update entry) := by
          funext other
          rw [round, KeyLog.apply, Function.update_apply]
        rw [List.foldl_cons, ih, updated]
        rfl
  rw [folded, KeyLog.run_apply, last_range order source update]

/-- Inserting the entries of one table into another. -/
theorem lookup_insertAll (order : RangeOrder κ) (source target : Table κ ν) (key : κ) :
    ((source.range order).foldl (fun (table : Table κ ν) entry => table.insert entry.1 entry.2)
        target).lookup key = (source.lookup key).or (target.lookup key) := by
  rw [@lookup_updateAll _ _ _ _ order source _ (fun entry => some entry.2)]
  · cases source.lookup key <;> rfl
  · intro table entry other
    by_cases same : other = entry.1
    · rw [if_pos same, same, AList.lookup_insert]
    · rw [if_neg same, AList.lookup_insert_ne same]

/-- Erasing the keys of one table from another. -/
theorem lookup_eraseAll (order : RangeOrder κ) (source : Table κ μ) (target : Table κ ν) (key : κ) :
    ((source.range order).foldl (fun (table : Table κ ν) entry => table.erase entry.1)
        target).lookup key = if (source.lookup key).isSome then none else target.lookup key := by
  rw [@lookup_updateAll _ _ _ _ order source _ (fun _ => none)]
  · cases source.lookup key <;> rfl
  · intro table entry other
    by_cases same : other = entry.1
    · rw [if_pos same, same, AList.lookup_erase]
    · rw [if_neg same, AList.lookup_erase_ne same]

/-- Inserting those entries of one table into another that are allowed and new. -/
theorem lookup_insertNew (order : RangeOrder κ) (source target : Table κ ν) (allowed : κ → Prop)
    [DecidablePred allowed] (key : κ) :
    ((source.range order).foldl
      (fun (table : Table κ ν) entry =>
        if (table.lookup entry.1).isNone ∧ allowed entry.1 then table.insert entry.1 entry.2
        else table) target).lookup key =
      (target.lookup key).or (if allowed key then source.lookup key else none) := by
  have folded : ∀ (entries : List (κ × ν)) (table : Table κ ν),
      (entries.foldl
        (fun (table : Table κ ν) entry =>
          if (table.lookup entry.1).isNone ∧ allowed entry.1 then table.insert entry.1 entry.2
          else table) table).lookup key =
        (table.lookup key).or (if allowed key then
          (entries.find? fun entry => entry.1 = key).map Prod.snd else none) := by
    intro entries
    induction entries with
    | nil => simp
    | cons entry rest ih =>
        intro table
        rw [List.foldl_cons, ih]
        by_cases same : entry.1 = key
        · subst same
          by_cases permitted : allowed entry.1
          · cases found : table.lookup entry.1 <;> simp [found, permitted]
          · simp [permitted]
        · rw [List.find?_cons_of_neg (by simpa using same)]
          split
          · rw [AList.lookup_insert_ne (Ne.symm same)]
          · rfl
  have first : ((source.range order).find? fun entry => entry.1 = key).map Prod.snd =
      source.lookup key := by
    cases isFirst : (source.range order).find? fun entry => entry.1 = key with
    | some entry =>
        obtain rfl : entry.1 = key := by simpa using List.find?_some isFirst
        exact ((mem_range order source entry.1 entry.2).mp (List.mem_of_find?_eq_some isFirst)).symm
    | none =>
        cases found : source.lookup key with
        | none => rfl
        | some value =>
            have absent := List.find?_eq_none.mp isFirst (key, value)
              ((mem_range order source key value).mpr found)
            simp at absent
  rw [folded, first]

end Table

end BriseDB
