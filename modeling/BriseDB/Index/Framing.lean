import BriseDB.Index.LongKeys
import BriseDB.Index.Torn

/-!
# What a new entry does to the others

The length of a key is stored in two bytes.  An entry with a longer key cannot be read
again, neither through the pointer to it nor by a scan, so the key is never found; and the
entry may be taken for one of another key.  A key whose length fits changes what is found
under it and nothing else.
-/

namespace BriseDB.Index

open Bytes (getLE)
open File (readAt)

/-- After a `Set` of `key`, `Get` finds the key with its new address and expiry and every
other key as before, and an iteration visits the keys it visited before, with `key` in its
new place. -/
structure SetsOnly (hi next : HashIndex) (key : Key) (addr : NeedleAddr) (expiresAt : Int64) :
    Prop where
  get_self : get next key = .ok (some (addr, expiresAt))
  get_other : ∀ other, other ≠ key → get next other = get hi other
  forEach : ∀ (nowNs : Int64) (order nextOrder : RangeOrder Key), ∃ before after,
    forEach hi (Time.ofNano nowNs) order = .ok ⟨before, none⟩ ∧
    forEach next (Time.ofNano nowNs) nextOrder = .ok ⟨after, none⟩ ∧
    (after.map Visit.key).Nodup ∧
    ∀ visit : Visit, visit ∈ after ↔
      if visit.key = key then visit = ⟨key, addr, expiresAt⟩ ∧ ¬ Expired nowNs expiresAt
      else visit ∈ before

/-- No entry is read with a key longer than its length field can say. -/
theorem key_fits_of_readEntryAt {contents : Bytes} {pos : Nat} {e : IdxEntry}
    (isEntry : readEntryAt contents pos = .ok e) : e.key.length ≤ 65535 := by
  have decoded : ∀ full ahead next, (decodeEntry full next
      (getLE (readAt ahead 8 2))).key.length ≤ 65535 := by
    intro full ahead next
    have field : (readAt ahead 8 2).length ≤ 2 := by
      rw [File.length_readAt]
      exact Nat.min_le_left _ _
    have small := (Bytes.getLE_lt (readAt ahead 8 2)).trans_le
      (Nat.pow_le_pow_right (by decide) field)
    have cut : (decodeEntry full next (getLE (readAt ahead 8 2))).key.length ≤
        getLE (readAt ahead 8 2) := by
      rw [decodeEntry, File.length_readAt]
      exact Nat.min_le_left _ _
    omega
  simp only [readEntryAt] at isEntry
  generalize (if pos < 2 ^ 63 then readAt contents pos entryReadAheadSize else []) = ahead
    at isEntry
  by_cases short : ahead.length < 10
  · rw [if_pos short] at isEntry
    cases isEntry
  rw [if_neg short] at isEntry
  split at isEntry
  · obtain rfl := Except.ok.inj isEntry
    exact decoded ..
  · split at isEntry
    · cases isEntry
    · obtain rfl := Except.ok.inj isEntry
      exact decoded ..

/-- So a longer key is never found. -/
theorem key_fits_of_get {hi : HashIndex} {key : Key} {found : NeedleAddr × Int64}
    (getEq : get hi key = .ok (some found)) : key.length ≤ 65535 := by
  rcases Res.bind_eq_ok.mp getEq with ⟨slot, _, looped⟩
  rcases Res.exists_of_loop_eq_ok looped with ⟨off, stepEq⟩
  unfold getStep at stepEq
  split at stepEq
  · cases stepEq
  split at stepEq
  · cases stepEq
  next e isEntry =>
    split at stepEq
    next same => exact same ▸ key_fits_of_readEntryAt isEntry
    next => cases stepEq

section

variable {hi next : HashIndex} {content : Content} {key : Key} {addr : NeedleAddr}
  {expiresAt : Int64}

/-- An index that stands for the updated map differs in this key only. -/
theorem Stores.setsOnly (stores : Stores hi content)
    (updated : Stores next (Function.update content key (some (addr, expiresAt)))) :
    SetsOnly hi next key addr expiresAt := by
  refine ⟨?_, ?_, ?_⟩
  · rw [updated.get_eq, Function.update_self]
  · intro other different
    rw [updated.get_eq, stores.get_eq, Function.update_of_ne different]
  · intro nowNs order nextOrder
    rcases stores.forEach_eq nowNs order with ⟨before, beforeEq, visited⟩
    rcases updated.forEach_eq nowNs nextOrder with ⟨after, afterEq, revisited⟩
    refine ⟨before, after, beforeEq, afterEq, revisited.nodup, ?_⟩
    rintro ⟨visitedKey, visitedAddr, visitedExpiry⟩
    rw [revisited.mem_iff]
    by_cases same : visitedKey = key
    · subst same
      simp only [Function.update_self, if_true, Option.some.injEq, Prod.mk.injEq, Visit.mk.injEq,
        true_and]
      constructor
      · rintro ⟨⟨rfl, rfl⟩, live⟩
        exact ⟨⟨rfl, rfl⟩, live⟩
      · rintro ⟨⟨rfl, rfl⟩, live⟩
        exact ⟨⟨rfl, rfl⟩, live⟩
    · rw [if_neg same, visited.mem_iff, Function.update_of_ne same]

/-- A `Set` that has returned without an error has set the key and changed nothing else
exactly if the length of the key fits in its field, whatever the key, and whichever writes
have failed before. -/
theorem set_setsOnly_iff (stores : Stores hi content) (key : Key) (addr : NeedleAddr)
    (expiresAt : Int64) (faults : List Fault)
    (returned : (set key addr expiresAt hi faults).res = .ok ()) :
    SetsOnly hi (set key addr expiresAt hi faults).state key addr expiresAt ↔
      key.length ≤ 65535 := by
  constructor
  · intro only
    exact key_fits_of_get only.get_self
  · intro keyFits
    exact stores.setsOnly ((stores.set_ends keyFits addr expiresAt).returned returned).2

end

/-! ## A new index -/

/-- An index file that has just been created, in which no write fails. -/
theorem represents_opened :
    Represents (openHashIndex 0 (HashIndex.ofFiles [] []) []).state (fun _ => none) ∧
      (openHashIndex 0 (HashIndex.ofFiles [] []) []).state.f.length =
        dataStart defaultBucketCount.toNat := by
  have opens := @openHashIndex_represents True 0 (fun _ => by decide)
  rcases opens.correct [] (opens.undisturbed trivial).1 with ⟨_, _, represents, _, lengthEq⟩
  rw [if_pos rfl] at lengthEq
  exact ⟨represents, lengthEq⟩

theorem set_setsOnly_iff_opened :
    (set [97] ⟨1, 0, 3⟩ 0 (openHashIndex 0 (HashIndex.ofFiles [] []) []).state []).res = .ok () ∧
      SetsOnly (openHashIndex 0 (HashIndex.ofFiles [] []) []).state
        (set [97] ⟨1, 0, 3⟩ 0 (openHashIndex 0 (HashIndex.ofFiles [] []) []).state []).state
        [97] ⟨1, 0, 3⟩ 0 := by
  rcases represents_opened with ⟨represents, lengthEq⟩
  generalize (openHashIndex 0 (HashIndex.ofFiles [] []) []).state = hi at *
  have sets := @Represents.set True hi _ represents [97] (by decide) ⟨1, 0, 3⟩ 0
    (fun _ => by rw [lengthEq]; decide)
  rcases sets.correct [] (sets.undisturbed trivial).1 with ⟨_, returned, _⟩
  exact ⟨returned, (set_setsOnly_iff represents.stores _ _ _ [] returned).mpr (by decide)⟩

/-- A key of 65536 bytes is set without an error.  It is not found afterwards, and the entry
of the empty key, written before, is lost as well. -/
theorem set_longKey_hides :
    ∃ hi, Stores hi (Function.update (fun _ => none) [] (some (⟨1, 0, 3⟩, 0))) ∧
      (set longKey ⟨1, 31, 3⟩ 0 hi []).res = .ok () ∧
      get hi [] = .ok (some (⟨1, 0, 3⟩, 0)) ∧
      get (set longKey ⟨1, 31, 3⟩ 0 hi []).state [] = .ok none ∧
      ∀ found, get (set longKey ⟨1, 31, 3⟩ 0 hi []).state longKey ≠ .ok (some found) := by
  rcases represents_opened with ⟨represents, lengthEq⟩
  generalize (openHashIndex 0 (HashIndex.ofFiles [] []) []).state = fresh at *
  have sets := @Represents.set True fresh _ represents [] (by decide) ⟨1, 0, 3⟩ 0
    (fun _ => by rw [lengthEq]; decide)
  rcases sets.correct [] (sets.undisturbed trivial).1 with ⟨_, _, stored, _, storedLength⟩
  generalize (set [] ⟨1, 0, 3⟩ 0 fresh []).state = hi at *
  have usable : Usable hi := by
    rcases stored with ⟨_, _, layout, _, _⟩
    exact layout.usable
  have hides := @Usable.set_longKey True hi usable ⟨1, 31, 3⟩ 0
    (fun _ => by rw [storedLength, lengthEq]; decide)
  rcases hides.correct [] (hides.undisturbed trivial).1 with ⟨_, returned, _, hidden, _⟩
  refine ⟨hi, stored.stores, returned, ?_, hidden, ?_⟩
  · rw [stored.stores.get_eq, Function.update_self]
  · intro found getEq
    have keyFits := key_fits_of_get getEq
    rw [length_longKey] at keyFits
    omega

end BriseDB.Index
