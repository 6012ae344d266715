import BriseDB.Base.Table
import BriseDB.Types
import BriseDB.Base.Exec

/-!
# The read cache of the volume pool

`lruCache` keeps blobs in a list ordered by recency, bounded by the sum of
their sizes, with a table from addresses to list elements.  An element of the
list is a heap object of the source; here it carries a reference number, and
the table maps an address to such a number.

`Valid` says that list and table describe the same entries.  Under it lookups
only return what was stored, and the eviction loop of `set` ends.
-/

namespace BriseDB

/-- An element of the recency list with the `lruEntry` it holds. -/
structure LruElement where
  ref : Nat
  key : NeedleAddr
  value : Bytes
  deriving DecidableEq, Repr

/-- `lruCache`, without its statistics.  The front of the list is the most
recently used element. -/
structure LruCache where
  maxBytes : UInt64
  curBytes : UInt64
  list : List LruElement
  items : Table NeedleAddr Nat
  nextRef : Nat

namespace LruCache

/-- `newLRUCache`: no cache for a bound of 0. -/
def new (maxBytes : UInt64) : Option LruCache :=
  if maxBytes = 0 then none
  else some ⟨maxBytes, 0, [], ∅, 0⟩

/-- `MoveToFront`. -/
def moveToFront (ref : Nat) (list : List LruElement) : List LruElement :=
  match list.find? fun element => element.ref = ref with
  | none => list
  | some element => element :: list.filter fun other => other.ref ≠ ref

/-- `get`.  The table only refers to elements of the list. -/
def get (cache : LruCache) (addr : NeedleAddr) : Option Bytes × LruCache :=
  match cache.items.lookup addr with
  | none => (none, cache)
  | some ref =>
      match cache.list.find? fun element => element.ref = ref with
      | none => (none, cache)
      | some element =>
          (some element.value, { cache with list := moveToFront ref cache.list })

/-- `evictLRU`. -/
def evictLRU (cache : LruCache) : LruCache :=
  match cache.list.getLast? with
  | none => cache
  | some element =>
      { cache with
        list := cache.list.dropLast
        items := cache.items.erase element.key
        curBytes := cache.curBytes - UInt64.ofNat element.value.length }

/-- One round of the eviction loop of `set`. -/
def evictStep (size : UInt64) (cache : LruCache) : Res (LruCache ⊕ LruCache) :=
  if cache.maxBytes < cache.curBytes + size then .ok (.inl (evictLRU cache))
  else .ok (.inr cache)

/-- The branch of `set` that refreshes the element of an address. -/
def refresh (cache : LruCache) (ref : Nat) (data : Bytes) : LruCache :=
  match cache.list.find? fun element => element.ref = ref with
  | none => cache
  | some old =>
      { cache with
        list := { old with value := data } :: cache.list.filter fun other => other.ref ≠ ref
        curBytes :=
          cache.curBytes - UInt64.ofNat old.value.length + UInt64.ofNat data.length }

/-- The branch of `set` that adds an element, once there is room for it. -/
def push (cache : LruCache) (addr : NeedleAddr) (data : Bytes) : LruCache :=
  { cache with
    list := ⟨cache.nextRef, addr, data⟩ :: cache.list
    items := cache.items.insert addr cache.nextRef
    curBytes := cache.curBytes + UInt64.ofNat data.length
    nextRef := cache.nextRef + 1 }

/-- `set`.  An eviction from an empty list does nothing, so a loop that is still
running when the list is empty never ends. -/
def set (cache : LruCache) (addr : NeedleAddr) (data : Bytes) : Res LruCache :=
  if cache.maxBytes < UInt64.ofNat data.length then .ok cache
  else
    match cache.items.lookup addr with
    | some ref => .ok (refresh cache ref data)
    | none => do
        let roomy ← Res.loop (evictStep (UInt64.ofNat data.length)) (cache.list.length + 1) cache
        pure (push roomy addr data)

/-! ## List and table agree -/

/-- The cache holds `data` for `addr`. -/
def Stores (cache : LruCache) (addr : NeedleAddr) (data : Bytes) : Prop :=
  ∃ element ∈ cache.list, element.key = addr ∧ element.value = data

/-- The number of bytes held by the elements of a list. -/
def totalBytes (list : List LruElement) : Nat :=
  (list.map fun element => element.value.length).sum

/-- The table maps every address to the only list element with that address, and
the byte count is that of the list in 64-bit arithmetic. -/
structure Valid (cache : LruCache) : Prop where
  refs_nodup : (cache.list.map LruElement.ref).Nodup
  refs_lt : ∀ element ∈ cache.list, element.ref < cache.nextRef
  items_iff : ∀ addr ref, cache.items.lookup addr = some ref ↔
    ∃ element ∈ cache.list, element.key = addr ∧ element.ref = ref
  bytes_eq : cache.curBytes = UInt64.ofNat (totalBytes cache.list)

theorem new_valid {maxBytes : UInt64} {cache : LruCache} (isNew : new maxBytes = some cache) :
    Valid cache ∧ ∀ addr data, ¬ Stores cache addr data := by
  unfold new at isNew
  split at isNew
  · cases isNew
  · obtain rfl := Option.some.inj isNew
    refine ⟨⟨by simp, by simp, by simp, rfl⟩, ?_⟩
    simp [Stores]

/-- In a list with distinct references, taking out the element of a reference
leaves the others. -/
theorem perm_of_find {list : List LruElement} {ref : Nat} {element : LruElement}
    (nodup : (list.map LruElement.ref).Nodup)
    (found : list.find? (fun element => element.ref = ref) = some element) :
    element.ref = ref ∧
      (element :: list.filter fun other => other.ref ≠ ref).Perm list := by
  have sameRef : element.ref = ref := by simpa using List.find?_some found
  refine ⟨sameRef, ?_⟩
  induction list with
  | nil => simp at found
  | cons first rest ih =>
      rw [List.map_cons, List.nodup_cons] at nodup
      by_cases here : first.ref = ref
      · obtain rfl : first = element := by simpa [here] using found
        have others : rest.filter (fun other => other.ref ≠ ref) = rest := by
          refine List.filter_eq_self.mpr ?_
          intro other mem
          have different : other.ref ≠ ref := by
            intro same
            exact nodup.1 (here.trans same.symm ▸ List.mem_map_of_mem mem)
          simpa using different
        rw [List.filter_cons_of_neg (by simpa using here), others]
      · have later : rest.find? (fun element => element.ref = ref) = some element := by
          simpa [here] using found
        rw [List.filter_cons_of_pos (by simpa using here)]
        exact (List.Perm.swap first element _).trans ((ih nodup.2 later).cons first)

theorem totalBytes_perm {first second : List LruElement} (perm : first.Perm second) :
    totalBytes first = totalBytes second :=
  (perm.map _).sum_eq

theorem get_spec {cache : LruCache} (valid : Valid cache) (addr : NeedleAddr) :
    Valid (get cache addr).2 ∧
      (∀ other data, Stores (get cache addr).2 other data ↔ Stores cache other data) ∧
      ∀ data, (get cache addr).1 = some data → Stores cache addr data := by
  unfold get
  cases isItem : cache.items.lookup addr with
  | none => exact ⟨valid, fun _ _ => Iff.rfl, by simp⟩
  | some ref =>
      dsimp only
      cases found : cache.list.find? fun element => element.ref = ref with
      | none => exact ⟨valid, fun _ _ => Iff.rfl, by simp⟩
      | some element =>
          obtain ⟨sameRef, perm⟩ := perm_of_find valid.refs_nodup found
          have moved : moveToFront ref cache.list =
              element :: cache.list.filter fun other => other.ref ≠ ref := by
            simp [moveToFront, found]
          have keyEq : element.key = addr := by
            obtain ⟨other, mem, otherKey, otherRef⟩ := (valid.items_iff addr ref).mp isItem
            have same : other = element :=
              List.inj_on_of_nodup_map valid.refs_nodup mem (List.mem_of_find?_eq_some found)
                (otherRef.trans sameRef.symm)
            exact same ▸ otherKey
          simp only [moved]
          refine ⟨⟨?_, ?_, ?_, ?_⟩, ?_, ?_⟩
          · exact (perm.map _).nodup_iff.mpr valid.refs_nodup
          · exact fun other mem => valid.refs_lt other (perm.mem_iff.mp mem)
          · intro other otherRef
            rw [valid.items_iff]
            simp only [perm.mem_iff]
          · rw [totalBytes_perm perm]
            exact valid.bytes_eq
          · intro other data
            simp only [Stores, perm.mem_iff]
          · intro data valueEq
            exact ⟨element, List.mem_of_find?_eq_some found, keyEq, Option.some.inj valueEq⟩

theorem refresh_spec {cache : LruCache} (valid : Valid cache) {addr : NeedleAddr} {ref : Nat}
    (isItem : cache.items.lookup addr = some ref) (data : Bytes) :
    Valid (refresh cache ref data) ∧
      ∀ other found, Stores (refresh cache ref data) other found →
        Stores cache other found ∨ other = addr ∧ found = data := by
  obtain ⟨element, mem, keyEq, refEq⟩ := (valid.items_iff addr ref).mp isItem
  unfold refresh
  cases found : cache.list.find? fun element => element.ref = ref with
  | none => exact ⟨valid, fun _ _ stores => .inl stores⟩
  | some old =>
      obtain ⟨oldRef, perm⟩ := perm_of_find valid.refs_nodup found
      have oldEq : old = element :=
        List.inj_on_of_nodup_map valid.refs_nodup (List.mem_of_find?_eq_some found) mem
          (oldRef.trans refEq.symm)
      set others := cache.list.filter fun other => other.ref ≠ ref with othersDef
      refine ⟨⟨?_, ?_, ?_, ?_⟩, ?_⟩
      · exact (perm.map _).nodup_iff.mpr valid.refs_nodup
      · intro other otherMem
        rcases List.mem_cons.mp otherMem with rfl | otherMem
        · exact valid.refs_lt old (List.mem_of_find?_eq_some found)
        · exact valid.refs_lt other (List.mem_filter.mp otherMem).1
      · intro other otherRef
        rw [valid.items_iff]
        simp only [← perm.mem_iff, List.exists_mem_cons_iff]
      · have total : totalBytes cache.list = old.value.length + totalBytes others := by
          rw [← totalBytes_perm perm]
          simp [totalBytes]
        have newTotal : totalBytes ({ old with value := data } :: others) =
            data.length + totalBytes others := by
          simp [totalBytes]
        simp only [valid.bytes_eq, total, newTotal]
        rw [UInt64.ofNat_add, UInt64.ofNat_add, UInt64.add_comm (UInt64.ofNat old.value.length),
          UInt64.add_sub_cancel, UInt64.add_comm]
      · rintro other value ⟨holder, holderMem, rfl, rfl⟩
        rcases List.mem_cons.mp holderMem with rfl | holderMem
        · exact .inr ⟨oldEq ▸ keyEq, rfl⟩
        · exact .inl ⟨holder, (List.mem_filter.mp holderMem).1, rfl, rfl⟩

theorem evictLRU_spec {cache : LruCache} (valid : Valid cache) {front : List LruElement}
    {last : LruElement} (listEq : cache.list = front ++ [last]) :
    Valid (evictLRU cache) ∧ (evictLRU cache).list = front ∧
      (evictLRU cache).maxBytes = cache.maxBytes := by
  have evicted : evictLRU cache =
      { cache with
        list := front
        items := cache.items.erase last.key
        curBytes := cache.curBytes - UInt64.ofNat last.value.length } := by
    simp [evictLRU, listEq]
  rw [evicted]
  refine ⟨⟨?_, ?_, ?_, ?_⟩, rfl, rfl⟩
  · have nodup := valid.refs_nodup
    rw [listEq, List.map_append, List.nodup_append] at nodup
    exact nodup.1
  · exact fun element mem => valid.refs_lt element (by simp [listEq, mem])
  · intro addr ref
    by_cases same : addr = last.key
    · subst same
      rw [AList.lookup_erase]
      refine iff_of_false (by simp) ?_
      rintro ⟨element, mem, keyEq, _⟩
      have first := (valid.items_iff last.key element.ref).mpr
        ⟨element, by simp [listEq, mem], keyEq, rfl⟩
      have second := (valid.items_iff last.key last.ref).mpr ⟨last, by simp [listEq], rfl, rfl⟩
      have sameRef : element.ref = last.ref := Option.some.inj (first.symm.trans second)
      have nodup := valid.refs_nodup
      rw [listEq, List.map_append, List.nodup_append] at nodup
      exact nodup.2.2 _ (List.mem_map_of_mem mem) _ (by simp) sameRef
    · rw [AList.lookup_erase_ne same, valid.items_iff]
      constructor
      · rintro ⟨element, mem, keyEq, refEq⟩
        rw [listEq] at mem
        rcases List.mem_append.mp mem with mem | isLast
        · exact ⟨element, mem, keyEq, refEq⟩
        · exact absurd ((List.mem_singleton.mp isLast) ▸ keyEq).symm same
      · rintro ⟨element, mem, keyEq, refEq⟩
        exact ⟨element, by simp [listEq, mem], keyEq, refEq⟩
  · have total : totalBytes cache.list = totalBytes front + last.value.length := by
      simp [totalBytes, listEq]
    simp only [valid.bytes_eq, total]
    rw [UInt64.ofNat_add, UInt64.add_sub_cancel]

/-- The eviction loop ends with the longest front part of the list that leaves room for
`size` more bytes, in 64-bit arithmetic. -/
theorem loop_evictStep {size : UInt64} (fuel : Nat) (cache : LruCache) (valid : Valid cache)
    (sizeFits : size ≤ cache.maxBytes) (enough : cache.list.length < fuel) :
    ∃ roomy evicted, Res.loop (evictStep size) fuel cache = .ok roomy ∧ Valid roomy ∧
      cache.list = roomy.list ++ evicted ∧ roomy.maxBytes = cache.maxBytes ∧
      ¬ cache.maxBytes < roomy.curBytes + size ∧
      ∀ front back, cache.list = front ++ back → roomy.list.length < front.length →
        cache.maxBytes < UInt64.ofNat (totalBytes front) + size := by
  induction fuel generalizing cache with
  | zero => omega
  | succ fuel ih =>
      by_cases full : cache.maxBytes < cache.curBytes + size
      · rcases List.eq_nil_or_concat cache.list with empty | ⟨front, last, listEq⟩
        · have noBytes : cache.curBytes = 0 := by
            rw [valid.bytes_eq, empty]
            rfl
          rw [noBytes, UInt64.zero_add] at full
          exact absurd full (UInt64.not_lt.mpr sizeFits)
        · rw [List.concat_eq_append] at listEq
          obtain ⟨evictedValid, evictedList, evictedMax⟩ := evictLRU_spec valid listEq
          have shorter : (evictLRU cache).list.length < fuel := by
            rw [evictedList]
            rw [listEq, List.length_append] at enough
            simpa using enough
          obtain ⟨roomy, evicted, loopEq, roomyValid, split, maxEq, fits, least⟩ :=
            ih (evictLRU cache) evictedValid (by rw [evictedMax]; exact sizeFits) shorter
          rw [evictedList] at split least
          rw [evictedMax] at maxEq fits least
          refine ⟨roomy, evicted ++ [last], ?_, roomyValid, ?_, maxEq, fits, ?_⟩
          · rw [Res.loop_continue (show evictStep size cache = .ok (.inl (evictLRU cache)) by
              simp [evictStep, full])]
            exact loopEq
          · rw [listEq, split, List.append_assoc]
          · intro start back isSplit longer
            rcases List.eq_nil_or_concat back with rfl | ⟨back, final, rfl⟩
            · rw [List.append_nil] at isSplit
              rw [← isSplit, ← valid.bytes_eq]
              exact full
            · rw [List.concat_eq_append, listEq, ← List.append_assoc] at isSplit
              exact least start back (List.append_inj' isSplit rfl).1 longer
      · refine ⟨cache, [], Res.loop_stop (by simp [evictStep, full]) fuel, valid,
          (List.append_nil _).symm, rfl, full, ?_⟩
        intro front back split longer
        rw [split, List.length_append] at longer
        omega

theorem push_spec {cache : LruCache} (valid : Valid cache) {addr : NeedleAddr}
    (absent : cache.items.lookup addr = none) (data : Bytes) :
    Valid (push cache addr data) := by
  have noHolder : ∀ element ∈ cache.list, element.key ≠ addr := by
    intro element mem keyEq
    have isItem := (valid.items_iff addr element.ref).mpr ⟨element, mem, keyEq, rfl⟩
    rw [absent] at isItem
    cases isItem
  refine ⟨?_, ?_, ?_, ?_⟩
  · simp only [push, List.map_cons, List.nodup_cons]
    refine ⟨?_, valid.refs_nodup⟩
    intro mem
    obtain ⟨element, elementMem, refEq⟩ := List.mem_map.mp mem
    exact absurd (valid.refs_lt element elementMem) (by omega)
  · intro element mem
    rcases List.mem_cons.mp mem with rfl | mem
    · exact Nat.lt_succ_self _
    · exact (valid.refs_lt element mem).trans (Nat.lt_succ_self _)
  · intro other ref
    by_cases same : other = addr
    · subst same
      simp only [push, AList.lookup_insert, Option.some.injEq, List.exists_mem_cons_iff, true_and]
      constructor
      · exact .inl
      · rintro (refEq | ⟨element, mem, keyEq, _⟩)
        · exact refEq
        · exact absurd keyEq (noHolder element mem)
    · simp only [push, AList.lookup_insert_ne same, valid.items_iff, List.exists_mem_cons_iff,
        Ne.symm same, false_and, false_or]
  · simp only [push, valid.bytes_eq, totalBytes, List.map_cons, List.sum_cons]
    rw [UInt64.ofNat_add, UInt64.add_comm]

theorem Valid.lookup_none {cache roomy : LruCache} (roomyValid : Valid roomy)
    (subset : roomy.list ⊆ cache.list) (valid : Valid cache) {addr : NeedleAddr}
    (absent : cache.items.lookup addr = none) : roomy.items.lookup addr = none := by
  cases isRoomyItem : roomy.items.lookup addr with
  | none => rfl
  | some ref =>
      obtain ⟨element, mem, keyEq, refEq⟩ := (roomyValid.items_iff addr ref).mp isRoomyItem
      have before := (valid.items_iff addr ref).mpr ⟨element, subset mem, keyEq, refEq⟩
      rw [absent] at before
      cases before

/-- `set` ends, and the cache then holds nothing new but the given blob. -/
theorem set_spec {cache : LruCache} (valid : Valid cache) (addr : NeedleAddr) (data : Bytes) :
    ∃ next, set cache addr data = .ok next ∧ Valid next ∧
      ∀ other found, Stores next other found →
        Stores cache other found ∨ other = addr ∧ found = data := by
  unfold set
  split
  · exact ⟨cache, rfl, valid, fun _ _ stores => .inl stores⟩
  · next fits =>
    cases isItem : cache.items.lookup addr with
    | some ref =>
        obtain ⟨nextValid, nextStores⟩ := refresh_spec valid isItem data
        exact ⟨_, rfl, nextValid, nextStores⟩
    | none =>
        obtain ⟨roomy, evicted, loopEq, roomyValid, split, _⟩ := loop_evictStep
          (cache.list.length + 1) cache valid (UInt64.not_lt.mp fits) (Nat.lt_succ_self _)
        have subset : roomy.list ⊆ cache.list := split ▸ List.subset_append_left _ _
        have absent := roomyValid.lookup_none subset valid isItem
        refine ⟨push roomy addr data, by simp [loopEq], push_spec roomyValid absent data, ?_⟩
        rintro other found ⟨element, mem, rfl, rfl⟩
        rcases List.mem_cons.mp mem with rfl | mem
        · exact .inr ⟨rfl, rfl⟩
        · exact .inl ⟨element, subset mem, rfl, rfl⟩

end LruCache

end BriseDB
