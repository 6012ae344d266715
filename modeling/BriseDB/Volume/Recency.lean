import BriseDB.Volume.Lru

/-!
# Runs of the read cache

After any calls of `get` and `set` the list of an `lruCache` is in the order of the last
calls for its addresses, its byte count is exact and within the bound, and an insertion
evicts as few elements as possible from the back of the list.

The byte count and the test of the eviction loop are in 64-bit arithmetic.  `InMemory` is the
assumption that the blobs of the cache and the one to be inserted, which a process has in its
memory at the same time, have less than `2 ^ 64` bytes together.
-/

namespace BriseDB

/-- A call of an `lruCache`. -/
inductive LruCall where
  | get (addr : NeedleAddr)
  | set (addr : NeedleAddr) (data : Bytes)

namespace LruCall

/-- The address a call is about. -/
def addr : LruCall → NeedleAddr
  | get addr => addr
  | set addr _ => addr

/-- Carry out a call, without the answer of `get`. -/
def run (cache : LruCache) : LruCall → Res LruCache
  | get addr => .ok (cache.get addr).2
  | set addr data => cache.set addr data

/-- The data has the length that is part of its address. -/
def Sized : LruCall → Prop
  | get _ => True
  | set addr data => data.length = addr.size.toNat

/-- Data for a new address would bring the cache to `2 ^ 64` bytes or more. -/
def Overflows (cache : LruCache) : LruCall → Prop
  | get _ => False
  | set addr data =>
      data.length ≤ cache.maxBytes.toNat ∧ cache.items.lookup addr = none ∧
        2 ^ 64 ≤ cache.curBytes.toNat + data.length

/-- What a call evicts.  An insertion keeps the longest front part of the list that leaves
room for the data; no other call evicts anything. -/
def Evicts (cache next : LruCache) : LruCall → Prop
  | get _ => (next.list.map LruElement.key).Perm (cache.list.map LruElement.key)
  | set addr data =>
      if data.length ≤ cache.maxBytes.toNat ∧ cache.items.lookup addr = none then
        ∃ element kept evicted, element.key = addr ∧ element.value = data ∧
          cache.list = kept ++ evicted ∧ next.list = element :: kept ∧
          LruCache.totalBytes kept + data.length ≤ cache.maxBytes.toNat ∧
          ∀ front back, cache.list = front ++ back →
            LruCache.totalBytes front + data.length ≤ cache.maxBytes.toNat → evicted <:+ back
      else (next.list.map LruElement.key).Perm (cache.list.map LruElement.key)

end LruCall

namespace LruCache

/-- Carry out calls one after the other. -/
def exec : List LruCall → LruCache → Res LruCache
  | [], cache => .ok cache
  | call :: rest, cache => do
      let next ← call.run cache
      exec rest next

/-- The addresses of the calls, the last one first. -/
def recent (calls : List LruCall) : List NeedleAddr :=
  (calls.map LruCall.addr).reverse

/-- What holds of a cache after some calls. -/
structure Sound (cache : LruCache) (calls : List LruCall) : Prop where
  bytes_eq : cache.curBytes.toNat = totalBytes cache.list
  bounded : cache.curBytes ≤ cache.maxBytes
  nodup : (cache.list.map LruElement.key).Nodup
  items_iff : ∀ addr ref, cache.items.lookup addr = some ref ↔
    ∃ element ∈ cache.list, element.key = addr ∧ element.ref = ref
  ordered : (cache.list.map LruElement.key).Pairwise fun first second =>
    (recent calls).idxOf first < (recent calls).idxOf second

/-! ## Order of use -/

/-- The addresses are in the order of their first occurrence. -/
def InOrder (uses addrs : List NeedleAddr) : Prop :=
  addrs.Pairwise fun first second => uses.idxOf first < uses.idxOf second

theorem InOrder.unused {uses addrs : List NeedleAddr} (ordered : InOrder uses addrs)
    {addr : NeedleAddr} (absent : addr ∉ addrs) : InOrder (addr :: uses) addrs := by
  refine List.Pairwise.imp_of_mem ?_ ordered
  intro first second firstMem secondMem earlier
  have firstNe : addr ≠ first := fun same => absent (same ▸ firstMem)
  have secondNe : addr ≠ second := fun same => absent (same ▸ secondMem)
  rw [List.idxOf_cons_ne _ firstNe, List.idxOf_cons_ne _ secondNe]
  exact Nat.succ_lt_succ earlier

theorem InOrder.used {uses addrs : List NeedleAddr} (ordered : InOrder uses addrs)
    {addr : NeedleAddr} (absent : addr ∉ addrs) : InOrder (addr :: uses) (addr :: addrs) := by
  refine List.pairwise_cons.mpr ⟨?_, ordered.unused absent⟩
  intro other mem
  have different : addr ≠ other := fun same => absent (same ▸ mem)
  rw [List.idxOf_cons_self, List.idxOf_cons_ne _ different]
  exact Nat.succ_pos _

/-! ## What every call keeps -/

variable {cache : LruCache} {uses : List NeedleAddr} {addr : NeedleAddr} {data : Bytes}
  {maxBytes : UInt64}

/-- The table, the list, the order of use and the sizes fit together. -/
structure Orderly (cache : LruCache) (uses : List NeedleAddr) : Prop where
  valid : Valid cache
  within : totalBytes cache.list ≤ cache.maxBytes.toNat
  sized : ∀ element ∈ cache.list, element.value.length = element.key.size.toNat
  ordered : InOrder uses (cache.list.map LruElement.key)

theorem Valid.ref_eq (valid : Valid cache) {first second : LruElement}
    (firstMem : first ∈ cache.list) (secondMem : second ∈ cache.list)
    (sameKey : first.key = second.key) : first.ref = second.ref := by
  have firstItem := (valid.items_iff first.key first.ref).mpr ⟨first, firstMem, rfl, rfl⟩
  have secondItem := (valid.items_iff first.key second.ref).mpr
    ⟨second, secondMem, sameKey.symm, rfl⟩
  exact Option.some.inj (firstItem.symm.trans secondItem)

theorem Valid.keys_nodup (valid : Valid cache) : (cache.list.map LruElement.key).Nodup := by
  refine List.Nodup.map_on ?_ valid.refs_nodup.of_map
  intro first firstMem second secondMem sameKey
  exact List.inj_on_of_nodup_map valid.refs_nodup firstMem secondMem
    (valid.ref_eq firstMem secondMem sameKey)

/-- An address that is not in the table is not in the list. -/
theorem Valid.key_notMem (valid : Valid cache)
    (absent : cache.items.lookup addr = none) : addr ∉ cache.list.map LruElement.key := by
  intro mem
  rcases List.mem_map.mp mem with ⟨element, elementMem, keyEq⟩
  have isItem := (valid.items_iff addr element.ref).mpr ⟨element, elementMem, keyEq, rfl⟩
  rw [absent] at isItem
  cases isItem

/-- The element of an address of the table, and the list without it. -/
theorem Valid.taken (valid : Valid cache) {ref : Nat}
    (isItem : cache.items.lookup addr = some ref) :
    ∃ element, cache.list.find? (fun element => element.ref = ref) = some element ∧
      element.key = addr ∧
      (element :: cache.list.filter fun other => other.ref ≠ ref).Perm cache.list ∧
      addr ∉ (cache.list.filter fun other => other.ref ≠ ref).map LruElement.key := by
  rcases (valid.items_iff addr ref).mp isItem with ⟨element, mem, keyEq, refEq⟩
  have isFound : (cache.list.find? fun element => element.ref = ref).isSome := by
    rw [List.find?_isSome]
    exact ⟨element, mem, by simpa using refEq⟩
  rcases Option.isSome_iff_exists.mp isFound with ⟨found, foundEq⟩
  rcases perm_of_find valid.refs_nodup foundEq with ⟨foundRef, perm⟩
  obtain rfl : found = element := List.inj_on_of_nodup_map valid.refs_nodup
    (List.mem_of_find?_eq_some foundEq) mem (foundRef.trans refEq.symm)
  refine ⟨found, foundEq, keyEq, perm, ?_⟩
  intro isOther
  rcases List.mem_map.mp isOther with ⟨other, otherMem, otherKey⟩
  rcases List.mem_filter.mp otherMem with ⟨inList, otherRef⟩
  have sameRef := valid.ref_eq inList mem (otherKey.trans keyEq.symm)
  simp [sameRef, refEq] at otherRef

theorem toNat_ofNat_length
    (sized : data.length = addr.size.toNat) : (UInt64.ofNat data.length).toNat = data.length :=
  UInt64.toNat_ofNat_of_lt' (sized ▸ addr.size.toNat_lt)

theorem Orderly.bytes (orderly : Orderly cache uses) :
    cache.curBytes.toNat = totalBytes cache.list := by
  rw [orderly.valid.bytes_eq]
  exact UInt64.toNat_ofNat_of_lt' (orderly.within.trans_lt cache.maxBytes.toNat_lt)

theorem get_orderly (orderly : Orderly cache uses) (addr : NeedleAddr) :
    Orderly (cache.get addr).2 (addr :: uses) ∧
      ((cache.get addr).2.list.map LruElement.key).Perm (cache.list.map LruElement.key) := by
  have stillValid := (get_spec orderly.valid addr).1
  cases isItem : cache.items.lookup addr with
  | none =>
      have missed : (cache.get addr).2 = cache := by simp [get, isItem]
      rw [missed]
      exact ⟨⟨orderly.valid, orderly.within, orderly.sized,
        orderly.ordered.unused (orderly.valid.key_notMem isItem)⟩, .refl _⟩
  | some ref =>
      rcases orderly.valid.taken isItem with ⟨element, found, keyEq, perm, notOther⟩
      have moved : (cache.get addr).2 =
          { cache with list := element :: cache.list.filter fun other => other.ref ≠ ref } := by
        simp [get, isItem, found, moveToFront]
      rw [moved] at stillValid ⊢
      refine ⟨⟨stillValid, ?_, ?_, ?_⟩, perm.map _⟩
      · rw [totalBytes_perm perm]
        exact orderly.within
      · intro other mem
        exact orderly.sized other (perm.mem_iff.mp mem)
      · rw [List.map_cons, keyEq]
        exact InOrder.used (List.Pairwise.sublist (List.filter_sublist.map _) orderly.ordered)
          notOther

theorem refresh_orderly (orderly : Orderly cache uses)
    (sized : data.length = addr.size.toNat) {ref : Nat}
    (isItem : cache.items.lookup addr = some ref) :
    Orderly (refresh cache ref data) (addr :: uses) ∧
      ((refresh cache ref data).list.map LruElement.key).Perm
        (cache.list.map LruElement.key) := by
  have stillValid := (refresh_spec orderly.valid isItem data).1
  rcases orderly.valid.taken isItem with ⟨element, found, keyEq, perm, notOther⟩
  have elementSized := orderly.sized element (perm.mem_iff.mp List.mem_cons_self)
  rw [keyEq, ← sized] at elementSized
  have refreshed : refresh cache ref data =
      { cache with
        list := { element with value := data } :: cache.list.filter fun other => other.ref ≠ ref
        curBytes := cache.curBytes - UInt64.ofNat element.value.length +
          UInt64.ofNat data.length } := by
    simp [refresh, found]
  rw [refreshed] at stillValid ⊢
  refine ⟨⟨stillValid, ?_, ?_, ?_⟩, perm.map LruElement.key⟩
  · have same : totalBytes ({ element with value := data } ::
        cache.list.filter fun other => other.ref ≠ ref) = totalBytes cache.list := by
      rw [← totalBytes_perm perm]
      simp [totalBytes, elementSized]
    rw [same]
    exact orderly.within
  · intro other mem
    rcases List.mem_cons.mp mem with rfl | isOther
    · exact sized.trans (congrArg (fun addr => addr.size.toNat) keyEq).symm
    · exact orderly.sized other (List.mem_filter.mp isOther).1
  · rw [List.map_cons, keyEq]
    exact InOrder.used (List.Pairwise.sublist (List.filter_sublist.map _) orderly.ordered)
      notOther

/-- As long as nothing wraps, the test of the eviction loop compares numbers of bytes. -/
theorem full_iff {total : Nat} (noWrap : total + data.length < 2 ^ 64) :
    maxBytes < UInt64.ofNat total + UInt64.ofNat data.length ↔
      maxBytes.toNat < total + data.length := by
  rw [← UInt64.ofNat_add, UInt64.lt_iff_toNat_lt, UInt64.toNat_ofNat_of_lt' noWrap]

theorem totalBytes_append (front back : List LruElement) :
    totalBytes (front ++ back) = totalBytes front + totalBytes back := by
  simp [totalBytes]

theorem insert_orderly (orderly : Orderly cache uses)
    (sized : data.length = addr.size.toNat) (small : UInt64.ofNat data.length ≤ cache.maxBytes)
    (absent : cache.items.lookup addr = none)
    (noWrap : cache.curBytes.toNat + data.length < 2 ^ 64) :
    ∃ roomy evicted, Res.loop (evictStep (UInt64.ofNat data.length)) (cache.list.length + 1) cache =
        .ok roomy ∧ Orderly (push roomy addr data) (addr :: uses) ∧
      cache.list = roomy.list ++ evicted ∧
      totalBytes roomy.list + data.length ≤ cache.maxBytes.toNat ∧
      ∀ front back, cache.list = front ++ back →
        totalBytes front + data.length ≤ cache.maxBytes.toNat → evicted <:+ back := by
  rcases loop_evictStep (cache.list.length + 1) cache orderly.valid small (Nat.lt_succ_self _) with
    ⟨roomy, evicted, loopEq, roomyValid, split, maxEq, notFull, least⟩
  rw [orderly.bytes] at noWrap
  have total : totalBytes cache.list = totalBytes roomy.list + totalBytes evicted := by
    rw [split, totalBytes_append]
  have fits : totalBytes roomy.list + data.length ≤ cache.maxBytes.toNat := by
    rw [roomyValid.bytes_eq, full_iff (by omega)] at notFull
    exact Nat.not_lt.mp notFull
  have subset : roomy.list ⊆ cache.list := split ▸ List.subset_append_left _ _
  have roomyAbsent := roomyValid.lookup_none subset orderly.valid absent
  refine ⟨roomy, evicted, loopEq, ⟨push_spec roomyValid roomyAbsent data, ?_, ?_, ?_⟩, split, fits,
    ?_⟩
  · change totalBytes (_ :: roomy.list) ≤ roomy.maxBytes.toNat
    rw [maxEq, totalBytes, List.map_cons, List.sum_cons, Nat.add_comm]
    exact fits
  · intro element mem
    rcases List.mem_cons.mp mem with rfl | isOld
    · exact sized
    · exact orderly.sized element (subset isOld)
  · refine InOrder.used ?_ (roomyValid.key_notMem roomyAbsent)
    refine List.Pairwise.sublist (List.Sublist.map _ ?_) orderly.ordered
    rw [split]
    exact List.sublist_append_left _ _
  · intro front back isSplit frontFits
    have notLonger : front.length ≤ roomy.list.length := by
      by_contra longer
      have full := least front back isSplit (Nat.not_le.mp longer)
      rw [full_iff (frontFits.trans_lt cache.maxBytes.toNat_lt)] at full
      omega
    have lengths : roomy.list.length + evicted.length = front.length + back.length := by
      rw [← List.length_append, ← List.length_append, ← split, isSplit]
    exact List.suffix_of_suffix_length_le ⟨_, split.symm⟩ ⟨_, isSplit.symm⟩ (by omega)

theorem set_orderly (orderly : Orderly cache uses) (sized : data.length = addr.size.toNat)
    (noOverflow : ¬ (LruCall.set addr data).Overflows cache) :
    ∃ next, cache.set addr data = .ok next ∧ Orderly next (addr :: uses) ∧
      (LruCall.set addr data).Evicts cache next := by
  have sizeEq := toNat_ofNat_length sized
  unfold set
  by_cases large : cache.maxBytes < UInt64.ofNat data.length
  · rw [if_pos large]
    rw [UInt64.lt_iff_toNat_lt, sizeEq] at large
    -- an element with this address would have the length of the data
    have absent : addr ∉ cache.list.map LruElement.key := by
      intro mem
      rcases List.mem_map.mp mem with ⟨element, elementMem, keyEq⟩
      have elementSized := orderly.sized element elementMem
      rw [keyEq, ← sized] at elementSized
      rcases List.append_of_mem elementMem with ⟨front, back, split⟩
      have within := orderly.within
      rw [split, totalBytes_append, totalBytes, totalBytes, List.map_cons, List.sum_cons] at within
      omega
    refine ⟨cache, rfl, ⟨orderly.valid, orderly.within, orderly.sized,
      orderly.ordered.unused absent⟩, ?_⟩
    rw [LruCall.Evicts, if_neg fun small => by omega]
  · rw [if_neg large]
    have small := UInt64.not_lt.mp large
    cases isItem : cache.items.lookup addr with
    | some ref =>
        rcases refresh_orderly orderly sized isItem with ⟨nextOrderly, perm⟩
        refine ⟨_, rfl, nextOrderly, ?_⟩
        rw [LruCall.Evicts, if_neg fun isNew => by rw [isItem] at isNew; cases isNew.2]
        exact perm
    | none =>
        rw [UInt64.le_iff_toNat_le, sizeEq] at small
        have noWrap : cache.curBytes.toNat + data.length < 2 ^ 64 := by
          by_contra wraps
          exact noOverflow ⟨small, isItem, Nat.not_lt.mp wraps⟩
        rcases insert_orderly orderly sized (UInt64.not_lt.mp large) isItem noWrap with
          ⟨roomy, evicted, loopEq, nextOrderly, split, fits, least⟩
        refine ⟨push roomy addr data, by simp [loopEq], nextOrderly, ?_⟩
        rw [LruCall.Evicts, if_pos ⟨small, isItem⟩]
        exact ⟨_, roomy.list, evicted, rfl, rfl, split, rfl, fits, least⟩

/-! ## Runs -/

theorem run_orderly (orderly : Orderly cache uses) {call : LruCall} (sized : call.Sized)
    (noOverflow : ¬ call.Overflows cache) :
    ∃ next, call.run cache = .ok next ∧ Orderly next (call.addr :: uses) ∧
      call.Evicts cache next := by
  cases call with
  | get addr =>
      rcases get_orderly orderly addr with ⟨nextOrderly, perm⟩
      exact ⟨_, rfl, nextOrderly, perm⟩
  | set addr data => exact set_orderly orderly sized noOverflow

theorem Orderly.sound {calls : List LruCall} (orderly : Orderly cache (recent calls)) :
    Sound cache calls where
  bytes_eq := orderly.bytes
  bounded := UInt64.le_iff_toNat_le.mpr (orderly.bytes.trans_le orderly.within)
  nodup := orderly.valid.keys_nodup
  items_iff := orderly.valid.items_iff
  ordered := orderly.ordered

theorem exec_concat {calls : List LruCall} {mid : LruCache}
    (ran : exec calls cache = .ok mid) (call : LruCall) :
    exec (calls ++ [call]) cache = call.run mid := by
  induction calls generalizing cache with
  | nil =>
      obtain rfl := Res.ok.inj ran
      rw [List.nil_append, exec]
      cases call.run cache <;> rfl
  | cons first rest ih =>
      rw [List.cons_append, exec]
      rw [exec] at ran
      cases isFirst : first.run cache with
      | ok next =>
          rw [isFirst] at ran
          exact ih ran
      | err | panic | hang =>
          rw [isFirst] at ran
          cases ran

theorem recent_concat (calls : List LruCall) (call : LruCall) :
    recent (calls ++ [call]) = call.addr :: recent calls := by
  simp [recent]

theorem new_orderly (isNew : new maxBytes = some cache) : Orderly cache [] := by
  have valid := (new_valid isNew).1
  unfold new at isNew
  split at isNew
  · cases isNew
  · obtain rfl := Option.some.inj isNew
    exact ⟨valid, Nat.zero_le _, fun _ mem => absurd mem List.not_mem_nil, .nil⟩

/-- The memory of the process holds the blobs of the cache together with the data of a call. -/
def InMemory (calls : List LruCall) (cache : LruCache) : Prop :=
  ∀ before call later, calls = before ++ call :: later →
    ∀ mid, exec before cache = .ok mid → ¬ call.Overflows mid

/-- After every call of a run, the byte count is exact and bounded, the list and the table have
the same addresses once each, the list is in the order of use, and no more has been evicted than
was needed. -/
theorem run_sound (isNew : new maxBytes = some cache) {calls : List LruCall}
    (sized : ∀ call ∈ calls, call.Sized) (inMemory : InMemory calls cache) :
    ∀ before call later, calls = before ++ call :: later →
      ∃ mid next, exec before cache = .ok mid ∧ call.run mid = .ok next ∧
        exec (before ++ [call]) cache = .ok next ∧ Sound next (before ++ [call]) ∧
        call.Evicts mid next := by
  have reached : ∀ before later, calls = before ++ later →
      ∃ mid, exec before cache = .ok mid ∧ Orderly mid (recent before) := by
    intro before
    induction before using List.reverseRecOn with
    | nil => exact fun _ _ => ⟨cache, rfl, new_orderly isNew⟩
    | append_singleton before call ih =>
        intro later split
        rw [List.append_assoc] at split
        rcases ih _ split with ⟨mid, ran, orderly⟩
        rcases run_orderly orderly (sized call (by simp [split]))
          (inMemory before call later split mid ran) with ⟨next, called, nextOrderly, _⟩
        refine ⟨next, (exec_concat ran call).trans called, ?_⟩
        rw [recent_concat]
        exact nextOrderly
  intro before call later split
  rcases reached before _ split with ⟨mid, ran, orderly⟩
  rcases run_orderly orderly (sized call (by simp [split]))
    (inMemory before call later split mid ran) with ⟨next, called, nextOrderly, evicts⟩
  rw [← recent_concat] at nextOrderly
  exact ⟨mid, next, ran, called, (exec_concat ran call).trans called, nextOrderly.sound, evicts⟩

/-- Two blobs of two bytes in a cache of three. -/
def twoBlobs : List LruCall :=
  [.set ⟨1, 0, 2⟩ [1, 2], .set ⟨1, 10, 2⟩ [3, 4]]

theorem run_sound_twoBlobs :
    ∃ mid next, exec [.set ⟨1, 0, 2⟩ [1, 2]] ⟨3, 0, [], ∅, 0⟩ = .ok mid ∧
      (LruCall.set ⟨1, 10, 2⟩ [3, 4]).run mid = .ok next ∧
      exec twoBlobs ⟨3, 0, [], ∅, 0⟩ = .ok next ∧ Sound next twoBlobs ∧
      (LruCall.set ⟨1, 10, 2⟩ [3, 4]).Evicts mid next := by
  refine @run_sound ⟨3, 0, [], ∅, 0⟩ 3 rfl twoBlobs ?_ ?_ [.set ⟨1, 0, 2⟩ [1, 2]]
    (.set ⟨1, 10, 2⟩ [3, 4]) [] rfl
  · intro call mem
    simp only [twoBlobs, List.mem_cons, List.not_mem_nil, or_false] at mem
    rcases mem with rfl | rfl <;> rfl
  · intro before call later split mid ran overflows
    rcases before with _ | ⟨first, _ | ⟨second, rest⟩⟩
    · obtain rfl : LruCall.set ⟨1, 0, 2⟩ [1, 2] = call := (List.cons.inj split).1
      obtain rfl := Res.ok.inj ran
      exact absurd overflows.2.2 (by decide)
    · rcases List.cons.inj split with ⟨rfl, restEq⟩
      obtain rfl : LruCall.set ⟨1, 10, 2⟩ [3, 4] = call := (List.cons.inj restEq).1
      obtain rfl := Res.ok.inj ran
      exact absurd overflows.2.2 (by decide)
    · simp [twoBlobs] at split

end LruCache

end BriseDB
