import BriseDB.Base.Table
import BriseDB.Index.Core

/-!
# Iteration and compaction of the index

`ForEach` has two strategies.  A small index is scanned from the start of its
data region into a table that keeps the newest entry of each key, which is then
visited in the table's iteration order.  A large index is visited bucket by
bucket along the chains, where the first entry of a key is its newest.

`Compact` streams the visited entries into a new file with a larger bucket
table and puts it in the place of the old one.
-/

namespace BriseDB.Index

open File (readAt)

/-- `forEachThreshold`. -/
def forEachThreshold : Int64 :=
  100000

/-- One call of the callback of `ForEach`. -/
structure Visit where
  key : Key
  addr : NeedleAddr
  expiresAt : Int64
  deriving DecidableEq, Repr

/-- What an iteration does when its callback always asks for more: the calls it
makes, in order, and the error it ends with, if any. -/
structure Visits where
  calls : List Visit
  error : Option String
  deriving DecidableEq, Repr

/-! ## Small indexes -/

/-- `latestEntry`. -/
structure LatestEntry where
  addr : NeedleAddr
  expiresAt : Int64
  deleted : Bool
  deriving DecidableEq, Repr

/-- One round of the scan of the data region: the position and the newest
entries seen so far.  A position from `2 ^ 63` on is negative and hence before the end. -/
def scanStep (contents : Bytes) (writePos : Nat) (current : Nat × Table Key LatestEntry) :
    Res ((Nat × Table Key LatestEntry) ⊕ Except String (Table Key LatestEntry)) :=
  if writePos ≤ current.1 ∧ current.1 < 2 ^ 63 then .ok (.inr (.ok current.2))
  else
    match readEntryAt contents current.1 with
    | .error cause => .ok (.inr (.error s!"hash index ForEach at {current.1}: {cause}"))
    | .ok e =>
        .ok (.inl (current.1 + e.size,
          current.2.insert e.key ⟨e.addr, e.expiresAt, e.deleted⟩))

/-- The callback call for the newest entry of a key, unless it is a tombstone or
has expired at `now`. -/
def visitLatest (now : Time) (key : Key) (e : LatestEntry) : Option Visit :=
  if e.deleted then none
  else if 0 < e.expiresAt ∧ Time.ofNano e.expiresAt < now then none
  else some ⟨key, e.addr, e.expiresAt⟩

/-- `forEachSmall`.  Every round of the scan advances the position, so the scan
has fewer rounds than the region has bytes. -/
def forEachSmall (hi : HashIndex) (now : Time) (order : RangeOrder Key) (writePos : Nat) :
    Res Visits := do
  let scanned ← Res.loop (scanStep hi.f writePos) (writePos + 1) (hi.dataBase, ∅)
  match scanned with
  | .error cause => pure ⟨[], some cause⟩
  | .ok latest =>
      pure ⟨(latest.range order).filterMap fun entry => visitLatest now entry.1 entry.2, none⟩

/-! ## Large indexes -/

/-- The chain walk of one bucket: the offset, the keys seen in this bucket and
the calls made so far. -/
structure ChainState where
  off : Nat
  seen : List Key
  calls : List Visit

/-- One round of the chain walk of `forEachLarge`. -/
def chainStep (contents : Bytes) (nowNs : Int64) (current : ChainState) :
    Res (ChainState ⊕ Visits) :=
  if current.off = 0 then .ok (.inr ⟨current.calls, none⟩)
  else
    match readEntryAt contents current.off with
    | .error cause =>
        .ok (.inr ⟨current.calls, some s!"hash index ForEach at {current.off}: {cause}"⟩)
    | .ok e =>
        if e.key ∈ current.seen then .ok (.inl { current with off := e.next })
        else
          .ok (.inl
            { off := e.next
              seen := current.seen ++ [e.key]
              calls :=
                if e.deleted = false ∧ ¬ (0 < e.expiresAt ∧ e.expiresAt < nowNs) then
                  current.calls ++ [⟨e.key, e.addr, e.expiresAt⟩]
                else current.calls })

/-- The chain walk of one bucket. -/
def forEachSlot (hi : HashIndex) (nowNs : Int64) (slot : Nat) : Res Visits :=
  Res.loop (chainStep hi.f nowNs) (hi.f.length + 1) ⟨hi.buckets.getD slot 0, [], []⟩

/-- Visit the given buckets in order, stopping at the first error. -/
def forEachSlots (hi : HashIndex) (nowNs : Int64) : List Nat → Res Visits
  | [] => pure ⟨[], none⟩
  | slot :: rest => do
      let first ← forEachSlot hi nowNs slot
      match first.error with
      | some cause => pure ⟨first.calls, some cause⟩
      | none =>
          let others ← forEachSlots hi nowNs rest
          pure ⟨first.calls ++ others.calls, others.error⟩

/-- `forEachLarge`. -/
def forEachLarge (hi : HashIndex) (now : Time) : Res Visits :=
  forEachSlots hi (Time.unixNano now) (List.range hi.bucketCount)

/-- `ForEach`. -/
def forEach (hi : HashIndex) (now : Time) (order : RangeOrder Key) : Res Visits :=
  if hi.entryCount < forEachThreshold then forEachSmall hi now order hi.writePos
  else forEachLarge hi now

/-! ## Compaction -/

/-- The size of the new bucket table: twice the entry count, rounded up to a
power of two in 64-bit arithmetic, and at least the default. -/
def compactBuckets (entryCount : Int64) : UInt64 :=
  let need := entryCount.toUInt64 * 2
  if defaultBucketCount < need then
    ([1, 2, 4, 8, 16, 32] : List UInt64).foldl
      (fun buckets shift => buckets ||| (buckets >>> shift)) (need - 1) + 1
  else defaultBucketCount

/-- `Compact`.  A failure while the new file is written removes it; the old file
is replaced only by a complete one. -/
def compact (now : Time) (order : RangeOrder Key) : Exec HashIndex Unit := do
  let hi ← Exec.state
  let newBuckets := compactBuckets hi.entryCount
  let (opened, openResult) ← Exec.runOn (HashIndex.ofFiles hi.tmp []) (openHashIndex newBuckets)
  Exec.modify fun hi => { hi with tmp := opened.f }
  match openResult with
  | .error cause => Exec.throw s!"hash index compact: open tmp: {cause}"
  | .ok _ =>
      let visits ← Exec.ask fun hi => forEach hi now order
      let (filled, fillResult) ← Exec.runOn opened
        (Exec.each visits.calls fun visit => set visit.key visit.addr visit.expiresAt)
      match fillResult, visits.error with
      | .error cause, _ =>
          Exec.modify fun hi => { hi with tmp := [] }
          Exec.throw s!"hash index compact: write: {cause}"
      | .ok _, some cause =>
          Exec.modify fun hi => { hi with tmp := [] }
          Exec.throw s!"hash index compact: {cause}"
      | .ok _, none =>
          let (closed, _) ← Exec.runOn filled close
          Exec.modify fun hi =>
            { hi with
              f := closed.f
              tmp := []
              bucketCount := newBuckets.toNat
              dataBase := hiHeaderSize + newBuckets.toNat * 8
              bucketBase := hiHeaderSize
              writePos := closed.f.length
              entryCount := Int64.ofNat visits.calls.length }
          Exec.wrap "hash index compact: reload buckets" loadBuckets

end BriseDB.Index
