import BriseDB.Base.Locking
import BriseDB.Base.Table
import BriseDB.Types

/-!
# The keyed mutex

A `keyedMutex` has one mutex for each shard.  A call that needs one key locks the shard of
the key, a commit locks the shards of all its keys, and compaction and eviction lock all
shards.
-/

namespace BriseDB.KeyedMutex

open Locking (Plan Place)

/-- A shard of the lock. -/
abbrev Shard :=
  Fin numShards

/-- The shards that `lockShards` locks, in this order.  `order` is the order of the loop over
`seen`. -/
def lockShards (keys : List Key) (order : RangeOrder Shard) : List Shard :=
  let seen : Table Shard Bool := keys.foldl (fun seen k => seen.insert (shardIndex k) true) ∅
  let idxs := (seen.range order).map Prod.fst
  idxs.insertionSort (· ≤ ·)

theorem mem_seen (keys : List Key) (seen : Table Shard Bool) (i : Shard) :
    i ∈ keys.foldl (fun seen k => seen.insert (shardIndex k) true) seen ↔
      i ∈ seen ∨ ∃ key ∈ keys, shardIndex key = i := by
  induction keys generalizing seen with
  | nil => simp
  | cons key keys ih =>
      rw [List.foldl_cons, ih, AList.mem_insert, List.exists_mem_cons_iff]
      constructor
      · rintro ((isKey | inSeen) | inRest)
        · exact .inr (.inl isKey.symm)
        · exact .inl inSeen
        · exact .inr (.inr inRest)
      · rintro (inSeen | isKey | inRest)
        · exact .inl (.inr inSeen)
        · exact .inl (.inl isKey.symm)
        · exact .inr inRest

/-- The shards locked are those of the keys. -/
theorem mem_lockShards (keys : List Key) (order : RangeOrder Shard) (i : Shard) :
    i ∈ lockShards keys order ↔ ∃ key ∈ keys, shardIndex key = i := by
  rw [lockShards, List.mem_insertionSort, Table.map_fst_range, (order.perm _).mem_iff]
  refine (mem_seen keys ∅ i).trans ?_
  simp

/-- They are locked once each and in increasing order. -/
theorem lockShards_increasing (keys : List Key) (order : RangeOrder Shard) :
    (lockShards keys order).Pairwise (· < ·) := by
  have sorted : (lockShards keys order).Pairwise (· ≤ ·) :=
    List.pairwise_insertionSort (· ≤ ·) _
  have nodup : (lockShards keys order).Nodup := by
    rw [lockShards, (List.perm_insertionSort _ _).nodup_iff]
    exact Table.nodup_range order _
  exact sorted.imp₂ (fun _ _ => lt_of_le_of_ne) nodup

/-- A critical section. -/
inductive Section where
  | lock (key : Key)
  | rLock (key : Key)
  | lockShards (keys : List Key) (order : RangeOrder Shard)
  | lockAll

/-- The shards that a section locks. -/
def Section.plan : Section → Plan Shard
  | lock key => ⟨.write, [shardIndex key], List.pairwise_singleton _ _⟩
  | rLock key => ⟨.read, [shardIndex key], List.pairwise_singleton _ _⟩
  | lockShards keys order =>
      ⟨.write, KeyedMutex.lockShards keys order, lockShards_increasing keys order⟩
  | lockAll => ⟨.write, List.finRange numShards, List.pairwise_lt_finRange numShards⟩

variable {ι : Type} [DecidableEq ι]

/-- The state after some turns of goroutines that enter sections and go on. -/
def run (turns : List (ι × Option Section)) : Locking.State ι Section Shard :=
  turns.foldl (Locking.State.step Section.plan) .init

/-- In every state, goroutines do not wait for each other in a circle, and one that waits for
nobody goes on.  `lockShards` locks the shards of its keys, each once and in increasing order: it
takes the next one if that is free, what it has locked on its way it holds, and from its end to
`unlockShards` the goroutine holds the shard of each key, for writing and alone. -/
theorem lockShards_covers (turns : List (ι × Option Section)) :
    (∀ t, ¬ Relation.TransGen (Locking.State.Waits Section.plan (run turns)) t t) ∧
      (∀ t, (run turns).place t ≠ .outside →
        (∀ u, u ≠ t → ¬ Locking.State.Waits Section.plan (run turns) t u) →
        (run (turns ++ [(t, none)])).place t ≠ (run turns).place t) ∧
      (∀ t keys order held next rest,
        (run turns).place t = .taking (.lockShards keys order) held next rest →
        ((run turns).mutex next).writer = none → ((run turns).mutex next).readers = [] →
        ((run (turns ++ [(t, none), (t, none)])).mutex next).writer = some t ∧
          (run (turns ++ [(t, none), (t, none)])).place t =
            .proceed (.lockShards keys order) (held ++ [next]) rest) ∧
      (∀ keys order, (lockShards keys order).Pairwise (· < ·) ∧
        ∀ i, i ∈ lockShards keys order ↔ ∃ key ∈ keys, shardIndex key = i) ∧
      (∀ t keys order held next rest,
        (run turns).place t = .taking (.lockShards keys order) held next rest ∨
          (run turns).place t = .waiting (.lockShards keys order) held next rest →
        held ++ next :: rest = lockShards keys order ∧
          ∀ i ∈ held, ((run turns).mutex i).writer = some t ∧
            ((run turns).mutex i).readers = []) ∧
      ∀ t keys order, (run turns).place t = .inside (.lockShards keys order) →
        ∀ key ∈ keys, ((run turns).mutex (shardIndex key)).writer = some t ∧
          ((run turns).mutex (shardIndex key)).readers = [] := by
  have inv : (run turns).Inv Section.plan := Locking.State.Inv.init.run turns
  have alone : ∀ t i, ((run turns).place t).stance Section.plan i = .writing →
      ((run turns).mutex i).writer = some t ∧ ((run turns).mutex i).readers = [] :=
    fun t i writing =>
      ⟨((inv.agree i).writer t).mpr (.inr writing), (inv.agree i).exclusive t writing⟩
  refine ⟨inv.no_circle, fun t busy free => ?_, ?_, fun keys order =>
    ⟨lockShards_increasing keys order, mem_lockShards keys order⟩, ?_, ?_⟩
  · rw [run, List.foldl_append]
    exact inv.moves busy free
  · intro t keys order held next rest isTaking noWriter noReader
    rw [run, List.foldl_append]
    exact Locking.State.goOn_lock rfl isTaking noWriter noReader
  · rintro t keys order held next rest (placeEq | placeEq)
    · have formed := inv.formed t
      rw [placeEq] at formed
      refine ⟨formed, fun i mem => alone t i ?_⟩
      rw [placeEq]
      exact if_pos mem
    · have formed := inv.formed t
      rw [placeEq] at formed
      refine ⟨formed, fun i mem => alone t i ?_⟩
      rw [placeEq]
      exact if_pos mem
  · intro t keys order placeEq key mem
    refine alone t _ ?_
    rw [placeEq]
    exact if_pos ((mem_lockShards keys order _).mpr ⟨key, mem, rfl⟩)

/-- Two of three keys share a shard.  The goroutine locks the two shards and is inside, and a
reader of one of the keys waits for it. -/
theorem lockShards_covers_sharedShard :
    let keys : List Key := [[33], [97], [98]]
    let turns : List (Nat × Option Section) :=
      [(0, some (.lockShards keys (.asStored _))), (1, some (.rLock [97])), (0, none), (0, none),
        (0, none), (1, none), (0, none)]
    shardIndex [33] = shardIndex [97] ∧
      (run turns).place 0 = .inside (.lockShards keys (.asStored _)) ∧
      (run turns).place 1 = .waiting (.rLock [97]) [] (shardIndex [97]) [] ∧
      ∀ key ∈ keys, ((run turns).mutex (shardIndex key)).writer = some 0 ∧
        ((run turns).mutex (shardIndex key)).readers = [] := by
  intro keys turns
  have inside : (run turns).place 0 = .inside (.lockShards keys (.asStored _)) := by rfl
  refine ⟨by decide, inside, by rfl, ?_⟩
  exact (lockShards_covers turns).2.2.2.2.2 0 keys (.asStored _) inside

end BriseDB.KeyedMutex
