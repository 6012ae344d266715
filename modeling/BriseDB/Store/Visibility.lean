import BriseDB.Base.Sections
import BriseDB.Store.KeyedMutex
import BriseDB.Store.Session

/-!
# Commits become visible as a whole

A commit updates the index key by key while it holds the shards of all its keys, and `Get`
looks its key up while it holds the shard of the key.  Other calls go on in between.

An action is one update of the index with the expiry cache, or one lookup.  The index lets
one writer at a time publish an entry, and a lookup takes effect when it loads its bucket, so
actions are taken to be indivisible.  What calls do before they lock and after they unlock
does not concern the index.
-/

namespace BriseDB.Visibility

open Locking (Plan Work Event)
open KeyedMutex (Shard)
open Session (PendingSet blobExpiresAt)
open DB (cachedFor)

/-- What a call does to the index or asks of it while it holds its locks. -/
inductive Action where
  | setIndexFirst (context : String) (key : Key) (addr : NeedleAddr) (expiresAt : Int64)
      (cached : Option Time)
  | setExpiryFirst (context : String) (key : Key) (addr : NeedleAddr) (expiresAt : Int64)
      (cached : Option Time)
  | delete (key : Key)
  | commitDelete (key : Key)
  | get (key : Key)
  deriving DecidableEq

namespace Action

def key : Action → Key
  | setIndexFirst _ key _ _ _ => key
  | setExpiryFirst _ key _ _ _ => key
  | delete key => key
  | commitDelete key => key
  | get key => key

/-- Carry out an action. -/
def exec : Action → Exec DB Unit
  | setIndexFirst context key addr expiresAt cached =>
      Session.setIndexFirst context key addr expiresAt cached
  | setExpiryFirst context key addr expiresAt cached =>
      Session.setExpiryFirst context key addr expiresAt cached
  | delete key => do let _ ← Session.deleteLocked key
  | commitDelete key => Session.commitDelete key
  | get _ => pure ()

/-- Carry out an action, with the outcomes of its writes.  Returns whether it succeeds. -/
def act (a : Action) (faults : List Fault) (db : DB) : Bool × DB :=
  ((a.exec db faults).res = .ok (), (a.exec db faults).state)

end Action

/-- A call on the database.  The blobs of a write are stored. -/
inductive Call where
  | commit (sets : List PendingSet) (deletes : List Key) (order : RangeOrder Shard)
  | set (key : Key) (addr : NeedleAddr)
  | setEX (key : Key) (addr : NeedleAddr) (exp : Time)
  | setBlob (key : Key) (addr : NeedleAddr) (exp : Option Time)
  | delete (key : Key)
  | get (key : Key)

namespace Call

/-- The critical section of the call. -/
def section_ : Call → KeyedMutex.Section
  | commit sets deletes order => .lockShards (sets.map PendingSet.key ++ deletes) order
  | set key _ => .lock key
  | setEX key _ _ => .lock key
  | setBlob key _ _ => .lock key
  | delete key => .lock key
  | get key => .rLock key

/-- What it does there. -/
def body : Call → List Action
  | commit sets deletes _ =>
      sets.map (fun ps => .setExpiryFirst "commit: update index" ps.key ps.addr ps.expiresAt
        (cachedFor ps.expiresAt)) ++ deletes.map .commitDelete
  | set key addr => [.setIndexFirst "set: update index" key addr 0 none]
  | setEX key addr exp =>
      [.setIndexFirst "setex: update index" key addr (Time.unixNano exp) (some exp)]
  | setBlob key addr exp =>
      [.setExpiryFirst "setblob: update index" key addr (blobExpiresAt exp) exp]
  | delete key => [.delete key]
  | get key => [.get key]

/-- The keys of a call. -/
theorem mem_section (call : Call) {a : Action} (mem : a ∈ call.body) :
    shardIndex a.key ∈ call.section_.plan.locks := by
  cases call with
  | commit sets deletes order =>
      refine (KeyedMutex.mem_lockShards _ order _).mpr ⟨a.key, ?_, rfl⟩
      rcases List.mem_append.mp mem with isSet | isDelete
      · rcases List.mem_map.mp isSet with ⟨ps, inSets, rfl⟩
        exact List.mem_append_left _ (List.mem_map_of_mem inSets)
      · rcases List.mem_map.mp isDelete with ⟨key, inDeletes, rfl⟩
        exact List.mem_append_right _ inDeletes
  | set | setEX | setBlob | delete | get =>
      obtain rfl := List.mem_singleton.mp mem
      exact List.mem_singleton_self _

end Call

variable {ι : Type} [DecidableEq ι]

/-- The state after calls on a database have taken turns. -/
def run (calls : ι → Call) (db : DB) (turns : List (ι × List Fault)) :
    Work ι Shard Action (List Fault) DB :=
  (Work.init db).run (fun c => (calls c).section_.plan) (fun c => (calls c).body) Action.act turns

/-- The call is a `Get` of the key that is about to look it up. -/
def LooksUp (calls : ι → Call) (w : Work ι Shard Action (List Fault) DB) (c : ι) (key : Key) :
    Prop :=
  calls c = .get key ∧ w.locks.place c = .inside c ∧ w.todo c = some [.get key]

/-- If a `Get` looks its key up after a commit has updated the key, every later lookup of a
key of the commit comes after the commit's update of that key, in the index that the updates
so far have made. -/
theorem commit_visible {calls : ι → Call} {db : DB} {turns : List (ι × List Fault)}
    {reader c : ι} {sets : List PendingSet} {deletes : List Key} {order : RangeOrder Shard}
    {key : Key} (isCommit : calls c = .commit sets deletes order)
    (noFailure : ∀ e ∈ (run calls db turns).history, e.ok = true)
    (looksUp : LooksUp calls (run calls db turns) reader key)
    (updated : ∃ e ∈ (run calls db turns).history, e.call = c ∧ e.act.key = key) :
    ∀ later other otherKey,
      LooksUp calls (run calls db (turns ++ later)) other otherKey →
      otherKey ∈ sets.map PendingSet.key ++ deletes →
      (run calls db (turns ++ later)).data =
          Work.replay Action.act db (run calls db (turns ++ later)).history ∧
        ∃ e ∈ (run calls db (turns ++ later)).history, e.call = c ∧ e.act.key = otherKey := by
  intro later other otherKey _ isKey
  refine ⟨Work.data_run db (turns ++ later), ?_⟩
  have inv : (run calls db turns).Inv (fun c => (calls c).section_.plan) fun c => (calls c).body :=
    (Work.Inv.init db).run turns
  rcases updated with ⟨e, mem, rfl, rfl⟩
  rcases looksUp with ⟨isGet, isInside, -⟩
  have ne : e.call ≠ reader := by
    rintro same
    rw [same, isGet] at isCommit
    cases isCommit
  have guarded := (calls e.call).mem_section (inv.mem_body noFailure mem)
  have whole : Work.doneBy e.call (run calls db turns).history = (calls e.call).body := by
    refine inv.whole noFailure isInside ne ?_ guarded ?_ mem rfl
    · rw [isGet]
      exact List.mem_singleton_self _
    · rw [isCommit]
      rfl
  have inBody : ∃ a ∈ (calls e.call).body, a.key = otherKey := by
    rw [isCommit]
    rcases List.mem_append.mp isKey with isSet | isDelete
    · rcases List.mem_map.mp isSet with ⟨ps, inSets, rfl⟩
      exact ⟨_, List.mem_append_left _ (List.mem_map_of_mem inSets), rfl⟩
    · exact ⟨_, List.mem_append_right _ (List.mem_map_of_mem isDelete), rfl⟩
  rcases inBody with ⟨a, inBody, rfl⟩
  rw [← whole] at inBody
  rcases List.mem_map.mp inBody with ⟨found, isDone, rfl⟩
  rcases List.mem_filter.mp isDone with ⟨inHistory, sameCall⟩
  have grows : (run calls db turns).history <+: (run calls db (turns ++ later)).history := by
    rw [run, run, Work.run, Work.run, List.foldl_append]
    exact Work.history_prefix _ later
  exact ⟨found, grows.subset inHistory, of_decide_eq_true sameCall, rfl⟩

/-- A database without keys, with one bucket behind the header of its index. -/
def noKeys : DB where
  hindex := ⟨Index.encodeHeader 1 72 0 ++ List.replicate 8 0, [], 1, 64, 72, 72, 0, [0]⟩
  expiry _ := ∅
  volumes := VolumePool.newVolumePool (VolumeManager.newVolumeManager 0 0 ∅) [] ∅ 1 0 (.asStored _)
  walFile := []
  walSynced := 0
  walCh := []
  walWriterErr := none
  walErr := none
  fsyncMode := .no
  replicas := []

/-- A commit that sets two keys, and a `Get` of each. -/
def setsTwo : Fin 3 → Call
  | 0 => .commit [⟨[1], [7], ⟨1, 0, 1⟩, 0⟩, ⟨[2], [8], ⟨1, 9, 1⟩, 0⟩] [] (.asStored _)
  | 1 => .get [1]
  | 2 => .get [2]

/-- The commit as a whole, and the first `Get` up to its lookup. -/
def commitFirst : List (Fin 3 × List Fault) :=
  List.replicate 10 (0, []) ++ List.replicate 2 (1, [])

/-- The second `Get` then finds what the commit has set. -/
theorem commit_visible_setsTwo :
    Index.get (run setsTwo noKeys (commitFirst ++ List.replicate 2 (2, []))).data.hindex [2] =
        .ok (some (⟨1, 9, 1⟩, 0)) ∧
      ∃ e ∈ (run setsTwo noKeys (commitFirst ++ List.replicate 2 (2, []))).history,
        e.call = 0 ∧ e.act.key = [2] := by
  have noFailure : ∀ e ∈ (run setsTwo noKeys commitFirst).history, e.ok = true := by
    decide +kernel
  have looksUp : LooksUp setsTwo (run setsTwo noKeys commitFirst) 1 [1] :=
    ⟨rfl, by decide +kernel, by decide +kernel⟩
  have looksUpLater : LooksUp setsTwo
      (run setsTwo noKeys (commitFirst ++ List.replicate 2 (2, []))) 2 [2] :=
    ⟨rfl, by decide +kernel, by decide +kernel⟩
  have updated : ∃ e ∈ (run setsTwo noKeys commitFirst).history,
      e.call = 0 ∧ e.act.key = [1] := by
    decide +kernel
  have visible := (commit_visible (show setsTwo 0 = .commit _ _ _ from rfl) noFailure looksUp
    updated _ 2 [2] looksUpLater (by simp)).2
  exact ⟨by decide +kernel, visible⟩

end BriseDB.Visibility
