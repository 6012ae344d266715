import BriseDB.Volume.Allocation

/-!
# Streams

`WriteStream` goes one of two ways.  If the group it gets is the local manager alone, the
stream is copied into a volume of the manager, behind a header with the announced size, and
is refused if it turns out to be longer or shorter.  Otherwise everything the reader yields
is buffered and written as a blob, and nobody looks at the announced size.
-/

namespace BriseDB

/-- The reader ends without an error after the announced number of bytes. -/
def Reader.Yields (r : Reader) (size : Int64) : Prop :=
  r.error = none ∧ (r.data.length : Int) = size.toInt

/-- A volume takes a stream of the announced size only. -/
theorem Volume.writeStream_yields {v : Volume} {r : Reader} {size : Int64} :
    (writeStream r size).Ends v (fun _ _ => r.Yields size) fun _ => True := by
  unfold writeStream
  refine .bind_state (.bind (.wrap (.of_leaves fun _ => trivial)) fun _ _ _ =>
    .bind (.wrap (.of_leaves fun _ => trivial)) fun _ _ _ => ?_)
  cases failed : r.error with
  | some cause => exact .throw trivial
  | none =>
      dsimp only
      by_cases differ : (r.data.length : Int) ≠ size.toInt
      · rw [if_pos differ]
        exact .throw trivial
      · rw [if_neg differ]
        exact .bind_modify (.pure ⟨failed, not_not.mp differ⟩)

/-- So does the manager. -/
theorem VolumeManager.writeStream_yields {vm : VolumeManager} {r : Reader} {size : Int64} :
    (writeStream r size).Ends vm (fun _ _ => r.Yields size) fun _ => True := by
  refine .bind (.of_leaves fun _ => trivial) fun path next _ faults => ?_
  unfold onVolume
  cases next.disk.lookup path with
  | none => exact trivial
  | some v => exact Volume.writeStream_yields faults

namespace VolumePool

open VolumeManager (lastID)

variable {p : VolumePool} {room : Prop}

theorem getOrCreateGroup_chosen :
    getOrCreateGroup.Ends p (fun group _ => group = p.chosen) fun _ => True := by
  unfold getOrCreateGroup
  refine .bind_state ?_
  cases reused : p.reusableGroup with
  | some group => exact .pure (by simp only [chosen, reused, Option.getD])
  | none =>
      refine .bind_put (.bind (.of_leaves fun _ => trivial) fun _ _ _ => .pure ?_)
      simp only [chosen, reused, Option.getD]

/-- And a pool whose next group is the local manager alone. -/
theorem writeStream_single {r : Reader} {size : Int64} (single : p.chosen.members = [⟨""⟩]) :
    (writeStream r size).Ends p (fun _ _ => r.Yields size) fun _ => True := by
  refine .bind getOrCreateGroup_chosen ?_
  rintro _ next rfl
  rw [if_pos single]
  exact .zoom VolumeManager.writeStream_yields

/-- With more members, what the reader yields is stored, whatever its length. -/
theorem writeStream_several (inv : p.Inv) {data : Bytes} (size : Int64)
    (several : p.chosen.members ≠ [⟨""⟩]) (roomy : room → p.Room (p.cost data)) :
    (writeStream ⟨data, none⟩ size).Returns room p fun addr next => Stored p next addr data := by
  refine .bind ((getOrCreateGroup_returns inv).and_ends getOrCreateGroup_chosen) ?_
  rintro _ q ⟨⟨consulted, _⟩, rfl⟩
  rw [if_neg several]
  exact consulted.write_returns roomy

/-- Unless the reader ends without an error. -/
theorem writeStream_failing {r : Reader} (size : Int64) (failing : r.error ≠ none) :
    (writeStream r size).Ends p (fun _ _ => False) fun _ => True := by
  refine .bind (.of_leaves fun _ => trivial) fun group next _ => ?_
  by_cases single : group.members = [⟨""⟩]
  · rw [if_pos single]
    exact .zoom (VolumeManager.writeStream_yields.mono (fun _ _ yields => failing yields.1)
      fun _ => id)
  · rw [if_neg single]
    cases failed : r.error with
    | some cause => exact .throw trivial
    | none => exact absurd failed failing

/-- The call has returned an address at which the data is read back. -/
def ReadsBack (out : Out VolumePool NeedleAddr) (data : Bytes) : Prop :=
  ∃ addr, out.res = .ok addr ∧ (read addr out.state []).res = .ok data

theorem Stored.readsBack {out : Out VolumePool NeedleAddr} {addr : NeedleAddr} {data : Bytes}
    (returned : out.res = .ok addr) (stored : Stored p out.state addr data) :
    ReadsBack out data := by
  have reads := @read_returns out.state True data addr stored.inv stored.holds
  rcases reads.correct [] (reads.undisturbed trivial).1 with ⟨_, readEq, rfl, _⟩
  exact ⟨addr, returned, readEq⟩

/-- The stream is accepted if and only if the reader yields what was announced, and is then
read back, as it is after a `Write` of the same bytes in which no write fails. -/
structure Agrees (p : VolumePool) (r : Reader) (size : Int64) (faults : List Fault) : Prop where
  accepts : (∃ addr, (writeStream r size p faults).res = .ok addr) ↔ r.Yields size
  readsBack : r.Yields size → ReadsBack (writeStream r size p faults) r.data
  write : ∀ others, (write r.data p others).failed = false →
    ReadsBack (write r.data p others) r.data

/-- The two ways agree on a stream exactly if it goes to the local manager alone, or ends
with an error, or has the announced size. -/
theorem writeStream_agrees_iff (inv : p.Inv) (unused : p.localVM.volumes.lookup lastID = none)
    (r : Reader) (size : Int64) (faults : List Fault)
    (clean : (writeStream r size p faults).failed = false) :
    p.Agrees r size faults ↔ p.chosen.members = [⟨""⟩] ∨ r.error ≠ none ∨
      (r.data.length : Int) = size.toInt := by
  have writes : ∀ others, (write r.data p others).failed = false →
      ReadsBack (write r.data p others) r.data := by
    intro others noFailure
    rcases (@write_returns p False r.data inv False.elim).correct others noFailure with
      ⟨addr, returned, stored⟩
    exact stored.readsBack returned
  have announced : r.Yields size → ReadsBack (writeStream r size p faults) r.data := by
    rcases r with ⟨data, error⟩
    rintro ⟨rfl, sizeEq⟩
    rcases (@writeStream_returns p False data inv unused size sizeEq False.elim).correct faults
      clean with ⟨addr, returned, stored⟩
    exact stored.readsBack returned
  constructor
  · intro agrees
    by_contra neither
    rw [not_or, not_or, not_not] at neither
    rcases neither with ⟨several, noError, differ⟩
    rcases r with ⟨data, error⟩
    obtain rfl := noError
    rcases (@writeStream_several p False inv data size several False.elim).correct faults clean with
      ⟨addr, returned, _⟩
    exact differ (agrees.accepts.mp ⟨addr, returned⟩).2
  · intro condition
    refine ⟨⟨?_, fun yields => ?_⟩, announced, writes⟩
    · rintro ⟨addr, returned⟩
      rcases condition with single | failing | sizeEq
      · exact (writeStream_single single).returned returned
      · exact ((writeStream_failing size failing).returned returned).elim
      · by_cases noError : r.error = none
        · exact ⟨noError, sizeEq⟩
        · exact ((writeStream_failing size noError).returned returned).elim
    · rcases announced yields with ⟨addr, returned, _⟩
      exact ⟨addr, returned⟩

/-- An empty drive and a remote server with one, with two members to a group. -/
def mirrored : VolumePool :=
  newVolumePool (VolumeManager.newVolumeManager 1 100 ∅)
    [⟨"http://mirror", VolumeManager.newVolumeManager 1 100 ∅⟩] ∅ 2 0 (.asStored _)

theorem mirrored_inv : mirrored.Inv := by
  have unused : (VolumeManager.newVolumeManager 1 100 ∅).volumes.lookup lastID = none := by
    decide +kernel
  have emptyInv := (VolumeManager.newVolumeManager_empty 100 (by decide) unused).1
  have remoteInv : ∀ remote ∈ [Remote.mk "http://mirror" (VolumeManager.newVolumeManager 1 100 ∅)],
      remote.server.Inv := by
    intro remote mem
    rw [List.mem_singleton.mp mem]
    exact emptyInv
  rcases @newVolumePool_inv _ _ ∅ 2 0 (.asStored _) emptyInv (fun _ => remoteInv) (by simp) with
    ⟨p, poolEq, inv, -⟩
  rw [mirrored, poolEq]
  exact inv

theorem writeStream_agrees_iff_mirrored : mirrored.Agrees ⟨[1, 2, 3], none⟩ 3 [] :=
  (writeStream_agrees_iff mirrored_inv (by decide +kernel) _ 3 [] (by decide +kernel)).mpr
    (.inr (.inr (by decide)))

/-- Three bytes announced as five are stored on two members, although one member alone
refuses them. -/
theorem writeStream_short :
    (writeStream ⟨[1, 2, 3], none⟩ 5 mirrored []).res = .ok ⟨2, 0, 3⟩ ∧
      (writeStream ⟨[1, 2, 3], none⟩ 5 mirrored []).failed = false ∧
      (writeStream ⟨[1, 2, 3], none⟩ 5 smallVolumes.pool []).res =
        .err "volume 0: expected 5 bytes, got 3" := by
  decide +kernel

end VolumePool

end BriseDB
