import BriseDB.Volume.Appends
import BriseDB.Volume.PoolRun

/-!
# The members of a group

All members of a group are meant to receive the same appends, so that an address
taken from the primary can be read from any of them.  The contents of a volume
are described by the list of blobs appended to it; two members agree on an
address when the blobs up to it agree.

Two things break the agreement.  Concurrent writers may reach the replicas in
another order than the primary, and a write that fails on one member and not on
another shifts all later blobs of one of them.
-/

namespace BriseDB

open Volume (encodeBlob)

/-- The contents of a volume to which the given blobs have been appended. -/
def blobBytes (blobs : List Bytes) : Bytes :=
  blobs.flatMap encodeBlob

@[simp]
theorem blobBytes_append (first second : List Bytes) :
    blobBytes (first ++ second) = blobBytes first ++ blobBytes second :=
  List.flatMap_append

@[simp]
theorem blobBytes_cons (data : Bytes) (rest : List Bytes) :
    blobBytes (data :: rest) = encodeBlob data ++ blobBytes rest :=
  List.flatMap_cons

@[simp]
theorem blobBytes_nil : blobBytes [] = [] :=
  rfl

namespace Volume

/-- A blob is read back behind the blobs that were appended before it. -/
theorem Intact.read_blob {v : Volume} (intact : v.Intact) {before data after : Bytes}
    (split : v.contents = before ++ (encodeBlob data ++ after)) (id : UInt32) :
    read v ⟨id, UInt64.ofNat before.length, UInt64.ofNat data.length⟩ = .ok data := by
  have total := intact.within
  rw [split, List.length_append, List.length_append, length_encodeBlob] at total
  have bound := total
  unfold File.maxSize at bound
  have offsetEq : (UInt64.ofNat before.length).toNat = before.length :=
    UInt64.toNat_ofNat_of_lt' (show before.length < 2 ^ 64 by omega)
  have sizeEq : (UInt64.ofNat data.length).toNat = data.length :=
    UInt64.toNat_ofNat_of_lt' (show data.length < 2 ^ 64 by omega)
  apply read_of_blob
  · exact sizeEq
  · omega
  · simp only [offsetEq]
    omega
  · simp only [offsetEq]
    rw [split, File.readAt_field rfl (length_encodeBlob data).symm]

end Volume

namespace VolumeManager

variable {vm : VolumeManager} {faults : List Fault}

/-- What the volume with an id holds.  A volume that is not known yet starts
empty. -/
def contentsOf (vm : VolumeManager) (id : UInt32) : Bytes :=
  match vm.volumes.lookup id with
  | none => []
  | some drive => vm.fileContents ⟨drive, id⟩

theorem contentsOf_eq {id : UInt32} {drive : Nat} {v : Volume}
    (known : vm.volumes.lookup id = some drive) (found : vm.disk.lookup ⟨drive, id⟩ = some v) :
    vm.contentsOf id = v.contents := by
  simp [contentsOf, fileContents, known, found]

theorem onVolume_eq {α : Type} {path : VolumePath} {v : Volume} (call : Exec Volume α)
    (found : vm.disk.lookup path = some v) :
    onVolume path call vm faults =
      { call v faults with
        state := { vm with disk := vm.disk.insert path (call v faults).state } } := by
  simp [onVolume, found, Exec.zoom]

/-- `WriteToVolume` writes to a volume that has what the id holds. -/
theorem writeToVolume_eq (inv : vm.Inv) (id : UInt32) (data : Bytes) (faults : List Fault) :
    ∃ opened drive v, opened.Inv ∧ opened.volumes.lookup id = some drive ∧
      opened.disk.lookup ⟨drive, id⟩ = some v ∧ v.contents = vm.contentsOf id ∧
      writeToVolume id data vm faults = onVolume ⟨drive, id⟩ (Volume.write data) opened faults := by
  unfold writeToVolume
  rw [Exec.bind_state_apply]
  cases known : vm.volumes.lookup id with
  | some drive =>
      rcases inv.volume id drive known with ⟨-, v, found⟩
      exact ⟨vm, drive, v, inv, known, found, (contentsOf_eq known found).symm, rfl⟩
  | none =>
      have opened := register_opened inv known 0
      dsimp only
      rw [if_neg (Nat.pos_iff_ne_zero.mp inv.drives_pos), Exec.bind_of_ok rfl]
      refine ⟨_, 0, _, opened.inv_all inv inv.drives_pos known,
        by rw [opened.lookup_volumes, if_pos rfl], by rw [opened.lookup_disk, if_pos rfl], ?_, rfl⟩
      simp [contentsOf, known, Volume.openVolume]

/-- A write that the environment carries out appends the blob and returns where it
starts. -/
theorem writeToVolume_completed (inv : vm.Inv) (id : UInt32) {data : Bytes}
    (fits : (vm.contentsOf id).length + (8 + data.length) ≤ File.maxSize)
    (complete : ∀ fault ∈ faults.take 2, fault = .complete) :
    ∃ next, writeToVolume id data vm faults =
        ⟨.ok ⟨id, UInt64.ofNat (vm.contentsOf id).length, UInt64.ofNat data.length⟩, next,
          faults.tail.tail, false⟩ ∧
      next.Inv ∧ next.contentsOf id = vm.contentsOf id ++ encodeBlob data := by
  rcases writeToVolume_eq inv id data faults with
    ⟨opened, drive, v, openedInv, known, found, contentsEq, eq⟩
  rcases openedInv.file _ v found with ⟨idEq, intact, -⟩
  rw [← contentsEq] at fits ⊢
  have written : Volume.write data v faults = _ :=
    @Volume.run_completed v faults (.write data) trivial ⟨fits, complete⟩
  have addrEq : v.nextAddr data =
      ⟨id, UInt64.ofNat v.contents.length, UInt64.ofNat data.length⟩ := by
    rw [Volume.nextAddr, intact.end_eq, show v.id = id from idEq]
  refine ⟨{ opened with disk := opened.disk.insert ⟨drive, id⟩ (v.append data) }, ?_, ?_, ?_⟩
  · rw [eq, onVolume_eq _ found, written, ← addrEq]
    rfl
  · exact (append_stored openedInv known found fits).inv
  · exact @contentsOf_eq { opened with disk := opened.disk.insert ⟨drive, id⟩ (v.append data) }
      id drive _ known (AList.lookup_insert _)

/-- Putting a volume back as it was. -/
theorem inv_insert_same (inv : vm.Inv) {path : VolumePath} {v : Volume}
    (found : vm.disk.lookup path = some v) :
    Inv { vm with disk := vm.disk.insert path v } := by
  have same : ∀ other, (vm.disk.insert path v).lookup other = vm.disk.lookup other := by
    intro other
    by_cases here : other = path
    · rw [here, AList.lookup_insert, found]
    · exact AList.lookup_insert_ne here
  refine ⟨inv.drives_pos, inv.drives_eq, ?_, ?_, inv.current, inv.fresh⟩
  · intro other w isFile
    exact inv.file other w ((same other).symm.trans isFile)
  · intro id drive known
    rcases inv.volume id drive known with ⟨inRange, w, isFile⟩
    exact ⟨inRange, w, (same _).trans isFile⟩

/-- A write whose header is refused leaves the contents as they are. -/
theorem writeToVolume_refused (inv : vm.Inv) (id : UInt32) (data : Bytes)
    (refused : File.maxSize < (vm.contentsOf id).length + 8 ∨ faults.head? = some (.cut 0)) :
    ∃ message next, writeToVolume id data vm faults = ⟨.err message, next, faults.tail, true⟩ ∧
      next.Inv ∧ next.contentsOf id = vm.contentsOf id := by
  rcases writeToVolume_eq inv id data faults with
    ⟨opened, drive, v, openedInv, known, found, contentsEq, eq⟩
  rw [← contentsEq] at refused ⊢
  rcases Volume.run_refused (.write data) refused with ⟨message, written⟩
  refine ⟨message, { opened with disk := opened.disk.insert ⟨drive, id⟩ v }, ?_,
    inv_insert_same openedInv found, ?_⟩
  · rw [eq, onVolume_eq _ found, show Volume.write data v faults = _ from written]
  · exact @contentsOf_eq { opened with disk := opened.disk.insert ⟨drive, id⟩ v }
      id drive _ known (AList.lookup_insert _)

/-- A write that does not fail finds room for its blob. -/
theorem writeToVolume_fits (inv : vm.Inv) {id : UInt32} {data : Bytes}
    (clean : (writeToVolume id data vm faults).failed = false) :
    (vm.contentsOf id).length + (8 + data.length) ≤ File.maxSize := by
  rcases writeToVolume_eq inv id data faults with
    ⟨opened, drive, v, -, -, found, contentsEq, eq⟩
  rw [eq] at clean
  have returns := onVolume_returns found (@Volume.write_returns False v data
    (fun _ _ => v.contents.length + (8 + data.length) ≤ File.maxSize) False.elim
      fun fits => fits)
  rcases returns.correct faults clean with ⟨_, _, _, _, fits⟩
  rw [← contentsEq]
  exact fits

/-- A blob that is among the contents of a volume is read back. -/
theorem read_blob (inv : vm.Inv) {id : UInt32} {before data after : Bytes}
    (split : vm.contentsOf id = before ++ (encodeBlob data ++ after)) (faults : List Fault) :
    read ⟨id, UInt64.ofNat before.length, UInt64.ofNat data.length⟩ vm faults =
      ⟨.ok data, vm, faults, false⟩ := by
  cases known : vm.volumes.lookup id with
  | none =>
      have longer := congrArg List.length split
      rw [contentsOf, known, List.length_append, List.length_append,
        Volume.length_encodeBlob] at longer
      simp at longer
      omega
  | some drive =>
      rcases inv.volume id drive known with ⟨-, v, found⟩
      rcases inv.file _ v found with ⟨-, intact, -⟩
      rw [contentsOf_eq known found] at split
      unfold read
      have ensured : ensureVolume id vm faults = ⟨.ok (), vm, faults, false⟩ := by
        unfold ensureVolume
        rw [Exec.bind_state_apply, known]
        rfl
      rw [Exec.bind_of_ok ensured]
      simp only [Exec.ask, known, found, intact.read_blob split id]

end VolumeManager

namespace VolumePool

/-! ## Managers of the members -/

/-- The client that `remoteByURL` selects. -/
def clientOf (p : VolumePool) (url : String) : Option Nat :=
  p.remotes.findIdx? fun remote => remote.baseURL = url

/-- The volume manager behind a member. -/
def manager (p : VolumePool) (m : VolumeMember) : Option VolumeManager :=
  if m.serverURL = "" then some p.localVM
  else (p.clientOf m.serverURL).bind fun idx => p.remotes[idx]?.map Remote.server

/-- The pool after a call of the manager behind a member. -/
def setManager (p : VolumePool) (m : VolumeMember) (vm : VolumeManager) : VolumePool :=
  if m.serverURL = "" then { p with localVM := vm }
  else
    { p with
      remotes :=
        match p.clientOf m.serverURL with
        | none => p.remotes
        | some idx => p.remotes.modify idx fun remote => { remote with server := vm } }

/-- Call the manager behind a member. -/
def onMember {α : Type} (m : VolumeMember) (call : Exec VolumeManager α) : Exec VolumePool α :=
  if m.serverURL = "" then onLocal call else onRemote m.serverURL call

variable {p : VolumePool} {m : VolumeMember} {vm : VolumeManager} {faults : List Fault}
  {id : UInt32}

theorem clientOf_modify (idx : Nat) (url : String) :
    clientOf { p with remotes := p.remotes.modify idx fun remote => { remote with server := vm } }
      url = p.clientOf url := by
  have sameURLs : (p.remotes.modify idx fun remote => { remote with server := vm }).map
      Remote.baseURL = p.remotes.map Remote.baseURL := by
    apply List.ext_getElem?
    intro other
    rw [List.getElem?_map, List.getElem?_map, List.getElem?_modify]
    cases p.remotes[other]? with
    | none => rfl
    | some remote =>
        change some (Remote.baseURL (if idx = other then _ else remote)) = _
        split <;> rfl
  have eq : ∀ remotes : List Remote, remotes.findIdx? (fun remote => remote.baseURL = url) =
      (remotes.map Remote.baseURL).findIdx? fun other => other = url := by
    intro remotes
    rw [List.findIdx?_map]
    rfl
  unfold clientOf
  rw [eq, eq]
  exact congrArg _ sameURLs

theorem clientOf_setManager (other : VolumeMember) (url : String) :
    (p.setManager other vm).clientOf url = p.clientOf url := by
  unfold setManager
  split
  · rfl
  · cases p.clientOf other.serverURL with
    | none => rfl
    | some idx => exact clientOf_modify idx url

theorem manager_setManager_self (isManager : (p.manager m).isSome) :
    (p.setManager m vm).manager m = some vm := by
  unfold manager at isManager ⊢
  rw [clientOf_setManager]
  split
  · next isLocal => rw [setManager, if_pos isLocal]
  · next isRemote =>
    rw [if_neg isRemote] at isManager
    cases client : p.clientOf m.serverURL with
    | none => simp [client] at isManager
    | some idx =>
        rw [client, Option.bind_some] at isManager
        rw [setManager, if_neg isRemote, client, Option.bind_some]
        dsimp only
        rw [List.getElem?_modify]
        cases found : p.remotes[idx]? with
        | none => simp [found] at isManager
        | some remote => simp

/-- The client with one URL is not the client with another. -/
theorem clientOf_ne {first second : String} (differ : first ≠ second) {idx other : Nat}
    (isFirst : p.clientOf first = some idx) (isSecond : p.clientOf second = some other) :
    idx ≠ other := by
  rintro rfl
  rcases List.findIdx?_eq_some_iff_getElem.mp isFirst with ⟨_, firstURL, _⟩
  rcases List.findIdx?_eq_some_iff_getElem.mp isSecond with ⟨_, secondURL, _⟩
  exact differ ((of_decide_eq_true firstURL).symm.trans (of_decide_eq_true secondURL))

theorem manager_setManager_ne {other : VolumeMember} (differ : other ≠ m) :
    (p.setManager m vm).manager other = p.manager other := by
  have urlsDiffer : m.serverURL ≠ other.serverURL := by
    intro same
    apply differ
    cases other
    cases m
    exact congrArg VolumeMember.mk same.symm
  unfold manager
  rw [clientOf_setManager]
  by_cases isLocal : m.serverURL = ""
  · rw [setManager, if_pos isLocal, if_neg fun otherLocal =>
      urlsDiffer (isLocal.trans otherLocal.symm),
      if_neg fun otherLocal => urlsDiffer (isLocal.trans otherLocal.symm)]
  · rw [setManager, if_neg isLocal]
    split
    · rfl
    · cases client : p.clientOf m.serverURL with
      | none => rfl
      | some idx =>
          cases otherClient : p.clientOf other.serverURL with
          | none => rfl
          | some otherIdx =>
              have apart := clientOf_ne urlsDiffer client otherClient
              simp only [Option.bind_some, List.getElem?_modify]
              cases p.remotes[otherIdx]? <;> simp [apart]

/-- A call of a member is a call of its manager. -/
theorem onMember_eq {α : Type} (call : Exec VolumeManager α) (isManager : p.manager m = some vm)
    (faults : List Fault) :
    onMember m call p faults =
      { call vm faults with state := p.setManager m (call vm faults).state } := by
  unfold onMember manager at *
  split
  · next isLocal =>
    rw [if_pos isLocal] at isManager
    obtain rfl := Option.some.inj isManager
    rw [setManager, if_pos isLocal]
    rfl
  · next isRemote =>
    rw [if_neg isRemote] at isManager
    rcases Option.bind_eq_some_iff.mp isManager with ⟨idx, client, isServer⟩
    rcases Option.map_eq_some_iff.mp isServer with ⟨remote, found, rfl⟩
    have selected : p.remotes.findIdx? (fun remote => remote.baseURL = m.serverURL) = some idx :=
      client
    rw [setManager, if_neg isRemote, client]
    have updated (server : VolumeManager) :
        p.remotes.modify idx (fun remote => { remote with server }) =
          p.remotes.set idx { remote with server } := by
      apply List.ext_getElem?
      intro other
      rw [List.getElem?_modify, List.getElem?_set']
      by_cases here : idx = other
      · subst here
        simp [found]
      · simp [here]
    simp only [onRemote, selected, found, Exec.zoom, updated]

/-- What the volume of a member holds. -/
def MemberHolds (p : VolumePool) (id : UInt32) (m : VolumeMember) (contents : Bytes) : Prop :=
  ∃ vm, p.manager m = some vm ∧ vm.Inv ∧ vm.contentsOf id = contents

theorem MemberHolds.of_manager {contents : Bytes} {next : VolumePool}
    (holds : p.MemberHolds id m contents) (same : next.manager m = p.manager m) :
    next.MemberHolds id m contents := by
  rcases holds with ⟨vm, isManager, rest⟩
  exact ⟨vm, same.trans isManager, rest⟩

/-- A blob is read back from a member that holds it. -/
theorem MemberHolds.read {before data after : Bytes}
    (holds : p.MemberHolds id m (before ++ (encodeBlob data ++ after))) (faults : List Fault) :
    (readFromMember m ⟨id, UInt64.ofNat before.length, UInt64.ofNat data.length⟩ p faults).res =
      .ok data := by
  rcases holds with ⟨vm, isManager, inv, contentsEq⟩
  change (onMember m _ p faults).res = _
  rw [onMember_eq _ isManager, VolumeManager.read_blob inv contentsEq]

/-! ## Writing to a member -/

/-- The outcomes that are left for the volume of a member. -/
def volumeFaults (m : VolumeMember) (faults : List Fault) : List Fault :=
  if m.serverURL = "" then faults else faults.tail

/-- The environment carries out a write to a member.  The answer of a remote server
may get lost. -/
def Delivered (m : VolumeMember) (faults : List Fault) : Prop :=
  (m.serverURL ≠ "" → faults.head? ≠ some (.cut 0)) ∧
    ∀ fault ∈ (volumeFaults m faults).take 2, fault = .complete

/-- The answer of the member arrives. -/
def Answered (m : VolumeMember) (faults : List Fault) : Prop :=
  m.serverURL ≠ "" → ∀ n, faults.head? ≠ some (.cut n)

theorem requestWrite_answered (url : String) (id : UInt32) (data : Bytes)
    (answered : ∀ n, faults.head? ≠ some (.cut n)) :
    requestWrite url id data p faults =
      onRemote url (VolumeManager.writeToVolume id data) p faults.tail := by
  unfold requestWrite
  rcases faults with _ | ⟨_ | n, rest⟩
  · rw [Exec.bind_of_ok rfl]
    rfl
  · rw [Exec.bind_of_ok rfl]
    rfl
  · exact absurd rfl (answered n)

theorem requestWrite_refused (url : String) (id : UInt32) (data : Bytes) (rest : List Fault) :
    requestWrite url id data p (.cut 0 :: rest) =
      ⟨.err "volume client write-to-volume: request failed", p, rest, true⟩ := by
  unfold requestWrite
  rw [Exec.bind_of_value rfl]
  rfl

/-- The server handles a request even when its answer gets lost. -/
theorem requestWrite_lost {url : String} {data : Bytes} {n : Nat}
    {rest left : List Fault} {addr : NeedleAddr} {next : VolumePool}
    (written : onRemote url (VolumeManager.writeToVolume id data) p rest =
      ⟨.ok addr, next, left, false⟩) :
    requestWrite url id data p (.cut (n + 1) :: rest) =
      ⟨.err "volume client write-to-volume: response lost", next, left, true⟩ := by
  have handled : (do
      let _ ← onRemote url (VolumeManager.writeToVolume id data)
      Exec.throw "volume client write-to-volume: response lost" : Exec VolumePool NeedleAddr)
        p rest =
      ⟨.err "volume client write-to-volume: response lost", next, left, false⟩ :=
    Exec.bind_of_ok written
  unfold requestWrite
  rw [Exec.bind_of_value rfl]
  exact congrArg (fun out : Out VolumePool NeedleAddr => { out with failed := true }) handled

/-- A member whose answer arrives is called once. -/
theorem writeToMember_answered (id : UInt32) (data : Bytes) (answered : Answered m faults) :
    writeToMember m id data p faults =
      onMember m (VolumeManager.writeToVolume id data) p (volumeFaults m faults) := by
  unfold writeToMember onMember volumeFaults
  by_cases isLocal : m.serverURL = ""
  · rw [if_pos isLocal, if_pos isLocal, if_pos isLocal]
  · rw [if_neg isLocal, if_neg isLocal, if_neg isLocal,
      requestWrite_answered _ _ _ (answered isLocal)]

/-- The volume of a member takes a blob, whether its answer arrives or not. -/
theorem writeToMember_delivered {contents data : Bytes} (holds : p.MemberHolds id m contents)
    (fits : contents.length + (8 + data.length) ≤ File.maxSize) (delivered : Delivered m faults) :
    ∃ out : Out VolumePool NeedleAddr, writeToMember m id data p faults = out ∧
      out.faults = (volumeFaults m faults).tail.tail ∧
      out.state.MemberHolds id m (contents ++ encodeBlob data) ∧
      (∀ other ≠ m, out.state.manager other = p.manager other) ∧
      ((∃ addr, out.res = .ok addr) ∨ ∃ message, out.res = .err message) ∧
      (Answered m faults → out.res =
        .ok ⟨id, UInt64.ofNat contents.length, UInt64.ofNat data.length⟩ ∧ out.failed = false) := by
  rcases holds with ⟨vm, isManager, inv, rfl⟩
  rcases VolumeManager.writeToVolume_completed inv id fits delivered.2 with
    ⟨next, written, nextInv, nextEq⟩
  have onMemberEq : onMember m (VolumeManager.writeToVolume id data) p (volumeFaults m faults) =
      _ := onMember_eq _ isManager _
  rw [written] at onMemberEq
  have stored : (p.setManager m next).MemberHolds id m (vm.contentsOf id ++ encodeBlob data) :=
    ⟨next, manager_setManager_self (by rw [isManager]; rfl), nextInv, nextEq⟩
  have others : ∀ other ≠ m, (p.setManager m next).manager other = p.manager other :=
    fun other differ => manager_setManager_ne differ
  refine ⟨_, rfl, ?_⟩
  by_cases answered : Answered m faults
  · rw [writeToMember_answered id data answered, onMemberEq]
    exact ⟨rfl, stored, others, .inl ⟨_, rfl⟩, fun _ => ⟨rfl, rfl⟩⟩
  · unfold Answered at answered
    push Not at answered
    rcases answered with ⟨isRemote, n, isCut⟩
    match n, faults with
    | 0, _ => exact absurd isCut (delivered.1 isRemote)
    | n + 1, first :: rest =>
        obtain rfl : first = .cut (n + 1) := Option.some.inj isCut
        unfold onMember volumeFaults at onMemberEq
        rw [if_neg isRemote, if_neg isRemote] at onMemberEq
        have lost : requestWrite m.serverURL id data p (.cut (n + 1) :: rest) = _ :=
          requestWrite_lost onMemberEq
        unfold writeToMember volumeFaults
        rw [if_neg isRemote, if_neg isRemote, lost]
        exact ⟨rfl, stored, others, .inr ⟨_, rfl⟩, fun arrives =>
          absurd rfl (arrives isRemote (n + 1))⟩

/-- An undisturbed write to a member that does not fail finds room for its blob. -/
theorem writeToMember_fits {contents data : Bytes} (holds : p.MemberHolds id m contents)
    (clean : (writeToMember m id data p []).failed = false) :
    contents.length + (8 + data.length) ≤ File.maxSize := by
  rcases holds with ⟨vm, isManager, inv, rfl⟩
  rw [writeToMember_answered id data (by simp [Answered]), onMember_eq _ isManager] at clean
  exact VolumeManager.writeToVolume_fits inv clean

/-- The volume of a member refuses a blob before its first byte, or the request does
not arrive. -/
def Refuses (p : VolumePool) (id : UInt32) (m : VolumeMember) (faults : List Fault) : Prop :=
  (m.serverURL ≠ "" ∧ faults.head? = some (.cut 0)) ∨
    Answered m faults ∧ ((volumeFaults m faults).head? = some (.cut 0) ∨
      ∀ vm, p.manager m = some vm → File.maxSize < (vm.contentsOf id).length + 8)

/-- A write that a member refuses leaves its contents as they are. -/
theorem writeToMember_refused {contents data : Bytes}
    (holds : p.MemberHolds id m contents) (refuses : p.Refuses id m faults) :
    ∃ message rest next, writeToMember m id data p faults = ⟨.err message, next, rest, true⟩ ∧
      next.MemberHolds id m contents ∧ ∀ other ≠ m, next.manager other = p.manager other := by
  rcases refuses with ⟨isRemote, notSent⟩ | ⟨answered, refused⟩
  · match faults with
    | .cut 0 :: rest =>
        unfold writeToMember
        rw [if_neg isRemote, requestWrite_refused]
        exact ⟨_, rest, p, rfl, holds, fun _ _ => rfl⟩
  · rcases holds with ⟨vm, isManager, inv, rfl⟩
    have headerRefused : File.maxSize < (vm.contentsOf id).length + 8 ∨
        (volumeFaults m faults).head? = some (.cut 0) :=
      refused.elim .inr fun full => .inl (full vm isManager)
    rcases VolumeManager.writeToVolume_refused inv id data headerRefused with
      ⟨message, next, written, nextInv, nextEq⟩
    refine ⟨message, (volumeFaults m faults).tail, p.setManager m next, ?_,
      ⟨next, manager_setManager_self (by rw [isManager]; rfl), nextInv, nextEq⟩,
      fun other differ => manager_setManager_ne differ⟩
    have onMemberEq : onMember m (VolumeManager.writeToVolume id data) p (volumeFaults m faults) =
        _ := onMember_eq _ isManager _
    rw [written] at onMemberEq
    rw [writeToMember_answered id data answered, onMemberEq]

end VolumePool

end BriseDB
