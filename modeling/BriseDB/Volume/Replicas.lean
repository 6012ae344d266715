import BriseDB.Volume.Group

/-!
# Runs of a replicated group

A blob that is written to a group is appended to the volume of every member, and
the address that the primary has returned stands for all of them.  This is right
as long as the members hold the same bytes.

A sequential run keeps them equal when each write is carried out by all members
or refused by the primary, and no append is under way when the next write begins.
A write that a replica misses shifts all later blobs of the other members.

Concurrent writers keep them equal when every replica appends the blobs in the
order in which the primary does.  `Write` does not wait for its turn, so two
blobs of the same length can change places on a replica.
-/

namespace BriseDB

open Volume (encodeBlob)

namespace VolumePool

variable {p : VolumePool} {g : VolumeGroup}

/-- All members of a group hold the same bytes. -/
def Agree (p : VolumePool) (g : VolumeGroup) (contents : Bytes) : Prop :=
  ∀ m ∈ g.members, p.MemberHolds g.id m contents

/-! ## One write to a group -/

/-- The environment carries out the writes to several members, one after the
other. -/
def DeliveredToAll : List VolumeMember → List Fault → Prop
  | [], _ => True
  | m :: rest, faults => Delivered m faults ∧ DeliveredToAll rest (volumeFaults m faults).tail.tail

/-- The answers of several members arrive. -/
def AnsweredByAll : List VolumeMember → List Fault → Prop
  | [], _ => True
  | m :: rest, faults => Answered m faults ∧ AnsweredByAll rest (volumeFaults m faults).tail.tail

/-- A blob is refused by the primary or carried out by all members.  The answer of a single
replica may get lost; with several replicas `Write` would then return while other appends are
under way. -/
def AllOrNone (p : VolumePool) (id : UInt32) (data : Bytes) :
    List VolumeMember → List Fault → Prop
  | [], _ => True
  | primary :: replicas, faults =>
      p.Refuses id primary faults ∨
        Answered primary faults ∧ DeliveredToAll (primary :: replicas) faults ∧
          (1 < replicas.length → AnsweredByAll (primary :: replicas) faults) ∧
          ∀ m ∈ primary :: replicas, ∀ vm, p.manager m = some vm →
            (vm.contentsOf id).length + (8 + data.length) ≤ File.maxSize

theorem AllOrNone.of_manager {next : VolumePool} {id : UInt32} {data : Bytes}
    {members : List VolumeMember} {faults : List Fault} (whole : AllOrNone p id data members faults)
    (same : ∀ m, next.manager m = p.manager m) : AllOrNone next id data members faults := by
  cases members with
  | nil => trivial
  | cons primary replicas => simpa only [AllOrNone, Refuses, same] using whole

/-- Every replica takes a blob, whether the answers arrive or not. -/
theorem replicate_delivered (g : VolumeGroup) {data contents : Bytes}
    (fits : contents.length + (8 + data.length) ≤ File.maxSize) (idx : Nat)
    (members : List VolumeMember) (distinct : members.Nodup) (p : VolumePool)
    (holds : ∀ m ∈ members, p.MemberHolds g.id m contents) (faults : List Fault)
    (delivered : DeliveredToAll members faults) :
    ∃ failure next rest failed,
      replicate g data idx members p faults = ⟨.ok failure, next, rest, failed⟩ ∧
        (∀ m ∈ members, next.MemberHolds g.id m (contents ++ encodeBlob data)) ∧
        ∀ other ∉ members, next.manager other = p.manager other := by
  induction members generalizing idx p faults with
  | nil => exact ⟨none, p, faults, false, rfl, by simp, fun _ _ => rfl⟩
  | cons m members ih =>
      rcases List.nodup_cons.mp distinct with ⟨notLater, laterDistinct⟩
      rcases writeToMember_delivered (holds m List.mem_cons_self) fits delivered.1 with
        ⟨out, written, outFaults, stored, others, answer, -⟩
      have laterHolds : ∀ other ∈ members, out.state.MemberHolds g.id other contents := by
        intro other later
        have differ : other ≠ m := by
          rintro rfl
          exact notLater later
        exact (holds other (List.mem_cons_of_mem m later)).of_manager (others other differ)
      rcases ih (idx + 1) laterDistinct out.state laterHolds out.faults
          (outFaults ▸ delivered.2) with ⟨failure, next, rest, failed, laterEq, laterStored,
            laterSame⟩
      have attempted : ∃ result, Exec.attempt (writeToMember m g.id data) p faults =
          ⟨.ok result, out.state, out.faults, out.failed⟩ := by
        simp only [Exec.attempt, written]
        rcases answer with ⟨addr, ok⟩ | ⟨message, err⟩
        · rw [ok]
          exact ⟨_, rfl⟩
        · rw [err]
          exact ⟨_, rfl⟩
      rcases attempted with ⟨result, attemptEq⟩
      have memberStored : next.MemberHolds g.id m (contents ++ encodeBlob data) :=
        stored.of_manager (laterSame m notLater)
      have returned : ∃ answer failed, replicate g data idx (m :: members) p faults =
          ⟨.ok answer, next, rest, failed⟩ := by
        simp only [replicate]
        rw [Exec.bind_of_value attemptEq, Exec.bind_of_value laterEq]
        cases result with
        | error cause => exact ⟨_, _, rfl⟩
        | ok addr => exact ⟨_, _, rfl⟩
      rcases returned with ⟨answer, failed, eq⟩
      refine ⟨answer, next, rest, failed, eq, ?_, ?_⟩
      · intro other member
        rcases List.mem_cons.mp member with rfl | later
        · exact memberStored
        · exact laterStored other later
      · intro other apart
        rw [List.mem_cons, not_or] at apart
        exact (laterSame other apart.2).trans (others other apart.1)

/-- Choosing a group calls no member. -/
theorem getOrCreateGroup_manager (p : VolumePool) (faults : List Fault) (m : VolumeMember) :
    (getOrCreateGroup p faults).state.manager m = p.manager m := by
  unfold getOrCreateGroup
  rw [Exec.bind_state_apply]
  cases p.reusableGroup with
  | some group => rfl
  | none =>
      match faults with
      | [] | .complete :: _ | .cut _ :: _ => rfl

/-- `Write` behind the choice of the group. -/
def writeGroup (g : VolumeGroup) (data : Bytes) : Exec VolumePool NeedleAddr :=
  match g.members with
  | [] => Exec.panic "index out of range"
  | primary :: replicas => do
      let primaryAddr ← Exec.wrap s!"volume group {g.id} primary write"
        (writeToMember primary g.id data)
      let failure ← replicate g data 1 replicas
      match failure with
      | some message => Exec.throw message
      | none => pure ⟨g.id, primaryAddr.offset, primaryAddr.size⟩

/-- What a write to a group leads to: nothing, or the same blob on all members.  The
address it returns is where the blob starts. -/
def WroteWhole (g : VolumeGroup) (contents data : Bytes) (out : Out VolumePool NeedleAddr) : Prop :=
  (out.state.Agree g contents ∧ ∀ addr, out.res ≠ .ok addr) ∨
    out.state.Agree g (contents ++ encodeBlob data) ∧
      ∀ addr, out.res = .ok addr →
        addr = ⟨g.id, UInt64.ofNat contents.length, UInt64.ofNat data.length⟩

theorem writeGroup_wroteWhole {contents data : Bytes} {faults : List Fault}
    (distinct : g.members.Nodup) (agree : p.Agree g contents)
    (whole : AllOrNone p g.id data g.members faults) :
    WroteWhole g contents data (writeGroup g data p faults) := by
  rcases g with ⟨id, members⟩
  cases members with
  | nil => exact .inl ⟨agree, fun addr ok => nomatch ok⟩
  | cons primary replicas =>
      rcases List.nodup_cons.mp distinct with ⟨notReplica, replicasDistinct⟩
      have primaryHolds : p.MemberHolds id primary contents := agree primary List.mem_cons_self
      have replicaNe : ∀ m ∈ replicas, m ≠ primary := by
        rintro m member rfl
        exact notReplica member
      have replicaHolds : ∀ m ∈ replicas, p.MemberHolds id m contents :=
        fun m member => agree m (List.mem_cons_of_mem primary member)
      rcases whole with refuses | ⟨answered, delivered, -, fits⟩
      · rcases writeToMember_refused primaryHolds refuses with
          ⟨message, rest, next, written, stillHolds, others⟩
        have eq : writeGroup ⟨id, primary :: replicas⟩ data p faults = _ :=
          Exec.bind_of_err (Exec.wrap_of_err _ written)
        rw [eq]
        refine .inl ⟨?_, fun addr ok => nomatch ok⟩
        intro m member
        rcases List.mem_cons.mp member with rfl | replica
        · exact stillHolds
        · exact (replicaHolds m replica).of_manager (others m (replicaNe m replica))
      · have roomy : contents.length + (8 + data.length) ≤ File.maxSize := by
          rcases primaryHolds with ⟨vm, isManager, -, contentsEq⟩
          rw [← contentsEq]
          exact fits primary List.mem_cons_self vm isManager
        rcases writeToMember_delivered primaryHolds roomy delivered.1 with
          ⟨⟨res, middle, rest, failed⟩, written, outFaults, stored, others, -, answer⟩
        rcases answer answered with ⟨rfl, rfl⟩
        obtain rfl : rest = _ := outFaults
        have laterHolds : ∀ m ∈ replicas, middle.MemberHolds id m contents := fun m replica =>
          (replicaHolds m replica).of_manager (others m (replicaNe m replica))
        rcases replicate_delivered ⟨id, primary :: replicas⟩ roomy 1 replicas replicasDistinct
            middle laterHolds _ delivered.2 with
          ⟨failure, next, left, failed, replicated, allStored, same⟩
        have eq : writeGroup ⟨id, primary :: replicas⟩ data p faults = _ :=
          Exec.bind_of_ok (Exec.wrap_of_ok _ written)
        rw [eq, Exec.bind_of_value replicated]
        have nextAgree : next.Agree ⟨id, primary :: replicas⟩ (contents ++ encodeBlob data) := by
          intro m member
          rcases List.mem_cons.mp member with rfl | replica
          · exact stored.of_manager (same m notReplica)
          · exact allStored m replica
        cases failure with
        | some message => exact .inr ⟨nextAgree, fun addr ok => nomatch ok⟩
        | none => exact .inr ⟨nextAgree, fun addr ok => (Res.ok.inj ok).symm⟩

/-- A write that is carried out by all members or refused by the primary keeps the
members equal. -/
theorem write_wroteWhole {contents data : Bytes} {faults : List Fault} (distinct : g.members.Nodup)
    (agree : p.Agree g contents)
    (chosen : ∀ group, (getOrCreateGroup p faults).res = .ok group → group = g)
    (whole : AllOrNone p g.id data g.members (getOrCreateGroup p faults).faults) :
    WroteWhole g contents data (write data p faults) := by
  have openedAgree : (getOrCreateGroup p faults).state.Agree g contents := fun m member =>
    (agree m member).of_manager (getOrCreateGroup_manager p faults m)
  have openedWhole : AllOrNone (getOrCreateGroup p faults).state g.id data g.members
      (getOrCreateGroup p faults).faults :=
    whole.of_manager (getOrCreateGroup_manager p faults)
  change WroteWhole g contents data (Exec.bind getOrCreateGroup (fun g => writeGroup g data)
    p faults)
  unfold Exec.bind
  dsimp only
  split
  · next group ok =>
    obtain rfl := chosen group ok
    exact writeGroup_wroteWhole distinct openedAgree openedWhole
  · exact .inl ⟨openedAgree, fun addr ok => nomatch ok⟩
  · exact .inl ⟨openedAgree, fun addr ok => nomatch ok⟩
  · exact .inl ⟨openedAgree, fun addr ok => nomatch ok⟩

/-! ## Sequential runs -/

/-- A run of `Write`, each call with the outcomes of its file writes and requests. -/
def writes (run : List (Bytes × List Fault)) : Run :=
  run.map fun call => (.write call.1, call.2)

/-- Every call goes to the group, and is carried out by all members or refused by the
primary. -/
def InStep (g : VolumeGroup) : VolumePool → List (Bytes × List Fault) → Prop
  | _, [] => True
  | p, (data, faults) :: rest =>
      let chosen := getOrCreateGroup p faults
      (∀ group, chosen.res = .ok group → group = g) ∧
        AllOrNone p g.id data g.members chosen.faults ∧
        InStep g ((PoolEvent.write data).run p faults).state rest

/-- A blob of a group starts where its address says. -/
def Starts (g : VolumeGroup) (contents : Bytes) (stored : NeedleAddr × Bytes) : Prop :=
  ∃ before after, contents = before ++ (encodeBlob stored.2 ++ after) ∧
    stored.1 = ⟨g.id, UInt64.ofNat before.length, UInt64.ofNat stored.2.length⟩

/-- The step of a run that calls `Write`. -/
theorem run_write (p : VolumePool) (data : Bytes) (faults : List Fault) :
    ((PoolEvent.write data).run p faults).state = (write data p faults).state ∧
      ∀ stored, PoolEvent.stored ((PoolEvent.write data).run p faults) = some stored →
        (write data p faults).res = .ok stored.1 ∧ stored.2 = data := by
  change (Exec.bind (write data) _ p faults).state = _ ∧
    ∀ stored, PoolEvent.stored (Exec.bind (write data) _ p faults) = some stored → _
  unfold Exec.bind
  dsimp only
  split
  · next addr ok =>
    refine ⟨rfl, fun stored eq => ?_⟩
    obtain rfl : (addr, data) = stored := Option.some.inj eq
    exact ⟨ok, rfl⟩
  · exact ⟨rfl, fun stored eq => nomatch eq⟩
  · exact ⟨rfl, fun stored eq => nomatch eq⟩
  · exact ⟨rfl, fun stored eq => nomatch eq⟩

/-- After a run the members are equal, and every address that was returned is where
its blob starts. -/
theorem InStep.agree {contents : Bytes} (distinct : g.members.Nodup) (agree : p.Agree g contents)
    {run : List (Bytes × List Fault)} (inStep : InStep g p run) :
    ∃ added, (after p (writes run)).Agree g (contents ++ added) ∧
      ∀ stored ∈ returned p (writes run), Starts g (contents ++ added) stored := by
  induction run generalizing p contents with
  | nil => exact ⟨[], by simpa [writes, after] using agree, fun stored member => nomatch member⟩
  | cons call run ih =>
      rcases call with ⟨data, faults⟩
      rcases inStep with ⟨chosen, whole, later⟩
      rcases run_write p data faults with ⟨stateEq, storedEq⟩
      rw [stateEq] at later
      rcases write_wroteWhole distinct agree chosen whole with
        ⟨sameAgree, notStored⟩ | ⟨nextAgree, addrEq⟩
      · rcases ih sameAgree later with ⟨added, lastAgree, starts⟩
        refine ⟨added, ?_, ?_⟩
        · change (after ((PoolEvent.write data).run p faults).state (writes run)).Agree g _
          rwa [stateEq]
        · intro stored member
          rcases List.mem_append.mp member with here | laterStored
          · exact absurd (storedEq stored (Option.mem_toList.mp here)).1 (notStored _)
          · rw [stateEq] at laterStored
            exact starts stored laterStored
      · rcases ih nextAgree later with ⟨added, lastAgree, starts⟩
        rw [List.append_assoc] at lastAgree starts
        refine ⟨encodeBlob data ++ added, ?_, ?_⟩
        · change (after ((PoolEvent.write data).run p faults).state (writes run)).Agree g _
          rwa [stateEq]
        · intro stored member
          rcases List.mem_append.mp member with here | laterStored
          · rcases storedEq stored (Option.mem_toList.mp here) with ⟨ok, rfl⟩
            exact ⟨contents, added, rfl, addrEq _ ok⟩
          · rw [stateEq] at laterStored
            exact starts stored laterStored

/-- A pool with one remote server, both without blobs. -/
def pairOfServers : VolumePool :=
  newVolumePool (VolumeManager.newVolumeManager 1 100 ∅)
    [⟨"replica", VolumeManager.newVolumeManager 1 100 ∅⟩] ∅ 2 0 (.asStored _)

/-- The first group of that pool. -/
def pairOfMembers : VolumeGroup :=
  ⟨1, [⟨""⟩, ⟨"replica"⟩]⟩

theorem pairOfServers_manager : ∀ m ∈ pairOfMembers.members,
    pairOfServers.manager m = some (VolumeManager.newVolumeManager 1 100 ∅) := by
  rcases newVolumePool_eq (VolumeManager.newVolumeManager 1 100 ∅)
    [⟨"replica", VolumeManager.newVolumeManager 1 100 ∅⟩] ∅ 2 0 (.asStored _) with
    ⟨registry, nextID, eq⟩
  rw [pairOfServers, eq]
  simp [pairOfMembers, manager, clientOf]

theorem pairOfServers_agree : pairOfServers.Agree pairOfMembers [] := by
  rcases VolumeManager.newVolumeManager_empty 100 (show 0 < 1 by decide) (by decide +kernel) with
    ⟨inv, -⟩
  exact fun m member => ⟨_, pairOfServers_manager m member, inv, by decide +kernel⟩

/-- The order in which the writers append to the members: writer and index of the
member. -/
abbrev Schedule :=
  List (Nat × Nat)

/-- The writers that have appended to a member, in order. -/
def appended (seen : Schedule) (idx : Nat) : List Nat :=
  seen.filterMap fun step => if step.2 = idx then some step.1 else none

theorem appended_concat (seen : Schedule) (writer idx other : Nat) :
    appended (seen ++ [(writer, idx)]) other =
      if idx = other then appended seen other ++ [writer] else appended seen other := by
  unfold appended
  rw [List.filterMap_append]
  by_cases here : idx = other
  · simp [here]
  · simp [here]

theorem mem_appended {seen : Schedule} {writer idx : Nat} :
    writer ∈ appended seen idx ↔ (writer, idx) ∈ seen := by
  simp [appended]

/-- One append of a writer. -/
def appendStep (g : VolumeGroup) (payload : Nat → Bytes) (step : Nat × Nat) :
    Exec VolumePool NeedleAddr :=
  match g.members[step.2]? with
  | none => Exec.panic "index out of range"
  | some m => writeToMember m g.id (payload step.1)

/-- The pool after a schedule. -/
def play (g : VolumeGroup) (payload : Nat → Bytes) : VolumePool → Schedule → VolumePool
  | p, [] => p
  | p, step :: rest => play g payload (appendStep g payload step p []).state rest

/-- The address that a writer takes from the primary. -/
def addressOf (g : VolumeGroup) (payload : Nat → Bytes) (writer : Nat) :
    VolumePool → Schedule → Option NeedleAddr
  | _, [] => none
  | p, step :: rest =>
      let out := appendStep g payload step p []
      if step = (writer, 0) then
        match out.res with
        | .ok addr => some { addr with volumeID := g.id }
        | _ => none
      else addressOf g payload writer out.state rest

/-- Each writer appends to the primary first and then once to each replica, and no
append fails. -/
def Interleaves (g : VolumeGroup) (payload : Nat → Bytes) :
    Schedule → VolumePool → Schedule → Prop
  | _, _, [] => True
  | seen, p, step :: rest =>
      step ∉ seen ∧ step.2 < g.members.length ∧ (step.2 ≠ 0 → (step.1, 0) ∈ seen) ∧
        (appendStep g payload step p []).failed = false ∧
        Interleaves g payload (seen ++ [step]) (appendStep g payload step p []).state rest

instance decidableInterleaves (g : VolumeGroup) (payload : Nat → Bytes) :
    (seen : Schedule) → (p : VolumePool) → (schedule : Schedule) →
      Decidable (Interleaves g payload seen p schedule)
  | _, _, [] => inferInstanceAs (Decidable True)
  | seen, p, step :: rest =>
      have := decidableInterleaves g payload (seen ++ [step]) (appendStep g payload step p []).state
        rest
      inferInstanceAs (Decidable (_ ∧ _ ∧ _ ∧ _ ∧ _))

/-- Every replica appends the blobs in the order in which the primary has. -/
def InPrimaryOrder : Schedule → Schedule → Prop
  | _, [] => True
  | seen, step :: rest =>
      (step.2 ≠ 0 → appended seen step.2 ++ [step.1] <+: appended seen 0) ∧
        InPrimaryOrder (seen ++ [step]) rest

instance decidableInPrimaryOrder : (seen schedule : Schedule) →
    Decidable (InPrimaryOrder seen schedule)
  | _, [] => inferInstanceAs (Decidable True)
  | seen, step :: rest =>
      have := decidableInPrimaryOrder (seen ++ [step]) rest
      inferInstanceAs (Decidable (_ ∧ _))

/-- The writer has appended to all members, so its `Write` returns. -/
def Finished (g : VolumeGroup) (schedule : Schedule) (writer : Nat) : Prop :=
  ∀ idx < g.members.length, (writer, idx) ∈ schedule

instance (g : VolumeGroup) (schedule : Schedule) (writer : Nat) :
    Decidable (Finished g schedule writer) :=
  inferInstanceAs (Decidable (∀ idx < g.members.length, (writer, idx) ∈ schedule))

/-- What holds between the appends: each member holds the blobs that were appended to
it, which are the first ones of the primary. -/
structure Steady (g : VolumeGroup) (payload : Nat → Bytes) (seen : Schedule) (p : VolumePool) :
    Prop where
  holds : ∀ idx m, g.members[idx]? = some m →
    p.MemberHolds g.id m (blobBytes ((appended seen idx).map payload))
  behind : ∀ idx, appended seen idx <+: appended seen 0
  once : (appended seen 0).Nodup

/-- The address of the blob that a member takes next. -/
def blobAddr (g : VolumeGroup) (payload : Nat → Bytes) (before : List Nat) (writer : Nat) :
    NeedleAddr :=
  ⟨g.id, UInt64.ofNat (blobBytes (before.map payload)).length,
    UInt64.ofNat (payload writer).length⟩

theorem Steady.step {payload : Nat → Bytes} {seen : Schedule} (steady : Steady g payload seen p)
    (distinct : g.members.Nodup) {writer idx : Nat} (isNew : (writer, idx) ∉ seen)
    (isMember : idx < g.members.length)
    (clean : (appendStep g payload (writer, idx) p []).failed = false)
    (inOrder : idx ≠ 0 → appended seen idx ++ [writer] <+: appended seen 0) :
    Steady g payload (seen ++ [(writer, idx)]) (appendStep g payload (writer, idx) p []).state ∧
      (appendStep g payload (writer, idx) p []).res =
        .ok (blobAddr g payload (appended seen idx) writer) := by
  have found : g.members[idx]? = some g.members[idx] := List.getElem?_eq_getElem isMember
  have holds := steady.holds idx _ found
  have stepEq : appendStep g payload (writer, idx) =
      writeToMember g.members[idx] g.id (payload writer) := by
    simp only [appendStep, found]
  rw [stepEq] at clean ⊢
  have delivered : Delivered g.members[idx] [] := by simp [Delivered, volumeFaults]
  rcases writeToMember_delivered holds (writeToMember_fits holds clean) delivered with
    ⟨out, written, -, stored, others, -, answer⟩
  rw [written]
  refine ⟨⟨?_, ?_, ?_⟩, (answer (by simp [Answered])).1⟩
  · intro other m isOther
    rw [appended_concat]
    by_cases here : idx = other
    · subst here
      obtain rfl := Option.some.inj (found.symm.trans isOther)
      rw [if_pos rfl]
      simpa using stored
    · rw [if_neg here]
      refine (steady.holds other m isOther).of_manager (others m ?_)
      rintro rfl
      exact here ((List.getElem?_inj isMember distinct).mp (found.trans isOther.symm))
  · intro other
    rw [appended_concat, appended_concat]
    by_cases isPrimary : idx = 0
    · subst isPrimary
      rw [if_pos rfl]
      by_cases here : 0 = other
      · subst here
        exact List.prefix_rfl
      · rw [if_neg here]
        exact (steady.behind other).trans (List.prefix_append _ _)
    · rw [if_neg isPrimary]
      by_cases here : idx = other
      · subst here
        rw [if_pos rfl]
        exact inOrder isPrimary
      · rw [if_neg here]
        exact steady.behind other
  · rw [appended_concat]
    by_cases isPrimary : idx = 0
    · subst isPrimary
      rw [if_pos rfl, List.nodup_append_comm]
      exact List.nodup_cons.mpr ⟨fun again => isNew (mem_appended.mp again), steady.once⟩
    · rw [if_neg isPrimary]
      exact steady.once

/-- After a schedule the members are as the schedule says, and each writer has the
address of its blob on the primary. -/
theorem Steady.run {payload : Nat → Bytes} {seen : Schedule} (steady : Steady g payload seen p)
    (distinct : g.members.Nodup) {schedule : Schedule}
    (interleaves : Interleaves g payload seen p schedule) (ordered : InPrimaryOrder seen schedule) :
    Steady g payload (seen ++ schedule) (play g payload p schedule) ∧
      ∀ writer, (writer, 0) ∈ schedule → ∃ before later,
        appended (seen ++ schedule) 0 = before ++ writer :: later ∧
          addressOf g payload writer p schedule = some (blobAddr g payload before writer) := by
  induction schedule generalizing p seen with
  | nil => exact ⟨by simpa [play] using steady, fun writer isStep => nomatch isStep⟩
  | cons step rest ih =>
      rcases step with ⟨current, idx⟩
      rcases interleaves with ⟨isNew, isMember, -, clean, laterInterleaves⟩
      rcases ordered with ⟨inOrder, laterOrdered⟩
      rcases steady.step distinct isNew isMember clean inOrder with ⟨next, resEq⟩
      rcases ih next laterInterleaves laterOrdered with ⟨last, addresses⟩
      rw [List.append_assoc, List.singleton_append] at last addresses
      refine ⟨last, fun writer isStep => ?_⟩
      by_cases here : (current, idx) = (writer, 0)
      · obtain ⟨rfl, rfl⟩ := Prod.mk.inj here
        refine ⟨appended seen 0, appended rest 0, ?_, ?_⟩
        · simp [appended]
        · simp only [addressOf, resEq, if_true]
          rfl
      · rcases List.mem_cons.mp isStep with same | later
        · exact absurd same.symm here
        · rcases addresses writer later with ⟨before, behind, split, addrEq⟩
          refine ⟨before, behind, split, ?_⟩
          simp only [addressOf, here, if_false]
          exact addrEq

/-- A part of the blobs of the primary that contains a blob contains all before it. -/
theorem split_of_prefix {part before later : List Nat} {writer : Nat}
    (isPart : part <+: before ++ writer :: later) (isIn : writer ∈ part)
    (notBefore : writer ∉ before) : ∃ between, part = before ++ writer :: between := by
  rcases List.prefix_or_prefix_of_prefix isPart (List.prefix_append before _) with
    short | ⟨rest, rfl⟩
  · exact absurd (short.subset isIn) notBefore
  · rw [List.prefix_append_right_inj] at isPart
    cases rest with
    | nil => exact absurd (by simpa using isIn) notBefore
    | cons first between =>
        obtain rfl := (List.cons_prefix_cons.mp isPart).1
        exact ⟨between, rfl⟩

/-- The address that a `Write` returns reads back from every member, as long as every
replica appends the blobs in the order of the primary. -/
theorem concurrent_readBack (p : VolumePool) (g : VolumeGroup) (payload : Nat → Bytes)
    (schedule : Schedule) (empty : p.Agree g []) (interleaves : Interleaves g payload [] p schedule)
    (distinct : g.members.Nodup) (ordered : InPrimaryOrder [] schedule) (writer : Nat)
    (finished : Finished g schedule writer) (m : VolumeMember) (isMember : m ∈ g.members) :
    ∃ addr, addressOf g payload writer p schedule = some addr ∧
      (readFromMember m addr (play g payload p schedule) []).res = .ok (payload writer) := by
  have start : Steady g payload [] p := by
    refine ⟨fun idx m found => ?_, fun idx => List.prefix_rfl, List.nodup_nil⟩
    exact empty m (List.mem_of_getElem? found)
  rcases start.run distinct interleaves ordered with ⟨steady, addresses⟩
  rw [List.nil_append] at steady addresses
  rcases List.getElem?_of_mem isMember with ⟨idx, found⟩
  have inRange : idx < g.members.length := (List.getElem?_eq_some_iff.mp found).1
  have isPrimary := finished 0 (Nat.zero_lt_of_lt inRange)
  rcases addresses writer isPrimary with ⟨before, later, split, addrEq⟩
  refine ⟨_, addrEq, ?_⟩
  have notBefore : writer ∉ before := by
    have once := steady.once
    rw [split, List.nodup_middle] at once
    exact fun isBefore => (List.nodup_cons.mp once).1 (List.mem_append_left later isBefore)
  have behind := steady.behind idx
  rw [split] at behind
  rcases split_of_prefix behind (mem_appended.mpr (finished idx inRange)) notBefore with
    ⟨between, partEq⟩
  have holds := steady.holds idx m found
  rw [partEq, List.map_append, List.map_cons, blobBytes_append, blobBytes_cons] at holds
  exact holds.read []

/-- The payloads of two writers. -/
def onePerWriter (writer : Nat) : Bytes :=
  [UInt8.ofNat (writer + 1)]

theorem concurrent_readBack_inOrder :
    ∃ addr, addressOf pairOfMembers onePerWriter 1 pairOfServers [(0, 0), (1, 0), (0, 1), (1, 1)] =
        some addr ∧
      (readFromMember ⟨"replica"⟩ addr
        (play pairOfMembers onePerWriter pairOfServers [(0, 0), (1, 0), (0, 1), (1, 1)]) []).res =
          .ok [2] :=
  concurrent_readBack pairOfServers pairOfMembers onePerWriter [(0, 0), (1, 0), (0, 1), (1, 1)]
    pairOfServers_agree (by decide +kernel) (by decide) (by decide) 1 (by decide) ⟨"replica"⟩
    (by decide)

/-- The second writer reaches the replica first. -/
def overtakes : Schedule :=
  [(0, 0), (1, 0), (1, 1), (0, 1)]

/-- No append fails and both writers have finished, and at the address of the first one
the replica has the blob of the second. -/
theorem overtakes_swaps :
    Interleaves pairOfMembers onePerWriter [] pairOfServers overtakes ∧
      Finished pairOfMembers overtakes 0 ∧ onePerWriter 0 = [1] ∧
      addressOf pairOfMembers onePerWriter 0 pairOfServers overtakes = some ⟨1, 0, 1⟩ ∧
      (readFromMember ⟨"replica"⟩ ⟨1, 0, 1⟩
        (play pairOfMembers onePerWriter pairOfServers overtakes) []).res = .ok [2] := by
  decide +kernel

end VolumePool

end BriseDB
