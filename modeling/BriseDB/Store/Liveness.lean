import BriseDB.Index.Torn
import BriseDB.Store.Durations
import BriseDB.Store.Isolation

/-!
# Four ways to ask whether a key is there

`Get`, `TTL`, `GetBlobMeta` and `Keys` each decide on their own whether a key has expired.
The last two and `Get` take an entry as expired once the clock is past its expiry, and `TTL`
already at the expiry.  `TTL` alone looks at the expiry of a key that is set in an open
transaction, and `Get` alone depends on the volume that has the value.
-/

namespace BriseDB

/-- Whether a transaction sets or deletes a key. -/
def Transaction.mentions (key : Key) (tx : Transaction) : Bool :=
  (tx.deleted.lookup key).isSome || (tx.store.lookup key).isSome

/-- The volumes give the value at an address. -/
def DB.Readable (db : DB) (addr : NeedleAddr) : Prop :=
  ∃ data, (VolumePool.read addr db.volumes []).res = .ok data

/-- The index has an entry of the key which is not past its expiry and has a property. -/
def DB.HasEntry (db : DB) (key : Key) (t : Clock) (P : NeedleAddr → Int64 → Prop) : Prop :=
  ∃ addr expiresAt, Index.get db.hindex key = .ok (some (addr, expiresAt)) ∧
    ¬ Session.expiredAt t expiresAt ∧ P addr expiresAt

theorem DB.hasEntry_of_get {db : DB} {key : Key} {t : Clock} {addr : NeedleAddr}
    {expiresAt : Int64} (found : Index.get db.hindex key = .ok (some (addr, expiresAt)))
    (live : ¬ Session.expiredAt t expiresAt) (P : NeedleAddr → Int64 → Prop) :
    db.HasEntry key t P ↔ P addr expiresAt := by
  constructor
  · rintro ⟨otherAddr, other, foundOther, _, holds⟩
    cases found.symm.trans foundOther
    exact holds
  · exact fun holds => ⟨addr, expiresAt, found, live, holds⟩

theorem DB.hasEntry_iff_iff (db : DB) (key : Key) (t : Clock) (P Q : NeedleAddr → Int64 → Prop) :
    (db.HasEntry key t P ↔ db.HasEntry key t Q) ↔
      ∀ addr expiresAt, Index.get db.hindex key = .ok (some (addr, expiresAt)) →
        ¬ Session.expiredAt t expiresAt → (P addr expiresAt ↔ Q addr expiresAt) := by
  constructor
  · intro same addr expiresAt found live
    rwa [DB.hasEntry_of_get found live, DB.hasEntry_of_get found live] at same
  · intro same
    refine exists_congr fun addr => exists_congr fun expiresAt => and_congr_right fun found =>
      and_congr_right fun live => same addr expiresAt found live

namespace Session

/-- A stored expiry is now. -/
def dueAt (now : Time) (expiresAt : Int64) : Prop :=
  0 < expiresAt ∧ Time.ofNano expiresAt = now

instance (now : Time) (expiresAt : Int64) : Decidable (dueAt now expiresAt) :=
  inferInstanceAs (Decidable (_ ∧ _))

/-- `Get` finds the key. -/
def Finds (s : Session) (key : Key) (t : Clock) : Prop :=
  ∃ value, (get key t s []).res = .ok (some value)

/-- `TTL` answers that the key is there. -/
def HasTTL (s : Session) (key : Key) (t : Clock) : Prop :=
  ∃ seconds, (ttl key t s []).res = .ok seconds ∧ seconds ≠ -2

/-- `GetBlobMeta` succeeds. -/
def HasMeta (s : Session) (key : Key) (t : Clock) : Prop :=
  ∃ entry, (getBlobMeta key t s []).res = .ok (some entry)

/-- `Keys("*")` lists the key. -/
def Lists (s : Session) (key : Key) (t : Clock) (order : RangeOrder Key) : Prop :=
  ∃ listed, (keys [42] t order s []).res = .ok listed ∧ key ∈ listed

/-- At an instant the four calls agree on whether a key is there; the last two are about
sessions outside transactions, and `Keys` about the entries that an index file stores. -/
structure ReadsAgree (s : Session) (key : Key) (t : Clock) (order : RangeOrder Key) : Prop where
  ttl : s.Finds key t ↔ s.HasTTL key t
  blobMeta : s.transactions = [] → (s.Finds key t ↔ s.HasMeta key t)
  listed : s.transactions = [] → ∀ content, Index.Stores s.db.hindex content →
    (s.Finds key t ↔ s.Lists key t order)

section

variable {s : Session} {key : Key} {t : Clock}

/-! ## The transactions -/

theorem overlay_of_find {stack : List Transaction} {tx : Transaction}
    (found : stack.find? (Transaction.mentions key) = some tx) (now : Time) :
    overlay stack key = overlay [tx] key ∧ overlayTTL now stack key = overlayTTL now [tx] key := by
  induction stack with
  | nil => cases found
  | cons top rest ih =>
      by_cases mentioned : top.mentions key
      · rw [List.find?_cons_of_pos mentioned] at found
        cases found
        rcases Bool.or_eq_true_iff.mp mentioned with deleted | stored
        · simp only [overlay, overlayTTL, if_pos deleted, and_self]
        · rcases Option.isSome_iff_exists.mp stored with ⟨value, isValue⟩
          simp only [overlay, overlayTTL, isValue, Option.isSome_some, if_true, and_self]
      · rw [List.find?_cons_of_neg mentioned] at found
        rcases not_or.mp (mt Bool.or_eq_true_iff.mpr mentioned) with ⟨notDeleted, notStored⟩
        have isNone := Option.not_isSome_iff_eq_none.mp notStored
        simpa only [overlay, overlayTTL, if_neg notDeleted, isNone, Option.isSome_none,
          Bool.false_eq_true, if_false] using ih found

theorem overlay_of_unmentioned {stack : List Transaction}
    (unmentioned : stack.find? (Transaction.mentions key) = none) (now : Time) :
    overlay stack key = none ∧ overlayTTL now stack key = none := by
  induction stack with
  | nil => exact ⟨rfl, rfl⟩
  | cons top rest ih =>
      by_cases mentioned : top.mentions key
      · rw [List.find?_cons_of_pos mentioned] at unmentioned
        cases unmentioned
      · rw [List.find?_cons_of_neg mentioned] at unmentioned
        rcases not_or.mp (mt Bool.or_eq_true_iff.mpr mentioned) with ⟨notDeleted, notStored⟩
        have isNone := Option.not_isSome_iff_eq_none.mp notStored
        simpa only [overlay, overlayTTL, if_neg notDeleted, isNone, Option.isSome_none,
          Bool.false_eq_true, if_false] using ih unmentioned

/-- `TTL` takes a key as expired from its expiry on. -/
theorem remaining_eq_iff (instant now : Time) : remaining instant now = -2 ↔ instant ≤ now := by
  have untilLe : untilInstant instant now ≤ 0 ↔ instant ≤ now := by
    change max (-2 ^ 63 : Int) (min (2 ^ 63 - 1) (@HSub.hSub Int Int Int _ instant now)) ≤ 0 ↔
      @LE.le Int _ instant now
    omega
  have untilLt : untilInstant instant now < 2 ^ 63 := by
    change max (-2 ^ 63 : Int) (min (2 ^ 63 - 1) (@HSub.hSub Int Int Int _ instant now)) < 2 ^ 63
    omega
  unfold remaining
  by_cases passed : untilInstant instant now ≤ 0
  · rw [if_pos passed]
    exact iff_of_true rfl (untilLe.mp passed)
  · rw [if_neg passed]
    have nonneg := Time.wholeSeconds_nonneg (not_le.mp passed).le untilLt
    exact iff_of_false (by omega) (mt untilLe.mpr passed)

theorem overlayTTL_single {tx : Transaction} (stored : (tx.store.lookup key).isSome)
    (notDeleted : ¬ (tx.deleted.lookup key).isSome) (now : Time) :
    ∃ seconds, overlayTTL now [tx] key = some seconds ∧
      (seconds = -2 ↔ ∃ instant, tx.expiry.lookup key = some instant ∧ instant ≠ Time.zero ∧
        instant ≤ now) := by
  simp only [overlayTTL, if_neg notDeleted, if_pos stored]
  cases expiry : tx.expiry.lookup key with
  | none => exact ⟨-1, rfl, by simp⟩
  | some instant =>
      by_cases isZero : instant = Time.zero
      · exact ⟨-1, if_pos isZero, by simp [isZero]⟩
      · exact ⟨remaining instant now, if_neg isZero, by simp [remaining_eq_iff, isZero]⟩

/-- In the topmost transaction with the key, a set key is there for `Get`, and for `TTL` until
its expiry. -/
theorem finds_iff_hasTTL_of_find {tx : Transaction}
    (found : s.transactions.find? (Transaction.mentions key) = some tx) :
    (s.Finds key t ↔ s.HasTTL key t) ↔ (tx.deleted.lookup key).isSome ∨
      ∀ instant, tx.expiry.lookup key = some instant →
        instant = Time.zero ∨ (t : Time) < instant := by
  rcases overlay_of_find found t with ⟨overlayEq, overlayTTLEq⟩
  have getEq : ∀ answer, overlay [tx] key = some answer → (get key t s []).res = .ok answer := by
    intro answer isAnswer
    unfold get
    rw [Exec.bind_state_apply, overlayEq, isAnswer]
    rfl
  have ttlEq : ∀ answer, overlayTTL t [tx] key = some answer →
      (ttl key t s []).res = .ok answer := by
    intro answer isAnswer
    unfold ttl
    rw [Exec.bind_state_apply, overlayTTLEq, isAnswer]
    rfl
  by_cases deleted : (tx.deleted.lookup key).isSome
  · have notFound := getEq none (if_pos deleted)
    have noTTL := ttlEq (-2) (if_pos deleted)
    refine iff_of_true (iff_of_false ?_ ?_) (.inl deleted)
    · rintro ⟨value, isValue⟩
      cases notFound.symm.trans isValue
    · rintro ⟨seconds, isSeconds, notAbsent⟩
      cases noTTL.symm.trans isSeconds
      exact notAbsent rfl
  · have mentioned : tx.mentions key = true := List.find?_some found
    have stored := (Bool.or_eq_true_iff.mp mentioned).resolve_left deleted
    rcases Option.isSome_iff_exists.mp stored with ⟨value, isValue⟩
    have finds : s.Finds key t := ⟨value, getEq (some value) (by
      simp only [overlay, if_neg deleted, isValue])⟩
    rcases overlayTTL_single stored deleted t with ⟨seconds, secondsEq, absentIff⟩
    have hasTTL : s.HasTTL key t ↔ seconds ≠ -2 := by
      constructor
      · rintro ⟨answer, isAnswer, notAbsent⟩
        cases (ttlEq seconds secondsEq).symm.trans isAnswer
        exact notAbsent
      · exact fun notAbsent => ⟨seconds, ttlEq seconds secondsEq, notAbsent⟩
    rw [iff_true_left finds, hasTTL, Ne, absentIff, or_iff_right deleted, not_exists]
    refine forall_congr' fun instant => ?_
    rw [not_and, not_and, not_le, or_iff_not_imp_left]

/-! ## The index -/

theorem readable_iff (db : DB) (addr : NeedleAddr) :
    db.Readable addr ↔
      ∃ data, (Exec.attempt (DB.onVolumes (VolumePool.read addr)) db []).res = .ok (.ok data) := by
  have resEq : (DB.onVolumes (VolumePool.read addr) db []).res =
      (VolumePool.read addr db.volumes []).res := rfl
  unfold DB.Readable
  rw [← resEq]
  cases outcome : (DB.onVolumes (VolumePool.read addr) db []).res <;>
    simp [Exec.attempt, outcome]

/-- Outside transactions `Get` finds a key that is not past its expiry and whose value the
volumes give. -/
theorem getNow_finds_iff (db : DB) (key : Key) (t : Clock) :
    (∃ value, (getNow key t db []).res = .ok (some value)) ↔
      db.HasEntry key t fun addr _ => db.Readable addr := by
  constructor
  · rintro ⟨value, isValue⟩
    rcases Exec.bind_eq_ok.mp isValue with ⟨found, isFound, rest⟩
    cases found with
    | none => cases rest
    | some entry =>
        rcases entry with ⟨addr, expiresAt⟩
        by_cases expired : expiredAt t expiresAt
        · simp only [if_pos expired] at rest
          cases rest
        · simp only [if_neg expired] at rest
          rcases Exec.bind_eq_ok.mp rest with ⟨result, isResult, returned⟩
          cases result with
          | error cause => cases returned
          | ok data =>
              exact ⟨addr, expiresAt, isFound, expired, (readable_iff db addr).mpr ⟨data, isResult⟩⟩
  · rintro ⟨addr, expiresAt, isFound, live, readable⟩
    rcases (readable_iff db addr).mp readable with ⟨data, isData⟩
    refine ⟨data, Exec.bind_eq_ok.mpr ⟨_, isFound, ?_⟩⟩
    simp only [if_neg live]
    exact Exec.bind_eq_ok.mpr ⟨_, isData, rfl⟩

theorem finds_iff_of_unmentioned
    (unmentioned : s.transactions.find? (Transaction.mentions key) = none) :
    s.Finds key t ↔ s.db.HasEntry key t fun addr _ => s.db.Readable addr := by
  rw [← getNow_finds_iff]
  unfold Finds get
  rw [Exec.bind_state_apply, (overlay_of_unmentioned unmentioned t).1]
  rfl

theorem entryTTL_eq_iff (now : Time) (addr : NeedleAddr) (expiresAt : Int64) :
    entryTTL now (some (addr, expiresAt)) = -2 ↔ expiredAt now expiresAt ∨ dueAt now expiresAt := by
  unfold entryTTL expiredAt dueAt
  by_cases positive : 0 < expiresAt
  · simp only [if_true, remaining_eq_iff, positive, true_and]
    exact @le_iff_lt_or_eq Int _ _ _
  · simp [positive]

theorem hasTTL_iff_of_unmentioned
    (unmentioned : s.transactions.find? (Transaction.mentions key) = none) :
    s.HasTTL key t ↔ s.db.HasEntry key t fun _ expiresAt => ¬ dueAt t expiresAt := by
  have ttlEq : (ttl key t s []).res = (ttlNow key t s.db []).res := by
    unfold ttl
    rw [Exec.bind_state_apply, (overlay_of_unmentioned unmentioned t).2]
    rfl
  unfold HasTTL
  rw [ttlEq]
  constructor
  · rintro ⟨seconds, isSeconds, notAbsent⟩
    rcases Exec.bind_eq_ok.mp isSeconds with ⟨found, isFound, rest⟩
    cases rest
    cases found with
    | none => exact absurd rfl notAbsent
    | some entry =>
        rcases not_or.mp (mt (entryTTL_eq_iff t entry.1 entry.2).mpr notAbsent) with ⟨live, notDue⟩
        exact ⟨entry.1, entry.2, isFound, live, notDue⟩
  · rintro ⟨addr, expiresAt, isFound, live, notDue⟩
    refine ⟨entryTTL t (some (addr, expiresAt)), Exec.bind_eq_ok.mpr ⟨_, isFound, rfl⟩, ?_⟩
    exact mt (entryTTL_eq_iff t addr expiresAt).mp (not_or.mpr ⟨live, notDue⟩)

theorem hasMeta_iff (s : Session) (key : Key) (t : Clock) :
    s.HasMeta key t ↔ s.db.HasEntry key t fun _ _ => True := by
  constructor
  · rintro ⟨entry, isEntry⟩
    rcases Exec.bind_eq_ok.mp isEntry with ⟨found, isFound, rest⟩
    cases found with
    | none => cases rest
    | some entry =>
        rcases entry with ⟨addr, expiresAt⟩
        by_cases expired : expiredAt t expiresAt
        · simp only [if_pos expired] at rest
          cases rest
        · exact ⟨addr, expiresAt, isFound, expired, trivial⟩
  · rintro ⟨addr, expiresAt, isFound, live, _⟩
    refine ⟨(addr, expiresAt), Exec.bind_eq_ok.mpr ⟨_, isFound, ?_⟩⟩
    simp only [if_neg live]
    rfl

theorem expiredAt_iff (t : Clock) (expiresAt : Int64) :
    expiredAt t expiresAt ↔ Index.Expired (Time.unixNano t) expiresAt := by
  unfold expiredAt Index.Expired
  rw [← @Time.ofNano_lt_ofNano expiresAt, Clock.ofNano_unixNano]

/-- The keys that `ForEach` visits are those with an entry that is not past its expiry. -/
theorem mem_calls_iff {db : DB} {content : Index.Content} (stores : Index.Stores db.hindex content)
    {calls : List Index.Visit} (enumerates : Index.Enumerates (Time.unixNano t) content calls) :
    key ∈ calls.map Index.Visit.key ↔ db.HasEntry key t fun _ _ => True := by
  rw [List.mem_map]
  constructor
  · rintro ⟨visit, mem, rfl⟩
    rcases (enumerates.mem_iff visit).mp mem with ⟨isEntry, live⟩
    refine ⟨visit.addr, visit.expiresAt, ?_, mt (expiredAt_iff t _).mp live, trivial⟩
    rw [stores.get_eq, isEntry]
  · rintro ⟨addr, expiresAt, isFound, live, _⟩
    have isEntry := Res.ok.inj ((stores.get_eq key).symm.trans isFound)
    exact ⟨⟨key, addr, expiresAt⟩,
      (enumerates.mem_iff _).mpr ⟨isEntry, mt (expiredAt_iff t _).mpr live⟩, rfl⟩

theorem forEach_calls {db : DB} {content : Index.Content} (stores : Index.Stores db.hindex content)
    (t : Clock) (order : RangeOrder Key) :
    ∃ calls, Index.forEach db.hindex t order = .ok ⟨calls, none⟩ ∧
      (calls.map Index.Visit.key).Nodup ∧
      ∀ key, key ∈ calls.map Index.Visit.key ↔ db.HasEntry key t fun _ _ => True := by
  rcases stores.forEach_eq (Time.unixNano t) order with ⟨calls, callsEq, enumerates⟩
  rw [Clock.ofNano_unixNano] at callsEq
  exact ⟨calls, callsEq, enumerates.nodup, fun key => mem_calls_iff stores enumerates⟩

theorem lists_iff {content : Index.Content} (stores : Index.Stores s.db.hindex content)
    (order : RangeOrder Key) :
    s.Lists key t order ↔ s.db.HasEntry key t fun _ _ => True := by
  rcases forEach_calls stores t order with ⟨calls, callsEq, -, memCalls⟩
  have mem_iff : ∀ listed, (keys [42] t order s []).res = .ok listed →
      (key ∈ listed ↔ s.db.HasEntry key t fun _ _ => True) := by
    intro listed isListed
    rcases Exec.bind_eq_ok.mp isListed with ⟨visits, visitsEq, rest⟩
    cases callsEq.symm.trans visitsEq
    cases rest
    have all : ∀ name, matchGlob [42] name = true := fun name => by simp [matchGlob]
    rw [sortStrings, List.mem_mergeSort, List.mem_filter, and_iff_left (all key)]
    exact memCalls key
  constructor
  · rintro ⟨listed, isListed, mem⟩
    exact (mem_iff listed isListed).mp mem
  · intro hasEntry
    exact ⟨_, Exec.bind_eq_ok.mpr ⟨_, callsEq, rfl⟩,
      (mem_iff _ (Exec.bind_eq_ok.mpr ⟨_, callsEq, rfl⟩)).mpr hasEntry⟩

end

/-- The key is not at its expiry, and its value can be read.  A key set in an open transaction
must be before its expiry, since `Get` does not look at that. -/
structure Settled (s : Session) (key : Key) (t : Clock) : Prop where
  uncommitted : ∀ tx, s.transactions.find? (Transaction.mentions key) = some tx →
    (tx.deleted.lookup key).isSome ∨
      ∀ instant, tx.expiry.lookup key = some instant → instant = Time.zero ∨ (t : Time) < instant
  committed : s.transactions.find? (Transaction.mentions key) = none →
    ∀ addr expiresAt, Index.get s.db.hindex key = .ok (some (addr, expiresAt)) →
      ¬ expiredAt t expiresAt → (s.db.Readable addr ↔ ¬ dueAt t expiresAt)
  outside : s.transactions = [] →
    ∀ addr expiresAt, Index.get s.db.hindex key = .ok (some (addr, expiresAt)) →
      ¬ expiredAt t expiresAt → s.db.Readable addr

/-- The four calls agree exactly about the keys that are settled. -/
theorem readsAgree_iff (s : Session) (key : Key) (t : Clock) (order : RangeOrder Key) :
    s.ReadsAgree key t order ↔ s.Settled key t := by
  have committed_iff : s.transactions.find? (Transaction.mentions key) = none →
      ((s.Finds key t ↔ s.HasTTL key t) ↔
        ∀ addr expiresAt, Index.get s.db.hindex key = .ok (some (addr, expiresAt)) →
          ¬ expiredAt t expiresAt → (s.db.Readable addr ↔ ¬ dueAt t expiresAt)) := by
    intro unmentioned
    rw [finds_iff_of_unmentioned unmentioned, hasTTL_iff_of_unmentioned unmentioned]
    exact DB.hasEntry_iff_iff ..
  have outside_iff : s.transactions = [] → ((s.Finds key t ↔ s.db.HasEntry key t fun _ _ => True) ↔
      ∀ addr expiresAt, Index.get s.db.hindex key = .ok (some (addr, expiresAt)) →
        ¬ expiredAt t expiresAt → s.db.Readable addr) := by
    intro empty
    rw [finds_iff_of_unmentioned (by rw [empty, List.find?_nil]), DB.hasEntry_iff_iff]
    simp only [iff_true]
  constructor
  · intro agree
    constructor
    case uncommitted => exact fun tx found => (finds_iff_hasTTL_of_find found).mp agree.ttl
    case committed => exact fun unmentioned => (committed_iff unmentioned).mp agree.ttl
    case outside =>
      intro empty
      exact (outside_iff empty).mp ((agree.blobMeta empty).trans (hasMeta_iff s key t))
  · intro settled
    constructor
    case ttl =>
      cases found : s.transactions.find? (Transaction.mentions key) with
      | none => exact (committed_iff found).mpr (settled.committed found)
      | some tx => exact (finds_iff_hasTTL_of_find found).mpr (settled.uncommitted tx found)
    case blobMeta =>
      intro empty
      exact ((outside_iff empty).mpr (settled.outside empty)).trans (hasMeta_iff s key t).symm
    case listed =>
      intro empty content stores
      exact ((outside_iff empty).mpr (settled.outside empty)).trans (lists_iff stores order).symm

end Session

/-- The instant at which the key of `History.expiring` expires. -/
def Clock.due : Clock :=
  ⟨10 ^ 18 + 10 ^ 9, by decide⟩

/-- At its expiry `Get` finds the key, and `TTL` answers that it does not exist. -/
theorem History.expiring_due :
    (Session.get [107] Clock.due ⟨History.expiring.final.db, []⟩ []).res = .ok (some [118]) ∧
      (Session.ttl [107] Clock.due ⟨History.expiring.final.db, []⟩ []).res = .ok (-2) := by
  have small : History.expiring.Small .always := rfl
  rcases small.final fun _ => History.expiring_returns with
    ⟨-, -, -, addr, one, -⟩
  have due : Session.dueAt Clock.due (10 ^ 18 + 10 ^ 9) := by decide
  have live : ¬ Session.expiredAt Clock.due (10 ^ 18 + 10 ^ 9) := by decide
  constructor
  · rw [Session.get_res one.models, Function.update_self, DB.visible, if_neg live]
  · rw [Session.ttl_res one.models, Function.update_self]
    exact congrArg Res.ok ((Session.entryTTL_eq_iff _ addr _).mpr (.inr due))

end BriseDB
