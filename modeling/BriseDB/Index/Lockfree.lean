import BriseDB.Index.LongKeys
import BriseDB.Index.Walk

/-!
# Lookups that take no lock

`Get` takes no lock.  It loads the pointer of its bucket once and then reads one
entry after the other, each with one or two positional reads, while writers change
the index.  Writers hold `hi.mu` and take several steps for one update: they append
the entry, advance `writePos`, change the entry count, publish the entry in the
bucket table in memory, and write the bucket pointer to the file.

The update takes effect where it is published.  A lookup finds what was published
when it loaded its bucket, because a published entry links only to entries that are
complete, and the file never changes where entries are.
-/

namespace BriseDB.Index

open Bytes (putLE getLE)
open File (readAt)

/-! ## Writers -/

/-- What `Set` or `Delete` writes for a key. -/
structure Update where
  key : Key
  addr : NeedleAddr
  expiresAt : Int64
  deleted : Bool
  deriving DecidableEq, Repr

namespace Update

/-- The update of `Set`. -/
def set (key : Key) (addr : NeedleAddr) (expiresAt : Int64) : Update :=
  ⟨key, addr, expiresAt, false⟩

/-- The update of `Delete`. -/
def delete (key : Key) : Update :=
  ⟨key, default, 0, true⟩

/-- What is stored for the key afterwards. -/
def content (update : Update) : Option (NeedleAddr × Int64) :=
  if update.deleted then none else some (update.addr, update.expiresAt)

/-- How the entry count changes. -/
def count (update : Update) (entryCount : Int64) : Int64 :=
  if update.deleted then (if 0 < entryCount then entryCount - 1 else entryCount)
  else entryCount + 1

end Update

/-- The last step that a writer has taken. -/
inductive Phase where
  | appended
  | advanced
  | counted
  | published
  deriving DecidableEq, Repr

/-- A writer that holds `hi.mu`. -/
structure Writer where
  update : Update
  slot : Nat
  newOff : Nat
  size : Nat
  phase : Phase
  deriving DecidableEq, Repr

/-! ## One reader -/

/-- Where a lookup stands: before its bucket load, before the read of an entry,
between the two reads of a long entry, or at its end. -/
inductive Reader where
  | idle
  | walking (off : Nat)
  | halfway (off : Nat) (ahead : Bytes)
  | done (result : Option (NeedleAddr × Int64))
  deriving DecidableEq, Repr

namespace Reader

/-- The head of the loop. -/
def goto (off : Nat) : Reader :=
  if off = 0 then .done none else .walking off

/-- The body of the loop, once the entry is read. -/
def consider (key : Key) (e : IdxEntry) : Reader :=
  if e.key = key then .done (if e.deleted then none else some (e.addr, e.expiresAt))
  else goto e.next

/-- One atomic load or positional read of `Get`. -/
def read (hi : HashIndex) (key : Key) : Reader → Reader
  | .idle => goto (hi.buckets.getD ((fnv64a key).toNat % hi.bucketCount) 0)
  | .walking off =>
      let ahead := if off < 2 ^ 63 then readAt hi.f off entryReadAheadSize else []
      if ahead.length < 10 then .done none
      else
        let next := getLE (readAt ahead 0 8)
        let keyLen := getLE (readAt ahead 8 2)
        let totalSize := entryOverhead + keyLen
        if totalSize ≤ ahead.length then
          consider key (decodeEntry (ahead.take totalSize) next keyLen)
        else .halfway off ahead
  | .halfway off ahead =>
      let next := getLE (readAt ahead 0 8)
      let keyLen := getLE (readAt ahead 8 2)
      let totalSize := entryOverhead + keyLen
      let tail := readAt hi.f (off + ahead.length) (totalSize - ahead.length)
      if tail.length < totalSize - ahead.length then .done none
      else consider key (decodeEntry (ahead ++ tail) next keyLen)
  | .done result => .done result

end Reader

/-! ## All interleavings -/

/-- An index with its writer and one lookup.  `map` is the map that the published
updates make up. -/
structure Race where
  hi : HashIndex
  writer : Option Writer
  map : Content
  reader : Reader

/-- A step of a writer or of the lookup. -/
inductive Move where
  | begin (update : Update)
  | write
  | read
  deriving DecidableEq, Repr

namespace Race

/-- A writer locks `hi.mu` and appends its entry.  It waits while another one holds
the lock, and gives up if the entry does not fit in the file. -/
def begin (update : Update) (s : Race) : Race :=
  match s.writer with
  | some _ => s
  | none =>
      let slot := (fnv64a update.key).toNat % s.hi.bucketCount
      let entry := encodeIndexEntry (s.hi.buckets.getD slot 0) update.key update.addr
        update.expiresAt update.deleted
      if s.hi.writePos + entry.length ≤ File.maxSize then
        { s with
          hi := { s.hi with f := File.writeAt s.hi.f s.hi.writePos entry }
          writer := some ⟨update, slot, s.hi.writePos, entry.length, .appended⟩ }
      else s

/-- The writer that holds `hi.mu` takes its next step. -/
def write (s : Race) : Race :=
  match s.writer with
  | none => s
  | some w =>
      match w.phase with
      | .appended =>
          { s with
            hi := { s.hi with writePos := s.hi.writePos + w.size }
            writer := some { w with phase := .advanced } }
      | .advanced =>
          { s with
            hi := { s.hi with entryCount := w.update.count s.hi.entryCount }
            writer := some { w with phase := .counted } }
      | .counted =>
          { s with
            hi := { s.hi with buckets := s.hi.buckets.set w.slot w.newOff }
            map := Function.update s.map w.update.key w.update.content
            writer := some { w with phase := .published } }
      | .published =>
          { s with
            hi := { s.hi with
              f := File.writeAt s.hi.f (s.hi.bucketBase + w.slot * 8) (putLE 8 w.newOff) }
            writer := none }

/-- One step. -/
def step (key : Key) (s : Race) : Move → Race
  | .begin update => s.begin update
  | .write => s.write
  | .read => { s with reader := s.reader.read s.hi key }

/-- Any sequence of steps. -/
def run (key : Key) (moves : List Move) (s : Race) : Race :=
  moves.foldl (step key) s

/-- Nobody is at work on an index that stands for `content`. -/
def quiet (hi : HashIndex) (content : Content) : Race :=
  ⟨hi, none, content, .idle⟩

end Race

/-! ## Steps without interleaving -/

/-- A writer up to the publication of its entry. -/
theorem Race.publish_alone {s : Race} (usable : Usable s.hi) (free : s.writer = none)
    (update : Update)
    (fits : s.hi.writePos + (entryOverhead + update.key.length) ≤ File.maxSize)
    {slot : Nat} (slotEq : slot = (fnv64a update.key).toNat % s.hi.bucketCount) {entry : Bytes}
    (entryEq : entry = encodeIndexEntry (s.hi.buckets.getD slot 0) update.key update.addr
      update.expiresAt update.deleted) :
    (s.begin update).write.write.write =
      { s with
        hi := { s.hi with
          f := s.hi.f ++ entry
          writePos := s.hi.writePos + entry.length
          entryCount := update.count s.hi.entryCount
          buckets := s.hi.buckets.set slot s.hi.writePos }
        map := Function.update s.map update.key update.content
        writer := some ⟨update, slot, s.hi.writePos, entry.length, .published⟩ } := by
  subst slotEq
  subst entryEq
  have begun : s.hi.writePos + (encodeIndexEntry (s.hi.buckets.getD
      ((fnv64a update.key).toNat % s.hi.bucketCount) 0) update.key update.addr update.expiresAt
      update.deleted).length ≤ File.maxSize := by
    rw [length_encodeIndexEntry]
    exact fits
  simp only [begin, free, if_pos begun, write, File.writeAt_end usable.writePos_eq]

/-- The steps of one writer make up `Set` or `Delete`. -/
theorem Race.write_alone {s : Race} (usable : Usable s.hi) (free : s.writer = none)
    (update : Update)
    (fits : s.hi.writePos + (entryOverhead + update.key.length) ≤ File.maxSize) :
    (s.begin update).write.write.write.write.hi =
      Index.appended s.hi ((fnv64a update.key).toNat % s.hi.bucketCount)
        (encodeIndexEntry (s.hi.buckets.getD ((fnv64a update.key).toNat % s.hi.bucketCount) 0)
          update.key update.addr update.expiresAt update.deleted)
        (update.count s.hi.entryCount) := by
  rw [publish_alone usable free update fits rfl rfl]
  rfl

namespace Reader

variable {hi : HashIndex} {key : Key}

/-- The first read of an entry, when nothing is appended before the second one. -/
theorem read_walking (off : Nat) :
    (read hi key (.walking off) =
        match readEntryAt hi.f off with
        | .error _ => .done none
        | .ok e => consider key e) ∨
      read hi key (read hi key (.walking off)) =
        match readEntryAt hi.f off with
        | .error _ => .done none
        | .ok e => consider key e := by
  set ahead := if off < 2 ^ 63 then readAt hi.f off entryReadAheadSize else [] with aheadDef
  by_cases short : ahead.length < 10
  · left
    simp only [read, readEntryAt, ← aheadDef, if_pos short]
  · by_cases fast : entryOverhead + getLE (readAt ahead 8 2) ≤ ahead.length
    · left
      simp only [read, readEntryAt, ← aheadDef, if_neg short, if_pos fast]
    · right
      simp only [read, readEntryAt, ← aheadDef, if_neg short, if_neg fast]
      split <;> simp_all

/-- The reads from the head of the loop on. -/
theorem iterate_read {fuel off : Nat} {result : Option (NeedleAddr × Int64)}
    (looped : Res.loop (getStep hi key) fuel off = .ok result) :
    ∃ n, (read hi key)^[n] (goto off) = .done result := by
  induction fuel generalizing off with
  | zero => cases looped
  | succ fuel ih =>
      by_cases atEnd : off = 0
      · refine ⟨0, ?_⟩
        simp only [Res.loop, getStep, if_pos atEnd, Res.ok.injEq] at looped
        rw [← looped, goto, if_pos atEnd]
        rfl
      · have rest : ∃ n, (read hi key)^[n]
            (match readEntryAt hi.f off with
              | .error _ => .done none
              | .ok e => consider key e) = .done result := by
          cases entry : readEntryAt hi.f off with
          | error cause =>
              simp only [Res.loop, getStep, if_neg atEnd, entry, Res.ok.injEq] at looped
              exact ⟨0, by rw [← looped]; rfl⟩
          | ok e =>
              by_cases same : e.key = key
              · simp only [Res.loop, getStep, if_neg atEnd, entry, if_pos same,
                  Res.ok.injEq] at looped
                exact ⟨0, by rw [← looped]; exact if_pos same⟩
              · simp only [Res.loop, getStep, if_neg atEnd, entry, if_neg same] at looped
                change ∃ n, (read hi key)^[n] (consider key e) = .done result
                rw [consider, if_neg same]
                exact ih looped
        rcases rest with ⟨n, reads⟩
        rw [goto, if_neg atEnd]
        rcases read_walking off with once | twice
        · exact ⟨n + 1, by rw [Function.iterate_succ_apply, once, reads]⟩
        · exact ⟨n + 2, by rw [Function.iterate_succ_apply, Function.iterate_succ_apply,
            twice, reads]⟩

/-- Without writers, the reads of a lookup make up `Get`. -/
theorem read_alone {result : Option (NeedleAddr × Int64)} (isGet : get hi key = .ok result) :
    ∃ n, (read hi key)^[n] .idle = .done result := by
  by_cases noBuckets : hi.bucketCount = 0
  · rw [get, hashSlot, if_pos noBuckets] at isGet
    cases isGet
  · rw [get, hashSlot, if_neg noBuckets, Res.ok_bind] at isGet
    rcases iterate_read isGet with ⟨n, reads⟩
    exact ⟨n + 1, by rw [Function.iterate_succ_apply]; exact reads⟩

/-! ## What a lookup relies on -/

/-- The lookup will find `target`, with at most `left` more reads. -/
def Finds (contents : Bytes) (base : Nat) (key : Key) (target : Option (NeedleAddr × Int64)) :
    Nat → Reader → Prop
  | _, .idle => False
  | left, .walking off =>
      ∃ entries, Walk contents base off entries ∧ 0 < off ∧ found entries key = target ∧
        2 * entries.length ≤ left
  | left, .halfway off ahead =>
      ∃ e rest, Walk contents base off (e :: rest) ∧ found (e :: rest) key = target ∧
        ahead = readAt contents off entryReadAheadSize ∧ ahead.length = entryReadAheadSize ∧
        entryReadAheadSize < entryOverhead + getLE (readAt ahead 8 2) ∧
        2 * rest.length + 1 ≤ left
  | _, .done result => result = target

variable {contents other : Bytes} {base left : Nat} {target : Option (NeedleAddr × Int64)}
  {reader : Reader}

/-- Nothing changes for a lookup when the file grows. -/
theorem Finds.grow (finds : Finds contents base key target left reader)
    (grown : Grown base contents other) : Finds other base key target left reader := by
  cases reader with
  | idle => exact finds
  | walking off =>
      rcases finds with ⟨entries, walk, rest⟩
      exact ⟨entries, walk.grow grown, rest⟩
  | halfway off ahead =>
      rcases finds with ⟨e, rest, walk, foundEq, aheadEq, lengthEq, more⟩
      refine ⟨e, rest, walk.grow grown, foundEq, ?_, lengthEq, more⟩
      cases walk with
      | step _ behind isEntry _ _ =>
          rw [grown.readAt behind (lt_length_of_readEntryAt isEntry).le (aheadEq ▸ lengthEq),
            aheadEq]
  | done result => exact finds

theorem Finds.goto {off : Nat} {entries : List IdxEntry} (walk : Walk contents base off entries)
    (foundEq : found entries key = target) (enough : 2 * entries.length ≤ left) :
    Finds contents base key target left (goto off) := by
  by_cases atEnd : off = 0
  · rw [Reader.goto, if_pos atEnd]
    cases walk with
    | done => exact foundEq
    | step positive _ _ _ _ => omega
  · rw [Reader.goto, if_neg atEnd]
    exact ⟨entries, walk, Nat.pos_of_ne_zero atEnd, foundEq, enough⟩

theorem Finds.consider {off : Nat} {e : IdxEntry} {rest : List IdxEntry}
    (walk : Walk contents base off (e :: rest)) (foundEq : found (e :: rest) key = target)
    (enough : 2 * rest.length ≤ left) :
    Finds contents base key target left (consider key e) := by
  rw [found_cons] at foundEq
  by_cases same : e.key = key
  · rw [if_pos same] at foundEq
    rw [Reader.consider, if_pos same]
    exact foundEq
  · rw [if_neg same] at foundEq
    rw [Reader.consider, if_neg same]
    cases walk with
    | step _ _ _ _ walk => exact Finds.goto walk foundEq enough

/-- Every read brings the lookup nearer to its end. -/
theorem Finds.read (finds : Finds hi.f base key target (left + 1) reader) :
    Finds hi.f base key target left (read hi key reader) := by
  have readAhead : entryReadAheadSize = 256 := rfl
  cases reader with
  | idle => exact finds.elim
  | walking off =>
      rcases finds with ⟨entries, walk, positive, foundEq, enough⟩
      cases walk with
      | done => omega
      | @step _ e rest _ behind isEntry backwards tailWalk =>
          have walk : Walk hi.f base off (e :: rest) :=
            .step positive behind isEntry backwards tailWalk
          rcases readEntryAt_eq_ok.mp isEntry with ⟨inFile, complete⟩
          rw [List.length_cons] at enough
          set ahead := readAt hi.f off entryReadAheadSize with aheadDef
          have aheadLength : ahead.length = min entryReadAheadSize (hi.f.drop off).length := by
            rw [aheadDef, readAt, List.length_take]
          simp only [readEntryAt, if_pos inFile, ← aheadDef] at isEntry
          simp only [Reader.read, if_pos inFile, ← aheadDef]
          by_cases short : ahead.length < 10
          · rw [if_pos short] at isEntry
            cases isEntry
          · rw [if_neg short] at isEntry ⊢
            by_cases fast : entryOverhead + getLE (readAt ahead 8 2) ≤ ahead.length
            · rw [if_pos fast] at isEntry ⊢
              rw [Except.ok.inj isEntry]
              exact Finds.consider walk foundEq (by omega)
            · rw [if_neg fast]
              have lengthEq : readAt ahead 8 2 = readAt (hi.f.drop off) 8 2 := by
                simp only [aheadDef, readAt, List.drop_take, List.take_take]
                rfl
              have whole : entryOverhead + getLE (readAt ahead 8 2) ≤ (hi.f.drop off).length := by
                rw [lengthEq]
                unfold entryOf at complete
                by_contra notWhole
                simp only [if_neg notWhole] at complete
                cases complete
              exact ⟨e, rest, walk, foundEq, aheadDef, by omega, by omega, by omega⟩
  | halfway off ahead =>
      rcases finds with ⟨e, rest, walk, foundEq, aheadEq, lengthEq, long, enough⟩
      have walkAgain := walk
      cases walk with
      | step _ _ isEntry _ _ =>
          have inFile := (readEntryAt_eq_ok.mp isEntry).1
          simp only [readEntryAt, if_pos inFile, ← aheadEq] at isEntry
          rw [if_neg (by omega), if_neg (by omega)] at isEntry
          simp only [Reader.read]
          by_cases short : (readAt hi.f (off + ahead.length)
              (entryOverhead + getLE (readAt ahead 8 2) - ahead.length)).length <
                entryOverhead + getLE (readAt ahead 8 2) - ahead.length
          · rw [if_pos short] at isEntry
            cases isEntry
          · rw [if_neg short] at isEntry ⊢
            rw [Except.ok.inj isEntry]
            exact Finds.consider walkAgain foundEq (by omega)
  | done result => exact finds

/-- A lookup with no reads left is at its end. -/
theorem Finds.ended (finds : Finds contents base key target 0 reader) : reader = .done target := by
  cases reader with
  | idle => exact finds.elim
  | walking off =>
      rcases finds with ⟨entries, walk, positive, _, noneLeft⟩
      cases walk with
      | done => omega
      | step _ _ _ _ _ => simp at noneLeft
  | halfway off ahead =>
      rcases finds with ⟨_, _, _, _, _, _, _, noneLeft⟩
      omega
  | done result => exact congrArg Reader.done finds

theorem Finds.result_eq {result : Option (NeedleAddr × Int64)}
    (finds : Finds contents base key target left (.done result)) : result = target :=
  finds

end Reader

/-! ## What writers keep -/

namespace Race

/-- What a writer has done up to its phase. -/
def InOrder (hi : HashIndex) (chain : Nat → List IdxEntry) (w : Writer) : Prop :=
  w.slot = (fnv64a w.update.key).toNat % hi.bucketCount ∧
    hi.writePos + (if w.phase = .appended then w.size else 0) = hi.f.length ∧
    (w.phase ≠ .published → ∃ next, Walk hi.f (dataStart hi.bucketCount) w.newOff
      (newEntry next w.update.key w.update.addr w.update.expiresAt w.update.deleted ::
        chain w.slot))

/-- Every bucket has its chain, and together they make up the map. -/
structure Sound (s : Race) (chain : Nat → List IdxEntry) : Prop where
  bucketCount_pos : 0 < s.hi.bucketCount
  bucketBase_eq : s.hi.bucketBase = hiHeaderSize
  buckets_length : s.hi.buckets.length = s.hi.bucketCount
  table : dataStart s.hi.bucketCount ≤ s.hi.f.length
  within : s.hi.f.length ≤ File.maxSize
  walks : ∀ slot < s.hi.bucketCount,
    Walk s.hi.f (dataStart s.hi.bucketCount) (s.hi.buckets.getD slot 0) (chain slot)
  map_eq : ∀ key, s.map key = found (chain ((fnv64a key).toNat % s.hi.bucketCount)) key
  idle : s.writer = none → s.hi.writePos = s.hi.f.length
  busy : ∀ w, s.writer = some w → InOrder s.hi chain w

/-- What a step of a writer does, as far as it concerns a lookup. -/
def Kept (s next : Race) : Prop :=
  next.hi.bucketCount = s.hi.bucketCount ∧
    Grown (dataStart s.hi.bucketCount) s.hi.f next.hi.f ∧ next.reader = s.reader

theorem Kept.refl (s : Race) : Kept s s :=
  ⟨rfl, .refl _ _, rfl⟩

variable {s : Race} {chain : Nat → List IdxEntry}

theorem Sound.begin (sound : Sound s chain) {update : Update}
    (keyFits : update.key.length ≤ 65535) :
    Sound (s.begin update) chain ∧ Kept s (s.begin update) := by
  unfold Race.begin
  cases free : s.writer with
  | some w => exact ⟨sound, .refl s⟩
  | none =>
      set slot := (fnv64a update.key).toNat % s.hi.bucketCount with slotDef
      have slotLt : slot < s.hi.bucketCount := Nat.mod_lt _ sound.bucketCount_pos
      set entry := encodeIndexEntry (s.hi.buckets.getD slot 0) update.key update.addr
        update.expiresAt update.deleted with entryDef
      have atEnd := sound.idle free
      have nonempty : 0 < s.hi.f.length := by
        have table := sound.table
        unfold dataStart hiHeaderSize at table
        omega
      simp only
      by_cases fits : s.hi.writePos + entry.length ≤ File.maxSize
      · rw [if_pos fits, File.writeAt_end atEnd]
        have grown : Grown (dataStart s.hi.bucketCount) s.hi.f (s.hi.f ++ entry) := .append ..
        refine ⟨?_, rfl, grown, rfl⟩
        exact
          { bucketCount_pos := sound.bucketCount_pos
            bucketBase_eq := sound.bucketBase_eq
            buckets_length := sound.buckets_length
            table := by
              change _ ≤ (s.hi.f ++ entry).length
              rw [List.length_append]
              exact sound.table.trans (Nat.le_add_right _ _)
            within := by
              change (s.hi.f ++ entry).length ≤ _
              rw [List.length_append, ← atEnd]
              exact fits
            walks := fun other otherLt => (sound.walks other otherLt).grow grown
            map_eq := sound.map_eq
            idle := nofun
            busy := by
              rintro _ ⟨⟩
              refine ⟨rfl, ?_, fun _ => ⟨s.hi.buckets.getD slot 0, ?_⟩⟩
              · change s.hi.writePos + entry.length = (s.hi.f ++ entry).length
                rw [List.length_append, atEnd]
              · rw [atEnd]
                exact (sound.walks slot slotLt).extend nonempty sound.table sound.within keyFits
                  _ _ _ }
      · rw [if_neg fits]
        exact ⟨sound, .refl s⟩

theorem Sound.write (sound : Sound s chain) :
    ∃ nextChain, Sound s.write nextChain ∧ Kept s s.write := by
  unfold Race.write
  cases writer : s.writer with
  | none => exact ⟨chain, sound, .refl s⟩
  | some w =>
      rcases sound.busy w writer with ⟨slotEq, position, linked⟩
      have slotLt : w.slot < s.hi.bucketCount := slotEq ▸ Nat.mod_lt _ sound.bucketCount_pos
      simp only
      cases phase : w.phase with
      | appended =>
          rw [phase, if_pos rfl] at position
          refine ⟨chain, { sound with idle := nofun, busy := ?_ }, .refl _⟩
          rintro _ ⟨⟩
          exact ⟨slotEq, position, fun _ => linked (by rw [phase]; decide)⟩
      | advanced =>
          rw [phase, if_neg (by decide)] at position
          refine ⟨chain, { sound with idle := nofun, busy := ?_ }, .refl _⟩
          rintro _ ⟨⟩
          exact ⟨slotEq, position, fun _ => linked (by rw [phase]; decide)⟩
      | counted =>
          rw [phase, if_neg (by decide)] at position
          rcases linked (by rw [phase]; decide) with ⟨next, walk⟩
          have inRange : w.slot < s.hi.buckets.length := sound.buckets_length ▸ slotLt
          refine ⟨Function.update chain w.slot (newEntry next w.update.key w.update.addr
            w.update.expiresAt w.update.deleted :: chain w.slot), ?_, .refl _⟩
          refine { sound with
            buckets_length := by simp [sound.buckets_length]
            walks := ?_, map_eq := ?_, idle := nofun, busy := ?_ }
          · intro other otherLt
            change Walk s.hi.f _ ((s.hi.buckets.set w.slot w.newOff).getD other 0) _
            by_cases same : w.slot = other
            · subst same
              rw [Function.update_self, List.getD_eq_getElem?_getD,
                List.getElem?_set_self inRange, Option.getD_some]
              exact walk
            · rw [Function.update_of_ne (Ne.symm same), List.getD_eq_getElem?_getD,
                List.getElem?_set_ne same, ← List.getD_eq_getElem?_getD]
              exact sound.walks other otherLt
          · intro other
            change Function.update s.map w.update.key w.update.content other = found
              (Function.update chain w.slot _ ((fnv64a other).toNat % s.hi.bucketCount)) other
            by_cases sameSlot : (fnv64a other).toNat % s.hi.bucketCount = w.slot
            · rw [sameSlot, Function.update_self, found_cons]
              by_cases same : w.update.key = other
              · subst same
                rw [Function.update_self]
                exact (if_pos rfl).symm
              · rw [Function.update_of_ne (Ne.symm same), sound.map_eq, sameSlot]
                exact (if_neg same).symm
            · have different : other ≠ w.update.key := by
                rintro rfl
                exact sameSlot slotEq.symm
              rw [Function.update_of_ne different, Function.update_of_ne sameSlot, sound.map_eq]
          · rintro _ ⟨⟩
            exact ⟨slotEq, position, fun unpublished => absurd rfl unpublished⟩
      | published =>
          rw [phase, if_neg (by decide), Nat.add_zero] at position
          have inside : s.hi.bucketBase + w.slot * 8 + (putLE 8 w.newOff).length ≤
              dataStart s.hi.bucketCount := by
            rw [sound.bucketBase_eq, Bytes.length_putLE]
            unfold dataStart
            omega
          have grown := Grown.writeAt inside sound.table
          have sameLength := File.length_writeAt_inside (inside.trans sound.table)
          refine ⟨chain, ?_, rfl, grown, rfl⟩
          refine { sound with
            table := by rw [sameLength]; exact sound.table
            within := by rw [sameLength]; exact sound.within
            walks := fun other otherLt => (sound.walks other otherLt).grow grown
            idle := fun _ => position.trans sameLength.symm, busy := nofun }

/-- Any step of a writer. -/
theorem Sound.step_writer (sound : Sound s chain) {key : Key} {move : Move} (notRead : move ≠ .read)
    (keyFits : ∀ update, move = .begin update → update.key.length ≤ 65535) :
    ∃ nextChain, Sound (s.step key move) nextChain ∧ Kept s (s.step key move) := by
  cases move with
  | begin update => exact ⟨chain, sound.begin (keyFits update rfl)⟩
  | write => exact sound.write
  | read => exact absurd rfl notRead

theorem Sound.read (sound : Sound s chain) (key : Key) : Sound (s.step key .read) chain :=
  { sound with idle := sound.idle }

/-- Writers at work before the lookup begins. -/
theorem Sound.run_writers (sound : Sound s chain) {key : Key} {moves : List Move}
    (noReads : ∀ move ∈ moves, move ≠ .read)
    (keysFit : ∀ update, .begin update ∈ moves → update.key.length ≤ 65535) :
    ∃ nextChain, Sound (run key moves s) nextChain ∧ (run key moves s).reader = s.reader := by
  induction moves generalizing s chain with
  | nil => exact ⟨chain, sound, rfl⟩
  | cons move rest ih =>
      rcases sound.step_writer (noReads move List.mem_cons_self)
        (fun update same => keysFit update (same ▸ List.mem_cons_self)) with
        ⟨nextChain, nextSound, _, _, sameReader⟩
      rcases ih nextSound (fun other mem => noReads other (List.mem_cons_of_mem _ mem))
        (fun update mem => keysFit update (List.mem_cons_of_mem _ mem)) with
        ⟨lastChain, lastSound, readerEq⟩
      exact ⟨lastChain, lastSound, readerEq.trans sameReader⟩

/-- A lookup under way finds its target, whatever is written meanwhile. -/
theorem Sound.run_finds (sound : Sound s chain) {key : Key} {left : Nat}
    {target : Option (NeedleAddr × Int64)} {moves : List Move}
    (finds : Reader.Finds s.hi.f (dataStart s.hi.bucketCount) key target left s.reader)
    (keysFit : ∀ update, .begin update ∈ moves → update.key.length ≤ 65535) :
    ∃ contents base, Reader.Finds contents base key target (left - moves.count .read)
      (run key moves s).reader := by
  induction moves generalizing s chain left with
  | nil => exact ⟨_, _, finds⟩
  | cons move rest ih =>
      have restFit : ∀ update, .begin update ∈ rest → update.key.length ≤ 65535 :=
        fun update mem => keysFit update (List.mem_cons_of_mem _ mem)
      by_cases isRead : move = .read
      · subst isRead
        rw [List.count_cons_self, Nat.add_comm, ← Nat.sub_sub]
        refine ih (sound.read key) ?_ restFit
        cases left with
        | zero =>
            have ended := finds.ended
            change Reader.Finds _ _ _ _ _ (s.reader.read s.hi key)
            rw [ended]
            exact rfl
        | succ left => exact finds.read
      · rw [List.count_cons_of_ne isRead]
        rcases sound.step_writer isRead
          (fun update same => keysFit update (same ▸ List.mem_cons_self)) with
          ⟨nextChain, nextSound, countEq, grown, sameReader⟩
        refine ih nextSound ?_ restFit
        rw [countEq, sameReader]
        exact finds.grow grown

/-- An index that nobody works on. -/
theorem quiet_sound {hi : HashIndex} {content : Content} (represents : Represents hi content) :
    ∃ chain, Sound (quiet hi content) chain := by
  rcases represents with ⟨_, log, layout, rfl, _⟩
  rcases layout.chains with ⟨chain, chains, agree⟩
  refine ⟨chain, ?_⟩
  exact
    { bucketCount_pos := layout.bucketCount_pos
      bucketBase_eq := layout.bucketBase_eq
      buckets_length := layout.buckets_length
      table := chains.usable.table
      within := layout.within
      walks := chains.walks
      map_eq := fun key => (agree key).symm
      idle := fun _ => layout.writePos_eq
      busy := nofun }

/-- However its steps interleave with those of writers, a lookup returns what the map
held for its key when it loaded its bucket, and it does so after a number of reads
that is settled at that moment. -/
theorem lookup_eq_load {hi : HashIndex} {content : Content} (represents : Represents hi content)
    (key : Key) (before : List Move) (noReads : ∀ move ∈ before, move ≠ .read)
    (beforeFit : ∀ update, .begin update ∈ before → update.key.length ≤ 65535) :
    ∃ bound, ∀ after, (∀ update, .begin update ∈ after → update.key.length ≤ 65535) →
      (∀ result, (run key (before ++ .read :: after) (quiet hi content)).reader = .done result →
        result = (run key before (quiet hi content)).map key) ∧
      (bound ≤ after.count .read →
        (run key (before ++ .read :: after) (quiet hi content)).reader =
          .done ((run key before (quiet hi content)).map key)) := by
  rcases quiet_sound represents with ⟨chain, sound⟩
  rcases @Sound.run_writers _ _ sound key before noReads beforeFit with ⟨midChain, midSound, idle⟩
  set mid := run key before (quiet hi content) with midDef
  set slot := (fnv64a key).toNat % mid.hi.bucketCount with slotDef
  have slotLt : slot < mid.hi.bucketCount := Nat.mod_lt _ midSound.bucketCount_pos
  have loaded : Reader.Finds mid.hi.f (dataStart mid.hi.bucketCount) key (mid.map key)
      (2 * (midChain slot).length) (mid.step key .read).reader := by
    change Reader.Finds _ _ _ _ _ (mid.reader.read mid.hi key)
    rw [idle]
    exact Reader.Finds.goto (midSound.walks slot slotLt) (midSound.map_eq key).symm (Nat.le_refl _)
  refine ⟨2 * (midChain slot).length, fun after afterFit => ?_⟩
  have split : run key (before ++ .read :: after) (quiet hi content) =
      run key after (mid.step key .read) := by
    rw [run, List.foldl_append, List.foldl_cons]
    rfl
  rcases (midSound.read key).run_finds loaded afterFit with ⟨contents, base, finds⟩
  rw [split]
  constructor
  · intro result ended
    rw [ended] at finds
    exact finds.result_eq
  · intro enough
    rw [Nat.sub_eq_zero_of_le enough] at finds
    exact finds.ended

/-- A new index, and a writer that has not published its entry. -/
theorem lookup_eq_load_unpublished :
    ∃ hi, Represents hi (fun _ => none) ∧ ∃ bound, ∀ after,
      (∀ update, .begin update ∈ after → update.key.length ≤ 65535) → bound ≤ after.count .read →
        (run [107] (.begin (.set [107] ⟨0, 0, 1⟩ 0) :: .read :: after)
          (quiet hi fun _ => none)).reader = .done none := by
  rcases exists_fresh with ⟨hi, represents, _⟩
  refine ⟨hi, represents, ?_⟩
  rcases lookup_eq_load represents [107] [.begin (.set [107] ⟨0, 0, 1⟩ 0)] (by simp)
    (by simp [Update.set]) with ⟨bound, holds⟩
  refine ⟨bound, fun after fits enough => ?_⟩
  have unpublished : ∀ hi, (run [107] [.begin (.set [107] ⟨0, 0, 1⟩ 0)]
      (quiet hi fun _ => none)).map [107] = none := by
    intro hi
    simp only [run, List.foldl_cons, List.foldl_nil, step, begin, quiet]
    split <;> rfl
  have ended := (holds after fits).2 enough
  rwa [unpublished] at ended

/-- An update up to its publication. -/
def publishes (update : Update) : List Move :=
  [.begin update, .write, .write, .write]

theorem run_append (key : Key) (first second : List Move) (s : Race) :
    run key (first ++ second) s = run key second (run key first s) :=
  List.foldl_append

/-- A lookup whose chain begins with a tombstone of its key finds nothing. -/
theorem run_tombstone {key : Key} (idle : s.reader = .idle) {off : Nat} {e : IdxEntry}
    (head : s.hi.buckets.getD ((fnv64a key).toNat % s.hi.bucketCount) 0 = off) (notEnd : off ≠ 0)
    (isEntry : readEntryAt s.hi.f off = .ok e) (keyEq : e.key = key)
    (isDeleted : e.deleted = true) :
    ∃ after, (run key (.read :: after) s).reader = .done none := by
  have loaded : s.reader.read s.hi key = .walking off := by
    rw [idle]
    change Reader.goto _ = _
    rw [head, Reader.goto, if_neg notEnd]
  have considered : Reader.consider key e = .done none := by
    rw [Reader.consider, if_pos keyEq, if_pos isDeleted]
  have first : ∀ after, run key (.read :: after) s =
      run key after { s with reader := .walking off } := by
    intro after
    rw [← loaded]
    rfl
  rcases @Reader.read_walking s.hi key off with once | twice
  · rw [isEntry] at once
    exact ⟨[.read], by rw [first]; exact once.trans considered⟩
  · rw [isEntry] at twice
    exact ⟨[.read, .read], by rw [first]; exact twice.trans considered⟩

/-- If an update of another key leaves an entry that reads as a tombstone of `key`, a
lookup of `key` finds nothing. -/
theorem run_publishes {hi : HashIndex} (usable : Usable hi) (content : Content) {key : Key}
    {update : Update} (other : key ≠ update.key) (sameHash : fnv64a update.key = fnv64a key)
    (fits : hi.writePos + (entryOverhead + update.key.length) ≤ File.maxSize)
    (reads : ∀ next, ∃ e, readEntryAt (hi.f ++ encodeIndexEntry next update.key update.addr
      update.expiresAt update.deleted) hi.f.length = .ok e ∧ e.key = key ∧ e.deleted = true) :
    (∃ after, (run key (publishes update ++ .read :: after) (quiet hi content)).reader =
        .done none) ∧
      (run key (publishes update) (quiet hi content)).map key = content key := by
  rcases reads (hi.buckets.getD ((fnv64a update.key).toNat % hi.bucketCount) 0) with
    ⟨e, isEntry, keyEq, isDeleted⟩
  have slotLt : (fnv64a key).toNat % hi.bucketCount < hi.buckets.length := by
    rw [usable.buckets_length]
    exact Nat.mod_lt _ usable.bucketCount_pos
  have published := @publish_alone (quiet hi content) usable rfl update fits _ rfl _ rfl
  have stored : run key (publishes update) (quiet hi content) =
      ((quiet hi content).begin update).write.write.write := by
    simp only [run, publishes, List.foldl_cons, List.foldl_nil, step]
  rw [published] at stored
  constructor
  · simp only [run_append]
    rw [stored]
    refine run_tombstone rfl ?_ usable.nonempty.ne' isEntry keyEq isDeleted
    change (hi.buckets.set ((fnv64a update.key).toNat % hi.bucketCount) hi.writePos).getD
      ((fnv64a key).toNat % hi.bucketCount) 0 = hi.f.length
    rw [sameHash, List.getD_eq_getElem?_getD, List.getElem?_set_self slotLt, Option.getD_some,
      usable.writePos_eq]
  · rw [stored]
    exact Function.update_of_ne other ..

/-- A key that is too long hides another one from a lookup. -/
theorem lookup_ne_load :
    ∃ hi content after, Represents hi content ∧
      (run [] (publishes (.set longKey ⟨0, 0, 1⟩ 0) ++ .read :: after) (quiet hi content)).reader =
        .done none ∧
      (run [] (publishes (.set longKey ⟨0, 0, 1⟩ 0)) (quiet hi content)).map [] =
        some (⟨0, 0, 1⟩, 0) := by
  rcases @exists_oneEntry [] (by decide) ⟨0, 0, 1⟩ 0 with
    ⟨stored, ⟨_, log, layout, contentEq, noTmp⟩, _, lengthEq⟩
  have notLong : ([] : Key) ≠ longKey := by
    intro same
    have lengths := congrArg List.length same
    rw [length_longKey] at lengths
    cases lengths
  have fits : stored.writePos + (entryOverhead + longKey.length) ≤ File.maxSize := by
    rw [layout.writePos_eq, lengthEq, length_longKey]
    decide
  have inFile : stored.f.length < 2 ^ 63 := by
    rw [lengthEq]
    decide
  have reads : ∀ next, ∃ e, readEntryAt (stored.f ++ encodeIndexEntry next longKey ⟨0, 0, 1⟩ 0
      false) stored.f.length = .ok e ∧ e.key = [] ∧ e.deleted = true := by
    intro next
    have tombstone := @readEntryAt_longKey stored.f [] next ⟨0, 0, 1⟩ 0 inFile
    rwa [List.append_nil] at tombstone
  rcases @run_publishes stored layout.usable
    (Function.update (fun _ => none) [] (some (⟨0, 0, 1⟩, 0))) [] (.set longKey ⟨0, 0, 1⟩ 0)
    notLong fnv64a_longKey fits reads with ⟨⟨after, hidden⟩, mapEq⟩
  refine ⟨stored, _, after, ⟨_, log, layout, contentEq, noTmp⟩, hidden, ?_⟩
  rw [mapEq, Function.update_self]

end Race

end BriseDB.Index
