import BriseDB.Types
import BriseDB.Base.File

/-!
# Volume files

A volume is an append-only file of blobs, each preceded by its size in eight
big-endian bytes.  The file is opened in append mode, so a write goes to the end
of the file whatever the volume believes its end to be; the offset of the
returned address is taken from the field `endOffset`.
-/

namespace BriseDB

open Bytes (putBE getBE)
open File (readAt)

/-- A volume object with the contents of its file.  `endOffset` is the field
`end`. -/
structure Volume where
  id : UInt32
  contents : Bytes
  endOffset : UInt64
  deriving DecidableEq, Repr

/-- What a reader yields until its end, and the error it ends with, if any. -/
structure Reader where
  data : Bytes
  error : Option String
  deriving DecidableEq, Repr

namespace Volume

/-- `openVolume` on a file with the given contents. -/
def openVolume (id : UInt32) (contents : Bytes) : Volume where
  id := id
  contents := contents
  endOffset := UInt64.ofNat contents.length

/-- `v.f.Write` in append mode. -/
def appendFile (data : Bytes) : Exec Volume Unit := do
  let v ← Exec.state
  let (contents, error) ← File.write v.contents v.contents.length data
  Exec.put { v with contents := contents }
  match error with
  | some cause => Exec.throw cause
  | none => pure ()

/-- The bytes stored for a blob. -/
def encodeBlob (data : Bytes) : Bytes :=
  putBE 8 data.length ++ data

/-- `write`. -/
def write (data : Bytes) : Exec Volume NeedleAddr := do
  let v ← Exec.state
  Exec.wrap s!"volume {v.id}: write header" (appendFile (putBE 8 data.length))
  Exec.wrap s!"volume {v.id}: write data" (appendFile data)
  Exec.modify fun current =>
    { current with endOffset := current.endOffset + (8 + UInt64.ofNat data.length) }
  pure ⟨v.id, v.endOffset, UInt64.ofNat data.length⟩

/-- `writeStream`: copy what the reader yields behind a header with the announced
size. -/
def writeStream (r : Reader) (size : Int64) : Exec Volume NeedleAddr := do
  let v ← Exec.state
  Exec.wrap s!"volume {v.id}: write header" (appendFile (putBE 8 size.toUInt64.toNat))
  Exec.wrap s!"volume {v.id}: stream data" (appendFile r.data)
  match r.error with
  | some cause => Exec.throw s!"volume {v.id}: stream data: {cause}"
  | none =>
      if (r.data.length : Int) ≠ size.toInt then
        Exec.throw s!"volume {v.id}: expected {size} bytes, got {r.data.length}"
      else
        Exec.modify fun current =>
          { current with endOffset := current.endOffset + (8 + size.toUInt64) }
        pure ⟨v.id, v.endOffset, size.toUInt64⟩

/-- `read` where the longest slice that can be made has `limit` bytes: header and payload in
one positional read.  Offsets from `2 ^ 63` on are negative as signed integers. -/
def readWithin (limit : Nat) (v : Volume) (addr : NeedleAddr) : Res Bytes :=
  let count := (8 + addr.size).toNat
  if limit < count then .panic "makeslice: len out of range"
  else if 2 ^ 63 ≤ addr.offset.toNat then
    .err s!"volume {v.id}: read at {addr.offset}: negative offset"
  else
    let buf := readAt v.contents addr.offset.toNat count
    if buf.length < count then .err s!"volume {v.id}: read at {addr.offset}: EOF"
    else if count < 8 then .panic "slice bounds out of range"
    else
      let size := getBE (buf.take 8)
      if size ≠ addr.size.toNat then
        .err s!"volume {v.id}: size mismatch at {addr.offset}: index={addr.size} file={size}"
      else .ok (buf.drop 8)

/-- `read` where only the range of `int` bounds the length of a slice.  On a machine that makes
no slice of such a length, the code panics for some sizes for which this reports the end of the
file. -/
def read (v : Volume) (addr : NeedleAddr) : Res Bytes :=
  readWithin File.maxSize v addr

/-- `size`. -/
def size (v : Volume) : UInt64 :=
  v.endOffset

/-! ## Undisturbed volumes -/

/-- The volume knows the end of its file. -/
structure Intact (v : Volume) : Prop where
  end_eq : v.endOffset = UInt64.ofNat v.contents.length
  within : v.contents.length ≤ File.maxSize

theorem openVolume_intact {id : UInt32} {contents : Bytes}
    (within : contents.length ≤ File.maxSize) : (openVolume id contents).Intact :=
  ⟨rfl, within⟩

variable {room : Prop} {v : Volume} {addr : NeedleAddr} {data : Bytes} {limit : Nat}

theorem appendFile_returns {post : Unit → Volume → Prop}
    (roomy : room → v.contents.length + data.length ≤ File.maxSize)
    (holds : v.contents.length + data.length ≤ File.maxSize →
      post () { v with contents := v.contents ++ data }) :
    (appendFile data).Returns room v post := by
  unfold appendFile
  refine .bind_state (File.bind_write roomy fun fits => .bind_put ?_)
  rw [File.writeAt_end rfl]
  exact .pure (holds fits)

theorem length_encodeBlob (data : Bytes) : (encodeBlob data).length = 8 + data.length := by
  simp [encodeBlob]

/-- The volume after a blob has been appended. -/
def append (v : Volume) (data : Bytes) : Volume :=
  { v with
    contents := v.contents ++ encodeBlob data
    endOffset := v.endOffset + (8 + UInt64.ofNat data.length) }

/-- The address a blob gets in a volume. -/
def nextAddr (v : Volume) (data : Bytes) : NeedleAddr :=
  ⟨v.id, v.endOffset, UInt64.ofNat data.length⟩

/-- Header and payload are appended one after the other. -/
theorem bind_appendBlob {α : Type} {header payload : String}
    {next : Unit → Exec Volume α} {post : α → Volume → Prop}
    (roomy : room → v.contents.length + (8 + data.length) ≤ File.maxSize)
    (rest : v.contents.length + (8 + data.length) ≤ File.maxSize →
      (next ()).Returns room { v with contents := v.contents ++ encodeBlob data } post) :
    ((Exec.wrap header (appendFile (putBE 8 data.length))) >>= fun _ =>
      (Exec.wrap payload (appendFile data)) >>= next).Returns room v post := by
  refine .through (fun _ state =>
    state = { v with contents := v.contents ++ putBE 8 data.length }) ?_ ?_
  · refine .wrap (appendFile_returns ?_ fun _ => rfl)
    intro enough
    have fits := roomy enough
    simp only [Bytes.length_putBE]
    omega
  rintro _ _ rfl
  refine .through (fun _ state =>
    state = { v with contents := v.contents ++ encodeBlob data } ∧
      v.contents.length + (8 + data.length) ≤ File.maxSize) ?_ ?_
  · refine .wrap (appendFile_returns ?_ fun fits => ⟨?_, ?_⟩)
    · intro enough
      simpa [Nat.add_assoc] using roomy enough
    · simp [encodeBlob]
    · simpa [Nat.add_assoc] using fits
  rintro _ _ ⟨rfl, fits⟩
  exact rest fits

/-- `write` appends the blob and returns the address where it starts. -/
theorem write_returns {post : NeedleAddr → Volume → Prop}
    (roomy : room → v.contents.length + (8 + data.length) ≤ File.maxSize)
    (holds : v.contents.length + (8 + data.length) ≤ File.maxSize →
      post (v.nextAddr data) (v.append data)) :
    (write data).Returns room v post := by
  unfold write
  refine .bind_state (bind_appendBlob roomy fun fits => ?_)
  exact .bind_modify (.pure (holds fits))

/-- The header of a stream that yields the announced number of bytes. -/
theorem toNat_size {size : Int64} (sizeEq : (data.length : Int) = size.toInt) :
    size.toUInt64.toNat = data.length := by
  have nonneg : 0 ≤ size := Int64.le_iff_toInt_le.mpr (by
    rw [← sizeEq]
    exact Int.natCast_nonneg _)
  rw [Int64.toNat_toUInt64_of_le nonneg, ← Int64.toNat_toInt, ← sizeEq, Int.toNat_natCast]

/-- `writeStream` does the same when the reader yields exactly the announced
number of bytes. -/
theorem writeStream_returns {size : Int64}
    (sizeEq : (data.length : Int) = size.toInt) {post : NeedleAddr → Volume → Prop}
    (roomy : room → v.contents.length + (8 + data.length) ≤ File.maxSize)
    (holds : v.contents.length + (8 + data.length) ≤ File.maxSize →
      post (v.nextAddr data) (v.append data)) :
    (writeStream ⟨data, none⟩ size).Returns room v post := by
  have lengthEq := toNat_size sizeEq
  have unsignedEq : size.toUInt64 = UInt64.ofNat data.length := by
    rw [← lengthEq, UInt64.ofNat_toNat]
  unfold writeStream
  rw [lengthEq, unsignedEq]
  refine .bind_state (bind_appendBlob roomy fun fits => ?_)
  simp only [sizeEq, ne_eq, not_true_eq_false, if_false]
  exact .bind_modify (.pure (holds fits))

theorem Intact.append (intact : v.Intact)
    (fits : v.contents.length + (8 + data.length) ≤ File.maxSize) : (v.append data).Intact where
  end_eq := by
    change v.endOffset + (8 + UInt64.ofNat data.length) = _
    rw [intact.end_eq, Volume.append, List.length_append, length_encodeBlob, UInt64.ofNat_add,
      UInt64.ofNat_add]
    rfl
  within := by
    rw [Volume.append, List.length_append, length_encodeBlob]
    exact fits

/-- When a read succeeds, and with which bytes. -/
theorem readWithin_eq_ok :
    readWithin limit v addr = .ok data ↔
      (8 + addr.size).toNat ≤ limit ∧ addr.offset.toNat < 2 ^ 63 ∧
      (8 + addr.size).toNat ≤
        (readAt v.contents addr.offset.toNat (8 + addr.size).toNat).length ∧
      8 ≤ (8 + addr.size).toNat ∧
      getBE ((readAt v.contents addr.offset.toNat (8 + addr.size).toNat).take 8) =
        addr.size.toNat ∧
      (readAt v.contents addr.offset.toNat (8 + addr.size).toNat).drop 8 = data := by
  unfold readWithin
  dsimp only
  split_ifs with tooLong negative short headless differs
  · exact iff_of_false nofun fun succeeds => absurd succeeds.1 (Nat.not_le.mpr tooLong)
  · exact iff_of_false nofun fun succeeds => absurd succeeds.2.1 (Nat.not_lt.mpr negative)
  · exact iff_of_false nofun fun succeeds => absurd succeeds.2.2.1 (Nat.not_le.mpr short)
  · exact iff_of_false nofun fun succeeds => absurd succeeds.2.2.2.1 (Nat.not_le.mpr headless)
  · exact iff_of_false nofun fun succeeds => absurd succeeds.2.2.2.2.1 differs
  · rw [Res.ok.injEq]
    exact ⟨fun same => ⟨Nat.le_of_not_lt tooLong, Nat.lt_of_not_le negative, Nat.le_of_not_lt short,
      Nat.le_of_not_lt headless, not_not.mp differs, same⟩, fun succeeds => succeeds.2.2.2.2.2⟩

/-- A read succeeds where the file holds a blob of the announced size. -/
theorem read_of_blob
    (sizeEq : addr.size.toNat = data.length) (small : 8 + data.length ≤ File.maxSize)
    (nonneg : addr.offset.toNat < 2 ^ 63)
    (bytes : readAt v.contents addr.offset.toNat (8 + data.length) = encodeBlob data) :
    read v addr = .ok data := by
  have countEq : (8 + addr.size).toNat = 8 + data.length := by
    unfold File.maxSize at small
    rw [UInt64.toNat_add, sizeEq]
    exact Nat.mod_eq_of_lt (show 8 + data.length < 2 ^ 64 by omega)
  have sizeField : (encodeBlob data).take 8 = putBE 8 data.length := by
    rw [encodeBlob, List.take_left' (Bytes.length_putBE ..)]
  have payload : (encodeBlob data).drop 8 = data := by
    rw [encodeBlob, List.drop_left' (Bytes.length_putBE ..)]
  have headerEq : getBE (putBE 8 data.length) = data.length := by
    unfold File.maxSize at small
    exact Bytes.getBE_putBE_of_lt (show data.length < 2 ^ 64 by omega)
  refine readWithin_eq_ok.mpr ?_
  rw [countEq, bytes, length_encodeBlob, sizeField, headerEq, payload, sizeEq]
  exact ⟨small, nonneg, le_rfl, Nat.le_add_right 8 _, rfl, rfl⟩

/-- A blob starts at the end of the file. -/
theorem Intact.offset_nextAddr (intact : v.Intact) (data : Bytes) :
    (v.nextAddr data).offset.toNat = v.contents.length := by
  have bound := intact.within
  unfold File.maxSize at bound
  rw [nextAddr, intact.end_eq]
  exact UInt64.toNat_ofNat_of_lt' (show v.contents.length < 2 ^ 64 by omega)

/-- A blob is read back at the address it got. -/
theorem Intact.read_nextAddr (intact : v.Intact)
    (fits : v.contents.length + (8 + data.length) ≤ File.maxSize) :
    read (v.append data) (v.nextAddr data) = .ok data := by
  have bound := fits
  unfold File.maxSize at bound
  have offsetEq := intact.offset_nextAddr data
  refine read_of_blob (UInt64.toNat_ofNat_of_lt' (show data.length < 2 ^ 64 by omega))
    (by omega) (by omega) ?_
  rw [offsetEq, Volume.append, File.readAt_append_right' rfl, List.take_of_length_le]
  rw [length_encodeBlob]

/-- A read that succeeds finds header and payload complete. -/
theorem full_of_read (readEq : read v addr = .ok data) :
    8 ≤ (8 + addr.size).toNat ∧ (8 + addr.size).toNat ≤
      (readAt v.contents addr.offset.toNat (8 + addr.size).toNat).length := by
  rcases readWithin_eq_ok.mp readEq with ⟨-, -, full, headed, -, -⟩
  exact ⟨headed, full⟩

/-- Appending keeps every blob readable. -/
theorem read_append
    (readEq : read v addr = .ok data) (more : Bytes) : read (v.append more) addr = .ok data := by
  refine readWithin_eq_ok.mpr ?_
  rw [Volume.append, File.readAt_append_of_full (full_of_read readEq).2]
  exact readWithin_eq_ok.mp readEq

/-- Nothing can be read at the address the next blob will get. -/
theorem Intact.unread_nextAddr (intact : v.Intact) (data other : Bytes) :
    read v (v.nextAddr data) ≠ .ok other := by
  intro readEq
  rcases full_of_read readEq with ⟨long, full⟩
  rw [File.length_readAt, intact.offset_nextAddr, Nat.sub_self] at full
  omega

/-! ## Reads at any address -/

/-- A read of a blob does what it should: the length of its buffer does not wrap around, and it
ends with an error or returns the bytes that follow a header with their number. -/
structure ReadsExactly (v : Volume) (addr : NeedleAddr) (outcome : Res Bytes) : Prop where
  noWrap : (8 + addr.size).toNat = 8 + addr.size.toNat
  exact : (∃ cause, outcome = .err cause) ∨ ∃ data, outcome = .ok data ∧
    data.length = addr.size.toNat ∧
    readAt v.contents addr.offset.toNat (8 + addr.size.toNat) = encodeBlob data

theorem readWithin_exact (noWrap : (8 + addr.size).toNat = 8 + addr.size.toNat)
    (readEq : readWithin limit v addr = .ok data) :
    data.length = addr.size.toNat ∧
      readAt v.contents addr.offset.toNat (8 + addr.size.toNat) = encodeBlob data := by
  rcases readWithin_eq_ok.mp readEq with ⟨-, -, full, -, headerEq, rfl⟩
  rw [noWrap] at full headerEq ⊢
  have bufLength : (readAt v.contents addr.offset.toNat (8 + addr.size.toNat)).length =
      8 + addr.size.toNat :=
    le_antisymm (by rw [File.length_readAt]; exact Nat.min_le_left ..) full
  generalize readAt v.contents addr.offset.toNat (8 + addr.size.toNat) = buf at *
  have sizeEq : (buf.drop 8).length = addr.size.toNat := by
    rw [List.length_drop, bufLength, Nat.add_sub_cancel_left]
  refine ⟨sizeEq, ?_⟩
  have eight : (buf.take 8).length = 8 := by
    rw [List.length_take, bufLength]
    exact Nat.min_eq_left (Nat.le_add_right 8 _)
  have header : putBE 8 addr.size.toNat = buf.take 8 := by
    rw [← headerEq]
    nth_rewrite 1 [← eight]
    exact Bytes.putBE_getBE _
  rw [encodeBlob, sizeEq, header, List.take_append_drop]

theorem readWithin_ends (within : (8 + addr.size).toNat ≤ limit)
    (headed : 8 ≤ (8 + addr.size).toNat) (v : Volume) :
    (∃ cause, readWithin limit v addr = .err cause) ∨
      ∃ data, readWithin limit v addr = .ok data := by
  unfold readWithin
  dsimp only
  rw [if_neg (Nat.not_lt.mpr within), if_neg (Nat.not_lt.mpr headed)]
  split_ifs
  · exact .inl ⟨_, rfl⟩
  · exact .inl ⟨_, rfl⟩
  · exact .inl ⟨_, rfl⟩
  · exact .inr ⟨_, rfl⟩

/-- A read does what it should exactly if a slice for header and payload can be made. -/
theorem readWithin_readsExactly_iff (inRange : limit ≤ File.maxSize) (v : Volume)
    (addr : NeedleAddr) :
    v.ReadsExactly addr (readWithin limit v addr) ↔ 8 + addr.size.toNat ≤ limit := by
  constructor
  · intro reads
    by_contra exceeds
    have panics : readWithin limit v addr = .panic "makeslice: len out of range" := by
      refine if_pos ?_
      rw [reads.noWrap]
      exact Nat.lt_of_not_le exceeds
    rw [panics] at reads
    rcases reads.exact with ⟨_, isError⟩ | ⟨_, isData, -⟩
    · cases isError
    · cases isData
  · intro within
    have noWrap : (8 + addr.size).toNat = 8 + addr.size.toNat := by
      unfold File.maxSize at inRange
      rw [UInt64.toNat_add]
      exact Nat.mod_eq_of_lt (show 8 + addr.size.toNat < 2 ^ 64 by omega)
    refine ⟨noWrap, ?_⟩
    rcases readWithin_ends (noWrap ▸ within) (noWrap ▸ Nat.le_add_right 8 _) v with
      isError | ⟨data, isData⟩
    · exact .inl isError
    · exact .inr ⟨data, isData, readWithin_exact noWrap isData⟩

/-- A smaller bound on slices changes nothing for the sizes within it. -/
theorem readWithin_eq_read (inRange : limit ≤ File.maxSize) (v : Volume)
    (within : (8 + addr.size).toNat ≤ limit) :
    readWithin limit v addr = read v addr := by
  unfold read readWithin
  dsimp only
  rw [if_neg (Nat.not_lt.mpr within), if_neg (Nat.not_lt.mpr (within.trans inRange))]

/-- The blobs that can be read are the same for every bound that the volume is within. -/
theorem readWithin_eq_ok_iff_read (inRange : limit ≤ File.maxSize)
    (small : v.contents.length ≤ limit) :
    readWithin limit v addr = .ok data ↔ read v addr = .ok data := by
  constructor
  · intro readEq
    rw [← readWithin_eq_read inRange v (readWithin_eq_ok.mp readEq).1]
    exact readEq
  · intro readEq
    have full := (full_of_read readEq).2
    rw [File.length_readAt] at full
    rw [readWithin_eq_read inRange v (by omega)]
    exact readEq

/-- On a machine with slices of up to `2 ^ 48` bytes, a blob of one byte is read. -/
theorem readWithin_readsExactly_iff_oneByte :
    ReadsExactly (openVolume 0 [0, 0, 0, 0, 0, 0, 0, 1, 7]) ⟨0, 0, 1⟩
        (readWithin (2 ^ 48) (openVolume 0 [0, 0, 0, 0, 0, 0, 0, 1, 7]) ⟨0, 0, 1⟩) ↔
      8 + (1 : UInt64).toNat ≤ 2 ^ 48 :=
  readWithin_readsExactly_iff (by decide) _ _

/-- A request for `2 ^ 64 - 8` bytes makes a buffer without bytes, which is always filled, and
then takes its first eight bytes. -/
theorem read_wrapped_panics :
    read (openVolume 0 []) ⟨0, 0, 18446744073709551608⟩ = .panic "slice bounds out of range" := by
  decide

end Volume

end BriseDB
