import BriseDB.Base.Bytes
import Mathlib.Data.Rat.Floor
import Mathlib.Data.Int.Log

/-!
# Keys, blob addresses, hashes and time

The vocabulary shared by all components: keys are byte strings, a blob is found
by its volume, offset and size, keys are spread over slots and shards by the
FNV-1a hash, and instants are nanoseconds from the Unix epoch.
-/

namespace BriseDB

/-- A key, an arbitrary byte string. -/
abbrev Key := Bytes

instance (key : Key) (keys : List Key) : Decidable (key ∈ keys) :=
  List.instDecidableMemOfLawfulBEq key keys

/-- `NeedleAddr` locates a value blob within a volume file. -/
structure NeedleAddr where
  volumeID : UInt32
  offset : UInt64
  size : UInt64
  deriving DecidableEq, Repr

instance : Inhabited NeedleAddr :=
  ⟨⟨0, 0, 0⟩⟩

/-! ## Hashing -/

/-- `fnv.New64a` over the bytes of a key. -/
def fnv64a (key : Key) : UInt64 :=
  key.foldl (fun hash byte => (hash ^^^ byte.toUInt64) * 1099511628211) 14695981039346656037

/-- `fnv.New32a` over the bytes of a key. -/
def fnv32a (key : Key) : UInt32 :=
  key.foldl (fun hash byte => (hash ^^^ byte.toUInt32) * 16777619) 2166136261

/-- Number of shards of the key lock and of the expiry cache. -/
def numShards : Nat :=
  64

/-- `shardIndex`: the shard of a key. -/
def shardIndex (key : Key) : Fin numShards :=
  ⟨(fnv32a key).toNat % numShards, Nat.mod_lt _ (by decide)⟩

/-! ## Time -/

/-- An instant, in nanoseconds from the Unix epoch. -/
abbrev Time := Int

namespace Time

/-- Seconds from year 1 to the Unix epoch. -/
def unixToInternal : Int64 :=
  62135596800

/-- The zero `time.Time`, which stands for "no expiry" in a transaction. -/
def zero : Time :=
  -62135596800 * 10 ^ 9

/-- `t.UnixNano()`, which wraps around outside the 64-bit range. -/
def unixNano (instant : Time) : Int64 :=
  Int64.ofInt instant

/-- `time.Unix(0, nsec)`. -/
def ofNano (nsec : Int64) : Time :=
  nsec.toInt

/-- `time.Unix(sec, 0)`.  Go keeps the seconds since year 1 in 64 bits. -/
def ofSeconds (sec : Int64) : Time :=
  ((sec + unixToInternal).toInt - unixToInternal.toInt) * 10 ^ 9

/-- Round a non-negative rational to the nearest double, ties to even. -/
def roundDouble (value : ℚ) : ℚ :=
  if value ≤ 0 then 0
  else
    let unit : ℚ := 2 ^ (Int.log 2 value - 52)
    let whole := ⌊value / unit⌋
    let rest := value / unit - whole
    let rounded :=
      if rest < 1 / 2 then whole
      else if 1 / 2 < rest then whole + 1
      else if whole % 2 = 0 then whole else whole + 1
    rounded * unit

/-- `int64(d.Seconds())` of a positive duration: Go adds the whole seconds and
the fraction as doubles and truncates. -/
def wholeSeconds (duration : Int) : Int :=
  let seconds : Int := duration / 10 ^ 9
  let nanos : Int := duration % 10 ^ 9
  ⌊roundDouble (roundDouble (seconds : ℚ) + roundDouble ((nanos : ℚ) / 10 ^ 9))⌋

theorem ofNano_unixNano {instant : Time} (low : -2 ^ 63 ≤ instant) (high : instant < 2 ^ 63) :
    ofNano (unixNano instant) = instant :=
  Int64.toInt_ofInt_of_le low high

theorem ofNano_lt_ofNano {first second : Int64} :
    ofNano first < ofNano second ↔ first < second :=
  Int64.lt_iff_toInt_lt.symm

@[simp]
theorem unixNano_ofNano (nsec : Int64) : unixNano (ofNano nsec) = nsec :=
  Int64.ofInt_toInt nsec

end Time

/-- A reading of the wall clock: not before the Unix epoch, and in the range
that `UnixNano` can represent. -/
abbrev Clock :=
  { instant : Time // 0 ≤ instant ∧ instant < 2 ^ 63 }

/-- The Unix epoch. -/
def Clock.epoch : Clock :=
  ⟨0, by decide⟩

end BriseDB
