import Mathlib.Data.Nat.Basic
import Mathlib.Data.List.Basic
import Mathlib.Tactic.Ring
import Mathlib.Tactic.NormNum

/-!
# Byte strings and fixed-width integers

Files and strings are lists of bytes.  An integer is stored in a fixed number
of bytes, least or most significant first; bits that do not fit are dropped, so
reading back gives the value modulo a power of 256.
-/

namespace BriseDB

/-- A byte string: file contents, keys and values. -/
abbrev Bytes := List UInt8

namespace Bytes

/-- The `width` least significant bytes of `value`, least significant first. -/
def putLE : Nat → Nat → Bytes
  | 0, _ => []
  | width + 1, value => UInt8.ofNat value :: putLE width (value / 256)

/-- The number whose bytes are given, least significant first. -/
def getLE : Bytes → Nat
  | [] => 0
  | byte :: rest => byte.toNat + 256 * getLE rest

/-- The `width` least significant bytes of `value`, most significant first. -/
def putBE (width value : Nat) : Bytes :=
  (putLE width value).reverse

/-- The number whose bytes are given, most significant first. -/
def getBE (bytes : Bytes) : Nat :=
  getLE bytes.reverse

@[simp]
theorem length_putLE (width value : Nat) : (putLE width value).length = width := by
  induction width generalizing value with
  | zero => rfl
  | succ width ih => simp [putLE, ih]

@[simp]
theorem length_putBE (width value : Nat) : (putBE width value).length = width := by
  simp [putBE]

/-- Reading back a stored integer gives it modulo the range of its width. -/
theorem getLE_putLE (width value : Nat) : getLE (putLE width value) = value % 256 ^ width := by
  induction width generalizing value with
  | zero => simp [putLE, getLE, Nat.mod_one]
  | succ width ih =>
      have low : (UInt8.ofNat value).toNat = value % 256 := by simp
      rw [putLE, getLE, ih, low, pow_succ', Nat.mod_mul]

theorem getLE_putLE_of_lt {width value : Nat} (fits : value < 256 ^ width) :
    getLE (putLE width value) = value := by
  rw [getLE_putLE, Nat.mod_eq_of_lt fits]

theorem getBE_putBE_of_lt {width value : Nat} (fits : value < 256 ^ width) :
    getBE (putBE width value) = value := by
  simp [getBE, putBE, getLE_putLE_of_lt fits]

/-- A number read from `n` bytes is below `256 ^ n`. -/
theorem getLE_lt (bytes : Bytes) : getLE bytes < 256 ^ bytes.length := by
  induction bytes with
  | nil => simp [getLE]
  | cons byte rest ih =>
      have small : byte.toNat < 256 := byte.toNat_lt
      rw [getLE, List.length_cons, pow_succ]
      omega

/-- Storing a number read from `n` bytes in `n` bytes gives the bytes back. -/
theorem putLE_getLE (bytes : Bytes) : putLE bytes.length (getLE bytes) = bytes := by
  induction bytes with
  | nil => rfl
  | cons byte rest ih =>
      have small : byte.toNat < 256 := byte.toNat_lt
      have high : (byte.toNat + 256 * getLE rest) / 256 = getLE rest := by omega
      have low : UInt8.ofNat (byte.toNat + 256 * getLE rest) = byte := by
        apply UInt8.toNat.inj
        rw [UInt8.toNat_ofNat']
        omega
      rw [List.length_cons, getLE, putLE, high, low, ih]

theorem putBE_getBE (bytes : Bytes) : putBE bytes.length (getBE bytes) = bytes := by
  rw [putBE, getBE, ← List.length_reverse, putLE_getLE, List.reverse_reverse]

end Bytes

end BriseDB
