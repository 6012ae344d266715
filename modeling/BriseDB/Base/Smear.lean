import Mathlib.Data.Nat.Bitwise
import Mathlib.Data.Nat.Size
import Mathlib.Data.UInt

/-!
# Rounding up to a power of two by shifts

A number is rounded up to a power of two by filling all its bits below the highest one: it is
combined with itself shifted to the right by one bit, the result with itself shifted by two
bits, then by four, and so on.  After `k` rounds a bit is set exactly if one of the `2 ^ k` bits
from it upwards was set at first.
-/

namespace BriseDB.Smear

/-- Combine a number with itself shifted to the right, for each of the shifts. -/
def smear (shifts : List Nat) (number : Nat) : Nat :=
  shifts.foldl (fun value shift => value ||| value >>> shift) number

/-- The shifts 1, 2, 4, and so on. -/
def doublings (rounds : Nat) : List Nat :=
  (List.range rounds).map (2 ^ ·)

theorem smear_doublings_succ (rounds number : Nat) :
    smear (doublings (rounds + 1)) number =
      smear (doublings rounds) number ||| smear (doublings rounds) number >>> 2 ^ rounds := by
  simp [smear, doublings, List.range_succ]

theorem testBit_smear (rounds number place : Nat) :
    (smear (doublings rounds) number).testBit place = true ↔
      ∃ ahead < 2 ^ rounds, number.testBit (place + ahead) = true := by
  induction rounds generalizing place with
  | zero => simp [smear, doublings]
  | succ rounds ih =>
      rw [smear_doublings_succ, Nat.testBit_or, Bool.or_eq_true_iff, Nat.testBit_shiftRight, ih, ih,
        Nat.pow_succ]
      constructor
      · rintro (⟨ahead, less, isSet⟩ | ⟨ahead, less, isSet⟩)
        · exact ⟨ahead, by omega, isSet⟩
        · exact ⟨2 ^ rounds + ahead, by omega, by rwa [← Nat.add_assoc, Nat.add_comm place]⟩
      · rintro ⟨ahead, less, isSet⟩
        by_cases near : ahead < 2 ^ rounds
        · exact .inl ⟨ahead, near, isSet⟩
        · refine .inr ⟨ahead - 2 ^ rounds, by omega, ?_⟩
          rwa [show 2 ^ rounds + place + (ahead - 2 ^ rounds) = place + ahead by omega]

/-- With enough rounds all bits up to the highest one are set. -/
theorem smear_eq {rounds number : Nat} (fits : number < 2 ^ 2 ^ rounds) :
    smear (doublings rounds) number = 2 ^ number.size - 1 := by
  refine Nat.eq_of_testBit_eq fun place => ?_
  rw [Nat.testBit_two_pow_sub_one, Bool.eq_iff_iff, testBit_smear, decide_eq_true_iff, Nat.lt_size]
  constructor
  · rintro ⟨ahead, _, isSet⟩
    exact (Nat.pow_le_pow_right (by decide) (Nat.le_add_right place ahead)).trans
      (Nat.ge_two_pow_of_testBit isSet)
  · intro large
    rcases Nat.exists_ge_and_testBit_of_ge_two_pow large with ⟨highest, least, isSet⟩
    have inRange : highest < 2 ^ rounds :=
      (Nat.pow_lt_pow_iff_right (by decide)).mp ((Nat.ge_two_pow_of_testBit isSet).trans_lt fits)
    exact ⟨highest - place, by omega, by rwa [Nat.add_sub_cancel' least]⟩

/-- Rounding a positive number up gives the least power of two that is not below it. -/
theorem smear_pred_add_one {rounds number : Nat} (positive : 0 < number)
    (fits : number ≤ 2 ^ 2 ^ rounds) :
    ∃ exponent, smear (doublings rounds) (number - 1) + 1 = 2 ^ exponent ∧ number ≤ 2 ^ exponent ∧
      ∀ other, number ≤ 2 ^ other → exponent ≤ other := by
  refine ⟨(number - 1).size, ?_, ?_, ?_⟩
  · rw [smear_eq (by omega), Nat.sub_add_cancel (Nat.one_le_two_pow)]
  · have less := Nat.lt_size_self (number - 1)
    omega
  · intro other le
    exact Nat.size_le.mpr (by omega)

/-- The rounds on 64-bit words. -/
theorem toNat_foldl (shifts : List UInt64) (inWord : ∀ shift ∈ shifts, shift < 64) (word : UInt64) :
    (shifts.foldl (fun value shift => value ||| value >>> shift) word).toNat =
      smear (shifts.map UInt64.toNat) word.toNat := by
  induction shifts generalizing word with
  | nil => rfl
  | cons shift shifts ih =>
      have small : shift.toNat < 64 := UInt64.lt_iff_toNat_lt.mp (inWord shift List.mem_cons_self)
      rw [List.foldl_cons, ih fun other mem => inWord other (List.mem_cons_of_mem _ mem),
        UInt64.toNat_or, UInt64.toNat_shiftRight, Nat.mod_eq_of_lt small]
      rfl

end BriseDB.Smear
