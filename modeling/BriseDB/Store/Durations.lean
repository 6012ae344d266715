import BriseDB.Types
import Mathlib.Tactic.Linarith
import Mathlib.Tactic.Positivity

/-!
# Whole seconds

`TTL` answers `int64(d.Seconds())`, and `Seconds` adds the whole seconds and the fraction
of a duration as doubles.  Rounding can carry the sum up to the next second, but not past
it.
-/

namespace BriseDB

namespace Time

/-- Rounding a number to one of its neighbouring integers does not pass an integer. -/
theorem rounded_between {value : ℚ} {low high : ℤ} (lowLe : (low : ℚ) ≤ value)
    (leHigh : value ≤ high) {rounded : ℤ}
    (isRounded : rounded = ⌊value⌋ ∨ 0 < value - ⌊value⌋ ∧ rounded = ⌊value⌋ + 1) :
    low ≤ rounded ∧ rounded ≤ high := by
  have least : low ≤ ⌊value⌋ := Int.le_floor.mpr lowLe
  have below : (⌊value⌋ : ℚ) ≤ value := Int.floor_le value
  rcases isRounded with rfl | ⟨fraction, rfl⟩
  · exact ⟨least, by exact_mod_cast below.trans leHigh⟩
  · have lt : (⌊value⌋ : ℚ) < high := by linarith
    exact ⟨least.trans (Int.le_add_one le_rfl), by exact_mod_cast lt⟩

/-- Rounding to a double does not pass an integer below `2 ^ 53`. -/
theorem roundDouble_between {value : ℚ} {low high : ℕ} (lowLe : (low : ℚ) ≤ value)
    (leHigh : value ≤ high) (small : high < 2 ^ 53) :
    (low : ℚ) ≤ roundDouble value ∧ roundDouble value ≤ high := by
  unfold roundDouble
  by_cases notPositive : value ≤ 0
  · rw [if_pos notPositive]
    exact ⟨lowLe.trans notPositive, Nat.cast_nonneg high⟩
  · rw [if_neg notPositive]
    have positive : 0 < value := not_le.mp notPositive
    have logLe : Int.log 2 value ≤ 52 := by
      have least := Int.zpow_log_le_self (b := 2) (by decide) positive
      have below : value < (2 : ℚ) ^ (53 : ℤ) := leHigh.trans_lt (by exact_mod_cast small)
      push_cast at least
      have lt := (zpow_lt_zpow_iff_right₀ (by norm_num : (1 : ℚ) < 2)).mp (least.trans_lt below)
      omega
    -- below 2 ^ 53 the unit of the last place divides 1
    obtain ⟨places, placesEq⟩ := Int.eq_ofNat_of_zero_le (sub_nonneg.mpr logLe)
    have unitEq : (2 : ℚ) ^ (Int.log 2 value - 52) = ((2 : ℚ) ^ places)⁻¹ := by
      rw [← zpow_natCast, ← zpow_neg]
      congr 1
      omega
    have scale : (0 : ℚ) < 2 ^ places := by positivity
    simp only [unitEq, div_inv_eq_mul]
    set scaled := value * 2 ^ places with scaledDef
    set rounded := if scaled - ⌊scaled⌋ < 1 / 2 then ⌊scaled⌋
      else if 1 / 2 < scaled - ⌊scaled⌋ then ⌊scaled⌋ + 1
      else if ⌊scaled⌋ % 2 = 0 then ⌊scaled⌋ else ⌊scaled⌋ + 1 with roundedDef
    have isRounded : rounded = ⌊scaled⌋ ∨ 0 < scaled - ⌊scaled⌋ ∧ rounded = ⌊scaled⌋ + 1 := by
      by_cases less : scaled - ⌊scaled⌋ < 1 / 2
      · exact .inl (if_pos less)
      · have fraction : 0 < scaled - ⌊scaled⌋ := by linarith
        rw [if_neg less] at roundedDef
        split_ifs at roundedDef with more even
        · exact .inr ⟨fraction, roundedDef⟩
        · exact .inl roundedDef
        · exact .inr ⟨fraction, roundedDef⟩
    have bounds : (low * 2 ^ places : ℤ) ≤ rounded ∧ rounded ≤ (high * 2 ^ places : ℤ) := by
      refine rounded_between ?_ ?_ isRounded
      · push_cast
        exact mul_le_mul_of_nonneg_right lowLe scale.le
      · push_cast
        exact mul_le_mul_of_nonneg_right leHigh scale.le
    rw [← div_eq_mul_inv]
    constructor
    · rw [le_div_iff₀ scale]
      exact_mod_cast bounds.1
    · rw [div_le_iff₀ scale]
      exact_mod_cast bounds.2

theorem roundDouble_natCast {number : ℕ} (small : number < 2 ^ 53) :
    roundDouble number = number := by
  rcases roundDouble_between (le_refl (number : ℚ)) le_rfl small with ⟨least, most⟩
  exact le_antisymm most least

/-- The whole seconds of a duration, or one more if there is a fraction. -/
theorem wholeSeconds_bounds {seconds : ℕ} {nanos : ℤ} (small : seconds + 1 < 2 ^ 53)
    (nonneg : 0 ≤ nanos) (fraction : nanos < 10 ^ 9) :
    (seconds : ℤ) ≤ wholeSeconds (seconds * 10 ^ 9 + nanos) ∧
      wholeSeconds (seconds * 10 ^ 9 + nanos) ≤ seconds + 1 ∧
      (nanos = 0 → wholeSeconds (seconds * 10 ^ 9 + nanos) = seconds) := by
  have secondsEq : ((seconds : ℤ) * 10 ^ 9 + nanos) / 10 ^ 9 = seconds := by omega
  have nanosEq : ((seconds : ℤ) * 10 ^ 9 + nanos) % 10 ^ 9 = nanos := by omega
  simp only [wholeSeconds, secondsEq, nanosEq, Int.cast_natCast,
    roundDouble_natCast ((Nat.lt_succ_self seconds).trans small)]
  have fractionBounds : ((0 : ℕ) : ℚ) ≤ roundDouble ((nanos : ℚ) / 10 ^ 9) ∧
      roundDouble ((nanos : ℚ) / 10 ^ 9) ≤ ((1 : ℕ) : ℚ) := by
    refine roundDouble_between ?_ ?_ (by decide)
    · have := Int.cast_nonneg (R := ℚ) nonneg
      positivity
    · rw [div_le_iff₀ (by positivity)]
      exact_mod_cast fraction.le
  push_cast at fractionBounds
  have sumBounds := @roundDouble_between ((seconds : ℚ) + roundDouble ((nanos : ℚ) / 10 ^ 9))
    seconds (seconds + 1) (by linarith) (by push_cast; linarith) small
  refine ⟨?_, ?_, ?_⟩
  · exact Int.le_floor.mpr (by exact_mod_cast sumBounds.1)
  · have floorLe := Int.floor_le (roundDouble ((seconds : ℚ) + roundDouble ((nanos : ℚ) / 10 ^ 9)))
    exact_mod_cast floorLe.trans sumBounds.2
  · rintro rfl
    have noFraction : roundDouble (((0 : ℤ) : ℚ) / 10 ^ 9) = 0 := by
      rw [Int.cast_zero, zero_div]
      exact_mod_cast @roundDouble_natCast 0 (by decide)
    rw [noFraction, add_zero, roundDouble_natCast ((Nat.lt_succ_self seconds).trans small)]
    exact Int.floor_natCast seconds

theorem wholeSeconds_nonneg {duration : ℤ} (nonneg : 0 ≤ duration) (small : duration < 2 ^ 63) :
    0 ≤ wholeSeconds duration := by
  have bounds := @wholeSeconds_bounds (duration / 10 ^ 9).toNat (duration % 10 ^ 9) (by omega)
    (by omega) (by omega)
  have durationEq : ((duration / 10 ^ 9).toNat : ℤ) * 10 ^ 9 + duration % 10 ^ 9 = duration := by
    omega
  rw [durationEq] at bounds
  exact (Int.natCast_nonneg _).trans bounds.1

end Time

end BriseDB
