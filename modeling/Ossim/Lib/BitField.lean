import Mathlib.Data.Nat.Bitwise
import Mathlib.Tactic.Common

set_option autoImplicit false

/-! # Bit fields in machine words

The classical C idiom for packing several fields into one word: a contiguous mask `genmask h l`,
`setval` to overwrite the field under a mask, `getval` to read it back, `setbit`/`clrbit` for flags.
The mask may be narrower than the word: as in C, it is complemented at its own width and then
zero-extended, so clearing through a narrow mask also clears the bits above it.

Everything is stated bit by bit (`getLsbD`), which makes the `simp` set below enough to decide how
any sequence of field updates reads back. -/

namespace BitField

variable {w m : ℕ}

/-! ## Masks -/

/-- Ones in the positions `l..h` of an `m`-bit word. -/
def genmask (m h l : ℕ) : BitVec m :=
  (BitVec.allOnes m <<< l) &&& (BitVec.allOnes m >>> (m - h - 1))

theorem getLsbD_genmask {h : ℕ} (hh : h < m) (l i : ℕ) :
    (genmask m h l).getLsbD i = (decide (l ≤ i) && decide (i ≤ h)) := by
  simp only [genmask, BitVec.getLsbD_and, BitVec.getLsbD_shiftLeft, BitVec.getLsbD_ushiftRight,
    BitVec.getLsbD_allOnes]
  by_cases hi : i ≤ h
  · have h1 : i < m := by omega
    have h2 : i - l < m := by omega
    have h3 : m - h - 1 + i < m := by omega
    by_cases hl : l ≤ i
    · have : ¬ i < l := by omega
      simp [h1, h2, h3, hi, hl, this]
    · have : i < l := by omega
      simp [h1, h3, hi, hl, this]
  · have h3 : ¬ m - h - 1 + i < m := by omega
    simp [h3, hi]

/-! ## Updates and projections -/

/-- `v = v | mask` -/
def setbit (v : BitVec w) (mask : BitVec m) : BitVec w := v ||| mask.setWidth w

/-- `v = v & ~mask`, the complement taken at the width of the mask. -/
def clrbit (v : BitVec w) (mask : BitVec m) : BitVec w := v &&& (~~~mask).setWidth w

/-- `v = (v & ~mask) | ((value << offst) & mask)` -/
def setval (v value : BitVec w) (mask : BitVec m) (offst : ℕ) : BitVec w :=
  (v &&& (~~~mask).setWidth w) ||| ((value <<< offst) &&& mask.setWidth w)

/-- `(v & mask) >> offst` -/
def getval (v : BitVec w) (mask : BitVec m) (offst : ℕ) : BitVec w :=
  (v &&& mask.setWidth w) >>> offst

@[simp]
theorem getLsbD_setbit (v : BitVec w) (mask : BitVec m) (i : ℕ) :
    (setbit v mask).getLsbD i = (v.getLsbD i || (decide (i < w) && mask.getLsbD i)) := by
  simp [setbit, BitVec.getLsbD_setWidth]

@[simp]
theorem getLsbD_clrbit (v : BitVec w) (mask : BitVec m) (i : ℕ) :
    (clrbit v mask).getLsbD i = (v.getLsbD i && (decide (i < m) && !mask.getLsbD i)) := by
  simp only [clrbit, BitVec.getLsbD_and, BitVec.getLsbD_setWidth, BitVec.getLsbD_not]
  by_cases hi : i < w
  · simp [hi]
  · simp [BitVec.getLsbD_of_ge v i (by omega)]

@[simp]
theorem getLsbD_setval (v value : BitVec w) (mask : BitVec m) (offst i : ℕ) :
    (setval v value mask offst).getLsbD i =
      ((v.getLsbD i && (decide (i < m) && !mask.getLsbD i)) ||
        (decide (i < w) && mask.getLsbD i && !decide (i < offst) && value.getLsbD (i - offst))) := by
  simp only [setval, BitVec.getLsbD_or, BitVec.getLsbD_and, BitVec.getLsbD_setWidth,
    BitVec.getLsbD_not, BitVec.getLsbD_shiftLeft]
  by_cases hi : i < w
  · cases mask.getLsbD i <;> simp [hi]
  · simp [BitVec.getLsbD_of_ge v i (by omega), hi]

@[simp]
theorem getLsbD_getval (v : BitVec w) (mask : BitVec m) (offst i : ℕ) :
    (getval v mask offst).getLsbD i = (v.getLsbD (offst + i) && mask.getLsbD (offst + i)) := by
  simp only [getval, BitVec.getLsbD_ushiftRight, BitVec.getLsbD_and, BitVec.getLsbD_setWidth]
  by_cases hi : offst + i < w
  · simp [hi]
  · simp [BitVec.getLsbD_of_ge v _ (by omega : w ≤ offst + i)]

/-! ## A contiguous field as a number -/

/-- Reading a contiguous field divides out the low bits and drops the high ones. -/
theorem toNat_getval_genmask (v : BitVec w) {h l : ℕ} (hl : l ≤ h) (hm : h < m) :
    (getval v (genmask m h l) l).toNat = v.toNat / 2 ^ l % 2 ^ (h + 1 - l) := by
  apply Nat.eq_of_testBit_eq
  intro i
  rw [Nat.testBit_mod_two_pow, Nat.testBit_div_two_pow, BitVec.testBit_toNat, BitVec.testBit_toNat,
    getLsbD_getval, getLsbD_genmask hm]
  by_cases hi : i < h + 1 - l
  · have : l + i ≤ h := by omega
    simp [hi, this, Nat.add_comm]
  · have : ¬ l + i ≤ h := by omega
    simp [hi, this]

end BitField
