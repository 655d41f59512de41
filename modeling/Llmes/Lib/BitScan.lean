import Mathlib

namespace BitScan

variable {w : ℕ}

theorem ctz_lt {x : BitVec w} (hx : x ≠ 0#w) : x.ctz.toNat < w := by
  have h := BitVec.lt_of_getLsbD (BitVec.getLsbD_true_ctz_of_ne_zero hx)
  exact h

theorem getLsbD_ctz {x : BitVec w} (hx : x ≠ 0#w) : x.getLsbD x.ctz.toNat = true :=
  BitVec.getLsbD_true_ctz_of_ne_zero hx

theorem ctz_le {x : BitVec w} {i : ℕ} (h : x.getLsbD i = true) : x.ctz.toNat ≤ i := by
  by_contra hlt
  have := BitVec.getLsbD_false_of_lt_ctz (x := x) (i := i) (by omega)
  rw [this] at h
  cases h

def topBit (x : BitVec w) : ℕ := w - 1 - x.clz.toNat

theorem getLsbD_topBit {x : BitVec w} (hw : 0 < w) (hx : x ≠ 0#w) :
    x.getLsbD (topBit x) = true :=
  BitVec.getLsbD_true_clz_of_ne_zero hw hx

theorem le_topBit {x : BitVec w} {i : ℕ} (h : x.getLsbD i = true) : i ≤ topBit x := by
  by_contra hlt
  have hi := BitVec.lt_of_getLsbD h
  have hx := BitVec.toNat_lt_two_pow_sub_clz (x := x)
  have hle : 2 ^ (w - x.clz.toNat) ≤ 2 ^ i :=
    Nat.pow_le_pow_right (by omega) (by unfold topBit at hlt; omega)
  have := Nat.testBit_lt_two_pow (hx.trans_le hle)
  rw [BitVec.getLsbD, this] at h
  cases h

theorem eq_zero_iff {x : BitVec w} : x = 0#w ↔ ∀ i < w, x.getLsbD i = false := by
  constructor
  · rintro rfl i -
    simp
  · intro h
    exact BitVec.eq_of_getLsbD_eq (fun i hi => by simpa using h i hi)

theorem ne_zero_iff {x : BitVec w} : x ≠ 0#w ↔ ∃ i < w, x.getLsbD i = true := by
  rw [Ne, eq_zero_iff]
  push Not
  simp

theorem ne_zero_of_getLsbD {x : BitVec w} {i : ℕ} (h : x.getLsbD i = true) : x ≠ 0#w :=
  ne_zero_iff.mpr ⟨i, BitVec.lt_of_getLsbD h, h⟩

theorem getLsbD_bit {i j : ℕ} : (1#w <<< i).getLsbD j = decide (j = i ∧ j < w) := by
  rw [BitVec.getLsbD_shiftLeft, BitVec.getLsbD_one]
  by_cases hj : j < w <;> by_cases hi : j = i <;> by_cases hl : j < i <;>
    simp [hj, hi, hl] <;> omega

theorem getLsbD_maskHigh {i j : ℕ} :
    (~~~(0#w) <<< i).getLsbD j = decide (i ≤ j ∧ j < w) := by
  rw [BitVec.getLsbD_shiftLeft]
  by_cases hj : j < w <;> by_cases hl : j < i <;> simp [hj, hl]
  omega

theorem getLsbD_maskLow {i j : ℕ} (hi : i < w) :
    (1#w <<< i - 1#w).getLsbD j = decide (j < i) := by
  have h : (1#w <<< i - 1#w).toNat = 2 ^ i - 1 := by
    have hlt : 2 ^ i < 2 ^ w := Nat.pow_lt_pow_right (by omega) hi
    have h1 : (1#w <<< i).toNat = 2 ^ i := by
      rw [BitVec.toNat_shiftLeft, Nat.shiftLeft_eq, BitVec.toNat_ofNat,
        Nat.one_mod_two_pow (by omega), Nat.one_mul, Nat.mod_eq_of_lt hlt]
    have h2 : (1#w).toNat = 1 := by
      rw [BitVec.toNat_ofNat, Nat.one_mod_two_pow (by omega)]
    rw [BitVec.toNat_sub_of_le, h1, h2]
    rw [BitVec.le_def, h1, h2]
    exact Nat.one_le_two_pow
  rw [BitVec.getLsbD, h, Nat.testBit_two_pow_sub_one]

end BitScan
