import Mathlib

namespace Llmes

theorem min_cases (q m : UInt64) : (q ≤ m ∧ min q m = q) ∨ (m ≤ q ∧ min q m = m) := by
  by_cases h : q ≤ m
  · exact Or.inl ⟨h, if_pos h⟩
  · refine Or.inr ⟨?_, if_neg h⟩
    rw [UInt64.le_iff_toNat_le] at h ⊢
    omega

theorem min_le_left (q m : UInt64) : min q m ≤ q := by
  rcases min_cases q m with ⟨-, h⟩ | ⟨h', h⟩
  · rw [h]; exact UInt64.le_refl q
  · rw [h]; exact h'

theorem min_le_right (q m : UInt64) : min q m ≤ m := by
  rcases min_cases q m with ⟨h', h⟩ | ⟨-, h⟩
  · rw [h]; exact h'
  · rw [h]; exact UInt64.le_refl m

theorem toNat_ne_zero {q : UInt64} : q ≠ 0 ↔ q.toNat ≠ 0 := by
  rw [Ne, ← UInt64.toNat_inj]
  rfl

theorem pos_iff_ne_zero {q : UInt64} : q > 0 ↔ q ≠ 0 := by
  rw [toNat_ne_zero, gt_iff_lt, UInt64.lt_iff_toNat_lt]
  exact Nat.pos_iff_ne_zero

theorem toNat_sub_min_left (q m : UInt64) : (q - min q m).toNat = q.toNat - (min q m).toNat :=
  UInt64.toNat_sub_of_le _ _ (min_le_left q m)

theorem toNat_sub_min_right (q m : UInt64) : (m - min q m).toNat = m.toNat - (min q m).toNat :=
  UInt64.toNat_sub_of_le _ _ (min_le_right q m)

theorem sub_min_eq_zero {q m : UInt64} (h : m - min q m ≠ 0) : q - min q m = 0 := by
  rcases min_cases q m with ⟨-, hm⟩ | ⟨-, hm⟩
  · rw [hm, UInt64.sub_self]
  · rw [hm, UInt64.sub_self] at h
    exact absurd rfl h

theorem sub_min_eq_zero_iff {q m : UInt64} : m - min q m = 0 ↔ min q m = m := by
  constructor
  · intro h
    have h1 := toNat_sub_min_right q m
    have h2 := UInt64.le_iff_toNat_le.mp (min_le_right q m)
    rw [h] at h1
    rw [← UInt64.toNat_inj]
    simp only [UInt64.toNat_zero] at h1
    omega
  · intro h
    rw [h, UInt64.sub_self]

end Llmes
