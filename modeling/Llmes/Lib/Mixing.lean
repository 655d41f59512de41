import Mathlib

namespace Mixing

variable {w : ℕ}

theorem xorShift_injective {k : ℕ} (hk : 0 < k) : Function.Injective (fun x : BitVec w => x ^^^ x >>> k) := by
  intro x y h
  have hshift : (x ^^^ y) >>> k = x ^^^ y := by
    dsimp only at h
    rw [BitVec.ushiftRight_xor_distrib]
    calc x >>> k ^^^ y >>> k = (x ^^^ x ^^^ x >>> k) ^^^ y >>> k := by rw [BitVec.xor_self, BitVec.zero_xor]
      _ = x ^^^ (x ^^^ x >>> k) ^^^ y >>> k := by rw [BitVec.xor_assoc x]
      _ = x ^^^ (y ^^^ y >>> k) ^^^ y >>> k := by rw [h]
      _ = x ^^^ y ^^^ (y >>> k ^^^ y >>> k) := by rw [← BitVec.xor_assoc, ← BitVec.xor_assoc, BitVec.xor_assoc]
      _ = x ^^^ y := by rw [BitVec.xor_self, BitVec.xor_zero]
  have hdiv := congrArg BitVec.toNat hshift
  rw [BitVec.toNat_ushiftRight, Nat.shiftRight_eq_div_pow] at hdiv
  have hzero : (x ^^^ y).toNat = 0 := by
    by_contra hne
    exact absurd hdiv (Nat.div_lt_self (Nat.pos_of_ne_zero hne) (Nat.one_lt_two_pow hk.ne')).ne
  exact BitVec.xor_eq_zero_iff.mp (BitVec.eq_of_toNat_eq hzero)

variable {a b : BitVec w}

theorem mul_injective (h : a * b = 1#w) : Function.Injective (fun x : BitVec w => x * a) := by
  intro x y hxy
  have hmul := congrArg (· * b) hxy
  simpa only [BitVec.mul_assoc, h, BitVec.mul_one] using hmul

theorem existsUnique_step (h : a * b = 1#w) (s t : BitVec w) : ∃! k, k < 2 ^ w ∧ s + BitVec.ofNat w k * a = t := by
  have hiff (k : BitVec w) : s + k * a = t ↔ k = (t - s) * b := by
    constructor
    · rintro rfl
      rw [BitVec.add_comm, BitVec.add_sub_cancel, BitVec.mul_assoc, h, BitVec.mul_one]
    · rintro rfl
      rw [BitVec.mul_assoc, BitVec.mul_comm b, h, BitVec.mul_one, BitVec.add_comm, BitVec.sub_add_cancel]
  refine ⟨((t - s) * b).toNat, ⟨((t - s) * b).isLt, ?_⟩, ?_⟩
  · rw [hiff]
    exact (BitVec.ofNat_toNat _ _).trans (BitVec.setWidth_eq _)
  · rintro k ⟨hk, heq⟩
    rw [hiff] at heq
    rw [← heq, BitVec.toNat_ofNat, Nat.mod_eq_of_lt hk]

end Mixing
