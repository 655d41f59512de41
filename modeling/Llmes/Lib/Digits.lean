import Mathlib

open Finset

namespace Digits

/-- The digits of `w` in base `b` that are below `t`, counted from the lowest up to the first one that
is not, or up to `left` of them. The digits above the word are zeros. -/
def lowRun (b t : ℕ) : ℕ → ℕ → ℕ
  | 0, _ => 0
  | left + 1, w => if w % b < t then lowRun b t left (w / b) + 1 else 0

def words (b t m left k : ℕ) : Finset ℕ := (range (b ^ m)).filter (fun w => lowRun b t left w = k)

variable {b t m left k : ℕ}

theorem card_split (hb : 0 < b) (n : ℕ) (P Q : ℕ → Prop) [DecidablePred P] [DecidablePred Q] :
    #((range (b * n)).filter (fun w => P (w % b) ∧ Q (w / b))) =
      #((range b).filter P) * #((range n).filter Q) := by
  rw [← card_product]
  apply card_nbij' (fun w => (w % b, w / b)) (fun x => x.1 + b * x.2)
  · intro w hw
    simp only [coe_filter, mem_range, Set.mem_ofPred_eq] at hw
    simp only [coe_product, coe_filter, mem_range, Set.mem_prod, Set.mem_ofPred_eq]
    exact ⟨⟨Nat.mod_lt w hb, hw.2.1⟩, Nat.div_lt_of_lt_mul hw.1, hw.2.2⟩
  · rintro ⟨d, q⟩ hx
    simp only [coe_product, coe_filter, mem_range, Set.mem_prod, Set.mem_ofPred_eq] at hx
    simp only [coe_filter, mem_range, Set.mem_ofPred_eq]
    rw [Nat.add_mul_mod_self_left, Nat.mod_eq_of_lt hx.1.1, Nat.add_mul_div_left d q hb,
      Nat.div_eq_of_lt hx.1.1, zero_add]
    refine ⟨?_, hx.1.2, hx.2.2⟩
    calc d + b * q < b + b * q := by omega
      _ = b * (q + 1) := by ring
      _ ≤ b * n := Nat.mul_le_mul_left b hx.2.1
  · intro w _
    exact Nat.mod_add_div w b
  · rintro ⟨d, q⟩ hx
    simp only [coe_product, coe_filter, mem_range, Set.mem_prod, Set.mem_ofPred_eq] at hx
    simp only [Nat.add_mul_mod_self_left, Nat.mod_eq_of_lt hx.1.1, Nat.add_mul_div_left d q hb,
      Nat.div_eq_of_lt hx.1.1, zero_add]

theorem card_low (ht : t ≤ b) : #((range b).filter (fun d => d < t)) = t := by
  have : (range b).filter (fun d => d < t) = range t := by
    ext d
    simp only [mem_filter, mem_range]
    omega
  rw [this, card_range]

theorem card_high (ht : t ≤ b) : #((range b).filter (fun d => ¬ d < t)) = b - t := by
  have := card_filter_add_card_filter_not (s := range b) (fun d => d < t)
  rw [card_low ht, card_range] at this
  omega

theorem lowRun_zero (ht : 0 < t) (left : ℕ) : lowRun b t left 0 = left := by
  induction left with
  | zero => rfl
  | succ left ih => simp [lowRun, ht, ih]

theorem card_words_succ (hb : 0 < b) (ht : t ≤ b) :
    #(words b t (m + 1) (left + 1) (k + 1)) = t * #(words b t m left k) := by
  have hsplit := card_split hb (b ^ m) (fun d => d < t) (fun w => lowRun b t left w = k)
  rw [card_low ht] at hsplit
  rw [words, words, ← hsplit, pow_succ']
  congr 1
  apply filter_congr
  intro w _
  by_cases hw : w % b < t <;> simp [lowRun, hw]

theorem card_words_stop (hb : 0 < b) (ht : t ≤ b) :
    #(words b t (m + 1) (left + 1) 0) = (b - t) * b ^ m := by
  have hsplit := card_split hb (b ^ m) (fun d => ¬ d < t) (fun _ => True)
  rw [card_high ht, filter_true, card_range] at hsplit
  rw [words, ← hsplit, pow_succ']
  congr 1
  apply filter_congr
  intro w _
  by_cases hw : w % b < t <;> simp [lowRun, hw]

theorem card_words_of_lt (hb : 0 < b) (ht : t ≤ b) (hm : k < m) (hl : k < left) :
    #(words b t m left k) = t ^ k * ((b - t) * b ^ (m - k - 1)) := by
  induction k generalizing m left with
  | zero =>
    obtain ⟨m, rfl⟩ := Nat.exists_eq_add_of_lt hm
    obtain ⟨left, rfl⟩ := Nat.exists_eq_add_of_lt hl
    rw [zero_add, zero_add, card_words_stop hb ht, pow_zero, one_mul]
    rfl
  | succ k ih =>
    obtain ⟨m, rfl⟩ : ∃ n, m = n + 1 := ⟨m - 1, by omega⟩
    obtain ⟨left, rfl⟩ : ∃ n, left = n + 1 := ⟨left - 1, by omega⟩
    rw [card_words_succ hb ht, ih (by omega) (by omega), pow_succ', mul_assoc, Nat.add_sub_add_right]

theorem card_words_of_le (hb : 0 < b) (ht : t ≤ b) (ht₀ : 0 < t) (hm : m ≤ k) (hl : m ≤ left) :
    #(words b t m left k) = if k = left then t ^ m else 0 := by
  induction m generalizing k left with
  | zero =>
    rw [words, pow_zero, range_one, filter_singleton, lowRun_zero ht₀, pow_zero]
    by_cases hk : k = left
    · rw [if_pos hk.symm, if_pos hk, card_singleton]
    · rw [if_neg (Ne.symm hk), if_neg hk, card_empty]
  | succ m ih =>
    obtain ⟨k, rfl⟩ : ∃ n, k = n + 1 := ⟨k - 1, by omega⟩
    obtain ⟨left, rfl⟩ : ∃ n, left = n + 1 := ⟨left - 1, by omega⟩
    rw [card_words_succ hb ht, ih (by omega) (by omega), pow_succ']
    by_cases hk : k = left <;> simp [hk]

end Digits
