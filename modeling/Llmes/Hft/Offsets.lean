import Llmes.Hft.Workload
import Llmes.Lib.Digits

namespace Llmes.Hft

def drawnOffset (r : UInt64) : ℕ := if offsetLoop 100 r 0 = 0 then 1 else offsetLoop 100 r 0

def offsetWords (k : ℕ) : Set UInt64 := {r | drawnOffset r = k}

theorem limit_price (d : Draws) (bestAsk : Int) :
    (d.limit bestAsk).1.price =
      match sideOf (d.paramRng.get 0) with
      | .buy => max 1 (refPrice bestAsk - drawnOffset (d.paramRng.get 1) - 1)
      | .sell => refPrice bestAsk + drawnOffset (d.paramRng.get 1) := by
  have hoffset (r : UInt64) : ((drawnOffset r : ℕ) : Int) =
      if offsetLoop 100 r 0 = 0 then 1 else (offsetLoop 100 r 0 : Int) := by
    rw [drawnOffset]
    split <;> rfl
  rw [hoffset]
  rfl

theorem offsetLoop_eq (left : ℕ) (r : UInt64) (offset : ℕ) :
    offsetLoop left r offset = offset + Digits.lowRun 256 161 left r.toNat := by
  induction left generalizing r offset with
  | zero => rfl
  | succ left ih =>
    have hlow : r &&& 0xFF < 161 ↔ r.toNat % 256 < 161 := by
      rw [UInt64.lt_iff_toNat_lt, UInt64.toNat_and]
      simp only [UInt64.reduceToNat]
      rw [show 255 = 2 ^ 8 - 1 from rfl, Nat.and_two_pow_sub_one_eq_mod]
    have hshift : (r >>> 8).toNat = r.toNat / 256 := by
      rw [UInt64.toNat_shiftRight]
      simp [Nat.shiftRight_eq_div_pow]
    rw [offsetLoop, Digits.lowRun]
    by_cases hr : r.toNat % 256 < 161
    · rw [if_pos (hlow.mpr hr), if_pos hr, ih, hshift]
      omega
    · rw [if_neg (mt hlow.mp hr), if_neg hr]
      rfl

theorem offsetWords_card (k : ℕ) :
    (offsetWords k).ncard = ((Finset.range (256 ^ 8)).filter (fun w =>
      (if Digits.lowRun 256 161 100 w = 0 then 1 else Digits.lowRun 256 161 100 w) = k)).card := by
  have hinj : Function.Injective UInt64.toNat := fun _ _ => UInt64.toNat_inj.mp
  rw [← Set.ncard_image_of_injective _ hinj, ← Set.ncard_coe_finset]
  congr 1
  ext w
  simp only [Set.mem_image, offsetWords, drawnOffset, offsetLoop_eq, zero_add, Set.mem_ofPred_eq,
    Finset.coe_filter, Finset.mem_range]
  constructor
  · rintro ⟨r, hr, rfl⟩
    exact ⟨r.toNat_lt, hr⟩
  · rintro ⟨hw, hk⟩
    have hr : (UInt64.ofNat w).toNat = w := UInt64.toNat_ofNat_of_lt' hw
    exact ⟨UInt64.ofNat w, by rw [hr]; exact hk, hr⟩

theorem offsetWords_one : (offsetWords 1).ncard = 95 * 256 ^ 7 + 161 * (95 * 256 ^ 6) := by
  have hunion : (Finset.range (256 ^ 8)).filter (fun w =>
      (if Digits.lowRun 256 161 100 w = 0 then 1 else Digits.lowRun 256 161 100 w) = 1) =
      Digits.words 256 161 8 100 0 ∪ Digits.words 256 161 8 100 1 := by
    rw [Digits.words, Digits.words, ← Finset.filter_or]
    apply Finset.filter_congr
    intro w _
    split <;> simp_all
  have hdisjoint : Disjoint (Digits.words 256 161 8 100 0) (Digits.words 256 161 8 100 1) := by
    apply Finset.disjoint_filter.mpr
    intro w _ h₀ h₁
    omega
  rw [offsetWords_card, hunion, Finset.card_union_of_disjoint hdisjoint,
    Digits.card_words_of_lt (by norm_num) (by norm_num) (by norm_num) (by norm_num),
    Digits.card_words_of_lt (by norm_num) (by norm_num) (by norm_num) (by norm_num)]
  norm_num

theorem offsetWords_words {k : ℕ} (hk : 2 ≤ k) :
    (offsetWords k).ncard = (Digits.words 256 161 8 100 k).card := by
  rw [offsetWords_card, Digits.words]
  apply congrArg Finset.card
  apply Finset.filter_congr
  intro w _
  split <;> omega

theorem offsetWords_near {k : ℕ} (hk : 2 ≤ k) (hk' : k < 8) :
    (offsetWords k).ncard = 161 ^ k * (95 * 256 ^ (7 - k)) := by
  rw [offsetWords_words hk, Digits.card_words_of_lt (by norm_num) (by norm_num) hk' (by omega)]
  congr 3
  omega

/-- Eight low bytes are followed by zeros, so the loop runs to its end. -/
theorem offsetWords_far {k : ℕ} (hk : 8 ≤ k) : (offsetWords k).ncard = if k = 100 then 161 ^ 8 else 0 := by
  rw [offsetWords_words (by omega), Digits.card_words_of_le _ _ _ hk] <;> norm_num

theorem offsetWords_succ_le {k : ℕ} (hk : 1 ≤ k) (hk' : k ≤ 98) :
    (offsetWords (k + 1)).ncard ≤ (offsetWords k).ncard := by
  by_cases hfar : 7 ≤ k
  · rw [offsetWords_far (show 8 ≤ k + 1 by omega), if_neg (by omega)]
    exact Nat.zero_le _
  · rw [offsetWords_near (show 2 ≤ k + 1 by omega) (by omega)]
    by_cases hone : k = 1
    · rw [hone, offsetWords_one]
      norm_num
    · rw [offsetWords_near (show 2 ≤ k by omega) (by omega)]
      interval_cases k <;> norm_num

theorem offsetWords_antitone {j k : ℕ} (hj : 1 ≤ j) (hjk : j ≤ k) (hk : k ≤ 99) :
    (offsetWords k).ncard ≤ (offsetWords j).ncard := by
  induction k, hjk using Nat.le_induction with
  | base => exact le_rfl
  | succ k hjk ih => exact (offsetWords_succ_le (by omega) (by omega)).trans (ih (by omega))

theorem offsetWords_last_le_iff {j : ℕ} (hj : 1 ≤ j) (hj' : j ≤ 99) :
    (offsetWords 100).ncard ≤ (offsetWords j).ncard ↔ j ≤ 5 := by
  rw [offsetWords_far (show 8 ≤ 100 by norm_num), if_pos rfl]
  constructor
  · intro hle
    by_contra hj5
    have h6 := offsetWords_antitone (show 1 ≤ 6 by norm_num) (show 6 ≤ j by omega) hj'
    rw [offsetWords_near (show 2 ≤ 6 by norm_num) (by norm_num)] at h6
    norm_num at h6 hle
    omega
  · intro hj5
    have h5 := offsetWords_antitone hj hj5 (by norm_num)
    rw [offsetWords_near (show 2 ≤ 5 by norm_num) (by norm_num)] at h5
    norm_num at h5 ⊢
    omega

theorem offsetWords_le_iff {j k : ℕ} (hj : 1 ≤ j) (hjk : j < k) (hk : k ≤ 100) :
    (offsetWords k).ncard ≤ (offsetWords j).ncard ↔ k ≠ 100 ∨ j ≤ 5 := by
  by_cases hlast : k = 100
  · subst hlast
    rw [offsetWords_last_le_iff hj (by omega)]
    simp
  · simp only [ne_eq, hlast, not_false_eq_true, true_or, iff_true]
    exact offsetWords_antitone hj hjk.le (by omega)

/-- An offset is drawn at least as often as the next one, and as any farther one, unless the farther one
is the last. That is drawn more often than all but the five nearest. -/
theorem offset_decays_iff {k : ℕ} (hk : 1 ≤ k) (hk' : k ≤ 99) :
    ((offsetWords (k + 1)).ncard ≤ (offsetWords k).ncard ↔ k + 1 ≠ 100) ∧
    ∀ j, k < j → j ≤ 100 → ((offsetWords j).ncard ≤ (offsetWords k).ncard ↔ j ≠ 100 ∨ k ≤ 5) := by
  refine ⟨?_, fun j hkj hj => offsetWords_le_iff hk hkj hj⟩
  rw [offsetWords_le_iff hk (Nat.lt_succ_self k) (by omega)]
  omega

theorem offset_decays_iff_seven : (offsetWords 8).ncard ≤ (offsetWords 7).ncard :=
  (offset_decays_iff (show 1 ≤ 7 by norm_num) (by norm_num)).1.mpr (by norm_num)

theorem last_offset_outdrawn :
    ¬ ∀ k, 1 ≤ k → k ≤ 99 → (offsetWords (k + 1)).ncard ≤ (offsetWords k).ncard := by
  intro h
  have hle := h 99 (by norm_num) (by norm_num)
  rw [offsetWords_far (show 8 ≤ 100 by norm_num), offsetWords_far (show 8 ≤ 99 by norm_num)] at hle
  norm_num at hle

end Llmes.Hft
