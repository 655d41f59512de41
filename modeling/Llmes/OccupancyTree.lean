import Llmes.Types
import Llmes.Lib.BitScan

namespace Llmes

open BitScan

abbrev kWordBits : ℕ := 64

def kBitCount : ℕ := 1 <<< 12

def kL1Count : ℕ := kBitCount / 64

def kL2Offset : ℕ := kL1Count

/-- Words `0..63` hold one bit per price index, word `64` one bit per non-zero word below it. -/
structure OccupancyTree where
  levels : ℕ → BitVec 64
  summary : ∀ w < kL1Count, (levels kL2Offset).getLsbD w = (levels w != 0#64)

namespace OccupancyTree

def maskHigh (bitIdx : ℕ) : BitVec 64 := ~~~(0#64) <<< bitIdx

def maskLow (bitIdx : ℕ) : BitVec 64 :=
  if bitIdx = 63 then ~~~(0#64) else 1#64 <<< (bitIdx + 1) - 1#64

def setWords (levels : ℕ → BitVec 64) (bit : ℕ) : ℕ → BitVec 64 :=
  let wordIdx := bit / kWordBits
  let mask := 1#64 <<< (bit &&& (kWordBits - 1))
  let wasEmpty := levels wordIdx == 0#64
  let levels := Function.update levels wordIdx (levels wordIdx ||| mask)
  if !wasEmpty then levels
  else Function.update levels kL2Offset (levels kL2Offset ||| 1#64 <<< wordIdx)

def clearWords (levels : ℕ → BitVec 64) (bit : ℕ) : ℕ → BitVec 64 :=
  let wordIdx := bit / kWordBits
  let mask := 1#64 <<< (bit &&& (kWordBits - 1))
  let levels := Function.update levels wordIdx (levels wordIdx &&& ~~~mask)
  if levels wordIdx != 0#64 then levels
  else Function.update levels kL2Offset (levels kL2Offset &&& ~~~(1#64 <<< wordIdx))

section Words

theorem bit_lt {bit : ℕ} (h : bit < kBitCount) : bit / 64 < 64 ∧ bit % 64 < 64 := by
  simp only [kBitCount] at h
  omega

theorem and_wordMask (bit : ℕ) : bit &&& (kWordBits - 1) = bit % 64 := by
  rw [show kWordBits - 1 = 2 ^ 6 - 1 from rfl, Nat.and_two_pow_sub_one_eq_mod]

theorem ne_kL2Offset {w : ℕ} (hw : w < 64) : w ≠ kL2Offset := by
  simp only [kL2Offset, kL1Count, kBitCount]
  omega

theorem setWords_word (levels : ℕ → BitVec 64) (bit : ℕ) {w : ℕ} (hw : w < 64) :
    setWords levels bit w =
      if w = bit / 64 then levels w ||| 1#64 <<< (bit % 64) else levels w := by
  have hne := ne_kL2Offset hw
  simp only [setWords, and_wordMask]
  rw [apply_ite (fun f : ℕ → BitVec 64 => f w), Function.update_of_ne hne, ite_self,
    Function.update_apply]
  by_cases h : w = bit / 64 <;> simp [kWordBits, h]

theorem clearWords_word (levels : ℕ → BitVec 64) (bit : ℕ) {w : ℕ} (hw : w < 64) :
    clearWords levels bit w =
      if w = bit / 64 then levels w &&& ~~~(1#64 <<< (bit % 64)) else levels w := by
  have hne := ne_kL2Offset hw
  simp only [clearWords, and_wordMask]
  rw [apply_ite (fun f : ℕ → BitVec 64 => f w), Function.update_of_ne hne, ite_self,
    Function.update_apply]
  by_cases h : w = bit / 64 <;> simp [kWordBits, h]

theorem setWords_summary {levels : ℕ → BitVec 64} {bit : ℕ} (hb : bit < kBitCount)
    (h : ∀ w < kL1Count, (levels kL2Offset).getLsbD w = (levels w != 0#64)) :
    ∀ w < kL1Count, (setWords levels bit kL2Offset).getLsbD w = (setWords levels bit w != 0#64) := by
  intro w hw
  obtain ⟨hq, hr⟩ := bit_lt hb
  have hw' : w < 64 := hw
  have hne : kL2Offset ≠ bit / 64 := (ne_kL2Offset hq).symm
  have hset : levels (bit / 64) ||| 1#64 <<< (bit % 64) ≠ 0#64 := by
    apply ne_zero_of_getLsbD (i := bit % 64)
    rw [BitVec.getLsbD_or, getLsbD_bit]
    simp [hr]
  have hl2 : (setWords levels bit kL2Offset).getLsbD w =
      ((levels kL2Offset).getLsbD w || decide (w = bit / 64)) := by
    simp only [setWords, kWordBits]
    by_cases hz : levels (bit / 64) = 0#64
    · simp only [hz, beq_self_eq_true, Bool.not_true, Bool.false_eq_true, if_false,
        Function.update_self, BitVec.getLsbD_or, getLsbD_bit]
      rw [Function.update_of_ne hne]
      simp [hw']
    · have hz' : (!levels (bit / 64) == 0#64) = true := by simpa using hz
      rw [if_pos hz', Function.update_of_ne hne]
      by_cases hwb : w = bit / 64
      · subst hwb; rw [h _ hw]; simpa using hz
      · simp [hwb]
  rw [hl2, setWords_word levels bit hw', h w hw]
  by_cases hwb : w = bit / 64
  · subst hwb; simpa using hset
  · simp [hwb]

theorem clearWords_summary {levels : ℕ → BitVec 64} {bit : ℕ} (hb : bit < kBitCount)
    (h : ∀ w < kL1Count, (levels kL2Offset).getLsbD w = (levels w != 0#64)) :
    ∀ w < kL1Count,
      (clearWords levels bit kL2Offset).getLsbD w = (clearWords levels bit w != 0#64) := by
  intro w hw
  obtain ⟨hq, hr⟩ := bit_lt hb
  have hw' : w < 64 := hw
  have hne : kL2Offset ≠ bit / 64 := (ne_kL2Offset hq).symm
  rw [clearWords_word levels bit hw']
  simp only [clearWords, and_wordMask]
  simp only [kWordBits, Function.update_self]
  by_cases hz : levels (bit / 64) &&& ~~~(1#64 <<< (bit % 64)) = 0#64
  · simp only [hz, bne_self_eq_false, Bool.false_eq_true, if_false, Function.update_self,
      BitVec.getLsbD_and, BitVec.getLsbD_not, getLsbD_bit]
    rw [Function.update_of_ne hne, h w hw]
    by_cases hwb : w = bit / 64
    · subst hwb; simp [hz, hw']
    · simp [hwb, hw']
  · have hb1 : (levels (bit / 64) &&& ~~~(1#64 <<< (bit % 64)) != 0#64) = true := by simpa using hz
    simp only [hb1, if_true]
    rw [Function.update_of_ne hne, h w hw]
    by_cases hwb : w = bit / 64
    · subst hwb
      simp only [if_true, hb1]
      have : levels (bit / 64) ≠ 0#64 := by rintro h0; simp [h0] at hz
      simpa using this
    · simp [hwb]

end Words

def empty : OccupancyTree := ⟨fun _ => 0#64, by simp⟩

def isEmpty (t : OccupancyTree) : Bool := t.levels kL2Offset == 0#64

def test (t : OccupancyTree) (bit : ℕ) : Bool :=
  decide (bit < kBitCount) && (t.levels (bit / kWordBits)).getLsbD (bit % 64)

def set (t : OccupancyTree) (bit : ℕ) : Exec OccupancyTree :=
  if h : bit < kBitCount then .ok ⟨setWords t.levels bit, setWords_summary h t.summary⟩
  else .error .assertion

def clear (t : OccupancyTree) (bit : ℕ) : Exec OccupancyTree :=
  if h : bit < kBitCount then
    if t.levels (bit / kWordBits) &&& 1#64 <<< (bit &&& (kWordBits - 1)) = 0#64 then
      .error .assertion
    else .ok ⟨clearWords t.levels bit, clearWords_summary h t.summary⟩
  else .error .assertion

def checkFound (found : ℕ) : Exec ℕ :=
  if found < kBitCount then .ok found else .error .assertion

def findNextSet (t : OccupancyTree) (bitPos : ℕ) : Exec ℕ :=
  if kBitCount ≤ bitPos then .error .assertion
  else
    let l1WordIdx := bitPos / kWordBits
    let l1BitIdx := bitPos &&& (kWordBits - 1)
    let l1Word := t.levels l1WordIdx &&& maskHigh l1BitIdx
    if l1Word ≠ 0#64 then checkFound (l1WordIdx * kWordBits + l1Word.ctz.toNat)
    else if kL1Count ≤ l1WordIdx + 1 then .error .assertion
    else
      let l2Word := t.levels kL2Offset &&& maskHigh (l1WordIdx + 1)
      if l2Word = 0#64 then .error .assertion
      else
        let targetL1Idx := l2Word.ctz.toNat
        if kL1Count ≤ targetL1Idx then .error .assertion
        else
          let targetL1Word := t.levels targetL1Idx
          if targetL1Word = 0#64 then .error .assertion
          else checkFound (targetL1Idx * kWordBits + targetL1Word.ctz.toNat)

def findPrevSet (t : OccupancyTree) (bitPos : ℕ) : Exec ℕ :=
  if kBitCount ≤ bitPos then .error .assertion
  else
    let l1WordIdx := bitPos / kWordBits
    let l1BitIdx := bitPos &&& (kWordBits - 1)
    let l1Word := t.levels l1WordIdx &&& maskLow l1BitIdx
    if l1Word ≠ 0#64 then
      checkFound (l1WordIdx * kWordBits + (kWordBits - 1 - l1Word.clz.toNat))
    else if l1WordIdx = 0 then .error .assertion
    else
      let l2Word := t.levels kL2Offset &&& maskLow (l1WordIdx - 1)
      if l2Word = 0#64 then .error .assertion
      else
        let targetL1Idx := kWordBits - 1 - l2Word.clz.toNat
        if kL1Count ≤ targetL1Idx then .error .assertion
        else
          let targetL1Word := t.levels targetL1Idx
          if targetL1Word = 0#64 then .error .assertion
          else checkFound (targetL1Idx * kWordBits + (kWordBits - 1 - targetL1Word.clz.toNat))

def nextBest (isAsk : Bool) (t : OccupancyTree) (bitPos : ℕ) : Exec ℕ :=
  if isAsk then t.findNextSet bitPos else t.findPrevSet bitPos

section Members

theorem test_iff {t : OccupancyTree} {i : ℕ} :
    t.test i = true ↔ i < kBitCount ∧ (t.levels (i / 64)).getLsbD (i % 64) = true := by
  simp [test]

theorem set_ok (t : OccupancyTree) {bit : ℕ} (hb : bit < kBitCount) :
    ∃ t', t.set bit = .ok t' := by
  simp [set, hb]

theorem word_eq_iff {i b : ℕ} (h : i / 64 = b / 64) : i % 64 = b % 64 ↔ i = b := by
  omega

theorem test_set {t t' : OccupancyTree} {bit : ℕ} (h : t.set bit = .ok t') (i : ℕ) :
    t'.test i = (decide (i = bit) || t.test i) := by
  simp only [set] at h
  split at h
  · next hb =>
    obtain rfl := Except.ok.inj h
    by_cases hi : i < kBitCount
    · obtain ⟨hq, hr⟩ := bit_lt hi
      simp only [test, hi, decide_true, Bool.true_and, setWords_word _ _ hq]
      by_cases hw : i / 64 = bit / 64
      · rw [if_pos hw, BitVec.getLsbD_or, getLsbD_bit, Bool.or_comm]
        simp [hr, word_eq_iff hw]
      · have hib : i ≠ bit := by rintro rfl; exact hw rfl
        simp [hw, hib]
    · have hib : i ≠ bit := by rintro rfl; exact hi hb
      simp [test, hi, hib]
  · cases h

theorem clear_ok {t : OccupancyTree} {bit : ℕ} (hb : t.test bit = true) :
    ∃ t', t.clear bit = .ok t' := by
  obtain ⟨hlt, hbit⟩ := test_iff.mp hb
  have hne : t.levels (bit / kWordBits) &&& 1#64 <<< (bit &&& (kWordBits - 1)) ≠ 0#64 := by
    rw [and_wordMask]
    apply ne_zero_of_getLsbD (i := bit % 64)
    rw [BitVec.getLsbD_and, hbit, getLsbD_bit]
    simp [(bit_lt hlt).2]
  exact ⟨_, by rw [clear, dif_pos hlt, if_neg hne]⟩

theorem test_clear {t t' : OccupancyTree} {bit : ℕ} (h : t.clear bit = .ok t') (i : ℕ) :
    t'.test i = (decide (i ≠ bit) && t.test i) := by
  simp only [clear] at h
  split at h
  · next hb =>
    split at h
    · cases h
    obtain rfl := Except.ok.inj h
    by_cases hi : i < kBitCount
    · obtain ⟨hq, hr⟩ := bit_lt hi
      simp only [test, hi, decide_true, Bool.true_and, clearWords_word _ _ hq]
      by_cases hw : i / 64 = bit / 64
      · rw [if_pos hw, BitVec.getLsbD_and, BitVec.getLsbD_not, getLsbD_bit, Bool.and_comm]
        simp [hr, word_eq_iff hw]
      · have hib : i ≠ bit := by rintro rfl; exact hw rfl
        simp [hw, hib]
    · simp [test, hi]
  · cases h

theorem isEmpty_iff {t : OccupancyTree} : t.isEmpty = true ↔ ∀ i, t.test i = false := by
  simp only [isEmpty, beq_iff_eq, eq_zero_iff]
  constructor
  · intro h i
    by_cases hi : i < kBitCount
    · obtain ⟨hq, -⟩ := bit_lt hi
      have hz := t.summary (i / 64) hq
      rw [h _ hq] at hz
      have : t.levels (i / 64) = 0#64 := by simpa using hz.symm
      simp [test, this]
    · simp [test, hi]
  · intro h w hw
    rw [t.summary w hw]
    have : t.levels w = 0#64 := by
      rw [eq_zero_iff]
      intro j hj
      have hlt : w * 64 + j < kBitCount := by simp only [kBitCount]; omega
      have := h (w * 64 + j)
      rw [test, show (w * 64 + j) / kWordBits = w by simp only [kWordBits]; omega,
        show (w * 64 + j) % 64 = j by omega] at this
      simpa [hlt] using this
    simp [this]

theorem getLsbD_maskHigh_iff {i j : ℕ} : (maskHigh i).getLsbD j = true ↔ i ≤ j ∧ j < 64 := by
  rw [maskHigh, getLsbD_maskHigh, decide_eq_true_eq]

theorem getLsbD_maskLow_iff {i j : ℕ} (hi : i < 64) :
    (maskLow i).getLsbD j = true ↔ j ≤ i ∧ j < 64 := by
  unfold maskLow
  split
  · simp only [BitVec.getLsbD_not, BitVec.getLsbD_zero, Bool.not_false, Bool.and_true, decide_eq_true_eq]
    omega
  · rw [getLsbD_maskLow (by omega)]
    simp only [decide_eq_true_eq]
    omega

theorem checkFound_word {w c : ℕ} (hw : w < 64) (hc : c < 64) :
    checkFound (w * kWordBits + c) = .ok (w * 64 + c) := by
  have : w * 64 + c < kBitCount := by simp only [kBitCount]; omega
  simp [checkFound, kWordBits, this]

theorem test_word {t : OccupancyTree} {w c : ℕ} (hw : w < 64) (hc : c < 64) :
    t.test (w * 64 + c) = (t.levels w).getLsbD c := by
  have : w * 64 + c < kBitCount := by simp only [kBitCount]; omega
  rw [test, show (w * 64 + c) / kWordBits = w by simp only [kWordBits]; omega,
    show (w * 64 + c) % 64 = c by omega]
  simp [this]

theorem word_ne_zero {t : OccupancyTree} {i : ℕ} (h : t.test i = true) :
    i / 64 < 64 ∧ (t.levels kL2Offset).getLsbD (i / 64) = true := by
  obtain ⟨hi, hbit⟩ := test_iff.mp h
  obtain ⟨hq, -⟩ := bit_lt hi
  refine ⟨hq, ?_⟩
  rw [t.summary _ hq]
  simpa using ne_zero_of_getLsbD hbit

theorem levels_ne_zero {t : OccupancyTree} {w : ℕ} (hw : w < 64) (h : (t.levels kL2Offset).getLsbD w = true) :
    t.levels w ≠ 0#64 := by
  rw [t.summary w hw] at h
  simpa using h

theorem word_ne_of_masked {t : OccupancyTree} {m : BitVec 64} {w k : ℕ} (hz : t.levels w &&& m = 0#64)
    (hk : t.test k = true) (hm : m.getLsbD (k % 64) = true) : k / 64 ≠ w := by
  rintro rfl
  have hbit := (test_iff.mp hk).2
  have hand := eq_zero_iff.mp hz (k % 64) (by omega)
  rw [BitVec.getLsbD_and, hbit, hm] at hand
  cases hand

theorem findNextSet_spec {t : OccupancyTree} {p i : ℕ} (hi : t.test i = true) (hp : p ≤ i) :
    ∃ j, t.findNextSet p = .ok j ∧ t.test j = true ∧ p ≤ j ∧
      ∀ k, t.test k = true → p ≤ k → j ≤ k := by
  have hlt := (test_iff.mp hi).1
  have hpq := bit_lt (hp.trans_lt hlt)
  simp only [findNextSet, and_wordMask, if_neg (show ¬ kBitCount ≤ p by omega)]
  by_cases hl1 : t.levels (p / kWordBits) &&& maskHigh (p % 64) = 0#64
  · -- nothing at or above `p` in its own word, so every candidate is in a later one
    have hlater : ∀ k, t.test k = true → p ≤ k → p / 64 < k / 64 := by
      intro k hk hpk
      by_contra hle
      exact word_ne_of_masked hl1 hk (getLsbD_maskHigh_iff.mpr (by omega)) (show k / 64 = p / 64 by omega)
    obtain ⟨hiw, hil2⟩ := word_ne_zero hi
    have hl2 : t.levels kL2Offset &&& maskHigh (p / kWordBits + 1) ≠ 0#64 := by
      apply ne_zero_of_getLsbD (i := i / 64)
      rw [BitVec.getLsbD_and, hil2, Bool.true_and, getLsbD_maskHigh_iff]
      exact ⟨hlater i hi hp, hiw⟩
    set l2 := t.levels kL2Offset &&& maskHigh (p / kWordBits + 1) with hl2def
    have hc := getLsbD_ctz hl2
    have hcw := ctz_lt hl2
    rw [hl2def, BitVec.getLsbD_and, Bool.and_eq_true, getLsbD_maskHigh_iff, ← hl2def] at hc
    have hword : t.levels l2.ctz.toNat ≠ 0#64 := levels_ne_zero hcw hc.1
    have hcw' : ¬ kL1Count ≤ l2.ctz.toNat := by simp only [kL1Count, kBitCount]; omega
    have hnw : ¬ kL1Count ≤ p / kWordBits + 1 := by
      have := hlater i hi hp
      simp only [kL1Count, kBitCount]; omega
    simp only [hl1, ne_eq, not_true, if_false, hnw, hl2, hcw', hword,
      checkFound_word hcw (ctz_lt hword)]
    refine ⟨_, rfl, ?_, ?_, ?_⟩
    · rw [test_word hcw (ctz_lt hword)]
      exact getLsbD_ctz hword
    · have := hc.2.1
      simp only [kWordBits] at this
      omega
    · intro k hk hpk
      obtain ⟨hkw, hkl2⟩ := word_ne_zero hk
      have hle : l2.ctz.toNat ≤ k / 64 := by
        apply ctz_le
        rw [hl2def, BitVec.getLsbD_and, hkl2, Bool.true_and, getLsbD_maskHigh_iff]
        exact ⟨hlater k hk hpk, hkw⟩
      rcases hle.lt_or_eq with h | h
      · have := ctz_lt hword
        omega
      · have : (t.levels l2.ctz.toNat).ctz.toNat ≤ k % 64 := by
          apply ctz_le
          rw [h]
          exact (test_iff.mp hk).2
        omega
  · have hc := getLsbD_ctz hl1
    have hcw := ctz_lt hl1
    rw [BitVec.getLsbD_and, Bool.and_eq_true, getLsbD_maskHigh_iff] at hc
    simp only [ne_eq, hl1, not_false_eq_true, if_true, checkFound_word hpq.1 hcw]
    refine ⟨_, rfl, ?_, by omega, ?_⟩
    · rw [test_word hpq.1 hcw]
      exact hc.1
    · intro k hk hpk
      by_cases hw : k / 64 = p / 64
      · have : (t.levels (p / kWordBits) &&& maskHigh (p % 64)).ctz.toNat ≤ k % 64 := by
          apply ctz_le
          rw [BitVec.getLsbD_and, show p / kWordBits = k / 64 from hw.symm, (test_iff.mp hk).2,
            Bool.true_and, getLsbD_maskHigh_iff]
          omega
        omega
      · omega

theorem findPrevSet_spec {t : OccupancyTree} {p i : ℕ} (hi : t.test i = true) (hp : i ≤ p)
    (hlt : p < kBitCount) :
    ∃ j, t.findPrevSet p = .ok j ∧ t.test j = true ∧ j ≤ p ∧
      ∀ k, t.test k = true → k ≤ p → k ≤ j := by
  have hpq := bit_lt hlt
  simp only [findPrevSet, and_wordMask, if_neg (show ¬ kBitCount ≤ p by omega)]
  by_cases hl1 : t.levels (p / kWordBits) &&& maskLow (p % 64) = 0#64
  · have hearlier : ∀ k, t.test k = true → k ≤ p → k / 64 < p / 64 := by
      intro k hk hpk
      by_contra hle
      exact word_ne_of_masked hl1 hk ((getLsbD_maskLow_iff hpq.2).mpr (by omega)) (show k / 64 = p / 64 by omega)
    obtain ⟨hiw, hil2⟩ := word_ne_zero hi
    have hpos := hearlier i hi hp
    have hl2 : t.levels kL2Offset &&& maskLow (p / kWordBits - 1) ≠ 0#64 := by
      apply ne_zero_of_getLsbD (i := i / 64)
      rw [BitVec.getLsbD_and, hil2, Bool.true_and, getLsbD_maskLow_iff (by simp only [kWordBits]; omega)]
      simp only [kWordBits]
      omega
    set l2 := t.levels kL2Offset &&& maskLow (p / kWordBits - 1) with hl2def
    have hc := getLsbD_topBit (by omega) hl2
    have hcw : topBit l2 < 64 := by unfold topBit; omega
    rw [hl2def, BitVec.getLsbD_and, Bool.and_eq_true,
      getLsbD_maskLow_iff (by simp only [kWordBits]; omega), ← hl2def] at hc
    have hword : t.levels (topBit l2) ≠ 0#64 := levels_ne_zero hcw hc.1
    have hcw' : ¬ kL1Count ≤ topBit l2 := by simp only [kL1Count, kBitCount]; omega
    have htw : topBit (t.levels (topBit l2)) < 64 := by
      have : topBit (t.levels (topBit l2)) ≤ 63 := by unfold topBit; omega
      omega
    have hnz : p / kWordBits ≠ 0 := by simp only [kWordBits]; omega
    have hfold : kWordBits - 1 - l2.clz.toNat = topBit l2 := rfl
    have hfold' : kWordBits - 1 - (t.levels (topBit l2)).clz.toNat = topBit (t.levels (topBit l2)) := rfl
    simp only [hl1, ne_eq, not_true, if_false, hnz, hl2, hfold, hcw', hword, hfold',
      checkFound_word hcw htw]
    refine ⟨_, rfl, ?_, ?_, ?_⟩
    · rw [test_word hcw htw]
      exact getLsbD_topBit (by omega) hword
    · have := hc.2.1
      simp only [kWordBits] at this
      omega
    · intro k hk hpk
      obtain ⟨hkw, hkl2⟩ := word_ne_zero hk
      have hle : k / 64 ≤ topBit l2 := by
        apply le_topBit
        rw [hl2def, BitVec.getLsbD_and, hkl2, Bool.true_and,
          getLsbD_maskLow_iff (by simp only [kWordBits]; omega)]
        have := hearlier k hk hpk
        simp only [kWordBits]
        omega
      rcases hle.lt_or_eq with h | h
      · omega
      · have : k % 64 ≤ topBit (t.levels (topBit l2)) := by
          apply le_topBit
          rw [← h]
          exact (test_iff.mp hk).2
        omega
  · have hc := getLsbD_topBit (by omega) hl1
    rw [BitVec.getLsbD_and, Bool.and_eq_true, getLsbD_maskLow_iff hpq.2] at hc
    have hfold : kWordBits - 1 - (t.levels (p / kWordBits) &&& maskLow (p % 64)).clz.toNat =
      topBit (t.levels (p / kWordBits) &&& maskLow (p % 64)) := rfl
    simp only [ne_eq, hl1, not_false_eq_true, if_true, hfold, checkFound_word hpq.1 hc.2.2]
    refine ⟨_, rfl, ?_, by omega, ?_⟩
    · rw [test_word hpq.1 hc.2.2]
      exact hc.1
    · intro k hk hpk
      by_cases hw : k / 64 = p / 64
      · have : k % 64 ≤ topBit (t.levels (p / kWordBits) &&& maskLow (p % 64)) := by
          apply le_topBit
          rw [BitVec.getLsbD_and, show p / kWordBits = k / 64 from hw.symm, (test_iff.mp hk).2,
            Bool.true_and, getLsbD_maskLow_iff hpq.2]
          omega
        omega
      · omega

end Members

end OccupancyTree

end Llmes
