import Llmes.OccupancyTree

namespace Llmes.Hft

open BitScan

inductive OccupancySetPath
  | notApplicable
  | targetAlreadySet
  | l1Only
  | reachedL2
  deriving DecidableEq

/-- The workload's own copy of an occupancy tree: a word per 64 bits, and a bit per non-zero word. -/
structure ShadowOccupancyTree where
  l1 : ℕ → BitVec 64
  l2 : BitVec 64
  summary : ∀ w < kL1Count, l2.getLsbD w = (l1 w != 0#64)

namespace ShadowOccupancyTree

def l1Mask (bit : ℕ) : BitVec 64 := 1#64 <<< (bit &&& 63)

def setL1 (l1 : ℕ → BitVec 64) (bit : ℕ) : ℕ → BitVec 64 :=
  Function.update l1 (bit / 64) (l1 (bit / 64) ||| l1Mask bit)

def setL2 (l1 : ℕ → BitVec 64) (l2 : BitVec 64) (bit : ℕ) : BitVec 64 :=
  let l1WasEmpty := l1 (bit / 64) == 0#64
  if !l1WasEmpty then l2 else l2 ||| 1#64 <<< (bit / 64)

def clearL1 (l1 : ℕ → BitVec 64) (bit : ℕ) : ℕ → BitVec 64 :=
  Function.update l1 (bit / 64) (l1 (bit / 64) &&& ~~~l1Mask bit)

def clearL2 (l1 : ℕ → BitVec 64) (l2 : BitVec 64) (bit : ℕ) : BitVec 64 :=
  if clearL1 l1 bit (bit / 64) != 0#64 then l2 else l2 &&& ~~~(1#64 <<< (bit / 64))

def words (l1 : ℕ → BitVec 64) (l2 : BitVec 64) : ℕ → BitVec 64 := Function.update l1 kL2Offset l2

section Words

variable {l1 : ℕ → BitVec 64} {l2 : BitVec 64} {bit : ℕ}

theorem words_word {w : ℕ} (hw : w < kL1Count) : words l1 l2 w = l1 w :=
  Function.update_of_ne (OccupancyTree.ne_kL2Offset hw) _ _

theorem words_l2 : words l1 l2 kL2Offset = l2 := Function.update_self _ _ _

theorem words_summary (h : ∀ w < kL1Count, l2.getLsbD w = (l1 w != 0#64)) :
    ∀ w < kL1Count, (words l1 l2 kL2Offset).getLsbD w = (words l1 l2 w != 0#64) := by
  intro w hw
  rw [words_l2, words_word hw]
  exact h w hw

theorem words_set (hb : bit < kBitCount) :
    words (setL1 l1 bit) (setL2 l1 l2 bit) = OccupancyTree.setWords (words l1 l2) bit := by
  have hw : bit / 64 < kL1Count := (OccupancyTree.bit_lt hb).1
  have hne := OccupancyTree.ne_kL2Offset hw
  simp only [words, setL1, setL2, OccupancyTree.setWords, l1Mask, kWordBits, Function.update_self,
    Function.update_of_ne hne, Function.update_of_ne hne.symm]
  split
  · exact Function.update_comm hne _ _ _
  · funext w
    by_cases hw₂ : w = kL2Offset
    · subst hw₂
      simp
    · simp [Function.update_apply, hw₂]

theorem words_clear (hb : bit < kBitCount) :
    words (clearL1 l1 bit) (clearL2 l1 l2 bit) = OccupancyTree.clearWords (words l1 l2) bit := by
  have hw : bit / 64 < kL1Count := (OccupancyTree.bit_lt hb).1
  have hne := OccupancyTree.ne_kL2Offset hw
  simp only [words, clearL1, clearL2, OccupancyTree.clearWords, l1Mask, kWordBits, Function.update_self,
    Function.update_of_ne hne, Function.update_of_ne hne.symm]
  split
  · exact Function.update_comm hne _ _ _
  · funext w
    by_cases hw₂ : w = kL2Offset
    · subst hw₂
      simp
    · simp [Function.update_apply, hw₂]

theorem summary_of_words (h : ∀ w < kL1Count, (words l1 l2 kL2Offset).getLsbD w = (words l1 l2 w != 0#64)) :
    ∀ w < kL1Count, l2.getLsbD w = (l1 w != 0#64) := by
  intro w hw
  have hw' := h w hw
  rwa [words_l2, words_word hw] at hw'

end Words

def reset : ShadowOccupancyTree := ⟨fun _ => 0#64, 0#64, OccupancyTree.empty.summary⟩

def classifySet (t : ShadowOccupancyTree) (bit : Fin kBitCount) : OccupancySetPath :=
  let l1Word := t.l1 (bit / 64)
  if l1Word &&& l1Mask bit ≠ 0#64 then .targetAlreadySet
  else if l1Word ≠ 0#64 then .l1Only
  else .reachedL2

def l1Popcount (t : ShadowOccupancyTree) (bit : Fin kBitCount) : ℕ := (t.l1 (bit / 64)).cpop.toNat

def set (t : ShadowOccupancyTree) (bit : Fin kBitCount) : ShadowOccupancyTree :=
  if t.l1 (bit / 64) &&& l1Mask bit ≠ 0#64 then t
  else ⟨setL1 t.l1 bit, setL2 t.l1 t.l2 bit, summary_of_words (by
    rw [words_set bit.isLt]
    exact OccupancyTree.setWords_summary bit.isLt (words_summary t.summary))⟩

def clear (t : ShadowOccupancyTree) (bit : Fin kBitCount) : ShadowOccupancyTree :=
  if t.l1 (bit / 64) &&& l1Mask bit = 0#64 then t
  else ⟨clearL1 t.l1 bit, clearL2 t.l1 t.l2 bit, summary_of_words (by
    rw [words_clear bit.isLt]
    exact OccupancyTree.clearWords_summary bit.isLt (words_summary t.summary))⟩

def best (isAsk : Bool) (t : ShadowOccupancyTree) : Option ℕ :=
  if t.l2 = 0#64 then none
  else if isAsk then
    let l1Idx := t.l2.ctz.toNat
    some (l1Idx * 64 + (t.l1 l1Idx).ctz.toNat)
  else
    let l1Idx := 63 - t.l2.clz.toNat
    some (l1Idx * 64 + (63 - (t.l1 l1Idx).clz.toNat))

def test (t : ShadowOccupancyTree) (bit : ℕ) : Bool :=
  decide (bit < kBitCount) && (t.l1 (bit / 64)).getLsbD (bit % 64)

section Members

variable {t : ShadowOccupancyTree} {bit : Fin kBitCount}

def toTree (t : ShadowOccupancyTree) : OccupancyTree := ⟨words t.l1 t.l2, words_summary t.summary⟩

theorem test_toTree (t : ShadowOccupancyTree) (i : ℕ) : t.toTree.test i = t.test i := by
  by_cases hi : i < kBitCount
  · have hw : i / kWordBits < kL1Count := (OccupancyTree.bit_lt hi).1
    simp only [OccupancyTree.test, toTree, test, words_word hw]
  · simp [OccupancyTree.test, test, hi]

theorem and_l1Mask : t.l1 (bit / 64) &&& l1Mask bit = 0#64 ↔ t.test bit = false := by
  have hmask : l1Mask bit = 1#64 <<< ((bit : ℕ) % 64) := by
    rw [← OccupancyTree.and_wordMask]
    rfl
  have hr := (OccupancyTree.bit_lt bit.isLt).2
  rw [hmask, eq_zero_iff, test, decide_eq_true bit.isLt, Bool.true_and]
  constructor
  · intro h
    have hbit := h _ hr
    rwa [BitVec.getLsbD_and, getLsbD_bit, decide_eq_true ⟨rfl, hr⟩, Bool.and_true] at hbit
  · intro h i hi
    rw [BitVec.getLsbD_and, getLsbD_bit]
    by_cases hib : i = (bit : ℕ) % 64
    · rw [hib, h, Bool.false_and]
    · simp [hib]

theorem test_set (t : ShadowOccupancyTree) (bit : Fin kBitCount) (i : ℕ) :
    (t.set bit).test i = (decide (i = bit) || t.test i) := by
  unfold set
  split
  · next h =>
    have hbit : t.test bit = true := by simpa using mt and_l1Mask.mpr h
    by_cases hi : i = bit
    · simp [hi, hbit]
    · simp [hi]
  · obtain ⟨t', ht'⟩ := t.toTree.set_ok bit.isLt
    have hwords : t' = ⟨words (setL1 t.l1 bit) (setL2 t.l1 t.l2 bit), by
        rw [words_set bit.isLt]
        exact OccupancyTree.setWords_summary bit.isLt (words_summary t.summary)⟩ := by
      simp only [OccupancyTree.set, bit.isLt, dif_pos, Except.ok.injEq] at ht'
      rw [← ht']
      simp only [toTree, words_set bit.isLt]
    rw [← test_toTree, ← test_toTree t, ← OccupancyTree.test_set ht', hwords]
    rfl

theorem test_clear (t : ShadowOccupancyTree) (bit : Fin kBitCount) (i : ℕ) :
    (t.clear bit).test i = (decide (i ≠ bit) && t.test i) := by
  unfold clear
  split
  · next h =>
    have hbit := and_l1Mask.mp h
    by_cases hi : i = bit
    · simp [hi, hbit]
    · simp [hi]
  · next h =>
    have hbit : t.toTree.test bit = true := by
      rw [test_toTree]
      simpa using mt and_l1Mask.mpr h
    obtain ⟨t', ht'⟩ := OccupancyTree.clear_ok hbit
    have hwords : t' = ⟨words (clearL1 t.l1 bit) (clearL2 t.l1 t.l2 bit), by
        rw [words_clear bit.isLt]
        exact OccupancyTree.clearWords_summary bit.isLt (words_summary t.summary)⟩ := by
      simp only [OccupancyTree.clear, bit.isLt, dif_pos] at ht'
      split at ht'
      · cases ht'
      · rw [← Except.ok.inj ht']
        simp only [toTree, words_clear bit.isLt]
    rw [← test_toTree, ← test_toTree t, ← OccupancyTree.test_clear ht', hwords]
    rfl

theorem test_lt {i : ℕ} (h : t.test i = true) : i < kBitCount := by
  rw [← test_toTree] at h
  exact (OccupancyTree.test_iff.mp h).1

theorem best_eq_none {isAsk : Bool} : best isAsk t = none ↔ ∀ i, t.test i = false := by
  have hempty : t.toTree.isEmpty = true ↔ t.l2 = 0#64 := by
    rw [OccupancyTree.isEmpty, beq_iff_eq]
    exact iff_of_eq (congrArg (· = 0#64) (@words_l2 t.l1 t.l2))
  rw [← (forall_congr' fun i => by rw [test_toTree] : (∀ i, t.toTree.test i = false) ↔ ∀ i, t.test i = false),
    ← OccupancyTree.isEmpty_iff, hempty, best]
  by_cases hl2 : t.l2 = 0#64
  · simp [hl2]
  · cases isAsk <;> simp [hl2]

theorem best_spec {isAsk : Bool} {i : ℕ} (h : best isAsk t = some i) :
    t.test i = true ∧ ∀ j, t.test j = true → j = i ∨ PriceCompare isAsk i j := by
  have hword {w c : ℕ} (hw : w < 64) (hc : c < 64) : t.test (w * 64 + c) = (t.l1 w).getLsbD c := by
    rw [← test_toTree, OccupancyTree.test_word hw hc]
    exact congrArg (BitVec.getLsbD · c) (words_word hw)
  have hsplit {j : ℕ} (hj : t.test j = true) :
      j / 64 < 64 ∧ t.l2.getLsbD (j / 64) = true ∧ (t.l1 (j / 64)).getLsbD (j % 64) = true := by
    obtain ⟨hq, hr⟩ := OccupancyTree.bit_lt (test_lt hj)
    have hbit : (t.l1 (j / 64)).getLsbD (j % 64) = true := by
      rw [← hword hq hr, show j / 64 * 64 + j % 64 = j by omega]
      exact hj
    refine ⟨hq, ?_, hbit⟩
    rw [t.summary _ hq]
    simpa using ne_zero_of_getLsbD hbit
  unfold best at h
  split at h
  · cases h
  · next hl2 =>
    cases isAsk with
    | true =>
      obtain rfl := Option.some.inj h
      have hw := ctz_lt hl2
      have hne : t.l1 t.l2.ctz.toNat ≠ 0#64 := by simpa [getLsbD_ctz hl2] using t.summary _ hw
      refine ⟨?_, fun j hj => ?_⟩
      · rw [hword hw (ctz_lt hne)]
        exact getLsbD_ctz hne
      · obtain ⟨-, hq, hr⟩ := hsplit hj
        have hle := ctz_le hq
        rw [priceCompare_ask]
        rcases hle.lt_or_eq with hlt | heq
        · have := ctz_lt hne
          omega
        · rw [← heq] at hr
          have := ctz_le hr
          omega
    | false =>
      obtain rfl := Option.some.inj h
      change _ ∧ ∀ j, t.test j = true → j = topBit t.l2 * 64 + topBit (t.l1 (topBit t.l2)) ∨ _
      have hbit := getLsbD_topBit (by norm_num) hl2
      have hw := BitVec.lt_of_getLsbD hbit
      have hne : t.l1 (topBit t.l2) ≠ 0#64 := by simpa [hbit] using t.summary _ hw
      have hbit' := getLsbD_topBit (by norm_num) hne
      have hc := BitVec.lt_of_getLsbD hbit'
      refine ⟨?_, fun j hj => ?_⟩
      · exact (hword hw hc).trans hbit'
      · obtain ⟨-, hq, hr⟩ := hsplit hj
        have hle := le_topBit hq
        rw [priceCompare_bid]
        change _ ∨ (j : Int) < ((topBit t.l2 * 64 + topBit (t.l1 (topBit t.l2)) : ℕ) : Int)
        rcases hle.lt_or_eq with hlt | heq
        · omega
        · rw [heq] at hr
          have := le_topBit hr
          omega

end Members

end ShadowOccupancyTree

end Llmes.Hft
