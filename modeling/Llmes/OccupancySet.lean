import Llmes.OccupancyTree
import Llmes.Lib.Machine

namespace Llmes

inductive TreeCall
  | set (bit : ℕ)
  | clear (bit : ℕ)

def TreeCall.apply (S : Finset ℕ) : TreeCall → Finset ℕ
  | .set bit => insert bit S
  | .clear bit => S.erase bit

def TreeCall.members (calls : List TreeCall) : Finset ℕ := calls.foldl TreeCall.apply ∅

namespace OccupancyTree

def step (t : OccupancyTree) : TreeCall → Exec (Unit × OccupancyTree)
  | .set bit => do
    let t ← t.set bit
    pure ((), t)
  | .clear bit => do
    let t ← t.clear bit
    pure ((), t)

def InScope (t : OccupancyTree) : TreeCall → Prop
  | .set bit => bit < kBitCount
  | .clear bit => t.test bit = true

instance (t : OccupancyTree) : (call : TreeCall) → Decidable (InScope t call)
  | .set bit => inferInstanceAs (Decidable (bit < kBitCount))
  | .clear bit => inferInstanceAs (Decidable (t.test bit = true))

/-- A shift by the width of the word or more is undefined. -/
def shl (w : BitVec 64) (a : ℕ) : Option (BitVec 64) := if a < 64 then some (w <<< a) else none

def maskHigh? (bitIdx : ℕ) : Option (BitVec 64) := shl (~~~(0#64)) bitIdx

def maskLow? (bitIdx : ℕ) : Option (BitVec 64) :=
  if bitIdx = 63 then some (~~~(0#64)) else (shl 1#64 (bitIdx + 1)).map (· - 1#64)

def words? (t : OccupancyTree) : TreeCall → Option (ℕ → BitVec 64)
  | .set bit => do
    let wordIdx := bit / kWordBits
    let mask ← shl 1#64 (bit &&& (kWordBits - 1))
    let levels := Function.update t.levels wordIdx (t.levels wordIdx ||| mask)
    if t.levels wordIdx ≠ 0#64 then some levels
    else (shl 1#64 wordIdx).map (fun m => Function.update levels kL2Offset (levels kL2Offset ||| m))
  | .clear bit => do
    let wordIdx := bit / kWordBits
    let mask ← shl 1#64 (bit &&& (kWordBits - 1))
    let levels := Function.update t.levels wordIdx (t.levels wordIdx &&& ~~~mask)
    if levels wordIdx ≠ 0#64 then some levels
    else (shl 1#64 wordIdx).map (fun m => Function.update levels kL2Offset (levels kL2Offset &&& ~~~m))

def findNextSet? (t : OccupancyTree) (bitPos : ℕ) : Option (Exec ℕ) :=
  if kBitCount ≤ bitPos then some (.error .assertion)
  else do
    let l1WordIdx := bitPos / kWordBits
    let mask ← maskHigh? (bitPos &&& (kWordBits - 1))
    let l1Word := t.levels l1WordIdx &&& mask
    if l1Word ≠ 0#64 then some (checkFound (l1WordIdx * kWordBits + l1Word.ctz.toNat))
    else if kL1Count ≤ l1WordIdx + 1 then some (.error .assertion)
    else
      let mask ← maskHigh? (l1WordIdx + 1)
      let l2Word := t.levels kL2Offset &&& mask
      if l2Word = 0#64 then some (.error .assertion)
      else
        let targetL1Idx := l2Word.ctz.toNat
        if kL1Count ≤ targetL1Idx then some (.error .assertion)
        else
          let targetL1Word := t.levels targetL1Idx
          if targetL1Word = 0#64 then some (.error .assertion)
          else some (checkFound (targetL1Idx * kWordBits + targetL1Word.ctz.toNat))

def findPrevSet? (t : OccupancyTree) (bitPos : ℕ) : Option (Exec ℕ) :=
  if kBitCount ≤ bitPos then some (.error .assertion)
  else do
    let l1WordIdx := bitPos / kWordBits
    let mask ← maskLow? (bitPos &&& (kWordBits - 1))
    let l1Word := t.levels l1WordIdx &&& mask
    if l1Word ≠ 0#64 then some (checkFound (l1WordIdx * kWordBits + (kWordBits - 1 - l1Word.clz.toNat)))
    else if l1WordIdx = 0 then some (.error .assertion)
    else
      let mask ← maskLow? (l1WordIdx - 1)
      let l2Word := t.levels kL2Offset &&& mask
      if l2Word = 0#64 then some (.error .assertion)
      else
        let targetL1Idx := kWordBits - 1 - l2Word.clz.toNat
        if kL1Count ≤ targetL1Idx then some (.error .assertion)
        else
          let targetL1Word := t.levels targetL1Idx
          if targetL1Word = 0#64 then some (.error .assertion)
          else some (checkFound (targetL1Idx * kWordBits + (kWordBits - 1 - targetL1Word.clz.toNat)))

variable {t t' : OccupancyTree} {S : Finset ℕ} {call : TreeCall} {p i : ℕ}

theorem shl_eq (w : BitVec 64) {a : ℕ} (ha : a < 64) : shl w a = some (w <<< a) := if_pos ha

theorem maskHigh?_eq {a : ℕ} (ha : a < 64) : maskHigh? a = some (maskHigh a) := shl_eq _ ha

theorem maskLow?_eq {a : ℕ} (ha : a < 64) : maskLow? a = some (maskLow a) := by
  rw [maskLow?, maskLow]
  split
  · rfl
  · rw [shl_eq _ (by omega)]
    rfl

theorem words?_set {bit : ℕ} (hb : bit < kBitCount) : t.words? (.set bit) = some (setWords t.levels bit) := by
  obtain ⟨hq, hr⟩ := bit_lt hb
  rw [words?, setWords]
  dsimp only
  rw [and_wordMask, shl_eq _ hr, shl_eq _ hq]
  by_cases hz : t.levels (bit / kWordBits) = 0#64
  · simp [hz]
  · simp [hz]

theorem words?_clear {bit : ℕ} (hb : bit < kBitCount) : t.words? (.clear bit) = some (clearWords t.levels bit) := by
  obtain ⟨hq, hr⟩ := bit_lt hb
  rw [words?, clearWords]
  dsimp only
  rw [and_wordMask, shl_eq _ hr, shl_eq _ hq]
  by_cases hz : t.levels (bit / kWordBits) &&& ~~~(1#64 <<< (bit % 64)) = 0#64
  · simp [hz]
  · simp [hz]

/-- The assertion before the second shift keeps it below the width of the word. -/
theorem findNextSet?_eq (t : OccupancyTree) (p : ℕ) : t.findNextSet? p = some (t.findNextSet p) := by
  rw [findNextSet?, findNextSet]
  by_cases hp : kBitCount ≤ p
  · rw [if_pos hp, if_pos hp]
  rw [if_neg hp, if_neg hp, and_wordMask, maskHigh?_eq (Nat.mod_lt p (by norm_num))]
  dsimp only [Option.bind_eq_bind, Option.bind_some]
  by_cases hword : kL1Count ≤ p / kWordBits + 1
  · simp only [hword, if_true]
    split <;> rfl
  · have hlt : p / kWordBits + 1 < 64 := not_le.mp hword
    rw [maskHigh?_eq hlt]
    dsimp only [Option.bind_some]
    split_ifs <;> rfl

theorem findPrevSet?_eq (t : OccupancyTree) (p : ℕ) : t.findPrevSet? p = some (t.findPrevSet p) := by
  rw [findPrevSet?, findPrevSet]
  by_cases hp : kBitCount ≤ p
  · rw [if_pos hp, if_pos hp]
  have hq := (bit_lt (not_le.mp hp)).1
  have hprev : p / kWordBits - 1 < 64 := (Nat.sub_le _ _).trans_lt hq
  rw [if_neg hp, if_neg hp, and_wordMask, maskLow?_eq (Nat.mod_lt p (by norm_num))]
  dsimp only [Option.bind_eq_bind, Option.bind_some]
  rw [maskLow?_eq hprev]
  dsimp only [Option.bind_some]
  split_ifs <;> rfl

def Holds (t : OccupancyTree) (S : Finset ℕ) : Prop := ∀ i, i ∈ S ↔ t.test i = true

theorem step_ok (hs : InScope t call) : ∃ t', t.step call = .ok ((), t') ∧ t.words? call = some t'.levels := by
  cases call with
  | set bit =>
    have hb : bit < kBitCount := hs
    obtain ⟨t', ht'⟩ := t.set_ok hb
    refine ⟨t', by rw [OccupancyTree.step, ht']; rfl, ?_⟩
    rw [words?_set hb]
    unfold OccupancyTree.set at ht'
    rw [dif_pos hb] at ht'
    obtain rfl := Except.ok.inj ht'
    rfl
  | clear bit =>
    obtain ⟨t', ht'⟩ := clear_ok hs
    refine ⟨t', by rw [OccupancyTree.step, ht']; rfl, ?_⟩
    have hb : bit < kBitCount := (test_iff.mp hs).1
    rw [words?_clear hb]
    unfold OccupancyTree.clear at ht'
    rw [dif_pos hb] at ht'
    split at ht'
    · cases ht'
    · obtain rfl := Except.ok.inj ht'
      rfl

theorem holds_step (h : Holds t S) (hs : InScope t call) :
    ∃ t', t.step call = .ok ((), t') ∧ Holds t' (call.apply S) := by
  cases call with
  | set bit =>
    obtain ⟨t', ht'⟩ := t.set_ok hs
    refine ⟨t', by rw [OccupancyTree.step, ht']; rfl, fun i => ?_⟩
    rw [test_set ht', TreeCall.apply, Finset.mem_insert, h i]
    simp
  | clear bit =>
    obtain ⟨t', ht'⟩ := clear_ok hs
    refine ⟨t', by rw [OccupancyTree.step, ht']; rfl, fun i => ?_⟩
    rw [test_clear ht', TreeCall.apply, Finset.mem_erase, h i]
    simp

theorem holds_run {calls : List TreeCall} (h : Holds t S) (hok : Machine.Allowed step InScope t calls) :
    ∃ replies t', Machine.runAll step t calls = .ok (replies, t') ∧ Holds t' (calls.foldl TreeCall.apply S) := by
  induction calls generalizing t S with
  | nil => exact ⟨[], t, rfl, h⟩
  | cons call calls ih =>
    obtain ⟨t₁, ht₁, hS₁⟩ := holds_step h hok.1
    obtain ⟨replies, t', ht', hS'⟩ := ih hS₁ (hok.2 _ _ ht₁)
    refine ⟨() :: replies, t', ?_, hS'⟩
    simp only [Machine.runAll, ht₁, ht', bind, Except.bind]
    rfl

theorem Holds.isEmpty_iff (h : Holds t S) : t.isEmpty = true ↔ S = ∅ := by
  rw [OccupancyTree.isEmpty_iff, Finset.eq_empty_iff_forall_notMem]
  apply forall_congr'
  intro i
  rw [h i, Bool.not_eq_true]

theorem tree_is_set {calls : List TreeCall} (hok : Machine.Allowed step InScope .empty calls) :
    ∃ replies t, Machine.runAll step .empty calls = .ok (replies, t) ∧
      (∀ w < kL1Count, (t.levels kL2Offset).getLsbD w = true ↔ t.levels w ≠ 0#64) ∧
      (∀ i, i ∈ TreeCall.members calls ↔ i < kBitCount ∧ (t.levels (i / 64)).getLsbD (i % 64) = true) ∧
      (t.isEmpty = true ↔ TreeCall.members calls = ∅) ∧
      (∀ p < kBitCount, (∃ m ∈ TreeCall.members calls, p ≤ m) →
        ∃ j, t.findNextSet p = .ok j ∧ IsLeast {k | k ∈ TreeCall.members calls ∧ p ≤ k} j ∧
          t.findNextSet? p = some (.ok j)) ∧
      (∀ p < kBitCount, (∃ m ∈ TreeCall.members calls, m ≤ p) →
        ∃ j, t.findPrevSet p = .ok j ∧ IsGreatest {k | k ∈ TreeCall.members calls ∧ k ≤ p} j ∧
          t.findPrevSet? p = some (.ok j)) ∧
      ∀ call, InScope t call → ∃ t', t.step call = .ok ((), t') ∧ t.words? call = some t'.levels := by
  have hempty : Holds .empty ∅ := by
    intro i
    simp [test, OccupancyTree.empty]
  obtain ⟨replies, t, ht, hS⟩ := holds_run hempty hok
  refine ⟨replies, t, ht, ?_, fun i => (hS i).trans test_iff, hS.isEmpty_iff, ?_, ?_, fun call => step_ok⟩
  · intro w hw
    rw [t.summary w hw, bne_iff_ne]
  · rintro p - ⟨m, hm, hpm⟩
    obtain ⟨j, hj, hjt, hpj, hleast⟩ := findNextSet_spec ((hS m).mp hm) hpm
    refine ⟨j, hj, ⟨⟨(hS j).mpr hjt, hpj⟩, ?_⟩, by rw [findNextSet?_eq, hj]⟩
    rintro k ⟨hk, hpk⟩
    exact hleast k ((hS k).mp hk) hpk
  · rintro p hp ⟨m, hm, hmp⟩
    obtain ⟨j, hj, hjt, hjp, hgreatest⟩ := findPrevSet_spec ((hS m).mp hm) hmp hp
    refine ⟨j, hj, ⟨⟨(hS j).mpr hjt, hjp⟩, ?_⟩, by rw [findPrevSet?_eq, hj]⟩
    rintro k ⟨hk, hkp⟩
    exact hgreatest k ((hS k).mp hk) hkp

theorem tree_is_set_boundary :
    ∃ replies t, Machine.runAll step .empty [.set 63, .set 4095, .set 64, .clear 63] = .ok (replies, t) ∧
      ∃ j, t.findNextSet 0 = .ok j ∧ IsLeast {k | k ∈ ({4095, 64} : Finset ℕ) ∧ 0 ≤ k} j := by
  have hmembers : TreeCall.members [.set 63, .set 4095, .set 64, .clear 63] = {4095, 64} := by decide
  have hok : Machine.Allowed step InScope .empty [.set 63, .set 4095, .set 64, .clear 63] := by
    refine .of_next ?_ (.of_next ?_ (.of_next ?_ (.of_next ?_ trivial))) <;> decide +kernel
  obtain ⟨replies, t, ht, -, -, -, hnext, -⟩ := tree_is_set hok
  rw [hmembers] at hnext
  obtain ⟨j, hj, hleast, -⟩ := hnext 0 (by decide) ⟨64, by decide, by decide⟩
  exact ⟨replies, t, ht, j, hj, hleast⟩

end OccupancyTree

end Llmes
