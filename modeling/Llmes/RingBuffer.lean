import Llmes.BookSide
import Llmes.Lib.BitScan
import Llmes.Lib.Cells

namespace Llmes

open BitScan

def kNoPrice : Int := -2 ^ 63

/-- Signed 64-bit arithmetic: a result that does not fit is undefined. -/
def checked (v : Int) : Exec Int := if -2 ^ 63 ≤ v ∧ v < 2 ^ 63 then .ok v else .error .overflow

def toSize (r : Int) : ℕ := (r % 2 ^ 64).toNat

structure RingSlot where
  price : Int := kNoPrice
  level : Option ℕ := none
  deriving DecidableEq

/-- The levels at the ticks nearest to the best price. `overwritten` is history: whether a level was
installed over another one. Nothing reads it. -/
structure RingBuffer (isAsk : Bool) where
  bestPrice : Int := kNoPrice
  anchor : ℕ := 0
  liveMask : BitVec 16 := 0#16
  slots : ℕ → RingSlot := fun _ => {}
  overwritten : Bool := false

namespace RingBuffer

def ringSize : ℕ := 16

def kMask : ℕ := ringSize - 1

variable {isAsk : Bool}

def rank (hot : RingBuffer isAsk) (price : Int) : Exec Int :=
  if hot.bestPrice = kNoPrice then .error .assertion
  else if isAsk then checked (price - hot.bestPrice) else checked (hot.bestPrice - price)

def inHotWindow (r : Int) : Bool := toSize r < ringSize

def idxOf (hot : RingBuffer isAsk) (r : Int) : ℕ := ((hot.anchor + toSize r) % 2 ^ 64) &&& kMask

def empty (hot : RingBuffer isAsk) : Bool := hot.liveMask == 0#16

def bestLevel (hot : RingBuffer isAsk) : Option ℕ := (hot.slots hot.anchor).level

def insert (hot : RingBuffer isAsk) (idx : ℕ) (price : Int) (level : Option ℕ) :
    Exec (RingBuffer isAsk) :=
  if price = kNoPrice ∨ level = none then .error .assertion
  else .ok { hot with
    slots := Function.update hot.slots idx ⟨price, level⟩
    liveMask := hot.liveMask ||| 1#16 <<< idx
    overwritten := hot.overwritten || (hot.slots idx).level.isSome }

def remove (hot : RingBuffer isAsk) (levels : ℕ → PriceLevel) (idx : ℕ) : Exec (RingBuffer isAsk) :=
  if ∀ r ∈ (hot.slots idx).level, (levels r).empty then .ok { hot with
    liveMask := hot.liveMask &&& ~~~(1#16 <<< idx)
    slots := Function.update hot.slots idx {} }
  else .error .assertion

def evict (hot : RingBuffer isAsk) (idx : ℕ) : Option ℕ × RingBuffer isAsk :=
  ((hot.slots idx).level, { hot with
    liveMask := hot.liveMask &&& ~~~(1#16 <<< idx)
    slots := Function.update hot.slots idx {} })

def nextLiveOffset (hot : RingBuffer isAsk) : Int :=
  let rotated := (hot.liveMask.rotateRight hot.anchor).setWidth 64
  if rotated ≠ 0#64 then rotated.ctz.toNat else -1

def setAnchor (hot : RingBuffer isAsk) (idx : ℕ) (price : Int) : Exec (RingBuffer isAsk) :=
  if price = kNoPrice then .error .assertion else .ok { hot with anchor := idx, bestPrice := price }

def reset (hot : RingBuffer isAsk) : RingBuffer isAsk :=
  { hot with liveMask := 0#16, bestPrice := kNoPrice }

def offset (hot : RingBuffer isAsk) (price : Int) : Int :=
  if isAsk then price - hot.bestPrice else hot.bestPrice - price

def home (hot : RingBuffer isAsk) (price : Int) : ℕ := ((hot.anchor + hot.offset price) % 16).toNat

def rebased (hot : RingBuffer isAsk) (price : Int) : RingBuffer isAsk :=
  { hot with anchor := hot.home price, bestPrice := price }

variable {hot : RingBuffer isAsk} {p q : Int}

theorem priceCompare_iff (hot : RingBuffer isAsk) (p q : Int) :
    PriceCompare isAsk p q ↔ hot.offset p < hot.offset q := by
  cases isAsk <;> simp only [priceCompare_ask, priceCompare_bid, offset] <;> simp

theorem offset_inj (hot : RingBuffer isAsk) (h : hot.offset p = hot.offset q) : p = q := by
  cases isAsk <;> simp only [offset] at h <;> simp at h <;> omega

theorem offset_best (hot : RingBuffer isAsk) : hot.offset hot.bestPrice = 0 := by
  cases isAsk <;> simp [offset]

theorem offset_rebased (hot : RingBuffer isAsk) (p q : Int) :
    (hot.rebased p).offset q = hot.offset q - hot.offset p := by
  cases isAsk <;> simp [offset, rebased]

theorem home_lt (hot : RingBuffer isAsk) (p : Int) : hot.home p < 16 := by
  unfold home
  omega

theorem home_rebased (hot : RingBuffer isAsk) (p q : Int) : (hot.rebased p).home q = hot.home q := by
  rw [home, offset_rebased]
  simp only [rebased, home]
  omega

theorem home_inj (hp : 0 ≤ hot.offset p ∧ hot.offset p < 16) (hq : 0 ≤ hot.offset q ∧ hot.offset q < 16)
    (h : hot.home p = hot.home q) : p = q := by
  apply offset_inj hot
  simp only [home] at h
  omega

theorem idxOf_eq (hot : RingBuffer isAsk) (r : Int) :
    hot.idxOf r = ((hot.anchor + r) % 16).toNat := by
  rw [idxOf, kMask, ringSize, show 16 - 1 = 2 ^ 4 - 1 from rfl, Nat.and_two_pow_sub_one_eq_mod, toSize]
  omega

theorem inHotWindow_iff {r : Int} (hr : -2 ^ 63 ≤ r ∧ r < 2 ^ 63) :
    inHotWindow r = true ↔ 0 ≤ r ∧ r < 16 := by
  rw [inHotWindow, decide_eq_true_eq, toSize, ringSize]
  omega

theorem getLsbD_clear (m : BitVec 16) (i j : ℕ) (hj : j < 16) :
    (m &&& ~~~(1#16 <<< i)).getLsbD j = (m.getLsbD j && decide (j ≠ i)) := by
  rw [BitVec.getLsbD_and, BitVec.getLsbD_not, getLsbD_bit]
  by_cases hij : j = i <;> simp [hij, hj]

theorem getLsbD_set (m : BitVec 16) (i j : ℕ) (hj : j < 16) :
    (m ||| 1#16 <<< i).getLsbD j = (m.getLsbD j || decide (j = i)) := by
  rw [BitVec.getLsbD_or, getLsbD_bit]
  simp [hj]

theorem getLsbD_rotated (m : BitVec 16) {a k : ℕ} (ha : a < 16) :
    ((m.rotateRight a).setWidth 64).getLsbD k = (decide (k < 16) && m.getLsbD ((a + k) % 16)) := by
  rw [BitVec.getLsbD_setWidth, BitVec.getLsbD_rotateRight, Nat.mod_eq_of_lt ha]
  by_cases hk : k < 16
  · by_cases hka : k < 16 - a
    · rw [Nat.mod_eq_of_lt (show a + k < 16 by omega)]
      simp [hk, hka, show k < 64 by omega]
    · rw [show (a + k) % 16 = k - (16 - a) by omega]
      simp [hk, hka, show k < 64 by omega]
  · simp [hk, show ¬ k < 16 - a by omega]

def cleared (hot : RingBuffer isAsk) (idx : ℕ) : RingBuffer isAsk :=
  { hot with
    liveMask := hot.liveMask &&& ~~~(1#16 <<< idx)
    slots := Function.update hot.slots idx {} }

def installed (hot : RingBuffer isAsk) (idx : ℕ) (price : Int) (r : ℕ) : RingBuffer isAsk :=
  { hot with
    slots := Function.update hot.slots idx ⟨price, some r⟩
    liveMask := hot.liveMask ||| 1#16 <<< idx
    overwritten := hot.overwritten || (hot.slots idx).level.isSome }

theorem insert_eq {i r : ℕ} (hp : p ≠ kNoPrice) :
    hot.insert i p (some r) = .ok (hot.installed i p r) :=
  if_neg (by simp [hp])

theorem remove_eq {levels : ℕ → PriceLevel} {i r : ℕ} (hr : (hot.slots i).level = some r)
    (he : levels r = {}) : hot.remove levels i = .ok (hot.cleared i) := by
  refine if_pos (fun r' hr' => ?_)
  obtain rfl := Option.some.inj (hr.symm.trans hr')
  rw [he]
  rfl

theorem setAnchor_eq {i : ℕ} (hp : p ≠ kNoPrice) (hi : i = hot.home p) :
    hot.setAnchor i p = .ok (hot.rebased p) := by
  subst hi
  exact if_neg hp

structure Wired (hot : RingBuffer isAsk) : Prop where
  mask : ∀ i < 16, hot.liveMask.getLsbD i = (hot.slots i).level.isSome
  vacant : ∀ i < 16, (hot.slots i).level = none ↔ (hot.slots i).price = kNoPrice
  window : ∀ i < 16, (hot.slots i).level ≠ none →
    (0 ≤ hot.offset (hot.slots i).price ∧ hot.offset (hot.slots i).price < 16) ∧
      hot.home (hot.slots i).price = i

namespace Wired

theorem empty_iff (h : hot.Wired) : hot.empty = true ↔ ∀ i < 16, (hot.slots i).level = none := by
  rw [empty, beq_iff_eq, eq_zero_iff]
  apply forall₂_congr
  intro i hi
  rw [h.mask i hi, Option.isSome_eq_false_iff, Option.isNone_iff_eq_none]

theorem price_inj (h : hot.Wired) {i j : ℕ} (hi : i < 16) (hj : j < 16)
    (hl : (hot.slots i).level ≠ none) (hl' : (hot.slots j).level ≠ none)
    (hp : (hot.slots i).price = (hot.slots j).price) : i = j := by
  rw [← (h.window i hi hl).2, ← (h.window j hj hl').2, hp]

theorem cleared (h : hot.Wired) (i : ℕ) : (hot.cleared i).Wired where
  mask j hj := by
    rw [RingBuffer.cleared, getLsbD_clear _ _ _ hj, h.mask j hj]
    by_cases hij : j = i <;> simp [hij]
  vacant j hj := by
    by_cases hij : j = i
    · simp [RingBuffer.cleared, hij]
    · simpa [RingBuffer.cleared, hij] using h.vacant j hj
  window j hj hl := by
    by_cases hij : j = i
    · simp [RingBuffer.cleared, hij] at hl
    · simp only [RingBuffer.cleared, Function.update_of_ne hij] at hl ⊢
      exact h.window j hj hl

theorem installed (h : hot.Wired) {i : ℕ} (r : ℕ) (hp : p ≠ kNoPrice)
    (hw : 0 ≤ hot.offset p ∧ hot.offset p < 16) (hi : hot.home p = i) : (hot.installed i p r).Wired where
  mask j hj := by
    rw [RingBuffer.installed, getLsbD_set _ _ _ hj, h.mask j hj]
    by_cases hij : j = i <;> simp [hij]
  vacant j hj := by
    by_cases hij : j = i
    · simpa [RingBuffer.installed, hij] using hp
    · simpa [RingBuffer.installed, hij] using h.vacant j hj
  window j hj hl := by
    by_cases hij : j = i
    · simp only [RingBuffer.installed, hij, Function.update_self]
      exact ⟨hw, hi⟩
    · simp only [RingBuffer.installed, Function.update_of_ne hij] at hl ⊢
      exact h.window j hj hl

theorem rebased (h : hot.Wired)
    (hw : ∀ i < 16, (hot.slots i).level ≠ none → hot.offset p ≤ hot.offset (hot.slots i).price ∧
      hot.offset (hot.slots i).price < hot.offset p + 16) : (hot.rebased p).Wired where
  mask := h.mask
  vacant := h.vacant
  window i hi hl := by
    rw [offset_rebased, home_rebased]
    obtain ⟨h1, h2⟩ := hw i hi hl
    refine ⟨⟨?_, ?_⟩, (h.window i hi hl).2⟩
    · change 0 ≤ hot.offset (hot.slots i).price - hot.offset p
      omega
    · change hot.offset (hot.slots i).price - hot.offset p < 16
      omega

theorem of_vacant (h : hot.Wired) (hv : ∀ i < 16, (hot.slots i).level = none) (a : ℕ) (p : Int) :
    ({ hot with anchor := a, bestPrice := p } : RingBuffer isAsk).Wired where
  mask := h.mask
  vacant := h.vacant
  window i hi hl := absurd (hv i hi) hl

theorem reset (h : hot.Wired) (hv : ∀ i < 16, (hot.slots i).level = none) : hot.reset.Wired where
  mask i hi := by
    change (0#16).getLsbD i = (hot.slots i).level.isSome
    simp [hv i hi]
  vacant := h.vacant
  window i hi hl := absurd (hv i hi) hl

theorem nextLiveOffset_spec (h : hot.Wired) (ha : hot.anchor < 16) :
    (hot.nextLiveOffset = -1 ∧ ∀ i < 16, (hot.slots i).level = none) ∨
    ∃ i < 16, (hot.slots i).level ≠ none ∧ hot.nextLiveOffset = hot.offset (hot.slots i).price ∧
      hot.idxOf hot.nextLiveOffset = i ∧
      ∀ j < 16, (hot.slots j).level ≠ none →
        hot.offset (hot.slots i).price ≤ hot.offset (hot.slots j).price := by
  have hbit (k : ℕ) (hk : k < 16) : ((hot.liveMask.rotateRight hot.anchor).setWidth 64).getLsbD k =
      (hot.slots ((hot.anchor + k) % 16)).level.isSome := by
    rw [getLsbD_rotated _ ha, h.mask _ (by omega)]
    simp [hk]
  have hat (j : ℕ) (hj : j < 16) (hl : (hot.slots j).level ≠ none) :
      (hot.anchor + (hot.offset (hot.slots j).price).toNat) % 16 = j := by
    obtain ⟨hw, hhome⟩ := h.window j hj hl
    rw [home] at hhome
    omega
  by_cases hz : (hot.liveMask.rotateRight hot.anchor).setWidth 64 = 0#64
  · left
    refine ⟨by simp [nextLiveOffset, hz], fun j hj => ?_⟩
    by_contra hl
    obtain ⟨hw, -⟩ := h.window j hj hl
    have hb := hbit (hot.offset (hot.slots j).price).toNat (by omega)
    rw [hat j hj hl, hz, Option.isSome_iff_ne_none.mpr hl] at hb
    simp at hb
  · right
    set off := ((hot.liveMask.rotateRight hot.anchor).setWidth 64).ctz.toNat with hoff
    have hnext : hot.nextLiveOffset = off := by simp [nextLiveOffset, hz, hoff]
    have hset := getLsbD_ctz hz
    rw [← hoff] at hset
    have hlt : off < 16 := by
      by_contra hge
      rw [getLsbD_rotated _ ha] at hset
      simp [hge] at hset
    rw [hbit off hlt, Option.isSome_iff_ne_none] at hset
    have hi : (hot.anchor + off) % 16 < 16 := Nat.mod_lt _ (by norm_num)
    obtain ⟨hw, hhome⟩ := h.window _ hi hset
    have hoffset : hot.offset (hot.slots ((hot.anchor + off) % 16)).price = off := by
      rw [home] at hhome
      omega
    refine ⟨(hot.anchor + off) % 16, hi, hset, by rw [hnext, hoffset], ?_, ?_⟩
    · rw [hnext, idxOf_eq]
      omega
    · intro j hj hl
      obtain ⟨hwj, -⟩ := h.window j hj hl
      have hb := hbit (hot.offset (hot.slots j).price).toNat (by omega)
      rw [hat j hj hl, Option.isSome_iff_ne_none.mpr hl] at hb
      have := ctz_le hb
      rw [hoffset]
      omega

end Wired

end RingBuffer

end Llmes
