import Llmes.CachedTiers

namespace Llmes

open Intrusive BookSide BookView RingBuffer Cells

namespace CachedSideBook

variable {isAsk : Bool} {b b' : CachedSideBook isAsk} {p q : Int} {i r : ℕ}

def Anchored (b : CachedSideBook isAsk) : Prop :=
  b.hot.empty = false → ∃ r, b.hot.slots b.hot.anchor = ⟨b.hot.bestPrice, some r⟩

def Ordered (b : CachedSideBook isAsk) : Prop :=
  ∀ i < 16, (b.hot.slots i).level ≠ none → ∀ k r, b.cold.find? k = some r →
    b.hot.offset (b.hot.slots i).price < b.hot.offset k

def Warm (b : CachedSideBook isAsk) : Prop := b.hot.empty = true → ∀ k, b.cold.find? k = none

structure Inv (b : CachedSideBook isAsk) : Prop extends Sound b where
  best : b.Anchored
  outside : ∀ k r, b.cold.find? k = some r → 16 ≤ b.hot.offset k
  warm : b.Warm

theorem Inv.ordered (h : b.Inv) : b.Ordered := by
  intro i hi hl k r hk
  have := (h.wired.window i hi hl).1
  have := h.outside k r hk
  omega

theorem offset_of_best (hot hot' : RingBuffer isAsk) (q : Int) :
    hot'.offset q = hot.offset q - hot.offset hot'.bestPrice := by
  cases isAsk <;> simp [offset]

theorem Sound.held_best (h : b.Sound) (ha : b.Anchored) (he : b.hot.empty = false) : b.Held b.hot.bestPrice := by
  obtain ⟨r, hr⟩ := ha he
  exact ⟨r, Or.inl ⟨_, h.anchor, hr⟩⟩

theorem Sound.rank_checked (h : b.Sound) (ha : b.Anchored) (he : b.hot.empty = false) (p : Int) :
    b.hot.rank p = checked (b.hot.offset p) := by
  have hlegal := (h.legal _ (h.held_best ha he)).1
  rw [rank, if_neg (by omega)]
  cases isAsk <;> rfl

theorem Sound.rank_ok (h : b.Sound) (ha : b.Anchored) (he : b.hot.empty = false) (hp : b.Near p) :
    b.hot.rank p = .ok (b.hot.offset p) ∧ -2 ^ 63 < b.hot.offset p ∧ b.hot.offset p < 2 ^ 63 := by
  refine ⟨?_, hp⟩
  rw [h.rank_checked ha he]
  exact if_pos ⟨hp.1.le, hp.2⟩

theorem Sound.near_of_apart (h : b.Sound) (ha : b.Anchored) (he : b.hot.empty = false)
    (hp : ∀ q, b.Held q → Apart p q) : b.Near p := by
  have hapart := hp _ (h.held_best ha he)
  have := hapart.1
  have := hapart.2
  unfold Near
  cases isAsk <;> simp only [offset, Bool.false_eq_true, if_true, if_false] <;> omega

theorem Sound.not_empty_of_live (h : b.Sound) (hi : i < 16) (hl : (b.hot.slots i).level ≠ none) :
    b.hot.empty = false := by
  rw [← Bool.not_eq_true, h.wired.empty_iff]
  exact fun hv => hl (hv i hi)

theorem Sound.vacant_of_ne (h : b.Sound) (hw : 0 ≤ b.hot.offset p ∧ b.hot.offset p < 16)
    (hs : (b.hot.slots (b.hot.home p)).price ≠ p) : (b.hot.slots (b.hot.home p)).level = none := by
  by_contra hl
  obtain ⟨hw', hhome⟩ := h.wired.window _ (home_lt _ _) hl
  exact hs (home_inj hw' hw hhome)

structure Obtained (b : CachedSideBook isAsk) (p : Int) (r : ℕ) (b' : CachedSideBook isAsk) : Prop where
  inv : b'.Inv
  holds_self : b'.Holds p r
  self : b.Holds p r ∨ (¬ b.Held p ∧ b.pool.levels r = {})
  holds : ∀ q r', q ≠ p → b'.Holds q r' → b.Holds q r'
  gone : ∀ q r', b.Holds q r' → b'.Holds q r' ∨ b.pool.levels r' = {}
  levels : b'.pool.levels = b.pool.levels
  capacity : b'.pool.capacity = b.pool.capacity

theorem Obtained.found (h : b.Inv) (hr : b.Holds p r) : Obtained b p r b :=
  ⟨h, hr, Or.inl hr, fun _ _ _ h => h, fun _ _ h => Or.inl h, rfl, rfl⟩

theorem Obtained.placed {b₁ : CachedSideBook isAsk} (hinv : b'.Inv) (hk : Kept b b₁) (hp : Placed b₁ p r b')
    (hnew : ¬ b.Held p) : Obtained b p r b' where
  inv := hinv
  holds_self := (hp.holds p r).mpr (Or.inr ⟨rfl, rfl⟩)
  self := Or.inr ⟨hnew, by rw [← hk.levels]; exact hp.fresh⟩
  holds q r' hq h := by
    rcases (hp.holds q r').mp h with h | h
    · exact hk.holds q r' h
    · exact absurd h.1 hq
  gone q r' h := by
    rcases hk.gone q r' h with h | h
    · exact Or.inl ((hp.holds q r').mpr (Or.inl h))
    · exact Or.inr h
  levels := hp.levels.trans hk.levels
  capacity := hp.capacity.trans hk.capacity

theorem Inv.of_placed {b₁ : CachedSideBook isAsk} (hp : Placed b₁ p r b')
    (hhot : b'.hot = b₁.hot.installed b₁.hot.anchor p r) (hbest : b₁.hot.bestPrice = p)
    (hout : ∀ k r, b'.cold.find? k = some r → 16 ≤ b₁.hot.offset k) : b'.Inv where
  toSound := hp.sound
  best _ := ⟨r, by rw [hhot]; simp [RingBuffer.installed, hbest]⟩
  outside k r hk := by
    have := hout k r hk
    rwa [hhot]
  warm he := by
    have hv := (hp.sound.wired.empty_iff.mp he) b'.hot.anchor hp.sound.anchor
    rw [hhot] at hv
    simp [RingBuffer.installed] at hv

theorem Inv.of_hot (h : b.Inv) (he : b.hot.empty = false) (hp : Placed b p r b')
    (hvac : (b.hot.slots (b.hot.home p)).level = none) (hhot : b'.hot = b.hot.installed (b.hot.home p) p r)
    (hcold : b'.cold = b.cold) : b'.Inv where
  toSound := hp.sound
  best _ := by
    obtain ⟨r₀, hr₀⟩ := h.best he
    have hna : b.hot.anchor ≠ b.hot.home p := by
      intro heq
      rw [← heq, hr₀] at hvac
      cases hvac
    refine ⟨r₀, ?_⟩
    rw [hhot]
    simpa [RingBuffer.installed, hna] using hr₀
  outside k r' hk := by
    rw [hcold] at hk
    rw [hhot]
    exact h.outside k r' hk
  warm he' := by
    have hv := hp.sound.wired.empty_iff.mp he' (b.hot.home p) (home_lt _ _)
    rw [hhot] at hv
    simp [RingBuffer.installed] at hv

theorem Inv.of_cold (h : b.Inv) (he : b.hot.empty = false) (hp : Placed b p r b') (hhot : b'.hot = b.hot)
    (hcold : b'.cold = b.cold.set p r) (hout : 16 ≤ b.hot.offset p) : b'.Inv where
  toSound := hp.sound
  best := by
    rw [Anchored, hhot]
    exact h.best
  outside k r' hk := by
    rw [hcold, OrderedMap.find?_set] at hk
    rw [hhot]
    split at hk
    · next hkp =>
      subst hkp
      exact hout
    · exact h.outside k r' hk
  warm he' := by
    rw [hhot, he] at he'
    cases he'

theorem Inv.offset_nonneg (h : b.Inv) {q : Int} (hq : b.Held q) : 0 ≤ b.hot.offset q := by
  obtain ⟨r, ⟨i, hi, hs⟩ | hk⟩ := hq
  · have := (h.wired.window i hi (by simp [hs])).1
    rw [hs] at this
    exact this.1
  · have := h.outside q r hk
    omega

theorem Kept.rebase (hot : RingBuffer isAsk) (hs : hot.slots = b.hot.slots) : Kept b { b with hot } := by
  have hholds (p : Int) (r : ℕ) : ({ b with hot } : CachedSideBook isAsk).Holds p r ↔ b.Holds p r := by
    simp only [Holds, hs]
  refine ⟨fun p r => (hholds p r).mp, fun p r hp => Or.inl ((hholds p r).mpr hp), rfl, rfl, ?_⟩
  simp only [owned, hs]
  exact le_rfl

theorem Sound.materialize_vacant {b₀ : CachedSideBook isAsk} (h : b.Sound) (hk : Kept b₀ b) (hnew : ¬ b₀.Held p)
    (hvac : ∀ i < 16, (b.hot.slots i).level = none) (hp : Legal p)
    (hout : ∀ k r, b.cold.find? k = some r →
      16 ≤ ({ b.hot with anchor := 0, bestPrice := p } : RingBuffer isAsk).offset k) :
    materialize { b with hot := { b.hot with anchor := 0, bestPrice := p } } 0 p = .error .levelPoolExhausted ∨
      ∃ r b', materialize { b with hot := { b.hot with anchor := 0, bestPrice := p } } 0 p = .ok (r, b') ∧
        Obtained b₀ p r b' := by
  set hot : RingBuffer isAsk := { b.hot with anchor := 0, bestPrice := p }
  have hsound : Sound { b with hot } := h.rebase (show 0 < 16 by norm_num) (h.wired.of_vacant hvac 0 p) rfl rfl
  have hzero : hot.offset p = 0 := offset_best hot
  rcases hsound.materialize_spec (i := 0) (by norm_num) (hvac 0 (by norm_num)) hp (cold_of_not_held (hk.not_held hnew))
      (by rw [hzero]; norm_num) (by rw [home, hzero]; rfl) with hfull | ⟨r, b', hb', hplaced, hhot, hcold⟩
  · exact Or.inl hfull
  · have hinv : b'.Inv := by
      apply Inv.of_placed hplaced hhot rfl
      intro k r' hr'
      exact hout k r' (hcold ▸ hr')
    exact Or.inr ⟨r, b', hb', .placed hinv (hk.trans (.rebase hot rfl)) hplaced hnew⟩

theorem Sound.flushAllToCold_spec (h : b.Sound) (hc : b.Clean) :
    ∃ b', b.flushAllToCold = .ok b' ∧ b'.Sound ∧ Kept b b' ∧ ∀ i < 16, (b'.hot.slots i).level = none := by
  obtain ⟨b', hb', hv⟩ := h.vacateAll_spec hc (fun _ k => k) (List.range ringSize) (fun k hk => List.mem_range.mp hk)
  have hflush : b.flushAllToCold = .ok { b' with hot := b'.hot.reset } := by
    simp only [flushAllToCold]
    rw [show (List.range ringSize).foldlM vacate b = .ok b' from hb']
    rfl
  have hvac : ∀ i < 16, (b'.hot.slots i).level = none := by
    intro i hi
    rw [hv.slots, if_pos (by simpa [ringSize] using hi)]
  exact ⟨_, hflush, hv.sound.rebase hv.sound.anchor (hv.sound.wired.reset hvac) rfl rfl,
    hv.kept.trans (.rebase _ rfl), hvac⟩

theorem Inv.slide_spec (h : b.Inv) (hc : b.Clean) {d : ℕ} (hd : b.hot.offset p = -(d : Int)) (hpos : 0 < d) (hlt : d < 16) :
    ∃ b₁, (List.range' 1 d).foldlM (fun b k => b.vacate ((b.hot.anchor + ringSize - k) &&& kMask)) b = .ok b₁ ∧
      Sound { b₁ with hot := b₁.hot.rebased p } ∧ Kept b b₁ ∧ (b₁.hot.slots (b₁.hot.home p)).level = none ∧
      b.hot.idxOf (b.hot.offset p) = b₁.hot.home p ∧
      ∀ k r, b₁.cold.find? k = some r → 16 ≤ (b₁.hot.rebased p).offset k := by
  have hanchor := h.anchor
  have hmask (k : ℕ) : (b.hot.anchor + ringSize - k) &&& kMask = (b.hot.anchor + 16 - k) % 16 := by
    rw [kMask, ringSize, show 16 - 1 = 2 ^ 4 - 1 from rfl, Nat.and_two_pow_sub_one_eq_mod]
  obtain ⟨b₁, hb₁, hv₁⟩ := h.toSound.vacateAll_spec hc (fun a k => (a + ringSize - k) &&& kMask)
    (List.range' 1 d) (fun k _ => by rw [hmask]; omega)
  have hfar (j : ℕ) (hj : j < 16) (hl : (b.hot.slots j).level ≠ none) :
      j ∈ (List.range' 1 d).map (fun k => (b.hot.anchor + ringSize - k) &&& kMask) ↔
        16 ≤ b.hot.offset (b.hot.slots j).price + d := by
    obtain ⟨hw, hhome⟩ := h.wired.window j hj hl
    rw [home] at hhome
    simp only [List.mem_map, List.mem_range'_1, hmask]
    constructor
    · rintro ⟨k, hk, rfl⟩
      omega
    · intro hfar
      exact ⟨16 - (b.hot.offset (b.hot.slots j).price).toNat, by omega, by omega⟩
  have hlive (j : ℕ) (hj : j < 16) (hl : (b₁.hot.slots j).level ≠ none) :
      b₁.hot.slots j = b.hot.slots j ∧ b.hot.offset (b.hot.slots j).price + d < 16 := by
    rw [hv₁.slots] at hl ⊢
    split at hl
    · exact absurd rfl hl
    · next hmem =>
      rw [if_neg hmem]
      rw [hfar j hj hl] at hmem
      exact ⟨rfl, by omega⟩
  have hoff₁ (k : Int) : b₁.hot.offset k = b.hot.offset k := by
    rw [offset, offset, hv₁.bestPrice]
  have hhome₁ : b₁.hot.home p = b.hot.home p := by rw [home, home, hoff₁, hv₁.anchor]
  have hwired : (b₁.hot.rebased p).Wired := by
    apply hv₁.sound.wired.rebased
    intro j hj hl
    obtain ⟨hs, hlt⟩ := hlive j hj hl
    have := (h.wired.window j hj (by rwa [← hs])).1
    rw [hs, hoff₁, hoff₁]
    omega
  refine ⟨b₁, hb₁, hv₁.sound.rebase (home_lt _ _) hwired rfl rfl, hv₁.kept, ?_, by rw [hhome₁, idxOf_eq, home], ?_⟩
  · rw [hv₁.slots, if_pos]
    refine List.mem_map.mpr ⟨d, List.mem_range'_1.mpr (by omega), ?_⟩
    rw [hmask, hhome₁, home]
    omega
  · intro k r' hk
    rw [offset_rebased, hoff₁, hoff₁]
    rcases hv₁.cold k r' hk with hk | ⟨j, hj, hl, rfl⟩
    · have := h.outside k r' hk
      omega
    · have hj16 : j < 16 := by
        obtain ⟨k, -, rfl⟩ := List.mem_map.mp hj
        rw [hmask]
        omega
      have := (hfar j hj16 hl).mp hj
      omega

theorem reanchorTo_spec (h : b.Inv) (hc : b.Clean) (he : b.hot.empty = false) (hp : Legal p)
    (hnear : b.Near p) (hneg : b.hot.offset p < 0) :
    b.reanchorTo p = .error .levelPoolExhausted ∨
      ∃ r b', b.reanchorTo p = .ok (r, b') ∧ Obtained b p r b' := by
  obtain ⟨hrank, hlo, hhi⟩ := h.rank_ok h.best he hnear
  have hne : p ≠ kNoPrice := by have := hp.1; omega
  have hnew : ¬ b.Held p := fun hq => by
    have := h.offset_nonneg hq
    omega
  have hd : checked (-b.hot.offset p) = .ok (-b.hot.offset p) := if_pos (by omega)
  have hsize : toSize (-b.hot.offset p) = (-b.hot.offset p).toNat := by
    rw [toSize]
    omega
  simp only [reanchorTo, hrank, ok_bind, hd, hsize]
  by_cases hbig : (-b.hot.offset p).toNat ≥ ringSize
  · -- The new window lies beyond the old one: every level of the ring goes.
    rw [if_pos hbig]
    simp only [RingBuffer.ringSize] at hbig
    obtain ⟨b₁, hb₁, hsound, hkept, hvac⟩ := h.toSound.flushAllToCold_spec hc
    have hset : b₁.hot.setAnchor 0 p = .ok { b₁.hot with anchor := 0, bestPrice := p } := if_neg hne
    simp only [hb₁, hset, ok_bind]
    apply hsound.materialize_vacant hkept hnew hvac hp
    intro k r hk
    have := h.offset_nonneg ⟨r, hkept.holds k r (holds_cold hk)⟩
    rw [offset_of_best b.hot]
    dsimp only
    omega
  · rw [if_neg hbig]
    simp only [RingBuffer.ringSize] at hbig
    obtain ⟨b₁, hb₁, hsound, hkept, hvac, hidx, hout⟩ := h.slide_spec hc
      (show b.hot.offset p = -((-b.hot.offset p).toNat : Int) by omega) (by omega) (by omega)
    have hzero : (b₁.hot.rebased p).offset p = 0 := by rw [offset_rebased]; omega
    simp only [hb₁, ok_bind, setAnchor_eq hne hidx]
    rcases hsound.materialize_spec (hidx ▸ home_lt _ _) (hidx ▸ hvac) hp (cold_of_not_held (hkept.not_held hnew))
        (by rw [hzero]; norm_num) (by rw [home_rebased, hidx]) with hfull | ⟨r, b', hb', hplaced, hhot, hcold⟩
    · exact Or.inl hfull
    · rw [hidx] at hhot
      have hinv : b'.Inv := by
        apply Inv.of_placed hplaced hhot rfl
        intro k r' hk
        exact hout k r' (hcold ▸ hk)
      exact Or.inr ⟨r, b', hb', .placed hinv (hkept.trans (.rebase (b₁.hot.rebased p) rfl)) hplaced hnew⟩

theorem Inv.hot_empty_of_held (h : b.Inv) (hp : b.Held p) : b.hot.empty = false := by
  obtain ⟨r, ⟨i, hi, hs⟩ | hk⟩ := hp
  · exact h.toSound.not_empty_of_live hi (by simp [hs])
  · by_contra he
    rw [h.warm (by simpa using he)] at hk
    cases hk

theorem Inv.getOrCreate_held (h : b.Inv) (hr : b.Holds p r) (hnear : b.Near p) : b.getOrCreate p = .ok (r, b) := by
  have he := h.hot_empty_of_held ⟨r, hr⟩
  obtain ⟨hrank, hlo, hhi⟩ := h.rank_ok h.best he hnear
  have hidx : b.hot.idxOf (b.hot.offset p) = b.hot.home p := by rw [idxOf_eq, home]
  rw [getOrCreate, if_neg (by simp [he])]
  simp only [hrank, ok_bind, hidx]
  rcases hr with ⟨i, hi, hs⟩ | hk
  · obtain ⟨hw, hhome⟩ := h.wired.window i hi (by simp [hs])
    rw [hs] at hw hhome
    rw [if_pos ((inHotWindow_iff ⟨hlo.le, hhi⟩).mpr hw), hhome, hs]
    exact if_pos rfl
  · have hout := h.outside p r hk
    have hwin : ¬ inHotWindow (b.hot.offset p) = true := by
      rw [inHotWindow_iff ⟨hlo.le, hhi⟩]
      omega
    rw [if_neg hwin, if_neg (by omega), coldGetOrCreate, hk]

theorem getOrCreate_spec (h : b.Inv) (hc : b.Clean) (hp : Legal p) (hnear : b.hot.empty = false → b.Near p) :
    b.getOrCreate p = .error .levelPoolExhausted ∨
      ∃ r b', b.getOrCreate p = .ok (r, b') ∧ Obtained b p r b' := by
  by_cases hnew : b.Held p
  · obtain ⟨r, hr⟩ := hnew
    exact Or.inr ⟨r, b, h.getOrCreate_held hr (hnear (h.hot_empty_of_held ⟨r, hr⟩)), .found h hr⟩
  have hne : p ≠ kNoPrice := by have := hp.1; omega
  have hcold := cold_of_not_held hnew
  unfold getOrCreate
  cases he : b.hot.empty with
  | true =>
    have hset : b.hot.setAnchor 0 p = .ok { b.hot with anchor := 0, bestPrice := p } := if_neg hne
    rw [if_pos rfl]
    simp only [hset, ok_bind]
    apply h.toSound.materialize_vacant (.refl b) hnew (h.wired.empty_iff.mp he) hp
    intro k r hk
    rw [h.warm he] at hk
    cases hk
  | false =>
    obtain ⟨hrank, hlo, hhi⟩ := h.rank_ok h.best he (hnear he)
    rw [if_neg (by simp)]
    simp only [hrank, ok_bind]
    have hidx : b.hot.idxOf (b.hot.offset p) = b.hot.home p := by rw [idxOf_eq, home]
    by_cases hwin : inHotWindow (b.hot.offset p) = true
    · have hw := (inHotWindow_iff ⟨hlo.le, hhi⟩).mp hwin
      rw [if_pos hwin, hidx]
      have hs : (b.hot.slots (b.hot.home p)).price ≠ p := by
        intro hs
        have hl : (b.hot.slots (b.hot.home p)).level ≠ none := fun hl =>
          hne (hs.symm.trans ((h.wired.vacant _ (home_lt _ _)).mp hl))
        obtain ⟨r, hr⟩ := Option.ne_none_iff_exists'.mp hl
        exact hnew ⟨r, hs ▸ holds_hot (home_lt _ _) hr⟩
      have hvac := h.toSound.vacant_of_ne hw hs
      rw [if_neg hs, if_neg (by simpa using hvac)]
      rcases h.toSound.materialize_spec (home_lt _ _) hvac hp hcold hw rfl with
        hfull | ⟨r, b', hb', hplaced, hhot, hcold'⟩
      · exact Or.inl hfull
      · have hinv := h.of_hot he hplaced hvac hhot hcold'
        exact Or.inr ⟨r, b', hb', .placed hinv (.refl b) hplaced hnew⟩
    · rw [if_neg hwin]
      have hw : ¬ (0 ≤ b.hot.offset p ∧ b.hot.offset p < 16) := fun hw =>
        hwin ((inHotWindow_iff ⟨hlo.le, hhi⟩).mpr hw)
      by_cases hneg : b.hot.offset p < 0
      · rw [if_pos hneg]
        exact reanchorTo_spec h hc he hp (hnear he) hneg
      · rw [if_neg hneg]
        have hhot : ∀ i < 16, (b.hot.slots i).level ≠ none → (b.hot.slots i).price ≠ p := by
          rintro i hi hl rfl
          have := (h.wired.window i hi hl).1
          omega
        rcases h.toSound.coldGetOrCreate_spec hp hcold hhot with
          hfull | ⟨r, b', hb', hplaced, hhot', hcold'⟩
        · exact Or.inl hfull
        · have hinv := h.of_cold he hplaced hhot' hcold' (by omega)
          exact Or.inr ⟨r, b', hb', .placed hinv (.refl b) hplaced hnew⟩

theorem getOrCreate_far (h : b.Inv) (he : b.hot.empty = false) (hfar : ¬ b.Near p) :
    b.getOrCreate p = .error .overflow := by
  have hrank := h.rank_checked h.best he p
  rw [getOrCreate, if_neg (by simp [he])]
  by_cases hmin : b.hot.offset p = -2 ^ 63
  · rw [hmin] at hrank
    have hok : b.hot.rank p = .ok (-2 ^ 63) := hrank
    simp only [hok, ok_bind, reanchorTo]
    rfl
  · have hover : checked (b.hot.offset p) = .error .overflow := by
      apply if_neg
      unfold Near at hfar
      omega
    rw [hrank, hover]
    rfl

end CachedSideBook

end Llmes
