import Llmes.CachedInvariant

namespace Llmes

open Intrusive BookSide BookView RingBuffer Cells

namespace CachedSideBook

variable {isAsk : Bool} {b b' : CachedSideBook isAsk} {p q : Int} {i r : ℕ}

theorem owned_length_cleared (hi : i < 16) (hl : (b.hot.slots i).level = some r) :
    (owned { b with hot := b.hot.cleared i }).length + 1 = b.owned.length := by
  have := ((Sound.owned_perm_cleared hi hl).append_right (b.cold.entries.map Prod.snd)).length_eq
  simp only [owned]
  simpa using this.symm

def HotStocked (b : CachedSideBook isAsk) (p : Int) (r : ℕ) : Prop :=
  (∃ i < 16, b.hot.slots i = ⟨p, some r⟩) ∧ (b.pool.levels r).empty = false

def Next (b : CachedSideBook isAsk) (q : Int) : Prop :=
  (∃ r, b.HotStocked q r ∧ ∀ p r', b.HotStocked p r' → p = q ∨ PriceCompare isAsk q p) ∨
  ((∀ p r, ¬ b.HotStocked p r) ∧ ∃ r, b.cold.begin? = some (q, r))

structure Promoting (b : CachedSideBook isAsk) : Prop extends Sound b where
  anchored : b.Anchored
  ordered : b.Ordered
  warm : b.Warm

structure Walked (b b' : CachedSideBook isAsk) : Prop where
  promoting : b'.Promoting
  kept : Kept b b'
  next : b'.hot.empty = false → b.Next b'.hot.bestPrice
  drained : b'.hot.empty = true → (∀ p r, ¬ b.HotStocked p r) ∧ ∀ k, b.cold.find? k = none
  cold : ∀ k r, b'.cold.find? k = some r ↔ b.cold.find? k = some r ∧ k ≠ b'.hot.bestPrice

theorem hotStocked_rebase (hot : RingBuffer isAsk) (hs : hot.slots = b.hot.slots) (p : Int) (r : ℕ) :
    HotStocked { b with hot } p r ↔ b.HotStocked p r := by
  simp only [HotStocked, hs]

theorem hotStocked_released (hr : (b.hot.slots i).level = some r) (hl : b.pool.levels r = {}) (p : Int) (r' : ℕ) :
    HotStocked { b with hot := b.hot.cleared i, pool := b.pool.released r } p r' ↔ b.HotStocked p r' := by
  apply and_congr_left
  intro he
  constructor
  · rintro ⟨j, hj, hs⟩
    by_cases hji : j = i
    · simp [RingBuffer.cleared, hji] at hs
    · exact ⟨j, hj, by simpa [RingBuffer.cleared, hji] using hs⟩
  · rintro ⟨j, hj, hs⟩
    refine ⟨j, hj, ?_⟩
    have hji : j ≠ i := by
      rintro rfl
      rw [hs] at hr
      obtain rfl := Option.some.inj hr
      rw [PriceLevelPool.released, hl] at he
      cases he
    simpa [RingBuffer.cleared, hji] using hs

theorem Next.congr (hh : ∀ p r, b'.HotStocked p r ↔ b.HotStocked p r) (hc : b'.cold = b.cold) (h : b'.Next q) :
    b.Next q := by
  simpa only [Next, hh, hc] using h

theorem Walked.congr {b₁ : CachedSideBook isAsk} (h : Walked b₁ b') (hk : Kept b b₁)
    (hh : ∀ p r, b₁.HotStocked p r ↔ b.HotStocked p r) (hc : b₁.cold = b.cold) : Walked b b' where
  promoting := h.promoting
  kept := hk.trans h.kept
  next he := (h.next he).congr hh hc
  drained he := by simpa only [hh, hc] using h.drained he
  cold := by simpa only [hc] using h.cold

theorem not_hotStocked (hvac : ∀ i < 16, (b.hot.slots i).level = none) (p : Int) (r : ℕ) : ¬ b.HotStocked p r := by
  rintro ⟨⟨i, hi, hs⟩, -⟩
  have := hvac i hi
  rw [hs] at this
  cases this

theorem Ordered.cleared (h : b.Ordered) (i : ℕ) (pool : PriceLevelPool) :
    Ordered { b with hot := b.hot.cleared i, pool } := by
  intro j hj hl k r hk
  have hs := slots_cleared b.hot i j
  split at hs
  · rw [hs] at hl
    exact absurd rfl hl
  · rw [hs] at hl ⊢
    exact h j hj hl k r hk

theorem Ordered.rebased (h : b.Ordered) (p : Int) : Ordered { b with hot := b.hot.rebased p } := by
  intro j hj hl k r hk
  have := h j hj hl k r hk
  simp only [offset_rebased]
  change b.hot.offset (b.hot.slots j).price - _ < _
  omega

theorem Sound.walked_reset (h : b.Sound) (hvac : ∀ i < 16, (b.hot.slots i).level = none)
    (hcold : ∀ k, b.cold.find? k = none) : Walked b { b with hot := b.hot.reset } where
  promoting := by
    refine ⟨h.rebase h.anchor (h.wired.reset hvac) rfl rfl, ?_, ?_, fun _ => hcold⟩
    · intro he
      exact absurd he (by simp [reset, RingBuffer.empty])
    · exact fun i hi hl => absurd (hvac i hi) hl
  kept := .rebase _ rfl
  next he := absurd he (by simp [reset, RingBuffer.empty])
  drained _ := ⟨not_hotStocked hvac, hcold⟩
  cold k r := by simp [hcold k]

theorem Sound.walked_installed (h : b.Sound) (hvac : ∀ i < 16, (b.hot.slots i).level = none) {e : Int × ℕ}
    (hb : b.cold.begin? = some e) :
    Walked b { b with
      hot := ({ b.hot with anchor := 0, bestPrice := e.1 } : RingBuffer isAsk).installed 0 e.1 e.2
      cold := b.cold.eraseBegin } := by
  set hot₁ : RingBuffer isAsk := { b.hot with anchor := 0, bestPrice := e.1 }
  have hsound₁ : Sound { b with hot := hot₁ } :=
    h.rebase (show 0 < 16 by norm_num) (h.wired.of_vacant hvac 0 e.1) rfl rfl
  have hzero : hot₁.offset e.1 = 0 := offset_best hot₁
  obtain ⟨hsound, hkept⟩ := hsound₁.pulled (i := 0) hb (by norm_num) (hvac 0 (by norm_num))
    (by rw [hzero]; norm_num) (by rw [home, hzero]; rfl)
  have hs : (hot₁.installed 0 e.1 e.2).slots 0 = ⟨e.1, some e.2⟩ := by simp [RingBuffer.installed]
  have hnot : (hot₁.installed 0 e.1 e.2).empty ≠ true := by
    intro he
    have := hsound.wired.empty_iff.mp he 0 (by norm_num)
    rw [hs] at this
    cases this
  refine ⟨⟨hsound, fun _ => ⟨e.2, hs⟩, ?_, fun he => absurd he hnot⟩, (Kept.rebase hot₁ rfl).trans hkept,
    fun _ => Or.inr ⟨not_hotStocked hvac, e.2, hb⟩, fun he => absurd he hnot, ?_⟩
  · intro j hj hl k r hk
    have hj0 : j = 0 := by
      by_contra hj0
      simp only [RingBuffer.installed, Function.update_of_ne hj0] at hl
      exact hl (hvac j hj)
    subst hj0
    rw [OrderedMap.eraseBegin_eq hb, OrderedMap.find?_erase] at hk
    split at hk
    · cases hk
    · next hke =>
      have hlt := (OrderedMap.begin?_least hb hk).resolve_left hke
      rw [hot₁.priceCompare_iff] at hlt
      dsimp only
      rw [hs]
      exact hlt
  · intro k r
    dsimp only
    rw [OrderedMap.eraseBegin_eq hb, OrderedMap.find?_erase]
    change _ ↔ _ ∧ k ≠ e.1
    by_cases hke : k = e.1 <;> simp [hke]

theorem Sound.rebased_nearest (h : b.Sound) (hi : i < 16) (hl : (b.hot.slots i).level ≠ none)
    (hmin : ∀ j < 16, (b.hot.slots j).level ≠ none → b.hot.offset (b.hot.slots i).price ≤ b.hot.offset (b.hot.slots j).price) :
    (b.hot.rebased (b.hot.slots i).price).anchor = i ∧ Sound { b with hot := b.hot.rebased (b.hot.slots i).price } := by
  obtain ⟨hw, hhome⟩ := h.wired.window i hi hl
  refine ⟨hhome, h.rebase ?_ ?_ rfl rfl⟩
  · exact home_lt _ _
  · apply h.wired.rebased
    intro j hj hlj
    have := hmin j hj hlj
    have := (h.wired.window j hj hlj).1
    omega

theorem Sound.walked_rebased (h : b.Sound) (ho : b.Ordered) (hi : i < 16) (hr : (b.hot.slots i).level = some r)
    (he : (b.pool.levels r).empty = false)
    (hmin : ∀ j < 16, (b.hot.slots j).level ≠ none → b.hot.offset (b.hot.slots i).price ≤ b.hot.offset (b.hot.slots j).price) :
    Walked b { b with hot := b.hot.rebased (b.hot.slots i).price } := by
  have hl : (b.hot.slots i).level ≠ none := by simp [hr]
  obtain ⟨hanchor, hsound⟩ := h.rebased_nearest hi hl hmin
  have hnot : (b.hot.rebased (b.hot.slots i).price).empty ≠ true := by
    intro he'
    exact hl (hsound.wired.empty_iff.mp he' i hi)
  refine ⟨⟨hsound, fun _ => ⟨r, ?_⟩, ho.rebased _, fun he' => absurd he' hnot⟩, .rebase _ rfl, fun _ => ?_,
    fun he' => absurd he' hnot, fun k r' => ⟨fun hk => ⟨hk, ?_⟩, fun hk => hk.1⟩⟩
  · simp only [hanchor]
    rw [← hr]
    rfl
  · left
    refine ⟨r, ⟨⟨i, hi, by rw [← hr]; rfl⟩, he⟩, ?_⟩
    rintro p r' ⟨⟨j, hj, hs⟩, -⟩
    have hle := hmin j hj (by simp [hs])
    rw [hs] at hle
    change p = (b.hot.slots i).price ∨ PriceCompare isAsk (b.hot.slots i).price p
    rw [b.hot.priceCompare_iff]
    rcases hle.lt_or_eq with hlt | heq
    · exact Or.inr hlt
    · exact Or.inl (offset_inj b.hot heq).symm
  · rintro rfl
    have hcold : b.cold.find? (b.hot.slots i).price = none := h.disjoint i hi hl
    exact absurd (hk.symm.trans hcold) (by simp)

theorem walk_spec {fuel : ℕ} (h : b.Sound) (hc : b.Clean) (ho : b.Ordered)
    (hfuel : (contents (fun i => (b.hot.slots i).level) 16).length < fuel) :
    ∃ b', walk fuel b = .ok b' ∧ Walked b b' := by
  induction fuel generalizing b with
  | zero => omega
  | succ fuel ih =>
    rw [walk]
    rcases h.wired.nextLiveOffset_spec h.anchor with ⟨hoff, hvac⟩ | ⟨i, hi, hl, hoff, hidx, hmin⟩
    · rw [hoff, if_pos (by norm_num)]
      cases hb : b.cold.begin? with
      | none => exact ⟨_, rfl, h.walked_reset hvac (OrderedMap.begin?_eq_none.mp hb)⟩
      | some e =>
        have hlegal := (h.legal _ ⟨_, holds_cold (OrderedMap.find?_of_begin? hb)⟩).1
        have hne : e.1 ≠ kNoPrice := by omega
        have hset : b.hot.setAnchor 0 e.1 = .ok { b.hot with anchor := 0, bestPrice := e.1 } := if_neg hne
        simp only [hset, ok_bind, insert_eq hne, pure_eq_ok]
        exact ⟨_, rfl, h.walked_installed hvac hb⟩
    · obtain ⟨hw, hhome⟩ := h.wired.window i hi hl
      have hne := h.live_price hi hl
      have hidx' : ((b.hot.anchor + toSize b.hot.nextLiveOffset) % 2 ^ 64) &&& kMask = i := hidx
      obtain ⟨r, hr⟩ := Option.ne_none_iff_exists'.mp hl
      rw [hoff, if_neg (by omega), ← hoff]
      simp only [hidx', setAnchor_eq hne hhome.symm, ok_bind]
      have hr₁ : ((b.hot.rebased (b.hot.slots i).price).slots i).level = some r := hr
      rw [hr₁]
      dsimp only
      cases he : (b.pool.levels r).empty with
      | false => exact ⟨_, if_neg (by simp), h.walked_rebased ho hi hr he hmin⟩
      | true =>
        -- an empty level goes, and the walk goes on from there
        obtain ⟨-, hsound₁⟩ := h.rebased_nearest hi hl hmin
        have hrl := hc _ r (holds_hot hi hr) (PriceLevel.empty_iff.mp he)
        have hremove : (b.hot.rebased (b.hot.slots i).price).remove (b.pool.released r).levels i = .ok _ :=
          remove_eq hr₁ hrl
        have hv := hsound₁.released hi hr₁ hrl
        have hkept := (Kept.rebase (b.hot.rebased (b.hot.slots i).price) rfl).trans hv.kept
        have hlen := owned_length_cleared (b := { b with hot := b.hot.rebased (b.hot.slots i).price }) hi hr₁
        have hfuel' : (contents (fun j => (((b.hot.rebased (b.hot.slots i).price).cleared i).slots j).level) 16).length <
            fuel := by
          simp only [owned, List.length_append] at hlen
          have : (contents (fun j => ((b.hot.rebased (b.hot.slots i).price).slots j).level) 16).length =
            (contents (fun j => (b.hot.slots j).level) 16).length := rfl
          omega
        rw [if_pos rfl, PriceLevelPool.release_eq hrl, ok_bind, hremove, ok_bind]
        obtain ⟨b', hb', hwalked⟩ := ih hv.sound (hkept.clean hc) ((ho.rebased _).cleared i _) hfuel'
        refine ⟨b', hb', hwalked.congr hkept (fun p r' => ?_) rfl⟩
        exact (hotStocked_released (b := { b with hot := b.hot.rebased _ }) hr₁ hrl p r').trans (hotStocked_rebase _ rfl p r')

def live (b : CachedSideBook isAsk) : ℕ := (contents (fun i => (b.hot.slots i).level) ringSize).length

theorem Promoting.cold_spec (h : b.Promoting) {e : Int × ℕ} (hb : b.cold.begin? = some e) :
    b.hot.empty = false ∧ 0 < b.hot.offset e.1 := by
  have hf := OrderedMap.find?_of_begin? hb
  have he : b.hot.empty = false := by
    by_contra he
    rw [h.warm (by simpa using he)] at hf
    cases hf
  obtain ⟨r₀, hr₀⟩ := h.anchored he
  have hpos := h.ordered b.hot.anchor h.anchor (by simp [hr₀]) e.1 e.2 hf
  rw [hr₀, offset_best] at hpos
  exact ⟨he, hpos⟩

theorem Promoting.vacant (h : b.Promoting) {e : Int × ℕ} (hb : b.cold.begin? = some e)
    (hw : 0 ≤ b.hot.offset e.1 ∧ b.hot.offset e.1 < 16) :
    e.1 ≠ kNoPrice ∧ (b.hot.slots (b.hot.home e.1)).level = none := by
  have hf := OrderedMap.find?_of_begin? hb
  have hne : e.1 ≠ kNoPrice := by
    have := (h.legal _ ⟨_, holds_cold hf⟩).1
    omega
  refine ⟨hne, h.vacant_of_ne hw fun hs => ?_⟩
  have hl : (b.hot.slots (b.hot.home e.1)).level ≠ none := fun hl =>
    hne (hs.symm.trans ((h.wired.vacant _ (home_lt _ _)).mp hl))
  have := h.disjoint _ (home_lt _ _) hl
  rw [hs, hf] at this
  cases this

theorem Promoting.installed (h : b.Promoting) {e : Int × ℕ} (hb : b.cold.begin? = some e)
    (hw : 0 < b.hot.offset e.1 ∧ b.hot.offset e.1 < 16) :
    let b' := { b with hot := b.hot.installed (b.hot.home e.1) e.1 e.2, cold := b.cold.eraseBegin }
    b'.Promoting ∧ Kept b b' ∧ b'.cold.size + 1 = b.cold.size ∧ b'.live = b.live + 1 ∧ b'.hot.empty = false := by
  obtain ⟨hne, hvac⟩ := h.vacant hb ⟨hw.1.le, hw.2⟩
  obtain ⟨hsound, hkept⟩ := h.pulled hb (home_lt _ _) hvac ⟨hw.1.le, hw.2⟩ rfl
  have hlive {j : ℕ} (hj : j ≠ b.hot.home e.1) :
      (b.hot.installed (b.hot.home e.1) e.1 e.2).slots j = b.hot.slots j :=
    Function.update_of_ne hj _ _
  have hself : (b.hot.installed (b.hot.home e.1) e.1 e.2).slots (b.hot.home e.1) = ⟨e.1, some e.2⟩ :=
    Function.update_self _ _ _
  have hnot : (b.hot.installed (b.hot.home e.1) e.1 e.2).empty = false := by
    apply hsound.not_empty_of_live (home_lt _ _)
    dsimp only
    rw [hself]
    simp
  refine ⟨⟨hsound, ?_, ?_, ?_⟩, hkept, ?_, ?_, hnot⟩
  · intro _
    obtain ⟨r₀, hr₀⟩ := h.anchored (h.cold_spec hb).1
    refine ⟨r₀, ?_⟩
    have hna : b.hot.anchor ≠ b.hot.home e.1 := by
      intro heq
      rw [← heq, hr₀] at hvac
      cases hvac
    exact (hlive hna).trans hr₀
  · intro j hj hl k r hk
    rw [OrderedMap.eraseBegin_eq hb, OrderedMap.find?_erase] at hk
    split at hk
    · cases hk
    · next hke =>
      dsimp only at hl ⊢
      by_cases hji : j = b.hot.home e.1
      · rw [hji, hself]
        have hlt := (OrderedMap.begin?_least hb hk).resolve_left hke
        rwa [b.hot.priceCompare_iff] at hlt
      · rw [hlive hji] at hl ⊢
        exact h.ordered j hj hl k r hk
  · exact fun he' => absurd (he'.symm.trans hnot) (by simp)
  · obtain ⟨rest, hrest⟩ := List.head?_eq_some_iff.mp hb
    simp [OrderedMap.size, OrderedMap.eraseBegin, hrest]
  · simp only [live, Sound.levels_installed]
    exact (contents_update_some (home_lt _ _) hvac).length_eq

theorem Promoting.step (h : b.Promoting) {e : Int × ℕ} (hb : b.cold.begin? = some e) :
    (b.coldInWindow e.1 = .error .overflow ∧ 2 ^ 63 ≤ b.hot.offset e.1) ∨
    (b.coldInWindow e.1 = .ok false ∧ (16 ≤ b.hot.offset e.1 ∧ b.hot.offset e.1 < 2 ^ 63) ∧ b.Inv) ∨
    ∃ b', b.coldInWindow e.1 = .ok true ∧ b.hot.rank e.1 = .ok (b.hot.offset e.1) ∧
      (0 < b.hot.offset e.1 ∧ b.hot.offset e.1 < 16) ∧ b.promoteCold = .ok b' ∧
      b'.Promoting ∧ Kept b b' ∧ b'.cold.size + 1 = b.cold.size ∧ b'.live = b.live + 1 ∧
      b'.hot.bestPrice = b.hot.bestPrice ∧ b'.cold = b.cold.erase e.1 ∧ b'.hot.empty = false := by
  obtain ⟨he, hpos⟩ := h.cold_spec hb
  by_cases hnear : b.Near e.1
  swap
  · left
    have hfar : 2 ^ 63 ≤ b.hot.offset e.1 := by
      unfold Near at hnear
      omega
    refine ⟨?_, hfar⟩
    rw [coldInWindow, h.rank_checked h.anchored he, checked, if_neg (by omega)]
    rfl
  right
  obtain ⟨hrank, hlo, hhi⟩ := h.rank_ok h.anchored he hnear
  have hidx : b.hot.idxOf (b.hot.offset e.1) = b.hot.home e.1 := by rw [idxOf_eq, home]
  have hwindow : b.coldInWindow e.1 = .ok (inHotWindow (b.hot.offset e.1)) := by
    simp only [coldInWindow, hrank, ok_bind, pure_eq_ok]
  by_cases hwin : inHotWindow (b.hot.offset e.1) = true
  · right
    have hw16 := (inHotWindow_iff ⟨hlo.le, hhi⟩).mp hwin
    obtain ⟨hne, hvac⟩ := h.vacant hb hw16
    have hslot := h.slot_of_vacant (home_lt _ _) hvac
    have hpromote : b.promoteCold = .ok { b with
        hot := b.hot.installed (b.hot.home e.1) e.1 e.2, cold := b.cold.eraseBegin } := by
      simp only [promoteCold, hb, hrank, ok_bind, hidx, insert_eq hne, pure_eq_ok]
      exact if_neg (by simp [hslot])
    obtain ⟨hprom, hkept, hsize, hlive, hnot⟩ := h.installed hb ⟨hpos, hw16.2⟩
    exact ⟨_, by rw [hwindow, hwin], hrank, ⟨hpos, hw16.2⟩, hpromote, hprom, hkept, hsize, hlive, rfl,
      OrderedMap.eraseBegin_eq hb, hnot⟩
  · left
    have hout : 16 ≤ b.hot.offset e.1 := by
      by_contra hlt
      exact hwin ((inHotWindow_iff ⟨hlo.le, hhi⟩).mpr ⟨hpos.le, by omega⟩)
    refine ⟨by rw [hwindow, Bool.eq_false_iff.mpr hwin], ⟨hout, hhi⟩, h.toSound, h.anchored, ?_, h.warm⟩
    intro k r hk
    rcases OrderedMap.begin?_least hb hk with rfl | hlt
    · exact hout
    · rw [b.hot.priceCompare_iff] at hlt
      omega

theorem Promoting.inv_of_cold_empty (h : b.Promoting) (hb : b.cold.begin? = none) : b.Inv := by
  refine ⟨h.toSound, h.anchored, ?_, h.warm⟩
  intro k r hk
  rw [OrderedMap.begin?_eq_none.mp hb] at hk
  cases hk

theorem live_le (b : CachedSideBook isAsk) : b.live ≤ ringSize := by
  have := List.length_filterMap_le (fun i => (b.hot.slots i).level) (List.range ringSize)
  rwa [List.length_range] at this

def Examined (b : CachedSideBook isAsk) (q k : Int) : Prop :=
  k ≠ q ∧ (∃ r, b.cold.find? k = some r) ∧
    ∀ k' r', b.cold.find? k' = some r' → k' ≠ q → PriceCompare isAsk k' k → b.hot.offset k' - b.hot.offset q < 16

def Clear (b : CachedSideBook isAsk) (q : Int) : Prop :=
  ∀ k, b.Examined q k → b.hot.offset k - b.hot.offset q < 2 ^ 63

theorem offset_sub (b b' : CachedSideBook isAsk) (q k : Int) :
    b'.hot.offset k - b'.hot.offset q = b.hot.offset k - b.hot.offset q := by
  rw [offset_of_best b.hot b'.hot k, offset_of_best b.hot b'.hot q]
  omega

theorem clear_congr {q : Int} (hc : ∀ k r, k ≠ q → (b'.cold.find? k = some r ↔ b.cold.find? k = some r)) :
    b'.Clear q ↔ b.Clear q := by
  have hexamined (k : Int) : b'.Examined q k ↔ b.Examined q k := by
    apply and_congr_right
    intro hk
    apply and_congr
    · exact exists_congr fun r => hc k r hk
    · apply forall₂_congr
      intro k' r'
      rw [offset_sub b b']
      constructor
      · exact fun h hf hq => h ((hc k' r' hq).mpr hf) hq
      · exact fun h hf hq => h ((hc k' r' hq).mp hf) hq
  apply forall_congr'
  intro k
  rw [hexamined, offset_sub b b']

theorem clear_of_cold_empty (hb : b.cold.begin? = none) (q : Int) : b.Clear q := by
  rintro k ⟨-, ⟨r, hr⟩, -⟩
  rw [OrderedMap.begin?_eq_none.mp hb] at hr
  cases hr

theorem not_clear_of_far {e : Int × ℕ} (hb : b.cold.begin? = some e) (hfar : 2 ^ 63 ≤ b.hot.offset e.1) :
    ¬ b.Clear b.hot.bestPrice := by
  intro hclear
  have hlt := hclear e.1 ⟨?_, ⟨e.2, OrderedMap.find?_of_begin? hb⟩, ?_⟩
  · rw [offset_best] at hlt
    omega
  · intro heq
    rw [heq, offset_best] at hfar
    omega
  · intro k' r' hk' _ hlt
    rcases OrderedMap.begin?_least hb hk' with rfl | hlt'
    · exact absurd hlt (irrefl _)
    · exact absurd hlt (asymm hlt')

theorem clear_of_outside {e : Int × ℕ} (hb : b.cold.begin? = some e)
    (hout : 16 ≤ b.hot.offset e.1 ∧ b.hot.offset e.1 < 2 ^ 63) : b.Clear b.hot.bestPrice := by
  have hne : e.1 ≠ b.hot.bestPrice := by
    intro heq
    rw [heq, offset_best] at hout
    omega
  rintro k ⟨-, ⟨r, hr⟩, hwindow⟩
  rw [offset_best]
  rcases OrderedMap.begin?_least hb hr with rfl | hlt
  · omega
  · have hin := hwindow e.1 e.2 (OrderedMap.find?_of_begin? hb) hne hlt
    rw [offset_best] at hin
    omega

theorem clear_promoted {e : Int × ℕ} (hin : 0 < b.hot.offset e.1 ∧ b.hot.offset e.1 < 16) (hbest : b'.hot.bestPrice = b.hot.bestPrice)
    (hcold : b'.cold = b.cold.erase e.1) : b'.Clear b'.hot.bestPrice ↔ b.Clear b.hot.bestPrice := by
  have hfind (k : Int) (r : ℕ) : b'.cold.find? k = some r ↔ b.cold.find? k = some r ∧ k ≠ e.1 := by
    rw [hcold, OrderedMap.find?_erase]
    by_cases hk : k = e.1 <;> simp [hk]
  rw [hbest]
  constructor
  · intro hclear k hk
    by_cases hke : k = e.1
    · rw [hke, offset_best]
      omega
    · rw [← offset_sub b b']
      apply hclear
      obtain ⟨hq, ⟨r, hr⟩, hwindow⟩ := hk
      refine ⟨hq, ⟨r, (hfind k r).mpr ⟨hr, hke⟩⟩, fun k' r' hk' hq' hlt => ?_⟩
      rw [offset_sub b b']
      exact hwindow k' r' ((hfind k' r').mp hk').1 hq' hlt
  · intro hclear k hk
    rw [offset_sub b b']
    apply hclear
    obtain ⟨hq, ⟨r, hr⟩, hwindow⟩ := hk
    refine ⟨hq, ⟨r, ((hfind k r).mp hr).1⟩, fun k' r' hk' hq' hlt => ?_⟩
    by_cases hke : k' = e.1
    · rw [hke, offset_best]
      omega
    · rw [← offset_sub b b']
      exact hwindow k' r' ((hfind k' r').mpr ⟨hk', hke⟩) hq' hlt

theorem Promoting.round (h : b.Promoting) (fuel : ℕ) :
    (promoteAll fuel b = .error .overflow ∧ ¬ b.Clear b.hot.bestPrice) ∨
    (b.Clear b.hot.bestPrice ∧ promoteAll fuel b = .ok b ∧ b.Inv) ∨
    ∃ b', b'.Promoting ∧ Kept b b' ∧ b'.cold.size + 1 = b.cold.size ∧ b'.live = b.live + 1 ∧
      b'.hot.bestPrice = b.hot.bestPrice ∧ (b'.Clear b'.hot.bestPrice ↔ b.Clear b.hot.bestPrice) ∧
      b'.hot.empty = false ∧ ∀ n, fuel = n + 1 → promoteAll fuel b = promoteAll n b' := by
  rw [promoteAll.eq_def]
  cases hb : b.cold.begin? with
  | none => exact Or.inr (Or.inl ⟨clear_of_cold_empty hb _, rfl, h.inv_of_cold_empty hb⟩)
  | some e =>
    rcases h.step hb with ⟨hover, hle⟩ | ⟨hwin, hpast, hinv⟩ |
      ⟨b', hwin, hrank, hin, hpromote, hb', hkept, hsize, hlive, hbest, hcold, hnot⟩
    · left
      refine ⟨?_, not_clear_of_far hb hle⟩
      simp only [hover]
      rfl
    · refine Or.inr (Or.inl ⟨clear_of_outside hb hpast, ?_, hinv⟩)
      simp only [hwin, ok_bind]
      rfl
    · refine Or.inr (Or.inr ⟨b', hb', hkept, hsize, hlive, hbest, clear_promoted hin hbest hcold, hnot, ?_⟩)
      rintro n rfl
      simp only [hwin, ok_bind, if_true, hrank, gt_iff_lt, if_pos hin.1, hpromote]

theorem promoteAll_spec {fuel : ℕ} (h : b.Promoting) (hfuel : b.cold.size ≤ fuel ∨ ringSize ≤ b.live + fuel) :
    (promoteAll fuel b = .error .overflow ∧ ¬ b.Clear b.hot.bestPrice) ∨
    b.Clear b.hot.bestPrice ∧ ∃ b', promoteAll fuel b = .ok b' ∧ b'.Inv ∧ Kept b b' ∧
      b'.hot.bestPrice = b.hot.bestPrice ∧ (b.hot.empty = false → b'.hot.empty = false) := by
  induction fuel generalizing b with
  | zero =>
    rcases h.round 0 with hover | ⟨hclear, hb, hinv⟩ | ⟨b', -, -, hsize, hlive, -⟩
    · exact Or.inl hover
    · exact Or.inr ⟨hclear, b, hb, hinv, .refl b, rfl, id⟩
    · have := b'.live_le
      omega
  | succ fuel ih =>
    rcases h.round (fuel + 1) with hover | ⟨hclear, hb, hinv⟩ |
      ⟨b₁, hb₁, hkept, hsize, hlive, hbest, hclear, hnot, heq⟩
    · exact Or.inl hover
    · exact Or.inr ⟨hclear, b, hb, hinv, .refl b, rfl, id⟩
    · rw [heq fuel rfl, ← hclear]
      rcases ih hb₁ (by omega) with hfar | ⟨hclear', b', hb', hinv, hkept', hbest', hnot'⟩
      · exact Or.inl hfar
      · exact Or.inr ⟨hclear', b', hb', hinv, hkept.trans hkept', hbest'.trans hbest, fun _ => hnot' hnot⟩

theorem walk_mono {fuel fuel' : ℕ} (h : walk fuel b = .ok b') (hle : fuel ≤ fuel') : walk fuel' b = .ok b' := by
  induction fuel generalizing b fuel' with
  | zero => cases h
  | succ fuel ih =>
    obtain ⟨fuel', rfl⟩ : ∃ f, fuel' = f + 1 := ⟨fuel' - 1, by omega⟩
    rw [walk] at h ⊢
    split at h
    · next hoff =>
      rw [if_pos hoff]
      exact h
    · next hoff =>
      rw [if_neg hoff]
      obtain ⟨hot, hhot, h⟩ := bind_eq_ok.mp h
      simp only [hhot, ok_bind]
      split at h
      · cases h
      · next r hr =>
        split at h
        · next he =>
          obtain ⟨pool, hpool, h⟩ := bind_eq_ok.mp h
          obtain ⟨hot', hhot', h⟩ := bind_eq_ok.mp h
          simp only [he, if_true, hpool, ok_bind, hhot']
          exact ih h (by omega)
        · next he =>
          rw [if_neg he]
          exact h

theorem promoteAll_mono {fuel fuel' : ℕ} (h : promoteAll fuel b = .ok b') (hle : fuel ≤ fuel') :
    promoteAll fuel' b = .ok b' := by
  induction fuel generalizing b fuel' with
  | zero =>
    rw [promoteAll.eq_def] at h ⊢
    cases hb : b.cold.begin? with
    | none => simpa only [hb] using h
    | some e =>
      simp only [hb] at h ⊢
      obtain ⟨c, hc, h⟩ := bind_eq_ok.mp h
      cases c with
      | true => cases h
      | false =>
        simp only [hc, ok_bind]
        exact h
  | succ fuel ih =>
    obtain ⟨fuel', rfl⟩ : ∃ f, fuel' = f + 1 := ⟨fuel' - 1, by omega⟩
    rw [promoteAll.eq_def] at h ⊢
    cases hb : b.cold.begin? with
    | none => simpa only [hb] using h
    | some e =>
      simp only [hb] at h ⊢
      obtain ⟨c, hc, h⟩ := bind_eq_ok.mp h
      cases c with
      | true =>
        obtain ⟨r, hr, h⟩ := bind_eq_ok.mp h
        split at h
        · next hpos =>
          obtain ⟨b₁, hb₁, h⟩ := bind_eq_ok.mp h
          simp only [hc, ok_bind, if_true, hr, if_pos hpos, hb₁]
          exact ih h (by omega)
        · cases h
      | false =>
        simp only [hc, ok_bind]
        exact h

theorem Promoting.live_pos (h : b.Promoting) : b.cold.size = 0 ∨ 0 < b.live := by
  cases he : b.hot.empty with
  | true =>
    left
    have hnone := OrderedMap.begin?_eq_none.mpr (h.warm he)
    rw [OrderedMap.begin?, List.head?_eq_none_iff] at hnone
    exact List.length_eq_zero_iff.mpr hnone
  | false =>
    right
    obtain ⟨r, hr⟩ := h.anchored he
    exact List.length_pos_of_mem (mem_contents.mpr ⟨b.hot.anchor, h.anchor, by rw [hr]⟩)

theorem Close.clear (h : b.Close) (hq : b.Held q) : b.Clear q := by
  rintro k ⟨-, ⟨r, hr⟩, -⟩
  have hapart := h k q ⟨r, holds_cold hr⟩ hq
  have := hapart.1
  have := hapart.2
  cases isAsk <;> simp only [offset, Bool.false_eq_true, if_true, if_false] <;> omega

theorem Promoting.clear_of_close (h : b.Promoting) (hc : b.Close) : b.Clear b.hot.bestPrice := by
  cases he : b.hot.empty with
  | true => exact clear_of_cold_empty (OrderedMap.begin?_eq_none.mpr (h.warm he)) _
  | false => exact hc.clear (h.held_best h.anchored he)

theorem Kept.close (h : Kept b b') (hc : b.Close) : b'.Close :=
  fun p q ⟨r, hp⟩ ⟨r', hq⟩ => hc p q ⟨r, h.holds p r hp⟩ ⟨r', h.holds q r' hq⟩

theorem eraseBest_bounded (h : b.Inv) (hc : b.Clean) (hr : b.hot.bestLevel = some r) (hl : b.pool.levels r = {}) :
    ∃ b₁ b₂, b₁ = { b with hot := b.hot.cleared b.hot.anchor, pool := b.pool.released r } ∧
      b.pool.release (b.hot.slots b.hot.anchor).level = .ok b₁.pool ∧
      b.hot.remove b₁.pool.levels b.hot.anchor = .ok b₁.hot ∧ b₁.live + 1 = b.live ∧
      walk (b₁.live + 1) b₁ = .ok b₂ ∧ Walked b₁ b₂ ∧
      ((promoteAll (min (ringSize - 1) b₂.cold.size) b₂ = .error .overflow ∧ ¬ b₂.Clear b₂.hot.bestPrice ∧
          b.eraseBest = .error .overflow) ∨
        b₂.Clear b₂.hot.bestPrice ∧ ∃ b', promoteAll (min (ringSize - 1) b₂.cold.size) b₂ = .ok b' ∧ b'.Inv ∧
          Kept b₂ b' ∧ b'.hot.bestPrice = b₂.hot.bestPrice ∧ (b₂.hot.empty = false → b'.hot.empty = false) ∧
          b.eraseBest = .ok b') := by
  have hlive : (b.hot.slots b.hot.anchor).level = some r := hr
  have hv := h.toSound.released h.anchor hlive hl
  set b₁ : CachedSideBook isAsk := { b with hot := b.hot.cleared b.hot.anchor, pool := b.pool.released r } with hb₁
  have hordered : b₁.Ordered := h.ordered.cleared b.hot.anchor _
  have hcount : b₁.live + 1 = b.live := by
    have hperm := contents_perm (f := fun i => (b.hot.slots i).level) h.anchor hlive
    rw [← Sound.levels_cleared] at hperm
    exact hperm.length_eq.symm
  obtain ⟨b₂, hb₂, hwalked⟩ := walk_spec hv.sound (hv.kept.clean hc) hordered (Nat.lt_succ_self b₁.live)
  have hprom := hwalked.promoting
  have hfull : b₂.cold.size ≤ min (ringSize - 1) b₂.cold.size ∨
      ringSize ≤ b₂.live + min (ringSize - 1) b₂.cold.size := by
    rcases hprom.live_pos with hsize | hpos
    · left
      omega
    · simp only [ringSize]
      omega
  have hrelease : b.pool.release (b.hot.slots b.hot.anchor).level = .ok b₁.pool := by
    rw [hlive]
    exact PriceLevelPool.release_eq hl
  have hremove : b.hot.remove b₁.pool.levels b.hot.anchor = .ok b₁.hot := remove_eq hlive hl
  have herase : b.eraseBest = promoteAll b₂.cold.size b₂ := by
    have hempty : (b.pool.levels r).empty = true := by rw [hl]; rfl
    have hwalk : walk (ringSize + 1) b₁ = .ok b₂ := walk_mono hb₂ (Nat.succ_le_succ b₁.live_le)
    simp only [eraseBest, hr, if_pos hempty, hrelease, ok_bind, hremove]
    rw [show walk (ringSize + 1) _ = .ok b₂ from hwalk]
    rfl
  refine ⟨b₁, b₂, rfl, hrelease, hremove, hcount, hb₂, hwalked, ?_⟩
  rw [herase]
  rcases promoteAll_spec hprom hfull with ⟨hover, hfar⟩ | ⟨hclear, b', hb', hinv, hkept, hbest, hnot⟩
  · left
    refine ⟨hover, hfar, ?_⟩
    rcases promoteAll_spec hprom (Or.inl le_rfl) with ⟨hover', -⟩ | ⟨hclear, -⟩
    · exact hover'
    · exact absurd hclear hfar
  · exact Or.inr ⟨hclear, b', hb', hinv, hkept, hbest, hnot, promoteAll_mono hb' (Nat.min_le_right _ _)⟩

theorem eraseBest_spec (h : b.Inv) (hc : b.Clean) (hclose : b.Close) (he : b.hot.empty = false)
    (hr : b.hot.bestLevel = some r) (hl : b.pool.levels r = {}) :
    ∃ b', b.eraseBest = .ok b' ∧ b'.Inv ∧ Kept b b' ∧ ¬ b'.Held b.hot.bestPrice ∧
      b'.owned.length < b.owned.length := by
  obtain ⟨r₀, hr₀⟩ := h.best he
  have hlive : (b.hot.slots b.hot.anchor).level = some r := hr
  have hprice : (b.hot.slots b.hot.anchor).price = b.hot.bestPrice := by rw [hr₀]
  have hv := h.toSound.released h.anchor hlive hl
  have hlen := owned_length_cleared h.anchor hlive
  obtain ⟨b₁, b₂, hb₁, -, -, -, -, hwalked, hend⟩ := eraseBest_bounded h hc hr hl
  rw [← hb₁] at hv
  have hkept₂ := hwalked.kept
  have hclear := hwalked.promoting.clear_of_close ((hv.kept.trans hkept₂).close hclose)
  obtain ⟨-, b', -, hinv, hkept, -, -, hb'⟩ := hend.resolve_left fun hover => hover.2.1 hclear
  refine ⟨b', hb', hinv, hv.kept.trans (hkept₂.trans hkept), ?_, ?_⟩
  · rintro ⟨r', hr'⟩
    rcases hkept₂.holds _ _ (hkept.holds _ _ hr') with ⟨j, hj, hs⟩ | hk
    · have hs' := hv.slots j
      rw [hs] at hs'
      split at hs'
      · simp at hs'
      · next hne =>
        have := h.wired.price_inj hj h.anchor (by simp [← hs']) (by simp [hlive]) (by rw [← hs', hprice])
        exact hne (by simp [this])
    · have := h.disjoint _ h.anchor (by simp [hlive])
      rw [hprice] at this
      rw [hb₁] at hk
      exact absurd (hk.symm.trans this) (by simp)
  · have h1 := hkept₂.count
    have h2 := hkept.count
    have h3 : b₁.owned.length + 1 = b.owned.length := by
      rw [hb₁]
      exact hlen
    omega

theorem Next.held (h : b.Next q) : b.Held q := by
  rcases h with ⟨r, ⟨hs, -⟩, -⟩ | ⟨-, r, hr⟩
  · exact ⟨r, Or.inl hs⟩
  · exact ⟨r, holds_cold (OrderedMap.find?_of_begin? hr)⟩

theorem Next.unique {q' : Int} (h : b.Next q) (h' : b.Next q') : q = q' := by
  rcases h with ⟨r, hr, hbest⟩ | ⟨hnone, r, hr⟩ <;> rcases h' with ⟨r', hr', hbest'⟩ | ⟨hnone', r', hr'⟩
  · rcases hbest q' r' hr' with rfl | hlt
    · rfl
    · rcases hbest' q r hr with rfl | hlt'
      · rfl
      · exact absurd hlt' (asymm hlt)
  · exact absurd hr (hnone' q r)
  · exact absurd hr' (hnone q' r')
  · exact congrArg Prod.fst (Option.some.inj (hr.symm.trans hr'))

theorem eraseBest_next (h : b.Inv) (hc : b.Clean) (hr : b.hot.bestLevel = some r) (hl : b.pool.levels r = {}) :
    (b.eraseBest = .error .overflow ∧ ∃ q, b.Next q ∧ ¬ b.Clear q) ∨
    (∀ q, b.Next q → b.Clear q) ∧ ∃ b', b.eraseBest = .ok b' ∧ b'.Inv ∧ Kept b b' ∧
      ∀ q, b.Next q ↔ b'.hot.empty = false ∧ q = b'.hot.bestPrice := by
  have hlive : (b.hot.slots b.hot.anchor).level = some r := hr
  have hv := h.toSound.released h.anchor hlive hl
  obtain ⟨b₁, b₂, hb₁, -, -, -, -, hwalked, hend⟩ := eraseBest_bounded h hc hr hl
  have hwalked' : Walked b b₂ := by
    subst hb₁
    exact hwalked.congr hv.kept (hotStocked_released hlive hl) rfl
  have hclear (q : Int) (hq : q = b₂.hot.bestPrice) : b₂.Clear q ↔ b.Clear q := by
    apply clear_congr
    intro k r' hk
    rw [hwalked'.cold, ← hq]
    exact and_iff_left hk
  have hnext (q : Int) : b.Next q ↔ b₂.hot.empty = false ∧ q = b₂.hot.bestPrice := by
    constructor
    · intro hq
      have he : b₂.hot.empty = false := by
        by_contra he
        obtain ⟨hnone, hcold⟩ := hwalked'.drained (by simpa using he)
        rcases hq with ⟨r', hr', -⟩ | ⟨-, r', hr'⟩
        · exact hnone q r' hr'
        · have := OrderedMap.find?_of_begin? hr'
          rw [hcold] at this
          cases this
      exact ⟨he, hq.unique (hwalked'.next he)⟩
    · rintro ⟨he, rfl⟩
      exact hwalked'.next he
  rcases hend with ⟨-, hfar, hover⟩ | ⟨hok, b', -, hinv, hkept, hbest, hnot, hb'⟩
  · left
    have he : b₂.hot.empty = false := by
      by_contra he
      apply hfar
      rintro k ⟨-, ⟨r', hk⟩, -⟩
      rw [hwalked.promoting.warm (by simpa using he)] at hk
      cases hk
    exact ⟨hover, _, hwalked'.next he, fun hb => hfar ((hclear _ rfl).mpr hb)⟩
  · right
    refine ⟨fun q hq => ?_, b', hb', hinv, hwalked'.kept.trans hkept, fun q => ?_⟩
    · obtain ⟨-, hq⟩ := (hnext q).mp hq
      rw [← hclear q hq, hq]
      exact hok
    · rw [hnext, hbest]
      refine and_congr_left fun _ => ⟨hnot, fun he => ?_⟩
      by_contra he₂
      obtain ⟨r', hr'⟩ := hinv.toSound.held_best hinv.best he
      obtain ⟨-, hcold⟩ := hwalked'.drained (by simpa using he₂)
      rcases hkept.holds _ _ hr' with ⟨i, hi, hs⟩ | hk
      · have := hwalked.promoting.wired.empty_iff.mp (by simpa using he₂) i hi
        rw [hs] at this
        cases this
      · exact absurd (((hwalked'.cold _ _).mp hk).1.symm.trans (hcold _)) (by simp)

end CachedSideBook

end Llmes
