import Llmes.CachedSideBook

namespace Llmes

open Intrusive BookSide BookView RingBuffer Cells

namespace CachedSideBook

variable {isAsk : Bool}

def Holds (b : CachedSideBook isAsk) (p : Int) (r : ℕ) : Prop :=
  (∃ i < 16, b.hot.slots i = ⟨p, some r⟩) ∨ b.cold.find? p = some r

def Held (b : CachedSideBook isAsk) (p : Int) : Prop := ∃ r, b.Holds p r

def Legal (p : Int) : Prop := kNoPrice < p ∧ p < 2 ^ 63

def Apart (p q : Int) : Prop := p - q < 2 ^ 63 ∧ q - p < 2 ^ 63

theorem Apart.symm {p q : Int} (h : Apart p q) : Apart q p := ⟨h.2, h.1⟩

structure Fits (P : Set Int) : Prop where
  legal : ∀ p ∈ P, Legal p
  apart : ∀ p ∈ P, ∀ q ∈ P, Apart p q

def owned (b : CachedSideBook isAsk) : List ℕ :=
  contents (fun i => (b.hot.slots i).level) 16 ++ b.cold.entries.map Prod.snd

def Close (b : CachedSideBook isAsk) : Prop := ∀ p q, b.Held p → b.Held q → Apart p q

def Near (b : CachedSideBook isAsk) (p : Int) : Prop := -2 ^ 63 < b.hot.offset p ∧ b.hot.offset p < 2 ^ 63

structure Sound (b : CachedSideBook isAsk) : Prop where
  anchor : b.hot.anchor < 16
  wired : b.hot.Wired
  disjoint : ∀ i < 16, (b.hot.slots i).level ≠ none → b.cold.find? (b.hot.slots i).price = none
  legal : ∀ p, b.Held p → Legal p
  pool : ∃ free, b.pool.FreeList free ∧ (free ++ b.owned).Perm (List.range b.pool.capacity)
  dropped : b.dropped = false
  overwritten : b.hot.overwritten = false

structure Kept (b b' : CachedSideBook isAsk) : Prop where
  holds : ∀ p r, b'.Holds p r → b.Holds p r
  gone : ∀ p r, b.Holds p r → b'.Holds p r ∨ b.pool.levels r = {}
  levels : b'.pool.levels = b.pool.levels
  capacity : b'.pool.capacity = b.pool.capacity
  count : b'.owned.length ≤ b.owned.length

def Clean (b : CachedSideBook isAsk) : Prop :=
  ∀ p r, b.Holds p r → (b.pool.levels r).head = none → b.pool.levels r = {}

variable {b b' b'' : CachedSideBook isAsk} {p q : Int} {i r r' : ℕ}

theorem Kept.refl (b : CachedSideBook isAsk) : Kept b b :=
  ⟨fun _ _ h => h, fun _ _ h => Or.inl h, rfl, rfl, le_rfl⟩

theorem Kept.trans (h : Kept b b') (h' : Kept b' b'') : Kept b b'' where
  holds p r hp := h.holds p r (h'.holds p r hp)
  gone p r hp := by
    rcases h.gone p r hp with hp | hp
    · rw [← h.levels]
      exact h'.gone p r hp
    · exact Or.inr hp
  levels := h'.levels.trans h.levels
  capacity := h'.capacity.trans h.capacity
  count := h'.count.trans h.count

theorem Kept.clean (h : Kept b b') (hc : b.Clean) : b'.Clean := by
  intro p r hp hr
  rw [h.levels] at hr ⊢
  exact hc p r (h.holds p r hp) hr

theorem Kept.not_held (h : Kept b b') (hp : ¬ b.Held p) : ¬ b'.Held p :=
  fun ⟨r, hr⟩ => hp ⟨r, h.holds p r hr⟩

theorem cold_of_not_held (h : ¬ b.Held p) : b.cold.find? p = none := by
  by_contra hk
  obtain ⟨r, hk⟩ := Option.ne_none_iff_exists'.mp hk
  exact h ⟨r, Or.inr hk⟩

theorem holds_hot (hi : i < 16) (hl : (b.hot.slots i).level = some r) :
    b.Holds (b.hot.slots i).price r :=
  Or.inl ⟨i, hi, by rw [← hl]⟩

theorem holds_cold (h : b.cold.find? p = some r) : b.Holds p r := Or.inr h

theorem mem_owned : r ∈ b.owned ↔ ∃ p, b.Holds p r := by
  simp only [owned, List.mem_append, mem_contents, Holds, exists_or]
  constructor
  · rintro (⟨i, hi, hl⟩ | hr)
    · exact Or.inl ⟨_, i, hi, by rw [← hl]⟩
    · obtain ⟨e, he, rfl⟩ := List.mem_map.mp hr
      exact Or.inr ⟨e.1, OrderedMap.find?_of_mem he⟩
  · rintro (⟨p, i, hi, hl⟩ | ⟨p, hp⟩)
    · exact Or.inl ⟨i, hi, by rw [hl]⟩
    · exact Or.inr (List.mem_map.mpr ⟨_, OrderedMap.find?_eq_some.mp hp, rfl⟩)

namespace Sound

theorem owned_nodup (h : b.Sound) : b.owned.Nodup := by
  obtain ⟨free, -, hperm⟩ := h.pool
  exact (List.nodup_append.mp (hperm.nodup_iff.mpr List.nodup_range)).2.1

theorem live_price (h : b.Sound) (hi : i < 16) (hl : (b.hot.slots i).level ≠ none) :
    (b.hot.slots i).price ≠ kNoPrice :=
  fun hp => hl ((h.wired.vacant i hi).mpr hp)

theorem slot_of_vacant (h : b.Sound) (hi : i < 16) (hl : (b.hot.slots i).level = none) :
    b.hot.slots i = {} := by
  have hp := (h.wired.vacant i hi).mp hl
  cases hs : b.hot.slots i with
  | mk price level =>
    rw [hs] at hp hl
    obtain rfl : price = kNoPrice := hp
    obtain rfl : level = none := hl
    rfl

theorem holds_unique (h : b.Sound) (hr : b.Holds p r) (hr' : b.Holds p r') : r = r' := by
  rcases hr with ⟨i, hi, hs⟩ | hr <;> rcases hr' with ⟨j, hj, hs'⟩ | hr'
  · obtain rfl := h.wired.price_inj hi hj (by simp [hs]) (by simp [hs']) (by rw [hs, hs'])
    rw [hs] at hs'
    simpa using hs'
  · have := h.disjoint i hi (by simp [hs])
    rw [hs, hr'] at this
    cases this
  · have := h.disjoint j hj (by simp [hs'])
    rw [hs', hr] at this
    cases this
  · exact Option.some.inj (hr.symm.trans hr')

theorem price_unique (h : b.Sound) (hp : b.Holds p r) (hq : b.Holds q r) : p = q := by
  obtain ⟨hhot, hcold, hdis⟩ := List.nodup_append.mp h.owned_nodup
  rcases hp with ⟨i, hi, hs⟩ | hp <;> rcases hq with ⟨j, hj, hs'⟩ | hq
  · obtain rfl := index_unique hhot hi hj (a := r) (by simp [hs]) (by simp [hs'])
    rw [hs] at hs'
    simpa using hs'
  · have h1 : r ∈ contents (fun i => (b.hot.slots i).level) 16 := mem_contents.mpr ⟨i, hi, by rw [hs]⟩
    exact absurd rfl (hdis r h1 r (List.mem_map.mpr ⟨_, OrderedMap.find?_eq_some.mp hq, rfl⟩))
  · have h1 : r ∈ contents (fun i => (b.hot.slots i).level) 16 := mem_contents.mpr ⟨j, hj, by rw [hs']⟩
    exact absurd rfl (hdis r h1 r (List.mem_map.mpr ⟨_, OrderedMap.find?_eq_some.mp hp, rfl⟩))
  · have := List.inj_on_of_nodup_map hcold (OrderedMap.find?_eq_some.mp hp) (OrderedMap.find?_eq_some.mp hq) rfl
    exact congrArg Prod.fst this

theorem rebase (h : b.Sound) {hot : RingBuffer isAsk} (ha : hot.anchor < 16) (hw : hot.Wired)
    (hs : hot.slots = b.hot.slots) (ho : hot.overwritten = b.hot.overwritten) :
    Sound { b with hot } := by
  have hholds (p : Int) (r : ℕ) : ({ b with hot } : CachedSideBook isAsk).Holds p r ↔ b.Holds p r := by
    simp only [Holds, hs]
  have hheld (p : Int) : ({ b with hot } : CachedSideBook isAsk).Held p ↔ b.Held p :=
    exists_congr (hholds p)
  refine ⟨ha, hw, ?_, ?_, ?_, h.dropped, ho.trans h.overwritten⟩
  · simpa only [hs] using h.disjoint
  · exact fun p hp => h.legal p ((hheld p).mp hp)
  · simpa only [owned, hs] using h.pool

theorem levels_cleared (hot : RingBuffer isAsk) (i : ℕ) : (fun j => ((hot.cleared i).slots j).level) =
    Function.update (fun j => (hot.slots j).level) i none := by
  funext j
  by_cases hj : j = i <;> simp [RingBuffer.cleared, hj]

theorem levels_installed (hot : RingBuffer isAsk) (i : ℕ) (p : Int) (r : ℕ) :
    (fun j => ((hot.installed i p r).slots j).level) =
      Function.update (fun j => (hot.slots j).level) i (some r) := by
  funext j
  by_cases hj : j = i <;> simp [RingBuffer.installed, hj]

theorem owned_perm_cleared (hi : i < 16) (hl : (b.hot.slots i).level = some r) :
    (contents (fun j => (b.hot.slots j).level) 16).Perm
      (r :: contents (fun j => ((b.hot.cleared i).slots j).level) 16) := by
  rw [levels_cleared]
  exact contents_perm hi hl

theorem pool_of_perm (h : b.Sound) (hp : b'.pool = b.pool) (howned : b'.owned.Perm b.owned) :
    ∃ free, b'.pool.FreeList free ∧ (free ++ b'.owned).Perm (List.range b'.pool.capacity) := by
  obtain ⟨free, hfree, hperm⟩ := h.pool
  rw [hp]
  exact ⟨free, hfree, (howned.append_left free).trans hperm⟩

end Sound

structure Vacated (b : CachedSideBook isAsk) (is : List ℕ) (b' : CachedSideBook isAsk) : Prop where
  sound : b'.Sound
  kept : Kept b b'
  anchor : b'.hot.anchor = b.hot.anchor
  bestPrice : b'.hot.bestPrice = b.hot.bestPrice
  slots : ∀ j, b'.hot.slots j = if j ∈ is then {} else b.hot.slots j
  cold : ∀ k r, b'.cold.find? k = some r → b.cold.find? k = some r ∨
    ∃ i ∈ is, (b.hot.slots i).level ≠ none ∧ k = (b.hot.slots i).price

theorem slots_cleared (hot : RingBuffer isAsk) (i j : ℕ) :
    (hot.cleared i).slots j = if j ∈ [i] then {} else hot.slots j := by
  by_cases hj : j = i <;> simp [RingBuffer.cleared, hj]

namespace Sound

theorem released (h : b.Sound) (hi : i < 16) (hl : (b.hot.slots i).level = some r)
    (hr : b.pool.levels r = {}) :
    Vacated b [i] { b with hot := b.hot.cleared i, pool := b.pool.released r } := by
  have hperm := owned_perm_cleared hi hl
  have hholds (p : Int) (r' : ℕ) : Holds { b with hot := b.hot.cleared i, pool := b.pool.released r } p r' →
      b.Holds p r' := by
    rintro (⟨j, hj, hs⟩ | hc)
    · by_cases hji : j = i
      · simp [RingBuffer.cleared, hji] at hs
      · exact Or.inl ⟨j, hj, by simpa [RingBuffer.cleared, hji] using hs⟩
    · exact Or.inr hc
  have howned := hperm.append_right (b.cold.entries.map Prod.snd)
  refine ⟨⟨h.anchor, h.wired.cleared i, ?_, ?_, ?_, h.dropped, h.overwritten⟩,
    ⟨hholds, ?_, rfl, rfl, ?_⟩, rfl, rfl, slots_cleared _ _, fun k r hk => Or.inl hk⟩
  · intro j hj hlj
    by_cases hji : j = i
    · simp [RingBuffer.cleared, hji] at hlj
    · simp only [RingBuffer.cleared, Function.update_of_ne hji] at hlj ⊢
      exact h.disjoint j hj hlj
  · rintro p ⟨r', hp⟩
    exact h.legal p ⟨r', hholds p r' hp⟩
  · obtain ⟨free, hfree, hpool⟩ := h.pool
    have hnot : r ∉ free := by
      intro hm
      have hnd := hpool.nodup_iff.mpr List.nodup_range
      exact (List.nodup_append.mp hnd).2.2 r hm r (mem_owned.mpr ⟨_, holds_hot hi hl⟩) rfl
    refine ⟨r :: free, hfree.released hnot hr, List.Perm.trans ?_ hpool⟩
    refine List.Perm.trans ?_ (howned.symm.append_left free)
    exact List.perm_middle.symm
  · rintro p r' (⟨j, hj, hs⟩ | hc)
    · by_cases hji : j = i
      · right
        rw [hji] at hs
        rw [hs] at hl
        rwa [Option.some.inj hl]
      · exact Or.inl (Or.inl ⟨j, hj, by simpa [RingBuffer.cleared, hji] using hs⟩)
    · exact Or.inl (Or.inr hc)
  · have := howned.length_eq
    simp only [owned] at this ⊢
    simp only [List.cons_append, List.length_cons] at this
    omega

theorem parked (h : b.Sound) (hi : i < 16) (hl : (b.hot.slots i).level = some r) :
    b.cold.find? (b.hot.slots i).price = none ∧
    Vacated b [i] { b with hot := b.hot.cleared i, cold := b.cold.set (b.hot.slots i).price r } := by
  have hne : (b.hot.slots i).level ≠ none := by simp [hl]
  have hnew := h.disjoint i hi hne
  have hholds (p : Int) (r' : ℕ) :
      Holds { b with hot := b.hot.cleared i, cold := b.cold.set (b.hot.slots i).price r } p r' ↔ b.Holds p r' := by
    simp only [Holds, OrderedMap.find?_set]
    constructor
    · rintro (⟨j, hj, hs⟩ | hc)
      · by_cases hji : j = i
        · simp [RingBuffer.cleared, hji] at hs
        · exact Or.inl ⟨j, hj, by simpa [RingBuffer.cleared, hji] using hs⟩
      · split at hc
        · next hp =>
          rw [hp, ← Option.some.inj hc]
          exact holds_hot hi hl
        · exact Or.inr hc
    · rintro (⟨j, hj, hs⟩ | hc)
      · by_cases hji : j = i
        · right
          rw [hji] at hs
          rw [hs] at hl ⊢
          rw [if_pos rfl]
          exact hl.symm
        · exact Or.inl ⟨j, hj, by simpa [RingBuffer.cleared, hji] using hs⟩
      · right
        rw [if_neg]
        · exact hc
        · rintro rfl
          rw [hnew] at hc
          cases hc
  have howned : (owned { b with hot := b.hot.cleared i, cold := b.cold.set (b.hot.slots i).price r }).Perm
      b.owned := by
    have h1 := owned_perm_cleared hi hl
    have h2 := (OrderedMap.entries_perm_set r hnew).map Prod.snd
    rw [List.map_cons] at h2
    exact ((h2.append_left _).trans List.perm_middle).trans (h1.symm.append_right _)
  refine ⟨hnew, ⟨h.anchor, h.wired.cleared i, ?_, ?_, h.pool_of_perm rfl howned, h.dropped, h.overwritten⟩,
    ⟨fun p r' hp => (hholds p r').mp hp, fun p r' hp => Or.inl ((hholds p r').mpr hp), rfl, rfl,
      howned.length_eq.le⟩, rfl, rfl, slots_cleared _ _, ?_⟩
  · intro j hj hlj
    by_cases hji : j = i
    · simp [RingBuffer.cleared, hji] at hlj
    · simp only [RingBuffer.cleared, Function.update_of_ne hji] at hlj ⊢
      rw [OrderedMap.find?_set, if_neg]
      · exact h.disjoint j hj hlj
      · exact fun hp => hji (h.wired.price_inj hj hi hlj hne hp)
  · rintro p ⟨r', hp⟩
    exact h.legal p ⟨r', (hholds p r').mp hp⟩
  · intro k r' hk
    rw [OrderedMap.find?_set] at hk
    split at hk
    · next hp => exact Or.inr ⟨i, by simp, hne, hp⟩
    · exact Or.inl hk

theorem vacate_spec (h : b.Sound) (hc : b.Clean) (hi : i < 16) :
    ∃ b', b.vacate i = .ok b' ∧ Vacated b [i] b' := by
  unfold vacate
  cases hl : (b.hot.slots i).level with
  | none =>
    refine ⟨b, rfl, h, .refl b, rfl, rfl, fun j => ?_, fun _ _ hk => Or.inl hk⟩
    split
    · next hj => rw [List.mem_singleton.mp hj, h.slot_of_vacant hi hl]
    · rfl
  | some r =>
    dsimp only
    cases he : (b.pool.levels r).empty with
    | true =>
      have hr := hc _ r (holds_hot hi hl) (PriceLevel.empty_iff.mp he)
      have hremove : b.hot.remove (b.pool.released r).levels i = .ok (b.hot.cleared i) :=
        RingBuffer.remove_eq hl hr
      rw [if_pos rfl, PriceLevelPool.release_eq hr, ok_bind, hremove, ok_bind]
      exact ⟨_, rfl, h.released hi hl hr⟩
    | false =>
      obtain ⟨hnew, hparked⟩ := h.parked hi hl
      rw [if_neg (by simp)]
      simp only [RingBuffer.evict, hl, emplace, hnew]
      exact ⟨_, rfl, hparked⟩

theorem vacateAll_spec (h : b.Sound) (hc : b.Clean) (g : ℕ → ℕ → ℕ) (ks : List ℕ)
    (hg : ∀ k ∈ ks, g b.hot.anchor k < 16) :
    ∃ b', ks.foldlM (fun b k => b.vacate (g b.hot.anchor k)) b = .ok b' ∧
      Vacated b (ks.map (g b.hot.anchor)) b' := by
  induction ks generalizing b with
  | nil => exact ⟨b, rfl, h, .refl b, rfl, rfl, fun j => by simp, fun _ _ hk => Or.inl hk⟩
  | cons k ks ih =>
    obtain ⟨b₁, hb₁, hv₁⟩ := h.vacate_spec hc (hg k (by simp))
    obtain ⟨b', hb', hv⟩ := ih hv₁.sound (hv₁.kept.clean hc)
      (fun k' hk' => by rw [hv₁.anchor]; exact hg k' (by simp [hk']))
    refine ⟨b', by rw [List.foldlM_cons, hb₁, ok_bind, hb'], hv.sound, hv₁.kept.trans hv.kept,
      hv.anchor.trans hv₁.anchor, hv.bestPrice.trans hv₁.bestPrice, ?_, ?_⟩
    · intro j
      rw [hv.slots, hv₁.slots, hv₁.anchor, List.map_cons]
      by_cases hj : j = g b.hot.anchor k <;> simp [hj]
    · intro p r hp
      rw [List.map_cons]
      rcases hv.cold p r hp with hp | ⟨i, hi, hl, rfl⟩
      · rcases hv₁.cold p r hp with hp | ⟨i, hi, hl, rfl⟩
        · exact Or.inl hp
        · exact Or.inr ⟨i, by simp_all, hl, rfl⟩
      · rw [hv₁.anchor] at hi
        rw [hv₁.slots] at hl ⊢
        split at hl
        · exact absurd rfl hl
        · next hne =>
          rw [if_neg hne]
          exact Or.inr ⟨i, List.mem_cons_of_mem _ hi, hl, rfl⟩

end Sound

structure Placed (b : CachedSideBook isAsk) (p : Int) (r : ℕ) (b' : CachedSideBook isAsk) : Prop where
  sound : b'.Sound
  holds : ∀ q r', b'.Holds q r' ↔ b.Holds q r' ∨ (q = p ∧ r' = r)
  fresh : b.pool.levels r = {}
  levels : b'.pool.levels = b.pool.levels
  capacity : b'.pool.capacity = b.pool.capacity

theorem Placed.of_pool (h : b.Sound) {free : List ℕ} (hfree : b.pool.FreeList (r :: free))
    (hperm : (r :: free ++ b.owned).Perm (List.range b.pool.capacity)) (hp : Legal p)
    (hanchor : b'.hot.anchor < 16) (hwired : b'.hot.Wired)
    (hdisjoint : ∀ i < 16, (b'.hot.slots i).level ≠ none → b'.cold.find? (b'.hot.slots i).price = none)
    (hholds : ∀ q r', b'.Holds q r' ↔ b.Holds q r' ∨ (q = p ∧ r' = r))
    (howned : b'.owned.Perm (r :: b.owned)) (hpool : b'.pool = { b.pool with freeHead := b.pool.next r })
    (hdropped : b'.dropped = b.dropped) (hover : b'.hot.overwritten = b.hot.overwritten) :
    Placed b p r b' := by
  obtain ⟨-, hfree', hfresh⟩ := hfree.acquire_cons
  have hheld {q : Int} (hq : b'.Held q) : b.Held q ∨ q = p := by
    obtain ⟨r', hq⟩ := hq
    rcases (hholds q r').mp hq with hq | hq
    · exact Or.inl ⟨r', hq⟩
    · exact Or.inr hq.1
  refine ⟨⟨hanchor, hwired, hdisjoint, ?_, ⟨free, ?_, ?_⟩, hdropped.trans h.dropped,
    hover.trans h.overwritten⟩, hholds, hfresh, by rw [hpool], by rw [hpool]⟩
  · intro q hq
    rcases hheld hq with hq | rfl
    · exact h.legal q hq
    · exact hp
  · rwa [hpool]
  · rw [hpool]
    exact ((howned.append_left free).trans List.perm_middle).trans hperm

namespace Sound

theorem materialize_spec (h : b.Sound) (hi : i < 16) (hv : (b.hot.slots i).level = none) (hp : Legal p)
    (hnew : b.cold.find? p = none)
    (hw : 0 ≤ b.hot.offset p ∧ b.hot.offset p < 16) (hhome : b.hot.home p = i) :
    b.materialize i p = .error .levelPoolExhausted ∨
    ∃ r b', b.materialize i p = .ok (r, b') ∧ Placed b p r b' ∧ b'.hot = b.hot.installed i p r ∧
      b'.cold = b.cold := by
  obtain ⟨free, hfree, hperm⟩ := h.pool
  have hne : p ≠ kNoPrice := by have := hp.1; omega
  cases free with
  | nil => exact Or.inl (by rw [materialize, hfree.acquire_nil]; rfl)
  | cons r free =>
    obtain ⟨hacq, -, -⟩ := hfree.acquire_cons
    right
    refine ⟨r, { b with hot := b.hot.installed i p r, pool := { b.pool with freeHead := b.pool.next r } },
      ?_, .of_pool h hfree hperm hp h.anchor (h.wired.installed r hne hw hhome) ?_ ?_ ?_ rfl rfl ?_,
      rfl, rfl⟩
    · simp only [materialize, hacq, ok_bind, RingBuffer.insert_eq hne]
      rfl
    · intro j hj hl
      by_cases hji : j = i
      · simpa [RingBuffer.installed, hji] using hnew
      · simp only [RingBuffer.installed, Function.update_of_ne hji] at hl ⊢
        exact h.disjoint j hj hl
    · intro q r'
      constructor
      · rintro (⟨j, hj, hs⟩ | hc)
        · by_cases hji : j = i
          · simp only [RingBuffer.installed, hji, Function.update_self, RingSlot.mk.injEq,
              Option.some.injEq] at hs
            exact Or.inr ⟨hs.1.symm, hs.2.symm⟩
          · exact Or.inl (Or.inl ⟨j, hj, by simpa [RingBuffer.installed, hji] using hs⟩)
        · exact Or.inl (Or.inr hc)
      · rintro ((⟨j, hj, hs⟩ | hc) | ⟨rfl, rfl⟩)
        · have hji : j ≠ i := by
            rintro rfl
            rw [hs] at hv
            cases hv
          exact Or.inl ⟨j, hj, by simpa [RingBuffer.installed, hji] using hs⟩
        · exact Or.inr hc
        · exact Or.inl ⟨i, hi, by simp [RingBuffer.installed]⟩
    · have hcontents := contents_update_some (f := fun j => (b.hot.slots j).level) (a := r) hi hv
      rw [← levels_installed b.hot i p r] at hcontents
      exact hcontents.append_right _
    · simp [RingBuffer.installed, hv]

theorem coldGetOrCreate_spec (h : b.Sound) (hp : Legal p)
    (hnew : b.cold.find? p = none)
    (hhot : ∀ i < 16, (b.hot.slots i).level ≠ none → (b.hot.slots i).price ≠ p) :
    b.coldGetOrCreate p = .error .levelPoolExhausted ∨
    ∃ r b', b.coldGetOrCreate p = .ok (r, b') ∧ Placed b p r b' ∧ b'.hot = b.hot ∧
      b'.cold = b.cold.set p r := by
  obtain ⟨free, hfree, hperm⟩ := h.pool
  cases free with
  | nil => exact Or.inl (by simp only [coldGetOrCreate, hnew, hfree.acquire_nil, error_bind])
  | cons r free =>
    obtain ⟨hacq, -, -⟩ := hfree.acquire_cons
    right
    refine ⟨r, { b with cold := b.cold.set p r, pool := { b.pool with freeHead := b.pool.next r } },
      by simp only [coldGetOrCreate, hnew, hacq, ok_bind]; rfl,
      .of_pool h hfree hperm hp h.anchor h.wired ?_ ?_ ?_ rfl rfl rfl, rfl, rfl⟩
    · intro j hj hl
      rw [OrderedMap.find?_set, if_neg (hhot j hj hl)]
      exact h.disjoint j hj hl
    · intro q r'
      simp only [Holds, OrderedMap.find?_set]
      by_cases hq : q = p
      · subst hq
        simp only [if_true, true_and, hnew, reduceCtorEq, or_false, Option.some.injEq]
        exact or_congr_right eq_comm
      · simp [hq]
    · have hentries := (OrderedMap.entries_perm_set r hnew).map Prod.snd
      exact (hentries.append_left _).trans List.perm_middle

theorem pulled (h : b.Sound) {e : Int × ℕ} (he : b.cold.begin? = some e) (hi : i < 16)
    (hv : (b.hot.slots i).level = none) (hw : 0 ≤ b.hot.offset e.1 ∧ b.hot.offset e.1 < 16)
    (hhome : b.hot.home e.1 = i) :
    let b' := { b with hot := b.hot.installed i e.1 e.2, cold := b.cold.eraseBegin }
    b'.Sound ∧ Kept b b' := by
  intro b'
  have hf := OrderedMap.find?_of_begin? he
  have hlegal := h.legal _ ⟨_, holds_cold hf⟩
  have hne : e.1 ≠ kNoPrice := by have := hlegal.1; omega
  have herase : b'.cold = b.cold.erase e.1 := OrderedMap.eraseBegin_eq he
  have hholds (p : Int) (r : ℕ) : b'.Holds p r ↔ b.Holds p r := by
    simp only [Holds, herase, OrderedMap.find?_erase]
    constructor
    · rintro (⟨j, hj, hs⟩ | hc)
      · by_cases hji : j = i
        · simp only [b', RingBuffer.installed, hji, Function.update_self, RingSlot.mk.injEq,
            Option.some.injEq] at hs
          rw [← hs.1, ← hs.2]
          exact Or.inr hf
        · exact Or.inl ⟨j, hj, by simpa [b', RingBuffer.installed, hji] using hs⟩
      · split at hc
        · cases hc
        · exact Or.inr hc
    · rintro (⟨j, hj, hs⟩ | hc)
      · have hji : j ≠ i := by
          rintro rfl
          rw [hs] at hv
          cases hv
        exact Or.inl ⟨j, hj, by simpa [b', RingBuffer.installed, hji] using hs⟩
      · by_cases hp : p = e.1
        · subst hp
          obtain rfl := Option.some.inj (hf.symm.trans hc)
          exact Or.inl ⟨i, hi, by simp [b', RingBuffer.installed]⟩
        · exact Or.inr (by rw [if_neg hp, hc])
  have howned : b'.owned.Perm b.owned := by
    have hcontents := contents_update_some (f := fun j => (b.hot.slots j).level) (a := e.2) hi hv
    rw [← levels_installed b.hot i e.1 e.2] at hcontents
    have hentries := (OrderedMap.entries_perm_erase hf).map Prod.snd
    rw [← herase, List.map_cons] at hentries
    exact (hcontents.append_right _).trans (List.perm_middle.symm.trans (hentries.symm.append_left _))
  refine ⟨⟨h.anchor, h.wired.installed e.2 hne hw hhome, ?_, ?_, h.pool_of_perm rfl howned, h.dropped, ?_⟩,
    ⟨fun p r => (hholds p r).mp, fun p r hp => Or.inl ((hholds p r).mpr hp), rfl, rfl, howned.length_eq.le⟩⟩
  · intro j hj hl
    rw [herase, OrderedMap.find?_erase]
    by_cases hji : j = i
    · simp [b', RingBuffer.installed, hji]
    · simp only [b', RingBuffer.installed, Function.update_of_ne hji] at hl ⊢
      split
      · rfl
      · exact h.disjoint j hj hl
  · rintro p ⟨r', hp⟩
    exact h.legal p ⟨r', (hholds p r').mp hp⟩
  · simp [b', RingBuffer.installed, hv, h.overwritten]

end Sound

end CachedSideBook

end Llmes
