import Llmes.CachedErase

namespace Llmes

open Intrusive BookSide BookView RingBuffer Cells

namespace CachedSideBook

variable {isAsk : Bool} {b b' : CachedSideBook isAsk} {p q : Int} {r : ℕ}

def hotRef (hot : RingBuffer isAsk) (price : Int) : Option ℕ :=
  ((List.range ringSize).find? (fun i => decide ((hot.slots i).price = price))).bind
    (fun i => (hot.slots i).level)

def ref (b : CachedSideBook isAsk) (price : Int) : Option ℕ :=
  (hotRef b.hot price).or (b.cold.find? price)

theorem hotRef_eq_some (h : b.Sound) :
    hotRef b.hot p = some r ↔ ∃ i < 16, b.hot.slots i = ⟨p, some r⟩ := by
  rw [hotRef, Option.bind_eq_some_iff]
  constructor
  · rintro ⟨i, hfind, hl⟩
    have hp : (b.hot.slots i).price = p := by simpa using List.find?_some hfind
    exact ⟨i, List.mem_range.mp (List.mem_of_find?_eq_some hfind), by rw [← hp, ← hl]⟩
  · rintro ⟨i, hi, hs⟩
    cases hfind : (List.range ringSize).find? (fun i => decide ((b.hot.slots i).price = p)) with
    | none =>
      have := List.find?_eq_none.mp hfind i (List.mem_range.mpr hi)
      simp [hs] at this
    | some j =>
      have hj : j < 16 := List.mem_range.mp (List.mem_of_find?_eq_some hfind)
      have hp : (b.hot.slots j).price = p := by simpa using List.find?_some hfind
      refine ⟨j, rfl, ?_⟩
      have hlive : (b.hot.slots j).level ≠ none := fun hl =>
        h.live_price hi (by simp [hs]) (by rw [hs, ← hp, (h.wired.vacant j hj).mp hl])
      rw [h.wired.price_inj hj hi hlive (by simp [hs]) (by rw [hp, hs]), hs]

theorem ref_eq_some (h : b.Sound) : b.ref p = some r ↔ b.Holds p r := by
  rw [ref, Option.or_eq_some_iff, hotRef_eq_some h, Holds]
  constructor
  · rintro (hs | ⟨-, hk⟩)
    · exact Or.inl hs
    · exact Or.inr hk
  · rintro (hs | hk)
    · exact Or.inl hs
    · by_cases hn : hotRef b.hot p = none
      · exact Or.inr ⟨hn, hk⟩
      · obtain ⟨r', hr'⟩ := Option.ne_none_iff_exists'.mp hn
        have hs := (hotRef_eq_some h).mp hr'
        obtain rfl := h.holds_unique (Or.inl hs) (Or.inr hk)
        exact Or.inl hs

theorem ref_ne_none (h : b.Sound) : b.ref p ≠ none ↔ b.Held p := by
  rw [Option.ne_none_iff_exists']
  exact exists_congr (fun r => ref_eq_some h)

theorem init_not_holds : ¬ (init : CachedSideBook isAsk).Holds p r := by
  rintro (⟨i, -, hs⟩ | hk)
  · exact absurd (congrArg RingSlot.level hs) (by simp [init])
  · cases hk

theorem init_inv : (init : CachedSideBook isAsk).Inv where
  anchor := by simp [init]
  wired := by
    refine ⟨fun i _ => ?_, fun i _ => ?_, fun i _ hl => absurd rfl hl⟩ <;> simp [init]
  disjoint i _ hl := absurd rfl hl
  legal p hp := by
    obtain ⟨r, hr⟩ := hp
    exact absurd hr init_not_holds
  pool := by
    refine ⟨_, PriceLevelPool.init_freeList kLevelCapacity, ?_⟩
    have howned : (init : CachedSideBook isAsk).owned = [] := by
      rw [List.eq_nil_iff_forall_not_mem]
      intro r hr
      obtain ⟨p, hp⟩ := mem_owned.mp hr
      exact init_not_holds hp
    rw [howned, List.append_nil]
    exact List.reverse_perm _
  dropped := rfl
  overwritten := rfl
  best he := absurd he (by simp [init, RingBuffer.empty])
  outside k r hk := by cases hk
  warm _ _ := rfl

theorem init_close : (init : CachedSideBook isAsk).Close := by
  rintro p q ⟨r, hr⟩ -
  exact absurd hr init_not_holds

theorem init_ref (p : Int) : (init : CachedSideBook isAsk).ref p = none := by
  by_contra hne
  obtain ⟨r, hr⟩ := (ref_ne_none init_inv.toSound).mp hne
  exact init_not_holds hr

instance : BookView CachedSideBook ℕ where
  Inv b := b.Inv ∧ b.Close
  ref := ref
  Admits b p := Legal p ∧ ∀ q, b.Held q → Apart p q
  count b := b.owned.length
  Pooled := True

theorem Sound.clean (h : b.Sound) (ht : Tidy b) : b.Clean :=
  fun p r hp => ht p r ((ref_eq_some h).mpr hp)

theorem Inv.empty_of_held (h : b.Inv) (hp : b.Held p) : b.empty = false := by
  obtain ⟨r, ⟨i, hi, hs⟩ | hk⟩ := hp
  · rw [empty, h.toSound.not_empty_of_live hi (by simp [hs]), Bool.false_and]
  · rw [empty, Bool.and_eq_false_iff]
    right
    by_contra he
    rw [OrderedMap.isEmpty_iff.mp (by simpa using he)] at hk
    cases hk

theorem Inv.hot_empty (h : b.Inv) (he : b.empty = false) : b.hot.empty = false := by
  by_contra hne
  have hhot : b.hot.empty = true := by simpa using hne
  have hcold : b.cold.isEmpty = true := OrderedMap.isEmpty_iff.mpr (h.warm hhot)
  rw [empty, hhot, hcold] at he
  cases he

theorem keeps_of_holds (h : b.Sound) (h' : b'.Sound) (hlevels : b'.pool.levels = b.pool.levels)
    (hholds : ∀ r, b'.Holds q r → b.Holds q r)
    (hgone : ∀ r, b.Holds q r → b'.Holds q r ∨ b.pool.levels r = {}) : Keeps b b' q := by
  refine ⟨?_, fun r _ => congrFun hlevels r⟩
  change b'.ref q = b.ref q ∨ (b'.ref q = none ∧ ∀ r, b.ref q = some r → b.pool.levels r = {})
  cases hr : b'.ref q with
  | some r => exact Or.inl ((ref_eq_some h).mpr (hholds r ((ref_eq_some h').mp hr))).symm
  | none =>
    refine Or.inr ⟨rfl, fun r hbr => ?_⟩
    rcases hgone r ((ref_eq_some h).mp hbr) with hp | hl
    · rw [(ref_eq_some h').mpr hp] at hr
      cases hr
    · exact hl

theorem Obtained.close (hc : b.Close) (hp : ∀ q, b.Held q → Apart p q) (ho : Obtained b p r b') : b'.Close := by
  have hheld {q : Int} (hq : b'.Held q) : q = p ∨ b.Held q := by
    obtain ⟨r', hq⟩ := hq
    by_cases hqp : q = p
    · exact Or.inl hqp
    · exact Or.inr ⟨r', ho.holds q r' hqp hq⟩
  intro q q' hq hq'
  rcases hheld hq with rfl | hq <;> rcases hheld hq' with rfl | hq'
  · exact ⟨by omega, by omega⟩
  · exact hp q' hq'
  · exact (hp q hq).symm
  · exact hc q q' hq hq'

theorem Obtained.created (h : b.Inv) (hclose : b'.Close) (ho : Obtained b p r b') : Created b p r b' where
  inv := ⟨ho.inv, hclose⟩
  ref_self := (ref_eq_some ho.inv.toSound).mpr ho.holds_self
  level_self := by
    rcases ho.self with hr | ⟨hnew, hl⟩
    · exact Or.inl ⟨(ref_eq_some h.toSound).mpr hr, congrFun ho.levels r⟩
    · refine Or.inr ⟨?_, (congrFun ho.levels r).trans hl⟩
      by_contra hne
      exact hnew ((ref_ne_none h.toSound).mp hne)
  keeps q hq := keeps_of_holds h.toSound ho.inv.toSound ho.levels (fun r' => ho.holds q r' hq)
    (fun r' => ho.gone q r')

theorem Inv.write (h : b.Inv) (hr : b.Holds p r) (l : PriceLevel) :
    Inv { b with pool := { b.pool with levels := Function.update b.pool.levels r l } } where
  anchor := h.anchor
  wired := h.wired
  disjoint := h.disjoint
  legal := h.legal
  pool := by
    obtain ⟨free, hfree, hperm⟩ := h.pool
    refine ⟨free, ⟨hfree.chain, fun i hi => ?_⟩, hperm⟩
    have hne : i ≠ r := by
      rintro rfl
      have hnd := hperm.nodup_iff.mpr List.nodup_range
      exact (List.nodup_append.mp hnd).2.2 i hi i (mem_owned.mpr ⟨p, hr⟩) rfl
    exact (Function.update_of_ne hne _ _).trans (hfree.fresh i hi)
  dropped := h.dropped
  overwritten := h.overwritten
  best := h.best
  outside := h.outside
  warm := h.warm

theorem owned_length_le (b : CachedSideBook isAsk) : b.owned.length ≤ ringSize + b.cold.size := by
  have := List.length_filterMap_le (fun i => (b.hot.slots i).level) (List.range 16)
  rw [List.length_range] at this
  rw [owned, List.length_append, List.length_map]
  exact Nat.add_le_add_right this _

theorem best_spec (h : b.Inv) (he : b.empty = false) :
    ∃ r, b.bestPrice = .ok b.hot.bestPrice ∧ b.bestLevel = .ok r ∧ b.hot.bestLevel = some r ∧
      b.Holds b.hot.bestPrice r ∧
      ∀ q, b.Held q → q = b.hot.bestPrice ∨ PriceCompare isAsk b.hot.bestPrice q := by
  obtain ⟨r, hr⟩ := h.best (h.hot_empty he)
  have hbest : b.hot.bestLevel = some r := by rw [RingBuffer.bestLevel, hr]
  refine ⟨r, rfl, by rw [bestLevel, hbest], hbest, Or.inl ⟨_, h.anchor, hr⟩, ?_⟩
  rintro q ⟨r', hq⟩
  have hge : 0 ≤ b.hot.offset q := by
    rcases hq with ⟨i, hi, hs⟩ | hk
    · have := (h.wired.window i hi (by simp [hs])).1
      rw [hs] at this
      exact this.1
    · have := h.outside q r' hk
      omega
  rw [b.hot.priceCompare_iff, offset_best]
  by_cases hz : b.hot.offset q = 0
  · exact Or.inl (offset_inj b.hot (hz.trans (offset_best b.hot).symm))
  · exact Or.inr (by omega)

instance : LawfulBookSide CachedSideBook ℕ where
  ref_inj h hp hq := h.1.toSound.price_unique ((ref_eq_some h.1.toSound).mp hp) ((ref_eq_some h.1.toSound).mp hq)
  empty_iff {isAsk b} h := by
    constructor
    · intro he p
      by_contra hne
      exact absurd (he.symm.trans (h.1.empty_of_held ((ref_ne_none h.1.toSound).mp hne))) (by simp)
    · intro hnone
      have hno (p : Int) : ¬ b.Held p := fun hp => (ref_ne_none h.1.toSound).mpr hp (hnone p)
      have hhot : b.hot.empty = true := by
        rw [h.1.wired.empty_iff]
        intro i hi
        by_contra hl
        obtain ⟨r, hr⟩ := Option.ne_none_iff_exists'.mp hl
        exact hno _ ⟨r, holds_hot hi hr⟩
      have hcold : b.cold.isEmpty = true := OrderedMap.isEmpty_iff.mpr (h.1.warm hhot)
      simp [BookSide.empty, empty, hhot, hcold]
  best {isAsk b} h he := by
    obtain ⟨r, hp, hl, -, hheld, hbest⟩ := best_spec h.1 he
    exact ⟨_, r, hp, hl, (ref_eq_some h.1.toSound).mpr hheld,
      fun q hq => hbest q ((ref_ne_none h.1.toSound).mp hq)⟩
  getOrCreate_spec h ht hp := by
    have hnear (he : _) := h.1.near_of_apart h.1.best he hp.2
    rcases getOrCreate_spec h.1 (h.1.toSound.clean ht) hp.1 hnear with hfull | ⟨r, b', hb', ho⟩
    · exact Or.inl ⟨trivial, hfull⟩
    · exact Or.inr ⟨r, b', hb', ho.created h.1 (ho.close h.2 hp.2)⟩
  eraseBest_spec {isAsk b p r} h ht he hp hr hlevel := by
    obtain ⟨r', hp', hl', hbest, -, -⟩ := best_spec h.1 he
    obtain rfl := Except.ok.inj (hp'.symm.trans hp)
    obtain rfl := Except.ok.inj (hl'.symm.trans hr)
    obtain ⟨b', hb', hinv, hk, hnot, hlt⟩ :=
      eraseBest_spec h.1 (h.1.toSound.clean ht) h.2 (h.1.hot_empty he) hbest hlevel
    refine ⟨b', hb', ⟨hinv, hk.close h.2⟩, ?_, ?_, hlt⟩
    · by_contra hne
      exact hnot ((ref_ne_none hinv.toSound).mp hne)
    · exact fun q => keeps_of_holds h.1.toSound hinv.toSound hk.levels (hk.holds q) (hk.gone q)
  setLevel_inv l h hr := ⟨h.1.write ((ref_eq_some h.1.toSound).mp hr) l, h.2⟩
  setLevel_ref _ _ := rfl
  setLevel_admits _ _ _ := Iff.rfl
  setLevel_count _ _ := rfl
  level_setLevel _ _ _ := Function.update_self _ _ _
  level_setLevel_of_ne _ h := Function.update_of_ne h _ _
  count_le _ := owned_length_le _
  count_pos {isAsk b} h he := by
    obtain ⟨r, -, -, -, hheld, -⟩ := best_spec h.1 he
    exact List.length_pos_of_mem (mem_owned.mpr ⟨_, hheld⟩)

end CachedSideBook

end Llmes
