import Llmes.CachedRuns

namespace Llmes

open Intrusive BookSide RingBuffer Cells

def AnyPrice : Set Int := {p | CachedSideBook.Legal p}

namespace StockedSide

variable {isAsk : Bool} {s s' : StockedSide isAsk} {c : SideCall} {p q : Int} {r : ℕ} {orders : OrderPool ℕ}

structure Exposed (s : StockedSide isAsk) (b' : CachedSideBook isAsk) : Prop where
  kept : ∀ p r, s.book.Holds p r → s.queue r ≠ [] → b'.Holds p r
  best : b'.empty = true ∨ ∃ p r, b'.bestPrice = .ok p ∧ b'.bestLevel = .ok r ∧ b'.Holds p r ∧ s.queue r ≠ [] ∧
    ∀ q r', b'.Holds q r' → s.queue r' ≠ [] → q = p ∨ PriceCompare isAsk p q
  passed : ∃ free, b'.pool.FreeList free ∧ ∀ p r, s.book.Holds p r →
    (b'.empty = true ∨ PriceCompare isAsk p b'.hot.bestPrice) → r ∈ free

theorem Good.kept {P : Set Int} {b' : CachedSideBook isAsk} (h : Good P s) (hk : CachedSideBook.Kept s.book b')
    (hr : s.book.Holds p r) (hq : s.queue r ≠ []) : b'.Holds p r :=
  (hk.gone p r hr).resolve_right fun hl => hq (h.shelved.queue_eq_nil.mpr hl)

theorem Good.passed {P : Set Int} {b' : CachedSideBook isAsk} (h : Good P s) (hinv : b'.Inv)
    (hk : CachedSideBook.Kept s.book b') : ∃ free, b'.pool.FreeList free ∧ ∀ p r, s.book.Holds p r →
      (b'.empty = true ∨ PriceCompare isAsk p b'.hot.bestPrice) → r ∈ free := by
  obtain ⟨free, hfree, hperm⟩ := hinv.pool
  refine ⟨free, hfree, fun p r hr hpast => ?_⟩
  have hmem : r ∈ free ++ b'.owned := by
    rw [hperm.mem_iff, hk.capacity]
    obtain ⟨free', -, hperm'⟩ := h.inv.pool
    exact hperm'.mem_iff.mp (List.mem_append_right _ (CachedSideBook.mem_owned.mpr ⟨p, hr⟩))
  refine (List.mem_append.mp hmem).resolve_right fun howned => ?_
  obtain ⟨q, hq⟩ := CachedSideBook.mem_owned.mp howned
  obtain rfl := h.inv.price_unique hr (hk.holds q r hq)
  have hne := hinv.empty_of_held ⟨r, hq⟩
  rcases hpast with he | hlt
  · rw [he] at hne
    cases hne
  · obtain ⟨-, -, -, -, -, hbest⟩ := CachedSideBook.best_spec hinv hne
    rcases hbest p ⟨r, hq⟩ with rfl | hlt'
    · exact absurd hlt (irrefl _)
    · exact absurd hlt (asymm hlt')

/-- `erase_best` exposes the next best level with orders if and only if the price that is next has
orders: it may be a cold one that has lost them, which nothing looks at. The distances that the
promotions compute have to fit as well. -/
theorem next_best_exposed_iff (h : Reach AnyPrice orders s) (hs : InScope AnyPrice s .eraseBest) :
    (∃ b', s.book.eraseBest = .ok b' ∧ Exposed s b') ↔
      ∀ q, s.book.Next q → (∃ r, s.book.Holds q r ∧ s.queue r ≠ []) ∧ s.book.Clear q := by
  have hgood : Good AnyPrice s := h.good_of_legal fun _ => id
  obtain ⟨r, hr, hl⟩ := hgood.best_vacant hs
  rcases CachedSideBook.eraseBest_next hgood.inv hgood.clean hr hl with
    ⟨hover, q, hq, hfar⟩ | ⟨hclear, b', hb', hinv, hk, hnext⟩
  · constructor
    · rintro ⟨b', hb', -⟩
      rw [hover] at hb'
      cases hb'
    · exact fun hall => absurd (hall q hq).2 hfar
  · constructor
    · rintro ⟨b'', hb'', hexp⟩ q hq
      obtain rfl := Except.ok.inj (hb'.symm.trans hb'')
      refine ⟨?_, hclear q hq⟩
      obtain ⟨he, rfl⟩ := (hnext q).mp hq
      rcases hexp.best with hempty | ⟨p, r', hp, -, hr', hstock, -⟩
      · have hne := hinv.empty_of_held (hinv.held_best hinv.best he)
        rw [hempty] at hne
        cases hne
      · obtain rfl := Except.ok.inj hp
        exact ⟨r', hk.holds _ r' hr', hstock⟩
    · intro hall
      refine ⟨b', hb', fun p r' => hgood.kept hk, ?_, hgood.passed hinv hk⟩
      cases he : b'.empty with
      | true => exact Or.inl rfl
      | false =>
        right
        obtain ⟨r', hp, hr', -, hheld, hbest⟩ := CachedSideBook.best_spec hinv he
        obtain ⟨⟨r'', hr'', hstock⟩, -⟩ := hall b'.hot.bestPrice ((hnext _).mpr ⟨hinv.hot_empty he, rfl⟩)
        obtain rfl := hgood.inv.holds_unique (hk.holds _ r' hheld) hr''
        exact ⟨_, r', hp, hr', hheld, hstock, fun q u hu _ => hbest q ⟨u, hu⟩⟩

theorem Reach.mono {P Q : Set Int} (hPQ : P ⊆ Q) (h : Reach P orders s) : Reach Q orders s := by
  apply Machine.Reach.imp _ h
  intro s c hc
  cases c with
  | getOrCreate p => exact hPQ hc
  | append r o => exact hc
  | remove r o => exact hc
  | eraseBest => exact hc

theorem reach_sample_any : Reach AnyPrice (OrderPool.init 1) sample :=
  reach_sample.mono fun p hp => fits_sample.legal p hp

theorem next_best_exposed_sample : ∃ b', sample.book.eraseBest = .ok b' ∧ Exposed sample b' := by
  have hs : InScope AnyPrice sample .eraseBest := ⟨99997, by decide +kernel, by decide +kernel⟩
  refine (next_best_exposed_iff reach_sample_any hs).mpr fun q hq => ?_
  have hnext : sample.book.Next 100 := by
    refine Or.inl ⟨99999, ⟨⟨0, by decide, by decide +kernel⟩, by decide +kernel⟩, ?_⟩
    rintro p r ⟨⟨i, hi, hs⟩, hl⟩
    have hall : ∀ i < 16, ∀ r ∈ (sample.book.hot.slots i).level, (sample.book.pool.levels r).empty = false →
        (sample.book.hot.slots i).price = 100 := by decide +kernel
    left
    have hprice := hall i hi r (by simp [hs]) hl
    rwa [hs] at hprice
  obtain rfl := hq.unique hnext
  refine ⟨⟨99999, Or.inl ⟨0, by decide, by decide +kernel⟩, by decide +kernel⟩, ?_⟩
  rintro k ⟨-, ⟨r, hr⟩, -⟩
  have hcold : sample.book.cold.entries = [(40, 99998)] := by decide +kernel
  have hmem := OrderedMap.find?_eq_some.mp hr
  rw [hcold, List.mem_singleton] at hmem
  obtain rfl := congrArg Prod.fst hmem
  decide +kernel

theorem next_append (s : StockedSide isAsk) (r o : ℕ) :
    (Machine.next step s (.append r o)).queue = Function.update s.queue r (s.queue r ++ [o]) := rfl

theorem next_remove (s : StockedSide isAsk) (r o : ℕ) :
    (Machine.next step s (.remove r o)).queue = Function.update s.queue r ((s.queue r).erase o) := rfl

def ghostSample : StockedSide false :=
  [SideCall.getOrCreate 100, .getOrCreate 40, .append 99998 0, .remove 99998 0, .getOrCreate 30,
    .append 99997 1].foldl (Machine.next step) (init (OrderPool.init 2))

theorem reach_ghostSample : Reach AnyPrice (OrderPool.init 2) ghostSample := by
  have hlegal {p : Int} (h : 0 ≤ p ∧ p ≤ 100) : p ∈ AnyPrice := by
    change kNoPrice < p ∧ p < 2 ^ 63
    rw [kNoPrice]
    omega
  have h₀ : Reach AnyPrice (OrderPool.init 2) (init (OrderPool.init 2) : StockedSide false) := ⟨[], .nil _⟩
  have h₁ := h₀.next (show InScope _ _ (.getOrCreate 100) from hlegal (by norm_num)) (by decide +kernel)
  have h₂ := h₁.next (show InScope _ _ (.getOrCreate 40) from hlegal (by norm_num)) (by decide +kernel)
  have h₃ := h₂.next (show InScope _ _ (.append 99998 0) from
    ⟨⟨40, Or.inr (by decide +kernel)⟩, fun r => by simp [next_queue, init]⟩) (by decide +kernel)
  have h₄ := h₃.next (show InScope _ _ (.remove 99998 0) from
    ⟨⟨40, Or.inr (by decide +kernel)⟩, by decide +kernel⟩) (by decide +kernel)
  have h₅ := h₄.next (show InScope _ _ (.getOrCreate 30) from hlegal (by norm_num)) (by decide +kernel)
  refine h₅.next (show InScope _ _ (.append 99997 1) from ⟨⟨30, Or.inr (by decide +kernel)⟩, fun r => ?_⟩)
    (by decide +kernel)
  rw [next_queue, next_remove, next_append]
  by_cases hr : r = 99998
  · subst hr
    decide +kernel
  · simp [next_queue, init, hr]

/-- The best price becomes that of the level without orders. -/
theorem ghost_exposed : ¬ ∀ s : StockedSide false, Reach AnyPrice (OrderPool.init 2) s →
    InScope AnyPrice s .eraseBest → ∃ b', s.book.eraseBest = .ok b' ∧ Exposed s b' := by
  intro h
  obtain ⟨b', hb', hexp⟩ := h ghostSample reach_ghostSample ⟨99999, by decide +kernel, by decide +kernel⟩
  have hend : ghostSample.book.eraseBest.toOption.map (fun b => (b.empty, b.hot.bestLevel)) =
      some (false, some 99998) := by decide +kernel
  rw [hb'] at hend
  simp only [Except.toOption, Option.map_some, Option.some.injEq, Prod.mk.injEq] at hend
  rcases hexp.best with he | ⟨p, r, -, hr, -, hstock, -⟩
  · rw [hend.1] at he
    cases he
  · rw [CachedSideBook.bestLevel, hend.2] at hr
    obtain rfl := Except.ok.inj hr
    exact hstock (by decide +kernel)

end StockedSide

end Llmes
