import Llmes.CachedLawful
import Llmes.Shelves
import Llmes.Lib.Machine

namespace Llmes

open Intrusive BookSide RingBuffer Cells

/-- One side with the orders that its levels link. `queue` is history: the orders that have joined the
level at an address and not left it. -/
structure StockedSide (isAsk : Bool) where
  book : CachedSideBook isAsk
  orders : OrderPool ℕ
  queue : ℕ → List ℕ

namespace StockedSide

variable {isAsk : Bool}

def init (orders : OrderPool ℕ) : StockedSide isAsk := ⟨CachedSideBook.init, orders, fun _ => []⟩

def write (s : StockedSide isAsk) (r : ℕ) (l : PriceLevel × OrderPool ℕ) (queue : List ℕ) :
    StockedSide isAsk :=
  ⟨setLevel s.book r l.1, l.2, Function.update s.queue r queue⟩

def step (s : StockedSide isAsk) : SideCall → Exec (Option ℕ × StockedSide isAsk)
  | .getOrCreate p => do
    let g ← s.book.getOrCreate p
    pure (some g.1, { s with book := g.2 })
  | .append r o => .ok (none, s.write r ((level s.book r).pushBack s.orders o) (s.queue r ++ [o]))
  | .remove r o =>
    .ok (none, s.write r ((level s.book r).erase s.orders o) ((s.queue r).erase o))
  | .eraseBest => do
    let book ← s.book.eraseBest
    pure (none, { s with book })

def InScope (P : Set Int) (s : StockedSide isAsk) : SideCall → Prop
  | .getOrCreate p => p ∈ P
  | .append r o => (∃ p, s.book.Holds p r) ∧ ∀ r', o ∉ s.queue r'
  | .remove r o => (∃ p, s.book.Holds p r) ∧ o ∈ s.queue r
  | .eraseBest => ∃ r, s.book.bestLevel = .ok r ∧ (level s.book r).empty = true

def Fitting (s : StockedSide isAsk) : SideCall → Prop
  | .getOrCreate p => s.book.hot.empty = false → s.book.Near p
  | .eraseBest => ∀ q, s.book.Next q → s.book.Clear q
  | _ => True

abbrev Reach (P : Set Int) (orders : OrderPool ℕ) : StockedSide isAsk → Prop :=
  Machine.Reach step (InScope P) (init orders)

structure Good (P : Set Int) (s : StockedSide isAsk) : Prop where
  inv : s.book.Inv
  capacity : s.book.pool.capacity = CachedSideBook.kLevelCapacity
  prices : ∀ p, s.book.Held p → p ∈ P
  linked : ∀ r, Represents s.orders.links (s.book.pool.levels r).anchor (s.queue r)
  apart : ∀ r r' o, o ∈ s.queue r → o ∈ s.queue r' → r = r'
  placed : ∀ r, s.queue r ≠ [] → ∃ p, s.book.Holds p r

variable {P : Set Int} {s s' : StockedSide isAsk} {c : SideCall} {r : ℕ} {p : Int} {orders : OrderPool ℕ}

theorem Good.init (P : Set Int) (orders : OrderPool ℕ) : Good P (init orders : StockedSide isAsk) where
  inv := CachedSideBook.init_inv
  capacity := rfl
  prices p := by
    rintro ⟨r, hr⟩
    exact absurd hr CachedSideBook.init_not_holds
  linked r := represents_nil.mpr rfl
  apart r r' o ho := by cases ho
  placed r hr := absurd rfl hr

namespace Good

theorem shelved (h : Good P s) : Shelved s.book.pool.levels s.orders s.queue := ⟨h.linked, h.apart⟩

theorem clean (h : Good P s) : s.book.Clean := by
  intro p r _ hr
  rw [← h.shelved.queue_eq_nil]
  exact (h.linked r).head_eq_none.mp hr

theorem fits (h : Good P s) (hfits : CachedSideBook.Fits P) (hp : p ∈ P) :
    CachedSideBook.Legal p ∧ ∀ q, s.book.Held q → CachedSideBook.Apart p q :=
  ⟨hfits.legal p hp, fun q hq => hfits.apart p hp q (h.prices q hq)⟩

theorem moved {book : CachedSideBook isAsk} (h : Good P s) (hinv : book.Inv)
    (hlevels : book.pool.levels = s.book.pool.levels) (hcap : book.pool.capacity = s.book.pool.capacity)
    (hprices : ∀ p, book.Held p → s.book.Held p ∨ p ∈ P)
    (hgone : ∀ p r, s.book.Holds p r → book.Holds p r ∨ s.book.pool.levels r = {}) :
    Good P { s with book } ∧ ∀ p r, s.book.Holds p r → s.queue r ≠ [] → book.Holds p r := by
  have hstays (p : Int) (r : ℕ) (hp : s.book.Holds p r) (hq : s.queue r ≠ []) : book.Holds p r :=
    (hgone p r hp).resolve_right (fun hl => hq (h.shelved.queue_eq_nil.mpr hl))
  refine ⟨⟨hinv, hcap.trans h.capacity, ?_, ?_, h.apart, ?_⟩, hstays⟩
  · intro p hp
    rcases hprices p hp with hp | hp
    · exact h.prices p hp
    · exact hp
  · intro r
    rw [hlevels]
    exact h.linked r
  · intro r hr
    obtain ⟨p, hp⟩ := h.placed r hr
    exact ⟨p, hstays p r hp hr⟩

theorem write {l : PriceLevel × OrderPool ℕ} {os : List ℕ} (h : Good P s) (hr : s.book.Holds p r)
    (hs : Shelved (Function.update s.book.pool.levels r l.1) l.2 (Function.update s.queue r os)) :
    Good P (s.write r l os) where
  inv := h.inv.write hr l.1
  capacity := h.capacity
  prices := h.prices
  linked := hs.linked
  apart := hs.apart
  placed r' hr' := by
    by_cases hrr : r' = r
    · exact ⟨p, hrr ▸ hr⟩
    · simp only [StockedSide.write, Function.update_of_ne hrr] at hr'
      exact h.placed r' hr'

theorem best_vacant (h : Good P s) (hs : InScope P s .eraseBest) :
    ∃ r, s.book.hot.bestLevel = some r ∧ s.book.pool.levels r = {} := by
  obtain ⟨r, hbest, hempty⟩ := hs
  refine ⟨r, ?_, ?_⟩
  · unfold CachedSideBook.bestLevel at hbest
    cases hb : s.book.hot.bestLevel with
    | none =>
      rw [hb] at hbest
      cases hbest
    | some r' =>
      rw [hb] at hbest
      rw [Except.ok.inj hbest]
  · rw [← h.shelved.queue_eq_nil]
    exact (h.linked r).head_eq_none.mp (PriceLevel.empty_iff.mp hempty)

theorem call (h : Good P s) (hlegal : ∀ p ∈ P, CachedSideBook.Legal p) (hs : InScope P s c) :
    (s.step c = .error .overflow ∧ ¬ Fitting s c) ∨
    Fitting s c ∧ (s.step c = .error .levelPoolExhausted ∨ ∃ reply s', s.step c = .ok (reply, s') ∧ Good P s' ∧
      ∀ p r, s.book.Holds p r → s.queue r ≠ [] → s'.book.Holds p r) := by
  cases c with
  | getOrCreate p =>
    by_cases hfit : Fitting s (.getOrCreate p)
    · right
      refine ⟨hfit, ?_⟩
      rcases CachedSideBook.getOrCreate_spec h.inv h.clean (hlegal p hs) hfit with hfull | ⟨r, book, hb, ho⟩
      · left
        rw [StockedSide.step, hfull]
        rfl
      · right
        refine ⟨some r, { s with book }, by rw [StockedSide.step, hb]; rfl, ?_⟩
        apply h.moved ho.inv ho.levels ho.capacity _ ho.gone
        rintro q ⟨r', hq⟩
        by_cases hqp : q = p
        · exact Or.inr (hqp ▸ hs)
        · exact Or.inl ⟨r', ho.holds q r' hqp hq⟩
    · left
      refine ⟨?_, hfit⟩
      simp only [Fitting, Classical.not_imp] at hfit
      rw [StockedSide.step, CachedSideBook.getOrCreate_far h.inv hfit.1 hfit.2]
      rfl
  | append r o =>
    obtain ⟨⟨p, hr⟩, ho⟩ := hs
    exact Or.inr ⟨trivial, Or.inr ⟨none, _, rfl, h.write hr (h.shelved.append ho), fun _ _ hp _ => hp⟩⟩
  | remove r o =>
    obtain ⟨⟨p, hr⟩, ho⟩ := hs
    exact Or.inr ⟨trivial, Or.inr ⟨none, _, rfl, h.write hr (h.shelved.remove ho), fun _ _ hp _ => hp⟩⟩
  | eraseBest =>
    obtain ⟨r, hr, hl⟩ := h.best_vacant hs
    rcases CachedSideBook.eraseBest_next h.inv h.clean hr hl with ⟨hover, q, hq, hfar⟩ | ⟨hfit, book, hb, hinv, hk, -⟩
    · left
      refine ⟨?_, fun hfit => hfar (hfit q hq)⟩
      rw [StockedSide.step, hover]
      rfl
    · right
      refine ⟨hfit, Or.inr ⟨none, { s with book }, by rw [StockedSide.step, hb]; rfl, ?_⟩⟩
      exact h.moved hinv hk.levels hk.capacity (fun q ⟨r', hq⟩ => Or.inl ⟨r', hk.holds q r' hq⟩) hk.gone

theorem close (h : Good P s) (hfits : CachedSideBook.Fits P) : s.book.Close :=
  fun p q hp hq => hfits.apart p (h.prices p hp) q (h.prices q hq)

theorem near (h : Good P s) (hfits : CachedSideBook.Fits P) (hp : p ∈ P) (he : s.book.hot.empty = false) :
    s.book.Near p :=
  h.inv.near_of_apart h.inv.best he (h.fits hfits hp).2

theorem step (h : Good P s) (hfits : CachedSideBook.Fits P) (hs : InScope P s c) :
    s.step c = .error .levelPoolExhausted ∨ ∃ reply s', s.step c = .ok (reply, s') ∧ Good P s' ∧
      ∀ p r, s.book.Holds p r → s.queue r ≠ [] → s'.book.Holds p r := by
  rcases h.call hfits.legal hs with ⟨-, hfit⟩ | ⟨-, hend⟩
  · exfalso
    apply hfit
    cases c with
    | getOrCreate p => exact h.near hfits hs
    | append r o => trivial
    | remove r o => trivial
    | eraseBest => exact fun q hq => (h.close hfits).clear hq.held
  · exact hend

end Good

theorem Good.next (h : Good P s) (hlegal : ∀ p ∈ P, CachedSideBook.Legal p) (hs : InScope P s c)
    {reply : Option ℕ} (hstep : s.step c = .ok (reply, s')) : Good P s' := by
  rcases h.call hlegal hs with ⟨hover, -⟩ | ⟨-, hfull | ⟨reply', s'', hstep', hs', -⟩⟩
  · rw [hover] at hstep
    cases hstep
  · rw [hfull] at hstep
    cases hstep
  · rw [hstep'] at hstep
    cases hstep
    exact hs'

theorem Reach.good_of_legal (hlegal : ∀ p ∈ P, CachedSideBook.Legal p) (h : Reach P orders s) : Good P s :=
  Machine.Reach.invariant h (Good.init P orders) fun _ _ _ _ hs hc => hs.next hlegal hc

theorem Reach.good (hfits : CachedSideBook.Fits P) (h : Reach P orders s) : Good P s := h.good_of_legal hfits.legal

theorem next_queue (s : StockedSide isAsk) (p : Int) :
    (Machine.next step s (.getOrCreate p)).queue = s.queue := by
  unfold Machine.next
  cases hs : s.step (.getOrCreate p) with
  | error e => rfl
  | ok x =>
    obtain ⟨g, -, hx⟩ := bind_eq_ok.mp hs
    rw [← Except.ok.inj hx]

def sample : StockedSide false :=
  [SideCall.getOrCreate 100, .append 99999 0, .getOrCreate 40, .getOrCreate 107].foldl (Machine.next step)
    (init (OrderPool.init 1))

theorem fits_sample : CachedSideBook.Fits {40, 100, 107} := by
  refine ⟨fun p hp => ?_, fun p hp q hq => ?_⟩ <;>
    simp only [Set.mem_insert_iff, Set.mem_singleton_iff] at *
  · simp only [CachedSideBook.Legal, kNoPrice]
    omega
  · simp only [CachedSideBook.Apart]
    omega

theorem reach_sample : Reach {40, 100, 107} (OrderPool.init 1) sample := by
  have h₀ : Reach {40, 100, 107} (OrderPool.init 1) (init (OrderPool.init 1) : StockedSide false) :=
    ⟨[], .nil _⟩
  have h₁ := h₀.next (show InScope _ _ (.getOrCreate 100) by simp [InScope]) (by decide +kernel)
  have h₂ := h₁.next (show InScope _ _ (.append 99999 0) from
    ⟨⟨100, Or.inl ⟨0, by decide, by decide +kernel⟩⟩, fun r => by simp [next_queue, init]⟩) (by decide +kernel)
  have h₃ := h₂.next (show InScope _ _ (.getOrCreate 40) by simp [InScope]) (by decide +kernel)
  exact h₃.next (show InScope _ _ (.getOrCreate 107) by simp [InScope]) (by decide +kernel)

theorem tiers_ordered (hfits : CachedSideBook.Fits P) (h : Reach P orders s) :
    (∀ i < ringSize,
      (s.book.hot.liveMask.getLsbD i = true ↔ (s.book.hot.slots i).level ≠ none) ∧
      ((s.book.hot.slots i).level ≠ none ↔ (s.book.hot.slots i).price ≠ kNoPrice)) ∧
    (∀ i < ringSize, (s.book.hot.slots i).level ≠ none →
      ∃ k, s.book.hot.rank (s.book.hot.slots i).price = .ok k ∧ 0 ≤ k ∧ k < ringSize ∧
        i = s.book.hot.idxOf k) ∧
    (s.book.hot.empty = false →
      ∃ r, s.book.hot.slots s.book.hot.anchor = ⟨s.book.hot.bestPrice, some r⟩) ∧
    (∀ p r, s.book.cold.find? p = some r →
      (∃ k, s.book.hot.rank p = .ok k ∧ ringSize ≤ k) ∧
      ∀ i < ringSize, (s.book.hot.slots i).level ≠ none →
        PriceCompare isAsk (s.book.hot.slots i).price p ∧ (s.book.hot.slots i).price ≠ p) ∧
    (s.book.hot.empty = true → s.book.cold.isEmpty = true) ∧
    (∀ p, s.book.Held p → s.book.Held s.book.hot.bestPrice ∧
      (p = s.book.hot.bestPrice ∨ PriceCompare isAsk s.book.hot.bestPrice p)) ∧
    ∀ p r, s.book.Holds p r → s.book.getOrCreate p = .ok (r, s.book) := by
  have hgood := Reach.good hfits h
  have hinv := hgood.inv
  have hrank (p : Int) (hp : s.book.Held p) (he : s.book.hot.empty = false) :
      s.book.hot.rank p = .ok (s.book.hot.offset p) :=
    (hinv.rank_ok hinv.best he (hgood.near hfits (hgood.prices p hp) he)).1
  refine ⟨?_, ?_, hinv.best, ?_, ?_, ?_, ?_⟩
  · intro i hi
    refine ⟨?_, not_congr (hinv.wired.vacant i hi)⟩
    rw [hinv.wired.mask i hi, Option.isSome_iff_ne_none]
  · intro i hi hl
    obtain ⟨hw, hhome⟩ := hinv.wired.window i hi hl
    obtain ⟨r, hr⟩ := Option.ne_none_iff_exists'.mp hl
    refine ⟨_, hrank _ ⟨r, CachedSideBook.holds_hot hi hr⟩ (hinv.toSound.not_empty_of_live hi hl), hw.1, hw.2, ?_⟩
    rw [idxOf_eq]
    exact hhome.symm
  · intro p r hp
    have he : s.book.hot.empty = false := by
      by_contra he
      rw [hinv.warm (by simpa using he)] at hp
      cases hp
    refine ⟨⟨_, hrank p ⟨r, CachedSideBook.holds_cold hp⟩ he, hinv.outside p r hp⟩, fun i hi hl => ⟨?_, ?_⟩⟩
    · rw [s.book.hot.priceCompare_iff]
      exact hinv.ordered i hi hl p r hp
    · rintro rfl
      rw [hinv.disjoint i hi hl] at hp
      cases hp
  · exact fun he => OrderedMap.isEmpty_iff.mpr (hinv.warm he)
  · intro p hp
    obtain ⟨r, -, -, -, hheld, hbest⟩ := CachedSideBook.best_spec hinv (hinv.empty_of_held hp)
    exact ⟨⟨r, hheld⟩, hbest p hp⟩
  · intro p r hp
    exact hinv.getOrCreate_held hp (hgood.near hfits (hgood.prices p ⟨r, hp⟩) (hinv.hot_empty_of_held ⟨r, hp⟩))

theorem tiers_ordered_sample : sample.book.getOrCreate 40 = .ok (99998, sample.book) :=
  (tiers_ordered fits_sample reach_sample).2.2.2.2.2.2 40 99998 (Or.inr (by decide +kernel))

/-- Every slot of the pool is free, in one slot of the ring, or under one cold price. No call fails
but for want of a level: every key is new when it is put into the cold map, and a level is released
only when no orders are left in it. A level with orders stays at its address and price. -/
theorem no_level_leaked (hfits : CachedSideBook.Fits P) (h : Reach P orders s) :
    (∃ free, s.book.pool.FreeList free ∧
      (free ++ contents (fun i => (s.book.hot.slots i).level) ringSize ++
        s.book.cold.entries.map Prod.snd).Perm (List.range CachedSideBook.kLevelCapacity)) ∧
    s.book.dropped = false ∧ s.book.hot.overwritten = false ∧
    (∀ c, InScope P s c →
      s.step c = .error .levelPoolExhausted ∨ ∃ reply s', s.step c = .ok (reply, s')) ∧
    (∀ r o, o ∈ s.queue r → ∃ p, s.book.Holds p r) ∧
    ∀ p r l s', s.book.Holds p r →
      Machine.Run step (fun s c => InScope P s c ∧ s.queue r ≠ []) s l s' → s'.book.Holds p r := by
  have hgood := Reach.good hfits h
  obtain ⟨free, hfree, hperm⟩ := hgood.inv.pool
  refine ⟨⟨free, hfree, ?_⟩, hgood.inv.dropped, hgood.inv.overwritten, ?_, ?_, ?_⟩
  · rw [← hgood.capacity, List.append_assoc]
    exact hperm
  · intro c hc
    rcases hgood.step hfits hc with hfull | ⟨reply, s', hstep, -⟩
    · exact Or.inl hfull
    · exact Or.inr ⟨reply, s', hstep⟩
  · exact fun r o ho => hgood.placed r (List.ne_nil_of_mem ho)
  · intro p r l s' hr hrun
    have hkept : Good P s' ∧ s'.book.Holds p r := by
      refine hrun.invariant (P := fun s => Good P s ∧ s.book.Holds p r) ?_ ⟨hgood, hr⟩
      rintro s c reply s' ⟨hs, hp⟩ ⟨hc, hq⟩ hstep
      rcases hs.step hfits hc with hfull | ⟨reply', s'', hstep', hs', hstays⟩
      · rw [hfull] at hstep
        cases hstep
      · rw [hstep'] at hstep
        cases hstep
        exact ⟨hs', hstays p r hp hq⟩
    exact hkept.2

theorem no_level_leaked_sample : (Machine.next step sample .eraseBest).book.Holds 100 99999 := by
  have hs : InScope {40, 100, 107} sample .eraseBest := ⟨99997, by decide +kernel, by decide +kernel⟩
  obtain ⟨reply, s', hstep⟩ := ((no_level_leaked fits_sample reach_sample).2.2.2.1 _ hs).resolve_left
    (ne_error_of_isOk (by decide +kernel))
  rw [Machine.next_of_ok hstep]
  refine (no_level_leaked fits_sample reach_sample).2.2.2.2.2 100 99999 [(.eraseBest, reply)] s' ?_ ?_
  · exact Or.inl ⟨0, by decide, by decide +kernel⟩
  · exact .cons ⟨hs, by decide +kernel⟩ hstep (.nil _)

def promoteRound : Machine.Step (CachedSideBook isAsk) Unit Unit Fault := fun b _ => do
  let b ← b.promoteCold
  pure ((), b)

def PromotionDue (b : CachedSideBook isAsk) (_ : Unit) : Prop :=
  ∃ e, b.cold.begin? = some e ∧ b.coldInWindow e.1 = .ok true

def promotionsAhead (b : CachedSideBook isAsk) : ℕ := min (ringSize - b.live) b.cold.size

theorem promoteRound_step {b b' : CachedSideBook isAsk} {i u : Unit} (h : b.Promoting) (hdue : PromotionDue b i)
    (hb : promoteRound b i = .ok (u, b')) : b'.Promoting ∧ promotionsAhead b' < promotionsAhead b := by
  obtain ⟨e, he, hin⟩ := hdue
  rcases h.step he with ⟨hover, -⟩ | ⟨hout, -⟩ | ⟨b₁, -, -, -, hpromote, hb₁, -, hsize, hlive, -⟩
  · rw [hin] at hover
    cases hover
  · rw [hin] at hout
    cases hout
  · obtain ⟨b₂, hb₂, hb⟩ := bind_eq_ok.mp hb
    obtain rfl := (Prod.mk.inj (Except.ok.inj hb)).2
    obtain rfl := Except.ok.inj (hpromote.symm.trans hb₂)
    refine ⟨hb₁, ?_⟩
    have := b₁.live_le
    unfold promotionsAhead
    omega

theorem no_assertion_fires (hfits : CachedSideBook.Fits P) (h : Reach P orders s) :
    s.book.hot.overwritten = false ∧ s.book.dropped = false ∧
    (∀ c, InScope P s c → s.step c = .error .levelPoolExhausted ∨
      ∃ reply s', s.step c = .ok (reply, s') ∧ s'.book.hot.overwritten = false) ∧
    (InScope P s .eraseBest → ∃ b₁ b₂ b',
      s.book.pool.release (s.book.hot.slots s.book.hot.anchor).level = .ok b₁.pool ∧
      s.book.hot.remove b₁.pool.levels s.book.hot.anchor = .ok b₁.hot ∧ b₁.cold = s.book.cold ∧
      b₁.live + 1 = s.book.live ∧ CachedSideBook.walk (b₁.live + 1) b₁ = .ok b₂ ∧
      CachedSideBook.promoteAll (min (ringSize - 1) b₂.cold.size) b₂ = .ok b' ∧ s.book.eraseBest = .ok b' ∧
      ∀ l b, Machine.Run promoteRound PromotionDue b₂ l b → l.length ≤ min (ringSize - 1) b₂.cold.size ∧
        (PromotionDue b () → ∃ e k b'', b.cold.begin? = some e ∧ b.hot.rank e.1 = .ok k ∧ 0 < k ∧ k < ringSize ∧
          b.promoteCold = .ok b'')) := by
  have hgood := Reach.good hfits h
  refine ⟨hgood.inv.overwritten, hgood.inv.dropped, ?_, ?_⟩
  · intro c hc
    rcases hgood.step hfits hc with hfull | ⟨reply, s', hstep, hs', -⟩
    · exact Or.inl hfull
    · exact Or.inr ⟨reply, s', hstep, hs'.inv.overwritten⟩
  · intro hs
    obtain ⟨r, hr, hl⟩ := hgood.best_vacant hs
    obtain ⟨b₁, b₂, hb₁, hrelease, hremove, hlive, hwalk, hwalked, hend⟩ :=
      CachedSideBook.eraseBest_bounded hgood.inv hgood.clean hr hl
    have hprom := hwalked.promoting
    have hclear : b₂.Clear b₂.hot.bestPrice := by
      have hv := hgood.inv.released hgood.inv.anchor hr hl
      rw [← hb₁] at hv
      exact hprom.clear_of_close ((hv.kept.trans hwalked.kept).close (hgood.close hfits))
    obtain ⟨-, b', hall, -, -, -, -, hb'⟩ := hend.resolve_left fun hover => hover.2.1 hclear
    refine ⟨b₁, b₂, b', hrelease, hremove, by rw [hb₁], hlive, hwalk, hall, hb', fun l b hrun => ⟨?_, ?_⟩⟩
    · have hle := hrun.length_le promotionsAhead (fun _ _ _ _ => promoteRound_step) hprom
      have hpos := hprom.live_pos
      simp only [promotionsAhead, ringSize] at hle ⊢
      omega
    · rintro ⟨e, he, hin⟩
      have hb := hrun.invariant (fun _ _ _ _ hb hdue hstep => (promoteRound_step hb hdue hstep).1) hprom
      rcases hb.step he with ⟨hover, -⟩ | ⟨hout, -⟩ | ⟨b'', -, hrank, hk, hpromote, -⟩
      · rw [hin] at hover
        cases hover
      · rw [hin] at hout
        cases hout
      · exact ⟨e, _, b'', he, hrank, hk.1, hk.2, hpromote⟩

theorem no_assertion_fires_sample : ∃ b', sample.book.eraseBest = .ok b' := by
  have hs : InScope {40, 100, 107} sample .eraseBest := ⟨99997, by decide +kernel, by decide +kernel⟩
  obtain ⟨-, -, b', -, -, -, -, -, -, hb', -⟩ := (no_assertion_fires fits_sample reach_sample).2.2.2 hs
  exact ⟨b', hb'⟩

end StockedSide

end Llmes
