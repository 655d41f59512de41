import Llmes.ArraySideBook
import Llmes.Shelves
import Llmes.Lib.Machine

namespace Llmes

open Intrusive BookSide BookView

/-- One side with the orders that its levels link. `queue` is history: the orders that have joined the
level at an index and not left it. -/
structure StockedArray (isAsk : Bool) where
  book : ArraySideBook isAsk
  orders : OrderPool ℕ
  queue : ℕ → List ℕ

namespace StockedArray

variable {isAsk : Bool}

def init (orders : OrderPool ℕ) : StockedArray isAsk := ⟨ArraySideBook.init, orders, fun _ => []⟩

def write (s : StockedArray isAsk) (r : ℕ) (l : PriceLevel × OrderPool ℕ) (queue : List ℕ) :
    StockedArray isAsk :=
  ⟨setLevel s.book r l.1, l.2, Function.update s.queue r queue⟩

def step (s : StockedArray isAsk) : SideCall → Exec (Option ℕ × StockedArray isAsk)
  | .getOrCreate p => do
    let g ← s.book.getOrCreate p
    pure (some g.1, { s with book := g.2 })
  | .append r o => .ok (none, s.write r ((level s.book r).pushBack s.orders o) (s.queue r ++ [o]))
  | .remove r o =>
    .ok (none, s.write r ((level s.book r).erase s.orders o) ((s.queue r).erase o))
  | .eraseBest => do
    let book ← s.book.eraseBest
    pure (none, { s with book })

def InScope (s : StockedArray isAsk) : SideCall → Prop
  | .getOrCreate p => 0 ≤ p ∧ p < kBitCount
  | .append r o => s.book.activeTree.test r = true ∧ ∀ r', o ∉ s.queue r'
  | .remove r o => o ∈ s.queue r
  | .eraseBest => s.book.empty = false ∧ ∃ r, s.book.bestLevel = .ok r ∧ s.queue r = []

abbrev Reach (orders : OrderPool ℕ) : StockedArray isAsk → Prop := Machine.Reach step InScope (init orders)

structure Good (s : StockedArray isAsk) : Prop where
  inv : s.book.Inv
  shelved : Shelved s.book.levels s.orders s.queue

variable {s s' : StockedArray isAsk} {c : SideCall} {r : ℕ} {orders : OrderPool ℕ}

theorem Good.init (orders : OrderPool ℕ) : Good (init orders : StockedArray isAsk) where
  inv := ArraySideBook.init_inv
  shelved := ⟨fun _ => represents_nil.mpr rfl, fun _ _ _ ho => by cases ho⟩

namespace Good

theorem tidy (h : Good s) (i : ℕ) (hi : (s.book.levels i).head = none) : s.book.levels i = {} := by
  rw [← h.shelved.queue_eq_nil]
  exact (h.shelved.linked i).head_eq_none.mp hi

theorem marked (h : Good s) (hr : s.queue r ≠ []) : s.book.activeTree.test r = true := by
  by_contra ht
  exact hr (h.shelved.queue_eq_nil.mpr (h.inv.vacant r (by simpa using ht)))

theorem write {l : PriceLevel × OrderPool ℕ} {os : List ℕ} (h : Good s) (hr : s.book.activeTree.test r = true)
    (hs : Shelved (Function.update s.book.levels r l.1) l.2 (Function.update s.queue r os)) :
    Good (s.write r l os) where
  inv := LawfulBookSide.setLevel_inv (S := ArraySideBook) l.1 h.inv (ArraySideBook.ref_eq_some.mpr ⟨rfl, hr⟩)
  shelved := hs

theorem eraseBest (h : Good s) (hs : InScope s .eraseBest) :
    ∃ book, s.book.eraseBest = .ok book ∧ ArraySideBook.Retired s.book book ∧
      (book.hasBest = true → s.queue book.bestPriceIdx ≠ []) := by
  obtain ⟨he, r, hr, hq⟩ := hs
  have hb : s.book.hasBest = true := by simpa [ArraySideBook.empty] using he
  obtain rfl : s.book.bestPriceIdx = r := by simpa [ArraySideBook.bestLevel, hb] using hr
  obtain ⟨book, hbook, hret, -, -, hlive⟩ :=
    ArraySideBook.eraseBest_spec h.inv h.tidy hb (h.shelved.queue_eq_nil.mp hq)
  refine ⟨book, hbook, hret, fun hbest hq => hlive hbest ?_⟩
  rw [hret.levels, h.shelved.queue_eq_nil.mp hq]

theorem step (h : Good s) (hs : InScope s c) : ∃ reply s', s.step c = .ok (reply, s') ∧ Good s' := by
  cases c with
  | getOrCreate p =>
    obtain ⟨book, hb, hinv, hlevels, -⟩ := ArraySideBook.getOrCreate_spec h.inv hs.1 hs.2
    refine ⟨some p.toNat, { s with book }, by rw [StockedArray.step, hb]; rfl, hinv, ?_⟩
    rw [hlevels]
    exact h.shelved
  | append r o => exact ⟨none, _, rfl, h.write hs.1 (h.shelved.append hs.2)⟩
  | remove r o =>
    exact ⟨none, _, rfl, h.write (h.marked (List.ne_nil_of_mem hs)) (h.shelved.remove hs)⟩
  | eraseBest =>
    obtain ⟨book, hb, hret, -⟩ := h.eraseBest hs
    refine ⟨none, { s with book }, by rw [StockedArray.step, hb]; rfl, hret.inv, ?_⟩
    rw [hret.levels]
    exact h.shelved

end Good

theorem Reach.good (h : Reach orders s) : Good s := by
  apply Machine.Reach.invariant h (Good.init orders)
  intro s c reply s' hs hc hstep
  obtain ⟨reply', s'', hstep', hs'⟩ := hs.step hc
  rw [hstep'] at hstep
  cases hstep
  exact hs'

theorem best_tracks_orders (h : Reach orders s) :
    (s.book.hasBest = true ↔ ∃ i, s.book.activeTree.test i = true) ∧
    (s.book.hasBest = true → s.book.activeTree.test s.book.bestPriceIdx = true ∧
      ∀ i, s.book.activeTree.test i = true →
        if isAsk then s.book.bestPriceIdx ≤ i else i ≤ s.book.bestPriceIdx) ∧
    (∀ r, s.queue r ≠ [] → s.book.activeTree.test r = true) ∧
    (∀ c, InScope s c → ∃ reply s', s.step c = .ok (reply, s')) ∧
    (InScope s .eraseBest → ∃ s', s.step .eraseBest = .ok (none, s') ∧ s'.queue = s.queue ∧
      (s'.book.empty = true ↔ ∀ r, s'.queue r = []) ∧
      (s'.book.empty = false → ∃ r : ℕ, s'.book.bestPrice = .ok (r : Int) ∧ s'.queue r ≠ [] ∧
        (∀ r' : ℕ, s'.queue r' ≠ [] → r' = r ∨ PriceCompare isAsk r r') ∧
        ∀ i : ℕ, PriceCompare isAsk i r → s'.book.activeTree.test i = false) ∧
      ∀ r, s.queue r ≠ [] → s'.book.activeTree.test r = true) := by
  have hgood := h.good
  have hbetter {i j : ℕ} : i = j ∨ ArraySideBook.betterIdx isAsk j i = true ↔ if isAsk then j ≤ i else i ≤ j := by
    cases isAsk <;> simp [ArraySideBook.betterIdx] <;> omega
  refine ⟨hgood.inv.has, ?_, fun r => hgood.marked, ?_, ?_⟩
  · intro hb
    obtain ⟨ht, hbest⟩ := hgood.inv.best hb
    exact ⟨ht, fun i hi => hbetter.mp (hbest i hi)⟩
  · intro c hc
    obtain ⟨reply, s', hstep, -⟩ := hgood.step hc
    exact ⟨reply, s', hstep⟩
  · intro hs
    obtain ⟨book, hb, hret, hlive⟩ := hgood.eraseBest hs
    have hstep : s.step .eraseBest = .ok (none, { s with book }) := by
      rw [step, hb]
      rfl
    obtain ⟨reply, s', hstep', hgood'⟩ := hgood.step hs
    obtain ⟨-, rfl⟩ := Prod.mk.inj (Except.ok.inj (hstep.symm.trans hstep'))
    refine ⟨_, hstep, rfl, ?_, ?_, fun r => hgood'.marked⟩
    · simp only [ArraySideBook.empty, Bool.not_eq_true']
      constructor
      · intro hb r
        by_contra hr
        rw [hgood'.inv.has.mpr ⟨r, hgood'.marked hr⟩] at hb
        cases hb
      · intro hr
        by_contra hb
        exact hlive (by simpa using hb) (hr _)
    · intro he
      have hb : book.hasBest = true := by simpa [ArraySideBook.empty] using he
      obtain ⟨ht, hbest⟩ := hgood'.inv.best hb
      have hbest' {i : ℕ} (hi : book.activeTree.test i = true) :
          i = book.bestPriceIdx ∨ PriceCompare isAsk book.bestPriceIdx i :=
        (hbest i hi).imp id ArraySideBook.betterIdx_iff.mp
      refine ⟨book.bestPriceIdx, ?_, hlive hb, fun r hr => hbest' (hgood'.marked hr), ?_⟩
      · have hlt := ArraySideBook.test_lt ht
        simp [ArraySideBook.bestPrice, hb, ArraySideBook.priceOf, kDefaultPriceCount, kDefaultBasePrice, hlt]
      · intro i hi
        by_contra hne
        rcases hbest' (by simpa using hne) with rfl | h
        · exact irrefl_of (PriceCompare isAsk) _ hi
        · exact asymm_of (PriceCompare isAsk) hi h

def sample : StockedArray true :=
  [SideCall.getOrCreate 9, .append 9 0, .getOrCreate 5].foldl (Machine.next step) (init (OrderPool.init 1))

theorem reach_sample : Reach (OrderPool.init 1) sample := by
  have h₀ : Reach (OrderPool.init 1) (init (OrderPool.init 1) : StockedArray true) := ⟨[], .nil _⟩
  have h₁ := h₀.next (show InScope _ (.getOrCreate 9) by simp [InScope, kBitCount]) (by decide +kernel)
  have h₂ := h₁.next (show InScope _ (.append 9 0) from ⟨by decide +kernel, fun r => List.not_mem_nil⟩)
    (by decide +kernel)
  exact h₂.next (show InScope _ (.getOrCreate 5) by simp [InScope, kBitCount]) (by decide +kernel)

theorem best_tracks_orders_sample :
    ∃ s', sample.step .eraseBest = .ok (none, s') ∧ s'.book.empty = false := by
  obtain ⟨s', hstep, hqueue, hempty, -⟩ := (best_tracks_orders reach_sample).2.2.2.2
    ⟨by decide +kernel, 5, by decide +kernel, by decide +kernel⟩
  refine ⟨s', hstep, ?_⟩
  by_contra he
  have hq := hempty.mp (by simpa using he) 9
  rw [hqueue] at hq
  exact absurd hq (by decide +kernel)

/-- A level that has been obtained and then retired takes an order: its bit stays clear. -/
theorem retired_unmarked :
    ∃ s₁ s₂ s₃ : StockedArray true, (init (OrderPool.init 1)).step (.getOrCreate 5) = .ok (some 5, s₁) ∧
      InScope s₁ .eraseBest ∧ s₁.step .eraseBest = .ok (none, s₂) ∧ (∀ r, 0 ∉ s₂.queue r) ∧
      s₂.step (.append 5 0) = .ok (none, s₃) ∧ s₃.queue 5 = [0] ∧
      s₃.book.activeTree.test 5 = false ∧ s₃.book.empty = true :=
  ⟨_, _, _, Machine.step_next (by decide +kernel), ⟨by decide +kernel, 5, by decide +kernel, by decide +kernel⟩,
    Machine.step_next (by decide +kernel), fun _ => List.not_mem_nil, Machine.step_next (by decide +kernel),
    by decide +kernel, by decide +kernel, by decide +kernel⟩

end StockedArray

end Llmes
