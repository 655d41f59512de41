import Llmes.CachedNext

namespace Llmes

open BookSide RingBuffer

namespace CachedSideBook

variable {isAsk : Bool} {b : CachedSideBook isAsk} {p : Int}

def Routed (b : CachedSideBook isAsk) (p : Int) : Prop :=
  ∃ r, b.hot.rank p = .ok r ∧ (r < 0 → ∃ d, checked (-r) = .ok d) ∧
    (r < 0 ↔ PriceCompare isAsk p b.hot.bestPrice) ∧
    (inHotWindow r = true ↔ 0 ≤ b.hot.offset p ∧ b.hot.offset p ≤ 15) ∧
    (¬ inHotWindow r = true ∧ ¬ r < 0 ↔ 16 ≤ b.hot.offset p) ∧
    (PriceCompare isAsk p b.hot.bestPrice → b.getOrCreate p = b.reanchorTo p) ∧
    (16 ≤ b.hot.offset p → b.getOrCreate p = b.coldGetOrCreate p)

theorem Inv.routed_iff (h : b.Inv) (he : b.hot.empty = false) : b.Routed p ↔ b.Near p := by
  have hrank := h.rank_checked h.best he p
  have hbetter : PriceCompare isAsk p b.hot.bestPrice ↔ b.hot.offset p < 0 := by
    rw [b.hot.priceCompare_iff, offset_best]
  constructor
  · rintro ⟨r, hr, hneg, -⟩
    rw [hrank, checked] at hr
    split at hr
    · next hfit =>
      obtain rfl := Except.ok.inj hr
      refine ⟨?_, hfit.2⟩
      by_contra hlo
      obtain ⟨d, hd⟩ := hneg (by omega)
      rw [checked, if_neg (by omega)] at hd
      cases hd
    · cases hr
  · intro hnear
    obtain ⟨hok, hlo, hhi⟩ := h.rank_ok h.best he hnear
    have hwin := inHotWindow_iff ⟨hlo.le, hhi⟩
    refine ⟨_, hok, fun _ => ⟨_, if_pos (by omega)⟩, hbetter.symm, ?_, ?_, ?_, ?_⟩
    · rw [hwin]
      omega
    · rw [hwin]
      omega
    · intro hlt
      rw [hbetter] at hlt
      have hout : ¬ inHotWindow (b.hot.offset p) = true := by
        rw [hwin]
        omega
      rw [getOrCreate, if_neg (by simp [he])]
      simp only [hok, ok_bind]
      rw [if_neg hout, if_pos hlt]
    · intro hfar
      have hout : ¬ inHotWindow (b.hot.offset p) = true := by
        rw [hwin]
        omega
      rw [getOrCreate, if_neg (by simp [he])]
      simp only [hok, ok_bind]
      rw [if_neg hout, if_neg (by omega)]

end CachedSideBook

namespace StockedSide

variable {isAsk : Bool} {s : StockedSide isAsk} {orders : OrderPool ℕ}

theorem tick_distances_iff (h : Reach AnyPrice orders s) :
    (∀ p ∈ AnyPrice, s.book.hot.empty = false → (s.book.Routed p ↔ s.book.Near p)) ∧
    (∀ c, InScope AnyPrice s c → (s.step c = .error .overflow ↔ ¬ Fitting s c)) ∧
    ∀ calls, Machine.Allowed step (fun s c => InScope AnyPrice s c ∧ Fitting s c) s calls →
      Machine.runAll step s calls ≠ .error .overflow := by
  have hgood : Good AnyPrice s := h.good_of_legal fun _ => id
  have hcall {t : StockedSide isAsk} {c : SideCall} (ht : Good AnyPrice t) (hc : InScope AnyPrice t c) :
      t.step c = .error .overflow ↔ ¬ Fitting t c := by
    rcases ht.call (fun _ => id) hc with ⟨hover, hfar⟩ | ⟨hfit, hfull | ⟨reply, t', hstep, -⟩⟩
    · exact iff_of_true hover hfar
    · refine iff_of_false ?_ (not_not.mpr hfit)
      rw [hfull]
      exact nofun
    · refine iff_of_false ?_ (not_not.mpr hfit)
      rw [hstep]
      exact nofun
  refine ⟨fun p _ he => hgood.inv.routed_iff he, fun c hc => hcall hgood hc, fun calls hcalls => ?_⟩
  refine hcalls.ne_error (P := Good AnyPrice) (fun t c ht hc => ⟨?_, fun r t' hstep => ?_⟩) hgood
  · rw [ne_eq, hcall ht hc.1]
    exact not_not.mpr hc.2
  · exact ht.next (fun _ => id) hc.1 hstep

theorem tick_distances_sample : sample.book.Routed 40 :=
  ((tick_distances_iff reach_sample_any).1 40 ⟨by decide, by decide⟩ (by decide +kernel)).mpr
    ⟨by decide +kernel, by decide +kernel⟩

def belowZero : StockedSide true := Machine.next step (init (OrderPool.init 1)) (.getOrCreate (-2))

theorem reach_belowZero : Reach AnyPrice (OrderPool.init 1) belowZero := by
  have h₀ : Reach AnyPrice (OrderPool.init 1) (init (OrderPool.init 1) : StockedSide true) := ⟨[], .nil _⟩
  exact h₀.next (show InScope _ _ (.getOrCreate (-2)) from ⟨by decide, by decide⟩) (by decide +kernel)

/-- The highest price is 2^63 + 1 ticks worse, which wraps to a negative number. -/
theorem distance_overflows : ¬ ∀ s : StockedSide true, Reach AnyPrice (OrderPool.init 1) s →
    ∀ p ∈ AnyPrice, s.book.hot.empty = false → s.book.Routed p := by
  intro h
  obtain ⟨r, hr, -⟩ := h belowZero reach_belowZero (2 ^ 63 - 1) ⟨by decide, by decide⟩ (by decide +kernel)
  have hover : belowZero.book.hot.rank (2 ^ 63 - 1) = .error .overflow := by decide +kernel
  rw [hover] at hr
  cases hr

end StockedSide

end Llmes
