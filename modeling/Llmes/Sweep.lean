import Llmes.Matching

namespace Llmes

open BookSide BookView LawfulBookSide OrderBook

variable {R : Type} {S : Bool → Type} [BookSide S R]

structure Sweeps (taker : Side) (orderId : UInt64) (cross : Int → Bool)
    (loop : ℕ → MatchState S R → Exec (MatchState S R)) : Prop where
  done : ∀ fuel m, ¬ (m.quantity > 0 ∧ empty (m.book.book taker.opposite) = false) →
    loop fuel m = .ok m
  round : ∀ fuel m p, m.quantity > 0 → empty (m.book.book taker.opposite) = false →
    bestPrice (m.book.book taker.opposite) = .ok p →
    loop (fuel + 1) m = if cross p then sweepBest taker orderId m >>= loop fuel else .ok m

theorem limitLoop_sweeps (taker : Side) (price : Int) (orderId : UInt64) :
    Sweeps taker orderId (canCrossLimit taker price)
      (limitLoop (S := S) (R := R) taker price orderId) where
  done fuel m h := by
    rw [limitLoop.eq_def]
    exact if_neg h
  round fuel m p hq he hp := by
    rw [limitLoop.eq_def]
    refine (if_pos ⟨hq, he⟩).trans ?_
    simp only [hp, ok_bind, pure_eq_ok]

theorem marketLoop_sweeps (taker : Side) (orderId : UInt64) :
    Sweeps taker orderId (fun _ => true) (marketLoop (S := S) (R := R) taker orderId) where
  done fuel m h := by
    rw [marketLoop.eq_def]
    exact if_neg h
  round fuel m p hq he _ := by
    rw [marketLoop.eq_def]
    exact if_pos ⟨hq, he⟩

def Facing (taker : Side) (cross : Int → Bool) : Prop :=
  ∀ p p', PriceCompare taker.opposite.isAsk p p' → cross p = false → cross p' = false

theorem canCrossLimit_facing (taker : Side) (price : Int) :
    Facing taker (canCrossLimit taker price) := by
  intro p p' h
  cases taker <;> simp [Side.opposite, Side.isAsk, canCrossLimit] at * <;> omega

theorem true_facing (taker : Side) : Facing taker (fun _ => true) := fun _ _ _ h => h

variable [LawfulBookSide S R] {taker : Side} {orderId : UInt64} {cross : Int → Bool}
  {loop : ℕ → MatchState S R → Exec (MatchState S R)} {m : MatchState S R} {A : LiveBook}

theorem Rep.ref_ne_none {b : OrderBook S R} (h : Rep b A) {s : Side} {p : Int}
    (hq : A.queue s p ≠ []) : ref (b.book s) p ≠ none :=
  fun hr => hq (h.absent s p hr)

structure Swept (taker : Side) (orderId : UInt64) (cross : Int → Bool) (m m' : MatchState S R)
    (t : Taken LiveBook) : Prop where
  quantity : m'.quantity = t.quantity
  traded : Traded orderId t.fills m m'
  spared : Spared taker m.book m'.book
  rep : Rep m'.book t.left
  stop : m'.quantity = 0 ∨ ∀ p, ref (m'.book.book taker.opposite) p ≠ none → cross p = false

theorem Swept.done (h : Rep m.book A)
    (hcross : ∀ p, ref (m.book.book taker.opposite) p ≠ none → cross p = false) :
    Swept taker orderId cross m m (A.take taker cross m.quantity) := by
  rw [LiveBook.take_of_not_cross (fun p hp => hcross p (h.ref_ne_none hp)) (h.proper _)]
  exact ⟨rfl, .refl _ _, .refl _ _, h, Or.inr hcross⟩

theorem Sweeps.spec (hloop : Sweeps taker orderId cross loop) (hface : Facing taker cross)
    {fuel : ℕ} (h : Rep m.book A) (hfuel : count (m.book.book taker.opposite) ≤ fuel) :
    ∃ m', loop fuel m = .ok m' ∧ Swept taker orderId cross m m' (A.take taker cross m.quantity) := by
  induction fuel generalizing m A with
  | zero =>
    cases he : empty (m.book.book taker.opposite) with
    | true =>
      refine ⟨m, hloop.done _ _ (by simp [he]), Swept.done h (fun p hp => ?_)⟩
      exact absurd ((empty_iff (h.inv _)).mp he p) hp
    | false =>
      have := count_pos (h.inv taker.opposite) he
      omega
  | succ fuel ih =>
    by_cases hz : m.quantity = 0
    · refine ⟨m, hloop.done _ _ (by simp [hz]), ?_⟩
      rw [hz, LiveBook.take_zero]
      exact ⟨hz, .refl _ _, .refl _ _, h, Or.inl hz⟩
    cases he : empty (m.book.book taker.opposite) with
    | true =>
      refine ⟨m, hloop.done _ _ (by simp [he]), Swept.done h (fun p hp => ?_)⟩
      exact absurd ((empty_iff (h.inv _)).mp he p) hp
    | false =>
      obtain ⟨p, r, hp, hb, hr, hbest⟩ := best (h.inv taker.opposite) he
      rw [hloop.round fuel m p (pos_iff_ne_zero.mpr hz) he hp]
      cases hcross : cross p with
      | false =>
        refine ⟨m, rfl, Swept.done h (fun p' hp' => ?_)⟩
        rcases hbest p' hp' with rfl | hlt
        · exact hcross
        · exact hface p p' hlt hcross
      | true =>
        obtain ⟨m₁, hm₁, hq₁, ht₁, hs₁, hrep₁, hless⟩ :=
          sweepBest_spec orderId h he hp hb hr
        have hround := LiveBook.take_round (q := m.quantity) (h.proper _) hcross
          (fun p' hp' => hbest p' (h.ref_ne_none hp'))
        obtain ⟨m', hm', hm⟩ : ∃ m', loop fuel m₁ = .ok m' ∧ Swept taker orderId cross m₁ m'
            ((A.settle (takeQueue m.quantity (A.queue taker.opposite p)).fills taker.opposite p
              (takeQueue m.quantity (A.queue taker.opposite p)).left).take taker cross m₁.quantity) := by
          rcases hless with hz₁ | hlt
          · refine ⟨m₁, hloop.done _ _ (by simp [hz₁]), ?_⟩
            rw [hz₁, LiveBook.take_zero]
            exact ⟨hz₁, .refl _ _, .refl _ _, hrep₁, Or.inl hz₁⟩
          · exact ih hrep₁ (by omega)
        rw [hq₁] at hm
        rw [hround]
        simp only [if_true, hm₁, ok_bind]
        exact ⟨m', hm', hm.quantity, ht₁.trans hm.traded, hs₁.trans hm.spared, hm.rep, hm.stop⟩

variable {b : OrderBook S R}

theorem matchingEngineLimit_spec (taker : Side) (h : Rep b A) (out : AddResult) (orderId : UInt64)
    (price : Int) (quantity : UInt64) :
    ∃ m', matchingEngineLimit taker b out orderId price quantity = .ok m' ∧
      Swept taker orderId (canCrossLimit taker price) { book := b, quantity, out } m'
        (A.take taker (canCrossLimit taker price) quantity) :=
  (limitLoop_sweeps taker price orderId).spec (m := { book := b, quantity, out })
    (canCrossLimit_facing taker price) h (count_le (h.inv taker.opposite))

theorem matchingEngineMarket_spec (taker : Side) (h : Rep b A) (out : AddResult) (orderId : UInt64)
    (quantity : UInt64) :
    ∃ m', matchingEngineMarket taker b out orderId quantity = .ok m' ∧
      Swept taker orderId (fun _ => true) { book := b, quantity, out } m'
        (A.take taker (fun _ => true) quantity) :=
  (marketLoop_sweeps taker orderId).spec (m := { book := b, quantity, out })
    (true_facing taker) h (count_le (h.inv taker.opposite))

end Llmes
