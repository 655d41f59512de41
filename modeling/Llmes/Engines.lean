import Llmes.Refusal

namespace Llmes

open BookSide BookView LawfulBookSide OrderBook

variable {R : Type} {S : Bool → Type}

structure Alike (taker : Side) (m m' : MatchState S R) : Prop where
  quantity : m'.quantity = m.quantity
  out : m'.out = m.out
  makers : m'.makers = m.makers
  pool : m'.book.pool = m.book.pool
  own : m'.book.book taker = m.book.book taker

theorem Alike.refl (taker : Side) (m : MatchState S R) : Alike taker m m := ⟨rfl, rfl, rfl, rfl, rfl⟩

theorem Alike.trans {taker : Side} {m m' m'' : MatchState S R} (h : Alike taker m m')
    (h' : Alike taker m' m'') : Alike taker m m'' :=
  ⟨h'.quantity.trans h.quantity, h'.out.trans h.out, h'.makers.trans h.makers, h'.pool.trans h.pool,
    h'.own.trans h.own⟩

variable [BookSide S R] [LawfulBookSide S R] {taker : Side} {orderId : UInt64} {cross : Int → Bool}
  {loop loop' : ℕ → MatchState S R → Exec (MatchState S R)} {m : MatchState S R} {A : LiveBook} {fuel : ℕ}

theorem sweepBest_idle (orderId : UInt64) {p : Int} {r : R} (h : Rep m.book A)
    (he : empty (m.book.book taker.opposite) = false)
    (hp : bestPrice (m.book.book taker.opposite) = .ok p)
    (hb : bestLevel (m.book.book taker.opposite) = .ok r)
    (hr : ref (m.book.book taker.opposite) p = some r) (hq : A.queue taker.opposite p = []) :
    ∃ m', sweepBest taker orderId m = .ok m' ∧ Alike taker m m' ∧ Rep m'.book A ∧
      count (m'.book.book taker.opposite) < count (m.book.book taker.opposite) := by
  have hempty : (level (m.book.book taker.opposite) r).empty = true := by
    rw [h.level_empty hr, hq]
    rfl
  have hvoid := h.tidy _ p r hr (PriceLevel.empty_iff.mp hempty)
  obtain ⟨oppo, hoppo, herased⟩ := eraseBest_spec (h.inv _) (h.tidy _) he hp hb hvoid
  have hdone : matchLevel taker r orderId m.book.pool.capacity m = .ok m := matchLevel_done (by simp [hempty])
  simp only [sweepBest, hb, ok_bind, hdone, hempty, if_true, hoppo, pure_eq_ok]
  refine ⟨_, rfl, ⟨rfl, rfl, rfl, ?_, ?_⟩, h.drop herased.inv herased.keeps, ?_⟩
  · simp
  · exact OrderBook.setBook_book_of_ne _ _ _ taker.opposite_ne.symm
  · simpa using herased.count_lt

theorem Sweeps.idle (hloop : Sweeps taker orderId (fun _ => true) loop) (h : Rep m.book A)
    (hq : ∀ p, A.queue taker.opposite p = []) (hfuel : count (m.book.book taker.opposite) ≤ fuel) :
    ∃ m', loop fuel m = .ok m' ∧ Alike taker m m' ∧ Rep m'.book A := by
  induction fuel generalizing m with
  | zero =>
    refine ⟨m, hloop.done _ _ ?_, .refl _ _, h⟩
    rintro ⟨-, he⟩
    have := count_pos (h.inv taker.opposite) he
    omega
  | succ fuel ih =>
    by_cases hgo : m.quantity > 0 ∧ empty (m.book.book taker.opposite) = false
    · obtain ⟨p, r, hp, hb, hr, -⟩ := best (h.inv taker.opposite) hgo.2
      obtain ⟨m₁, hm₁, halike, hrep₁, hlt⟩ := sweepBest_idle orderId h hgo.2 hp hb hr (hq p)
      obtain ⟨m', hm', halike', hrep'⟩ := ih hrep₁ (by omega)
      refine ⟨m', ?_, halike.trans halike', hrep'⟩
      rw [hloop.round fuel m p hgo.1 hgo.2 hp, if_pos rfl, hm₁, ok_bind]
      exact hm'
    · exact ⟨m, hloop.done _ _ hgo, .refl _ _, h⟩

theorem Sweeps.alike (hloop : Sweeps taker orderId cross loop) (hface : Facing taker cross)
    (hloop' : Sweeps taker orderId (fun _ => true) loop') (h : Rep m.book A)
    (hcross : ∀ p, A.queue taker.opposite p ≠ [] → cross p = true)
    (hfuel : count (m.book.book taker.opposite) ≤ fuel) :
    ∃ m₁ m₂ A', loop fuel m = .ok m₁ ∧ loop' fuel m = .ok m₂ ∧ Alike taker m₁ m₂ ∧
      Rep m₁.book A' ∧ Rep m₂.book A' := by
  induction fuel generalizing m A with
  | zero =>
    have hdone : ¬ (m.quantity > 0 ∧ empty (m.book.book taker.opposite) = false) := by
      rintro ⟨-, he⟩
      have := count_pos (h.inv taker.opposite) he
      omega
    exact ⟨m, m, A, hloop.done _ _ hdone, hloop'.done _ _ hdone, .refl _ _, h, h⟩
  | succ fuel ih =>
    by_cases hgo : m.quantity > 0 ∧ empty (m.book.book taker.opposite) = false
    · obtain ⟨p, r, hp, hb, hr, hbest⟩ := best (h.inv taker.opposite) hgo.2
      cases hc : cross p with
      | false =>
        have hq (p' : Int) : A.queue taker.opposite p' = [] := by
          by_contra hne
          have hp' := hcross p' hne
          rcases hbest p' (h.ref_ne_none hne) with rfl | hlt
          · rw [hc] at hp'
            cases hp'
          · rw [hface p p' hlt hc] at hp'
            cases hp'
        obtain ⟨m₂, hm₂, halike, hrep⟩ := hloop'.idle h hq hfuel
        refine ⟨m, m₂, A, ?_, hm₂, halike, h, hrep⟩
        rw [hloop.round fuel m p hgo.1 hgo.2 hp, hc]
        rfl
      | true =>
        obtain ⟨m', hm', -, -, -, hrep, hless⟩ := sweepBest_spec orderId h hgo.2 hp hb hr
        rw [hloop.round fuel m p hgo.1 hgo.2 hp, hloop'.round fuel m p hgo.1 hgo.2 hp, hc, if_pos rfl, hm',
          ok_bind, ok_bind]
        rcases hless with hz | hlt
        · have hdone : ¬ (m'.quantity > 0 ∧ empty (m'.book.book taker.opposite) = false) := by simp [hz]
          exact ⟨m', m', _, hloop.done _ _ hdone, hloop'.done _ _ hdone, .refl _ _, hrep, hrep⟩
        · refine ih hrep (fun p' hp' => ?_) (by omega)
          by_cases hpp : p' = p
          · rw [hpp, hc]
          · apply hcross
            rw [LiveBook.settle, LiveBook.queue_setQueue, if_neg (by simp [hpp]), LiveBook.queue_withFree] at hp'
            exact hp'
    · exact ⟨m, m, A, hloop.done _ _ hgo, hloop'.done _ _ hgo, .refl _ _, h, h⟩

namespace ArrayBook

variable {b : ArrayBook} {A : LiveBook} {side : Side} {price : Int} {q : UInt64}

theorem canCross_queue (h : Rep b A)
    (hcross : ∀ i, ∀ o ∈ b.fifo side.opposite i, canCrossLimit side price (b.pool.slots o).price = true)
    (p : Int) (hp : A.queue side.opposite p ≠ []) : canCrossLimit side price p = true := by
  obtain ⟨h₀, -⟩ := queue_range h _ p hp
  obtain ⟨i, rfl⟩ : ∃ i : ℕ, p = i := ⟨p.toNat, by omega⟩
  obtain ⟨e, he⟩ := List.exists_mem_of_ne_nil _ hp
  have hl := rep_level h side.opposite i
  obtain ⟨-, hprice, -⟩ := payload_fields (hl.order e he)
  have ho := hcross i e.slot (by rw [fifo_eq h]; exact List.mem_map_of_mem he)
  rwa [hprice, hl.price e he] at ho

theorem engines_alike (h : Rep b A) (hcross : ∀ p, A.queue side.opposite p ≠ [] → canCrossLimit side price p = true)
    (out : AddResult) (orderId : UInt64) (q : UInt64) :
    ∃ m₁ m₂ A', matchingEngineLimit side b out orderId price q = .ok m₁ ∧
      matchingEngineMarket side b out orderId q = .ok m₂ ∧ Alike side m₁ m₂ ∧ Rep m₁.book A' ∧ Rep m₂.book A' :=
  (limitLoop_sweeps side price orderId).alike (m := { book := b, quantity := q, out })
    (canCrossLimit_facing side price) (marketLoop_sweeps side orderId) h hcross (count_le (h.inv side.opposite))

theorem market_is_limit {capacity : ℕ} (h : Reach capacity b) (hq : q ≠ 0)
    (hcross : ∀ i, ∀ o ∈ b.fifo side.opposite i, canCrossLimit side price (b.pool.slots o).price = true)
    (orderId timestamp : UInt64) :
    (∀ out, ∃ m₁ m₂, matchingEngineLimit side b out orderId price q = .ok m₁ ∧
      matchingEngineMarket side b out orderId q = .ok m₂ ∧ m₁.out = m₂.out ∧ m₁.quantity = m₂.quantity ∧
      (∀ s i, m₁.book.fifo s i = m₂.book.fifo s i) ∧ m₁.book.pool = m₂.book.pool) ∧
    ∃ out₂ b₂, b.addMarketOrder orderId side q timestamp = .ok (out₂, b₂) ∧
      (out₂.remainingQuantity = 0 → ∃ b₁, b.addLimitOrder orderId side price q timestamp = .ok (out₂, b₁) ∧
        b₁.pool = b₂.pool ∧ ∀ s i, b₁.fifo s i = b₂.fifo s i) ∧
      (out₂.remainingQuantity ≠ 0 → 0 ≤ price → price < kBitCount → b₂.pool.acquire.1 ≠ kInvalidHandle →
        ∃ n b₁, b.addLimitOrder orderId side price q timestamp =
            .ok ({ out₂ with code := .success, handle := n }, b₁) ∧
          ∀ s (i : ℕ), contents b₁ s i = contents b₂ s i ++
            if s = side ∧ i = price then [⟨n.toNat, orderId, price, out₂.remainingQuantity, timestamp⟩]
            else []) := by
  obtain ⟨A, hrep⟩ := h.good.rep
  have hall := canCross_queue hrep hcross
  have hfifo {b₁ b₂ : ArrayBook} {A' : LiveBook} (h₁ : Rep b₁ A') (h₂ : Rep b₂ A') (s : Side) (i : ℕ) :
      b₁.fifo s i = b₂.fifo s i := by
    rw [fifo_eq h₁, fifo_eq h₂]
  refine ⟨fun out => ?_, ?_⟩
  · obtain ⟨m₁, m₂, A', hm₁, hm₂, halike, hrep₁, hrep₂⟩ := engines_alike hrep hall out orderId q
    exact ⟨m₁, m₂, hm₁, hm₂, halike.out.symm, halike.quantity.symm, hfifo hrep₁ hrep₂, halike.pool.symm⟩
  · obtain ⟨m₁, m₂, A', hm₁, hm₂, halike, hrep₁, hrep₂⟩ :=
      engines_alike hrep hall { initialQuantity := q } orderId q
    simp only [addMarketOrder, addLimitOrder, if_neg hq, hm₁, hm₂, ok_bind, pure_eq_ok, halike.quantity, halike.out]
    by_cases hz : m₁.quantity = 0
    · simp only [if_pos hz]
      exact ⟨_, _, rfl, fun _ => ⟨_, rfl, halike.pool.symm, hfifo hrep₁ hrep₂⟩, fun hne => absurd hz hne⟩
    · simp only [if_neg hz]
      refine ⟨_, _, rfl, fun heq => absurd heq hz, ?_⟩
      intro _ h₀ h₁ hacq
      rw [halike.pool, Ne, acquire_invalid_iff hrep₁] at hacq
      have hadm : Admits (m₁.book.book side) price := ⟨h₀, h₁⟩
      rcases restRemainder_spec orderId timestamp hrep₁ hz hadm with
        ⟨-, hA⟩ | ⟨hpool, -⟩ | ⟨n, b', A'', hb', hA, hrep', -⟩
      · exact absurd (LiveBook.rest_eq_none.mp hA) hacq
      · exact absurd hpool id
      · refine ⟨n, b', by rw [hb']; rfl, fun s i => ?_⟩
        rw [contents_eq hrep', contents_eq hrep₂]
        exact hrep₁.rest_queue hA s i

theorem market_is_limit_sample : ∃ out₂ b₂, sample.addMarketOrder 7 .buy 9 5 = .ok (out₂, b₂) ∧
    ∃ n b₁, sample.addLimitOrder 7 .buy 4095 9 5 = .ok ({ out₂ with code := .success, handle := n }, b₁) := by
  obtain ⟨A, hrep⟩ := reach_sample.good.rep
  have hcross : ∀ i, ∀ o ∈ sample.fifo (Side.opposite .buy) i,
      canCrossLimit .buy 4095 (sample.pool.slots o).price = true := by
    intro i o ho
    rw [fifo_eq hrep] at ho
    obtain ⟨e, he, rfl⟩ := List.mem_map.mp ho
    have hl := rep_level hrep (Side.opposite .buy) i
    obtain ⟨-, hprice, -⟩ := payload_fields (hl.order e he)
    have hlt := (queue_range hrep _ i (List.ne_nil_of_mem he)).2
    rw [hprice, hl.price e he, canCrossLimit, decide_eq_true_eq]
    simp only [kBitCount] at hlt
    omega
  obtain ⟨out₂, b₂, hb₂, -, hrest⟩ := (market_is_limit reach_sample (show (9 : UInt64) ≠ 0 by decide) hcross 7 5).2
  have hafter (f : AddResult × ArrayBook → Bool)
      (hf : ((sample.addMarketOrder 7 .buy 9 5).toOption.map f) = some true) : f (out₂, b₂) = true := by
    rw [hb₂] at hf
    exact Option.some.inj hf
  have hrem := hafter (fun r => r.1.remainingQuantity ≠ 0) (by decide +kernel)
  have hfree := hafter (fun r => r.2.pool.acquire.1 ≠ kInvalidHandle) (by decide +kernel)
  simp only [decide_eq_true_eq] at hrem hfree
  obtain ⟨n, b₁, hb₁, -⟩ := hrest hrem (by norm_num) (by decide) hfree
  exact ⟨out₂, b₂, hb₂, n, b₁, hb₁⟩

end ArrayBook

end Llmes
