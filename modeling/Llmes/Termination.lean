import Llmes.Invariants

namespace Llmes

open BookSide BookView LawfulBookSide OrderBook

section Loops

variable {R : Type} {S : Bool → Type} [BookSide S R]

def sweepRound (taker : Side) (orderId : UInt64) : Machine.Step (MatchState S R) Unit Unit Fault := fun m _ => do
  let m ← sweepBest taker orderId m
  pure ((), m)

def Sweeping (taker : Side) (m : MatchState S R) (_ : Unit) : Prop :=
  m.quantity > 0 ∧ empty (m.book.book taker.opposite) = false

def fillRound (taker : Side) (r : R) (orderId : UInt64) : Machine.Step (MatchState S R) Unit Unit Fault :=
  fun m _ => do
    let m ← fillFront taker r orderId m
    pure ((), m)

def Filling (taker : Side) (r : R) (m : MatchState S R) (_ : Unit) : Prop :=
  m.quantity > 0 ∧ (level (m.book.book taker.opposite) r).empty = false

variable [LawfulBookSide S R] {taker : Side} {orderId : UInt64} {cross : Int → Bool}
  {loop : ℕ → MatchState S R → Exec (MatchState S R)} {m m' : MatchState S R} {A : LiveBook} {fuel fuel' : ℕ}
  {p : Int} {r : R}

/-- A bound that is large enough does not show in the result. -/
theorem Sweeps.stable (hloop : Sweeps taker orderId cross loop) (h : Rep m.book A)
    (hfuel : count (m.book.book taker.opposite) ≤ fuel) (hle : fuel ≤ fuel') : loop fuel' m = loop fuel m := by
  induction fuel generalizing m A fuel' with
  | zero =>
    have hdone : ¬ (m.quantity > 0 ∧ empty (m.book.book taker.opposite) = false) := by
      rintro ⟨-, he⟩
      have := count_pos (h.inv taker.opposite) he
      omega
    rw [hloop.done _ _ hdone, hloop.done _ _ hdone]
  | succ fuel ih =>
    by_cases hgo : m.quantity > 0 ∧ empty (m.book.book taker.opposite) = false
    · obtain ⟨fuel', rfl⟩ : ∃ f, fuel' = f + 1 := ⟨fuel' - 1, by omega⟩
      obtain ⟨p, r, hp, hb, hr, -⟩ := best (h.inv taker.opposite) hgo.2
      obtain ⟨m₁, hm₁, -, -, -, hrep, hless⟩ := sweepBest_spec orderId h hgo.2 hp hb hr
      rw [hloop.round fuel m p hgo.1 hgo.2 hp, hloop.round fuel' m p hgo.1 hgo.2 hp, hm₁, ok_bind, ok_bind]
      have hrest : loop fuel' m₁ = loop fuel m₁ := by
        rcases hless with hz | hlt
        · rw [hloop.done _ _ (by simp [hz]), hloop.done _ _ (by simp [hz])]
        · exact ih hrep (by omega) (by omega)
      rw [hrest]
    · rw [hloop.done _ _ hgo, hloop.done _ _ hgo]

theorem fillFront_progress (orderId : UInt64) (h : Rep m.book A) (hr : ref (m.book.book taker.opposite) p = some r)
    (he : (level (m.book.book taker.opposite) r).empty = false) :
    ∃ m' A', fillFront taker r orderId m = .ok m' ∧ Rep m'.book A' ∧
      ref (m'.book.book taker.opposite) p = some r ∧
      ((A'.queue taker.opposite p).map Entry.slot = ((A.queue taker.opposite p).map Entry.slot).tail ∨
        (m'.quantity = 0 ∧ (A'.queue taker.opposite p).map Entry.slot = (A.queue taker.opposite p).map Entry.slot)) := by
  cases hq : A.queue taker.opposite p with
  | nil => simp [h.level_empty hr, hq] at he
  | cons e es =>
    obtain ⟨m', hm', hquantity, -, hc, hrep⟩ := fillFront_spec orderId h hr hq
    refine ⟨m', _, hm', hrep, by rw [hc.ref, hr], ?_⟩
    rw [LiveBook.settle_queue_self]
    by_cases hf : e.quantity - min m.quantity e.quantity = 0
    · left
      have hfc : (⟨e, min m.quantity e.quantity⟩ : Fill).complete = true := by simpa [Fill.complete] using hf
      rw [if_pos hfc]
      rfl
    · right
      have hfc : ¬ (⟨e, min m.quantity e.quantity⟩ : Fill).complete = true := by simpa [Fill.complete] using hf
      rw [if_neg hfc, hquantity]
      exact ⟨sub_min_eq_zero hf, rfl⟩

theorem matchLevel_stable (h : Rep m.book A) (hr : ref (m.book.book taker.opposite) p = some r)
    (hfuel : (A.queue taker.opposite p).length ≤ fuel) (hle : fuel ≤ fuel') :
    matchLevel taker r orderId fuel' m = matchLevel taker r orderId fuel m := by
  induction fuel generalizing m A fuel' with
  | zero =>
    have hq : A.queue taker.opposite p = [] := List.length_eq_zero_iff.mp (by omega)
    have hdone : ¬ (m.quantity > 0 ∧ (level (m.book.book taker.opposite) r).empty = false) := by
      simp [h.level_empty hr, hq]
    rw [matchLevel_done hdone, matchLevel_done hdone]
  | succ fuel ih =>
    by_cases hgo : m.quantity > 0 ∧ (level (m.book.book taker.opposite) r).empty = false
    · obtain ⟨fuel', rfl⟩ : ∃ f, fuel' = f + 1 := ⟨fuel' - 1, by omega⟩
      obtain ⟨m₁, A₁, hm₁, hrep, hr₁, hless⟩ := fillFront_progress orderId h hr hgo.2
      rw [matchLevel_succ hgo.1 hgo.2, matchLevel_succ hgo.1 hgo.2, hm₁, ok_bind, ok_bind]
      rcases hless with htail | ⟨hz, -⟩
      · have hlength := congrArg List.length htail
        rw [List.length_map, List.length_tail, List.length_map] at hlength
        exact ih hrep hr₁ (by omega) (by omega)
      · rw [matchLevel_done (by simp [hz]), matchLevel_done (by simp [hz])]
    · rw [matchLevel_done hgo, matchLevel_done hgo]

variable {b : OrderBook S R}

theorem matchingEngineLimit_within (h : Rep b A) (taker : Side) (orderId quantity : UInt64) (price : Int)
    (out : AddResult) :
    ∃ m, limitLoop taker price orderId (count (b.book taker.opposite)) { book := b, quantity, out } = .ok m ∧
      matchingEngineLimit taker b out orderId price quantity = .ok m := by
  obtain ⟨m, hm, -⟩ := matchingEngineLimit_spec taker h out orderId price quantity
  refine ⟨m, ?_, hm⟩
  rw [← hm]
  exact ((limitLoop_sweeps taker price orderId).stable (m := { book := b, quantity, out }) h le_rfl
    (count_le (h.inv _))).symm

theorem matchingEngineMarket_within (h : Rep b A) (taker : Side) (orderId quantity : UInt64) (out : AddResult) :
    ∃ m, marketLoop taker orderId (count (b.book taker.opposite)) { book := b, quantity, out } = .ok m ∧
      matchingEngineMarket taker b out orderId quantity = .ok m := by
  obtain ⟨m, hm, -⟩ := matchingEngineMarket_spec taker h out orderId quantity
  refine ⟨m, ?_, hm⟩
  rw [← hm]
  exact ((marketLoop_sweeps taker orderId).stable (m := { book := b, quantity, out }) h le_rfl
    (count_le (h.inv _))).symm

end Loops

namespace ArraySideBook

variable {isAsk : Bool} {b b' : ArraySideBook isAsk}

def eraseBestWithin (fuel : ℕ) (b : ArraySideBook isAsk) : Exec (ArraySideBook isAsk) :=
  if b.hasBest && (b.levels b.bestPriceIdx).empty then do
    let tree ← b.activeTree.clear b.bestPriceIdx
    if tree.isEmpty then pure { b with activeTree := tree, hasBest := false }
    else
      let idx ← tree.nextBest isAsk b.bestPriceIdx
      clearGhostBestLevel fuel { b with activeTree := tree, bestPriceIdx := idx }
  else .error .assertion

theorem exists_of_count_lt (h : b'.count < b.count) :
    ∃ i, b.activeTree.test i = true ∧ b'.activeTree.test i = false := by
  unfold count at h
  obtain ⟨i, hi, hi'⟩ := Finset.exists_mem_notMem_of_card_lt_card h
  simp only [Finset.mem_filter, not_and, Bool.not_eq_true] at hi hi'
  exact ⟨i, hi.2, hi' hi.1⟩

theorem clearGhostBestLevel_mono {fuel fuel' : ℕ} (h : clearGhostBestLevel fuel b = .ok b') (hle : fuel ≤ fuel') :
    clearGhostBestLevel fuel' b = .ok b' := by
  induction fuel generalizing b fuel' with
  | zero =>
    rw [clearGhostBestLevel] at h
    split at h
    · cases h
    · next hc =>
      rw [clearGhostBestLevel.eq_def]
      exact (if_neg hc).trans h
  | succ fuel ih =>
    obtain ⟨fuel', rfl⟩ : ∃ f, fuel' = f + 1 := ⟨fuel' - 1, by omega⟩
    rw [clearGhostBestLevel] at h ⊢
    split at h
    · next hc =>
      rw [if_pos hc]
      obtain ⟨tree, htree, h⟩ := bind_eq_ok.mp h
      simp only [htree, ok_bind]
      split at h
      · next he =>
        rw [if_pos he]
        exact h
      · next he =>
        obtain ⟨idx, hidx, h⟩ := bind_eq_ok.mp h
        rw [if_neg he, hidx, ok_bind]
        exact ih h (by omega)
    · next hc =>
      rw [if_neg hc]
      exact h

theorem eraseBest_within (h : b.Inv) (htidy : ∀ i, (b.levels i).head = none → b.levels i = {})
    (hb : b.hasBest = true) (hlevel : b.levels b.bestPriceIdx = {}) :
    ∃ b', b.eraseBest = .ok b' ∧ b.eraseBestWithin (b.count - 1) = .ok b' := by
  have hcond : (b.hasBest && (b.levels b.bestPriceIdx).empty) = true := by simp [hb, hlevel, PriceLevel.empty]
  obtain ⟨tree, hclear, -, hnext⟩ := retireBest_spec h hb hlevel
  simp only [eraseBest, eraseBestWithin, if_pos hcond, hclear, ok_bind, pure_eq_ok]
  cases he : tree.isEmpty with
  | true => exact ⟨_, rfl, rfl⟩
  | false =>
    obtain ⟨idx, hidx, hret⟩ := hnext he
    have hlt : ({ b with activeTree := tree, bestPriceIdx := idx } : ArraySideBook isAsk).count < b.count :=
      count_lt_of_clear (h.best hb).1 hclear
    obtain ⟨b', hb', -⟩ := clearGhostBestLevel_spec hret.inv htidy (Nat.le_sub_one_of_lt hlt)
    have hle : b.count ≤ kBitCount := count_le
    simp only [Bool.false_eq_true, if_false, hidx, ok_bind]
    exact ⟨b', clearGhostBestLevel_mono hb' (by omega), hb'⟩

end ArraySideBook

namespace ArrayBook

variable {b : ArrayBook} {A : LiveBook} {side : Side} {orderId : UInt64} {m m' : MatchState ArraySideBook ℕ} {r : ℕ}

structure Progress (side : Side) (m m' : MatchState ArraySideBook ℕ) : Prop where
  sets : ∀ i, (m'.book.book side.opposite).activeTree.test i = true →
    (m.book.book side.opposite).activeTree.test i = true
  clears : m'.quantity = 0 ∨ ∃ i, (m.book.book side.opposite).activeTree.test i = true ∧
    (m'.book.book side.opposite).activeTree.test i = false

structure Bounded (side : Side) (orderId : UInt64) (r : ℕ) (m : MatchState ArraySideBook ℕ) : Prop where
  level : ∃ m₁, matchLevel side r orderId (m.book.fifo side.opposite r).length m = .ok m₁ ∧
    matchLevel side r orderId m.book.pool.capacity m = .ok m₁ ∧
    ((BookSide.level (m₁.book.book side.opposite) r).empty = true →
      ∃ x, (m₁.book.book side.opposite).eraseBest = .ok x ∧
        (m₁.book.book side.opposite).eraseBestWithin ((m₁.book.book side.opposite).count - 1) = .ok x)
  rounds : ∀ l m₁, Machine.Run (fillRound side r orderId) (Filling side r) m l m₁ →
    l.length ≤ (m.book.fifo side.opposite r).length
  removes : ∀ l m₁, Machine.Run (fillRound side r orderId) (Filling side r) m l m₁ → Filling side r m₁ () →
    ∃ m₂, fillFront side r orderId m₁ = .ok m₂ ∧
      (m₂.book.fifo side.opposite r = (m₁.book.fifo side.opposite r).tail ∨
        (m₂.quantity = 0 ∧ m₂.book.fifo side.opposite r = m₁.book.fifo side.opposite r))

theorem fifo_progress (orderId : UInt64) (h : Rep m.book A) (hr : ref (m.book.book side.opposite) (r : Int) = some r)
    (hgo : Filling side r m ()) : ∃ m', fillFront side r orderId m = .ok m' ∧ (∃ A', Rep m'.book A') ∧
      ref (m'.book.book side.opposite) (r : Int) = some r ∧
      (m'.book.fifo side.opposite r = (m.book.fifo side.opposite r).tail ∨
        (m'.quantity = 0 ∧ m'.book.fifo side.opposite r = m.book.fifo side.opposite r)) := by
  obtain ⟨m', A', hm', hrep, hr', hless⟩ := fillFront_progress orderId h hr hgo.2
  refine ⟨m', hm', ⟨A', hrep⟩, hr', ?_⟩
  rw [fifo_eq hrep, fifo_eq h]
  exact hless

theorem fillRound_eq_ok {u : Unit} :
    fillRound side r orderId m () = .ok (u, m') ↔ fillFront side r orderId m = .ok m' := by
  unfold fillRound
  rw [bind_eq_ok]
  constructor
  · rintro ⟨m₁, hm₁, h⟩
    rw [hm₁, (Prod.mk.inj (Except.ok.inj h)).2]
  · exact fun h => ⟨m', h, rfl⟩

theorem sweepRound_eq_ok {u : Unit} :
    sweepRound side orderId m () = .ok (u, m') ↔ sweepBest side orderId m = .ok m' := by
  unfold sweepRound
  rw [bind_eq_ok]
  constructor
  · rintro ⟨m₁, hm₁, h⟩
    rw [hm₁, (Prod.mk.inj (Except.ok.inj h)).2]
  · exact fun h => ⟨m', h, rfl⟩

def ordersAhead (side : Side) (r : ℕ) (m : MatchState ArraySideBook ℕ) : ℕ :=
  if m.quantity = 0 then 0 else (m.book.fifo side.opposite r).length

def bitsAhead (side : Side) (m : MatchState ArraySideBook ℕ) : ℕ :=
  if m.quantity = 0 then 0 else (m.book.book side.opposite).count

theorem fillRound_step {u : Unit} (h : (∃ A, Rep m.book A) ∧ ref (m.book.book side.opposite) (r : Int) = some r)
    (hgo : Filling side r m u) (hm : fillRound side r orderId m u = .ok (u, m')) :
    ((∃ A, Rep m'.book A) ∧ ref (m'.book.book side.opposite) (r : Int) = some r) ∧
      ordersAhead side r m' < ordersAhead side r m := by
  obtain ⟨⟨A, hrep⟩, hr⟩ := h
  obtain ⟨m₁, hm₁, hrep₁, hr₁, hless⟩ := fifo_progress orderId hrep hr hgo
  obtain rfl := Except.ok.inj ((fillRound_eq_ok.mp hm).symm.trans hm₁)
  refine ⟨⟨hrep₁, hr₁⟩, ?_⟩
  have hne : (m.book.fifo side.opposite r).length ≠ 0 := by
    rw [fifo_eq hrep, List.length_map]
    intro hz
    have he := hgo.2
    rw [hrep.level_empty hr, List.length_eq_zero_iff.mp hz] at he
    cases he
  have hgo' : m.quantity ≠ 0 := pos_iff_ne_zero.mp hgo.1
  simp only [ordersAhead, if_neg hgo']
  split
  · omega
  · next hz =>
    rcases hless with htail | ⟨hz', -⟩
    · rw [htail, List.length_tail]
      omega
    · exact absurd hz' hz

theorem bounded (orderId : UInt64) (h : Rep m.book A) (hgo : Sweeping side m ()) :
    ∃ r, bestLevel (m.book.book side.opposite) = .ok r ∧ Bounded side orderId r m := by
  obtain ⟨p, r, hp, hb, hr, -⟩ := best (h.inv side.opposite) hgo.2
  obtain ⟨rfl, -⟩ := ArraySideBook.ref_eq_some.mp hr
  have hlength : (A.queue side.opposite r).length = (m.book.fifo side.opposite r).length := by
    rw [fifo_eq h, List.length_map]
  refine ⟨r, hb, ?_, ?_, ?_⟩
  · obtain ⟨m₁, hm₁, -, -, hc, hrep₁⟩ := matchLevel_spec orderId h hr rfl hlength.le
    refine ⟨m₁, hm₁, ?_, fun hempty => ?_⟩
    · rw [matchLevel_stable h hr hlength.le (hlength ▸ h.queue_length_le side.opposite r)]
      exact hm₁
    · obtain ⟨he₁, -, hb₁⟩ := best_congr (h.inv _) (hrep₁.inv _) hc.ref hgo.2 hp hb
      have hbest : (m₁.book.book side.opposite).hasBest = true := by
        simpa [BookSide.empty, ArraySideBook.empty] using he₁
      obtain rfl : (m₁.book.book side.opposite).bestPriceIdx = r := by
        simpa [BookSide.bestLevel, ArraySideBook.bestLevel, hbest] using hb₁
      have htidy := (hrep₁.inv side.opposite).tidy (hrep₁.tidy side.opposite)
      exact ArraySideBook.eraseBest_within (hrep₁.inv _) htidy hbest (htidy _ (PriceLevel.empty_iff.mp hempty))
  · intro l m₁ hrun
    have hle := hrun.length_le (ordersAhead side r) (fun _ _ _ _ => fillRound_step) ⟨⟨A, h⟩, hr⟩
    have : ordersAhead side r m ≤ (m.book.fifo side.opposite r).length := by
      unfold ordersAhead
      split <;> omega
    omega
  · intro l m₁ hrun hgo₁
    obtain ⟨⟨A₁, hrep₁⟩, hr₁⟩ := hrun.invariant
      (fun _ _ _ _ hP hok hstep => (fillRound_step hP hok hstep).1) ⟨⟨A, h⟩, hr⟩
    obtain ⟨m₂, hm₂, -, -, hless⟩ := fifo_progress orderId hrep₁ hr₁ hgo₁
    exact ⟨m₂, hm₂, hless⟩

theorem sweepBest_progress (orderId : UInt64) (h : Rep m.book A) (hgo : Sweeping side m ()) :
    ∃ m', sweepBest side orderId m = .ok m' ∧ (∃ A', Rep m'.book A') ∧ Progress side m m' ∧
      bitsAhead side m' < bitsAhead side m := by
  obtain ⟨p, r, hp, hb, hr, -⟩ := best (h.inv side.opposite) hgo.2
  obtain ⟨m', hm', -, -, hs, hrep, hless⟩ := sweepBest_spec orderId h hgo.2 hp hb hr
  have hsets (i : ℕ) (hi : (m'.book.book side.opposite).activeTree.test i = true) :
      (m.book.book side.opposite).activeTree.test i = true := by
    have hne := hs.ref i (by rw [show ref _ (i : Int) = some i from ArraySideBook.ref_eq_some.mpr ⟨rfl, hi⟩]; simp)
    by_contra ht
    refine hne (ArraySideBook.ref_eq_none.mpr (fun j hj => ?_))
    obtain rfl : i = j := by omega
    simpa using ht
  have hpos := count_pos (h.inv side.opposite) hgo.2
  refine ⟨m', hm', ⟨_, hrep⟩, ⟨hsets, hless.imp id (fun hlt => ?_)⟩, ?_⟩
  · exact ArraySideBook.exists_of_count_lt hlt
  · simp only [bitsAhead, if_neg (pos_iff_ne_zero.mp hgo.1)]
    split
    · exact hpos
    · next hz => exact hless.resolve_left hz

/-- Matching ends: every round of the outer loop but the last clears a bit, every round of the inner loop
but the last takes an order out of its level, and ghosts are cleared one at a time. -/
theorem matching_terminates {capacity : ℕ} (h : Reach capacity b) (side : Side) (orderId q : UInt64) (price : Int)
    (out : AddResult) :
    (∃ m, limitLoop side price orderId (b.book side.opposite).count { book := b, quantity := q, out } = .ok m ∧
      matchingEngineLimit side b out orderId price q = .ok m) ∧
    (∃ m, marketLoop side orderId (b.book side.opposite).count { book := b, quantity := q, out } = .ok m ∧
      matchingEngineMarket side b out orderId q = .ok m) ∧
    ∀ l m, Machine.Run (sweepRound side orderId) (Sweeping side) { book := b, quantity := q, out } l m →
      l.length ≤ (b.book side.opposite).count ∧
      (Sweeping side m () → (∃ r, bestLevel (m.book.book side.opposite) = .ok r ∧ Bounded side orderId r m) ∧
        ∃ m', sweepBest side orderId m = .ok m' ∧ Progress side m m') := by
  obtain ⟨A, hrep⟩ := h.good.rep
  refine ⟨matchingEngineLimit_within hrep side orderId q price out, matchingEngineMarket_within hrep side orderId q out, ?_⟩
  · intro l m hrun
    have hstep : ∀ (m : MatchState ArraySideBook ℕ) (i u : Unit) (m' : MatchState ArraySideBook ℕ),
        (∃ A, Rep m.book A) → Sweeping side m i → sweepRound side orderId m i = .ok (u, m') →
        (∃ A, Rep m'.book A) ∧ bitsAhead side m' < bitsAhead side m := by
      rintro m i u m' ⟨A, hA⟩ hgo hm
      obtain ⟨m₁, hm₁, hrep₁, -, hlt⟩ := sweepBest_progress orderId hA hgo
      obtain rfl := Except.ok.inj ((sweepRound_eq_ok.mp hm).symm.trans hm₁)
      exact ⟨hrep₁, hlt⟩
    have hle := hrun.length_le (bitsAhead side) hstep ⟨A, hrep⟩
    have hahead : bitsAhead side { book := b, quantity := q, out } ≤ (b.book side.opposite).count := by
      unfold bitsAhead
      split
      · omega
      · exact le_rfl
    refine ⟨by omega, fun hgo => ?_⟩
    obtain ⟨A', hrep'⟩ := hrun.invariant (fun m i u m' hP hok hs => (hstep m i u m' hP hok hs).1) ⟨A, hrep⟩
    obtain ⟨m', hm', -, hprog, -⟩ := sweepBest_progress orderId hrep' hgo
    exact ⟨bounded orderId hrep' hgo, m', hm', hprog⟩

theorem matching_terminates_sample : ∃ m, limitLoop .buy 101 7 (sample.book .sell).count
    { book := sample, quantity := 9, out := {} } = .ok m :=
  (matching_terminates reach_sample .buy 7 9 101 {}).1.imp (fun _ h => h.1)

end ArrayBook

end Llmes
