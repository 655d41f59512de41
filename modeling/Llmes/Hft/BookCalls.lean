import Llmes.Hft.PriceRange
import Llmes.Hft.TableSteps
import Llmes.Refusal

namespace Llmes

open BookSide BookView LawfulBookSide OrderBook Outcome Hft

theorem Consumed.length_le {es left : Queue} {fills : List Fill} (h : Consumed es left fills) :
    left.length ≤ es.length := by
  cases h with
  | whole done rest => simp
  | part done e v rest hv hlt => simp

namespace ArrayBook

variable {b : ArrayBook} {A : LiveBook}

theorem restRemainder_outOfRange (h : Rep b A) (orderId : UInt64) (side : Side) {price : Int}
    (remaining timestamp : UInt64) (hp : ¬ (0 ≤ price ∧ price < kBitCount)) :
    (b.restRemainder orderId side price remaining timestamp = .error .poolExhausted ∧ A.free = []) ∨
      b.restRemainder orderId side price remaining timestamp = .error .priceRange := by
  cases hf : A.free with
  | nil => exact Or.inl ⟨restRemainder_of_nil h hf, rfl⟩
  | cons n free =>
    right
    have hget : getOrCreate (b.book side) price = .error .priceRange := by
      change ArraySideBook.getOrCreate _ _ = _
      rw [ArraySideBook.getOrCreate, ArraySideBook.idxOf_error hp]
      rfl
    rw [restRemainder_of_cons h hf, hget]
    rfl

theorem addLimitOrder_outOfRange (h : Rep b A) (orderId : UInt64) {side : Side} {price : Int} {quantity : UInt64}
    (timestamp : UInt64) (hp : ¬ (0 ≤ price ∧ price < kBitCount))
    (hq : (A.take side (canCrossLimit side price) quantity).quantity ≠ 0) :
    (b.addLimitOrder orderId side price quantity timestamp = .error .poolExhausted ∧
        (A.take side (canCrossLimit side price) quantity).left.free = []) ∨
      b.addLimitOrder orderId side price quantity timestamp = .error .priceRange := by
  have hz : quantity ≠ 0 := by
    rintro rfl
    exact hq (by rw [LiveBook.take_zero])
  obtain ⟨m, hm, hs⟩ := matchingEngineLimit_spec side h { initialQuantity := quantity } orderId price quantity
  have hmq : m.quantity ≠ 0 := by
    rw [hs.quantity]
    exact hq
  simp only [addLimitOrder, hz, if_false, hm, ok_bind, hmq]
  rcases restRemainder_outOfRange hs.rep orderId side m.quantity timestamp hp with ⟨hr, hf⟩ | hr
  · exact Or.inl ⟨by rw [hr]; rfl, hf⟩
  · exact Or.inr (by rw [hr]; rfl)

def Refused (b : ArrayBook) (A : LiveBook) (f : Fault) : Prop :=
  f = .priceRange ∨ (f = .poolExhausted ∧ b.pool.capacity % 2 ^ 32 ≤ A.live.length)

theorem live_length (h : Rep b A) : A.free.length + A.live.length = b.pool.capacity % 2 ^ 32 := by
  have hl := h.slots.length_eq
  rw [LiveBook.slots, List.length_append, List.length_append, List.length_map, List.length_map,
    List.length_range] at hl
  rw [LiveBook.live, List.length_append, List.length_map, List.length_map]
  exact hl

theorem refused_of_full (op : Op) (h : Rep b A) {t : Taken LiveBook} (ht : A.matching op = some t)
    (hf : t.left.free = []) : Refused b A .poolExhausted := by
  have hempty : A.free = [] := by
    obtain ⟨A₁, side, cross, rfl, ⟨-, rfl⟩ | ⟨i, x, -, -, rfl⟩⟩ := LiveBook.matching_eq_take ht
    · rw [LiveBook.take_left_free] at hf
      exact (List.append_eq_nil_iff.mp hf).2
    · rw [LiveBook.take_left_free, LiveBook.remove, LiveBook.setQueue_free] at hf
      exact absurd (List.append_eq_nil_iff.mp hf).2 (List.cons_ne_nil _ _)
  have hl := live_length h
  rw [hempty, List.length_nil, Nat.zero_add] at hl
  exact Or.inr ⟨rfl, hl.ge⟩

theorem exec_ends (h : Rep b A) (op : Op) (hlive : op.Live A) :
    Ends (fun f => Refused b A f ∧ (op.Indexed → f ≠ .priceRange)) (fun r => ∃ A', A.exec op = some (r.1, A') ∧ Moved op.price b r.2 A') (b.exec op) := by
  by_cases hadm : op.Admissible b A
  · rcases exec_spec h op hlive hadm with ⟨hb, hA⟩ | ⟨hp, -⟩ | ⟨reply, b', A', hb, hA, hm⟩
    · obtain ⟨m, t, -, ht, -⟩ := matching_spec h op hlive
      rw [hb]
      exact ⟨refused_of_full op h ht ((LiveBook.exec_eq_none ht).mp hA).2.2, fun _ h => by cases h⟩
    · exact absurd hp id
    · rw [hb]
      exact ⟨A', hA, hm⟩
  · cases op with
    | limit orderId side price quantity timestamp =>
      obtain ⟨hq, hp⟩ := Classical.not_imp.mp hadm
      rcases addLimitOrder_outOfRange h orderId timestamp hp hq with ⟨hb, hf⟩ | hb
      · rw [exec, hb]
        exact ⟨refused_of_full (.limit orderId side price quantity timestamp) h rfl hf, fun _ h => by cases h⟩
      · rw [exec, hb]
        exact ⟨Or.inl rfl, fun hop => absurd (hop price rfl) hp⟩
    | market orderId side quantity timestamp => exact absurd trivial hadm
    | modify handle side price quantity timestamp =>
      obtain ⟨x, b₁, hx, hres, hb₁, hid, hmoved, -⟩ := h.remove_live hlive
      have hadm' : ¬ (((A.remove x).take side (canCrossLimit side price) quantity).quantity ≠ 0 →
          0 ≤ price ∧ price < kBitCount) := by
        intro hall
        apply hadm
        intro y hy hq
        obtain rfl := Option.some.inj (hx.symm.trans hy)
        exact hall hq
      obtain ⟨hq, hp⟩ := Classical.not_imp.mp hadm'
      have hmod : b.modifyOrder handle side price quantity timestamp =
          b₁.addLimitOrder x.2.id side price quantity timestamp := by
        simp only [modifyOrder, hres, ok_bind, hb₁, hid]
      rcases addLimitOrder_outOfRange hmoved.rep x.2.id timestamp hp hq with ⟨hb, hf⟩ | hb
      · rw [exec, hmod, hb]
        refine ⟨refused_of_full (.modify handle side price quantity timestamp) h ?_ hf, fun _ h => by cases h⟩
        rw [LiveBook.matching, hx]
        rfl
      · rw [exec, hmod, hb]
        exact ⟨Or.inl rfl, fun hop => absurd (hop price rfl) hp⟩
    | cancel handle => exact absurd trivial hadm

end ArrayBook

namespace LiveBook

variable {A A' : LiveBook} {reply : Reply}

structure Added (A : LiveBook) (orderId : UInt64) (side : Side) (price : Int) (quantity timestamp : UInt64)
    (reply : Reply) (A' : LiveBook) : Prop where
  code : replyCode reply = .success
  trades : reply.trades = (A.take side (canCrossLimit side price) quantity).fills.map (Fill.trade orderId)
  remaining : reply.remaining = (A.take side (canCrossLimit side price) quantity).quantity
  left : reply.remaining = 0 → A' = (A.take side (canCrossLimit side price) quantity).left
  rests : reply.remaining ≠ 0 → (A.take side (canCrossLimit side price) quantity).left.rest orderId side price
    reply.remaining timestamp = some (reply.handle, A')

theorem limit_added {orderId : UInt64} {side : Side} {price : Int} {quantity timestamp : UInt64} {out : AddResult}
    (hq : quantity ≠ 0) (h : A.limit orderId side price quantity timestamp = some (out, A')) :
    Added A orderId side price quantity timestamp (.added out) A' := by
  unfold limit at h
  rw [if_neg hq] at h
  dsimp only at h
  split at h
  · next hz =>
    obtain ⟨rfl, rfl⟩ := Prod.mk.inj (Option.some.inj h)
    exact ⟨rfl, foldl_addFill_trades _ _ _, rfl, fun _ => rfl, fun hne => absurd hz hne⟩
  · next hz =>
    obtain ⟨⟨n, A₁⟩, hrest, h⟩ := Option.map_eq_some_iff.mp h
    obtain ⟨rfl, rfl⟩ := Prod.mk.inj h
    exact ⟨rfl, foldl_addFill_trades _ _ _, rfl, fun hz' => absurd hz' hz, fun _ => hrest⟩

theorem market_added (A : LiveBook) (orderId : UInt64) (side : Side) {quantity : UInt64} (hq : quantity ≠ 0) :
    (replyCode (.added (A.market orderId side quantity).1) = .success ∨
      replyCode (.added (A.market orderId side quantity).1) = .marketRemainderCancelled) ∧
    (A.market orderId side quantity).1.trades =
      (A.take side (fun _ => true) quantity).fills.map (Fill.trade orderId) ∧
    (A.market orderId side quantity).2 = (A.take side (fun _ => true) quantity).left := by
  unfold market
  rw [if_neg hq]
  dsimp only
  split
  · exact ⟨Or.inl rfl, foldl_addFill_trades _ _ _, rfl⟩
  · exact ⟨Or.inr rfl, foldl_addFill_trades _ _ _, rfl⟩

theorem take_origin {taker : Side} {cross : Int → Bool} {q : UInt64} {y : Side × Entry}
    (hy : y ∈ (A.take taker cross q).left.live) : ∃ x ∈ A.live, x.2.id = y.2.id := by
  rw [mem_live] at hy
  by_cases hs : y.1 = taker.opposite
  · rw [hs] at hy
    obtain ⟨e, he, hc⟩ := (consumed_take taker cross q).origin hy
    exact ⟨(taker.opposite, e), mem_live.mpr he, hc.id.symm⟩
  · rw [take_orders_of_ne taker cross q hs] at hy
    exact ⟨y, mem_live.mpr hy, rfl⟩

theorem take_live_length (A : LiveBook) (taker : Side) (cross : Int → Bool) (q : UInt64) :
    (A.take taker cross q).left.live.length ≤ A.live.length := by
  have hle := (consumed_take (A := A) taker cross q).length_le
  have hown := take_orders_of_ne (A := A) taker cross q taker.opposite_ne.symm
  rw [(A.live_perm taker).length_eq, ((A.take taker cross q).left.live_perm taker).length_eq, hown]
  simp only [List.length_append, List.length_map]
  omega

theorem take_of_orders_nil {taker : Side} (h : A.orders taker.opposite = []) (cross : Int → Bool) (q : UInt64) :
    (A.take taker cross q).fills = [] ∧ (A.take taker cross q).quantity = q ∧
      (A.take taker cross q).left.live.Perm A.live := by
  have hconsumed := consumed_take (A := A) taker cross q
  have hfills : (A.take taker cross q).fills = [] := by
    rw [List.eq_nil_iff_forall_not_mem]
    intro f hf
    have hmem := hconsumed.maker_mem hf
    rw [h] at hmem
    exact List.not_mem_nil hmem
  refine ⟨hfills, UInt64.toNat_inj.mp ?_, ?_⟩
  · have htotal := takeLevels_total cross q (A.side taker.opposite).entries
    rw [← take_fills, ← take_quantity, hfills] at htotal
    simpa [total] using htotal
  · have hleft : (A.take taker cross q).left.orders taker.opposite = [] := by
      have hlen := hconsumed.length_le
      rw [h] at hlen
      exact List.length_eq_zero_iff.mp (Nat.le_zero.mp hlen)
    have hperm := (A.take taker cross q).left.live_perm taker
    rw [hleft, take_orders_of_ne taker cross q taker.opposite_ne.symm, ← h] at hperm
    exact hperm.trans (A.live_perm taker).symm

theorem take_of_live_nil (h : A.live = []) (taker : Side) (cross : Int → Bool) (q : UInt64) :
    (A.take taker cross q).fills = [] ∧ (A.take taker cross q).quantity = q := by
  have hnil : A.orders taker.opposite = [] := by
    rw [List.eq_nil_iff_forall_not_mem]
    intro e he
    have hmem : (taker.opposite, e) ∈ A.live := mem_live.mpr he
    rw [h] at hmem
    exact List.not_mem_nil hmem
  obtain ⟨hfills, hquantity, -⟩ := take_of_orders_nil hnil cross q
  exact ⟨hfills, hquantity⟩

end LiveBook

end Llmes
