import Llmes.Invariants
import Llmes.Transition

namespace Llmes

open BookSide BookView LawfulBookSide OrderBook

def tradedQuantity (trades : List Trade) : ℕ := (trades.map (fun t => t.quantity.toNat)).sum

section Loops

variable {S : Bool → Type} {R : Type}

structure Balanced (q : UInt64) (m : MatchState S R) : Prop where
  initial : m.out.initialQuantity = q
  sum : m.out.filledQuantity.toNat + m.quantity.toNat = q.toNat
  filled : tradedQuantity m.out.trades = m.out.filledQuantity.toNat
  wrapped : m.wrapped = false

variable {taker : Side} {r : R} {orderId q : UInt64} {m m' : MatchState S R}

theorem Balanced.start (b : OrderBook S R) (q : UInt64) :
    Balanced q { book := b, quantity := q, out := { initialQuantity := q } } :=
  ⟨rfl, Nat.zero_add _, rfl, rfl⟩

theorem Balanced.withBook (h : Balanced q m) (b : OrderBook S R) : Balanced q { m with book := b } :=
  ⟨h.initial, h.sum, h.filled, h.wrapped⟩

variable [BookSide S R]

theorem Balanced.fillFront (h : Balanced q m) (hm : fillFront taker r orderId m = .ok m') :
    Balanced q m' := by
  unfold OrderBook.fillFront at hm
  obtain ⟨i, -, hm⟩ := bind_eq_ok.mp hm
  set maker := m.book.pool.slots i
  set fill := min m.quantity maker.quantity
  have hq : fill.toNat ≤ m.quantity.toNat := UInt64.le_iff_toNat_le.mp (min_le_left _ _)
  have hmaker : fill ≤ maker.quantity := min_le_right _ _
  have hsub : (m.quantity - fill).toNat = m.quantity.toNat - fill.toNat := toNat_sub_min_left _ _
  have hsum := h.sum
  have hlt := UInt64.toNat_lt q
  have hadd : (m.out.filledQuantity + fill).toNat = m.out.filledQuantity.toNat + fill.toNat := by
    rw [UInt64.toNat_add]
    apply Nat.mod_eq_of_lt
    omega
  have hround : Balanced q { m with
      quantity := m.quantity - fill
      out := { m.out with
        trades := m.out.trades ++ [⟨orderId, maker.id, maker.price, fill⟩]
        filledQuantity := m.out.filledQuantity + fill }
      makers := m.makers ++ [i]
      wrapped := m.wrapped || decide (maker.quantity < fill) || decide (m.quantity < fill) ||
        decide (2 ^ 64 ≤ m.out.filledQuantity.toNat + fill.toNat) } := by
    constructor
    · exact h.initial
    · dsimp only
      rw [hadd, hsub]
      omega
    · have hfilled := h.filled
      simp only [tradedQuantity, List.map_append, List.sum_append, List.map_cons, List.map_nil,
        List.sum_cons, List.sum_nil, hadd] at hfilled ⊢
      omega
    · simp only [h.wrapped, Bool.false_or, Bool.or_eq_false_iff, decide_eq_false_iff_not,
        UInt64.not_lt, not_le]
      exact ⟨⟨hmaker, min_le_left _ _⟩, by omega⟩
  dsimp only at hm
  split at hm <;>
    · obtain rfl := Except.ok.inj hm
      exact hround.withBook _

theorem Balanced.matchLevel {fuel : ℕ} (h : Balanced q m)
    (hm : matchLevel taker r orderId fuel m = .ok m') : Balanced q m' := by
  induction fuel generalizing m with
  | zero =>
    rw [OrderBook.matchLevel.eq_def] at hm
    dsimp only at hm
    split at hm
    · cases hm
    · exact Except.ok.inj hm ▸ h
  | succ fuel ih =>
    rw [OrderBook.matchLevel.eq_def] at hm
    dsimp only at hm
    split at hm
    · obtain ⟨m₁, hm₁, hm⟩ := bind_eq_ok.mp hm
      exact ih (h.fillFront hm₁) hm
    · exact Except.ok.inj hm ▸ h

theorem Balanced.sweepBest (h : Balanced q m) (hm : sweepBest taker orderId m = .ok m') :
    Balanced q m' := by
  obtain ⟨r, -, hm⟩ := bind_eq_ok.mp hm
  obtain ⟨m₁, hm₁, hm⟩ := bind_eq_ok.mp hm
  have h₁ := h.matchLevel hm₁
  split at hm
  · obtain ⟨x, -, hm⟩ := bind_eq_ok.mp hm
    exact Except.ok.inj hm ▸ h₁.withBook _
  · exact Except.ok.inj hm ▸ h₁

theorem Balanced.limitLoop {price : Int} {fuel : ℕ} (h : Balanced q m)
    (hm : limitLoop taker price orderId fuel m = .ok m') : Balanced q m' := by
  induction fuel generalizing m with
  | zero =>
    rw [OrderBook.limitLoop.eq_def] at hm
    dsimp only at hm
    split at hm
    · cases hm
    · exact Except.ok.inj hm ▸ h
  | succ fuel ih =>
    rw [OrderBook.limitLoop.eq_def] at hm
    dsimp only at hm
    split at hm
    · obtain ⟨p, -, hm⟩ := bind_eq_ok.mp hm
      split at hm
      · obtain ⟨m₁, hm₁, hm⟩ := bind_eq_ok.mp hm
        exact ih (h.sweepBest hm₁) hm
      · exact Except.ok.inj hm ▸ h
    · exact Except.ok.inj hm ▸ h

theorem Balanced.marketLoop {fuel : ℕ} (h : Balanced q m)
    (hm : marketLoop taker orderId fuel m = .ok m') : Balanced q m' := by
  induction fuel generalizing m with
  | zero =>
    rw [OrderBook.marketLoop.eq_def] at hm
    dsimp only at hm
    split at hm
    · cases hm
    · exact Except.ok.inj hm ▸ h
  | succ fuel ih =>
    rw [OrderBook.marketLoop.eq_def] at hm
    dsimp only at hm
    split at hm
    · obtain ⟨m₁, hm₁, hm⟩ := bind_eq_ok.mp hm
      exact ih (h.sweepBest hm₁) hm
    · exact Except.ok.inj hm ▸ h

theorem Balanced.matchLimit {b : OrderBook S R} {side : Side} {price : Int}
    (hm : b.matchLimit orderId side price q = .ok m) : Balanced q m := by
  unfold OrderBook.matchLimit at hm
  split at hm
  · next hq =>
    subst hq
    exact Except.ok.inj hm ▸ Balanced.start b 0
  · exact (Balanced.start b q).limitLoop hm

theorem Balanced.matchMarket {b : OrderBook S R} {side : Side}
    (hm : b.matchMarket orderId side q = .ok m) : Balanced q m := by
  unfold OrderBook.matchMarket at hm
  split at hm
  · next hq =>
    subst hq
    exact Except.ok.inj hm ▸ Balanced.start b 0
  · exact (Balanced.start b q).marketLoop hm

theorem Balanced.matching {b : OrderBook S R} {op : Op} (hm : b.matching op = .ok m) :
    Balanced op.quantity m := by
  cases op with
  | limit orderId side price quantity timestamp => exact .matchLimit hm
  | market orderId side quantity timestamp => exact .matchMarket hm
  | modify handle side price quantity timestamp =>
    obtain ⟨i, -, hm⟩ := bind_eq_ok.mp hm
    obtain ⟨b₁, -, hm⟩ := bind_eq_ok.mp hm
    exact .matchLimit hm
  | cancel handle =>
    obtain ⟨i, -, hm⟩ := bind_eq_ok.mp hm
    obtain ⟨b₁, -, hm⟩ := bind_eq_ok.mp hm
    exact Except.ok.inj hm ▸ Balanced.start b₁ 0

end Loops

def held (q : Queue) : ℕ := (q.map (fun e => e.quantity.toNat)).sum

theorem held_perm {q q' : Queue} (h : q.Perm q') : held q = held q' := by
  apply List.Perm.sum_eq
  exact h.map _

@[simp] theorem held_append (q q' : Queue) : held (q ++ q') = held q + held q' := by
  simp [held]

theorem held_singleton (e : Entry) : held [e] = e.quantity.toNat := by
  simp [held]

theorem held_filter {q : Queue} (hnd : (q.map Entry.slot).Nodup) {e : Entry} (he : e ∈ q) :
    held (q.filter (fun e' => e'.slot ≠ e.slot)) + e.quantity.toNat = held q := by
  obtain ⟨xs, ys, rfl⟩ := List.append_of_mem he
  rw [filter_slot_ne hnd, List.append_cons]
  simp only [held_append, held_singleton]
  omega

namespace LiveBook

variable {A : LiveBook}

def held (A : LiveBook) : ℕ := Llmes.held (A.orders .buy) + Llmes.held (A.orders .sell)

theorem held_side (A : LiveBook) (s : Side) :
    A.held = Llmes.held (A.orders s) + Llmes.held (A.orders s.opposite) := by
  cases s
  · rfl
  · exact Nat.add_comm _ _

theorem held_setQueue (A : LiveBook) (free : List ℕ) (s : Side) (p : Int) (q : Queue) :
    (({ A with free } : LiveBook).setQueue s p q).held + Llmes.held (A.queue s p) =
      A.held + Llmes.held q := by
  have hother : (({ A with free } : LiveBook).setQueue s p q).orders s.opposite = A.orders s.opposite := by
    rw [orders, setQueue_side_of_ne _ _ _ _ s.opposite_ne, side_withFree]
    rfl
  have hself := held_perm (Levels.orders_setQueue (A.side s) p q)
  have hbefore : Llmes.held (A.orders s) = _ := held_perm (Levels.orders_perm (A.side s) p)
  rw [held_append] at hself hbefore
  have hside : (({ A with free } : LiveBook).setQueue s p q).orders s =
      Levels.orders (Levels.setQueue (A.side s) p q) := by
    rw [orders, setQueue_side_self, side_withFree]
  rw [held_side _ s, held_side A s, hother, hside, hself, hbefore, queue]
  omega

theorem held_remove (h : A.Sound) {s : Side} {e : Entry} (he : e ∈ A.orders s) :
    (A.remove (s, e)).held + e.quantity.toNat = A.held := by
  have hq := held_filter (h.queue_nodup s e.price) (h.order he).1
  have := held_setQueue A (e.slot :: A.free) s e.price
    ((A.queue s e.price).filter (fun e' => e'.slot ≠ e.slot))
  rw [remove]
  dsimp only at this ⊢
  omega

theorem held_rest {orderId : UInt64} {side : Side} {price : Int} {remaining timestamp : UInt64}
    {n : OrderHandle} {A' : LiveBook} (h : A.rest orderId side price remaining timestamp = some (n, A')) :
    A'.held = A.held + remaining.toNat := by
  unfold rest at h
  split at h
  · cases h
  · next i free hf =>
    obtain ⟨-, rfl⟩ := Prod.mk.inj (Option.some.inj h)
    have := held_setQueue A free side price
      (A.queue side price ++ [Entry.mk i orderId price remaining timestamp])
    rw [held_append, held_singleton] at this
    dsimp only at this
    omega

theorem held_take (A : LiveBook) (taker : Side) (cross : Int → Bool) (q : UInt64) :
    q.toNat + A.held =
      2 * total (A.take taker cross q).fills + (A.take taker cross q).left.held +
        (A.take taker cross q).quantity.toNat := by
  have htaker := takeLevels_total cross q (A.side taker.opposite).entries
  rw [← take_fills A taker cross q, ← take_quantity A taker cross q] at htaker
  have hmakers := (consumed_take (A := A) taker cross q).total_eq
  have hother := take_orders_of_ne (A := A) taker cross q taker.opposite_ne.symm
  rw [held_side A taker, held_side _ taker, hother]
  simp only [Llmes.held]
  omega

def removed (A : LiveBook) (op : Op) : ℕ :=
  match op.handle with
  | none => 0
  | some h => ((A.locate h.toNat).map (fun x => x.2.quantity.toNat)).getD 0

theorem matching_held (h : A.Sound) {op : Op} {t : Taken LiveBook} (ht : A.matching op = some t) :
    op.quantity.toNat + A.held =
      2 * total t.fills + t.left.held + t.quantity.toNat + A.removed op := by
  obtain ⟨A₁, side, cross, rfl, ⟨hop, rfl⟩ | ⟨i, x, hop, hx, rfl⟩⟩ := matching_eq_take ht
  · rw [removed, hop]
    exact held_take A₁ side cross op.quantity
  · obtain ⟨s, e⟩ := x
    have hremove := held_remove h (locate_eq_some hx).1
    have htake := held_take (A.remove (s, e)) side cross op.quantity
    simp only [removed, hop, hx, Option.map_some, Option.getD_some]
    dsimp only at hremove
    omega

end LiveBook

namespace ArrayBook

variable {b b' : ArrayBook} {A : LiveBook} {op : Op} {reply : Reply}

def restingQuantity (b : ArrayBook) : ℕ :=
  ((b.resting .buy ++ b.resting .sell).map (fun i => (b.pool.slots i).quantity.toNat)).sum

def removedQuantity (b : ArrayBook) (op : Op) : ℕ :=
  match op.handle with
  | none => 0
  | some h => (b.pool.slots h.toNat).quantity.toNat

def discardedQuantity : Op → Reply → ℕ
  | .market _ _ _ _, reply => reply.remaining.toNat
  | _, _ => 0

structure Flow where
  reply : Reply
  removed : ℕ
  deriving DecidableEq

def audited (b : ArrayBook) (op : Op) : Exec (Flow × ArrayBook) := do
  let r ← b.exec op
  pure (⟨r.1, b.removedQuantity op⟩, r.2)

def submitted (l : List (Op × Flow)) : ℕ := (l.map (fun x => x.1.quantity.toNat)).sum

def traded (l : List (Op × Flow)) : ℕ := (l.map (fun x => tradedQuantity x.2.reply.trades)).sum

def removed (l : List (Op × Flow)) : ℕ := (l.map (fun x => x.2.removed)).sum

def discarded (l : List (Op × Flow)) : ℕ := (l.map (fun x => discardedQuantity x.1 x.2.reply)).sum

theorem restingQuantity_eq (h : Rep b A) : b.restingQuantity = A.held := by
  have hside (s : Side) :
      ((b.resting s).map (fun i => (b.pool.slots i).quantity.toNat)).sum = held (A.orders s) := by
    rw [((resting_perm h s).map _).sum_eq, List.map_map, held]
    congr 1
    apply List.map_congr_left
    intro e he
    obtain ⟨-, r, -, hpay, -⟩ := h.order_spec he
    exact congrArg UInt64.toNat (payload_fields hpay).2.2.1
  rw [restingQuantity, List.map_append, List.sum_append, hside, hside, LiveBook.held]

theorem removedQuantity_eq (h : Rep b A) (hlive : op.Live A) : b.removedQuantity op = A.removed op := by
  have hone {i : OrderHandle} (hi : A.locate i.toNat ≠ none) : (b.pool.slots i.toNat).quantity.toNat =
      ((A.locate i.toNat).map (fun x => x.2.quantity.toNat)).getD 0 := by
    obtain ⟨x, hx⟩ := Option.ne_none_iff_exists'.mp hi
    obtain ⟨hmem, hslot⟩ := LiveBook.locate_eq_some hx
    obtain ⟨-, r, -, hpay, -⟩ := h.order_spec hmem
    rw [hslot] at hpay
    rw [hx, (payload_fields hpay).2.2.1]
    rfl
  cases op with
  | modify handle side price quantity timestamp => exact hone hlive
  | cancel handle => exact hone hlive
  | _ => rfl

theorem tradedQuantity_fills (orderId : UInt64) (fills : List Fill) :
    tradedQuantity (fills.map (Fill.trade orderId)) = total fills := by
  rw [tradedQuantity, List.map_map]
  rfl

theorem exec_balance (hs : InScope b op) (h : Rep b A) (hb : b.exec op = .ok (reply, b')) :
    op.quantity.toNat + b.restingQuantity = 2 * tradedQuantity reply.trades + b'.restingQuantity +
      b.removedQuantity op + discardedQuantity op reply := by
  have hlive := (h.live_iff op).mpr hs.live
  obtain ⟨reply', b'', A', hb', hA, hmoved⟩ := hs.exec h
  obtain ⟨rfl, rfl⟩ := Prod.mk.inj (Except.ok.inj (hb.symm.trans hb'))
  obtain ⟨m, t, hm, ht, hphase⟩ := matching_spec h op hlive
  obtain ⟨m', hm', htrades, hremaining, -⟩ := exec_matching hb
  obtain rfl := Except.ok.inj (hm.symm.trans hm')
  have hmatch := LiveBook.matching_held h.sound ht
  rw [htrades, hphase.trades, tradedQuantity_fills, restingQuantity_eq h, restingQuantity_eq hmoved.rep,
    removedQuantity_eq h hlive]
  rw [hphase.quantity] at hremaining
  rcases LiveBook.exec_cases hA ht with ⟨rfl, -, hzero⟩ | ⟨k, hk, -, -, hrest⟩
  · have hleft : discardedQuantity op reply = t.quantity.toNat := by
      cases op with
      | limit orderId side price quantity timestamp =>
        rw [← hremaining, hzero (by simp [LiveBook.ticket])]
        rfl
      | market orderId side quantity timestamp => exact congrArg UInt64.toNat hremaining
      | modify handle side price quantity timestamp =>
        obtain ⟨x, hx, -⟩ := Option.map_eq_some_iff.mp ht
        rw [← hremaining, hzero (by simp [LiveBook.ticket, hx])]
        rfl
      | cancel handle =>
        obtain ⟨x, -, rfl⟩ := Option.map_eq_some_iff.mp ht
        rfl
    omega
  · have hrested := LiveBook.held_rest hrest
    have hnone : discardedQuantity op reply = 0 := by
      cases op with
      | market orderId side quantity timestamp => cases hk
      | _ => rfl
    omega

theorem audited_eq_ok {b : ArrayBook} {x : Flow} : b.audited op = .ok (x, b') ↔
    b.exec op = .ok (x.reply, b') ∧ x.removed = b.removedQuantity op := by
  obtain ⟨reply, n⟩ := x
  simp only [audited, bind_eq_ok, pure_eq_ok, Except.ok.injEq, Prod.mk.injEq, Flow.mk.injEq]
  constructor
  · rintro ⟨⟨reply', b₁⟩, hb, ⟨rfl, rfl⟩, rfl⟩
    exact ⟨hb, rfl⟩
  · rintro ⟨hb, rfl⟩
    exact ⟨_, hb, ⟨rfl, rfl⟩, rfl⟩

theorem quantity_conserved (capacity : ℕ) :
    (∀ b op out b', Reach capacity b → InScope b op → b.exec op = .ok (.added out, b') →
      out.code ≠ .invalidQuantity →
      out.initialQuantity = op.quantity ∧
      out.filledQuantity.toNat + out.remainingQuantity.toNat = out.initialQuantity.toNat ∧
      tradedQuantity out.trades = out.filledQuantity.toNat ∧
      (∀ t ∈ out.trades, t.quantity > 0) ∧
      ∀ m, b.matching op = .ok m → m.wrapped = false) ∧
    ∀ l b, Machine.Run audited InScope (init capacity) l b →
      submitted l = 2 * traded l + b.restingQuantity + removed l + discarded l := by
  refine ⟨?_, ?_⟩
  · intro b op out b' hreach hs hb _
    obtain ⟨A, hrep⟩ := hreach.good.rep
    obtain ⟨m, hm, -, -, hreports⟩ := exec_matching hb
    obtain ⟨m', t, hm', ht, hphase⟩ := matching_spec hrep op ((hrep.live_iff op).mpr hs.live)
    obtain rfl := Except.ok.inj (hm.symm.trans hm')
    have hbal := Balanced.matching hm
    have hr := hreports out rfl
    rw [hr.initialQuantity, hr.filledQuantity, hr.remainingQuantity, hr.trades]
    refine ⟨hbal.initial, by rw [hbal.initial]; exact hbal.sum, hbal.filled, ?_, ?_⟩
    · intro trade htrade
      rw [hphase.trades] at htrade
      obtain ⟨f, hf, rfl⟩ := List.mem_map.mp htrade
      exact pos_iff_ne_zero.mpr ((matching_traffic hrep ht).nonzero f hf)
    · intro m' hm'
      obtain rfl := Except.ok.inj (hm.symm.trans hm')
      exact hbal.wrapped
  · intro l b hrun
    have hinit : (init capacity).restingQuantity = 0 := restingQuantity_eq (rep_init capacity)
    have hbal := hrun.balance (P := Reach capacity) restingQuantity (fun x => x.1.quantity.toNat)
      (fun x => 2 * tradedQuantity x.2.reply.trades + x.2.removed + discardedQuantity x.1 x.2.reply)
      ?_ ⟨[], .nil _⟩
    · rw [List.sum_map_add, List.sum_map_add, List.sum_map_mul_left, hinit] at hbal
      simp only [submitted, traded, removed, discarded]
      omega
    · intro b op x b' hreach hs hx
      obtain ⟨hb, hx⟩ := audited_eq_ok.mp hx
      obtain ⟨A, hrep⟩ := hreach.good.rep
      have hcall := exec_balance hs hrep hb
      refine ⟨hreach.step hs hb, ?_⟩
      dsimp only
      omega

theorem quantity_conserved_partial :
    (∀ m, ((init 4).after (.limit 1 .buy 100 5 0)).matching (.market 2 .sell 3 1) = .ok m →
      m.wrapped = false) ∧
    restingQuantity (((init 4).after (.limit 1 .buy 100 5 0)).after (.market 2 .sell 3 1)) = 2 := by
  have h₀ : Reach 4 (init 4) := ⟨[], .nil _⟩
  have hs₀ : InScope (init 4) (.limit 1 .buy 100 5 0) :=
    .of_add rfl (by simp [Op.price, kBitCount]) (by decide +kernel)
  have hb₀ : (init 4).exec (.limit 1 .buy 100 5 0) =
      .ok (.added { initialQuantity := 5, remainingQuantity := 5, handle := 3 },
        (init 4).after (.limit 1 .buy 100 5 0)) := exec_after (by decide +kernel)
  have hs₁ : InScope ((init 4).after (.limit 1 .buy 100 5 0)) (.market 2 .sell 3 1) :=
    .of_add rfl (by simp [Op.price]) (by decide +kernel)
  have hb₁ : ((init 4).after (.limit 1 .buy 100 5 0)).exec (.market 2 .sell 3 1) =
      .ok (.added { initialQuantity := 3, filledQuantity := 3, trades := [⟨2, 1, 100, 3⟩] },
        ((init 4).after (.limit 1 .buy 100 5 0)).after (.market 2 .sell 3 1)) :=
    exec_after (by decide +kernel)
  obtain ⟨hcall, hrun⟩ := quantity_conserved 4
  refine ⟨(hcall _ _ _ _ (h₀.after hs₀) hs₁ hb₁ (by decide)).2.2.2.2, ?_⟩
  have hx₀ := audited_eq_ok.mpr ⟨hb₀, show (Flow.mk _ 0).removed = _ from rfl⟩
  have hx₁ := audited_eq_ok.mpr ⟨hb₁, show (Flow.mk _ 0).removed = _ from rfl⟩
  have hbal := hrun _ _ (.cons hs₀ hx₀ (.cons hs₁ hx₁ (.nil _)))
  simp [submitted, traded, removed, discarded, Op.quantity, Reply.trades, tradedQuantity,
    discardedQuantity, Reply.remaining] at hbal
  omega

end ArrayBook

end Llmes
