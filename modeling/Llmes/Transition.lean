import Llmes.Scope
import Llmes.Taking

namespace Llmes

open BookSide BookView LawfulBookSide OrderBook

structure Ticket where
  id : UInt64
  side : Side
  price : Int
  timestamp : UInt64

def Ticket.entry (k : Ticket) (slot : ℕ) (quantity : UInt64) : Entry :=
  ⟨slot, k.id, k.price, quantity, k.timestamp⟩

namespace LiveBook

def ticket (A : LiveBook) : Op → Option Ticket
  | .limit orderId side price _ timestamp => some ⟨orderId, side, price, timestamp⟩
  | .modify h side price _ timestamp =>
    (A.locate h.toNat).map (fun x => ⟨x.2.id, side, price, timestamp⟩)
  | _ => none

variable {A : LiveBook}

theorem mem_remove (h : A.Sound) {s : Side} {e : Entry} (he : e ∈ A.orders s) {s' : Side} {e' : Entry} :
    e' ∈ (A.remove (s, e)).orders s' ↔ e' ∈ A.orders s' ∧ e'.slot ≠ e.slot := by
  have hq := (h.order he).1
  have hmem (p : Int) : e' ∈ (A.remove (s, e)).queue s' p ↔ e' ∈ A.queue s' p ∧ e'.slot ≠ e.slot := by
    rw [remove, queue_setQueue]
    by_cases hsp : s' = s ∧ p = e.price
    · obtain ⟨rfl, rfl⟩ := hsp
      simp
    · rw [if_neg hsp, queue_withFree]
      exact ⟨fun he' => ⟨he', h.slot_ne hq he' hsp⟩, And.left⟩
  simp only [mem_orders, hmem, exists_and_right]

theorem rest_cases {orderId : UInt64} {side : Side} {price : Int} {remaining timestamp : UInt64}
    {n : OrderHandle} {A' : LiveBook} (h : A.rest orderId side price remaining timestamp = some (n, A')) :
    ∃ i free, A.free = i :: free ∧ n = UInt32.ofNat i ∧ ∀ s' e', e' ∈ A'.orders s' ↔
      e' ∈ A.orders s' ∨ (s' = side ∧ e' = ⟨i, orderId, price, remaining, timestamp⟩) := by
  unfold rest at h
  split at h
  · cases h
  · next i free hf =>
    simp only [Option.some.injEq, Prod.mk.injEq] at h
    obtain ⟨rfl, rfl⟩ := h
    refine ⟨i, free, hf, rfl, fun s' e' => ?_⟩
    simp only [mem_orders, queue_setQueue, queue_withFree]
    constructor
    · rintro ⟨p, he⟩
      split at he
      · next hsp =>
        obtain ⟨rfl, rfl⟩ := hsp
        rcases List.mem_append.mp he with he | he
        · exact Or.inl ⟨_, he⟩
        · exact Or.inr ⟨rfl, List.mem_singleton.mp he⟩
      · exact Or.inl ⟨p, he⟩
    · rintro (⟨p, he⟩ | ⟨rfl, rfl⟩)
      · refine ⟨p, ?_⟩
        split
        · next hsp =>
          obtain ⟨rfl, rfl⟩ := hsp
          exact List.mem_append_left _ he
        · exact he
      · exact ⟨price, by simp⟩

theorem consumed_take (taker : Side) (cross : Int → Bool) (q : UInt64) :
    Consumed (A.orders taker.opposite) ((A.take taker cross q).left.orders taker.opposite)
      (A.take taker cross q).fills := by
  rw [take_fills, orders, orders, Levels.orders, Levels.orders, take_left_entries]
  exact consumed_takeLevels cross q _

theorem take_orders_of_ne (taker : Side) (cross : Int → Bool) (q : UInt64) {s : Side}
    (hs : s ≠ taker.opposite) : (A.take taker cross q).left.orders s = A.orders s := by
  rw [orders, take_left_side_of_ne _ _ _ _ hs]
  rfl

theorem matching_eq_take {op : Op} {t : Taken LiveBook} (ht : A.matching op = some t) :
    ∃ A₁ side cross, t = LiveBook.take A₁ side cross op.quantity ∧
      ((op.handle = none ∧ A₁ = A) ∨
        ∃ h x, op.handle = some h ∧ A.locate h.toNat = some x ∧ A₁ = A.remove x) := by
  cases op with
  | limit orderId side price quantity timestamp =>
    obtain rfl := Option.some.inj ht
    exact ⟨A, _, _, rfl, Or.inl ⟨rfl, rfl⟩⟩
  | market orderId side quantity timestamp =>
    obtain rfl := Option.some.inj ht
    exact ⟨A, _, _, rfl, Or.inl ⟨rfl, rfl⟩⟩
  | modify handle side price quantity timestamp =>
    obtain ⟨x, hx, rfl⟩ := Option.map_eq_some_iff.mp ht
    exact ⟨A.remove x, _, _, rfl, Or.inr ⟨handle, x, rfl, hx, rfl⟩⟩
  | cancel handle =>
    obtain ⟨x, hx, rfl⟩ := Option.map_eq_some_iff.mp ht
    exact ⟨A.remove x, .buy, fun _ => true, (take_zero _ _ _).symm, Or.inr ⟨handle, x, rfl, hx, rfl⟩⟩

structure Traffic (A : LiveBook) (op : Op) (fills : List Fill) (A' : LiveBook) : Prop where
  nonzero : ∀ f ∈ fills, f.quantity ≠ 0
  maker : ∀ f ∈ fills, ∃ s, f.maker ∈ A.orders s ∧ ∀ h ∈ op.handle, h.toNat ≠ f.maker.slot
  origin : ∀ s, ∀ e' ∈ A'.orders s, ∃ e ∈ A.orders s, e.Continues e' ∧
    ∀ h ∈ op.handle, h.toNat ≠ e.slot
  track : ∀ s, ∀ e ∈ A.orders s, (∀ h ∈ op.handle, h.toNat ≠ e.slot) →
    (∃ e' ∈ A'.orders s, e.Continues e' ∧ e'.quantity.toNat + volume e.slot fills = e.quantity.toNat) ∨
    (volume e.slot fills = e.quantity.toNat ∧ ∀ s', ∀ e' ∈ A'.orders s', e'.slot ≠ e.slot)

theorem traffic_take {A₁ : LiveBook} (h : A₁.Sound) {op : Op}
    (hmem : ∀ s e, e ∈ A₁.orders s ↔ e ∈ A.orders s ∧ ∀ i ∈ op.handle, i.toNat ≠ e.slot)
    (taker : Side) (cross : Int → Bool) (q : UInt64) :
    Traffic A op (A₁.take taker cross q).fills (A₁.take taker cross q).left where
  nonzero _ hf := (consumed_take taker cross q).quantity_ne_zero (fun _ he => (h.order he).2) hf
  maker f hf := ⟨taker.opposite, (hmem _ _).mp ((consumed_take taker cross q).maker_mem hf)⟩
  origin s e' he' := by
    by_cases hs : s = taker.opposite
    · subst hs
      obtain ⟨e, he, hc⟩ := (consumed_take taker cross q).origin he'
      obtain ⟨he, hne⟩ := (hmem _ _).mp he
      exact ⟨e, he, hc, hne⟩
    · rw [take_orders_of_ne taker cross q hs] at he'
      obtain ⟨he, hne⟩ := (hmem _ _).mp he'
      exact ⟨e', he, .refl e', hne⟩
  track s e he hne := by
    have he₁ : e ∈ A₁.orders s := (hmem s e).mpr ⟨he, hne⟩
    have hc := consumed_take (A := A₁) taker cross q
    by_cases hs : s = taker.opposite
    · subst hs
      rcases hc.track (h.orders_nodup _) he₁ with hleft | ⟨hvol, hgone⟩
      · exact Or.inl hleft
      · refine Or.inr ⟨hvol, fun s' e' he' => ?_⟩
        by_cases hs' : s' = taker.opposite
        · subst hs'
          exact hgone e' he'
        · rw [take_orders_of_ne taker cross q hs'] at he'
          exact h.slot_ne_of_side he₁ he' hs'
    · left
      refine ⟨e, ?_, .refl e, ?_⟩
      · rw [take_orders_of_ne taker cross q hs]
        exact he₁
      · rw [volume_eq_zero]
        · omega
        · exact fun f hf => h.slot_ne_of_side he₁ (hc.maker_mem hf) (Ne.symm hs)

theorem foldl_addFill_handle (orderId : UInt64) (fills : List Fill) (out : AddResult) :
    (fills.foldl (AddResult.addFill orderId) out).handle = out.handle := by
  induction fills generalizing out with
  | nil => rfl
  | cons f fills ih => rw [List.foldl_cons, ih]; rfl

theorem limit_cases {orderId : UInt64} {side : Side} {price : Int} {quantity timestamp : UInt64}
    {out : AddResult} {A' : LiveBook} {t : Taken LiveBook}
    (h : A.limit orderId side price quantity timestamp = some (out, A'))
    (ht : A.take side (canCrossLimit side price) quantity = t) :
    (A' = t.left ∧ out.handle = kInvalidHandle ∧ out.remainingQuantity = 0) ∨
    (t.quantity ≠ 0 ∧ out.remainingQuantity = t.quantity ∧
      t.left.rest orderId side price t.quantity timestamp = some (out.handle, A')) := by
  unfold limit at h
  rw [ht] at h
  by_cases hz : quantity = 0
  · rw [if_pos hz] at h
    rw [hz, take_zero] at ht
    obtain ⟨rfl, rfl⟩ := Prod.mk.inj (Option.some.inj h)
    subst ht
    exact Or.inl ⟨rfl, rfl, rfl⟩
  · rw [if_neg hz] at h
    dsimp only at h
    split at h
    · next hleft =>
      obtain ⟨rfl, rfl⟩ := Prod.mk.inj (Option.some.inj h)
      exact Or.inl ⟨rfl, foldl_addFill_handle _ _ _, hleft⟩
    · next hleft =>
      obtain ⟨⟨n, A₁⟩, hrest, h⟩ := Option.map_eq_some_iff.mp h
      obtain ⟨rfl, rfl⟩ := Prod.mk.inj h
      exact Or.inr ⟨hleft, rfl, hrest⟩

theorem market_left (orderId : UInt64) (side : Side) (quantity : UInt64) :
    (A.market orderId side quantity).2 = (A.take side (fun _ => true) quantity).left ∧
      (A.market orderId side quantity).1.handle = kInvalidHandle := by
  by_cases hz : quantity = 0
  · simp [market, hz, take_zero]
  · by_cases hq : (A.take side (fun _ => true) quantity).quantity = 0 <;>
      simp [market, hz, hq, foldl_addFill_handle]

theorem exec_cases {op : Op} {reply : Reply} {A' : LiveBook} {t : Taken LiveBook}
    (h : A.exec op = some (reply, A')) (ht : A.matching op = some t) :
    (A' = t.left ∧ reply.handle = kInvalidHandle ∧ (A.ticket op ≠ none → reply.remaining = 0)) ∨
    (∃ k, A.ticket op = some k ∧ t.quantity ≠ 0 ∧ reply.remaining = t.quantity ∧
      t.left.rest k.id k.side k.price t.quantity k.timestamp = some (reply.handle, A')) := by
  cases op with
  | limit orderId side price quantity timestamp =>
    obtain ⟨⟨out, A₁⟩, ho, h⟩ := Option.map_eq_some_iff.mp h
    obtain ⟨rfl, rfl⟩ := Prod.mk.inj h
    rcases limit_cases ho (Option.some.inj ht) with ⟨hleft, hh, hr⟩ | ⟨hq, hr, hrest⟩
    · exact Or.inl ⟨hleft, hh, fun _ => hr⟩
    · exact Or.inr ⟨_, rfl, hq, hr, hrest⟩
  | market orderId side quantity timestamp =>
    obtain ⟨rfl, rfl⟩ := Prod.mk.inj (Option.some.inj h)
    obtain rfl := Option.some.inj ht
    obtain ⟨hleft, hh⟩ := market_left (A := A) orderId side quantity
    exact Or.inl ⟨hleft, hh, fun hn => absurd rfl hn⟩
  | modify handle side price quantity timestamp =>
    obtain ⟨x, hx, ht⟩ := Option.map_eq_some_iff.mp ht
    simp only [exec, hx] at h
    obtain ⟨⟨out, A₁⟩, ho, h⟩ := Option.map_eq_some_iff.mp h
    obtain ⟨rfl, rfl⟩ := Prod.mk.inj h
    rcases limit_cases ho ht with ⟨hleft, hh, hr⟩ | ⟨hq, hr, hrest⟩
    · exact Or.inl ⟨hleft, hh, fun _ => hr⟩
    · exact Or.inr ⟨_, by rw [ticket, hx]; rfl, hq, hr, hrest⟩
  | cancel handle =>
    obtain ⟨x, hx, rfl⟩ := Option.map_eq_some_iff.mp ht
    simp only [exec, hx] at h
    obtain ⟨rfl, rfl⟩ := Prod.mk.inj (Option.some.inj h)
    exact Or.inl ⟨rfl, rfl, fun hn => absurd rfl hn⟩

end LiveBook

variable {R : Type} {S : Bool → Type} [BookSide S R] [LawfulBookSide S R] {b : OrderBook S R}
  {A : LiveBook}

theorem Rep.rest_queue (h : Rep b A) {orderId : UInt64} {side : Side} {price : Int}
    {remaining timestamp : UInt64} {n : OrderHandle} {A' : LiveBook}
    (hrest : A.rest orderId side price remaining timestamp = some (n, A')) (s : Side) (p : Int) :
    A'.queue s p = A.queue s p ++
      if s = side ∧ p = price then [⟨n.toNat, orderId, price, remaining, timestamp⟩] else [] := by
  unfold LiveBook.rest at hrest
  split at hrest
  · cases hrest
  · next i free hf =>
    simp only [Option.some.injEq, Prod.mk.injEq] at hrest
    obtain ⟨rfl, rfl⟩ := hrest
    have hi := (Rep.ofNat_ne_invalid (h.slot_lt_max (h.free_cons hf).1).1).2
    rw [LiveBook.queue_setQueue, hi]
    split
    · next hsp => rw [hsp.1, hsp.2]
    · rw [List.append_nil, LiveBook.queue_withFree]

theorem matching_traffic (h : Rep b A) {op : Op} {t : Taken LiveBook} (ht : A.matching op = some t) :
    LiveBook.Traffic A op t.fills t.left := by
  obtain ⟨A₁, side, cross, rfl, ⟨hop, rfl⟩ | ⟨i, x, hop, hx, rfl⟩⟩ := LiveBook.matching_eq_take ht
  · apply LiveBook.traffic_take h.sound
    simp [hop]
  · obtain ⟨hmem, hslot⟩ := LiveBook.locate_eq_some hx
    apply LiveBook.traffic_take (h.remove_sound hx)
    intro s e
    rw [LiveBook.mem_remove h.sound hmem, hop, hslot]
    simp [eq_comm]

end Llmes
