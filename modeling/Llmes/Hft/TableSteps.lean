import Llmes.Hft.Workload
import Llmes.Invariants
import Llmes.Transition
import Llmes.Priority

namespace Llmes

def LiveBook.live (A : LiveBook) : List (Side × Entry) :=
  (A.orders .buy).map (Prod.mk .buy) ++ (A.orders .sell).map (Prod.mk .sell)

namespace LiveBook

variable {A : LiveBook}

theorem mem_live {x : Side × Entry} : x ∈ A.live ↔ x.2 ∈ A.orders x.1 := by
  obtain ⟨s, e⟩ := x
  cases s <;> simp [live]

theorem live_perm (A : LiveBook) (s : Side) :
    A.live.Perm ((A.orders s.opposite).map (Prod.mk s.opposite) ++ (A.orders s).map (Prod.mk s)) := by
  cases s
  · exact List.perm_append_comm
  · exact List.Perm.refl _

theorem orders_setQueue_perm {s : Side} {p : Int} {q xs ys : Queue} (h : (q ++ xs).Perm (A.queue s p ++ ys)) :
    ((A.setQueue s p q).orders s ++ xs).Perm (A.orders s ++ ys) := by
  have hs := Levels.orders_setQueue (A.side s) p q
  have hp := Levels.orders_perm (A.side s) p
  rw [orders, orders, setQueue_side_self]
  rw [List.perm_iff_count] at h hs hp ⊢
  intro a
  have h := h a
  have hs := hs a
  have hp := hp a
  simp only [List.count_append, queue] at *
  omega

theorem live_setQueue {s : Side} {p : Int} {q xs ys : Queue} (h : (q ++ xs).Perm (A.queue s p ++ ys)) :
    ((A.setQueue s p q).live ++ xs.map (Prod.mk s)).Perm (A.live ++ ys.map (Prod.mk s)) := by
  have hs := (orders_setQueue_perm h).map (Prod.mk s)
  have hl := A.live_perm s
  have hl' := (A.setQueue s p q).live_perm s
  have hother : (A.setQueue s p q).orders s.opposite = A.orders s.opposite := by
    rw [orders, setQueue_side_of_ne A s p q s.opposite_ne]
    rfl
  rw [hother] at hl'
  rw [List.perm_iff_count] at *
  intro a
  have hs := hs a
  have hl := hl a
  have hl' := hl' a
  simp only [List.map_append, List.count_append] at *
  omega

theorem live_remove (h : A.Sound) {x : Side × Entry} (hx : x.2 ∈ A.orders x.1) :
    A.live.Perm (x :: (A.remove x).live) := by
  obtain ⟨s, e⟩ := x
  obtain ⟨xs, ys, hxy⟩ := List.append_of_mem (h.order hx).1
  have hnd := h.queue_nodup s e.price
  rw [hxy] at hnd
  have hfilter : (A.queue s e.price).filter (fun e' => e'.slot ≠ e.slot) = xs ++ ys := by
    rw [hxy, filter_slot_ne hnd]
  have hperm : (xs ++ ys ++ [e]).Perm (A.queue s e.price ++ []) := by
    rw [hxy, List.perm_iff_count]
    intro a
    simp only [List.count_append, List.count_cons, List.count_nil]
    omega
  have hlive := live_setQueue (A := { A with free := e.slot :: A.free }) hperm
  rw [remove, hfilter]
  rw [List.map_nil, List.append_nil] at hlive
  exact hlive.symm.trans List.perm_append_comm

theorem live_rest {orderId : UInt64} {side : Side} {price : Int} {remaining timestamp : UInt64} {n : OrderHandle}
    {A' : LiveBook} (h : A.rest orderId side price remaining timestamp = some (n, A')) :
    ∃ i, n = UInt32.ofNat i ∧ A'.live.Perm ((side, ⟨i, orderId, price, remaining, timestamp⟩) :: A.live) := by
  unfold rest at h
  split at h
  · cases h
  · next i free hf =>
    simp only [Option.some.injEq, Prod.mk.injEq] at h
    obtain ⟨rfl, rfl⟩ := h
    refine ⟨i, rfl, ?_⟩
    have hperm : (A.queue side price ++ [Entry.mk i orderId price remaining timestamp] ++ []).Perm
        (A.queue side price ++ [Entry.mk i orderId price remaining timestamp]) := by
      rw [List.append_nil]
    have hlive := live_setQueue (A := { A with free }) hperm
    rw [List.map_nil, List.append_nil] at hlive
    exact hlive.trans List.perm_append_comm

end LiveBook

namespace Hft

def restingRow (x : Side × Entry) : UInt64 × RestingMeta := (x.2.id, ⟨x.1, x.2.price, x.2.quantity⟩)

def handleRow (x : Side × Entry) : UInt64 × HandleMeta := (x.2.id, ⟨UInt32.ofNat x.2.slot, x.2.quantity⟩)

def restingAt (live : List (Side × Entry)) (side : Side) (price : Int) : ℕ :=
  live.countP (fun x => x.1 = side ∧ x.2.price = price)

def levelCount (n : ℕ) : Option ℕ := if n = 0 then none else some n

structure Lists (t : Tracking) (live : List (Side × Entry)) : Prop where
  resting : t.restingOrders.entries.Perm (live.map restingRow)
  counts : ∀ side price, (t.levelCounts side).find? price = levelCount (restingAt live side price)
  listed : ∀ x ∈ live, x.2.id ∈ t.restingIds

structure Follows (t : Tracking) (live : List (Side × Entry)) : Prop extends Lists t live where
  handles : t.bookHandles.entries.Perm (live.map handleRow)

def Priced (t : Tracking) : Prop :=
  t.bestBid = (t.bidLevelCounts.begin?.map Prod.fst).getD 0 ∧
    t.bestAsk = (t.askLevelCounts.begin?.map Prod.fst).getD 1000

theorem levelCount_succ (n : ℕ) : levelCount (n + 1) = some (n + 1) := rfl

theorem restingAt_cons (x : Side × Entry) (live : List (Side × Entry)) (side : Side) (price : Int) :
    restingAt (x :: live) side price = restingAt live side price + if side = x.1 ∧ price = x.2.price then 1 else 0 := by
  rw [restingAt, List.countP_cons]
  have hiff : (x.1 = side ∧ x.2.price = price) ↔ (side = x.1 ∧ price = x.2.price) :=
    and_congr eq_comm eq_comm
  simp only [decide_eq_true_eq, hiff]
  rfl

namespace Tracking

variable (t : Tracking) (side : Side) (price : Int)

@[simp] theorem setLevelCounts_book (m : OrderedMap Int ℕ (PriceCompare side.isAsk)) :
    (t.setLevelCounts side m).book = t.book := by cases side <;> rfl

@[simp] theorem setLevelCounts_restingOrders (m : OrderedMap Int ℕ (PriceCompare side.isAsk)) :
    (t.setLevelCounts side m).restingOrders = t.restingOrders := by cases side <;> rfl

@[simp] theorem setLevelCounts_bookHandles (m : OrderedMap Int ℕ (PriceCompare side.isAsk)) :
    (t.setLevelCounts side m).bookHandles = t.bookHandles := by cases side <;> rfl

@[simp] theorem setLevelCounts_restingIds (m : OrderedMap Int ℕ (PriceCompare side.isAsk)) :
    (t.setLevelCounts side m).restingIds = t.restingIds := by cases side <;> rfl

theorem find?_setLevelCounts (m : OrderedMap Int ℕ (PriceCompare side.isAsk)) {n : ℕ}
    (hself : m.find? price = levelCount n) (hother : ∀ p, p ≠ price → m.find? p = (t.levelCounts side).find? p)
    (s : Side) (p : Int) :
    ((t.setLevelCounts side m).levelCounts s).find? p =
      if s = side ∧ p = price then levelCount n else (t.levelCounts s).find? p := by
  by_cases hs : s = side
  · subst hs
    have hm : (t.setLevelCounts s m).levelCounts s = m := by cases s <;> rfl
    rw [hm]
    by_cases hp : p = price
    · rw [if_pos ⟨rfl, hp⟩, hp, hself]
    · rw [if_neg (fun h => hp h.2), hother p hp]
  · rw [if_neg (fun h => hs h.1)]
    cases s <;> cases side <;> first | rfl | exact absurd rfl hs

theorem levelCounts_withLists (orders : IdMap RestingMeta) (ids : List UInt64) (s : Side) :
    ({ t with restingOrders := orders, restingIds := ids } : Tracking).levelCounts s = t.levelCounts s := by
  cases s <;> rfl

theorem levelCounts_updateBestPrices (s : Side) : t.updateBestPrices.levelCounts s = t.levelCounts s := by
  cases s <;> rfl

theorem find?_increment {n : ℕ} (h : (t.levelCounts side).find? price = levelCount n) (s : Side) (p : Int) :
    ((t.increment side price).levelCounts s).find? p =
      if s = side ∧ p = price then levelCount (n + 1) else (t.levelCounts s).find? p := by
  apply t.find?_setLevelCounts
  · rw [OrderedMap.find?_set, if_pos rfl, h]
    cases n <;> rfl
  · intro p hp
    rw [OrderedMap.find?_set, if_neg hp]

theorem decrement_eq : ∃ m, t.decrement side price = t.setLevelCounts side m := by
  unfold decrement
  cases h : (t.levelCounts side).find? price with
  | none => exact ⟨t.levelCounts side, by cases side <;> rfl⟩
  | some n =>
    dsimp only
    generalize (if n > 0 then n - 1 else n) = k
    by_cases hk : k = 0
    · exact ⟨_, if_pos hk⟩
    · exact ⟨_, if_neg hk⟩

theorem find?_decrement {n : ℕ} (h : (t.levelCounts side).find? price = levelCount (n + 1)) (s : Side) (p : Int) :
    ((t.decrement side price).levelCounts s).find? p =
      if s = side ∧ p = price then levelCount n else (t.levelCounts s).find? p := by
  rw [levelCount_succ] at h
  simp only [decrement, h, Nat.zero_lt_succ, if_true, Nat.add_sub_cancel]
  cases n with
  | zero =>
    rw [if_pos rfl]
    apply t.find?_setLevelCounts
    · rw [OrderedMap.find?_erase, if_pos rfl]
      rfl
    · intro p hp
      rw [OrderedMap.find?_erase, if_neg hp]
  | succ n =>
    rw [if_neg (Nat.succ_ne_zero n)]
    apply t.find?_setLevelCounts
    · rw [OrderedMap.find?_set, if_pos rfl]
      rfl
    · intro p hp
      rw [OrderedMap.find?_set, if_neg hp]

theorem trackRemovePredicted_of_some {id : UInt64} {m : RestingMeta} (h : t.restingOrders.find? id = some m) :
    t.trackRemovePredicted id =
      ({ t.decrement m.side m.price with restingOrders := t.restingOrders.erase id } : Tracking).updateBestPrices := by
  obtain ⟨c, hc⟩ := t.decrement_eq m.side m.price
  rw [trackRemovePredicted, h]
  simp only [hc, setLevelCounts_restingOrders]

theorem trackRemovePredicted_of_none {id : UInt64} (h : t.restingOrders.find? id = none) :
    t.trackRemovePredicted id = t := by
  rw [trackRemovePredicted, h]

structure Same (t t' : Tracking) : Prop where
  book : t'.book = t.book
  restingIds : t'.restingIds = t.restingIds

theorem trackRemovePredicted_same (id : UInt64) : Same t (t.trackRemovePredicted id) ∧
    (t.trackRemovePredicted id).bookHandles = t.bookHandles := by
  cases h : t.restingOrders.find? id with
  | none =>
    rw [t.trackRemovePredicted_of_none h]
    exact ⟨⟨rfl, rfl⟩, rfl⟩
  | some m =>
    obtain ⟨c, hc⟩ := t.decrement_eq m.side m.price
    rw [t.trackRemovePredicted_of_some h, hc]
    exact ⟨⟨t.setLevelCounts_book _ _, t.setLevelCounts_restingIds _ _⟩, t.setLevelCounts_bookHandles _ _⟩

theorem applyTradeFills_same (trades : List Trade) : Same t (t.applyTradeFills trades) := by
  induction trades generalizing t with
  | nil => exact ⟨rfl, rfl⟩
  | cons trade trades ih =>
    have hstep : Same t (t.applyTradeFill trade) := by
      unfold applyTradeFill
      cases t.restingOrders.find? trade.makerOrderId with
      | none => exact ⟨rfl, rfl⟩
      | some m =>
        dsimp only
        split
        · have hsame := (trackRemovePredicted_same (t.eraseHandle trade.makerOrderId) trade.makerOrderId).1
          exact ⟨hsame.book, hsame.restingIds⟩
        · split <;> exact ⟨rfl, rfl⟩
    have hrest := ih (t.applyTradeFill trade)
    exact ⟨hrest.book.trans hstep.book, hrest.restingIds.trans hstep.restingIds⟩

theorem trackAddPredicted_same (id : UInt64) (qty : UInt64) :
    let t' := t.trackAddPredicted id side price qty
    t'.book = t.book ∧ t'.bookHandles = t.bookHandles ∧ t'.restingIds = t.restingIds ++ [id] := by
  obtain ⟨⟨hbook, hids⟩, hhandles⟩ := t.trackRemovePredicted_same id
  refine ⟨?_, ?_, ?_⟩
  · exact (setLevelCounts_book _ _ _).trans hbook
  · exact (setLevelCounts_bookHandles _ _ _).trans hhandles
  · exact (setLevelCounts_restingIds _ _ _).trans (congrArg (· ++ [id]) hids)

end Tracking

open Tracking

section Steps

theorem find?_eq_none_of_fresh {α : Type} {m : IdMap α} {live : List (Side × Entry)} {row : Side × Entry → UInt64 × α}
    {id : UInt64} (h : m.entries.Perm (live.map row)) (hrow : ∀ x, (row x).1 = x.2.id)
    (hfresh : ∀ y ∈ live, y.2.id ≠ id) : m.find? id = none := by
  rw [OrderedMap.find?_eq_none]
  intro e he
  obtain ⟨y, hy, rfl⟩ := List.mem_map.mp (h.mem_iff.mp he)
  rw [hrow]
  exact hfresh y hy

variable {t : Tracking} {live live' : List (Side × Entry)} {x : Side × Entry} {s : Side} {es left : Queue}
  {fills : List Fill}

namespace Lists

theorem perm (h : Lists t live) (hp : live.Perm live') : Lists t live' where
  resting := h.resting.trans (hp.map _)
  counts side price := by
    rw [h.counts, restingAt, restingAt, hp.countP_eq]
  listed x hx := h.listed x (hp.mem_iff.mpr hx)

theorem find?_eq_some (h : Lists t live) {id : UInt64} {m : RestingMeta} :
    t.restingOrders.find? id = some m ↔ ∃ x ∈ live, restingRow x = (id, m) := by
  rw [OrderedMap.find?_eq_some, h.resting.mem_iff, List.mem_map]

theorem find?_of_mem (h : Lists t live) (hx : x ∈ live) :
    t.restingOrders.find? x.2.id = some ⟨x.1, x.2.price, x.2.quantity⟩ := h.find?_eq_some.mpr ⟨x, hx, rfl⟩

theorem ids_nodup (h : Lists t live) : (live.map (fun x => x.2.id)).Nodup := by
  have hnd : (t.restingOrders.entries.map Prod.fst).Nodup :=
    t.restingOrders.sorted.imp (fun {a b} hab => by rintro rfl; exact UInt64.lt_irrefl _ hab)
  rw [(h.resting.map Prod.fst).nodup_iff, List.map_map] at hnd
  exact hnd

theorem remove (h : Lists t (x :: live)) :
    Lists (t.trackRemovePredicted x.2.id) live ∧ Priced (t.trackRemovePredicted x.2.id) := by
  have hcount : (t.levelCounts x.1).find? x.2.price = levelCount (restingAt live x.1 x.2.price + 1) := by
    rw [h.counts, restingAt_cons, if_pos ⟨rfl, rfl⟩]
  rw [t.trackRemovePredicted_of_some (h.find?_of_mem List.mem_cons_self)]
  refine ⟨⟨OrderedMap.perm_erase h.resting, fun side price => ?_, fun y hy => ?_⟩, rfl, rfl⟩
  · have hfind := t.find?_decrement x.1 x.2.price hcount side price
    have hold := h.counts side price
    rw [restingAt_cons] at hold
    rw [levelCounts_updateBestPrices]
    change ((Tracking.levelCounts { t.decrement x.1 x.2.price with
      restingOrders := _, restingIds := (t.decrement x.1 x.2.price).restingIds } side).find? price) = _
    rw [levelCounts_withLists, hfind]
    by_cases hsp : side = x.1 ∧ price = x.2.price
    · rw [if_pos hsp, hsp.1, hsp.2]
    · rw [if_neg hsp, hold, if_neg hsp, Nat.add_zero]
  · obtain ⟨c, hc⟩ := t.decrement_eq x.1 x.2.price
    rw [hc]
    change y.2.id ∈ (t.setLevelCounts x.1 c).restingIds
    rw [setLevelCounts_restingIds]
    exact h.listed y (List.mem_cons_of_mem _ hy)

theorem add (h : Lists t live) (hfresh : ∀ y ∈ live, y.2.id ≠ x.2.id) :
    Lists (t.trackAddPredicted x.2.id x.1 x.2.price x.2.quantity) (x :: live) ∧
      Priced (t.trackAddPredicted x.2.id x.1 x.2.price x.2.quantity) := by
  have hnone : t.restingOrders.find? x.2.id = none := find?_eq_none_of_fresh h.resting (fun _ => rfl) hfresh
  rw [trackAddPredicted, t.trackRemovePredicted_of_none hnone]
  refine ⟨⟨?_, fun side price => ?_, fun y hy => ?_⟩, rfl, rfl⟩
  · change (increment _ _ _).restingOrders.entries.Perm _
    rw [increment, setLevelCounts_restingOrders]
    exact OrderedMap.perm_set_new _ h.resting hnone
  · rw [levelCounts_updateBestPrices, find?_increment _ _ _ (by rw [levelCounts_withLists, h.counts]),
      levelCounts_withLists, h.counts, restingAt_cons]
    by_cases hsp : side = x.1 ∧ price = x.2.price
    · rw [if_pos hsp, if_pos hsp, hsp.1, hsp.2]
    · rw [if_neg hsp, if_neg hsp, Nat.add_zero]
  · change _ ∈ (increment _ _ _).restingIds
    rw [increment, setLevelCounts_restingIds]
    rcases List.mem_cons.mp hy with rfl | hy
    · exact List.mem_append_right _ List.mem_cons_self
    · exact List.mem_append_left _ (h.listed y hy)

end Lists

theorem Lists.withHandles (h : Lists t live) (m : IdMap HandleMeta) : Lists { t with bookHandles := m } live :=
  ⟨h.resting, fun s p => by
    cases s
    · exact h.counts .buy p
    · exact h.counts .sell p, h.listed⟩

namespace Follows

theorem perm (h : Follows t live) (hp : live.Perm live') : Follows t live' :=
  ⟨h.toLists.perm hp, h.handles.trans (hp.map _)⟩

theorem handle_of_mem (h : Follows t live) (hx : x ∈ live) :
    t.bookHandles.find? x.2.id = some ⟨UInt32.ofNat x.2.slot, x.2.quantity⟩ := by
  rw [OrderedMap.find?_eq_some, h.handles.mem_iff]
  exact List.mem_map_of_mem hx

theorem find?_handle (h : Follows t live) {id : UInt64} {m : HandleMeta} :
    t.bookHandles.find? id = some m ↔ ∃ x ∈ live, handleRow x = (id, m) := by
  rw [OrderedMap.find?_eq_some, h.handles.mem_iff, List.mem_map]

theorem remove (h : Follows t (x :: live)) :
    Follows ((t.eraseHandle x.2.id).trackRemovePredicted x.2.id) live ∧
      Priced ((t.eraseHandle x.2.id).trackRemovePredicted x.2.id) := by
  have hlists := h.toLists.withHandles (t.bookHandles.erase x.2.id)
  refine ⟨⟨hlists.remove.1, ?_⟩, hlists.remove.2⟩
  rw [(trackRemovePredicted_same _ _).2]
  exact OrderedMap.perm_erase h.handles

theorem add (h : Follows t live) (hfresh : ∀ y ∈ live, y.2.id ≠ x.2.id) :
    let t' := (t.trackAddPredicted x.2.id x.1 x.2.price x.2.quantity).setHandle x.2.id (UInt32.ofNat x.2.slot)
      x.2.quantity
    Follows t' (x :: live) ∧ Priced t' := by
  have hsame := trackAddPredicted_same t x.1 x.2.price x.2.id x.2.quantity
  obtain ⟨hadd, hpriced⟩ := h.toLists.add hfresh
  refine ⟨⟨hadd.withHandles _, ?_⟩, hpriced⟩
  change (OrderedMap.set _ _ _).entries.Perm _
  rw [hsame.2.1]
  exact OrderedMap.perm_set_new _ h.handles (find?_eq_none_of_fresh h.handles (fun _ => rfl) hfresh)

theorem fill_whole (h : Follows t (x :: live)) (orderId : UInt64) :
    Follows (t.applyTradeFill ((Fill.whole x.2).trade orderId)) live ∧
      Priced (t.applyTradeFill ((Fill.whole x.2).trade orderId)) := by
  have hle : (Fill.whole x.2).quantity ≥ x.2.quantity := UInt64.le_refl _
  have hfill : t.applyTradeFill ((Fill.whole x.2).trade orderId) =
      (t.eraseHandle x.2.id).trackRemovePredicted x.2.id := by
    have hfind : t.restingOrders.find? ((Fill.whole x.2).trade orderId).makerOrderId = _ :=
      h.find?_of_mem List.mem_cons_self
    rw [applyTradeFill, hfind]
    exact if_pos hle
  rw [hfill]
  exact h.remove

theorem fill_part (h : Follows t (x :: live)) {v : UInt64} (hv : v < x.2.quantity) (orderId : UInt64) :
    Follows (t.applyTradeFill (Fill.trade orderId ⟨x.2, v⟩))
      ((x.1, { x.2 with quantity := x.2.quantity - v }) :: live) ∧
      (Priced t → Priced (t.applyTradeFill (Fill.trade orderId ⟨x.2, v⟩))) := by
  have hfill : t.applyTradeFill (Fill.trade orderId ⟨x.2, v⟩) =
      { t with
        restingOrders := t.restingOrders.set x.2.id ⟨x.1, x.2.price, x.2.quantity - v⟩
        bookHandles := t.bookHandles.set x.2.id ⟨UInt32.ofNat x.2.slot, x.2.quantity - v⟩ } := by
    have hmin : min x.2.quantity v = v :=
      ((min_cases x.2.quantity v).resolve_left (fun hle => UInt64.not_le.mpr hv hle.1)).2
    simp only [applyTradeFill, Fill.trade, h.find?_of_mem List.mem_cons_self, h.handle_of_mem List.mem_cons_self,
      ge_iff_le, UInt64.not_le.mpr hv, if_false, setHandle, hmin]
  rw [hfill]
  refine ⟨⟨⟨?_, fun s p => ?_, fun y hy => ?_⟩, ?_⟩, id⟩
  · exact OrderedMap.perm_set_old _ h.resting
  · have hcounts := h.counts s p
    rw [restingAt_cons] at hcounts ⊢
    cases s
    · exact hcounts
    · exact hcounts
  · rcases List.mem_cons.mp hy with rfl | hy
    · exact h.listed x List.mem_cons_self
    · exact h.listed y (List.mem_cons_of_mem _ hy)
  · exact OrderedMap.perm_set_old _ h.handles

theorem trades (h : Follows t (es.map (Prod.mk s) ++ live)) (hc : Consumed es left fills) (orderId : UInt64) :
    Follows (t.applyTradeFills (fills.map (Fill.trade orderId))) (left.map (Prod.mk s) ++ live) ∧
      (Priced t → Priced (t.applyTradeFills (fills.map (Fill.trade orderId)))) := by
  have hwhole {t : Tracking} {done rest : Queue} (h : Follows t ((done ++ rest).map (Prod.mk s) ++ live)) :
      Follows (t.applyTradeFills ((done.map Fill.whole).map (Fill.trade orderId))) (rest.map (Prod.mk s) ++ live) ∧
        (Priced t → Priced (t.applyTradeFills ((done.map Fill.whole).map (Fill.trade orderId)))) := by
    induction done generalizing t with
    | nil => exact ⟨h, id⟩
    | cons e done ih =>
      obtain ⟨hfill, hpriced⟩ := fill_whole (x := (s, e)) h orderId
      obtain ⟨hrest, hpriced'⟩ := ih hfill
      exact ⟨hrest, fun _ => hpriced' hpriced⟩
  cases hc with
  | whole done rest => exact hwhole h
  | part done e v rest hv hlt =>
    obtain ⟨hdone, hpriced⟩ := hwhole h
    obtain ⟨hpart, hpriced'⟩ := fill_part (x := (s, e)) hdone hlt orderId
    rw [List.map_append, applyTradeFills, List.foldl_append]
    exact ⟨hpart, fun hp => hpriced' (hpriced hp)⟩

theorem take {A : LiveBook} (h : Follows t A.live) (taker : Side) (cross : Int → Bool) (q orderId : UInt64) :
    let t' := t.applyTradeFills ((A.take taker cross q).fills.map (Fill.trade orderId))
    Follows t' (A.take taker cross q).left.live ∧ (Priced t → Priced t') := by
  obtain ⟨hleft, hpriced⟩ := (h.perm (A.live_perm taker)).trades (LiveBook.consumed_take taker cross q) orderId
  have hlive := (A.take taker cross q).left.live_perm taker
  rw [LiveBook.take_orders_of_ne taker cross q taker.opposite_ne.symm] at hlive
  exact ⟨hleft.perm hlive.symm, hpriced⟩

theorem rest {A A' : LiveBook} {orderId : UInt64} {side : Side} {price : Int} {remaining timestamp : UInt64}
    {n : OrderHandle} (h : Follows t A.live) (hrest : A.rest orderId side price remaining timestamp = some (n, A'))
    (hfresh : ∀ y ∈ A.live, y.2.id ≠ orderId) :
    let t' := (t.trackAddPredicted orderId side price remaining).setHandle orderId n remaining
    Follows t' A'.live ∧ Priced t' := by
  obtain ⟨i, rfl, hlive⟩ := LiveBook.live_rest hrest
  obtain ⟨hadd, hpriced⟩ := h.add (x := (side, ⟨i, orderId, price, remaining, timestamp⟩)) hfresh
  exact ⟨hadd.perm hlive.symm, hpriced⟩

theorem drop {A : LiveBook} (h : Follows t A.live) (hA : A.Sound) (hx : x.2 ∈ A.orders x.1) :
    let t' := (t.eraseHandle x.2.id).trackRemovePredicted x.2.id
    Follows t' (A.remove x).live ∧ Priced t' :=
  (h.perm (LiveBook.live_remove hA hx)).remove

end Follows

end Steps

end Hft

end Llmes
