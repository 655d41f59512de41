import Llmes.Reference

namespace Llmes

open OrderBook (canCrossLimit allowed_cons)

def Entry.ref (e : Entry) : RefOrder := ⟨e.id, e.price, e.quantity⟩

def refEntries (es : List (Int × Queue)) : List (Int × List RefOrder) :=
  es.map (fun l => (l.1, l.2.map Entry.ref))

def RefRep (r : ReferenceOrderBook) (A : LiveBook) : Prop :=
  ∀ s, r.book s = (A.side s).mapValues (List.map Entry.ref)

namespace ReferenceOrderBook

variable {isAsk : Bool} {orderId : UInt64}

@[simp] theorem setBook_book_self (r : ReferenceOrderBook) (s : Side) (x : RefLevels s.isAsk) :
    (r.setBook s x).book s = x := by cases s <;> rfl

theorem setBook_book_of_ne (r : ReferenceOrderBook) {s t : Side} (x : RefLevels s.isAsk) (h : t ≠ s) :
    (r.setBook s x).book t = r.book t := by
  cases s <;> cases t <;> first | rfl | exact absurd rfl h

theorem matchQueue_spec (orderId : UInt64) {es : Queue} {fuel : ℕ} (q : UInt64) (out : AddResult)
    (hfuel : es.length ≤ fuel) :
    matchQueue orderId fuel q (es.map Entry.ref) out =
      .ok ((takeQueue q es).quantity, (takeQueue q es).left.map Entry.ref,
        (takeQueue q es).fills.foldl (AddResult.addFill orderId) out) := by
  induction es generalizing fuel q out with
  | nil => cases fuel <;> rfl
  | cons e es ih =>
    obtain ⟨fuel, rfl⟩ : ∃ f, fuel = f + 1 := ⟨fuel - 1, by simp only [List.length_cons] at hfuel; omega⟩
    have hlen : es.length ≤ fuel := by simpa using hfuel
    rw [List.map_cons, matchQueue, takeQueue]
    by_cases hz : q = 0
    · simp [hz]
    · rw [if_pos (pos_iff_ne_zero.mpr hz), if_neg hz]
      dsimp only [Entry.ref]
      by_cases hf : e.quantity - min q e.quantity = 0
      · simp only [hf, if_true]
        exact ih _ _ hlen
      · simp only [hf, if_false, sub_min_eq_zero hf]
        cases fuel <;> simp [matchQueue, Entry.ref, AddResult.addFill, Fill.trade]

theorem matchLevel_spec (orderId : UInt64) {p : Int} {es : Queue} {rest : List (Int × Queue)} {s : RefState isAsk}
    (hs : s.book.entries = refEntries ((p, es) :: rest)) :
    ∃ s', matchLevel orderId s = .ok s' ∧ s'.remaining = (takeQueue s.remaining es).quantity ∧
      s'.out = (takeQueue s.remaining es).fills.foldl (AddResult.addFill orderId) s.out ∧
      s'.book.entries = refEntries (if (takeQueue s.remaining es).left = [] then rest
        else (p, (takeQueue s.remaining es).left) :: rest) := by
  have hcons : s.book.entries = (p, es.map Entry.ref) :: refEntries rest := hs
  have hb : s.book.begin? = some (p, es.map Entry.ref) := by rw [OrderedMap.begin?, hcons]; rfl
  have hq := matchQueue_spec orderId s.remaining s.out (show es.length ≤ (es.map Entry.ref).length by simp)
  simp only [matchLevel, hb, hq, ok_bind, pure_eq_ok]
  refine ⟨_, rfl, rfl, rfl, ?_⟩
  by_cases hleft : (takeQueue s.remaining es).left = []
  · simp only [hleft, List.map_nil, if_true]
    exact OrderedMap.erase_entries_of_cons hcons
  · simp only [hleft, List.map_eq_nil_iff, if_false]
    exact OrderedMap.entries_set_of_cons hcons

structure Sweeps (orderId : UInt64) (cross : Int → Bool)
    (loop : ℕ → RefState isAsk → Exec (RefState isAsk)) : Prop where
  done : ∀ fuel s, ¬ (s.remaining > 0 ∧ s.book.isEmpty = false) → loop fuel s = .ok s
  round : ∀ fuel s p q, s.remaining > 0 → s.book.begin? = some (p, q) →
    loop (fuel + 1) s = if cross p then matchLevel orderId s >>= loop fuel else .ok s

theorem isEmpty_of_begin? {m : RefLevels isAsk} {x : Int × List RefOrder} (h : m.begin? = some x) :
    m.isEmpty = false := by
  obtain ⟨es, hs⟩ := m
  cases es with
  | nil => cases h
  | cons => rfl

theorem matchLimit_sweeps (orderId : UInt64) (side : Side) (limitPrice : Int) :
    Sweeps orderId (canCrossLimit side limitPrice)
      (matchLimit orderId side limitPrice : ℕ → RefState isAsk → Exec (RefState isAsk)) where
  done fuel s h := by
    rw [matchLimit.eq_def]
    exact if_neg h
  round fuel s p q hq hb := by
    rw [matchLimit.eq_def]
    refine (if_pos ⟨hq, isEmpty_of_begin? hb⟩).trans ?_
    simp only [hb]
    cases side <;> rfl

theorem matchMarket_sweeps (orderId : UInt64) :
    Sweeps orderId (fun _ => true)
      (matchMarket orderId : ℕ → RefState isAsk → Exec (RefState isAsk)) where
  done fuel s h := by
    rw [matchMarket.eq_def]
    exact if_neg h
  round fuel s p q hq hb := by
    rw [matchMarket.eq_def]
    exact if_pos ⟨hq, isEmpty_of_begin? hb⟩

theorem Sweeps.spec {cross : Int → Bool} {loop : ℕ → RefState isAsk → Exec (RefState isAsk)}
    (hloop : Sweeps orderId cross loop) {es : List (Int × Queue)} {fuel : ℕ} {s : RefState isAsk}
    (hs : s.book.entries = refEntries es) (hfuel : es.length ≤ fuel) :
    ∃ s', loop fuel s = .ok s' ∧ s'.remaining = (takeLevels cross s.remaining es).quantity ∧
      s'.out = (takeLevels cross s.remaining es).fills.foldl (AddResult.addFill orderId) s.out ∧
      s'.book.entries = refEntries (takeLevels cross s.remaining es).left := by
  induction es generalizing fuel s with
  | nil =>
    have he : s.book.isEmpty = true := by rw [OrderedMap.isEmpty, hs]; rfl
    exact ⟨s, hloop.done _ _ (by simp [he]), rfl, rfl, hs⟩
  | cons l rest ih =>
    obtain ⟨p, es⟩ := l
    by_cases hz : s.remaining = 0
    · refine ⟨s, hloop.done _ _ (by simp [hz]), ?_⟩
      rw [hz, takeLevels_zero]
      exact ⟨rfl, rfl, hs⟩
    obtain ⟨fuel, rfl⟩ : ∃ f, fuel = f + 1 := ⟨fuel - 1, by simp only [List.length_cons] at hfuel; omega⟩
    have hb : s.book.begin? = some (p, es.map Entry.ref) := by rw [OrderedMap.begin?, hs]; rfl
    rw [hloop.round fuel s p _ (pos_iff_ne_zero.mpr hz) hb, takeLevels]
    cases hcross : cross p with
    | false =>
      rw [if_pos (Or.inr rfl)]
      exact ⟨s, rfl, rfl, rfl, hs⟩
    | true =>
      obtain ⟨s₁, hs₁, hq₁, ho₁, he₁⟩ := matchLevel_spec orderId hs
      simp only [hz, Bool.true_eq_false, or_self, if_false, if_true, hs₁, ok_bind]
      by_cases hleft : (takeQueue s.remaining es).left = []
      · rw [if_pos hleft] at he₁
        obtain ⟨s', hs', hq', ho', he'⟩ := ih he₁ (show rest.length ≤ fuel by simpa using hfuel)
        rw [hq₁] at hq' ho' he'
        simp only [hleft, if_true]
        exact ⟨s', hs', hq', by rw [ho', ho₁, List.foldl_append], he'⟩
      · rw [if_neg hleft] at he₁
        have hz₁ : s₁.remaining = 0 := by rw [hq₁]; exact takeQueue_quantity hleft
        simp only [hleft, if_false]
        exact ⟨s₁, hloop.done _ _ (by simp [hz₁]), hq₁, ho₁, he₁⟩

end ReferenceOrderBook

namespace RefRep

open ReferenceOrderBook

variable {r : ReferenceOrderBook} {A : LiveBook}

theorem empty (capacity : ℕ) : RefRep ReferenceOrderBook.empty (LiveBook.init capacity) := by
  intro s
  cases s <;> rfl

theorem take (h : RefRep r A) (taker : Side) {orderId : UInt64} {cross : Int → Bool}
    {loop : ℕ → RefState taker.opposite.isAsk → Exec (RefState taker.opposite.isAsk)}
    (hloop : ReferenceOrderBook.Sweeps orderId cross loop) (q : UInt64) (out : AddResult) :
    ∃ s', loop (r.book taker.opposite).size ⟨q, r.book taker.opposite, out⟩ = .ok s' ∧
      s'.remaining = (A.take taker cross q).quantity ∧
      s'.out = (A.take taker cross q).fills.foldl (AddResult.addFill orderId) out ∧
      RefRep (r.setBook taker.opposite s'.book) (A.take taker cross q).left := by
  have hs : (r.book taker.opposite).entries = refEntries (A.side taker.opposite).entries := by
    rw [h]
    rfl
  obtain ⟨s', hs', hq', ho', he'⟩ := hloop.spec (s := ⟨q, r.book taker.opposite, out⟩) hs
    (show _ ≤ (r.book taker.opposite).size by simp [OrderedMap.size, hs, refEntries])
  refine ⟨s', hs', hq', ho', fun s => ?_⟩
  by_cases hne : s = taker.opposite
  · subst hne
    rw [ReferenceOrderBook.setBook_book_self]
    apply OrderedMap.ext_entries
    rw [he', ← LiveBook.take_left_entries]
    rfl
  · rw [ReferenceOrderBook.setBook_book_of_ne _ _ hne, LiveBook.take_left_side_of_ne _ _ _ _ hne]
    exact h s

theorem rest (h : RefRep r A) {orderId : UInt64} {side : Side} {price : Int}
    {remaining timestamp : UInt64} {n : OrderHandle} {A' : LiveBook}
    (hA : A.rest orderId side price remaining timestamp = some (n, A')) :
    RefRep (r.restOrder orderId side price remaining) A' := by
  unfold LiveBook.rest at hA
  split at hA
  · cases hA
  · simp only [Option.some.injEq, Prod.mk.injEq] at hA
    obtain ⟨-, rfl⟩ := hA
    intro s
    by_cases hs : s = side
    · subst hs
      rw [LiveBook.setQueue_side_self, LiveBook.side_withFree, Levels.setQueue, if_neg (by simp),
        OrderedMap.mapValues_set, restOrder, ReferenceOrderBook.setBook_book_self, h s]
      congr 1
      rw [OrderedMap.find?_mapValues, LiveBook.queue, Levels.queue]
      cases (A.side s).find? price <;> simp [Entry.ref]
    · rw [LiveBook.setQueue_side_of_ne _ _ _ _ hs, LiveBook.side_withFree, restOrder,
        ReferenceOrderBook.setBook_book_of_ne _ _ hs]
      exact h s

def DistinctIds (A : LiveBook) : Prop :=
  ∀ s s' e e', e ∈ A.orders s → e' ∈ A.orders s' → e.id = e'.id → s = s' ∧ e = e'

theorem cancelFromBook_of_absent {isAsk : Bool} {m : Levels isAsk} {orderId : UInt64}
    (hm : ∀ e ∈ Levels.orders m, e.id ≠ orderId) :
    cancelFromBook orderId (m.mapValues (List.map Entry.ref)) =
      (false, m.mapValues (List.map Entry.ref)) := by
  have : (m.mapValues (List.map Entry.ref)).entries.find?
      (fun level => level.2.any (fun order => order.id = orderId)) = none := by
    rw [List.find?_eq_none]
    rintro l hl
    obtain ⟨x, hx, rfl⟩ := List.mem_map.mp hl
    simp only [List.any_eq_true, not_exists, not_and]
    rintro o ho
    obtain ⟨e, he, rfl⟩ := List.mem_map.mp ho
    exact fun hd => hm e (List.mem_flatMap.mpr ⟨x, hx, he⟩) (of_decide_eq_true hd)
  simp only [cancelFromBook, this]

theorem eraseP_ref {q : Queue} {e : Entry} (he : e ∈ q) (hid : ∀ e' ∈ q, e'.id = e.id → e' = e)
    (hnd : (q.map Entry.slot).Nodup) :
    (q.map Entry.ref).eraseP (fun o => o.id = e.id) =
      (q.filter (fun e' => e'.slot ≠ e.slot)).map Entry.ref := by
  obtain ⟨xs, ys, rfl⟩ := List.append_of_mem he
  rw [filter_slot_ne hnd]
  rw [List.map_append, List.map_cons, List.nodup_append] at hnd
  have hne (x : Entry) (hx : x ∈ xs) : x.slot ≠ e.slot :=
    hnd.2.2 x.slot (List.mem_map_of_mem hx) e.slot (by simp)
  rw [List.map_append, List.eraseP_append_right, List.map_cons, List.eraseP_cons_of_pos (by simp [Entry.ref]),
    List.map_append]
  intro o ho
  obtain ⟨x, hx, rfl⟩ := List.mem_map.mp ho
  exact fun hd => hne x hx (congrArg Entry.slot (hid x (by simp [hx]) (of_decide_eq_true hd)))

theorem cancelFromBook_of_mem {isAsk : Bool} {m : Levels isAsk} (hproper : Levels.Proper m) {e : Entry}
    (he : e ∈ Levels.queue m e.price) (hid : ∀ e' ∈ Levels.orders m, e'.id = e.id → e' = e)
    (hprice : ∀ p, ∀ e' ∈ Levels.queue m p, e'.price = p)
    (hnd : ((Levels.queue m e.price).map Entry.slot).Nodup) :
    cancelFromBook e.id (m.mapValues (List.map Entry.ref)) =
      (true, (Levels.setQueue m e.price
        ((Levels.queue m e.price).filter (fun e' => e'.slot ≠ e.slot))).mapValues (List.map Entry.ref)) := by
  have hf : (m.mapValues (List.map Entry.ref)).entries.find?
      (fun level => level.2.any (fun order => order.id = e.id)) =
        some (e.price, (Levels.queue m e.price).map Entry.ref) := by
    cases hfind : (m.mapValues (List.map Entry.ref)).entries.find?
        (fun level => level.2.any (fun order => order.id = e.id)) with
    | none =>
      have hmem : (e.price, (Levels.queue m e.price).map Entry.ref) ∈
          (m.mapValues (List.map Entry.ref)).entries := by
        rw [← OrderedMap.find?_eq_some, OrderedMap.find?_mapValues, hproper.find?,
          if_neg (List.ne_nil_of_mem he)]
        rfl
      have := List.find?_eq_none.mp hfind _ hmem
      simp only [List.any_eq_true, not_exists, not_and] at this
      exact absurd (by simp [Entry.ref]) (this e.ref (List.mem_map_of_mem he))
    | some l =>
      have hl := List.mem_of_find?_eq_some hfind
      obtain ⟨⟨p, q⟩, hpq, rfl⟩ := List.mem_map.mp hl
      have hany := List.find?_some hfind
      simp only [List.any_eq_true] at hany
      obtain ⟨o, ho, hoe⟩ := hany
      obtain ⟨e', he', rfl⟩ := List.mem_map.mp ho
      have hq : Levels.queue m p = q := by
        rw [Levels.queue, OrderedMap.find?_of_mem hpq]
        rfl
      rw [← hq] at he'
      obtain rfl : e' = e := hid e' (Levels.mem_orders.mpr ⟨p, he'⟩) (of_decide_eq_true hoe)
      obtain rfl := hprice p e' he'
      rw [hq]
  simp only [cancelFromBook, hf]
  rw [eraseP_ref he (fun e' he' => hid e' (Levels.mem_orders.mpr ⟨_, he'⟩)) hnd]
  simp only [Prod.mk.injEq, true_and, List.map_eq_nil_iff, Levels.setQueue]
  split
  · exact (OrderedMap.mapValues_erase _ _ _).symm
  · exact (OrderedMap.mapValues_set _ _ _ _).symm

theorem cancel (h : RefRep r A) (hsound : A.Sound) (hid : DistinctIds A) {s : Side} {e : Entry}
    (he : e ∈ A.orders s) :
    ∃ r', r.cancelOrder e.id = (true, r') ∧ RefRep r' (A.remove (s, e)) := by
  obtain ⟨hq, -⟩ := hsound.order he
  have hat : cancelFromBook e.id (r.book s) =
      (true, (Levels.setQueue (A.side s) e.price
        ((A.queue s e.price).filter (fun e' => e'.slot ≠ e.slot))).mapValues (List.map Entry.ref)) := by
    rw [h s]
    exact cancelFromBook_of_mem (hsound.proper s) hq (fun e' he' heq => (hid s s e' e he' he heq).2)
      (fun p e' he' => hsound.price s p e' he') (hsound.queue_nodup s e.price)
  have hoff (t : Side) (ht : t ≠ s) : cancelFromBook e.id (r.book t) = (false, r.book t) := by
    rw [h t]
    exact cancelFromBook_of_absent (fun e' he' heq => ht (hid t s e' e he' he heq).1)
  have hremove (t : Side) (ht : t ≠ s) : (A.remove (s, e)).side t = A.side t := by
    rw [LiveBook.remove, LiveBook.setQueue_side_of_ne _ _ _ _ ht, LiveBook.side_withFree]
  cases s with
  | buy =>
    refine ⟨{ r with bids := (cancelFromBook e.id r.bids).2 }, ?_, fun t => ?_⟩
    · rw [cancelOrder, show cancelFromBook e.id r.bids = _ from hat]
      rfl
    · cases t with
      | buy =>
        rw [show cancelFromBook e.id r.bids = _ from hat]
        rfl
      | sell =>
        rw [hremove .sell (by decide)]
        exact h .sell
  | sell =>
    have hb := hoff .buy (by decide)
    refine ⟨{ r with asks := (cancelFromBook e.id r.asks).2 }, ?_, fun t => ?_⟩
    · rw [cancelOrder, show cancelFromBook e.id r.bids = _ from hb,
        show cancelFromBook e.id r.asks = _ from hat]
      rfl
    · cases t with
      | buy =>
        rw [hremove .buy (by decide)]
        exact h .buy
      | sell =>
        rw [show cancelFromBook e.id r.asks = _ from hat]
        rfl

end RefRep

def ArrayBook.named (b : ArrayBook) : Op → RefOp
  | .limit orderId side price quantity timestamp => .limit orderId side price quantity timestamp
  | .market orderId side quantity timestamp => .market orderId side quantity timestamp
  | .modify h side price quantity timestamp =>
    .modify (b.pool.slots h.toNat).id side price quantity timestamp
  | .cancel h => .cancel (b.pool.slots h.toNat).id

/-- The comparison that the tests make: a handle is compared by its validity only. -/
structure SameResult (actual expected : AddResult) : Prop where
  code : actual.code = expected.code
  initialQuantity : actual.initialQuantity = expected.initialQuantity
  filledQuantity : actual.filledQuantity = expected.filledQuantity
  remainingQuantity : actual.remainingQuantity = expected.remainingQuantity
  trades : actual.trades = expected.trades
  handle : actual.handle ≠ kInvalidHandle ↔ expected.handle ≠ kInvalidHandle

def Agree : Reply → RefReply → Prop
  | .added actual, .added expected => SameResult actual expected
  | .cancelled code, .cancelled found => code = .success ∧ found = true
  | _, _ => False

section Operations

open ReferenceOrderBook

variable {b : ArrayBook} {A : LiveBook} {r : ReferenceOrderBook}

theorem rest_handle (h : Rep b A) {orderId : UInt64} {side : Side} {price : Int}
    {remaining timestamp : UInt64} {n : OrderHandle} {A' : LiveBook}
    (hA : A.rest orderId side price remaining timestamp = some (n, A')) : n ≠ kInvalidHandle := by
  unfold LiveBook.rest at hA
  split at hA
  · cases hA
  · next i free hf =>
    simp only [Option.some.injEq, Prod.mk.injEq] at hA
    obtain ⟨rfl, -⟩ := hA
    exact (Rep.ofNat_ne_invalid (h.slot_lt_max (h.free_cons hf).1).1).1

theorem reference_limit (h : Rep b A) (hr : RefRep r A) {orderId : UInt64} {side : Side} {price : Int}
    {quantity timestamp : UInt64} {out : AddResult} {A' : LiveBook}
    (hA : A.limit orderId side price quantity timestamp = some (out, A')) :
    ∃ out' r', r.addLimitOrder orderId side price quantity timestamp = .ok (out', r') ∧
      SameResult out out' ∧ RefRep r' A' := by
  unfold LiveBook.limit at hA
  unfold ReferenceOrderBook.addLimitOrder
  by_cases hz : quantity = 0
  · simp only [hz, if_true, Option.some.injEq, Prod.mk.injEq] at hA ⊢
    obtain ⟨rfl, rfl⟩ := hA
    exact ⟨_, r, rfl, ⟨rfl, rfl, rfl, rfl, rfl, Iff.rfl⟩, hr⟩
  · obtain ⟨m, -, hphase⟩ := matchLimit_spec h orderId side price quantity
    obtain ⟨s', hs', hq', ho', hr'⟩ := hr.take side (matchLimit_sweeps orderId side price) quantity
      { initialQuantity := quantity }
    simp only [hz, if_false] at hA ⊢
    simp only [hs', ok_bind, hq', ho', pure_eq_ok]
    split at hA
    · next hleft =>
      simp only [Option.some.injEq, Prod.mk.injEq] at hA
      obtain ⟨rfl, rfl⟩ := hA
      rw [if_pos hleft]
      exact ⟨_, _, rfl, ⟨rfl, rfl, rfl, rfl, rfl, Iff.rfl⟩, hr'⟩
    · next hleft =>
      obtain ⟨⟨n, A₁⟩, hrest, hA⟩ := Option.map_eq_some_iff.mp hA
      simp only [Prod.mk.injEq] at hA
      obtain ⟨rfl, rfl⟩ := hA
      rw [if_neg hleft]
      refine ⟨_, _, rfl, ⟨rfl, rfl, rfl, rfl, rfl, ?_⟩, hr'.rest hrest⟩
      exact iff_of_true (rest_handle hphase.moved.rep hrest) (show (0 : OrderHandle) ≠ kInvalidHandle by decide)

theorem reference_market (hr : RefRep r A) (orderId : UInt64) (side : Side)
    (quantity timestamp : UInt64) :
    ∃ out' r', r.addMarketOrder orderId side quantity timestamp = .ok (out', r') ∧
      SameResult (A.market orderId side quantity).1 out' ∧
      RefRep r' (A.market orderId side quantity).2 := by
  unfold LiveBook.market ReferenceOrderBook.addMarketOrder
  by_cases hz : quantity = 0
  · simp only [hz, if_true]
    exact ⟨_, r, rfl, ⟨rfl, rfl, rfl, rfl, rfl, Iff.rfl⟩, hr⟩
  · obtain ⟨s', hs', hq', ho', hr'⟩ := hr.take side (matchMarket_sweeps orderId) quantity
      { initialQuantity := quantity }
    simp only [hz, if_false, hs', ok_bind, hq', ho', pure_eq_ok]
    split <;> exact ⟨_, _, rfl, ⟨rfl, rfl, rfl, rfl, rfl, Iff.rfl⟩, hr'⟩

end Operations

namespace ArrayBook

def DistinctIds (b : ArrayBook) : Prop :=
  ∀ i j, b.Resting i → b.Resting j → (b.pool.slots i).id = (b.pool.slots j).id → i = j

def Distinct (b : ArrayBook) (op : Op) : Prop :=
  InScope b op ∧ ∀ reply b', b.exec op = .ok (reply, b') → DistinctIds b'

variable {b : ArrayBook} {A : LiveBook} {r : ReferenceOrderBook}

theorem DistinctIds.live (hid : DistinctIds b) (h : Rep b A) : RefRep.DistinctIds A := by
  intro s s' e e' he he' heq
  have hres {t : Side} {x : Entry} (hx : x ∈ A.orders t) : b.Resting x.slot :=
    h.resting_iff.mpr (fun hn => LiveBook.locate_eq_none.mp hn t x hx rfl)
  have hname {t : Side} {x : Entry} (hx : x ∈ A.orders t) : (b.pool.slots x.slot).id = x.id := by
    obtain ⟨-, u, -, hpay, -⟩ := h.order_spec hx
    exact (payload_fields hpay).1
  exact h.sound.order_unique he he' (hid _ _ (hres he) (hres he') (by rw [hname he, hname he', heq]))

theorem reference_step (h : Rep b A) (hr : RefRep r A) (hid : DistinctIds b) {op : Op} {reply : Reply}
    {A' : LiveBook} (hlive : op.Live A) (hA : A.exec op = some (reply, A')) :
    ∃ reply' r', r.exec (b.named op) = .ok (reply', r') ∧ Agree reply reply' ∧ RefRep r' A' := by
  cases op with
  | limit orderId side price quantity timestamp =>
    obtain ⟨⟨out, A₁⟩, ho, hA⟩ := Option.map_eq_some_iff.mp hA
    simp only [Prod.mk.injEq] at hA
    obtain ⟨rfl, rfl⟩ := hA
    obtain ⟨out', r', hr', hsame, hrep⟩ := reference_limit h hr ho
    refine ⟨.added out', r', ?_, hsame, hrep⟩
    simp only [named, ReferenceOrderBook.exec, hr', ok_bind, pure_eq_ok]
  | market orderId side quantity timestamp =>
    simp only [LiveBook.exec, Option.some.injEq, Prod.mk.injEq] at hA
    obtain ⟨rfl, rfl⟩ := hA
    obtain ⟨out', r', hr', hsame, hrep⟩ :=
      reference_market hr orderId side quantity timestamp
    refine ⟨.added out', r', ?_, hsame, hrep⟩
    simp only [named, ReferenceOrderBook.exec, hr', ok_bind, pure_eq_ok]
  | modify handle side price quantity timestamp =>
    obtain ⟨⟨s, e⟩, b₁, hx, -, -, hname, hmoved, -⟩ := h.remove_live hlive
    obtain ⟨he, -⟩ := LiveBook.locate_eq_some hx
    simp only [LiveBook.exec, hx] at hA
    obtain ⟨⟨out, A₁⟩, ho, hA⟩ := Option.map_eq_some_iff.mp hA
    simp only [Prod.mk.injEq] at hA
    obtain ⟨rfl, rfl⟩ := hA
    obtain ⟨r₁, hc, hr₁⟩ := hr.cancel h.sound (hid.live h) he
    obtain ⟨out', r', hr', hsame, hrep⟩ := reference_limit hmoved.rep hr₁ ho
    refine ⟨.added out', r', ?_, hsame, hrep⟩
    simp only [named, ReferenceOrderBook.exec, ReferenceOrderBook.modifyOrder, hname, hc, hr',
      ok_bind, pure_eq_ok]
  | cancel handle =>
    obtain ⟨⟨s, e⟩, b₁, hx, -, -, hname, -, -⟩ := h.remove_live hlive
    obtain ⟨he, -⟩ := LiveBook.locate_eq_some hx
    simp only [LiveBook.exec, hx, Option.some.injEq, Prod.mk.injEq] at hA
    obtain ⟨rfl, rfl⟩ := hA
    obtain ⟨r', hc, hr'⟩ := hr.cancel h.sound (hid.live h) he
    refine ⟨.cancelled true, r', ?_, ⟨rfl, rfl⟩, hr'⟩
    simp only [named, ReferenceOrderBook.exec, hname, hc]

theorem refines_reference (capacity : ℕ) (ops : List Op)
    (hops : Machine.Allowed OrderBook.exec Distinct (init capacity) ops) :
    ∃ replies b replies' r, Machine.runAll OrderBook.exec (init capacity) ops = .ok (replies, b) ∧
      Machine.runAll ReferenceOrderBook.exec .empty
        (Machine.translate OrderBook.exec named (init capacity) ops) = .ok (replies', r) ∧
      List.Forall₂ Agree replies replies' := by
  have hinit : ∃ A, Rep (init capacity) A ∧ RefRep .empty A ∧ DistinctIds (init capacity) := by
    refine ⟨_, rep_init capacity, RefRep.empty capacity, fun i j hi => ?_⟩
    exact absurd (LiveBook.locate_eq_none.mpr (fun s e he => by cases s <;> cases he))
      ((rep_init capacity).resting_iff.mp hi)
  have hstep : ∀ b r op, (∃ A, Rep b A ∧ RefRep r A ∧ DistinctIds b) → Distinct b op →
      ∃ reply b' reply' r', b.exec op = .ok (reply, b') ∧ r.exec (named b op) = .ok (reply', r') ∧
        Agree reply reply' ∧ ∃ A, Rep b' A ∧ RefRep r' A ∧ DistinctIds b' := by
    rintro b r op ⟨A, hrep, hr, hid⟩ ⟨hscope, hdistinct⟩
    obtain ⟨reply, b', A', hb, hA, hmoved⟩ := hscope.exec hrep
    obtain ⟨reply', r', hr', hagree, hr''⟩ :=
      reference_step hrep hr hid ((hrep.live_iff op).mpr hscope.live) hA
    exact ⟨reply, b', reply', r', hb, hr', hagree, A', hmoved.rep, hr'', hdistinct reply b' hb⟩
  obtain ⟨replies, b, replies', r, hb, hr, hagree, -⟩ := Machine.runAll_simulation hstep hinit hops
  exact ⟨replies, b, replies', r, hb, hr, hagree⟩

theorem Reach.distinct_of_one {op : Op} (h : Reach 1 b) (hs : InScope b op) : Distinct b op := by
  refine ⟨hs, fun reply b' hb i j hi hj _ => ?_⟩
  have hg := h.good.step hs hb
  obtain ⟨A, hrep⟩ := hg.rep
  have hzero {k : ℕ} (hk : b'.Resting k) : k = 0 := by
    obtain ⟨x, hx⟩ := Option.ne_none_iff_exists'.mp (hrep.resting_iff.mp hk)
    obtain ⟨hmem, rfl⟩ := LiveBook.locate_eq_some hx
    have := (hrep.slot_lt_max (LiveBook.slot_mem_of_order hmem)).2
    rw [hg.capacity] at this
    omega
  rw [hzero hi, hzero hj]

theorem refines_reference_single :
    ∃ replies b replies' r,
      Machine.runAll OrderBook.exec (init 1) [.limit 1 .buy 100 5 0, .limit 2 .sell 100 3 1,
        .modify 0 .sell 101 4 2, .cancel 0] = .ok (replies, b) ∧
      Machine.runAll ReferenceOrderBook.exec .empty (Machine.translate OrderBook.exec named (init 1)
        [.limit 1 .buy 100 5 0, .limit 2 .sell 100 3 1, .modify 0 .sell 101 4 2, .cancel 0]) =
          .ok (replies', r) ∧
      List.Forall₂ Agree replies replies' := by
  have h0 : Reach 1 (init 1) := ⟨[], .nil _⟩
  have s1 : InScope (init 1) (.limit 1 .buy 100 5 0) :=
    .of_add rfl (by simp [Op.price, kBitCount]) (by decide +kernel)
  have h1 := h0.after s1
  have s2 : InScope ((init 1).after (.limit 1 .buy 100 5 0)) (.limit 2 .sell 100 3 1) :=
    .of_add rfl (by simp [Op.price, kBitCount]) (by decide +kernel)
  have h2 := h1.after s2
  have s3 : InScope (((init 1).after (.limit 1 .buy 100 5 0)).after (.limit 2 .sell 100 3 1))
      (.modify 0 .sell 101 4 2) := by
    refine ⟨?_, ?_, ne_error_of_isOk (by decide +kernel)⟩
    · rintro h hm
      obtain rfl := Option.some.inj hm
      exact ⟨.buy, 100, 100, by decide +kernel, by decide +kernel⟩
    · rintro price hp - - -
      obtain rfl := Option.some.inj hp
      decide
  have h3 := h2.after s3
  have s4 : InScope ((((init 1).after (.limit 1 .buy 100 5 0)).after (.limit 2 .sell 100 3 1)).after
      (.modify 0 .sell 101 4 2)) (.cancel 0) := by
    refine ⟨?_, by simp [Op.price], ne_error_of_isOk (by decide +kernel)⟩
    rintro h hm
    obtain rfl := Option.some.inj hm
    exact ⟨.sell, 101, 101, by decide +kernel, by decide +kernel⟩
  exact refines_reference 1 _ (allowed_cons (h0.distinct_of_one s1) (allowed_cons (h1.distinct_of_one s2)
    (allowed_cons (h2.distinct_of_one s3) (allowed_cons (h3.distinct_of_one s4) trivial))))

end ArrayBook

end Llmes
