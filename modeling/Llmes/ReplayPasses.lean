import Llmes.ReplayHarness

namespace Llmes

open OrderBook (canCrossLimit)

@[simp] theorem test_ok_bind {α β : Type} (a : α) (f : α → Test β) : (Except.ok a >>= f : Test β) = f a := rfl

@[simp] theorem test_pure {α : Type} (a : α) : (pure a : Test α) = .ok a := rfl

@[simp] theorem liftExec_ok {α : Type} (a : α) : liftExec (.ok a) = .ok a := rfl

theorem expect_of {ok : Bool} (h : ok = true) (c : Check) : expect ok c = .ok () := if_pos h

theorem expectSameTrades_self (i : ℕ) (ts : List Trade) : expectSameTrades i ts ts = .ok () := by
  induction ts generalizing i with
  | nil => rfl
  | cons t ts ih => simp [expectSameTrades, expect_of, ih]

theorem SameResult.expected {actual expected : AddResult} (h : SameResult actual expected) :
    expectSameAddResult actual expected = .ok () := by
  have hhandle := propext h.handle
  simp only [expectSameAddResult, h.code, h.initialQuantity, h.filledQuantity, h.remainingQuantity, h.trades,
    expectSameTrades_self, hhandle, expect_of, decide_true, test_ok_bind]

def LiveOrder.of (s : Side) (e : Entry) : LiveOrder := ⟨UInt32.ofNat e.slot, s, e.price, e.quantity⟩

def Distinct (P : Side → Entry → Prop) : Prop := ∀ s s' e e', P s e → P s' e' → e.id = e'.id → s = s' ∧ e = e'

def Tracks (live : LiveMap) (P : Side → Entry → Prop) : Prop :=
  ∀ id o, live.find? id = some o ↔ ∃ s e, P s e ∧ e.id = id ∧ o = .of s e

namespace Tracks

variable {live : LiveMap} {P Q : Side → Entry → Prop} {s : Side} {x x' : Entry}

theorem congr (h : Tracks live P) (hPQ : ∀ s e, P s e ↔ Q s e) : Tracks live Q := by
  intro id o
  rw [h id o]
  simp only [hPQ]

theorem find (h : Tracks live P) (hx : P s x) : live.find? x.id = some (.of s x) :=
  (h _ _).mpr ⟨s, x, hx, rfl, rfl⟩

theorem erase (h : Tracks live P) (hd : Distinct P) (hx : P s x) :
    Tracks (live.erase x.id) (fun t e => P t e ∧ ¬ (t = s ∧ e = x)) := by
  intro id o
  rw [OrderedMap.find?_erase]
  by_cases hid : id = x.id
  · subst hid
    rw [if_pos rfl]
    constructor
    · intro ho
      cases ho
    · rintro ⟨t, e, ⟨he, hne⟩, heq, -⟩
      exact absurd (hd _ _ _ _ he hx heq) hne
  · rw [if_neg hid, h id o]
    constructor
    · rintro ⟨t, e, he, rfl, ho⟩
      exact ⟨t, e, ⟨he, fun hne => hid (hne.2 ▸ rfl)⟩, rfl, ho⟩
    · rintro ⟨t, e, ⟨he, -⟩, heq, ho⟩
      exact ⟨t, e, he, heq, ho⟩

theorem insert (h : Tracks live P) (hnew : ∀ t e, P t e → e.id ≠ x.id) :
    Tracks (live.set x.id (.of s x)) (fun t e => P t e ∨ (t = s ∧ e = x)) := by
  intro id o
  rw [OrderedMap.find?_set]
  by_cases hid : id = x.id
  · subst hid
    rw [if_pos rfl]
    constructor
    · rintro ho
      exact ⟨s, x, Or.inr ⟨rfl, rfl⟩, rfl, (Option.some.inj ho).symm⟩
    · rintro ⟨t, e, he | ⟨rfl, rfl⟩, heq, rfl⟩
      · exact absurd heq (hnew t e he)
      · rfl
  · rw [if_neg hid, h id o]
    constructor
    · rintro ⟨t, e, he, heq, ho⟩
      exact ⟨t, e, Or.inl he, heq, ho⟩
    · rintro ⟨t, e, he | ⟨rfl, rfl⟩, heq, ho⟩
      · exact ⟨t, e, he, heq, ho⟩
      · exact absurd heq.symm hid

theorem replace (h : Tracks live P) (hd : Distinct P) (hx : P s x) (hid : x'.id = x.id) :
    Tracks (live.set x.id (.of s x')) (fun t e => (P t e ∧ ¬ (t = s ∧ e = x)) ∨ (t = s ∧ e = x')) := by
  have hset := (h.erase hd hx).insert (s := s) (x := x') (by
    rintro t e ⟨he, hne⟩ heq
    exact hne (hd _ _ _ _ he hx (heq.trans hid)))
  rwa [hid, OrderedMap.set_erase] at hset

end Tracks

def Beside (t : Side) (es : Queue) (Q : Side → Entry → Prop) (s : Side) (e : Entry) : Prop :=
  (s = t ∧ e ∈ es) ∨ Q s e

section Trades

variable {live : LiveMap} {t : Side} {Q : Side → Entry → Prop} {x : Entry} {es rest : Queue}

theorem Distinct.tail (h : Distinct (Beside t (x :: es) Q)) : Distinct (Beside t es Q) := by
  have hmono {s : Side} {e : Entry} (he : Beside t es Q s e) : Beside t (x :: es) Q s e :=
    he.imp_left (fun h => ⟨h.1, List.mem_cons_of_mem x h.2⟩)
  exact fun s s' e e' he he' => h s s' e e' (hmono he) (hmono he')

theorem beside_cons_without (hnd : (x :: es).Nodup) (hQ : ¬ Q t x) (s : Side) (e : Entry) :
    Beside t (x :: es) Q s e ∧ ¬ (s = t ∧ e = x) ↔ Beside t es Q s e := by
  obtain ⟨hnot, -⟩ := List.nodup_cons.mp hnd
  constructor
  · rintro ⟨⟨rfl, he⟩ | he, hne⟩
    · rcases List.mem_cons.mp he with rfl | he
      · exact absurd ⟨rfl, rfl⟩ hne
      · exact Or.inl ⟨rfl, he⟩
    · exact Or.inr he
  · rintro (⟨rfl, he⟩ | he)
    · refine ⟨Or.inl ⟨rfl, List.mem_cons_of_mem x he⟩, ?_⟩
      rintro ⟨-, rfl⟩
      exact hnot he
    · refine ⟨Or.inr he, ?_⟩
      rintro ⟨rfl, rfl⟩
      exact hQ he

theorem applyTrade_whole (h : Tracks live (Beside t (x :: es) Q)) (hd : Distinct (Beside t (x :: es) Q))
    (hnd : (x :: es).Nodup) (hQ : ¬ Q t x) (taker : UInt64) :
    ∃ live', ResultHarness.applyTrade live ((Fill.whole x).trade taker) = .ok live' ∧
      Tracks live' (Beside t es Q) := by
  have hx : Beside t (x :: es) Q t x := Or.inl ⟨rfl, List.mem_cons_self⟩
  refine ⟨live.erase x.id, ?_, (h.erase hd hx).congr (beside_cons_without hnd hQ)⟩
  have hfind := h.find hx
  simp only [ResultHarness.applyTrade, Fill.trade, Fill.whole, hfind]
  simp [LiveOrder.of, expect_of]

theorem applyTrade_part (h : Tracks live (Beside t (x :: es) Q)) (hd : Distinct (Beside t (x :: es) Q))
    (hnd : (x :: es).Nodup) (hQ : ¬ Q t x) (taker : UInt64) {v : UInt64} (hlt : v < x.quantity) :
    ∃ live', ResultHarness.applyTrade live (Fill.trade taker ⟨x, v⟩) = .ok live' ∧
      Tracks live' (Beside t ({ x with quantity := x.quantity - v } :: es) Q) := by
  have hx : Beside t (x :: es) Q t x := Or.inl ⟨rfl, List.mem_cons_self⟩
  have hle : v ≤ x.quantity := UInt64.le_of_lt hlt
  have hne : x.quantity - v ≠ 0 := by
    intro hz
    rw [sub_eq_zero] at hz
    exact UInt64.lt_irrefl _ (hz ▸ hlt)
  refine ⟨live.set x.id (.of t { x with quantity := x.quantity - v }), ?_, ?_⟩
  · have hfind := h.find hx
    simp only [ResultHarness.applyTrade, Fill.trade, hfind]
    simp [LiveOrder.of, expect_of, hle, hne]
  · have hid : ({ x with quantity := x.quantity - v } : Entry).id = x.id := rfl
    apply (h.replace hd hx hid).congr
    intro s e
    rw [beside_cons_without hnd hQ]
    simp only [Beside, List.mem_cons]
    tauto

theorem applyTrades_whole {done : Queue} (h : Tracks live (Beside t (done ++ rest) Q))
    (hd : Distinct (Beside t (done ++ rest) Q)) (hnd : (done ++ rest).Nodup) (hQ : ∀ e ∈ done ++ rest, ¬ Q t e)
    (taker : UInt64) :
    ∃ live', ((done.map Fill.whole).map (Fill.trade taker)).foldlM ResultHarness.applyTrade live = .ok live' ∧
      Tracks live' (Beside t rest Q) ∧ Distinct (Beside t rest Q) := by
  induction done generalizing live with
  | nil => exact ⟨live, rfl, h, hd⟩
  | cons x done ih =>
    obtain ⟨live₁, hlive₁, h₁⟩ := applyTrade_whole h hd hnd (hQ x (by simp)) taker
    obtain ⟨live', hlive', h'⟩ := ih h₁ hd.tail (List.nodup_cons.mp hnd).2
      (fun e he => hQ e (List.mem_cons_of_mem x he))
    refine ⟨live', ?_, h'⟩
    simp only [List.map_cons, List.foldlM_cons, hlive₁, test_ok_bind, hlive']

theorem applyTrades_consumed {left : Queue} {fills : List Fill} (hc : Consumed es left fills)
    (h : Tracks live (Beside t es Q)) (hd : Distinct (Beside t es Q)) (hnd : es.Nodup) (hQ : ∀ e ∈ es, ¬ Q t e)
    (taker : UInt64) :
    ∃ live', (fills.map (Fill.trade taker)).foldlM ResultHarness.applyTrade live = .ok live' ∧
      Tracks live' (Beside t left Q) := by
  cases hc with
  | whole done rest =>
    obtain ⟨live', hlive', h', -⟩ := applyTrades_whole h hd hnd hQ taker
    exact ⟨live', hlive', h'⟩
  | part done e v rest hv hlt =>
    obtain ⟨live₁, hlive₁, h₁, hd₁⟩ := applyTrades_whole h hd hnd hQ taker
    have hnd₁ := (List.nodup_append.mp hnd).2.1
    obtain ⟨live', hlive', h'⟩ := applyTrade_part h₁ hd₁ hnd₁ (hQ e (by simp)) taker hlt
    refine ⟨live', ?_, h'⟩
    simp only [List.map_append, List.map_cons, List.map_nil, List.foldlM_append, hlive₁, test_ok_bind,
      List.foldlM_cons, hlive', List.foldlM_nil, test_pure]

end Trades

section Books

open ResultHarness

variable {live : LiveMap} {A : LiveBook}

def LiveBook.Rests (A : LiveBook) (s : Side) (e : Entry) : Prop := e ∈ A.orders s

theorem LiveBook.rests_beside (A : LiveBook) (t : Side) (s : Side) (e : Entry) :
    A.Rests s e ↔ Beside t (A.orders t) (fun s e => s ≠ t ∧ A.Rests s e) s e := by
  unfold Beside Rests
  by_cases hs : s = t
  · subst hs
    simp
  · simp [hs]

theorem Distinct.congr {P Q : Side → Entry → Prop} (h : Distinct P) (hPQ : ∀ s e, P s e ↔ Q s e) : Distinct Q :=
  fun s s' e e' he he' => h s s' e e' ((hPQ s e).mpr he) ((hPQ s' e').mpr he')

theorem applyTrades_take (h : Tracks live A.Rests) (hd : Distinct A.Rests) (hA : A.Sound) (taker : Side)
    (cross : Int → Bool) (q orderId : UInt64) :
    ∃ live', ((A.take taker cross q).fills.map (Fill.trade orderId)).foldlM applyTrade live = .ok live' ∧
      Tracks live' (A.take taker cross q).left.Rests := by
  have hbeside := A.rests_beside taker.opposite
  obtain ⟨live', hlive', h'⟩ := applyTrades_consumed (LiveBook.consumed_take taker cross q) (h.congr hbeside)
    (hd.congr hbeside) (List.Nodup.of_map _ (hA.orders_nodup _)) (fun e _ hne => hne.1 rfl) orderId
  refine ⟨live', hlive', h'.congr (fun s e => ?_)⟩
  rw [(A.take taker cross q).left.rests_beside taker.opposite]
  apply or_congr Iff.rfl
  apply and_congr_right
  intro hs
  rw [LiveBook.Rests, LiveBook.Rests, LiveBook.take_orders_of_ne taker cross q hs]

theorem rests_take (hA : A.Sound) (taker : Side) (cross : Int → Bool) (q : UInt64) {s : Side} {e' : Entry}
    (he' : (A.take taker cross q).left.Rests s e') : ∃ e, A.Rests s e ∧ e.Continues e' := by
  have hmem (s : Side) (e : Entry) : e ∈ A.orders s ↔
      e ∈ A.orders s ∧ ∀ i ∈ (Op.market 0 taker q 0).handle, i.toNat ≠ e.slot := by simp [Op.handle]
  have htraffic := LiveBook.traffic_take hA hmem taker cross q
  obtain ⟨e, he, hc, -⟩ := htraffic.origin s e' he'
  exact ⟨e, he, hc⟩

theorem Distinct.take (hd : Distinct A.Rests) (hA : A.Sound) {taker : Side} {cross : Int → Bool} {q : UInt64}
    (hleft : (A.take taker cross q).left.Sound) : Distinct (A.take taker cross q).left.Rests := by
  intro s s' e e' he he' hid
  obtain ⟨x, hx, hc⟩ := rests_take hA taker cross q he
  obtain ⟨x', hx', hc'⟩ := rests_take hA taker cross q he'
  obtain ⟨-, hxx⟩ := hd s s' x x' hx hx' (hc.id.symm.trans (hid.trans hc'.id))
  apply hleft.order_unique he he'
  rw [hc.slot, hc'.slot, hxx]

structure Succeeds (A : LiveBook) (orderId : UInt64) (A' : LiveBook) : Prop where
  ids : ∀ s e', A'.Rests s e' → e'.id = orderId ∨ ∃ t e, A.Rests t e ∧ e'.id = e.id
  free : A.free.length ≤ A'.free.length + 1

theorem Succeeds.take (hA : A.Sound) (taker : Side) (cross : Int → Bool) (q orderId : UInt64) :
    Succeeds A orderId (A.take taker cross q).left where
  ids s e' he' := by
    obtain ⟨e, he, hc⟩ := rests_take hA taker cross q he'
    exact Or.inr ⟨s, e, he, hc.id⟩
  free := by
    rw [LiveBook.take_left_free, List.length_append]
    omega

theorem limit_code {orderId : UInt64} {side : Side} {price : Int} {quantity timestamp : UInt64} {out : AddResult}
    {A' : LiveBook} (h : A.limit orderId side price quantity timestamp = some (out, A')) (hq : quantity ≠ 0) :
    out.code = .success := by
  unfold LiveBook.limit at h
  rw [if_neg hq] at h
  dsimp only at h
  split at h
  · obtain ⟨rfl, -⟩ := Prod.mk.inj (Option.some.inj h)
    rfl
  · obtain ⟨x, -, h⟩ := Option.map_eq_some_iff.mp h
    obtain ⟨rfl, -⟩ := Prod.mk.inj h
    rfl

theorem rest_free {orderId : UInt64} {side : Side} {price : Int} {remaining timestamp : UInt64} {n : OrderHandle}
    {A' : LiveBook} (h : A.rest orderId side price remaining timestamp = some (n, A')) {i : ℕ} {free : List ℕ}
    (hfree : A.free = i :: free) : A'.free = free := by
  rw [LiveBook.rest, hfree] at h
  obtain ⟨-, rfl⟩ := Prod.mk.inj (Option.some.inj h)
  exact LiveBook.setQueue_free _ _ _ _

variable {b : ArrayBook}

theorem applyResult_limit (hb : Rep b A) (h : Tracks live A.Rests) (hd : Distinct A.Rests) {orderId : UInt64}
    (hnew : ∀ s e, A.Rests s e → e.id ≠ orderId) {side : Side} {price : Int} {quantity timestamp : UInt64}
    {out : AddResult} {b' : ArrayBook} {A' : LiveBook}
    (hout : b.addLimitOrder orderId side price quantity timestamp = .ok (out, b'))
    (hA : A.limit orderId side price quantity timestamp = some (out, A')) (hb' : Rep b' A') :
    ∃ live', applyResult live orderId side price out = .ok live' ∧ Tracks live' A'.Rests ∧ Distinct A'.Rests ∧
      Succeeds A orderId A' := by
  obtain ⟨m, hm, hphase⟩ := matchLimit_spec hb orderId side price quantity
  obtain ⟨m', hm', hreports⟩ := OrderBook.addLimitOrder_matching hout
  obtain rfl := Except.ok.inj (hm.symm.trans hm')
  obtain ⟨live₁, hlive₁, h₁⟩ := applyTrades_take h hd hb.sound side (canCrossLimit side price) quantity orderId
  have hd₁ := hd.take hb.sound hphase.moved.rep.sound
  have htrades : applyTrades live out = .ok live₁ := by
    rw [applyTrades, hreports.trades, hphase.trades, hlive₁]
  have hgone := Succeeds.take hb.sound side (canCrossLimit side price) quantity orderId
  rcases LiveBook.limit_cases hA rfl with ⟨rfl, -, hz⟩ | ⟨hq, hr, hrest⟩
  · refine ⟨live₁, ?_, h₁, hd₁, hgone⟩
    simp [applyResult, htrades, hz]
  · have hne : quantity ≠ 0 := by
      rintro rfl
      rw [LiveBook.take_zero] at hq
      exact hq rfl
    obtain ⟨i, free, hfree, hn, hmem⟩ := LiveBook.rest_cases hrest
    have hnew₁ : ∀ s e, (A.take side (canCrossLimit side price) quantity).left.Rests s e → e.id ≠ orderId := by
      intro s e he heq
      obtain ⟨x, hx, hc⟩ := rests_take hb.sound _ _ _ he
      exact hnew s x hx (hc.id.symm.trans heq)
    have hins := h₁.insert (s := side) (x := ⟨i, orderId, price, out.remainingQuantity, timestamp⟩) hnew₁
    rw [hr] at hins
    refine ⟨live₁.set orderId (.of side ⟨i, orderId, price, out.remainingQuantity, timestamp⟩), ?_, ?_, ?_, ?_, ?_⟩
    · have hhandle := expect_of (decide_eq_true (rest_handle hphase.moved.rep hrest)) .restingHandle
      have hpos : out.remainingQuantity > 0 := pos_iff_ne_zero.mpr (hr ▸ hq)
      rw [applyResult, htrades, test_ok_bind, if_pos ⟨limit_code hA hne, hpos⟩, hhandle, LiveOrder.of, ← hn]
      rfl
    · rw [hr]
      exact hins.congr (fun s e => (hmem s e).symm)
    · intro s s' e e' he he' hid
      rcases (hmem s e).mp he with he | ⟨rfl, rfl⟩ <;> rcases (hmem s' e').mp he' with he' | ⟨rfl, rfl⟩
      · exact hd₁ s s' e e' he he' hid
      · exact absurd hid (hnew₁ s e he)
      · exact absurd hid.symm (hnew₁ s' e' he')
      · exact ⟨rfl, rfl⟩
    · intro s e' he'
      rcases (hmem s e').mp he' with he' | ⟨-, rfl⟩
      · exact hgone.ids s e' he'
      · exact Or.inl rfl
    · have := hgone.free
      have hlen : A.free.length ≤ (i :: free).length := by
        rw [← hfree, LiveBook.take_left_free, List.length_append]
        omega
      rw [rest_free hrest hfree]
      exact hlen

structure Holds (h : ResultHarness) (A : LiveBook) : Prop where
  rep : Rep h.actual A
  ref : RefRep h.expected A
  tracks : Tracks h.live A.Rests
  distinct : Distinct A.Rests

variable {h : ResultHarness}

theorem Holds.init (capacity : ℕ) : Holds (.init capacity) (LiveBook.init capacity) where
  rep := ArrayBook.rep_init capacity
  ref := RefRep.empty capacity
  tracks id o := by
    constructor
    · intro ho
      cases ho
    · rintro ⟨s, e, he, -⟩
      cases s <;> cases he
  distinct s _ e _ he := by cases s <;> cases he

theorem Holds.limit (hh : Holds h A) {orderId : UInt64} (hnew : ∀ s e, A.Rests s e → e.id ≠ orderId) (side : Side)
    {price : Int} (hprice : 0 ≤ price ∧ price < kBitCount) (quantity timestamp : UInt64) (hroom : A.free ≠ []) :
    ∃ actual expected live' A', h.actual.addLimitOrder orderId side price quantity timestamp = .ok actual ∧
      h.expected.addLimitOrder orderId side price quantity timestamp = .ok expected ∧
      expectSameAddResult actual.1 expected.1 = .ok () ∧
      applyResult h.live orderId side price actual.1 = .ok live' ∧ Holds ⟨actual.2, expected.2, live'⟩ A' ∧
      Succeeds A orderId A' := by
  rcases addLimitOrder_spec hh.rep orderId side price quantity timestamp (fun _ => hprice) with
    ⟨-, hnone⟩ | ⟨hpool, -⟩ | ⟨out, b', A', hb', hA', hmoved⟩
  · have hfree := (LiveBook.limit_eq_none.mp hnone).2
    rw [LiveBook.take_left_free, List.append_eq_nil_iff] at hfree
    exact absurd hfree.2 hroom
  · exact absurd hpool id
  · obtain ⟨out', r', hr', hsame, href⟩ := reference_limit hh.rep hh.ref hA'
    obtain ⟨live', hlive', htracks, hdistinct, hgone⟩ :=
      applyResult_limit hh.rep hh.tracks hh.distinct hnew hb' hA' hmoved.rep
    exact ⟨(out, b'), (out', r'), live', A', hb', hr', hsame.expected, hlive', ⟨hmoved.rep, href, htracks, hdistinct⟩,
      hgone⟩

theorem Holds.addLimit (hh : Holds h A) {orderId : UInt64} (hnew : ∀ s e, A.Rests s e → e.id ≠ orderId) (side : Side)
    {price : Int} (hprice : 0 ≤ price ∧ price < kBitCount) (quantity timestamp : UInt64) (hroom : A.free ≠ []) :
    ∃ h' A', h.addLimit orderId side price quantity timestamp = .ok h' ∧ Holds h' A' ∧ Succeeds A orderId A' := by
  obtain ⟨actual, expected, live', A', hactual, hexpected, hcheck, hlive, hholds, hgone⟩ :=
    hh.limit hnew side hprice quantity timestamp hroom
  refine ⟨_, A', ?_, hholds, hgone⟩
  simp only [ResultHarness.addLimit, hactual, hexpected, liftExec_ok, test_ok_bind, hcheck, hlive, test_pure]

theorem Holds.addMarket (hh : Holds h A) (orderId : UInt64) (side : Side) (quantity timestamp : UInt64) :
    ∃ h' A', h.addMarket orderId side quantity timestamp = .ok h' ∧ Holds h' A' ∧ Succeeds A orderId A' := by
  obtain ⟨b', hb', hmoved⟩ := addMarketOrder_spec hh.rep orderId side quantity timestamp
  obtain ⟨out', r', hr', hsame, href⟩ := reference_market hh.ref orderId side quantity timestamp
  obtain ⟨m, hm, hphase⟩ := matchMarket_spec hh.rep orderId side quantity
  obtain ⟨m', hm', hreports⟩ := OrderBook.addMarketOrder_matching hb'
  obtain rfl := Except.ok.inj (hm.symm.trans hm')
  obtain ⟨live', hlive', htracks⟩ := applyTrades_take hh.tracks hh.distinct hh.rep.sound side (fun _ => true) quantity orderId
  have hleft := (LiveBook.market_left (A := A) orderId side quantity).1
  refine ⟨⟨b', r', live'⟩, _, ?_, ⟨hmoved.rep, href, ?_, ?_⟩, ?_⟩
  · have htrades : applyTrades h.live (A.market orderId side quantity).1 = .ok live' := by
      rw [applyTrades, hreports.trades, hphase.trades, hlive']
    simp only [ResultHarness.addMarket, hb', hr', liftExec_ok, test_ok_bind, hsame.expected, htrades, test_pure]
  · rw [hleft]
    exact htracks
  · rw [hleft]
    exact hh.distinct.take hh.rep.sound hphase.moved.rep.sound
  · rw [hleft]
    exact .take hh.rep.sound side _ quantity orderId

theorem Holds.target (hh : Holds h A) {s : Side} {e : Entry} (he : A.Rests s e) :
    ∃ b', h.live.find? e.id = some (.of s e) ∧ h.actual.pool.resolve (UInt32.ofNat e.slot) = .ok e.slot ∧
      h.actual.removeOrder e.slot = .ok b' ∧ (h.actual.pool.slots e.slot).id = e.id ∧
      ∃ r', h.expected.cancelOrder e.id = (true, r') ∧ Holds ⟨b', r', h.live.erase e.id⟩ (A.remove (s, e)) := by
  have hslot := (Rep.ofNat_ne_invalid (hh.rep.slot_lt_max (LiveBook.slot_mem_of_order he)).1).2
  have hlocate : A.locate (UInt32.ofNat e.slot).toNat ≠ none := by
    rw [hslot]
    exact fun hn => LiveBook.locate_eq_none.mp hn s e he rfl
  obtain ⟨x, b', hx, hres, hb', hid, hmoved, -⟩ := hh.rep.remove_live hlocate
  rw [hslot] at hx hres hb' hid
  obtain ⟨hmem, hxslot⟩ := LiveBook.locate_eq_some hx
  obtain ⟨rfl, rfl⟩ := hh.rep.sound.order_unique hmem he hxslot
  obtain ⟨r', hr', href⟩ := hh.ref.cancel hh.rep.sound hh.distinct he
  refine ⟨b', hh.tracks.find he, hres, hb', hid, r', hr', hmoved.rep, href, ?_, ?_⟩
  · apply (hh.tracks.erase hh.distinct he).congr
    intro t e'
    rw [LiveBook.Rests, LiveBook.Rests, LiveBook.mem_remove hh.rep.sound he]
    apply and_congr_right
    intro he'
    constructor
    · intro hne hslot'
      exact hne (hh.rep.sound.order_unique he' he hslot')
    · rintro hne ⟨-, rfl⟩
      exact hne rfl
  · intro t t' e₁ e₂ h₁ h₂
    exact hh.distinct t t' e₁ e₂ ((LiveBook.mem_remove hh.rep.sound he).mp h₁).1
      ((LiveBook.mem_remove hh.rep.sound he).mp h₂).1

theorem Holds.cancel (hh : Holds h A) {s : Side} {e : Entry} (he : A.Rests s e) :
    ∃ h' A', h.cancel e.id = .ok h' ∧ Holds h' A' ∧ Succeeds A e.id A' := by
  obtain ⟨b', hfind, hres, hb', -, r', hr', hholds⟩ := hh.target he
  refine ⟨_, _, ?_, hholds, fun t e' he' => ?_, ?_⟩
  · simp only [ResultHarness.cancel, hfind, LiveOrder.of, OrderBook.cancelOrder, hres, ok_bind, hb', pure_eq_ok,
      liftExec_ok, test_ok_bind, test_pure, hr']
  · exact Or.inr ⟨t, e', ((LiveBook.mem_remove hh.rep.sound he).mp he').1, rfl⟩
  · rw [LiveBook.remove, LiveBook.setQueue_free, List.length_cons]
    omega

theorem Holds.modify (hh : Holds h A) {s : Side} {e : Entry} (he : A.Rests s e) (side : Side) {price : Int}
    (hprice : 0 ≤ price ∧ price < kBitCount) (quantity timestamp : UInt64) :
    ∃ h' A', h.modify e.id side price quantity timestamp = .ok h' ∧ Holds h' A' ∧ Succeeds A e.id A' := by
  obtain ⟨b', hfind, hres, hb', hid, r', hr', hholds⟩ := hh.target he
  have hfree : (A.remove (s, e)).free = e.slot :: A.free := by rw [LiveBook.remove, LiveBook.setQueue_free]
  have hmem {t : Side} {x : Entry} (hx : (A.remove (s, e)).Rests t x) := (LiveBook.mem_remove hh.rep.sound he).mp hx
  have hnew : ∀ t x, (A.remove (s, e)).Rests t x → x.id ≠ e.id := by
    intro t x hx heq
    obtain ⟨hx, hne⟩ := hmem hx
    exact hne (congrArg Entry.slot (hh.distinct t s x e hx he heq).2)
  obtain ⟨actual, expected, live', A', hactual, hexpected, hcheck, hlive, hholds', hgone⟩ :=
    hholds.limit hnew side hprice quantity timestamp (by simp [hfree])
  refine ⟨_, A', ?_, hholds', fun t x hx => ?_, ?_⟩
  · simp only [ResultHarness.modify, hfind, LiveOrder.of, OrderBook.modifyOrder, ReferenceOrderBook.modifyOrder, hres,
      ok_bind, hb', hid, hr', hactual, hexpected, liftExec_ok, test_ok_bind, hcheck, hlive, test_pure]
  · rcases hgone.ids t x hx with heq | ⟨t', x', hx', heq⟩
    · exact Or.inl heq
    · exact Or.inr ⟨t', x', (hmem hx').1, heq⟩
  · have := hgone.free
    rw [hfree, List.length_cons] at this
    omega

end Books

namespace Replay

open ResultHarness

variable {walk : UInt64 → LiveMap → List UInt64} {s : Replay} {A : LiveBook} {capacity k : ℕ}

structure Running (capacity k : ℕ) (s : Replay) (A : LiveBook) : Prop where
  holds : Holds s.harness A
  ids : ∀ t e, A.Rests t e → e.id.toNat < s.nextOrderId.toNat
  next : s.nextOrderId.toNat ≤ 1000 + k
  room : capacity ≤ A.free.length + k

theorem Running.init (hcap : capacity < 2 ^ 32) (rng : Rng) :
    Running capacity 0 (init capacity rng) (LiveBook.init capacity) where
  holds := .init capacity
  ids t e he := by cases t <;> cases he
  next := le_rfl
  room := by
    have hfree : (LiveBook.init capacity).free = (List.range (capacity % 2 ^ 32)).reverse := rfl
    rw [hfree, List.length_reverse, List.length_range, Nat.mod_eq_of_lt hcap]
    exact le_rfl

theorem Running.fresh (h : Running capacity k s A) (hk : k < capacity) (hcap : capacity < 2 ^ 32) {harness : ResultHarness}
    {A' : LiveBook} (hh : Holds harness A') (hg : Succeeds A s.nextOrderId A') (rng : Rng) (step : UInt64) :
    Running capacity (k + 1) ⟨harness, rng, s.nextOrderId + 1, step⟩ A' := by
  have hnext := h.next
  have hsucc : (s.nextOrderId + 1).toNat = s.nextOrderId.toNat + 1 := by
    rw [UInt64.toNat_add, UInt64.toNat_one, Nat.mod_eq_of_lt (by omega)]
  have hroom := h.room
  have hfree := hg.free
  refine ⟨hh, fun t e he => ?_, by dsimp only; omega, by omega⟩
  dsimp only
  rcases hg.ids t e he with heq | ⟨t', e', he', heq⟩
  · rw [heq]
    omega
  · rw [heq]
    have := h.ids t' e' he'
    omega

theorem Running.old (h : Running capacity k s A) {t : Side} {x : Entry} (hx : A.Rests t x) {harness : ResultHarness}
    {A' : LiveBook} (hh : Holds harness A') (hg : Succeeds A x.id A') (rng : Rng) (step : UInt64) :
    Running capacity (k + 1) ⟨harness, rng, s.nextOrderId, step⟩ A' := by
  have hnext := h.next
  have hroom := h.room
  have hfree := hg.free
  refine ⟨hh, fun t' e he => ?_, by dsimp only; omega, by omega⟩
  rcases hg.ids t' e he with heq | ⟨t'', e', he', heq⟩
  · rw [heq]
    exact h.ids t x hx
  · rw [heq]
    exact h.ids t'' e' he'

theorem Running.target (h : Running capacity k s A) (hwalk : ∀ step (live : LiveMap),
    (walk step live).Perm (live.entries.map Prod.fst)) (hlive : s.harness.hasLiveOrders = true) (index : UInt64) :
    ∃ t x, A.Rests t x ∧ liveOrderAt (walk s.step s.harness.live) index = x.id := by
  have hperm := hwalk s.step s.harness.live
  have hne : 0 < (walk s.step s.harness.live).length := by
    rw [hperm.length_eq, List.length_map, List.length_pos_iff]
    intro hnil
    rw [hasLiveOrders, OrderedMap.isEmpty, hnil] at hlive
    cases hlive
  have hlt := Nat.mod_lt index.toNat hne
  have hmem : liveOrderAt (walk s.step s.harness.live) index ∈ walk s.step s.harness.live := by
    rw [liveOrderAt, List.getD_eq_getElem _ _ hlt]
    exact List.getElem_mem hlt
  obtain ⟨⟨id, o⟩, he, hid⟩ := List.mem_map.mp (hperm.mem_iff.mp hmem)
  obtain ⟨t, x, hx, hxid, -⟩ := (h.holds.tracks id o).mp (OrderedMap.find?_of_mem he)
  exact ⟨t, x, hx, by rw [hxid, ← hid]⟩

theorem randomPrice_range (rng : Rng) : 0 ≤ (randomPrice rng).1 ∧ (randomPrice rng).1 < kBitCount := by
  have hlt : (rng.head % 41).toNat < 41 := by
    rw [UInt64.toNat_mod]
    exact Nat.mod_lt _ (by decide)
  simp only [randomPrice, kBitCount]
  omega

theorem Running.round (h : Running capacity k s A) (hk : k < capacity) (hcap : capacity < 2 ^ 32)
    (hwalk : ∀ step (live : LiveMap), (walk step live).Perm (live.entries.map Prod.fst)) :
    ∃ s' A', round walk s = .ok s' ∧ Running capacity (k + 1) s' A' := by
  have hroom : A.free ≠ [] := by
    intro hnil
    have := h.room
    rw [hnil, List.length_nil] at this
    omega
  have hnew : ∀ t e, A.Rests t e → e.id ≠ s.nextOrderId := by
    intro t e he heq
    have := h.ids t e he
    rw [heq] at this
    omega
  unfold Replay.round
  dsimp only
  split
  · obtain ⟨h', A', hh', hholds, hgone⟩ := h.holds.addLimit hnew (randomSide s.rng.tail).1
      (randomPrice_range (randomSide s.rng.tail).2) (1 + (randomPrice (randomSide s.rng.tail).2).2.head % 25) s.step hroom
    rw [hh', test_ok_bind]
    exact ⟨_, A', rfl, h.fresh hk hcap hholds hgone _ _⟩
  · next hlive =>
    have hlive : s.harness.hasLiveOrders = true := by
      simp only [not_or, Bool.not_eq_false] at hlive
      exact hlive.1
    split
    · obtain ⟨h', A', hh', hholds, hgone⟩ := h.holds.addMarket s.nextOrderId (randomSide s.rng.tail).1
        (1 + (randomSide s.rng.tail).2.head % 80) s.step
      rw [hh', test_ok_bind]
      exact ⟨_, A', rfl, h.fresh hk hcap hholds hgone _ _⟩
    · obtain ⟨t, x, hx, htarget⟩ := h.target hwalk hlive s.rng.tail.head
      rw [htarget]
      split
      · obtain ⟨h', A', hh', hholds, hgone⟩ := h.holds.cancel hx
        rw [hh', test_ok_bind]
        exact ⟨_, A', rfl, h.old hx hholds hgone _ _⟩
      · set side := randomSide s.rng.tail.tail
        set quantity := if (randomPrice side.2).2.head % 50 = 0 then (0, (randomPrice side.2).2.tail) else
          (1 + (randomPrice side.2).2.tail.head % 30, (randomPrice side.2).2.tail.tail)
        obtain ⟨h', A', hh', hholds, hgone⟩ := h.holds.modify hx side.1 (randomPrice_range side.2) quantity.1 s.step
        rw [hh', test_ok_bind]
        exact ⟨_, A', rfl, h.old hx hholds hgone _ _⟩

/-- Whatever words the generator gives, and in whatever order the map is walked, the test of so many
rounds passes, and its map has just one order for each slot that is taken, and no other. -/
theorem random_replay_passes (hcap : capacity < 2 ^ 32) {steps : ℕ} (hsteps : steps ≤ capacity) (rng : Rng)
    (hwalk : ∀ step (live : LiveMap), (walk step live).Perm (live.entries.map Prod.fst)) :
    ∃ s, run walk steps (init capacity rng) = .ok s ∧
      (∀ i, s.harness.actual.Resting i ↔ ∃ id o, s.harness.live.find? id = some o ∧ o.handle.toNat = i) ∧
      ∀ i, s.harness.actual.Resting i → ∃! id, ∃ o, s.harness.live.find? id = some o ∧ o.handle.toNat = i := by
  have hrun := Outcome.Ends.times (E := fun _ => False) (f := Replay.round walk) (n := steps) (k := 0)
    (P := fun j s => ∃ A, Running capacity j s A) (s := init capacity rng) (fun i hi s hs => ?_)
    ⟨_, .init hcap rng⟩
  · obtain ⟨s, hs, A, hA⟩ := hrun.exists_ok
    have hslot {t : Side} {e : Entry} (he : A.Rests t e) : (LiveOrder.of t e).handle.toNat = e.slot :=
      (Rep.ofNat_ne_invalid (hA.holds.rep.slot_lt_max (LiveBook.slot_mem_of_order he)).1).2
    have hname (i : ℕ) (hi : s.harness.actual.Resting i) : ∃ t e, A.Rests t e ∧ e.slot = i ∧
        s.harness.live.find? e.id = some (.of t e) := by
      obtain ⟨x, hx⟩ := Option.ne_none_iff_exists'.mp (hA.holds.rep.resting_iff.mp hi)
      obtain ⟨hmem, hi⟩ := LiveBook.locate_eq_some hx
      exact ⟨_, _, hmem, hi, hA.holds.tracks.find hmem⟩
    refine ⟨s, hs, fun i => ⟨fun hi => ?_, ?_⟩, fun i hi => ?_⟩
    · obtain ⟨t, e, he, rfl, hfind⟩ := hname i hi
      exact ⟨_, _, hfind, hslot he⟩
    · rintro ⟨id, o, ho, rfl⟩
      obtain ⟨t, e, he, -, rfl⟩ := (hA.holds.tracks id o).mp ho
      rw [hslot he, hA.holds.rep.resting_iff]
      exact fun hn => LiveBook.locate_eq_none.mp hn t e he rfl
    · obtain ⟨t, e, he, rfl, hfind⟩ := hname i hi
      refine ⟨e.id, ⟨_, hfind, hslot he⟩, ?_⟩
      -- two orders of the map in one slot are one order of the book
      rintro id ⟨o, ho, heq⟩
      obtain ⟨t', e', he', rfl, rfl⟩ := (hA.holds.tracks id o).mp ho
      rw [hslot he'] at heq
      obtain ⟨-, rfl⟩ := hA.holds.rep.sound.order_unique he' he heq
      rfl
  · obtain ⟨A, hA⟩ := hs
    rw [zero_add] at hA ⊢
    obtain ⟨s', A', hs', hA'⟩ := hA.round (lt_of_lt_of_le hi hsteps) hcap hwalk
    rw [hs']
    exact ⟨A', hA'⟩

theorem random_replay_passes_10000 :
    ∃ s, run (fun _ live => live.entries.map Prod.fst) 10000 (init 30000 (fun n => UInt64.ofNat (n * n))) = .ok s ∧
      (∀ i, s.harness.actual.Resting i ↔ ∃ id o, s.harness.live.find? id = some o ∧ o.handle.toNat = i) ∧
      ∀ i, s.harness.actual.Resting i → ∃! id, ∃ o, s.harness.live.find? id = some o ∧ o.handle.toNat = i :=
  random_replay_passes (by decide) (by decide) _ (fun _ _ => .refl _)

end Replay

end Llmes
