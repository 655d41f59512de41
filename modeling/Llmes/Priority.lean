import Llmes.Conservation
import Llmes.Invariants

namespace Llmes

open BookSide BookView LawfulBookSide OrderBook

def remnant (fills : List Fill) (e : Entry) : Option Entry :=
  match fills.find? (fun f => f.maker.slot = e.slot) with
  | none => some e
  | some f => if f.quantity = e.quantity then none else some { e with quantity := e.quantity - f.quantity }

theorem remnant_of_forall_ne {fills : List Fill} {e : Entry} (h : ∀ f ∈ fills, f.maker.slot ≠ e.slot) :
    remnant fills e = some e := by
  have hf : fills.find? (fun f => f.maker.slot = e.slot) = none :=
    List.find?_eq_none.mpr (fun f hf => by simpa using h f hf)
  rw [remnant, hf]

theorem remnant_of_mem {fills : List Fill} {f : Fill} (hnd : (fills.map (fun f => f.maker.slot)).Nodup)
    (hf : f ∈ fills) : remnant fills f.maker =
      if f.quantity = f.maker.quantity then none
      else some { f.maker with quantity := f.maker.quantity - f.quantity } := by
  have hfind : fills.find? (fun g => g.maker.slot = f.maker.slot) = some f := by
    obtain ⟨xs, ys, rfl⟩ := List.append_of_mem hf
    rw [List.map_append, List.map_cons, List.nodup_append] at hnd
    rw [List.find?_append, List.find?_eq_none.mpr, Option.none_or, List.find?_cons_of_pos (by simp)]
    intro g hg
    simpa using hnd.2.2 _ (List.mem_map_of_mem hg) _ (List.mem_cons_self)
  rw [remnant, hfind]

theorem remnant_price {fills : List Fill} {e e' : Entry} (h : remnant fills e = some e') : e'.price = e.price := by
  unfold remnant at h
  split at h
  · rw [← Option.some.inj h]
  · split at h
    · cases h
    · rw [← Option.some.inj h]

namespace Consumed

variable {es left : Queue} {fills : List Fill}

theorem makers_prefix (h : Consumed es left fills) : fills.map Fill.maker <+: es := by
  have hwhole (q : Queue) : (q.map Fill.whole).map Fill.maker = q := by
    rw [List.map_map]
    exact List.map_id _
  cases h with
  | whole done rest =>
    rw [hwhole]
    exact List.prefix_append _ _
  | part done e v rest hv hlt =>
    rw [List.map_append, hwhole]
    exact ⟨rest, by simp⟩

theorem slots_nodup (h : Consumed es left fills) (hnd : (es.map Entry.slot).Nodup) :
    (fills.map (fun f => f.maker.slot)).Nodup := by
  have hp := h.makers_prefix.map Entry.slot
  rw [List.map_map] at hp
  exact hnd.sublist hp.sublist

theorem quantity_le (h : Consumed es left fills) {f : Fill} (hf : f ∈ fills) : f.quantity ≤ f.maker.quantity := by
  have hwhole {q : Queue} (hf : f ∈ q.map Fill.whole) : f.quantity ≤ f.maker.quantity := by
    obtain ⟨e, -, rfl⟩ := List.mem_map.mp hf
    exact UInt64.le_refl _
  cases h with
  | whole done rest => exact hwhole hf
  | part done e v rest hv hlt =>
    rcases List.mem_append.mp hf with hf | hf
    · exact hwhole hf
    · rw [List.mem_singleton.mp hf]
      exact UInt64.le_of_lt hlt

theorem dropLast_whole (h : Consumed es left fills) {f : Fill} (hf : f ∈ fills.dropLast) :
    f.quantity = f.maker.quantity := by
  have hwhole {q : Queue} (hf : f ∈ q.map Fill.whole) : f.quantity = f.maker.quantity := by
    obtain ⟨e, -, rfl⟩ := List.mem_map.mp hf
    rfl
  cases h with
  | whole done rest => exact hwhole (List.mem_of_mem_dropLast hf)
  | part done e v rest hv hlt =>
    rw [List.dropLast_concat] at hf
    exact hwhole hf

theorem head_of_part (h : Consumed es left fills) {f : Fill} (hf : f ∈ fills) (hlt : f.quantity < f.maker.quantity) :
    ∃ rest, left = { f.maker with quantity := f.maker.quantity - f.quantity } :: rest := by
  have hwhole {q : Queue} : f ∉ q.map Fill.whole := by
    intro hm
    obtain ⟨e, -, rfl⟩ := List.mem_map.mp hm
    exact UInt64.lt_irrefl _ hlt
  cases h with
  | whole done rest => exact absurd hf hwhole
  | part done e v rest hv hlt =>
    rcases List.mem_append.mp hf with hf | hf
    · exact absurd hf hwhole
    · rw [List.mem_singleton.mp hf]
      exact ⟨rest, rfl⟩

theorem filterMap_remnant_whole {done : Queue} (hnd : (fills.map (fun f => f.maker.slot)).Nodup)
    (h : ∀ e ∈ done, Fill.whole e ∈ fills) : done.filterMap (remnant fills) = [] := by
  apply List.filterMap_eq_nil_iff.mpr
  intro e he
  exact (remnant_of_mem hnd (h e he)).trans (if_pos rfl)

theorem filterMap_remnant_spared {rest : Queue} (h : ∀ e ∈ rest, ∀ f ∈ fills, f.maker.slot ≠ e.slot) :
    rest.filterMap (remnant fills) = rest := by
  refine (List.filterMap_congr (g := some) (fun e he => ?_)).trans List.filterMap_some
  exact remnant_of_forall_ne (h e he)

theorem left_eq (h : Consumed es left fills) (hnd : (es.map Entry.slot).Nodup) :
    left = es.filterMap (remnant fills) := by
  have hfills := h.slots_nodup hnd
  cases h with
  | whole done =>
    rw [List.map_append, List.nodup_append] at hnd
    rw [List.filterMap_append, filterMap_remnant_whole hfills (fun e he => List.mem_map_of_mem he),
      filterMap_remnant_spared, List.nil_append]
    intro e he f hf
    obtain ⟨d, hd, rfl⟩ := List.mem_map.mp hf
    exact hnd.2.2 _ (List.mem_map_of_mem hd) _ (List.mem_map_of_mem he)
  | part done e v rest hv hlt =>
    rw [List.map_append, List.map_cons, List.nodup_append, List.nodup_cons] at hnd
    have hpart : remnant (done.map Fill.whole ++ [⟨e, v⟩]) e = some { e with quantity := e.quantity - v } := by
      have hr := remnant_of_mem hfills (f := ⟨e, v⟩) (List.mem_append_right _ List.mem_cons_self)
      dsimp only at hr
      rw [hr, if_neg]
      rintro rfl
      exact UInt64.lt_irrefl _ hlt
    rw [List.filterMap_append,
      filterMap_remnant_whole hfills (fun e he => List.mem_append_left _ (List.mem_map_of_mem he)),
      List.filterMap_cons, hpart, filterMap_remnant_spared, List.nil_append]
    intro e' he' f hf
    rcases List.mem_append.mp hf with hf | hf
    · obtain ⟨d, hd, rfl⟩ := List.mem_map.mp hf
      exact hnd.2.2 _ (List.mem_map_of_mem hd) _ (List.mem_cons_of_mem _ (List.mem_map_of_mem he'))
    · rw [List.mem_singleton.mp hf]
      exact fun heq => hnd.2.1.1 (heq ▸ List.mem_map_of_mem he')

theorem filter (h : Consumed es left fills) (p : Entry → Bool) (hp : ∀ f ∈ fills, p f.maker = true)
    (hq : ∀ (e : Entry) v, p { e with quantity := v } = p e) : Consumed (es.filter p) (left.filter p) fills := by
  cases h with
  | whole done =>
    have hdone : done.filter p = done :=
      List.filter_eq_self.mpr (fun e he => hp _ (List.mem_map_of_mem he))
    rw [List.filter_append, hdone]
    apply whole
  | part done e v rest hv hlt =>
    have hdone : done.filter p = done :=
      List.filter_eq_self.mpr (fun e he => hp _ (List.mem_append_left _ (List.mem_map_of_mem he)))
    have he : p e = true := hp ⟨e, v⟩ (List.mem_append_right _ List.mem_cons_self)
    rw [List.filter_append, hdone, List.filter_cons_of_pos he, List.filter_cons_of_pos ((hq e _).trans he)]
    exact part done e v _ hv hlt

end Consumed

theorem takeLevels_cross {cross : Int → Bool} {q : UInt64} {es : List (Int × Queue)} {f : Fill}
    (hf : f ∈ (takeLevels cross q es).fills) : ∃ x ∈ es, cross x.1 = true ∧ f.maker ∈ x.2 := by
  induction es generalizing q with
  | nil => simp [takeLevels] at hf
  | cons l rest ih =>
    obtain ⟨p, es⟩ := l
    rw [takeLevels] at hf
    split at hf
    · cases hf
    · next hgo =>
      rw [not_or, Bool.not_eq_false] at hgo
      dsimp only at hf
      have hlevel {f : Fill} (hf : f ∈ (takeQueue q es).fills) :
          ∃ x ∈ (p, es) :: rest, cross x.1 = true ∧ f.maker ∈ x.2 :=
        ⟨_, List.mem_cons_self, hgo.2, (consumed_takeQueue q es).maker_mem hf⟩
      split at hf
      · rcases List.mem_append.mp hf with hf | hf
        · exact hlevel hf
        · obtain ⟨x, hx, hcross⟩ := ih hf
          exact ⟨x, List.mem_cons_of_mem _ hx, hcross⟩
      · exact hlevel hf

namespace Levels

variable {isAsk : Bool}

theorem queue_of_mem {m : Levels isAsk} {x : Int × Queue} (hx : x ∈ m.entries) : queue m x.1 = x.2 := by
  rw [queue, OrderedMap.find?_of_mem hx]
  rfl

theorem orders_eq_flatMap {m : Levels isAsk} (hm : Proper m) {ps : List Int} (hps : ps.Pairwise (PriceCompare isAsk))
    (hall : ∀ p, queue m p ≠ [] → p ∈ ps) : orders m = ps.flatMap (queue m) := by
  have hmem (p : Int) : p ∈ m.entries.map Prod.fst ↔ p ∈ ps.filter (fun p => queue m p ≠ []) := by
    rw [List.mem_filter, decide_eq_true_eq, List.mem_map]
    constructor
    · rintro ⟨x, hx, rfl⟩
      have hne : queue m x.1 ≠ [] := by
        rw [queue_of_mem hx]
        intro hnil
        exact hm x.1 (hnil ▸ OrderedMap.find?_of_mem hx)
      exact ⟨hall _ hne, hne⟩
    · rintro ⟨-, hne⟩
      cases hf : m.find? p with
      | none => simp [queue, hf] at hne
      | some q => exact ⟨(p, q), OrderedMap.find?_eq_some.mp hf, rfl⟩
  have hkeys : m.entries.map Prod.fst = ps.filter (fun p => queue m p ≠ []) := by
    have hpw := hps.filter (fun p => queue m p ≠ [])
    refine List.Perm.eq_of_pairwise ?_ m.sorted hpw ?_
    · exact fun a b _ _ hab hba => absurd hba (asymm_of (PriceCompare isAsk) hab)
    · exact (List.perm_ext_iff_of_nodup m.sorted.nodup hpw.nodup).mpr hmem
  have hflat (l : List Int) : (l.filter (fun p => queue m p ≠ [])).flatMap (queue m) = l.flatMap (queue m) := by
    induction l with
    | nil => rfl
    | cons p l ih =>
      by_cases hp : queue m p = []
      · rw [List.filter_cons_of_neg (by simp [hp]), List.flatMap_cons, hp, ih, List.nil_append]
      · rw [List.filter_cons_of_pos (by simp [hp]), List.flatMap_cons, List.flatMap_cons, ih]
  rw [orders, ← hflat, ← hkeys, List.flatMap_map]
  apply List.flatMap_congr
  exact fun x hx => (queue_of_mem hx).symm

end Levels

namespace LiveBook

variable {A : LiveBook}

theorem queue_eq_filter (h : A.Sound) (s : Side) (p : Int) :
    A.queue s p = (A.orders s).filter (fun e => e.price = p) := by
  have hprice {x : Int × Queue} (hx : x ∈ (A.side s).entries) : ∀ e ∈ x.2, e.price = x.1 := by
    rw [← Levels.queue_of_mem hx]
    exact h.price s x.1
  have hsorted := (A.side s).sorted
  rw [queue, Levels.queue, orders, Levels.orders, OrderedMap.find?]
  generalize (A.side s).entries = es at hprice hsorted
  induction es with
  | nil => rfl
  | cons x es ih =>
    rw [List.map_cons, List.pairwise_cons] at hsorted
    have ih := ih (fun hx => hprice (List.mem_cons_of_mem _ hx)) hsorted.2
    rw [List.flatMap_cons, List.filter_append, ← ih]
    by_cases hx : x.1 = p
    · have hrest : es.find? (fun y => y.1 = p) = none := by
        apply List.find?_eq_none.mpr
        intro y hy
        rw [decide_eq_true_eq]
        rintro rfl
        exact irrefl_of (PriceCompare s.isAsk) _ (hx ▸ hsorted.1 _ (List.mem_map_of_mem hy))
      rw [List.find?_cons_of_pos (by simpa using hx), hrest, List.filter_eq_self.mpr]
      · simp
      · intro e he
        simpa using (hprice List.mem_cons_self e he).trans hx
    · rw [List.find?_cons_of_neg (by simpa using hx), List.filter_eq_nil_iff.mpr, List.nil_append]
      intro e he
      rw [decide_eq_true_eq, hprice List.mem_cons_self e he]
      exact hx

theorem take_cross (h : A.Sound) {taker : Side} {cross : Int → Bool} {q : UInt64} {f : Fill}
    (hf : f ∈ (A.take taker cross q).fills) : cross f.maker.price = true := by
  rw [take_fills] at hf
  obtain ⟨x, hx, hcross, hmem⟩ := takeLevels_cross hf
  have hq : Levels.queue (A.side taker.opposite) x.1 = x.2 := Levels.queue_of_mem hx
  rw [← hq] at hmem
  rwa [h.price taker.opposite x.1 _ hmem]

end LiveBook

def Op.add (price : Option Int) (orderId : UInt64) (side : Side) (quantity timestamp : UInt64) : Op :=
  match price with
  | some price => .limit orderId side price quantity timestamp
  | none => .market orderId side quantity timestamp

def crossing (taker : Side) : Option Int → Int → Bool
  | some price => canCrossLimit taker price
  | none => fun _ => true

namespace ArrayBook

def bestFirst (s : Side) : List ℕ :=
  if s.isAsk then List.range kBitCount else (List.range kBitCount).reverse

def crossed (b : ArrayBook) (taker : Side) (cross : Int → Bool) : Queue :=
  ((bestFirst taker.opposite).flatMap (b.contents taker.opposite)).filter (fun e => cross e.price)

variable {b : ArrayBook} {A : LiveBook} {price : Option Int} {orderId q timestamp : UInt64} {side : Side}

theorem bestFirst_pairwise (s : Side) :
    ((bestFirst s).map (fun i : ℕ => (i : Int))).Pairwise (PriceCompare s.isAsk) := by
  rw [List.pairwise_map]
  cases s
  · simp only [bestFirst, Side.isAsk, Bool.false_eq_true, if_false, List.pairwise_reverse]
    exact List.pairwise_lt_range.imp (fun h => by simpa using h)
  · simp only [bestFirst, Side.isAsk, if_true]
    exact List.pairwise_lt_range.imp (fun h => by simpa using h)

theorem orders_eq (h : Rep b A) (s : Side) : A.orders s = (bestFirst s).flatMap (b.contents s) := by
  have hall (p : Int) (hp : A.queue s p ≠ []) : p ∈ (bestFirst s).map (fun i : ℕ => (i : Int)) := by
    obtain ⟨h₀, h₁⟩ := queue_range h s p hp
    refine List.mem_map.mpr ⟨p.toNat, ?_, by omega⟩
    cases s <;> simp [bestFirst, Side.isAsk] <;> omega
  rw [LiveBook.orders, Levels.orders_eq_flatMap (h.proper s) (bestFirst_pairwise s) hall, List.flatMap_map]
  apply List.flatMap_congr
  exact fun i _ => (contents_eq h s i).symm

theorem crossed_eq (h : Rep b A) (taker : Side) (cross : Int → Bool) :
    b.crossed taker cross = (A.orders taker.opposite).filter (fun e => cross e.price) := by
  rw [crossed, orders_eq h]

theorem consumed_crossed (h : Rep b A) (taker : Side) (cross : Int → Bool) (q : UInt64) :
    Consumed (b.crossed taker cross)
      (((A.take taker cross q).left.orders taker.opposite).filter (fun e => cross e.price))
      (A.take taker cross q).fills := by
  rw [crossed_eq h]
  apply (LiveBook.consumed_take taker cross q).filter
  · exact fun f hf => LiveBook.take_cross h.sound hf
  · exact fun _ _ => rfl

theorem take_stop (h : Rep b A) (hq : (A.take side (crossing side price) q).quantity ≠ 0) {e : Entry}
    (he : e ∈ (A.take side (crossing side price) q).left.orders side.opposite) :
    crossing side price e.price = false := by
  obtain ⟨m, hs⟩ : ∃ m, Swept side 0 (crossing side price) { book := b, quantity := q, out := {} } m
      (A.take side (crossing side price) q) := by
    cases price with
    | some price =>
      obtain ⟨m, -, hs⟩ := matchingEngineLimit_spec side h {} 0 price q
      exact ⟨m, hs⟩
    | none =>
      obtain ⟨m, -, hs⟩ := matchingEngineMarket_spec side h {} 0 q
      exact ⟨m, hs⟩
  rcases hs.stop with hz | hstop
  · exact absurd (hs.quantity.symm.trans hz) hq
  · exact hstop e.price (hs.rep.ref_ne_none (List.ne_nil_of_mem (hs.rep.sound.order he).1))

theorem matching_add : A.matching (.add price orderId side q timestamp) =
    some (A.take side (crossing side price) q) := by
  cases price <;> rfl

theorem total_take (h : Rep b A) :
    total (A.take side (crossing side price) q).fills =
      min q.toNat (held (b.crossed side (crossing side price))) := by
  have hc := consumed_crossed h side (crossing side price) q
  have htotal := takeLevels_total (crossing side price) q (A.side side.opposite).entries
  rw [← LiveBook.take_fills, ← LiveBook.take_quantity] at htotal
  have hheld := hc.total_eq
  by_cases hz : (A.take side (crossing side price) q).quantity = 0
  · rw [hz, UInt64.toNat_zero] at htotal
    simp only [held] at hheld ⊢
    omega
  · have hnone : ((A.take side (crossing side price) q).left.orders side.opposite).filter
        (fun e => crossing side price e.price) = [] := by
      apply List.filter_eq_nil_iff.mpr
      intro e he
      rw [take_stop h hz he]
      exact Bool.false_ne_true
    rw [hnone] at hheld
    simp only [held, List.map_nil, List.sum_nil] at hheld ⊢
    omega

theorem left_queue (h : Rep b A) {cross : Int → Bool} (hleft : (A.take side cross q).left.Sound) (s : Side)
    (p : Int) : (A.take side cross q).left.queue s p =
      (A.queue s p).filterMap (remnant (A.take side cross q).fills) := by
  have hc := LiveBook.consumed_take (A := A) side cross q
  rcases Side.eq_or_eq_opposite side s with rfl | rfl
  · have hown : (A.take s cross q).left.queue s p = A.queue s p := by
      rw [LiveBook.queue, LiveBook.take_left_side_of_ne _ _ _ _ s.opposite_ne.symm]
      rfl
    rw [hown, Consumed.filterMap_remnant_spared]
    intro e he f hf
    exact h.sound.slot_ne_of_side (LiveBook.mem_orders.mpr ⟨p, he⟩) (hc.maker_mem hf) s.opposite_ne
  · rw [LiveBook.queue_eq_filter hleft, LiveBook.queue_eq_filter h.sound, hc.left_eq (h.sound.orders_nodup _),
      List.filter_filterMap, List.filterMap_filter]
    apply List.filterMap_congr
    intro e _
    cases hr : remnant (A.take side cross q).fills e with
    | none => simp
    | some e' =>
      rw [Option.filter_some, remnant_price hr]

theorem add_queue (h : Rep b A) {m : MatchState ArraySideBook ℕ}
    (hp : Phase orderId b m (A.take side (crossing side price) q)) {out : AddResult} {A' : LiveBook}
    (hA : A.exec (.add price orderId side q timestamp) = some (.added out, A')) (s : Side) (p : Int) :
    A'.queue s p = (A.queue s p).filterMap (remnant (A.take side (crossing side price) q).fills) ++
      if s = side ∧ some p = price ∧ out.remainingQuantity ≠ 0 then
        [⟨out.handle.toNat, orderId, p, out.remainingQuantity, timestamp⟩]
      else [] := by
  have hrep := hp.moved.rep
  rw [← left_queue h hrep.sound]
  rcases LiveBook.exec_cases hA matching_add with ⟨rfl, -, hzero⟩ | ⟨k, hk, hq, hrem, hrest⟩
  · rw [if_neg, List.append_nil]
    rintro ⟨-, rfl, hne⟩
    exact hne (hzero (Option.some_ne_none _))
  · change out.remainingQuantity = _ at hrem
    cases price with
    | none => cases hk
    | some price =>
      obtain rfl := Option.some.inj hk
      rw [hrep.rest_queue hrest, hrem]
      congr 1
      by_cases hsp : s = side ∧ p = price
      · rw [if_pos hsp, if_pos ⟨hsp.1, congrArg some hsp.2, hq⟩, hsp.2]
        rfl
      · rw [if_neg hsp, if_neg]
        exact fun hsp' => hsp ⟨hsp'.1, Option.some.inj hsp'.2.1⟩

/-- An add trades with the orders that it crosses, from the first on and each in full but perhaps the
last, until it is filled or has traded with all of them. Everything else stays in its place, and the
remainder of a limit order comes last at its price. -/
theorem price_time_priority {capacity : ℕ} (h : Reach capacity b)
    (hs : InScope b (.add price orderId side q timestamp)) :
    ∃ out b' fills, b.exec (.add price orderId side q timestamp) = .ok (.added out, b') ∧
      out.trades = fills.map (Fill.trade orderId) ∧
      fills.map Fill.maker <+: b.crossed side (crossing side price) ∧
      ((b.crossed side (crossing side price)).map Entry.slot).Nodup ∧
      (∀ f ∈ fills, 0 < f.quantity ∧ f.quantity ≤ f.maker.quantity) ∧
      (∀ f ∈ fills.dropLast, f.quantity = f.maker.quantity) ∧
      total fills = min q.toNat (held (b.crossed side (crossing side price))) ∧
      out.remainingQuantity.toNat + total fills = q.toNat ∧
      (∀ f ∈ fills, f.quantity < f.maker.quantity → ∃ i : ℕ, f.maker.price = i ∧
        (contents b' side.opposite i).head? =
          some { f.maker with quantity := f.maker.quantity - f.quantity }) ∧
      ∀ s (i : ℕ), contents b' s i = (b.contents s i).filterMap (remnant fills) ++
        if s = side ∧ some (i : Int) = price ∧ out.remainingQuantity ≠ 0 then
          [⟨out.handle.toNat, orderId, i, out.remainingQuantity, timestamp⟩]
        else [] := by
  obtain ⟨A, hrep⟩ := h.good.rep
  obtain ⟨reply, b', A', hb, hA, hmoved⟩ := hs.exec hrep
  obtain ⟨out, rfl⟩ : ∃ out, reply = .added out := by
    cases price <;> (obtain ⟨r, -, hr⟩ := bind_eq_ok.mp hb; exact ⟨r.1, (Prod.mk.inj (Except.ok.inj hr)).1.symm⟩)
  have hlive : Op.Live A (.add price orderId side q timestamp) := by cases price <;> trivial
  obtain ⟨m, t, hm, ht, hp⟩ := matching_spec hrep _ hlive
  obtain rfl := Option.some.inj (matching_add.symm.trans ht)
  obtain ⟨m', hm', htrades, hrem, -⟩ := exec_matching hb
  obtain rfl := Except.ok.inj (hm.symm.trans hm')
  have htaker : A.takerId (.add price orderId side q timestamp) = orderId := by cases price <;> rfl
  rw [htaker] at hp
  have hqueue := add_queue hrep hp hA
  have hc := consumed_crossed hrep side (crossing side price) q
  have hnd : ((b.crossed side (crossing side price)).map Entry.slot).Nodup := by
    rw [crossed_eq hrep]
    exact (hrep.sound.orders_nodup _).sublist (List.filter_sublist.map _)
  have hnonzero : ∀ e ∈ b.crossed side (crossing side price), e.quantity ≠ 0 := by
    intro e he
    rw [crossed_eq hrep] at he
    exact (hrep.sound.order (List.mem_of_mem_filter he)).2
  refine ⟨out, b', _, hb, htrades.trans hp.trades, hc.makers_prefix, hnd, ?_, fun f => hc.dropLast_whole,
    total_take hrep, ?_, ?_, ?_⟩
  · exact fun f hf => ⟨pos_iff_ne_zero.mpr (hc.quantity_ne_zero hnonzero hf), hc.quantity_le hf⟩
  · have htotal := takeLevels_total (crossing side price) q (A.side side.opposite).entries
    change out.remainingQuantity = _ at hrem
    rw [hrem, hp.quantity, LiveBook.take_quantity, LiveBook.take_fills]
    omega
  · intro f hf hlt
    have hall := LiveBook.consumed_take (A := A) side (crossing side price) q
    obtain ⟨rest, hleft⟩ := hall.head_of_part hf hlt
    have hmaker := (hrep.sound.order (hall.maker_mem hf)).1
    obtain ⟨h₀, -⟩ := queue_range hrep _ _ (List.ne_nil_of_mem hmaker)
    refine ⟨f.maker.price.toNat, by omega, ?_⟩
    rw [contents_eq hmoved.rep, hqueue, if_neg (fun hs => side.opposite_ne hs.1), List.append_nil,
      ← left_queue hrep hp.moved.rep.sound, LiveBook.queue_eq_filter hp.moved.rep.sound, hleft,
      List.filter_cons_of_pos (by simp; omega)]
    rfl
  · intro s i
    rw [contents_eq hmoved.rep, contents_eq hrep]
    exact hqueue s i

theorem price_time_priority_sample : ∃ out b' fills,
    sample.exec (.add (some 101) 7 .buy 4 5) = .ok (.added out, b') ∧
      out.trades = fills.map (Fill.trade 7) ∧ total fills = 4 := by
  have hs : InScope sample (.add (some 101) 7 .buy 4 5) :=
    .of_add rfl (by simp [Op.add, Op.price, kBitCount]) (by decide +kernel)
  obtain ⟨out, b', fills, hb, htrades, -, -, -, -, htotal, -⟩ := price_time_priority reach_sample hs
  refine ⟨out, b', fills, hb, htrades, ?_⟩
  rw [htotal]
  decide +kernel

end ArrayBook

end Llmes
