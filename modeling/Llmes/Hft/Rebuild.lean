import Llmes.Hft.Accounts

namespace Llmes.Hft

open BookSide BookView LawfulBookSide OrderBook Tracking

variable {capacity : ℕ} {t : Tracking} {A₀ A : LiveBook} {ids : List UInt64} {b : ArrayBook × IdMap HandleMeta}

def rowsOf (t : Tracking) (ids : List UInt64) : List (UInt64 × RestingMeta) :=
  ids.filterMap (fun id => (t.restingOrders.find? id).map (Prod.mk id))

structure Rebuilt (capacity : ℕ) (t : Tracking) (ids : List UInt64) (b : ArrayBook × IdMap HandleMeta)
    (A : LiveBook) : Prop where
  booked : Booked capacity b.1 A
  rows : (A.live.map restingRow).Perm (rowsOf t ids)
  handles : b.2.entries.Perm (A.live.map handleRow)
  full : ∀ s p, ref (b.1.book s) p ≠ none → A.queue s p ≠ []

def RestsWhole (b : ArrayBook) (id : UInt64) (m : RestingMeta) : Prop :=
  ∃ res b', b.addLimitOrder id m.side m.price m.qty id = .ok (res, b') ∧ res.code = .success ∧ res.trades = [] ∧
    res.remainingQuantity = m.qty

theorem rowsOf_keys (t : Tracking) : rowsOf t t.restingKeys = t.restingOrders.entries := by
  rw [rowsOf, restingKeys, List.filterMap_map]
  refine (List.filterMap_congr (fun e he => ?_)).trans List.filterMap_some
  simp only [Function.comp_apply, OrderedMap.find?_of_mem he, Option.map_some]

theorem Rebuilt.origin (h : Rebuilt capacity t ids b A) (h₀ : Lists t A₀.live) {x : Side × Entry} (hx : x ∈ A.live) :
    x.2.id ∈ ids ∧ ∃ x₀ ∈ A₀.live, restingRow x₀ = restingRow x := by
  have hmem := h.rows.mem_iff.mp (List.mem_map_of_mem hx)
  obtain ⟨id, hid, hrow⟩ := List.mem_filterMap.mp hmem
  obtain ⟨m, hm, hrow⟩ := Option.map_eq_some_iff.mp hrow
  obtain ⟨x₀, hx₀, hrow₀⟩ := h₀.find?_eq_some.mp hm
  refine ⟨?_, x₀, hx₀, hrow₀.trans hrow⟩
  rw [show x.2.id = id from (congrArg Prod.fst hrow).symm]
  exact hid

theorem Booked.not_cross {b : ArrayBook} (h : Booked capacity b A₀) {x y : Side × Entry} (hx : x ∈ A₀.live)
    (hy : y ∈ A₀.live) (hs : y.1 = x.1.opposite) : canCrossLimit x.1 x.2.price y.2.price = false := by
  have hxq := (h.rep.sound.order (LiveBook.mem_live.mp hx)).1
  have hyq := (h.rep.sound.order (LiveBook.mem_live.mp hy)).1
  rw [hs] at hyq
  exact (uncrossed_iff x.1).mp h.uncrossed _ _ (h.rep.ref_ne_none (List.ne_nil_of_mem hxq))
    (h.rep.ref_ne_none (List.ne_nil_of_mem hyq))

theorem canCrossLimit_self (s : Side) (p : Int) : canCrossLimit s p p = true := by
  cases s <;> simp [canCrossLimit]

theorem Rebuilt.init : Rebuilt capacity t [] (ArrayBook.init capacity, OrderedMap.empty) (LiveBook.init capacity) :=
  ⟨.init capacity, List.Perm.refl _, List.Perm.refl _, fun s p hp => by
    refine absurd ?_ hp
    cases s <;>
      · exact ArraySideBook.ref_eq_none.mpr (fun i _ => by
          simp [ArrayBook.init, OrderBook.book, ArraySideBook.init, OccupancyTree.test, OccupancyTree.empty])⟩

theorem Rebuilt.take_eq (h₀ : Lists t A₀.live) (hbook : Booked capacity t.book A₀) (h : Rebuilt capacity t ids b A)
    {x : Side × Entry} (hx : x ∈ A₀.live) :
    A.take x.1 (canCrossLimit x.1 x.2.price) x.2.quantity = ⟨[], x.2.quantity, A⟩ := by
  apply LiveBook.take_of_not_cross _ (h.booked.rep.sound.proper _)
  intro p hp
  obtain ⟨e, he⟩ := List.exists_mem_of_ne_nil _ hp
  obtain ⟨y, hy, hrow⟩ := (h.origin h₀ (LiveBook.mem_live.mpr (LiveBook.mem_orders.mpr ⟨p, he⟩) : (x.1.opposite, e) ∈ A.live)).2
  have hcross := hbook.not_cross hx hy (congrArg (fun r => r.2.side) hrow)
  rwa [show y.2.price = p from (congrArg (fun r => r.2.price) hrow).trans (h.booked.rep.sound.price _ _ e he)] at hcross

theorem Rebuilt.room (hbook : Booked capacity t.book A₀) (h : Rebuilt capacity t ids b A)
    (hlen : ids.length < A₀.live.length) : A.free ≠ [] := by
  intro hfree
  have hl := ArrayBook.live_length h.booked.rep
  have hl₀ := ArrayBook.live_length hbook.rep
  have hrows := h.rows.length_eq
  have hfew := List.length_filterMap_le (fun id => (t.restingOrders.find? id).map (Prod.mk id)) ids
  rw [h.booked.capacity, hfree, List.length_nil] at hl
  rw [hbook.capacity] at hl₀
  rw [List.length_map] at hrows
  change (rowsOf t ids).length ≤ ids.length at hfew
  omega

theorem Booked.add_whole {b : ArrayBook} (h : Booked capacity b A) (oid ts : UInt64) {q : UInt64} {side : Side}
    {price : Int} (htake : A.take side (canCrossLimit side price) q = ⟨[], q, A⟩) (hroom : A.free ≠ []) (hq : q ≠ 0)
    (hrange : Indexed price) :
    ∃ out b' A', b.addLimitOrder oid side price q ts = .ok (out, b') ∧
      LiveBook.Added A oid side price q ts (.added out) A' ∧ Moved (some price) b b' A' ∧ out.trades = [] ∧
      out.remainingQuantity = q := by
  have hadm : (Op.limit oid side price q ts).Admissible b A := fun _ => hrange
  rcases exec_spec h.rep (.limit oid side price q ts) trivial hadm with ⟨-, hA⟩ | ⟨hp, -⟩ | ⟨reply, b', A', hb, hA, hm⟩
  · rw [LiveBook.exec, Option.map_eq_none_iff, LiveBook.limit_eq_none, htake] at hA
    exact absurd hA.2 hroom
  · exact absurd hp id
  · obtain ⟨⟨out, b₁⟩, ho, hb⟩ := bind_eq_ok.mp hb
    obtain ⟨rfl, rfl⟩ := Prod.mk.inj (Except.ok.inj hb)
    have ha := added_of_exec_limit hq hA
    have htrades := ha.trades
    have hremaining := ha.remaining
    rw [htake] at htrades hremaining
    exact ⟨out, b₁, A', ho, ha, hm, htrades, hremaining⟩

theorem Rebuilt.step {A₀ : LiveBook} (h₀ : Lists t A₀.live) (hbook : Booked capacity t.book A₀)
    (h : Rebuilt capacity t ids b A) {id : UInt64} {m : RestingMeta} (hm : t.restingOrders.find? id = some m)
    (hid : id ∉ ids) (hlen : ids.length < A₀.live.length) :
    RestsWhole b.1 id m ∧ ∃ b' A', buildStep t.restingOrders b id = .ok b' ∧ Rebuilt capacity t (ids ++ [id]) b' A' := by
  obtain ⟨x, hx, hrow⟩ := h₀.find?_eq_some.mp hm
  obtain ⟨rfl, rfl⟩ := Prod.mk.inj hrow
  have hne := (hbook.rep.sound.order (LiveBook.mem_live.mp hx)).2
  have htake := h.take_eq h₀ hbook hx
  obtain ⟨out, b', A', hb, ha, hmoved, htrades, hremaining⟩ :=
    h.booked.add_whole x.2.id x.2.id htake (h.room hbook hlen) hne (hbook.indexed hx)
  have hrest := ha.rests (by
    change out.remainingQuantity ≠ 0
    rwa [hremaining])
  rw [htake] at hrest
  obtain ⟨i, hi, hperm⟩ := LiveBook.live_rest hrest
  have hcond : out.code = .success ∧ out.remainingQuantity > 0 :=
    ⟨ha.code, hremaining ▸ UInt64.pos_iff_ne_zero.mpr hne⟩
  have hfresh : b.2.find? x.2.id = none := by
    apply find?_eq_none_of_fresh h.handles (fun _ => rfl)
    intro y hy heq
    exact hid (heq ▸ (h.origin h₀ hy).1)
  refine ⟨⟨out, b', hb, ha.code, htrades, hremaining⟩,
    (b', b.2.set x.2.id ⟨out.handle, out.remainingQuantity⟩), A', ?_, h.booked.moved hmoved, ?_, ?_, ?_⟩
  · simp only [buildStep, hm, hb, ok_bind, pure_eq_ok, hcond, and_self, if_true]
  · have hsnoc : rowsOf t (ids ++ [x.2.id]) = rowsOf t ids ++ [(x.2.id, ⟨x.1, x.2.price, x.2.quantity⟩)] := by
      rw [rowsOf, List.filterMap_append, List.filterMap_cons_some (by rw [hm]; rfl)]
      rfl
    rw [hsnoc]
    refine (hperm.map restingRow).trans (List.Perm.trans ?_ List.perm_append_comm)
    rw [List.map_cons]
    change ((x.2.id, RestingMeta.mk x.1 x.2.price out.remainingQuantity) :: _).Perm _
    rw [hremaining]
    exact h.rows.cons _
  · refine (OrderedMap.perm_set_new _ h.handles hfresh).trans (List.Perm.trans ?_ (hperm.map handleRow).symm)
    rw [List.map_cons]
    change (((x.2.id, HandleMeta.mk out.handle out.remainingQuantity) : UInt64 × HandleMeta) :: _).Perm
      ((x.2.id, HandleMeta.mk (UInt32.ofNat i) out.remainingQuantity) :: _)
    rw [← hi]
    exact List.Perm.refl _
  · intro s p hp
    have hqueue := h.booked.rep.rest_queue hrest
    have hown : A'.queue x.1 x.2.price ≠ [] := by
      rw [hqueue, if_pos ⟨rfl, rfl⟩]
      exact List.append_ne_nil_of_right_ne_nil _ (List.cons_ne_nil _ _)
    rcases hmoved.levels s p hp with hold | hnew
    · rw [hqueue]
      exact List.append_ne_nil_of_left_ne_nil (h.full s p hold) _
    · obtain rfl := Option.some.inj hnew
      rcases Side.eq_or_eq_opposite x.1 s with rfl | rfl
      · exact hown
      · have hcross := (uncrossed_iff x.1).mp (h.booked.moved hmoved).uncrossed _ _
          (hmoved.rep.ref_ne_none hown) hp
        rw [canCrossLimit_self] at hcross
        cases hcross

theorem rebuild_spec (h₀ : Lists t A₀.live) (hbook : Booked capacity t.book A₀) :
    (∀ pre id post, t.restingKeys.insertionSort (· ≤ ·) = pre ++ id :: post → ∃ b m,
      pre.foldlM (buildStep t.restingOrders) (ArrayBook.init capacity, OrderedMap.empty) = .ok b ∧
        t.restingOrders.find? id = some m ∧ RestsWhole b.1 id m) ∧
    ∃ b A, t.buildBookFromTracking capacity = .ok b ∧ Booked capacity b.1 A ∧
      t.restingOrders.entries.Perm (A.live.map restingRow) ∧ b.2.entries.Perm (A.live.map handleRow) ∧
      ∀ s p, ref (b.1.book s) p ≠ none → A.queue s p ≠ [] := by
  have hperm := List.perm_insertionSort (· ≤ ·) t.restingKeys
  have hkeys : t.restingKeys.length = A₀.live.length := by
    rw [restingKeys, List.length_map, h₀.resting.length_eq, List.length_map]
  have hnd : (t.restingKeys.insertionSort (· ≤ ·)).Nodup := by
    rw [hperm.nodup_iff, restingKeys, ((h₀.resting.map Prod.fst)).nodup_iff, List.map_map]
    exact h₀.ids_nodup
  have hfind {id : UInt64} (hid : id ∈ t.restingKeys.insertionSort (· ≤ ·)) :
      ∃ m, t.restingOrders.find? id = some m := by
    obtain ⟨e, he, rfl⟩ := List.mem_map.mp (hperm.mem_iff.mp hid)
    exact ⟨e.2, OrderedMap.find?_of_mem he⟩
  have hstep (pre : List UInt64) (id : UInt64) (post : List UInt64)
      (h : t.restingKeys.insertionSort (· ≤ ·) = pre ++ id :: post) {b : ArrayBook × IdMap HandleMeta} {A : LiveBook}
      (hrebuilt : Rebuilt capacity t pre b A) :
      (∃ m, t.restingOrders.find? id = some m ∧ RestsWhole b.1 id m) ∧
        ∃ b' A', buildStep t.restingOrders b id = .ok b' ∧ Rebuilt capacity t (pre ++ [id]) b' A' := by
    obtain ⟨m, hm⟩ := hfind (h ▸ List.mem_append_right _ List.mem_cons_self)
    have hlen := hperm.length_eq
    rw [h] at hnd hlen
    rw [List.length_append, List.length_cons, hkeys] at hlen
    have hid : id ∉ pre := fun hmem =>
      (List.nodup_append.mp hnd).2.2 id hmem id List.mem_cons_self rfl
    obtain ⟨hrests, hbuilt⟩ := hrebuilt.step h₀ hbook hm hid (by omega)
    exact ⟨⟨m, hm, hrests⟩, hbuilt⟩
  have hsplit (pre post : List UInt64) (h : t.restingKeys.insertionSort (· ≤ ·) = pre ++ post) :
      ∃ b A, pre.foldlM (buildStep t.restingOrders) (ArrayBook.init capacity, OrderedMap.empty) = .ok b ∧
        Rebuilt capacity t pre b A := by
    induction pre using List.reverseRecOn generalizing post with
    | nil => exact ⟨_, _, rfl, .init⟩
    | append_singleton pre id ih =>
      rw [List.append_assoc] at h
      obtain ⟨b, A, hb, hrebuilt⟩ := ih _ h
      obtain ⟨-, b', A', hb', hrebuilt'⟩ := hstep pre id post h hrebuilt
      refine ⟨b', A', ?_, hrebuilt'⟩
      rw [List.foldlM_append, hb, ok_bind, List.foldlM_cons, hb', ok_bind]
      rfl
  constructor
  · intro pre id post h
    obtain ⟨b, A, hb, hrebuilt⟩ := hsplit pre _ h
    obtain ⟨⟨m, hm, hrests⟩, -⟩ := hstep pre id post h hrebuilt
    exact ⟨b, m, hb, hm, hrests⟩
  · obtain ⟨b, A, hb, hrebuilt⟩ := hsplit _ [] (List.append_nil _).symm
    refine ⟨b, A, hb, hrebuilt.booked, ?_, hrebuilt.handles, hrebuilt.full⟩
    rw [← rowsOf_keys]
    exact (hperm.symm.filterMap _).trans hrebuilt.rows.symm

end Llmes.Hft
