import Llmes.BookRep
import Llmes.Quantity

namespace Llmes

open Intrusive BookSide BookView LawfulBookSide

variable {R : Type}

theorem order_ext {o o' : Order R} (h : o.payload = o'.payload) (hp : o.prev = o'.prev)
    (hn : o.next = o'.next) : o = o' := by
  cases o
  cases o'
  simp_all [Order.payload]

theorem erase_slots_of_not_mem {l : PriceLevel} {p : OrderPool R} {xs ys : List ℕ} {o i : ℕ}
    (h : Represents p.links l.anchor (xs ++ o :: ys)) (hi : i ∉ xs ++ o :: ys) :
    (l.erase p o).2.slots i = p.slots i := by
  obtain ⟨hp, hn⟩ := erase_frame h hi
  have hl := (PriceLevel.erase_links l p o).1
  refine order_ext (PriceLevel.erase_payload l p o i) ?_ ?_
  · rw [← OrderPool.links_prev, hl, hp]; rfl
  · rw [← OrderPool.links_next, hl, hn]; rfl

theorem pushBack_slots_of_not_mem {l : PriceLevel} {p : OrderPool R} {xs : List ℕ} {o i : ℕ}
    (h : Represents p.links l.anchor xs) (hi : i ∉ xs) (hio : i ≠ o) :
    (l.pushBack p o).2.slots i = p.slots i := by
  obtain ⟨hp, hn⟩ := pushBack_frame h hi hio
  have hl := (PriceLevel.pushBack_links l p o).1
  refine order_ext (PriceLevel.pushBack_payload l p o i) ?_ ?_
  · rw [← OrderPool.links_prev, hl, hp]; rfl
  · rw [← OrderPool.links_next, hl, hn]; rfl

theorem release_slots_of_ne {p : OrderPool R} {o i : ℕ} (h : i ≠ o) :
    (p.release o).slots i = p.slots i := by
  simp [OrderPool.release, OrderPool.setNext, h]

theorem release_payload (p : OrderPool R) (o i : ℕ) :
    ((p.release o).slots i).payload = (p.slots i).payload := by
  simp [OrderPool.release]

variable {S : Bool → Type}

structure Traded (orderId : UInt64) (fills : List Fill) (m m' : MatchState S R) : Prop where
  out : m'.out = fills.foldl (AddResult.addFill orderId) m.out
  makers : m'.makers = m.makers ++ fills.map (fun f => f.maker.slot)

theorem Traded.refl (orderId : UInt64) (m : MatchState S R) : Traded orderId [] m m :=
  ⟨rfl, by simp⟩

theorem Traded.trans {orderId : UInt64} {f g : List Fill} {m m' m'' : MatchState S R}
    (h : Traded orderId f m m') (h' : Traded orderId g m' m'') : Traded orderId (f ++ g) m m'' :=
  ⟨by rw [h'.out, h.out, List.foldl_append],
    by rw [h'.makers, h.makers, List.map_append, List.append_assoc]⟩

variable [BookSide S R]

namespace Rep

variable [LawfulBookSide S R] {b : OrderBook S R} {A : LiveBook}

theorem setLevel_keeps (h : Rep b A) {s : Side} {p : Int} {r : R} (hr : ref (b.book s) p = some r)
    (l : PriceLevel) (q : Int) (hq : q ≠ p) : Keeps (b.book s) (setLevel (b.book s) r l) q := by
  refine ⟨Or.inl (congrFun (setLevel_ref r l) q), fun r' hr' => level_setLevel_of_ne l ?_⟩
  rw [setLevel_ref] at hr'
  rintro rfl
  exact hq (ref_inj (h.inv s) hr' hr)

theorem unlink (h : Rep b A) {s : Side} {p : Int} {r : R} {xs ys : Queue} {e : Entry}
    (hr : ref (b.book s) p = some r) (hq : A.queue s p = xs ++ e :: ys) (pool : OrderPool R)
    (hslots : ∀ i, i ≠ e.slot → pool.slots i = b.pool.slots i) (hlinks : pool.links = b.pool.links)
    (hhead : pool.freeHead = b.pool.freeHead) (hcap : pool.capacity = b.pool.capacity) :
    let d := (BookSide.level (b.book s) r).erase pool e.slot
    Rep ({ b with pool := d.2.release e.slot }.setBook s (setLevel (b.book s) r d.1))
      (({ A with free := e.slot :: A.free } : LiveBook).setQueue s p (xs ++ ys)) := by
  intro d
  have hl := h.level s p r hr
  rw [hq] at hl
  have hrep : Represents pool.links (BookSide.level (b.book s) r).anchor
      (xs.map Entry.slot ++ e.slot :: ys.map Entry.slot) := by
    rw [hlinks]
    simpa using hl.links
  have hmem : ∀ i, i ∈ xs.map Entry.slot ++ e.slot :: ys.map Entry.slot ↔
      ∃ x ∈ A.queue s p, x.slot = i := by
    intro i
    rw [hq, ← List.mem_map]
    simp
  have hother : ∀ i, (∀ x ∈ A.queue s p, x.slot ≠ i) →
      (d.2.release e.slot).slots i = b.pool.slots i := by
    intro i hi
    have hie : i ≠ e.slot := by
      rintro rfl
      exact hi e (by simp [hq]) rfl
    have hn : i ∉ xs.map Entry.slot ++ e.slot :: ys.map Entry.slot := by
      rw [hmem]
      rintro ⟨x, hx, hxi⟩
      exact hi x hx hxi
    rw [release_slots_of_ne hie, erase_slots_of_not_mem hrep hn, hslots i hie]
  have hnot : e.slot ∉ (xs ++ ys).map Entry.slot := by
    have := hrep.nodup
    rw [List.nodup_append, List.nodup_cons] at this
    rw [List.map_append, List.mem_append, not_or]
    exact ⟨fun hm => this.2.2 _ hm _ (by simp) rfl, this.2.1.1⟩
  have herase : Represents d.2.links d.1.anchor ((xs ++ ys).map Entry.slot) := by
    have he := PriceLevel.erase_links (BookSide.level (b.book s) r) pool e.slot
    rw [List.map_append, he.1, he.2]
    exact erase_represents hrep
  have hne : ∀ x ∈ xs ++ ys, x.slot ≠ e.slot :=
    fun x hx heq => hnot (heq ▸ List.mem_map_of_mem hx)
  have heq : e ∈ A.queue s p := by simp [hq]
  obtain ⟨hlt, hltc⟩ := h.slot_lt heq
  refine h.update (p := p) (r := r) (setLevel_inv _ (h.inv s) hr) ?_ ?_ ?_ ?_ ?_ ?_ ?_
  · rw [setLevel_ref, hr]
  · rw [level_setLevel _ (h.inv s) hr]
    refine ⟨herase.congr ?_ ?_, ?_, ?_, ?_⟩
    · intro i hi
      have hie : i ≠ e.slot := by rintro rfl; exact hnot hi
      simp [release_slots_of_ne hie]
    · intro i hi
      have hie : i ≠ e.slot := by rintro rfl; exact hnot hi
      simp [release_slots_of_ne hie]
    · intro x hx
      rw [release_payload, PriceLevel.erase_payload, hslots _ (hne x hx)]
      exact hl.order x (by simp only [List.mem_append, List.mem_cons] at hx ⊢; tauto)
    · intro x hx
      exact hl.price x (by simp only [List.mem_append, List.mem_cons] at hx ⊢; tauto)
    · intro x hx
      exact hl.quantity x (by simp only [List.mem_append, List.mem_cons] at hx ⊢; tauto)
  · exact fun q hqp => h.setLevel_keeps hr _ q hqp
  · intro s' p' hne' x hx
    exact hother _ (fun y hy => (h.sound.slot_ne hy hx hne').symm)
  · simp [d, OrderPool.release, hcap]
  · refine FreeRep.release ?_ hlt (by simpa [d, hcap] using hltc) (h.sound.slot_not_free heq)
    refine h.free.congr (by simp [d, hhead]) (by simp [d, hcap]) (fun i hi => ?_)
    have hn : i ∉ xs.map Entry.slot ++ e.slot :: ys.map Entry.slot := by
      rw [hmem]
      rintro ⟨x, hx, rfl⟩
      rw [Nat.mod_eq_of_lt (h.slot_lt hx).1] at hi
      exact h.sound.slot_not_free hx hi
    have hie : i ≠ e.slot := by rintro rfl; simp at hn
    rw [erase_slots_of_not_mem hrep hn, hslots i hie]
  · rw [hq]
    simp only [List.map_append, List.map_cons, List.perm_iff_count, List.count_append,
      List.count_cons]
    omega

theorem fillPartial (h : Rep b A) {s : Side} {p : Int} {r : R} {es : Queue} {e : Entry}
    (hr : ref (b.book s) p = some r) (hq : A.queue s p = e :: es) {v : UInt64} (hv : v ≠ 0)
    (pool : OrderPool R) (hpool : pool = b.pool.modify e.slot (fun o => { o with quantity := v })) :
    Rep { b with pool := pool } (A.setQueue s p ({ e with quantity := v } :: es)) := by
  have hl := h.level s p r hr
  rw [hq] at hl
  have hne : ∀ x ∈ es, x.slot ≠ e.slot := by
    have := hl.links.nodup
    rw [List.map_cons, List.nodup_cons] at this
    exact fun x hx heq => this.1 (heq ▸ List.mem_map_of_mem hx)
  have hlinks : pool.links = b.pool.links := by
    subst hpool
    simp only [OrderPool.links, Links.mk.injEq]
    constructor <;> funext i <;> by_cases hi : i = e.slot <;> simp [hi]
  have heq : e ∈ A.queue s p := by simp [hq]
  suffices hrep : Rep ({ b with pool := pool }.setBook s (b.book s))
      (({ A with free := A.free } : LiveBook).setQueue s p ({ e with quantity := v } :: es)) by
    rw [← OrderBook.book_withPool b s pool, OrderBook.setBook_self] at hrep
    exact hrep
  refine h.update (h.inv s) hr ?_ (fun q _ => ⟨Or.inl rfl, fun _ _ => rfl⟩) ?_ ?_ ?_ ?_
  · refine ⟨by rw [hlinks]; exact hl.links, ?_, ?_, ?_⟩
    · intro x hx
      rcases List.mem_cons.mp hx with rfl | hx
      · have := hl.order e (by simp)
        simp only [Order.payload, Entry.order, Order.mk.injEq] at this
        simp [hpool, Order.payload, Entry.order, this]
      · have hxe := hne x hx
        have := hl.order x (by simp [hx])
        simpa [hpool, hxe] using this
    · intro x hx
      rcases List.mem_cons.mp hx with rfl | hx
      · exact hl.price e (by simp)
      · exact hl.price x (by simp [hx])
    · intro x hx
      rcases List.mem_cons.mp hx with rfl | hx
      · exact hv
      · exact hl.quantity x (by simp [hx])
  · intro s' p' hne' x hx
    have := h.sound.slot_ne heq hx hne'
    simp [hpool, this]
  · simp [hpool]
  · refine h.free.congr (by simp [hpool]) (by simp [hpool]) (fun i _ => ?_)
    exact congrFun (congrArg Links.next hlinks) i
  · rw [hq]
    exact List.Perm.refl _

theorem queue_length_le (h : Rep b A) (s : Side) (p : Int) :
    (A.queue s p).length ≤ b.pool.capacity := by
  have hsub : (A.queue s p).map Entry.slot ⊆ List.range b.pool.capacity := by
    intro i hi
    obtain ⟨e, he, rfl⟩ := List.mem_map.mp hi
    exact List.mem_range.mpr (h.slot_lt he).2
  simpa using ((h.sound.queue_nodup s p).subperm hsub).length_le

theorem level_empty (h : Rep b A) {s : Side} {p : Int} {r : R} (hr : ref (b.book s) p = some r) :
    (BookSide.level (b.book s) r).empty = (A.queue s p).isEmpty :=
  (h.level s p r hr).empty_eq

end Rep

open OrderBook

section Unroll

variable {taker : Side} {r : R} {orderId : UInt64} {m : MatchState S R} {fuel : ℕ}

theorem matchLevel_done
    (h : ¬ (m.quantity > 0 ∧ (level (m.book.book taker.opposite) r).empty = false)) :
    matchLevel taker r orderId fuel m = .ok m := by
  rw [matchLevel.eq_def]
  exact if_neg h

theorem matchLevel_succ (hq : m.quantity > 0)
    (he : (level (m.book.book taker.opposite) r).empty = false) :
    matchLevel taker r orderId (fuel + 1) m =
      fillFront taker r orderId m >>= matchLevel taker r orderId fuel := by
  rw [matchLevel.eq_def]
  exact if_pos ⟨hq, he⟩

end Unroll

variable [LawfulBookSide S R]

structure Spared (taker : Side) (b b' : OrderBook S R) : Prop where
  own : b'.book taker = b.book taker
  capacity : b'.pool.capacity = b.pool.capacity
  ref : ∀ p, ref (b'.book taker.opposite) p ≠ none → ref (b.book taker.opposite) p ≠ none

theorem Spared.refl (taker : Side) (b : OrderBook S R) : Spared taker b b := ⟨rfl, rfl, fun _ h => h⟩

theorem Spared.trans {taker : Side} {b b' b'' : OrderBook S R} (h : Spared taker b b')
    (h' : Spared taker b' b'') : Spared taker b b'' :=
  ⟨h'.own.trans h.own, h'.capacity.trans h.capacity, fun p hp => h.ref p (h'.ref p hp)⟩

structure Confined (taker : Side) (b b' : OrderBook S R) : Prop where
  own : b'.book taker = b.book taker
  capacity : b'.pool.capacity = b.pool.capacity
  ref : ref (b'.book taker.opposite) = ref (b.book taker.opposite)
  count : count (b'.book taker.opposite) = count (b.book taker.opposite)

theorem Confined.refl (taker : Side) (b : OrderBook S R) : Confined taker b b := ⟨rfl, rfl, rfl, rfl⟩

theorem Confined.trans {taker : Side} {b b' b'' : OrderBook S R} (h : Confined taker b b')
    (h' : Confined taker b' b'') : Confined taker b b'' :=
  ⟨h'.own.trans h.own, h'.capacity.trans h.capacity, h'.ref.trans h.ref, h'.count.trans h.count⟩

theorem Confined.spared {taker : Side} {b b' : OrderBook S R} (h : Confined taker b b') :
    Spared taker b b' :=
  ⟨h.own, h.capacity, fun p hp => by rwa [h.ref] at hp⟩

section Level

variable {taker : Side} {p : Int} {r : R} {m : MatchState S R} {A : LiveBook}

theorem fillFront_spec (orderId : UInt64) {e : Entry} {es : Queue} (h : Rep m.book A)
    (hr : ref (m.book.book taker.opposite) p = some r) (hq : A.queue taker.opposite p = e :: es) :
    let f : Fill := ⟨e, min m.quantity e.quantity⟩
    ∃ m', fillFront taker r orderId m = .ok m' ∧ m'.quantity = m.quantity - f.quantity ∧
      Traded orderId [f] m m' ∧ Confined taker m.book m'.book ∧
      Rep m'.book (A.settle [f] taker.opposite p
        (if f.complete then es else { e with quantity := e.quantity - f.quantity } :: es)) := by
  intro f
  have hl := h.level _ p r hr
  rw [hq] at hl
  have hfront : (level (m.book.book taker.opposite) r).front = .ok e.slot := by
    rw [PriceLevel.front, hl.head_cons]
  obtain ⟨hid, hprice, hquantity, -, -⟩ := payload_fields (hl.order e (by simp))
  have hep : e.price = p := hl.price e (by simp)
  have hfree : freed [f] = if f.complete then [e.slot] else [] := by
    cases hc : f.complete <;> simp [freed, hc, f]
  set pool := m.book.pool.modify e.slot (fun o => { o with quantity := o.quantity - f.quantity }) with hpool
  simp only [fillFront, hfront, ok_bind, hid, hprice, hquantity, pure_eq_ok]
  split
  · next hz =>
    have hc : f.complete = true := by simpa [Fill.complete, f] using hz
    have hlinks : pool.links = m.book.pool.links := by
      simp only [hpool, OrderPool.links, Links.mk.injEq]
      constructor <;> funext i <;> by_cases hi : i = e.slot <;> simp [hi]
    have hrep := h.unlink hr (show _ = [] ++ e :: es by simpa using hq) pool
      (fun i hi => by simp [hpool, hi]) hlinks rfl rfl
    refine ⟨_, rfl, rfl, ⟨rfl, rfl⟩, ⟨?_, ?_, ?_, ?_⟩, ?_⟩
    · simp [OrderBook.setBook_book_of_ne _ _ _ taker.opposite_ne.symm]
    · simp [OrderPool.release]
    · simp [setLevel_ref]
    · simp [setLevel_count]
    · simpa [LiveBook.settle, hfree, hc] using hrep
  · next hz =>
    have hc : f.complete = false := by simpa [Fill.complete, f] using hz
    have hrep := h.fillPartial hr hq hz pool (OrderPool.modify_congr (by simp [hquantity, f]))
    refine ⟨_, rfl, rfl, ⟨rfl, rfl⟩, ⟨?_, ?_, ?_, ?_⟩, ?_⟩
    · simp
    · simp
    · simp
    · simp
    · simpa [LiveBook.settle, hfree, hc] using hrep

theorem matchLevel_spec (orderId : UInt64) {fuel : ℕ} {q : Queue} (h : Rep m.book A)
    (hr : ref (m.book.book taker.opposite) p = some r) (hq : A.queue taker.opposite p = q)
    (hfuel : q.length ≤ fuel) :
    let t := takeQueue m.quantity q
    ∃ m', matchLevel taker r orderId fuel m = .ok m' ∧ m'.quantity = t.quantity ∧
      Traded orderId t.fills m m' ∧ Confined taker m.book m'.book ∧
      Rep m'.book (A.settle t.fills taker.opposite p t.left) := by
  induction q generalizing fuel m A with
  | nil =>
    have he : (level (m.book.book taker.opposite) r).empty = true := by
      rw [h.level_empty hr, hq]; rfl
    refine ⟨m, matchLevel_done (by simp [he]), rfl, .refl _ _, .refl _ _, ?_⟩
    rw [takeQueue, LiveBook.settle_nil (h.proper _) hq]
    exact h
  | cons e es ih =>
    have he : (level (m.book.book taker.opposite) r).empty = false := by
      rw [h.level_empty hr, hq]; rfl
    by_cases hz : m.quantity = 0
    · refine ⟨m, matchLevel_done (by simp [hz]), ?_⟩
      rw [hz, takeQueue_zero]
      refine ⟨rfl, .refl _ _, .refl _ _, ?_⟩
      rw [LiveBook.settle_nil (h.proper _) hq]
      exact h
    · obtain ⟨fuel, rfl⟩ : ∃ f, fuel = f + 1 := ⟨fuel - 1, by simp only [List.length_cons] at hfuel; omega⟩
      obtain ⟨m₁, hm₁, hq₁, ht₁, hc₁, hrep₁⟩ := fillFront_spec orderId h hr hq
      rw [matchLevel_succ (pos_iff_ne_zero.mpr hz) he, hm₁, ok_bind]
      have hr₁ : ref (m₁.book.book taker.opposite) p = some r := by rw [hc₁.ref, hr]
      rw [takeQueue, if_neg hz]
      by_cases hf : e.quantity - min m.quantity e.quantity = 0
      · have hfc : (⟨e, min m.quantity e.quantity⟩ : Fill).complete = true := by simpa [Fill.complete] using hf
        rw [hfc, if_pos rfl] at hrep₁
        obtain ⟨m', hm', hq', ht', hc', hrep'⟩ := ih hrep₁ hr₁
          (LiveBook.settle_queue_self _ _ _ _ _) (show es.length ≤ fuel by simpa using hfuel)
        rw [hq₁] at hq' ht' hrep'
        rw [LiveBook.settle_settle (h.proper _)] at hrep'
        simp only [hf, if_true]
        exact ⟨m', hm', hq', ht₁.trans ht', hc₁.trans hc', hrep'⟩
      · have hfc : (⟨e, min m.quantity e.quantity⟩ : Fill).complete = false := by simpa [Fill.complete] using hf
        rw [hfc, if_neg (by simp)] at hrep₁
        have hz₁ : m₁.quantity = 0 := by rw [hq₁]; exact sub_min_eq_zero hf
        simp only [hf, if_false]
        exact ⟨m₁, matchLevel_done (by simp [hz₁]), hq₁, ht₁, hc₁, hrep₁⟩

theorem sweepBest_spec (orderId : UInt64) (h : Rep m.book A)
    (he : empty (m.book.book taker.opposite) = false)
    (hp : bestPrice (m.book.book taker.opposite) = .ok p)
    (hb : bestLevel (m.book.book taker.opposite) = .ok r)
    (hr : ref (m.book.book taker.opposite) p = some r) :
    let t := takeQueue m.quantity (A.queue taker.opposite p)
    ∃ m', sweepBest taker orderId m = .ok m' ∧ m'.quantity = t.quantity ∧
      Traded orderId t.fills m m' ∧ Spared taker m.book m'.book ∧
      Rep m'.book (A.settle t.fills taker.opposite p t.left) ∧
      (m'.quantity = 0 ∨ count (m'.book.book taker.opposite) < count (m.book.book taker.opposite)) := by
  intro t
  obtain ⟨m₁, hm₁, hq₁, ht₁, hc₁, hrep₁⟩ := matchLevel_spec orderId h hr rfl
    (h.queue_length_le taker.opposite p)
  have hr₁ : ref (m₁.book.book taker.opposite) p = some r := by rw [hc₁.ref, hr]
  have hempty := hrep₁.level_empty hr₁
  rw [LiveBook.settle_queue_self] at hempty
  simp only [sweepBest, hb, ok_bind, hm₁, pure_eq_ok]
  by_cases hleft : t.left = []
  · rw [hleft] at hempty
    obtain ⟨he₁, hp₁, hb₁⟩ := best_congr (h.inv _) (hrep₁.inv _) hc₁.ref he hp hb
    have hvoid : level (m₁.book.book taker.opposite) r = {} :=
      hrep₁.tidy _ p r hr₁ (PriceLevel.empty_iff.mp (by simpa using hempty))
    obtain ⟨oppo, hoppo, herased⟩ :=
      eraseBest_spec (hrep₁.inv _) (hrep₁.tidy _) he₁ hp₁ hb₁ hvoid
    rw [if_pos (by simpa using hempty)]
    simp only [hoppo, ok_bind]
    refine ⟨_, rfl, hq₁, ⟨ht₁.out, ht₁.makers⟩, hc₁.spared.trans ⟨?_, by simp, fun q hq => ?_⟩, ?_, Or.inr ?_⟩
    · exact OrderBook.setBook_book_of_ne _ _ _ taker.opposite_ne.symm
    · simp only [setBook_book_self] at hq
      rcases (herased.keeps q).1 with hk | ⟨hk, -⟩
      · rwa [← hk]
      · exact absurd hk hq
    · exact hrep₁.drop herased.inv herased.keeps
    · rw [← hc₁.count]
      simpa using herased.count_lt
  · have hne : t.left.isEmpty = false := by simpa using hleft
    rw [hne] at hempty
    simp only [hempty, Bool.false_eq_true, if_false]
    exact ⟨m₁, rfl, hq₁, ht₁, hc₁.spared, hrep₁, Or.inl (hq₁.trans (takeQueue_quantity hleft))⟩

end Level

end Llmes
