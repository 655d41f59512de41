import Llmes.Hft.BookCalls

namespace Llmes.Hft

open BookSide BookView LawfulBookSide OrderBook Outcome

variable {A A' : LiveBook} {t : Tracking} {x : Side × Entry} {capacity n : ℕ} {ids : UInt64}

structure Booked (capacity : ℕ) (b : ArrayBook) (A : LiveBook) : Prop where
  rep : Rep b A
  capacity : b.pool.capacity = capacity
  uncrossed : Uncrossed b

structure Accounts (n : ℕ) (t : Tracking) (ids : UInt64) (A : LiveBook) : Prop where
  follows : Follows t A.live
  few : A.live.length ≤ n
  issued : ∀ x ∈ A.live, 0 < x.2.id ∧ x.2.id < ids
  counter : 1000000 ≤ ids.toNat ∧ ids.toNat ≤ 1000000 + n

theorem Booked.moved {b b' : ArrayBook} {price : Option Int} (h : Booked capacity b A) (hm : Moved price b b' A') :
    Booked capacity b' A' := ⟨hm.rep, hm.capacity.trans h.capacity, hm.uncrossed h.uncrossed⟩

theorem Booked.congr {b b' : ArrayBook} (h : Booked capacity b A) (hb : b' = b) : Booked capacity b' A := hb ▸ h

theorem Booked.init (capacity : ℕ) : Booked capacity (ArrayBook.init capacity) (LiveBook.init capacity) :=
  have h := ArrayBook.Good.init capacity
  ⟨ArrayBook.rep_init capacity, h.capacity, h.uncrossed⟩

theorem Booked.locate {b : ArrayBook} (h : Booked capacity b A) (hx : x ∈ A.live) :
    A.locate (UInt32.ofNat x.2.slot).toNat = some x := by
  have hmem := LiveBook.mem_live.mp hx
  rw [(Rep.ofNat_ne_invalid (h.rep.slot_lt_max (LiveBook.slot_mem_of_order hmem)).1).2]
  cases hl : A.locate x.2.slot with
  | none => exact absurd rfl (LiveBook.locate_eq_none.mp hl x.1 x.2 hmem)
  | some y =>
    obtain ⟨hy, hslot⟩ := LiveBook.locate_eq_some hl
    obtain ⟨hs, he⟩ := h.rep.sound.order_unique hy hmem hslot
    exact congrArg some (Prod.ext hs he)

theorem Booked.indexed {b : ArrayBook} (h : Booked capacity b A) (hx : x ∈ A.live) :
    Indexed x.2.price :=
  ArrayBook.queue_range h.rep _ _ (List.ne_nil_of_mem (h.rep.sound.order (LiveBook.mem_live.mp hx)).1)

theorem Booked.cancel_live {b : ArrayBook} (h : Booked capacity b A) (hx : x ∈ A.live) :
    (Op.cancel (UInt32.ofNat x.2.slot)).Live A := by
  rw [Op.Live, h.locate hx]
  exact Option.some_ne_none x

theorem Booked.modify_live {b : ArrayBook} (h : Booked capacity b A) (hx : x ∈ A.live) (side : Side) (price : Int)
    (q ts : UInt64) : (Op.modify (UInt32.ofNat x.2.slot) side price q ts).Live A := by
  rw [Op.Live, h.locate hx]
  exact Option.some_ne_none x

theorem Follows.withBook {live : List (Side × Entry)} (h : Follows t live) (b : ArrayBook) :
    Follows { t with book := b } live := by
  refine ⟨⟨h.resting, fun s p => ?_, h.listed⟩, h.handles⟩
  cases s
  · exact h.counts .buy p
  · exact h.counts .sell p

theorem Follows.withIds {live : List (Side × Entry)} (h : Follows t live) {restingIds : List UInt64}
    (hl : ∀ x ∈ live, x.2.id ∈ restingIds) : Follows { t with restingIds } live := by
  refine ⟨⟨h.resting, fun s p => ?_, hl⟩, h.handles⟩
  cases s
  · exact h.counts .buy p
  · exact h.counts .sell p

def Tracking.followAdd (t : Tracking) (id : UInt64) (side : Side) (price : Int) (res : Reply) : Tracking :=
  let t := t.applyTradeFills res.trades
  if res.remaining > 0 then (t.trackAddPredicted id side price res.remaining).setHandle id res.handle res.remaining
  else t

theorem Tracking.followAdd_book (t : Tracking) (id : UInt64) (side : Side) (price : Int) (res : Reply) :
    (t.followAdd id side price res).book = t.book := by
  unfold followAdd
  dsimp only
  split
  · exact (trackAddPredicted_same _ _ _ _ _).1.trans (applyTradeFills_same _ _).book
  · exact (applyTradeFills_same _ _).book

section Added

variable {id : UInt64} {side : Side} {price : Int} {q ts : UInt64} {reply : Reply}

theorem added_of_exec_limit {oid : UInt64} (hq : q ≠ 0) (h : A.exec (.limit oid side price q ts) = some (reply, A')) :
    LiveBook.Added A oid side price q ts reply A' := by
  obtain ⟨⟨out, A₁⟩, ho, h⟩ := Option.map_eq_some_iff.mp h
  obtain ⟨rfl, rfl⟩ := Prod.mk.inj h
  exact LiveBook.limit_added hq ho

theorem added_of_exec_modify {handle : OrderHandle} (hx : A.locate handle.toNat = some x) (hq : q ≠ 0)
    (h : A.exec (.modify handle side price q ts) = some (reply, A')) :
    LiveBook.Added (A.remove x) x.2.id side price q ts reply A' := by
  simp only [LiveBook.exec, hx] at h
  obtain ⟨⟨out, A₁⟩, ho, h⟩ := Option.map_eq_some_iff.mp h
  obtain ⟨rfl, rfl⟩ := Prod.mk.inj h
  exact LiveBook.limit_added hq ho

theorem cancelled_of_exec {handle : OrderHandle} (hx : A.locate handle.toNat = some x)
    (h : A.exec (.cancel handle) = some (reply, A')) : reply = .cancelled .success ∧ A' = A.remove x := by
  simp only [LiveBook.exec, hx] at h
  obtain ⟨rfl, rfl⟩ := Prod.mk.inj (Option.some.inj h)
  exact ⟨rfl, rfl⟩

theorem marketed_of_exec {oid : UInt64} (hq : q ≠ 0) (h : A.exec (.market oid side q ts) = some (reply, A')) :
    (replyCode reply = .success ∨ replyCode reply = .marketRemainderCancelled) ∧
      reply.trades = (A.take side (fun _ => true) q).fills.map (Fill.trade oid) ∧
      A' = (A.take side (fun _ => true) q).left := by
  obtain ⟨rfl, rfl⟩ := Prod.mk.inj (Option.some.inj h)
  exact A.market_added oid side hq

theorem added_live (h : LiveBook.Added A id side price q ts reply A') :
    (∀ y ∈ A'.live, (∃ x ∈ A.live, x.2.id = y.2.id) ∨ y.2.id = id) ∧ A'.live.length ≤ A.live.length + 1 := by
  have hlen := A.take_live_length side (canCrossLimit side price) q
  by_cases hr : reply.remaining = 0
  · rw [h.left hr]
    exact ⟨fun y hy => Or.inl (LiveBook.take_origin hy), by omega⟩
  · obtain ⟨i, -, hlive⟩ := LiveBook.live_rest (h.rests hr)
    constructor
    · intro y hy
      rcases List.mem_cons.mp (hlive.mem_iff.mp hy) with rfl | hy
      · exact Or.inr rfl
      · exact Or.inl (LiveBook.take_origin hy)
    · rw [hlive.length_eq, List.length_cons]
      omega

theorem Follows.added (h : Follows t A.live) (ha : LiveBook.Added A id side price q ts reply A')
    (hfresh : ∀ y ∈ A.live, y.2.id ≠ id) :
    Follows (t.followAdd id side price reply) A'.live ∧
      (Priced t ∨ (A.live = [] ∧ q ≠ 0) → Priced (t.followAdd id side price reply)) := by
  obtain ⟨htake, hpriced⟩ := h.take side (canCrossLimit side price) q id
  rw [← ha.trades] at htake hpriced
  unfold Tracking.followAdd
  dsimp only
  by_cases hr : reply.remaining = 0
  · rw [if_neg (by simp [hr]), ha.left hr]
    refine ⟨htake, fun hp => hp.elim hpriced (fun hnil => ?_)⟩
    rw [ha.remaining, (LiveBook.take_of_live_nil hnil.1 _ _ _).2] at hr
    exact absurd hr hnil.2
  · rw [if_pos (UInt64.pos_iff_ne_zero.mpr hr)]
    have hfresh' : ∀ y ∈ (A.take side (canCrossLimit side price) q).left.live, y.2.id ≠ id := by
      intro y hy
      obtain ⟨x, hx, hid⟩ := LiveBook.take_origin hy
      rw [← hid]
      exact hfresh x hx
    obtain ⟨hrest, hp⟩ := htake.rest (ha.rests hr) hfresh'
    exact ⟨hrest, fun _ => hp⟩

end Added

namespace Accounts

variable {m : ℕ}

theorem withBook (h : Accounts n t ids A) (b : ArrayBook) : Accounts n { t with book := b } ids A :=
  ⟨h.follows.withBook b, h.few, h.issued, h.counter⟩

theorem pos_of_mem (h : Accounts n t ids A) (hx : x ∈ A.live) : 0 < n :=
  lt_of_lt_of_le (List.length_pos_of_mem hx) h.few

theorem id_ne_zero (h : Accounts n t ids A) (hx : x ∈ A.live) : x.2.id ≠ 0 := UInt64.pos_iff_ne_zero.mp (h.issued x hx).1

theorem withIds (h : Accounts n t ids A) {restingIds : List UInt64} (hl : ∀ x ∈ A.live, x.2.id ∈ restingIds) :
    Accounts n { t with restingIds } ids A := ⟨h.follows.withIds hl, h.few, h.issued, h.counter⟩

theorem mono (h : Accounts n t ids A) (hnm : n ≤ m) : Accounts m t ids A :=
  ⟨h.follows, h.few.trans hnm, h.issued, h.counter.1, h.counter.2.trans (by omega)⟩

theorem next (h : Accounts n t ids A) (hn : 1000000 + n < 2 ^ 64 - 1) :
    Accounts (n + 1) t (ids + 1) A ∧ (∀ y ∈ A.live, y.2.id ≠ ids) ∧ 0 < ids ∧ ids < ids + 1 := by
  have hc := h.counter
  have hsucc : (ids + 1).toNat = ids.toNat + 1 := by
    rw [UInt64.toNat_add, UInt64.toNat_one, Nat.mod_eq_of_lt (by omega)]
  have hlt : ids < ids + 1 := by
    rw [UInt64.lt_iff_toNat_lt, hsucc]
    omega
  refine ⟨⟨h.follows, h.few.trans (Nat.le_succ n), fun x hx => ?_, by omega, by omega⟩, fun y hy => ?_, ?_, hlt⟩
  · exact ⟨(h.issued x hx).1, UInt64.lt_trans (h.issued x hx).2 hlt⟩
  · rintro rfl
    exact UInt64.lt_irrefl _ (h.issued y hy).2
  · rw [UInt64.lt_iff_toNat_lt, UInt64.toNat_zero]
    omega

theorem added {id : UInt64} {side : Side} {price : Int} {q ts : UInt64} {reply : Reply} (h : Accounts n t ids A)
    (hlen : A.live.length < n) (hid : 0 < id ∧ id < ids) (hfresh : ∀ y ∈ A.live, y.2.id ≠ id)
    (ha : LiveBook.Added A id side price q ts reply A') : Accounts n (t.followAdd id side price reply) ids A' where
  follows := (h.follows.added ha hfresh).1
  few := (added_live ha).2.trans hlen
  issued y hy := by
    rcases (added_live ha).1 y hy with ⟨x, hx, hxy⟩ | hy
    · rw [← hxy]
      exact h.issued x hx
    · rw [hy]
      exact hid
  counter := h.counter

theorem take (h : Accounts n t ids A) (taker : Side) (cross : Int → Bool) (q orderId : UInt64) :
    Accounts n (t.applyTradeFills ((A.take taker cross q).fills.map (Fill.trade orderId))) ids
      (A.take taker cross q).left where
  follows := (h.follows.take taker cross q orderId).1
  few := (A.take_live_length taker cross q).trans h.few
  issued y hy := by
    obtain ⟨x, hx, hxy⟩ := LiveBook.take_origin hy
    rw [← hxy]
    exact h.issued x hx
  counter := h.counter

theorem drop (h : Accounts n t ids A) (hA : A.Sound) (hx : x ∈ A.live) :
    Accounts n ((t.eraseHandle x.2.id).trackRemovePredicted x.2.id) ids (A.remove x) ∧
      Priced ((t.eraseHandle x.2.id).trackRemovePredicted x.2.id) ∧ (A.remove x).live.length < n ∧
      ∀ y ∈ (A.remove x).live, y.2.id ≠ x.2.id := by
  have hmem := LiveBook.mem_live.mp hx
  have hperm := LiveBook.live_remove hA hmem
  obtain ⟨hdrop, hpriced⟩ := h.follows.drop hA hmem
  have hlen := hperm.length_eq
  have hfew := h.few
  rw [List.length_cons] at hlen
  have hnd := (h.follows.toLists.perm hperm).ids_nodup
  rw [List.map_cons, List.nodup_cons] at hnd
  refine ⟨⟨hdrop, by omega, fun y hy => ?_, h.counter⟩, hpriced, by omega, fun y hy heq => ?_⟩
  · exact h.issued y (hperm.mem_iff.mpr (List.mem_cons_of_mem _ hy))
  · apply hnd.1
    rw [← heq]
    exact List.mem_map_of_mem hy

theorem priced_or_nil {q : UInt64} (h : Accounts n t ids A) (hp : 0 < n → Priced t) (hq : q ≠ 0) :
    Priced t ∨ (A.live = [] ∧ q ≠ 0) := by
  rcases Nat.eq_zero_or_pos n with rfl | hn
  · exact Or.inr ⟨List.length_eq_zero_iff.mp (Nat.le_zero.mp h.few), hq⟩
  · exact Or.inl (hp hn)

section Calls

variable {side : Side} {price : Int} {q ts : UInt64} {reply : Reply}

theorem limitAdded (h : Accounts n t ids A) (hpriced : 0 < n → Priced t) (hn : 1000000 + n < 2 ^ 64 - 1) (hq : q ≠ 0)
    (b : ArrayBook) (ha : LiveBook.Added A ids side price q ts reply A') :
    Accounts (n + 1) (({ t with book := b } : Tracking).followAdd ids side price reply) (ids + 1) A' ∧
      Priced (({ t with book := b } : Tracking).followAdd ids side price reply) := by
  obtain ⟨hnext, hfresh, hid⟩ := h.next hn
  constructor
  · exact (hnext.withBook b).added (Nat.lt_succ_of_le h.few) hid hfresh ha
  · exact ((h.follows.withBook b).added ha hfresh).2 (h.priced_or_nil hpriced hq)

theorem modified (h : Accounts n t ids A) (hn : 1000000 + n < 2 ^ 64 - 1) (hA : A.Sound) (hx : x ∈ A.live)
    (b : ArrayBook) (ha : LiveBook.Added (A.remove x) x.2.id side price q ts reply A') :
    Accounts (n + 1) (((({ t with book := b } : Tracking).eraseHandle x.2.id).trackRemovePredicted x.2.id).followAdd
        x.2.id side price reply) (ids + 1) A' ∧
      Priced (((({ t with book := b } : Tracking).eraseHandle x.2.id).trackRemovePredicted x.2.id).followAdd
        x.2.id side price reply) := by
  have hnext := (h.next hn).1
  obtain ⟨hdrop, hpriced, hlen, hfresh⟩ := (hnext.withBook b).drop hA hx
  constructor
  · exact hdrop.added hlen (hnext.issued x hx) hfresh ha
  · exact (hdrop.follows.added ha hfresh).2 (Or.inl hpriced)

theorem marketed (h : Accounts n t ids A) (hpriced : 0 < n → Priced t) (hn : 1000000 + n < 2 ^ 64 - 1)
    (hx : x ∈ A.live) (b : ArrayBook) {trades : List Trade}
    (htrades : trades = (A.take side (fun _ => true) q).fills.map (Fill.trade ids)) :
    Accounts (n + 1) (({ t with book := b } : Tracking).applyTradeFills trades) (ids + 1)
        (A.take side (fun _ => true) q).left ∧
      Priced (({ t with book := b } : Tracking).applyTradeFills trades) := by
  subst htrades
  constructor
  · exact ((h.next hn).1.withBook b).take side (fun _ => true) q ids
  · exact ((h.follows.withBook b).take side (fun _ => true) q ids).2 (hpriced (h.pos_of_mem hx))

end Calls

end Accounts

theorem Tracking.followModify_book (t : Tracking) (id : UInt64) (side : Side) (price : Int) (res : Reply) :
    (((t.eraseHandle id).trackRemovePredicted id).followAdd id side price res).book = t.book :=
  (followAdd_book _ id side price res).trans (trackRemovePredicted_same (t.eraseHandle id) id).1.book

end Llmes.Hft
