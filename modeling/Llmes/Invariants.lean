import Llmes.Scope

namespace Llmes

open Intrusive BookSide BookView LawfulBookSide OrderBook

def OrderPool.entry {R : Type} (p : OrderPool R) (i : ℕ) : Entry :=
  ⟨i, (p.slots i).id, (p.slots i).price, (p.slots i).quantity, (p.slots i).timestamp⟩

namespace ArrayBook

variable {b : ArrayBook} {A : LiveBook}

theorem rep_level (h : Rep b A) (s : Side) (i : ℕ) :
    LevelRep b.pool (s, i) i ((b.book s).levels i) (A.queue s i) := by
  cases ht : (b.book s).activeTree.test i with
  | true => exact h.level s i i (ArraySideBook.ref_eq_some.mpr ⟨rfl, ht⟩)
  | false =>
    have href : ref (b.book s) (i : Int) = none :=
      ArraySideBook.ref_eq_none.mpr (fun j hj => by
        obtain rfl : i = j := by omega
        exact ht)
    rw [h.absent s i href, (h.inv s).vacant i ht]
    exact LevelRep.nil

theorem queue_range (h : Rep b A) (s : Side) (p : Int) (hp : A.queue s p ≠ []) :
    0 ≤ p ∧ p < kBitCount := by
  obtain ⟨r, hr⟩ := Option.ne_none_iff_exists'.mp (h.ref_ne_none hp)
  obtain ⟨rfl, ht⟩ := ArraySideBook.ref_eq_some.mp hr
  have := ArraySideBook.test_lt ht
  omega

theorem orders_perm (h : Rep b A) (s : Side) :
    (A.orders s).Perm ((List.range kBitCount).flatMap (fun i : ℕ => A.queue s i)) :=
  Levels.orders_perm_range (queue_range h s)

theorem fifo_eq (h : Rep b A) (s : Side) (i : ℕ) : b.fifo s i = (A.queue s i).map Entry.slot := by
  apply OrderPool.walk_of_chain (rep_level h s i).links.chain
  simpa using h.queue_length_le s i

theorem entry_slot (h : Rep b A) {s : Side} {i : ℕ} {e : Entry} (he : e ∈ A.queue s i) :
    b.pool.entry e.slot = e := by
  obtain ⟨hid, hprice, hquantity, htimestamp, -⟩ := payload_fields ((rep_level h s i).order e he)
  rw [OrderPool.entry, hid, hprice, hquantity, htimestamp]

def contents (b : ArrayBook) (s : Side) (i : ℕ) : Queue := (b.fifo s i).map b.pool.entry

theorem contents_eq (h : Rep b A) (s : Side) (i : ℕ) : b.contents s i = A.queue s i := by
  rw [contents, fifo_eq h, List.map_map]
  refine (List.map_congr_left (fun e he => ?_)).trans (List.map_id _)
  exact entry_slot h he

def resting (b : ArrayBook) (s : Side) : List ℕ := (List.range kBitCount).flatMap (b.fifo s)

theorem resting_perm (h : Rep b A) (s : Side) : (b.resting s).Perm ((A.orders s).map Entry.slot) := by
  rw [resting, List.flatMap_congr (fun i _ => fifo_eq h s i), ← List.map_flatMap]
  exact ((orders_perm h s).map Entry.slot).symm

structure Partition (b : ArrayBook) (free : List ℕ) (fifo : Side → ℕ → List ℕ) : Prop where
  free_chain : Chain b.pool.links.next b.pool.freeHead free none
  represents : ∀ s i, Represents b.pool.links ((b.book s).levels i).anchor (fifo s i)
  slots : (free ++ ((List.range kBitCount).flatMap (fifo .buy) ++
    (List.range kBitCount).flatMap (fifo .sell))).Perm (List.range b.pool.capacity)
  ends : ∀ s i, ((b.book s).levels i).head = none ↔ ((b.book s).levels i).tail = none
  last : ∀ s i, ((b.book s).levels i).tail = (fifo s i).getLast?
  inverse : ∀ s i, ∀ o ∈ fifo s i, ∀ n ∈ fifo s i,
    (b.pool.slots o).next = some n ↔ (b.pool.slots n).prev = some o
  order : ∀ s i, ∀ o ∈ fifo s i, (b.pool.slots o).price = i ∧ (b.pool.slots o).quantity > 0 ∧
    (b.pool.slots o).parentLevel = some (s, i)

theorem partition_of_rep (h : Rep b A) (hc : b.pool.capacity < 2 ^ 32) :
    Partition b A.free (fun s i => (A.queue s i).map Entry.slot) where
  free_chain := h.free.chain_of_lt hc
  represents s i := (rep_level h s i).links
  slots := by
    have hslots := h.slots
    rw [Nat.mod_eq_of_lt hc] at hslots
    refine List.Perm.trans (List.Perm.append_left _ ?_) hslots
    have hside (s : Side) : ((List.range kBitCount).flatMap (fun i : ℕ => (A.queue s i).map Entry.slot)).Perm
        ((A.orders s).map Entry.slot) := by
      rw [← List.map_flatMap]
      exact ((orders_perm h s).map Entry.slot).symm
    exact (hside .buy).append (hside .sell)
  ends s i := by
    have hl := (rep_level h s i).links
    exact hl.head_eq_none.trans hl.tail_eq_none.symm
  last s i := (rep_level h s i).links.tail
  inverse s i o ho n hn := (rep_level h s i).links.next_iff_prev ho hn
  order s i o ho := by
    obtain ⟨e, he, rfl⟩ := List.mem_map.mp ho
    have hl := rep_level h s i
    obtain ⟨-, hprice, hquantity, -, hparent⟩ := payload_fields (hl.order e he)
    rw [hprice, hquantity, hparent, hl.price e he]
    exact ⟨rfl, pos_iff_ne_zero.mpr (hl.quantity e he), rfl⟩

theorem pool_partition {capacity : ℕ} (hc : capacity < 2 ^ 32) {b : ArrayBook} (h : Reach capacity b) :
    ∃ free fifo, Partition b free fifo := by
  obtain ⟨A, hrep⟩ := h.good.rep
  have hcap := h.good.capacity
  exact ⟨_, _, partition_of_rep hrep (hcap ▸ hc)⟩

theorem pool_partition_sample : ∃ free fifo, Partition sample free fifo :=
  pool_partition (by norm_num) reach_sample

theorem zero_mem_chain {next : ℕ → Option ℕ} {k : ℕ} {xs : List ℕ}
    (hnext : ∀ j, 0 < j → j ≤ k → next j = some (j - 1)) (h : Chain next (some k) xs none) : 0 ∈ xs := by
  induction k generalizing xs with
  | zero =>
    cases xs with
    | nil => simp [Chain] at h
    | cons x xs => simpa using Or.inl (Option.some.inj h.1)
  | succ k ih =>
    cases xs with
    | nil => simp [Chain] at h
    | cons x xs =>
      obtain ⟨hx, h⟩ := h
      obtain rfl := Option.some.inj hx
      rw [hnext (k + 1) (by omega) le_rfl] at h
      exact List.mem_cons_of_mem _ (ih (fun j hj hjk => hnext j hj (by omega)) h)

def wideCapacity : ℕ := 2 ^ 32 + 1

/-- One bid in a book of 2^32 + 1 slots: the node that `acquire` takes is the last one, the handle
it returns reads as slot 0, and slot 0 is still on the free list. -/
theorem exec_wide : ∃ reply b', (init wideCapacity).exec (.limit 1 .buy 100 5 0) = .ok (reply, b') ∧
    b'.pool.freeHead = some (2 ^ 32 - 1) ∧
    (∀ j, 0 < j → j ≤ 2 ^ 32 - 1 → (b'.pool.slots j).next = some (j - 1)) ∧
    ((b'.book .buy).levels 100).head = some 0 := by
  have hfree : (LiveBook.init wideCapacity).free = [0] := rfl
  have hempty : empty ((init wideCapacity).book .sell) = true := rfl
  have hmatch : matchingEngineLimit .buy (init wideCapacity) { initialQuantity := 5 } 1 100 5 =
      .ok { book := init wideCapacity, quantity := 5, out := { initialQuantity := 5 } } :=
    (limitLoop_sweeps .buy 100 1).done _ _ (by simp [Side.opposite, hempty])
  obtain ⟨x, hx, -, hlevels, -⟩ := ArraySideBook.getOrCreate_spec (p := 100)
    (show ArraySideBook.Inv ((init wideCapacity).book .buy) from ArraySideBook.init_inv) (by norm_num)
    (by decide)
  have hget : getOrCreate ((init wideCapacity).book .buy) 100 = .ok (100, x) := hx
  have hl : level x (100 : ℕ) = {} := congrFun hlevels 100
  have hhead : (init wideCapacity).pool.freeHead = some (2 ^ 32) := rfl
  have hnext : ∀ j, j ≤ 2 ^ 32 → ((init wideCapacity).pool.slots j).next = if j = 0 then none else some (j - 1) := by
    intro j hj
    have := OrderPool.init_slots (R := ℕ) wideCapacity j (by rw [wideCapacity]; omega)
    exact congrArg Order.next this
  have hacq : (init wideCapacity).pool.acquire.2.freeHead = some (2 ^ 32 - 1) := by
    simp only [OrderPool.acquire, hhead]
    rw [hnext _ le_rfl, if_neg (by norm_num)]
  have hslots : ∀ j, j ≠ 2 ^ 32 →
      (init wideCapacity).pool.acquire.2.slots j = (init wideCapacity).pool.slots j := by
    intro j hj
    simp only [OrderPool.acquire, hhead, OrderPool.setNext, OrderPool.setPrev, OrderPool.modify_slots, hj, if_false]
  simp only [exec, addLimitOrder, hmatch, ok_bind, restRemainder_of_cons (rep_init wideCapacity) hfree,
    hget, hl, pure_eq_ok, PriceLevel.pushBack]
  refine ⟨_, _, rfl, ?_, ?_, ?_⟩
  · simp only [setBook_pool, OrderPool.modify_freeHead, OrderPool.setNext_freeHead,
      OrderPool.setPrev_freeHead, hacq]
  · intro j h0 hj
    have hj0 : j ≠ 0 := by omega
    simp only [setBook_pool, OrderPool.setNext, OrderPool.setPrev, OrderPool.modify_slots, hj0, if_false]
    rw [hslots j (by omega), hnext j (by omega), if_neg hj0]
  · rw [setBook_book_self]
    change (Function.update x.levels 100 ⟨some 0, some 0⟩ 100).head = some 0
    rw [Function.update_self]

theorem scope_wide : InScope (init wideCapacity) (.limit 1 .buy 100 5 0) := by
  obtain ⟨reply, b', hb, -⟩ := exec_wide
  refine .of_add rfl (fun price hp => ?_) (by rw [hb]; rfl)
  obtain rfl := Option.some.inj hp
  decide

theorem merged_wide {reply : Reply} {b' : ArrayBook}
    (hb : (init wideCapacity).exec (.limit 1 .buy 100 5 0) = .ok (reply, b')) {free : List ℕ}
    {fifo : Side → ℕ → List ℕ} (hp : Partition b' free fifo) : False := by
  obtain ⟨reply', b'', hb', hhead, hnext, hlevel⟩ := exec_wide
  obtain ⟨-, rfl⟩ := Prod.mk.inj (Except.ok.inj (hb.symm.trans hb'))
  have hfree : 0 ∈ free := zero_mem_chain hnext (hhead ▸ hp.free_chain)
  have hlive : 0 ∈ fifo .buy 100 :=
    List.mem_of_head? ((hp.represents .buy 100).head.symm.trans hlevel)
  have hnd := hp.slots.nodup_iff.mpr List.nodup_range
  refine (List.nodup_append.mp hnd).2.2 0 hfree 0 ?_ rfl
  exact List.mem_append_left _ (List.mem_flatMap.mpr ⟨100, List.mem_range.mpr (by decide), hlive⟩)

theorem not_partition_wide :
    ¬ ∀ (capacity : ℕ) (b : ArrayBook), Reach capacity b → ∃ free fifo, Partition b free fifo := by
  intro hall
  obtain ⟨reply, b', hb, -⟩ := exec_wide
  have hreach : Reach wideCapacity b' := (show Reach wideCapacity _ from ⟨[], .nil _⟩).step scope_wide hb
  obtain ⟨free, fifo, hp⟩ := hall wideCapacity b' hreach
  exact merged_wide hb hp

theorem never_crossed {capacity : ℕ} {b : ArrayBook} (h : Reach capacity b) :
    (∀ p q : ℕ, b.bids.activeTree.test p = true → b.asks.activeTree.test q = true → p < q) ∧
    (b.bids.empty = false → b.asks.empty = false →
      ∃ p q, b.bids.bestPrice = .ok p ∧ b.asks.bestPrice = .ok q ∧ p < q) ∧
    (∀ p q : ℕ, ∀ o ∈ b.fifo .buy p, ∀ o' ∈ b.fifo .sell q,
      (b.pool.slots o).price < (b.pool.slots o').price) := by
  obtain ⟨A, hrep⟩ := h.good.rep
  have hunc := h.good.uncrossed
  have href {isAsk : Bool} {x : ArraySideBook isAsk} {i : ℕ} (hi : x.activeTree.test i = true) :
      ref x (i : Int) ≠ none := by
    rw [show ref x (i : Int) = some i from ArraySideBook.ref_eq_some.mpr ⟨rfl, hi⟩]
    simp
  refine ⟨?_, ?_, ?_⟩
  · intro p q hp hq
    exact_mod_cast hunc p q (href hp) (href hq)
  · intro hb ha
    obtain ⟨p, r, hp, -, hr, -⟩ := best (hrep.inv .buy) hb
    obtain ⟨q, u, hq, -, hu, -⟩ := best (hrep.inv .sell) ha
    exact ⟨p, q, hp, hq, hunc p q (by rw [show ref (b.book .buy) p = some r from hr]; simp)
      (by rw [show ref (b.book .sell) q = some u from hu]; simp)⟩
  · have hprice (s : Side) (i : ℕ) : ∀ o ∈ b.fifo s i, (b.pool.slots o).price = i ∧ ref (b.book s) i ≠ none := by
      intro o ho
      have hl := rep_level hrep s i
      rw [fifo_eq hrep] at ho
      obtain ⟨e, he, rfl⟩ := List.mem_map.mp ho
      refine ⟨?_, hrep.ref_ne_none (List.ne_nil_of_mem he)⟩
      rw [(payload_fields (hl.order e he)).2.1, hl.price e he]
    intro p q o ho o' ho'
    obtain ⟨hp, hpr⟩ := hprice .buy p o ho
    obtain ⟨hq, hqr⟩ := hprice .sell q o' ho'
    rw [hp, hq]
    exact hunc p q hpr hqr

theorem never_crossed_sample :
    ∃ p q, sample.bids.bestPrice = .ok p ∧ sample.asks.bestPrice = .ok q ∧ p < q :=
  (never_crossed reach_sample).2.1 (by decide +kernel) (by decide +kernel)

end ArrayBook

end Llmes
