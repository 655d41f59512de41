import Llmes.Invariants

namespace Llmes

open Intrusive BookSide BookView LawfulBookSide OrderBook

namespace ArraySideBook

variable {isAsk : Bool}

structure Marked (b : ArraySideBook isAsk) : Prop where
  set : ∀ i, (b.levels i).empty = false → b.activeTree.test i = true
  has : b.hasBest = true ↔ ∃ i, b.activeTree.test i = true
  best : b.hasBest = true → b.activeTree.test b.bestPriceIdx = true ∧
    ∀ i, b.activeTree.test i = true → i = b.bestPriceIdx ∨ betterIdx isAsk b.bestPriceIdx i = true

theorem Inv.marked {b : ArraySideBook isAsk} (h : b.Inv) : b.Marked where
  set i hi := by
    by_contra ht
    rw [h.vacant i (by simpa using ht)] at hi
    cases hi
  has := h.has
  best := h.best

def retireLevel (b : ArraySideBook isAsk) (idx : ℕ) : Exec (ArraySideBook isAsk) := do
  let tree ← b.activeTree.clear idx
  if idx = b.bestPriceIdx then
    if tree.isEmpty then pure { b with activeTree := tree, hasBest := false }
    else
      let best ← tree.nextBest isAsk idx
      pure { b with activeTree := tree, bestPriceIdx := best }
  else pure { b with activeTree := tree }

theorem retireLevel_spec {b : ArraySideBook isAsk} {i : ℕ} (h : b.Inv)
    (hi : b.activeTree.test i = true) (hlevel : b.levels i = {}) :
    ∃ b', b.retireLevel i = .ok b' ∧ Retired b b' := by
  have hb : b.hasBest = true := h.has.mpr ⟨i, hi⟩
  by_cases hbest : i = b.bestPriceIdx
  · subst hbest
    obtain ⟨tree, hclear, hempty, hnext⟩ := retireBest_spec h hb hlevel
    simp only [retireLevel, hclear, ok_bind, if_true, pure_eq_ok]
    cases he : tree.isEmpty with
    | true => exact ⟨_, rfl, hempty he⟩
    | false =>
      obtain ⟨idx, hidx, hret⟩ := hnext he
      simp only [Bool.false_eq_true, if_false, hidx, ok_bind]
      exact ⟨_, rfl, hret⟩
  · obtain ⟨tree, hclear⟩ := OccupancyTree.clear_ok hi
    have ht := OccupancyTree.test_clear hclear
    obtain ⟨hbt, hall⟩ := h.best hb
    have hof : ∀ j, tree.test j = true → b.activeTree.test j = true := by
      intro j hj
      rw [ht, Bool.and_eq_true] at hj
      exact hj.2
    have hvac : ∀ j, b.activeTree.test j = true → tree.test j = false → b.levels j = {} := by
      intro j hj hj'
      rw [ht, hj, Bool.and_true, decide_eq_false_iff_not, not_not] at hj'
      rw [hj', hlevel]
    have hbest' : tree.test b.bestPriceIdx = true := by
      rw [ht, hbt, Bool.and_true, decide_eq_true_eq]
      exact Ne.symm hbest
    simp only [retireLevel, hclear, ok_bind, if_neg hbest, pure_eq_ok]
    refine ⟨_, rfl, ⟨⟨fun _ => ⟨_, hbest'⟩, fun _ => hb⟩, ?_, ?_⟩, rfl, hof, hvac⟩
    · exact fun _ => ⟨hbest', fun j hj => hall j (hof j hj)⟩
    · intro j hj
      cases hbj : b.activeTree.test j with
      | true => exact hvac j hbj hj
      | false => exact h.vacant j hbj

end ArraySideBook

namespace Levels

variable {isAsk : Bool}

def ofFn (f : ℕ → Queue) : ℕ → Levels isAsk
  | 0 => OrderedMap.empty
  | n + 1 => setQueue (ofFn f n) n (f n)

theorem queue_ofFn (f : ℕ → Queue) (n : ℕ) (p : Int) :
    queue (ofFn f n : Levels isAsk) p = if 0 ≤ p ∧ p < n then f p.toNat else [] := by
  induction n with
  | zero =>
    rw [if_neg (by omega)]
    rfl
  | succ n ih =>
    rw [ofFn, queue_setQueue, ih]
    by_cases hp : p = n
    · subst hp
      simp
    · have : (0 ≤ p ∧ p < n) ↔ (0 ≤ p ∧ p < (n + 1 : ℕ)) := by omega
      rw [if_neg hp, if_congr this rfl rfl]

theorem proper_ofFn (f : ℕ → Queue) (n : ℕ) : Proper (ofFn f n : Levels isAsk) := by
  induction n with
  | zero => intro p; simp [ofFn, OrderedMap.empty, OrderedMap.find?]
  | succ n ih => exact ih.setQueue _ _

end Levels

namespace ArrayBook

/-- The two books hold the same orders in the same slots, the same queues and the same free list. They
may differ in the bits of empty levels, and with them in the cached best prices. -/
def Twin (b b' : ArrayBook) : Prop :=
  ∃ free fifo, Partition b free fifo ∧ Partition b' free fifo ∧
    (∀ s, (b.book s).Marked ∧ (b'.book s).Marked) ∧
    ∀ s i, ∀ o ∈ fifo s i, b.pool.entry o = b'.pool.entry o

def liveBook (p : OrderPool ℕ) (free : List ℕ) (fifo : Side → ℕ → List ℕ) : LiveBook :=
  ⟨Levels.ofFn (fun i => (fifo .buy i).map p.entry) kBitCount,
    Levels.ofFn (fun i => (fifo .sell i).map p.entry) kBitCount, free⟩

theorem liveBook_queue (p : OrderPool ℕ) (free : List ℕ) (fifo : Side → ℕ → List ℕ) (s : Side)
    (price : Int) : (liveBook p free fifo).queue s price =
      if 0 ≤ price ∧ price < kBitCount then (fifo s price.toNat).map p.entry else [] := by
  cases s <;> exact Levels.queue_ofFn _ _ _

variable {b b' : ArrayBook} {free : List ℕ} {fifo : Side → ℕ → List ℕ}

theorem map_slot_entry (p : OrderPool ℕ) (os : List ℕ) : (os.map p.entry).map Entry.slot = os := by
  rw [List.map_map]
  exact List.map_id _

theorem Partition.inv (h : Partition b free fifo) (hm : ∀ s, (b.book s).Marked) (s : Side) :
    (b.book s).Inv where
  has := (hm s).has
  best := (hm s).best
  vacant i hi := by
    have hempty : ((b.book s).levels i).head = none := by
      rw [← PriceLevel.empty_iff]
      by_contra he
      rw [(hm s).set i (by simpa using he)] at hi
      cases hi
    have htail := (h.ends s i).mp hempty
    cases hl : (b.book s).levels i
    simp_all

theorem Partition.rep (h : Partition b free fifo) (hm : ∀ s, (b.book s).Marked)
    (hc : b.pool.capacity < 2 ^ 32) : Rep b (liveBook b.pool free fifo) where
  inv := h.inv hm
  level s p r hr := by
    obtain ⟨rfl, ht⟩ := ArraySideBook.ref_eq_some.mp hr
    have hlt := ArraySideBook.test_lt ht
    rw [liveBook_queue, if_pos (by omega), Int.toNat_natCast]
    refine ⟨by rw [map_slot_entry]; exact h.represents s r, ?_, ?_, ?_⟩ <;> intro e he <;>
      obtain ⟨o, ho, rfl⟩ := List.mem_map.mp he <;> obtain ⟨hprice, hquantity, hparent⟩ := h.order s r o ho
    · simp [Order.payload, Entry.order, OrderPool.entry, hparent]
    · exact hprice
    · exact pos_iff_ne_zero.mp hquantity
  absent s p hr := by
    rw [liveBook_queue]
    split
    · next hp =>
      have ht := ArraySideBook.ref_eq_none.mp hr p.toNat (by omega)
      have hrep := h.represents s p.toNat
      rw [(h.inv hm s).vacant _ ht] at hrep
      rw [hrep.head_eq_none.mp rfl]
      rfl
    · rfl
  proper s := by cases s <;> exact Levels.proper_ofFn _ _
  free := by
    refine ⟨free, none, h.free_chain, ?_, ?_, by simp⟩
    · refine (List.map_congr_left (fun i hi => ?_)).trans (List.map_id _)
      have := List.mem_range.mp (h.slots.mem_iff.mp (List.mem_append_left _ hi))
      exact Nat.mod_eq_of_lt (by omega)
    · exact fun i hi => List.mem_range.mp (h.slots.mem_iff.mp (List.mem_append_left _ hi))
  slots := by
    rw [Nat.mod_eq_of_lt hc]
    refine List.Perm.trans (List.Perm.append_left _ ?_) h.slots
    have hside (s : Side) : (((liveBook b.pool free fifo).orders s).map Entry.slot).Perm
        ((List.range kBitCount).flatMap (fifo s)) := by
      have hperm := Levels.orders_perm_range (m := (liveBook b.pool free fifo).side s) (n := kBitCount)
        (fun p hp => by
          by_contra hr
          exact hp ((liveBook_queue b.pool free fifo s p).trans (if_neg hr)))
      refine (hperm.map Entry.slot).trans (List.Perm.of_eq ?_)
      rw [List.map_flatMap]
      apply List.flatMap_congr
      intro i hi
      have hq := liveBook_queue b.pool free fifo s i
      rw [if_pos ⟨by omega, by simpa using hi⟩, Int.toNat_natCast] at hq
      exact (congrArg (List.map Entry.slot) hq).trans (map_slot_entry _ _)
    exact (hside .buy).append (hside .sell)

theorem Partition.capacity_eq (h : Partition b free fifo) (h' : Partition b' free fifo) :
    b'.pool.capacity = b.pool.capacity := by
  simpa using (h'.slots.symm.trans h.slots).length_eq

theorem Twin.rep (h : Twin b b') (hc : b.pool.capacity < 2 ^ 32) :
    ∃ A, Rep b A ∧ Rep b' A ∧ b'.pool.capacity = b.pool.capacity := by
  obtain ⟨free, fifo, hp, hp', hm, he⟩ := h
  have hcap := hp.capacity_eq hp'
  have hsame : liveBook b'.pool free fifo = liveBook b.pool free fifo := by
    have hside (s : Side) : (fun i => (fifo s i).map b'.pool.entry) = fun i => (fifo s i).map b.pool.entry := by
      funext i
      exact List.map_congr_left (fun o ho => (he s i o ho).symm)
    rw [liveBook, liveBook, hside, hside]
  have hrep' := hp'.rep (fun s => (hm s).2) (hcap ▸ hc)
  rw [hsame] at hrep'
  exact ⟨_, hp.rep (fun s => (hm s).1) hc, hrep', hcap⟩

theorem Twin.of_rep {A : LiveBook} (h : Rep b A) (h' : Rep b' A) (hc : b.pool.capacity < 2 ^ 32)
    (hcap : b'.pool.capacity = b.pool.capacity) : Twin b b' := by
  refine ⟨_, _, partition_of_rep h hc, partition_of_rep h' (hcap ▸ hc),
    fun s => ⟨(h.inv s).marked, (h'.inv s).marked⟩, ?_⟩
  intro s i o ho
  obtain ⟨e, he, rfl⟩ := List.mem_map.mp ho
  rw [entry_slot h he, entry_slot h' he]

/-- As `removeOrder`, but a level that the order leaves empty is retired at once. -/
def removeEagerly (b : ArrayBook) (o : ℕ) : Exec ArrayBook := do
  let b' ← b.removeOrder o
  match (b.pool.slots o).parentLevel with
  | none => .error .nullPointer
  | some (s, r) =>
    if (level (b'.book s) r).empty then
      let x ← (b'.book s).retireLevel r
      pure (b'.setBook s x)
    else pure b'

def execEagerly (b : ArrayBook) : Op → Exec (Reply × ArrayBook)
  | .modify h side price quantity timestamp => do
    let o ← b.pool.resolve h
    let orderId := (b.pool.slots o).id
    let b ← b.removeEagerly o
    let r ← b.addLimitOrder orderId side price quantity timestamp
    pure (.added r.1, r.2)
  | .cancel h => do
    let o ← b.pool.resolve h
    let b ← b.removeEagerly o
    pure (.cancelled .success, b)
  | op => b.exec op

variable {A A' : LiveBook} {op : Op} {reply : Reply}

theorem removeEagerly_spec (h : Rep b A) {s : Side} {e : Entry} (he : e ∈ A.orders s) :
    ∃ b', b.removeEagerly e.slot = .ok b' ∧ Rep b' (A.remove (s, e)) ∧
      b'.pool.capacity = b.pool.capacity := by
  obtain ⟨-, r, hr, hpay, -⟩ := h.order_spec he
  obtain ⟨-, -, -, -, hparent⟩ := payload_fields hpay
  obtain ⟨b₁, hb₁, hrep₁, href₁, hcap₁, -⟩ := removeOrder_spec h he
  simp only [removeEagerly, hb₁, ok_bind, hparent]
  split
  · next hempty =>
    have hr₁ : ref (b₁.book s) e.price = some r := by rw [href₁, hr]
    have hl := hrep₁.level s e.price r hr₁
    obtain ⟨-, htest⟩ := ArraySideBook.ref_eq_some.mp hr₁
    have hvac := hl.nil_iff.mp (hl.head_eq_none.mp (PriceLevel.empty_iff.mp hempty))
    obtain ⟨x, hx, hret⟩ := ArraySideBook.retireLevel_spec (hrep₁.inv s) htest hvac
    simp only [hx, ok_bind, pure_eq_ok]
    exact ⟨_, rfl, hrep₁.drop hret.inv hret.keeps, by rw [setBook_pool, hcap₁]⟩
  · exact ⟨b₁, rfl, hrep₁, hcap₁⟩

theorem exec_of_live (h : Rep b A) (hlive : op.Live A) (hadm : op.Admissible b A)
    (hA : A.exec op = some (reply, A')) :
    ∃ c, b.exec op = .ok (reply, c) ∧ Rep c A' ∧ c.pool.capacity = b.pool.capacity := by
  rcases exec_spec h op hlive hadm with ⟨-, hnone⟩ | ⟨hp, -⟩ | ⟨reply', c, A'', hb, hA', hmoved⟩
  · rw [hA] at hnone
    cases hnone
  · exact absurd hp id
  · obtain ⟨rfl, rfl⟩ := Prod.mk.inj (Option.some.inj (hA.symm.trans hA'))
    exact ⟨c, hb, hmoved.rep, hmoved.capacity⟩

theorem execEagerly_of_live (h : Rep b A) (hlive : op.Live A) (hadm : op.Admissible b A)
    (hA : A.exec op = some (reply, A')) :
    ∃ c, b.execEagerly op = .ok (reply, c) ∧ Rep c A' ∧ c.pool.capacity = b.pool.capacity := by
  have hremove {i : OrderHandle} {x : Side × Entry} (hx : A.locate i.toNat = some x) :
      b.pool.resolve i = .ok i.toNat ∧ (b.pool.slots i.toNat).id = x.2.id ∧
      ∃ b₁, b.removeEagerly i.toNat = .ok b₁ ∧ Rep b₁ (A.remove x) ∧
        b₁.pool.capacity = b.pool.capacity := by
    obtain ⟨hmem, hslot⟩ := LiveBook.locate_eq_some hx
    obtain ⟨-, r, -, hpay, -⟩ := h.order_spec hmem
    have heager := removeEagerly_spec h hmem
    rw [hslot] at hpay heager
    exact ⟨h.resolve_ok (hslot ▸ LiveBook.slot_mem_of_order hmem), (payload_fields hpay).1, heager⟩
  cases op with
  | modify handle side price quantity timestamp =>
    obtain ⟨x, hx⟩ := Option.ne_none_iff_exists'.mp hlive
    obtain ⟨hres, hid, b₁, hb₁, hrep₁, hcap₁⟩ := hremove hx
    simp only [LiveBook.exec, hx] at hA
    simp only [execEagerly, hres, ok_bind, hid, hb₁, pure_eq_ok]
    rcases addLimitOrder_spec hrep₁ x.2.id side price quantity timestamp (hadm x hx) with
      ⟨-, hnone⟩ | ⟨hp, -⟩ | ⟨out, c, A₁, hb, hA₁, hmoved⟩
    · rw [hnone] at hA
      cases hA
    · exact absurd hp id
    · rw [hA₁] at hA
      obtain ⟨rfl, rfl⟩ := Prod.mk.inj (Option.some.inj hA)
      exact ⟨c, by rw [hb]; rfl, hmoved.rep, hmoved.capacity.trans hcap₁⟩
  | cancel handle =>
    obtain ⟨x, hx⟩ := Option.ne_none_iff_exists'.mp hlive
    obtain ⟨hres, -, b₁, hb₁, hrep₁, hcap₁⟩ := hremove hx
    simp only [LiveBook.exec, hx] at hA
    obtain ⟨rfl, rfl⟩ := Prod.mk.inj (Option.some.inj hA)
    simp only [execEagerly, hres, ok_bind, hb₁, pure_eq_ok]
    exact ⟨b₁, rfl, hrep₁, hcap₁⟩
  | _ => exact exec_of_live h hlive hadm hA

theorem Twin.step (h : Twin b b') (hc : b.pool.capacity < 2 ^ 32) (hs : InScope b op) :
    ∃ reply c, b.exec op = .ok (reply, c) ∧ c.pool.capacity = b.pool.capacity ∧
      (∃ c', b'.exec op = .ok (reply, c') ∧ Twin c c') ∧
      ∃ c', b'.execEagerly op = .ok (reply, c') ∧ Twin c c' := by
  obtain ⟨A, hrep, hrep', hcap⟩ := h.rep hc
  have hlive := (hrep.live_iff op).mpr hs.live
  have hadm := hs.admissible hrep hlive
  have hadm' : op.Admissible b' A := by cases op <;> exact hadm
  obtain ⟨reply, c, A', hb, hA, hmoved⟩ := hs.exec hrep
  obtain ⟨c', hb', hc', hcap'⟩ := exec_of_live hrep' hlive hadm' hA
  obtain ⟨d, hd, hdrep, hdcap⟩ := execEagerly_of_live hrep' hlive hadm' hA
  have hcc : c.pool.capacity < 2 ^ 32 := hmoved.capacity ▸ hc
  refine ⟨reply, c, hb, hmoved.capacity, ⟨c', hb', ?_⟩, ⟨d, hd, ?_⟩⟩
  · exact .of_rep hmoved.rep hc' hcc (by rw [hcap', hcap, hmoved.capacity])
  · exact .of_rep hmoved.rep hdrep hcc (by rw [hdcap, hcap, hmoved.capacity])

theorem Twin.run {step : Machine.Step ArrayBook Op Reply Fault} {ops : List Op} (h : Twin b b')
    (hc : b.pool.capacity < 2 ^ 32) (hok : Machine.Allowed OrderBook.exec InScope b ops)
    (hstep : ∀ b b' op, Twin b b' → b.pool.capacity < 2 ^ 32 → InScope b op →
      ∃ reply c c', b.exec op = .ok (reply, c) ∧ step b' op = .ok (reply, c') ∧
        c.pool.capacity = b.pool.capacity ∧ Twin c c') :
    ∃ replies c c', Machine.runAll OrderBook.exec b ops = .ok (replies, c) ∧
      Machine.runAll step b' ops = .ok (replies, c') ∧ Twin c c' := by
  obtain ⟨replies, c, c', hb, hb', htwin, -⟩ := Machine.runAll_agree
    (R := fun b b' => Twin b b' ∧ b.pool.capacity < 2 ^ 32) (fun b b' op hR hs => by
      obtain ⟨reply, c, c', hb, hb', hcap, ht⟩ := hstep b b' op hR.1 hR.2 hs
      exact ⟨reply, c, c', hb, hb', ht, hcap ▸ hR.2⟩) ⟨h, hc⟩ hok
  exact ⟨replies, c, c', hb, hb', htwin⟩

/-- Books that differ only in the levels that cancels have left empty answer every call and every
run of calls alike, and so does a book that retires such levels at once. -/
theorem lazy_retirement (h : Twin b b') (hc : b.pool.capacity < 2 ^ 32) :
    (∀ op, InScope b op → ∃ reply c c', b.exec op = .ok (reply, c) ∧ b'.exec op = .ok (reply, c') ∧
      Twin c c') ∧
    (∀ ops, Machine.Allowed OrderBook.exec InScope b ops → ∃ replies c c',
      Machine.runAll OrderBook.exec b ops = .ok (replies, c) ∧
      Machine.runAll OrderBook.exec b' ops = .ok (replies, c') ∧ Twin c c') ∧
    (∀ ops, Machine.Allowed OrderBook.exec InScope b ops → ∃ replies c c',
      Machine.runAll OrderBook.exec b ops = .ok (replies, c) ∧
      Machine.runAll execEagerly b' ops = .ok (replies, c') ∧ Twin c c') := by
  refine ⟨?_, ?_, ?_⟩
  · intro op hs
    obtain ⟨reply, c, hb, -, ⟨c', hb', ht⟩, -⟩ := h.step hc hs
    exact ⟨reply, c, c', hb, hb', ht⟩
  · intro ops hok
    apply h.run hc hok
    intro b b' op h hc hs
    obtain ⟨reply, c, hb, hcap, ⟨c', hb', ht⟩, -⟩ := h.step hc hs
    exact ⟨reply, c, c', hb, hb', hcap, ht⟩
  · intro ops hok
    apply h.run hc hok
    intro b b' op h hc hs
    obtain ⟨reply, c, hb, hcap, -, c', hb', ht⟩ := h.step hc hs
    exact ⟨reply, c, c', hb, hb', hcap, ht⟩

def swept : ArrayBook :=
  match sample.bids.retireLevel 99 with
  | .ok bids => { sample with bids }
  | .error _ => sample

theorem twin_swept : Twin sample swept := by
  obtain ⟨A, hrep⟩ := reach_sample.good.rep
  have hcap : sample.pool.capacity = 4 := reach_sample.good.capacity
  obtain ⟨x, hx, hret⟩ := ArraySideBook.retireLevel_spec (i := 99) (hrep.inv .buy)
    (show sample.bids.activeTree.test 99 = true by decide +kernel) (by decide +kernel)
  have hswept : swept = sample.setBook .buy x := by
    rw [swept, show sample.bids.retireLevel 99 = _ from hx]
    rfl
  rw [hswept]
  exact .of_rep hrep (hrep.drop hret.inv hret.keeps) (by rw [hcap]; norm_num) (by rw [setBook_pool])

theorem lazy_retirement_swept :
    sample.bids.activeTree.test 99 = true ∧ swept.bids.activeTree.test 99 = false ∧
    ∃ reply c c', sample.exec (.limit 5 .buy 99 1 4) = .ok (reply, c) ∧
      swept.exec (.limit 5 .buy 99 1 4) = .ok (reply, c') ∧ Twin c c' := by
  have hc : sample.pool.capacity < 2 ^ 32 := by
    rw [reach_sample.good.capacity]
    norm_num
  refine ⟨by decide +kernel, by decide +kernel, (lazy_retirement twin_swept hc).1 _ ?_⟩
  exact .of_add rfl (by simp [Op.price, kBitCount]) (by decide +kernel)

theorem partition_init (capacity : ℕ) :
    Partition (init capacity) (List.range capacity).reverse (fun _ _ => []) where
  free_chain := by
    have hchain := FreeRep.init_chain (R := ℕ) capacity capacity 0 (by omega)
    have hhead : (init capacity).pool.freeHead = _ := OrderPool.init_freeHead (R := ℕ) capacity
    rw [hhead]
    simp only [zero_add, List.map_id', if_true] at hchain
    exact hchain
  represents s i := by cases s <;> exact represents_nil.mpr rfl
  slots := by
    have hnone : (List.range kBitCount).flatMap (fun _ => ([] : List ℕ)) = [] := by simp
    have hcap : (init capacity).pool.capacity = capacity := OrderPool.init_capacity capacity
    rw [hnone, hcap, List.append_nil, List.append_nil]
    exact List.reverse_perm _
  ends s i := by cases s <;> exact Iff.rfl
  last s i := by cases s <;> rfl
  inverse s i o ho := by simp at ho
  order s i o ho := by simp at ho

theorem not_lazy_retirement_wide :
    ¬ ∀ b b' : ArrayBook, Twin b b' → ∀ op, InScope b op → ∃ reply c c',
      b.exec op = .ok (reply, c) ∧ b'.exec op = .ok (reply, c') ∧ Twin c c' := by
  intro hall
  have hinv (s : Side) : ((init wideCapacity).book s).Marked := by
    cases s <;> exact ArraySideBook.init_inv.marked
  have htwin : Twin (init wideCapacity) (init wideCapacity) :=
    ⟨_, _, partition_init _, partition_init _, fun s => ⟨hinv s, hinv s⟩, fun _ _ _ _ => rfl⟩
  obtain ⟨reply, c, c', hb, -, free, fifo, hp, -⟩ := hall _ _ htwin _ scope_wide
  exact merged_wide hb hp

end ArrayBook

end Llmes
