import Llmes.Observation

namespace Llmes

open Intrusive BookSide BookView LawfulBookSide OrderBook

namespace LiveBook

variable {A : LiveBook}

theorem queue_remove (h : A.Sound) {s : Side} {e : Entry} (he : e ∈ A.orders s) (t : Side) (p : Int) :
    (A.remove (s, e)).queue t p = (A.queue t p).filter (fun e' => e'.slot ≠ e.slot) := by
  rw [remove, queue_setQueue]
  split
  · next hsp =>
    obtain ⟨rfl, rfl⟩ := hsp
    rfl
  · next hsp =>
    rw [queue_withFree]
    symm
    apply List.filter_eq_self.mpr
    intro e' he'
    simpa using h.slot_ne (h.order he).1 he' hsp

theorem remove_free (x : Side × Entry) : (A.remove x).free = x.2.slot :: A.free := setQueue_free _ _ _ _

theorem take_left_of_fills (h : A.Sound) {taker : Side} {cross : Int → Bool} {q : UInt64}
    (hfills : (A.take taker cross q).fills = []) : (A.take taker cross q).left = A := by
  have hlevels : (takeLevels cross q (A.side taker.opposite).entries).left = (A.side taker.opposite).entries := by
    rw [take_fills] at hfills
    cases hes : (A.side taker.opposite).entries with
    | nil => rfl
    | cons l es =>
      obtain ⟨p, os⟩ := l
      rw [hes, takeLevels] at hfills
      rw [takeLevels]
      split
      · rfl
      · next hgo =>
        rw [if_neg hgo] at hfills
        cases os with
        | nil =>
          have hf : (A.side taker.opposite).find? p = some [] := OrderedMap.find?_of_mem (hes ▸ List.mem_cons_self)
          exact absurd hf (h.proper taker.opposite p)
        | cons e os =>
          have hq : q ≠ 0 := fun hz => hgo (Or.inl hz)
          have hsome : (takeQueue q (e :: os)).fills ≠ [] := by
            rw [takeQueue, if_neg hq]
            dsimp only
            split <;> exact List.cons_ne_nil _ _
          dsimp only at hfills
          split at hfills
          · exact absurd (List.append_eq_nil_iff.mp hfills).1 hsome
          · exact absurd hfills hsome
  apply ext_entries
  · intro s
    by_cases hs : s = taker.opposite
    · subst hs
      rw [take_left_entries, hlevels]
    · rw [take_left_side_of_ne _ _ _ _ hs]
  · rw [take_left_free, hfills]
    rfl

end LiveBook

namespace ArrayBook

variable {b c : ArrayBook} {A : LiveBook} {capacity : ℕ}

theorem run_cancels (h : Rep b A) {handles : List OrderHandle} (hnodup : handles.Nodup)
    (hlive : ∀ i ∈ handles, A.locate i.toNat ≠ none) :
    ∃ c B, Machine.runAll OrderBook.exec b (handles.map .cancel) =
        .ok (handles.map (fun _ => .cancelled .success), c) ∧ Rep c B ∧ c.pool.capacity = b.pool.capacity ∧
      B.free = (handles.map UInt32.toNat).reverse ++ A.free ∧
      ∀ s p, B.queue s p = (A.queue s p).filter (fun e => e.slot ∉ handles.map UInt32.toNat) := by
  induction handles generalizing b A with
  | nil => exact ⟨b, A, rfl, h, rfl, rfl, fun s p => by simp⟩
  | cons i handles ih =>
    obtain ⟨hi, hnodup⟩ := List.nodup_cons.mp hnodup
    obtain ⟨⟨s, e⟩, b₁, hx, hres, hb₁, -, hmoved, -⟩ := h.remove_live (hlive i List.mem_cons_self)
    obtain ⟨hmem, hslot⟩ := LiveBook.locate_eq_some hx
    have hrest : ∀ j ∈ handles, (A.remove (s, e)).locate j.toNat ≠ none := by
      intro j hj
      obtain ⟨y, hy⟩ := Option.ne_none_iff_exists'.mp (hlive j (List.mem_cons_of_mem _ hj))
      obtain ⟨hymem, hyslot⟩ := LiveBook.locate_eq_some hy
      have hne : y.2.slot ≠ e.slot := by
        rw [hyslot, hslot]
        exact fun heq => hi (UInt32.toNat_inj.mp heq ▸ hj)
      rw [Ne, LiveBook.locate_eq_none]
      exact fun hnone => hnone y.1 y.2 ((LiveBook.mem_remove h.sound hmem).mpr ⟨hymem, hne⟩) hyslot
    obtain ⟨c, B, hrun, hrep, hcap, hfree, hqueue⟩ := ih hmoved.rep hnodup hrest
    refine ⟨c, B, ?_, hrep, hcap.trans hmoved.capacity, ?_, ?_⟩
    · have hexec : b.exec (.cancel i) = .ok (.cancelled .success, b₁) := by
        simp only [exec, cancelOrder, hres, ok_bind, hb₁, pure_eq_ok]
      simp only [List.map_cons, Machine.runAll, hexec, hrun, ok_bind]
      rfl
    · rw [hfree, LiveBook.remove_free, List.map_cons, List.reverse_cons, List.append_assoc]
      exact congrArg (fun j => _ ++ (j :: A.free)) hslot
    · intro t p
      rw [hqueue, LiveBook.queue_remove h.sound hmem, List.filter_filter]
      apply List.filter_congr
      intro e' _
      have hslot' : e.slot = i.toNat := hslot
      simp [hslot', Bool.and_comm]

theorem sameContents_of_queue {b' : ArrayBook} {B : LiveBook} (hb : Rep b A) (hb' : Rep b' B)
    (hq : ∀ s p, A.queue s p = B.queue s p) : SameContents b b' := by
  intro s i
  rw [contents_eq hb, contents_eq hb', hq]

theorem SameContents.indistinct {b' : ArrayBook} {B : LiveBook} (h : SameContents b b') (hb : Rep b A)
    (hb' : Rep b' B) (hcap : b'.pool.capacity = b.pool.capacity) : Indistinct b b' :=
  fun _ hops => observe_of_renamed (h.renamed hb hb' (by rw [hcap])) hops

theorem cancels_commute (h : Reach capacity b) {handles handles' : List OrderHandle} (hperm : handles.Perm handles')
    (hnodup : handles.Nodup) (hlive : ∀ i ∈ handles, b.Resting i.toNat) :
    ∃ c c', Machine.runAll OrderBook.exec b (handles.map .cancel) =
        .ok (handles.map (fun _ => .cancelled .success), c) ∧
      Machine.runAll OrderBook.exec b (handles'.map .cancel) =
        .ok (handles'.map (fun _ => .cancelled .success), c') ∧ Indistinct c c' := by
  obtain ⟨A, hrep⟩ := h.good.rep
  have hlocate (i : OrderHandle) (hi : i ∈ handles) : A.locate i.toNat ≠ none := hrep.resting_iff.mp (hlive i hi)
  obtain ⟨c, B, hrun, hc, hcap, -, hq⟩ := run_cancels hrep hnodup hlocate
  obtain ⟨c', B', hrun', hc', hcap', -, hq'⟩ := run_cancels hrep (hperm.nodup_iff.mp hnodup)
    (fun i hi => hlocate i (hperm.mem_iff.mpr hi))
  refine ⟨c, c', hrun, hrun', ?_⟩
  apply (sameContents_of_queue hc hc' ?_).indistinct hc hc' (hcap'.trans hcap.symm)
  intro s p
  rw [hq, hq']
  apply List.filter_congr
  intro e _
  simp only [(hperm.map UInt32.toNat).mem_iff]

theorem cancels_commute_sample :
    ∃ c c', Machine.runAll OrderBook.exec sample [.cancel 3, .cancel 1] =
        .ok ([.cancelled .success, .cancelled .success], c) ∧
      Machine.runAll OrderBook.exec sample [.cancel 1, .cancel 3] =
        .ok ([.cancelled .success, .cancelled .success], c') ∧ Indistinct c c' := by
  have hlive : ∀ i ∈ [3, 1], sample.Resting (UInt32.toNat i) := by
    intro i hi
    rcases List.mem_cons.mp hi with rfl | hi
    · exact ⟨.buy, 100, 100, by decide +kernel, by decide +kernel⟩
    · rw [List.mem_singleton.mp hi]
      exact ⟨.sell, 101, 101, by decide +kernel, by decide +kernel⟩
  exact cancels_commute reach_sample (List.Perm.swap 1 3 []) (by decide) hlive

theorem rest_free (h : Rep b A) {orderId : UInt64} {side : Side} {price : Int} {remaining timestamp : UInt64}
    {n : OrderHandle} {B : LiveBook} (hrest : A.rest orderId side price remaining timestamp = some (n, B)) :
    A.free = n.toNat :: B.free := by
  unfold LiveBook.rest at hrest
  split at hrest
  · cases hrest
  · next i free hf =>
    obtain ⟨rfl, rfl⟩ := Prod.mk.inj (Option.some.inj hrest)
    rw [hf, (Rep.ofNat_ne_invalid (h.slot_lt_max (h.free_cons hf).1).1).2, LiveBook.setQueue_free]

theorem exec_passive (h : Rep b A) {op : Op} (hs : InScope b op) (hnone : op.handle = none) {r : Reply}
    (hc : b.exec op = .ok (r, c)) (htrades : r.trades = []) (hhandle : r.handle ≠ kInvalidHandle) :
    ∃ B, Rep c B ∧ c.pool.capacity = b.pool.capacity ∧ A.free = r.handle.toNat :: B.free ∧
      ∀ s p, ∃ es, B.queue s p = A.queue s p ++ es ∧ ∀ e ∈ es, e.slot = r.handle.toNat := by
  have hlive := (h.live_iff op).mpr hs.live
  obtain ⟨r', c', B, hc', hA, hmoved⟩ := hs.exec h
  obtain ⟨rfl, rfl⟩ := Prod.mk.inj (Except.ok.inj (hc'.symm.trans hc))
  obtain ⟨m, t, hm, ht, hphase⟩ := matching_spec h op hlive
  obtain ⟨m', hm', hreply, -⟩ := exec_matching hc
  obtain rfl := Except.ok.inj (hm.symm.trans hm')
  have hfills : t.fills = [] := by
    rw [htrades, hphase.trades] at hreply
    exact List.map_eq_nil_iff.mp hreply.symm
  have hleft : t.left = A := by
    cases op with
    | limit | market =>
      obtain rfl := Option.some.inj ht
      exact LiveBook.take_left_of_fills h.sound hfills
    | modify | cancel => cases hnone
  rcases LiveBook.exec_cases hA ht with ⟨-, hinvalid, -⟩ | ⟨k, -, -, -, hrest⟩
  · exact absurd hinvalid hhandle
  · rw [hleft] at hrest
    refine ⟨B, hmoved.rep, hmoved.capacity, rest_free h hrest, fun s p => ⟨_, h.rest_queue hrest s p, ?_⟩⟩
    intro e he
    split at he
    · rw [List.mem_singleton.mp he]
    · cases he

theorem run_passive (h : Rep b A) {adds : List Op} (hs : Machine.Allowed OrderBook.exec InScope b adds)
    (hnone : ∀ op ∈ adds, op.handle = none) {rs : List Reply}
    (hrun : Machine.runAll OrderBook.exec b adds = .ok (rs, c))
    (hrest : ∀ r ∈ rs, r.trades = [] ∧ r.handle ≠ kInvalidHandle) :
    ∃ B, Rep c B ∧ c.pool.capacity = b.pool.capacity ∧ A.free = rs.map (fun r => r.handle.toNat) ++ B.free ∧
      ∀ s p, ∃ es, B.queue s p = A.queue s p ++ es ∧ ∀ e ∈ es, e.slot ∈ rs.map (fun r => r.handle.toNat) := by
  induction adds generalizing b A rs with
  | nil =>
    obtain ⟨rfl, rfl⟩ := Prod.mk.inj (Except.ok.inj hrun)
    exact ⟨A, h, rfl, rfl, fun s p => ⟨[], (List.append_nil _).symm, fun e he => by cases he⟩⟩
  | cons op adds ih =>
    rw [Machine.runAll] at hrun
    obtain ⟨⟨r, b₁⟩, hb₁, hrun⟩ := bind_eq_ok.mp hrun
    obtain ⟨⟨rs', c'⟩, hrun', heq⟩ := bind_eq_ok.mp hrun
    obtain ⟨rfl, rfl⟩ := Prod.mk.inj (Except.ok.inj heq)
    obtain ⟨htrades, hhandle⟩ := hrest r List.mem_cons_self
    obtain ⟨A₁, hA₁, hcap, hfree, hqueue⟩ := exec_passive h hs.1 (hnone op List.mem_cons_self) hb₁ htrades hhandle
    obtain ⟨B, hB, hcap', hfree', hqueue'⟩ := ih hA₁ (hs.2 r b₁ hb₁) (fun op hop => hnone op (List.mem_cons_of_mem _ hop))
      hrun' (fun r hr => hrest r (List.mem_cons_of_mem _ hr))
    refine ⟨B, hB, hcap'.trans hcap, by rw [hfree, hfree']; rfl, fun s p => ?_⟩
    obtain ⟨es, hes, hslots⟩ := hqueue s p
    obtain ⟨es', hes', hslots'⟩ := hqueue' s p
    refine ⟨es ++ es', by rw [hes', hes, List.append_assoc], fun e he => ?_⟩
    rcases List.mem_append.mp he with he | he
    · rw [hslots e he]
      exact List.mem_cons_self
    · exact List.mem_cons_of_mem _ (hslots' e he)

theorem cancelled_unseen (h : Reach capacity b) {adds : List Op} (hs : Machine.Allowed OrderBook.exec InScope b adds)
    (hnone : ∀ op ∈ adds, op.handle = none) {rs : List Reply}
    (hrun : Machine.runAll OrderBook.exec b adds = .ok (rs, c))
    (hrest : ∀ r ∈ rs, r.trades = [] ∧ r.handle ≠ kInvalidHandle) {handles : List OrderHandle}
    (hperm : handles.Perm (rs.map Reply.handle)) :
    ∃ d, Machine.runAll OrderBook.exec c (handles.map .cancel) = .ok (handles.map (fun _ => .cancelled .success), d) ∧
      Indistinct b d ∧ Indistinct d b ∧
      (handles = (rs.map Reply.handle).reverse → ∀ ops : List Op, (∀ op ∈ ops, ∀ p ∈ op.price, 0 ≤ p ∧ p < kBitCount) →
        Machine.Allowed OrderBook.exec OrderBook.Names b ops → d.replies ops = b.replies ops) := by
  obtain ⟨A, hrep⟩ := h.good.rep
  obtain ⟨B, hB, hcap, hfree, hqueue⟩ := run_passive hrep hs hnone hrun hrest
  have hslots : rs.map (fun r => r.handle.toNat) = (rs.map Reply.handle).map UInt32.toNat := by
    rw [List.map_map]
    rfl
  rw [hslots] at hfree hqueue
  have hmem (i : ℕ) : i ∈ handles.map UInt32.toNat ↔ i ∈ (rs.map Reply.handle).map UInt32.toNat :=
    (hperm.map UInt32.toNat).mem_iff
  have hfreeA := (List.nodup_append.mp hrep.nodup).1
  rw [hfree, List.nodup_append] at hfreeA
  have hnodup : handles.Nodup := hperm.nodup_iff.mpr (List.Nodup.of_map _ hfreeA.1)
  have hlive : ∀ i ∈ handles, B.locate i.toNat ≠ none := by
    intro i hi
    have hi' := (hmem i.toNat).mp (List.mem_map_of_mem hi)
    have hslot : i.toNat ∈ B.slots := by
      rw [hB.mem_slots, hcap, ← hrep.mem_slots, LiveBook.slots, hfree]
      exact List.mem_append_left _ (List.mem_append_left _ hi')
    have hnot : i.toNat ∉ B.free := fun hf => hfreeA.2.2 _ hi' _ hf rfl
    rw [Ne, LiveBook.locate_eq_none]
    intro hnone
    rcases List.mem_append.mp hslot with hf | hf
    · exact hnot hf
    · rcases List.mem_append.mp hf with hf | hf <;> obtain ⟨e, he, heq⟩ := List.mem_map.mp hf
      · exact hnone .buy e he heq
      · exact hnone .sell e he heq
  obtain ⟨d, D, hcancel, hD, hcapD, hfreeD, hqueueD⟩ := run_cancels hB hnodup hlive
  have hsame (s : Side) (p : Int) : D.queue s p = A.queue s p := by
    obtain ⟨es, hes, hes'⟩ := hqueue s p
    rw [hqueueD, hes, List.filter_append]
    have hold : (A.queue s p).filter (fun e => e.slot ∉ handles.map UInt32.toNat) = A.queue s p := by
      apply List.filter_eq_self.mpr
      intro e he
      have := hrep.sound.slot_not_free he
      rw [hfree, List.mem_append, not_or] at this
      simpa only [hmem, decide_eq_true_eq] using this.1
    have hnew : es.filter (fun e => e.slot ∉ handles.map UInt32.toNat) = [] := by
      apply List.filter_eq_nil_iff.mpr
      intro e he
      simpa only [hmem, decide_eq_true_eq, not_not] using hes' e he
    rw [hold, hnew, List.append_nil]
  have hcap' : d.pool.capacity = b.pool.capacity := hcapD.trans hcap
  refine ⟨d, hcancel, ?_, ?_, ?_⟩
  · exact (sameContents_of_queue hrep hD (fun s p => (hsame s p).symm)).indistinct hrep hD hcap'
  · exact (sameContents_of_queue hD hrep hsame).indistinct hD hrep hcap'.symm
  · intro hrev ops hprice hnames
    have heq : D = A := by
      apply LiveBook.ext_side
      · intro s
        exact Levels.ext_queue (hD.proper s) (hrep.proper s) (hsame s)
      · rw [hfreeD, hrev, List.map_reverse, List.reverse_reverse, hfree]
    rw [heq] at hD
    exact (serves hprice).agree (serves hprice) hD hrep trivial trivial hnames

theorem cancelled_unseen_sample :
    ∃ d, Machine.runAll OrderBook.exec ((sample.after (.limit 5 .buy 90 1 8)).after (.limit 6 .sell 105 2 9))
          [.cancel 0, .cancel 2] = .ok ([.cancelled .success, .cancelled .success], d) ∧
      Indistinct sample d ∧ Indistinct d sample ∧
      ([0, 2] = ([2, 0] : List OrderHandle).reverse → ∀ ops : List Op,
        (∀ op ∈ ops, ∀ p ∈ op.price, 0 ≤ p ∧ p < kBitCount) →
          Machine.Allowed OrderBook.exec OrderBook.Names sample ops → d.replies ops = sample.replies ops) := by
  have h₁ : sample.exec (.limit 5 .buy 90 1 8) =
      .ok (.added ⟨.success, 1, 0, 1, 2, []⟩, sample.after (.limit 5 .buy 90 1 8)) := exec_after (by decide +kernel)
  have h₂ : (sample.after (.limit 5 .buy 90 1 8)).exec (.limit 6 .sell 105 2 9) =
      .ok (.added ⟨.success, 2, 0, 2, 0, []⟩, (sample.after (.limit 5 .buy 90 1 8)).after (.limit 6 .sell 105 2 9)) :=
    exec_after (by decide +kernel)
  have hrun : Machine.runAll OrderBook.exec sample [.limit 5 .buy 90 1 8, .limit 6 .sell 105 2 9] =
      .ok ([.added ⟨.success, 1, 0, 1, 2, []⟩, .added ⟨.success, 2, 0, 2, 0, []⟩],
        (sample.after (.limit 5 .buy 90 1 8)).after (.limit 6 .sell 105 2 9)) := by
    simp only [Machine.runAll, h₁, h₂, ok_bind]
    rfl
  apply cancelled_unseen reach_sample ?_ (by simp [Op.handle]) hrun (by simp [Reply.trades, Reply.handle, kInvalidHandle])
    (List.Perm.swap 2 0 [])
  refine allowed_cons ?_ (allowed_cons ?_ trivial)
  · exact .of_add rfl (by simp [Op.price, kBitCount]) (by decide +kernel)
  · exact .of_add rfl (by simp [Op.price, kBitCount]) (by decide +kernel)

end ArrayBook

section Twice

variable {R : Type} {l : PriceLevel} {p : OrderPool R} {o : ℕ}

theorem setPrev_next (i j : ℕ) (v : Option ℕ) : ((p.setPrev i v).slots j).next = (p.slots j).next := by
  by_cases hj : j = i <;> simp [OrderPool.setPrev, hj]

theorem setNext_next_of_ne {i j : ℕ} (h : j ≠ i) (v : Option ℕ) : ((p.setNext i v).slots j).next = (p.slots j).next := by
  simp [OrderPool.setNext, h]

/-- A node that has been put on the free list is erased once more from its level: the level then
starts with what the node points to, the top of the free list. -/
theorem erase_released (hprev : (p.slots o).prev = none) :
    (l.erase p o).1.head = (p.slots o).next ∧
      ∀ j, j ≠ o → ((l.erase p o).2.slots j).next = (p.slots j).next := by
  constructor
  · cases hn : (p.slots o).next <;> simp [PriceLevel.erase, PriceLevel.erasePrev, PriceLevel.eraseNext, hprev, hn]
  · intro j hj
    rw [PriceLevel.erase, setNext_next_of_ne hj, setPrev_next]
    simp only [PriceLevel.erasePrev, PriceLevel.eraseNext, hprev]
    cases hn : (p.slots o).next with
    | none => rfl
    | some n => exact setPrev_next n j none

theorem erase_self : ((l.erase p o).2.slots o).prev = none ∧ ((l.erase p o).2.slots o).next = none := by
  constructor
  · simp [PriceLevel.erase, OrderPool.setNext, OrderPool.setPrev]
  · simp [PriceLevel.erase, OrderPool.setNext]

theorem release_self : ((p.release o).slots o).prev = (p.slots o).prev ∧ ((p.release o).slots o).next = p.freeHead ∧
    (p.release o).freeHead = some o := by
  refine ⟨?_, ?_, rfl⟩ <;> simp [OrderPool.release, OrderPool.setNext]

theorem acquire_loop (hhead : p.freeHead = some o) (hnext : (p.slots o).next = some o) :
    p.acquire.1 = UInt32.ofNat o ∧ p.acquire.2.acquire.1 = UInt32.ofNat o ∧
      p.acquire.2.acquire.2.acquire.1 = kInvalidHandle := by
  simp [OrderPool.acquire, hhead, hnext, OrderPool.setNext, OrderPool.setPrev]

end Twice

namespace ArrayBook

variable {b c : ArrayBook} {A : LiveBook} {capacity : ℕ}

theorem exec_cancel {i : OrderHandle} {s : Side} {r : ℕ} (hres : b.pool.resolve i = .ok i.toNat)
    (hparent : (b.pool.slots i.toNat).parentLevel = some (s, r)) :
    b.exec (.cancel i) = .ok (.cancelled .success,
      ({ b with pool := ((level (b.book s) r).erase b.pool i.toNat).2.release i.toNat } : ArrayBook).setBook s
        (setLevel (b.book s) r ((level (b.book s) r).erase b.pool i.toNat).1)) := by
  simp only [exec, cancelOrder, hres, ok_bind, removeOrder, hparent, pure_eq_ok]

theorem cancel_stale (h : Rep b A) (hcap : b.pool.capacity < 2 ^ 32) {i : OrderHandle} {s : Side} {e : Entry}
    (he : e ∈ A.orders s) (hslot : e.slot = i.toNat) :
    ∃ r c d, i.toNat ∈ b.fifo s r ∧ b.exec (.cancel i) = .ok (.cancelled .success, c) ∧
      c.exec (.cancel i) = .ok (.cancelled .success, d) ∧
      d.fifo s r = b.pool.walk b.pool.capacity b.pool.freeHead ∧
      d.pool.freeHead = some i.toNat ∧ (d.pool.slots i.toNat).next = some i.toNat := by
  obtain ⟨hq, r, hr, hpay, -⟩ := h.order_spec he
  obtain ⟨-, -, -, -, hparent⟩ := payload_fields hpay
  have hl := h.level s e.price r hr
  obtain ⟨xs, ys, hxy⟩ := List.append_of_mem hq
  have hlinks := hl.links
  rw [hxy, List.map_append, List.map_cons, hslot] at hlinks
  rw [hslot] at hparent
  have hmem : i.toNat ∈ A.slots := hslot ▸ LiveBook.slot_mem_of_order he
  have hres := h.resolve_ok hmem
  let first := (level (b.book s) r).erase b.pool i.toNat
  let p₁ := first.2.release i.toNat
  let second := first.1.erase p₁ i.toNat
  let p₂ := second.2.release i.toNat
  let c : ArrayBook := { b with pool := p₁ }.setBook s (setLevel (b.book s) r first.1)
  let d : ArrayBook := { c with pool := p₂ }.setBook s (setLevel (c.book s) r second.1)
  have hcpool : c.pool = p₁ := setBook_pool _ _ _
  have hdpool : d.pool = p₂ := setBook_pool _ _ _
  have hcbook : c.book s = setLevel (b.book s) r first.1 := setBook_book_self _ _ _
  have hcap₁ : p₁.capacity = b.pool.capacity := PriceLevel.erase_capacity _ _ _
  have hcap₂ : p₂.capacity = b.pool.capacity := (PriceLevel.erase_capacity _ _ _).trans hcap₁
  have hlevel : level (c.book s) r = first.1 := by
    rw [hcbook, level_setLevel _ (h.inv s) hr]
  have hlevel' : level (d.book s) r = second.1 := by
    have hinv : Inv (c.book s) := hcbook ▸ setLevel_inv _ (h.inv s) hr
    have href : ref (c.book s) e.price = some r := by rw [hcbook, setLevel_ref, hr]
    rw [setBook_book_self, level_setLevel _ hinv href]
  have hparent₁ : (p₁.slots i.toNat).parentLevel = some (s, r) := by
    have hpay₁ : (p₁.slots i.toNat).payload = (b.pool.slots i.toNat).payload :=
      (release_payload _ _ _).trans (PriceLevel.erase_payload _ _ _ _)
    exact (congrArg Order.parentLevel hpay₁).trans hparent
  obtain ⟨hprev, -⟩ : (first.2.slots i.toNat).prev = none ∧ _ := erase_self
  obtain ⟨hprev₁, hnext₁, -⟩ : (p₁.slots i.toNat).prev = _ ∧ (p₁.slots i.toNat).next = _ ∧ _ := release_self
  obtain ⟨hhead, hkeep⟩ := erase_released (l := first.1) (hprev₁.trans hprev)
  obtain ⟨-, hnext₂, hfree₂⟩ : _ ∧ (p₂.slots i.toNat).next = _ ∧ p₂.freeHead = some i.toNat := release_self
  have hfree : second.2.freeHead = some i.toNat := PriceLevel.erase_freeHead _ _ _
  have hfirst : first.2.freeHead = b.pool.freeHead := PriceLevel.erase_freeHead _ _ _
  refine ⟨r, c, d, ?_, ?_, ?_, ?_, ?_, ?_⟩
  · rw [h.fifo_eq hr, ← hslot]
    exact List.mem_map_of_mem hq
  · exact exec_cancel hres hparent
  · have hres₁ : c.pool.resolve i = .ok i.toNat := by
      rw [← hres, OrderPool.resolve, OrderPool.resolve, hcpool, hcap₁]
    have hc := exec_cancel hres₁ (hcpool ▸ hparent₁)
    rw [hcpool, hlevel] at hc
    exact hc
  · have hchain := h.free.chain_of_lt hcap
    have hlen : A.free.length ≤ b.pool.capacity := by
      have := free_length h
      have := Nat.mod_le b.pool.capacity (2 ^ 32)
      omega
    have hchain₂ : Chain p₂.links.next b.pool.freeHead A.free none := by
      apply hchain.congr
      intro j hj
      have hjo : j ≠ i.toNat := by
        rintro rfl
        exact h.sound.slot_not_free hq (hslot ▸ hj)
      have hjq : j ∉ xs.map Entry.slot ++ i.toNat :: ys.map Entry.slot := by
        rw [← hslot, ← List.map_cons, ← List.map_append, ← hxy]
        intro hm
        obtain ⟨e', he', rfl⟩ := List.mem_map.mp hm
        exact h.sound.slot_not_free he' hj
      have hj₂ : (p₂.slots j).next = (p₁.slots j).next := by
        rw [release_slots_of_ne hjo, hkeep j hjo]
      have hj₁ : p₁.slots j = b.pool.slots j := by
        rw [release_slots_of_ne hjo, erase_slots_of_not_mem hlinks hjq]
      rw [OrderPool.links_next, OrderPool.links_next, hj₂, hj₁]
    rw [OrderPool.walk_of_chain hchain hlen, fifo, hlevel', hdpool, hhead, hnext₁, hfirst, hcap₂]
    exact OrderPool.walk_of_chain hchain₂ hlen
  · rw [hdpool]
    exact hfree₂
  · rw [hdpool, hnext₂, hfree]

/-- Nothing checks a handle. A second cancel with the same one succeeds, and gives the order's level the
free slots in place of its orders; the pool then hands the slot out twice, and after that no other. -/
theorem stale_cancel_accepted (h : Reach capacity b) (hcap : capacity < 2 ^ 32) {i : OrderHandle} (hi : b.Resting i.toNat) :
    ∃ s r c d, i.toNat ∈ b.fifo s r ∧ b.exec (.cancel i) = .ok (.cancelled .success, c) ∧
      c.exec (.cancel i) = .ok (.cancelled .success, d) ∧
      d.fifo s r = b.pool.walk b.pool.capacity b.pool.freeHead ∧
      d.pool.acquire.1 = i ∧ d.pool.acquire.2.acquire.1 = i ∧ d.pool.acquire.2.acquire.2.acquire.1 = kInvalidHandle := by
  obtain ⟨A, hrep⟩ := h.good.rep
  obtain ⟨⟨s, e⟩, hx⟩ := Option.ne_none_iff_exists'.mp (hrep.resting_iff.mp hi)
  obtain ⟨hmem, hslot⟩ := LiveBook.locate_eq_some hx
  obtain ⟨r, c, d, hfifo, hc, hd, hphantom, hhead, hnext⟩ := cancel_stale hrep (h.good.capacity ▸ hcap) hmem hslot
  obtain ⟨h₁, h₂, h₃⟩ := acquire_loop hhead hnext
  rw [UInt32.ofNat_toNat] at h₁ h₂
  exact ⟨s, r, c, d, hfifo, hc, hd, hphantom, h₁, h₂, h₃⟩

theorem stale_cancel_accepted_sample :
    ∃ s r c d, 3 ∈ sample.fifo s r ∧ sample.exec (.cancel 3) = .ok (.cancelled .success, c) ∧
      c.exec (.cancel 3) = .ok (.cancelled .success, d) ∧
      d.fifo s r = sample.pool.walk sample.pool.capacity sample.pool.freeHead ∧
      d.pool.acquire.1 = 3 ∧ d.pool.acquire.2.acquire.1 = 3 ∧
      d.pool.acquire.2.acquire.2.acquire.1 = kInvalidHandle :=
  stale_cancel_accepted reach_sample (by decide) (i := 3) ⟨.buy, 100, 100, by decide +kernel, by decide +kernel⟩

end ArrayBook

end Llmes
