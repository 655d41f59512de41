import Llmes.Sweep

namespace Llmes

open Intrusive BookSide BookView LawfulBookSide OrderBook

variable {R : Type} {S : Bool → Type} [BookSide S R] [LawfulBookSide S R]

structure Joined (side : Side) (price : Int) (b b' : OrderBook S R) : Prop where
  other : b'.book side.opposite = b.book side.opposite
  capacity : b'.pool.capacity = b.pool.capacity
  ref : ∀ p, ref (b'.book side) p ≠ none → p = price ∨ ref (b.book side) p ≠ none

namespace Rep

variable {b : OrderBook S R} {A : LiveBook}

theorem slot_lt_max (h : Rep b A) {i : ℕ} (hi : i ∈ A.slots) : i < 2 ^ 32 - 1 ∧ i < b.pool.capacity := by
  have hm := h.mem_slots.mp hi
  have h1 := Nat.mod_lt b.pool.capacity (show 0 < 2 ^ 32 by norm_num)
  have h2 := Nat.mod_le b.pool.capacity (2 ^ 32)
  omega

theorem ofNat_ne_invalid {n : ℕ} (hn : n < 2 ^ 32 - 1) :
    UInt32.ofNat n ≠ kInvalidHandle ∧ (UInt32.ofNat n).toNat = n := by
  have ht : (UInt32.ofNat n).toNat = n := by
    rw [UInt32.toNat_ofNat']
    omega
  refine ⟨fun heq => ?_, ht⟩
  rw [heq] at ht
  simp only [kInvalidHandle, UInt32.reduceToNat] at ht
  omega

theorem resolve_ok (h : Rep b A) {i : OrderHandle} (hi : i.toNat ∈ A.slots) :
    b.pool.resolve i = .ok i.toNat := by
  obtain ⟨h1, h2⟩ := h.slot_lt_max hi
  have hne : i ≠ kInvalidHandle := by
    rintro rfl
    simp only [kInvalidHandle, UInt32.reduceToNat] at h1
    omega
  simp [OrderPool.resolve, hne, h2]

theorem free_cons {n : ℕ} {free : List ℕ} (h : Rep b A) (hf : A.free = n :: free) :
    n ∈ A.slots ∧ n ∉ free ∧ ∀ s p, ∀ e ∈ A.queue s p, e.slot ≠ n := by
  have hnd := h.nodup
  rw [LiveBook.slots, hf] at hnd
  refine ⟨by simp [LiveBook.slots, hf], (List.nodup_cons.mp (List.nodup_append.mp hnd).1).1, ?_⟩
  rintro s p e he rfl
  exact h.sound.slot_not_free he (by simp [hf])

theorem levelRep_of_created (h : Rep b A) {side : Side} {price : Int} {r : R} {x : S side.isAsk}
    (hc : Created (b.book side) price r x) :
    LevelRep b.pool (side, r) price (BookSide.level x r) (A.queue side price) := by
  rcases hc.level_self with ⟨hr, hl⟩ | ⟨hr, hl⟩
  · rw [hl]
    exact h.level side price r hr
  · rw [hl, h.absent side price hr]
    exact LevelRep.nil

theorem keeps_of_created {side : Side} {price : Int} {r : R} {b x : S side.isAsk}
    (hc : Created b price r x) (l : PriceLevel) (p : Int) (hp : p ≠ price) :
    Keeps b (setLevel x r l) p := by
  obtain ⟨hk, hl⟩ := hc.keeps p hp
  refine ⟨by rwa [setLevel_ref], fun r' hr' => ?_⟩
  rw [setLevel_ref] at hr'
  rw [level_setLevel_of_ne l, hl r' hr']
  rintro rfl
  exact hp (ref_inj hc.inv hr' hc.ref_self)

theorem join (h : Rep b A) {n : ℕ} {free : List ℕ} (hf : A.free = n :: free) {side : Side}
    {price : Int} {r : R} {x : S side.isAsk} (hc : Created (b.book side) price r x) {orderId : UInt64}
    {remaining timestamp : UInt64} (hrem : remaining ≠ 0) :
    let pool := b.pool.acquire.2.modify n (fun o =>
      { o with id := orderId, price, quantity := remaining, timestamp, prev := none, next := none })
    let l := (BookSide.level x r).pushBack pool n
    let pool' := l.2.modify n (fun o => { o with parentLevel := some (side, r) })
    Rep ({ b with pool := pool' }.setBook side (setLevel x r l.1))
      (({ A with free } : LiveBook).setQueue side price
        (A.queue side price ++ [Entry.mk n orderId price remaining timestamp])) := by
  intro pool l pool'
  obtain ⟨hmem, hnfree, hlive⟩ := h.free_cons hf
  have hrepf := h.free
  rw [hf] at hrepf
  obtain ⟨-, hfree, -, -, hcap, f, hfn, hacq⟩ := hrepf.acquire_cons hnfree
  have hpool : ∀ i, i ≠ n → i < 2 ^ 32 → pool.slots i = b.pool.slots i := by
    intro i hi hlt
    have hif : i ≠ f := by
      rintro rfl
      exact hi ((Nat.mod_eq_of_lt hlt).symm.trans hfn)
    simp [pool, hi, hacq i hif]
  have hl : LevelRep pool (side, r) price (BookSide.level x r) (A.queue side price) :=
    (h.levelRep_of_created hc).congr
      (fun e he => hpool e.slot (hlive side price e he) (h.slot_lt he).1)
  have hnq : n ∉ (A.queue side price).map Entry.slot := by
    intro hm
    obtain ⟨e, he, hen⟩ := List.mem_map.mp hm
    exact hlive side price e he hen
  have hpush : Represents pool'.links l.1.anchor ((A.queue side price).map Entry.slot ++ [n]) := by
    have hp := PriceLevel.pushBack_links (BookSide.level x r) pool n
    have hlinks : pool'.links = l.2.links := by
      simp only [pool', OrderPool.links, Links.mk.injEq]
      constructor <;> funext i <;> by_cases hi : i = n <;> simp [hi]
    rw [hlinks, hp.1, hp.2]
    exact pushBack_represents hl.links hnq
  have hframe : ∀ i, i ≠ n → i ∉ (A.queue side price).map Entry.slot →
      pool'.slots i = pool.slots i := by
    intro i hi hiq
    simp only [pool', OrderPool.modify_slots, hi, if_false]
    exact pushBack_slots_of_not_mem hl.links hiq hi
  refine h.update (p := price) (r := r) (setLevel_inv _ hc.inv hc.ref_self) ?_ ?_ ?_ ?_ ?_ ?_ ?_
  · rw [setLevel_ref, hc.ref_self]
  · rw [level_setLevel _ hc.inv hc.ref_self]
    refine ⟨by simpa using hpush, ?_, ?_, ?_⟩
    · intro e he
      rcases List.mem_append.mp he with he | he
      · have hen := hlive side price e he
        simp only [pool', OrderPool.modify_slots, hen, if_false]
        rw [PriceLevel.pushBack_payload]
        exact hl.order e he
      · obtain rfl := List.mem_singleton.mp he
        have hp := PriceLevel.pushBack_payload (BookSide.level x r) pool n n
        simp only [Order.payload, pool, OrderPool.modify_slots, if_true, Order.mk.injEq] at hp
        simp only [pool', l, pool, OrderPool.modify_slots, if_true, Order.payload, Entry.order,
          Order.mk.injEq]
        exact ⟨hp.1, hp.2.1, hp.2.2.1, hp.2.2.2.1, trivial, trivial, trivial⟩
    · intro e he
      rcases List.mem_append.mp he with he | he
      · exact hl.price e he
      · rw [List.mem_singleton.mp he]
    · intro e he
      rcases List.mem_append.mp he with he | he
      · exact hl.quantity e he
      · rw [List.mem_singleton.mp he]
        exact hrem
  · exact fun p hp => keeps_of_created hc l.1 p hp
  · intro s' p' hne e he
    have hen := hlive s' p' e he
    rw [hframe _ hen ?_, hpool _ hen (h.slot_lt he).1]
    intro hm
    obtain ⟨e', he', heq⟩ := List.mem_map.mp hm
    exact h.sound.slot_ne he' he hne heq.symm
  · simp [pool', l, pool, hcap]
  · refine hfree.congr ?_ ?_ (fun i hi => ?_)
    · simp [pool', l, pool]
    · simp [pool', l, pool]
    · have hin : i ≠ n := by
        rintro rfl
        rw [Nat.mod_eq_of_lt (by have := (h.slot_lt_max hmem).1; omega)] at hi
        exact hnfree hi
      rw [hframe i hin ?_]
      · simp [pool, hin]
      · intro hm
        obtain ⟨e, he, rfl⟩ := List.mem_map.mp hm
        rw [Nat.mod_eq_of_lt (h.slot_lt he).1] at hi
        exact h.sound.slot_not_free he (by simp [hf, hi])
  · rw [hf]
    simp only [List.map_append, List.map_cons, List.map_nil, List.perm_iff_count, List.count_append,
      List.count_cons, List.count_nil]
    omega

end Rep

section Rest

variable {b : OrderBook S R} {A : LiveBook} {side : Side} {price : Int} {orderId : UInt64}
  {remaining timestamp : UInt64}

theorem restRemainder_of_nil (h : Rep b A) (hf : A.free = []) :
    b.restRemainder orderId side price remaining timestamp = .error .poolExhausted := by
  have hrep := h.free
  rw [hf] at hrep
  rw [restRemainder]
  exact if_pos hrep.acquire_nil

theorem restRemainder_of_cons (h : Rep b A) {n : ℕ} {free : List ℕ} (hf : A.free = n :: free) :
    b.restRemainder orderId side price remaining timestamp = (do
      let pool := b.pool.acquire.2.modify n (fun o =>
        { o with id := orderId, price, quantity := remaining, timestamp, prev := none, next := none })
      let g ← getOrCreate (b.book side) price
      let l := (level g.2 g.1).pushBack pool n
      let pool := l.2.modify n (fun o => { o with parentLevel := some (side, g.1) })
      pure (UInt32.ofNat n, { b with pool }.setBook side (setLevel g.2 g.1 l.1))) := by
  obtain ⟨hmem, hnfree, -⟩ := h.free_cons hf
  have hrep := h.free
  rw [hf] at hrep
  obtain ⟨hhandle, -, hlt, -, hcap, -⟩ := hrep.acquire_cons hnfree
  obtain ⟨hne, hn⟩ := Rep.ofNat_ne_invalid (h.slot_lt_max hmem).1
  have hres : b.pool.acquire.2.resolve (UInt32.ofNat n) = .ok n := by
    simp [OrderPool.resolve, hne, hn, hcap, hlt]
  simp only [restRemainder, hhandle, hne, if_false, hres, ok_bind]

theorem restRemainder_spec (orderId timestamp : UInt64) (h : Rep b A) (hrem : remaining ≠ 0) (hadm : Admits (b.book side) price) :
    (b.restRemainder orderId side price remaining timestamp = .error .poolExhausted ∧
      A.rest orderId side price remaining timestamp = none) ∨
    (Pooled S ∧ b.restRemainder orderId side price remaining timestamp = .error .levelPoolExhausted) ∨
    ∃ n b' A', b.restRemainder orderId side price remaining timestamp = .ok (n, b') ∧
      A.rest orderId side price remaining timestamp = some (n, A') ∧ Rep b' A' ∧
      Joined side price b b' := by
  cases hf : A.free with
  | nil => exact Or.inl ⟨restRemainder_of_nil h hf, by simp [LiveBook.rest, hf]⟩
  | cons n free =>
    right
    rw [restRemainder_of_cons h hf]
    rcases getOrCreate_spec (h.inv side) (h.tidy side) hadm with ⟨hp, hg⟩ | ⟨r, x, hg, hc⟩
    · exact Or.inl ⟨hp, by rw [hg]; rfl⟩
    · right
      simp only [hg, ok_bind, pure_eq_ok]
      refine ⟨_, _, _, rfl, by simp only [LiveBook.rest, hf], h.join hf hc hrem, ?_, ?_, ?_⟩
      · rw [OrderBook.setBook_book_of_ne _ _ _ side.opposite_ne, book_withPool]
      · have hrep := h.free
        rw [hf] at hrep
        obtain ⟨-, -, -, -, hcap, -⟩ := hrep.acquire_cons (h.free_cons hf).2.1
        simp [hcap]
      · intro p hp
        by_cases hpp : p = price
        · exact Or.inl hpp
        · right
          rw [setBook_book_self, setLevel_ref] at hp
          rcases (hc.keeps p hpp).1 with hk | ⟨hk, -⟩
          · rwa [hk] at hp
          · exact absurd hk hp

end Rest

namespace LiveBook

theorem locate_eq_some {A : LiveBook} {i : ℕ} {x : Side × Entry} (h : A.locate i = some x) :
    x.2 ∈ A.orders x.1 ∧ x.2.slot = i := by
  unfold locate at h
  split at h
  · next e he =>
    obtain rfl := Option.some.inj h
    exact ⟨List.mem_of_find?_eq_some he, by simpa using List.find?_some he⟩
  · obtain ⟨e, he, rfl⟩ := Option.map_eq_some_iff.mp h
    exact ⟨List.mem_of_find?_eq_some he, by simpa using List.find?_some he⟩

theorem locate_eq_none {A : LiveBook} {i : ℕ} :
    A.locate i = none ↔ ∀ s, ∀ e ∈ A.orders s, e.slot ≠ i := by
  unfold locate
  split
  · next e he =>
    simp only [reduceCtorEq, false_iff, not_forall]
    exact ⟨.buy, e, List.mem_of_find?_eq_some he, by simpa using List.find?_some he⟩
  · next hb =>
    rw [Option.map_eq_none_iff]
    constructor
    · intro hs s e he
      cases s with
      | buy => simpa using List.find?_eq_none.mp hb e he
      | sell => simpa using List.find?_eq_none.mp hs e he
    · intro h
      exact List.find?_eq_none.mpr (fun e he => by simpa using h .sell e he)

end LiveBook

section Remove

variable {b : OrderBook S R} {A : LiveBook}

theorem Rep.order_spec (h : Rep b A) {s : Side} {e : Entry} (he : e ∈ A.orders s) :
    e ∈ A.queue s e.price ∧ ∃ r, ref (b.book s) e.price = some r ∧
      (b.pool.slots e.slot).payload = e.order (s, r) ∧ e.quantity ≠ 0 := by
  obtain ⟨p, hp⟩ := LiveBook.mem_orders.mp he
  obtain ⟨r, hr⟩ := Option.ne_none_iff_exists'.mp (h.ref_ne_none (List.ne_nil_of_mem hp))
  have hl := h.level s p r hr
  obtain rfl := hl.price e hp
  exact ⟨hp, r, hr, hl.order e hp, hl.quantity e hp⟩

theorem removeOrder_spec (h : Rep b A) {s : Side} {e : Entry} (hx : e ∈ A.orders s) :
    ∃ b', b.removeOrder e.slot = .ok b' ∧ Rep b' (A.remove (s, e)) ∧
      (∀ s, ref (b'.book s) = ref (b.book s)) ∧ b'.pool.capacity = b.pool.capacity ∧
      ∀ s p, Admits (b'.book s) p ↔ Admits (b.book s) p := by
  obtain ⟨hq, r, hr, hpay, -⟩ := h.order_spec hx
  obtain ⟨-, -, -, -, hparent⟩ := payload_fields hpay
  obtain ⟨xs, ys, hxy⟩ := List.append_of_mem hq
  have hnd := h.sound.queue_nodup s e.price
  rw [hxy] at hnd
  have hfilter : (A.queue s e.price).filter (fun e' => e'.slot ≠ e.slot) = xs ++ ys := by
    rw [hxy, filter_slot_ne hnd]
  have hrep := h.unlink hr hxy b.pool (fun _ _ => rfl) rfl rfl rfl
  refine ⟨_, by rw [removeOrder, hparent], ?_, ?_, ?_, ?_⟩
  · rw [LiveBook.remove, hfilter]
    exact hrep
  · intro t
    by_cases ht : t = s
    · subst ht
      rw [setBook_book_self, setLevel_ref]
    · rw [OrderBook.setBook_book_of_ne _ _ _ ht, book_withPool]
  · simp [OrderPool.release]
  · intro t p
    by_cases ht : t = s
    · subst ht
      rw [setBook_book_self, setLevel_admits]
    · rw [OrderBook.setBook_book_of_ne _ _ _ ht, book_withPool]

end Remove

def Uncrossed (b : OrderBook S R) : Prop :=
  ∀ p q, ref (b.book .buy) p ≠ none → ref (b.book .sell) q ≠ none → p < q

theorem uncrossed_iff {b : OrderBook S R} (taker : Side) : Uncrossed b ↔
    ∀ p q, ref (b.book taker) p ≠ none → ref (b.book taker.opposite) q ≠ none →
      canCrossLimit taker p q = false := by
  cases taker with
  | buy => simp [Uncrossed, canCrossLimit, Side.opposite]
  | sell =>
    simp only [Uncrossed, canCrossLimit, Side.opposite, decide_eq_false_iff_not, not_le]
    exact ⟨fun h p q hp hq => h q p hq hp, fun h p q hp hq => h q p hq hp⟩

structure Moved (price : Option Int) (b b' : OrderBook S R) (A' : LiveBook) : Prop where
  rep : Rep b' A'
  capacity : b'.pool.capacity = b.pool.capacity
  uncrossed : Uncrossed b → Uncrossed b'
  levels : ∀ s p, ref (b'.book s) p ≠ none → ref (b.book s) p ≠ none ∨ price = some p

theorem Moved.refl {b : OrderBook S R} {A : LiveBook} {price : Option Int} (h : Rep b A) :
    Moved price b b A :=
  ⟨h, rfl, id, fun _ _ => Or.inl⟩

theorem Moved.trans {b b₁ b₂ : OrderBook S R} {A₁ A₂ : LiveBook} {price : Option Int}
    (h : Moved none b b₁ A₁) (h' : Moved price b₁ b₂ A₂) : Moved price b b₂ A₂ where
  rep := h'.rep
  capacity := h'.capacity.trans h.capacity
  uncrossed hb := h'.uncrossed (h.uncrossed hb)
  levels s p hp := by
    rcases h'.levels s p hp with hp | hp
    · exact Or.inl ((h.levels s p hp).resolve_right (by simp))
    · exact Or.inr hp

section Orders

variable {b : OrderBook S R} {A : LiveBook}

theorem Swept.moved {taker : Side} {orderId quantity : UInt64} {cross : Int → Bool} {out : AddResult}
    {m' : MatchState S R} {t : Taken LiveBook}
    (h : Swept taker orderId cross { book := b, quantity, out } m' t) : Moved none b m'.book t.left where
  rep := h.rep
  capacity := h.spared.capacity
  uncrossed hb := by
    rw [uncrossed_iff taker] at hb ⊢
    intro p q hp hq
    rw [h.spared.own] at hp
    exact hb p q hp (h.spared.ref q hq)
  levels s p hp := by
    left
    rcases Side.eq_or_eq_opposite taker s with rfl | rfl
    · rwa [h.spared.own] at hp
    · exact h.spared.ref p hp

theorem Moved.join {b₁ b₂ : OrderBook S R} {A₁ A₂ : LiveBook} {side : Side} {price : Int}
    (h : Moved none b b₁ A₁) (hrep : Rep b₂ A₂) (hj : Joined side price b₁ b₂)
    (hstop : ∀ p, ref (b₁.book side.opposite) p ≠ none → canCrossLimit side price p = false) :
    Moved (some price) b b₂ A₂ where
  rep := hrep
  capacity := hj.capacity.trans h.capacity
  uncrossed hb := by
    have h₁ := (uncrossed_iff side).mp (h.uncrossed hb)
    rw [uncrossed_iff side]
    intro p q hp hq
    rw [hj.other] at hq
    rcases hj.ref p hp with rfl | hp
    · exact hstop q hq
    · exact h₁ p q hp hq
  levels s p hp := by
    have hold {s : Side} (hp : ref (b₁.book s) p ≠ none) :=
      (h.levels s p hp).resolve_right (by simp)
    rcases Side.eq_or_eq_opposite side s with rfl | rfl
    · rcases hj.ref p hp with rfl | hp
      · exact Or.inr rfl
      · exact Or.inl (hold hp)
    · rw [hj.other] at hp
      exact Or.inl (hold hp)

theorem addLimitOrder_spec (h : Rep b A) (orderId : UInt64) (side : Side) (price : Int)
    (quantity timestamp : UInt64)
    (hadm : (A.take side (canCrossLimit side price) quantity).quantity ≠ 0 →
      Admits (b.book side) price) :
    (b.addLimitOrder orderId side price quantity timestamp = .error .poolExhausted ∧
      A.limit orderId side price quantity timestamp = none) ∨
    (Pooled S ∧ b.addLimitOrder orderId side price quantity timestamp = .error .levelPoolExhausted) ∨
    ∃ out b' A', b.addLimitOrder orderId side price quantity timestamp = .ok (out, b') ∧
      A.limit orderId side price quantity timestamp = some (out, A') ∧
        Moved (some price) b b' A' := by
  by_cases hz : quantity = 0
  · exact Or.inr (Or.inr ⟨_, b, A, by rw [addLimitOrder, if_pos hz], by rw [LiveBook.limit, if_pos hz], .refl h⟩)
  obtain ⟨m, hm, hs⟩ := matchingEngineLimit_spec side h { initialQuantity := quantity } orderId price quantity
  have hown : m.book.book side = b.book side := hs.spared.own
  simp only [addLimitOrder, LiveBook.limit, hz, if_false, hm, ok_bind, hs.quantity, hs.traded.out,
    pure_eq_ok]
  by_cases hq : (A.take side (canCrossLimit side price) quantity).quantity = 0
  · simp only [hq, if_true]
    exact Or.inr (Or.inr ⟨_, _, _, rfl, rfl, hs.moved.trans (.refl hs.moved.rep)⟩)
  · simp only [hq, if_false]
    have hrest := restRemainder_spec orderId timestamp hs.rep hq
      (hown ▸ hadm hq)
    rcases hrest with ⟨hb, hA⟩ | ⟨hp, hb⟩ | ⟨n, b', A', hb, hA, hrep, hj⟩
    · exact Or.inl ⟨by rw [hb]; rfl, by rw [hA]; rfl⟩
    · exact Or.inr (Or.inl ⟨hp, by rw [hb]; rfl⟩)
    · refine Or.inr (Or.inr ⟨_, b', A', by rw [hb]; rfl, by rw [hA]; rfl, ?_⟩)
      refine hs.moved.join hrep hj (fun p hp => ?_)
      rcases hs.stop with hstop | hstop
      · exact absurd (hs.quantity.symm.trans hstop) hq
      · exact hstop p hp

theorem addMarketOrder_spec (h : Rep b A) (orderId : UInt64) (side : Side)
    (quantity timestamp : UInt64) :
    ∃ b', b.addMarketOrder orderId side quantity timestamp =
        .ok ((A.market orderId side quantity).1, b') ∧
      Moved none b b' (A.market orderId side quantity).2 := by
  by_cases hz : quantity = 0
  · refine ⟨b, by rw [addMarketOrder, if_pos hz, LiveBook.market, if_pos hz], ?_⟩
    rw [LiveBook.market, if_pos hz]
    exact .refl h
  obtain ⟨m, hm, hs⟩ := matchingEngineMarket_spec side h { initialQuantity := quantity } orderId quantity
  simp only [addMarketOrder, LiveBook.market, hz, if_false, hm, ok_bind, hs.quantity, hs.traded.out,
    pure_eq_ok]
  split <;> exact ⟨m.book, rfl, hs.moved⟩

end Orders

def Op.handle : Op → Option OrderHandle
  | .modify h _ _ _ _ => some h
  | .cancel h => some h
  | _ => none

def Op.price : Op → Option Int
  | .limit _ _ price _ _ => some price
  | .modify _ _ price _ _ => some price
  | _ => none

def Op.quantity : Op → UInt64
  | .limit _ _ _ quantity _ => quantity
  | .market _ _ quantity _ => quantity
  | .modify _ _ _ quantity _ => quantity
  | .cancel _ => 0

def Op.Live (A : LiveBook) : Op → Prop
  | .modify h _ _ _ _ => A.locate h.toNat ≠ none
  | .cancel h => A.locate h.toNat ≠ none
  | _ => True

def Op.Admissible (b : OrderBook S R) (A : LiveBook) : Op → Prop
  | .limit _ side price quantity _ =>
    (A.take side (canCrossLimit side price) quantity).quantity ≠ 0 → Admits (b.book side) price
  | .modify h side price quantity _ => ∀ x, A.locate h.toNat = some x →
    ((A.remove x).take side (canCrossLimit side price) quantity).quantity ≠ 0 →
      Admits (b.book side) price
  | _ => True

namespace Rep

theorem remove_sound {b : OrderBook S R} {A : LiveBook} (h : Rep b A) {i : ℕ} {x : Side × Entry}
    (hx : A.locate i = some x) : (A.remove x).Sound := by
  obtain ⟨b₁, -, hrep, -⟩ := removeOrder_spec h (LiveBook.locate_eq_some hx).1
  exact hrep.sound

theorem remove_live {b : OrderBook S R} {A : LiveBook} (h : Rep b A) {i : OrderHandle} (hi : A.locate i.toNat ≠ none) :
    ∃ x b₁, A.locate i.toNat = some x ∧ b.pool.resolve i = .ok i.toNat ∧
      b.removeOrder i.toNat = .ok b₁ ∧ (b.pool.slots i.toNat).id = x.2.id ∧ Moved none b b₁ (A.remove x) ∧
      ∀ s p, Admits (b₁.book s) p ↔ Admits (b.book s) p := by
  obtain ⟨x, hx⟩ := Option.ne_none_iff_exists'.mp hi
  obtain ⟨hmem, hslot⟩ := LiveBook.locate_eq_some hx
  obtain ⟨b₁, hb₁, hrep₁, href₁, hcap₁, hadm₁⟩ := removeOrder_spec h hmem
  obtain ⟨-, r, -, hpay, -⟩ := h.order_spec hmem
  rw [hslot] at hb₁ hpay
  refine ⟨x, b₁, hx, h.resolve_ok (hslot ▸ LiveBook.slot_mem_of_order hmem), hb₁, (payload_fields hpay).1,
    ⟨hrep₁, hcap₁, ?_, fun s p hp => Or.inl (href₁ s ▸ hp)⟩, hadm₁⟩
  intro hb p q hp hq
  rw [href₁] at hp hq
  exact hb p q hp hq

end Rep

theorem exec_spec {b : OrderBook S R} {A : LiveBook} (h : Rep b A) (op : Op) (hlive : op.Live A)
    (hadm : op.Admissible b A) :
    (b.exec op = .error .poolExhausted ∧ A.exec op = none) ∨
    (Pooled S ∧ b.exec op = .error .levelPoolExhausted) ∨
    ∃ reply b' A', b.exec op = .ok (reply, b') ∧ A.exec op = some (reply, A') ∧
      Moved op.price b b' A' := by
  cases op with
  | limit orderId side price quantity timestamp =>
    rcases addLimitOrder_spec h orderId side price quantity timestamp hadm with
      ⟨hb, hA⟩ | ⟨hp, hb⟩ | ⟨out, b', A', hb, hA, hmoved⟩
    · exact Or.inl ⟨by rw [exec, hb]; rfl, by rw [LiveBook.exec, hA]; rfl⟩
    · exact Or.inr (Or.inl ⟨hp, by rw [exec, hb]; rfl⟩)
    · exact Or.inr (Or.inr ⟨_, b', A', by rw [exec, hb]; rfl, by rw [LiveBook.exec, hA]; rfl, hmoved⟩)
  | market orderId side quantity timestamp =>
    obtain ⟨b', hb, hmoved⟩ := addMarketOrder_spec h orderId side quantity timestamp
    exact Or.inr (Or.inr ⟨_, b', _, by rw [exec, hb]; rfl, rfl, hmoved⟩)
  | modify handle side price quantity timestamp =>
    obtain ⟨x, b₁, hx, hres, hb₁, hid, hmoved, hadm₁⟩ := h.remove_live hlive
    have hmod : b.modifyOrder handle side price quantity timestamp =
        b₁.addLimitOrder x.2.id side price quantity timestamp := by
      simp only [modifyOrder, hres, ok_bind, hb₁, hid]
    have hspec := addLimitOrder_spec hmoved.rep x.2.id side price quantity timestamp
      (fun hq => (hadm₁ _ _).mpr (hadm x hx hq))
    rcases hspec with ⟨hb, hA⟩ | ⟨hp, hb⟩ | ⟨out, b', A', hb, hA, hmoved'⟩
    · exact Or.inl ⟨by rw [exec, hmod, hb]; rfl, by simp only [LiveBook.exec, hx, hA, Option.map_none]⟩
    · exact Or.inr (Or.inl ⟨hp, by rw [exec, hmod, hb]; rfl⟩)
    · refine Or.inr (Or.inr ⟨.added out, b', A', by rw [exec, hmod, hb]; rfl, ?_, hmoved.trans hmoved'⟩)
      simp only [LiveBook.exec, hx, hA, Option.map_some]
  | cancel handle =>
    obtain ⟨x, b₁, hx, hres, hb₁, -, hmoved, -⟩ := h.remove_live hlive
    refine Or.inr (Or.inr ⟨.cancelled .success, b₁, A.remove x, ?_, ?_, hmoved⟩)
    · simp only [exec, cancelOrder, hres, ok_bind, hb₁, pure_eq_ok]
    · simp only [LiveBook.exec, hx]

end Llmes
