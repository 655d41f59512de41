import Llmes.LiveBook

namespace Llmes

open Intrusive BookSide BookView

variable {R : Type}

def Entry.order (e : Entry) (addr : Side × R) : Order R :=
  { id := e.id, price := e.price, quantity := e.quantity, timestamp := e.timestamp
    parentLevel := some addr }

structure LevelRep (p : OrderPool R) (addr : Side × R) (price : Int) (l : PriceLevel) (q : Queue) :
    Prop where
  links : Represents p.links l.anchor (q.map Entry.slot)
  order : ∀ e ∈ q, (p.slots e.slot).payload = e.order addr
  price : ∀ e ∈ q, e.price = price
  quantity : ∀ e ∈ q, e.quantity ≠ 0

/-- The free list. A handle keeps 32 bits of a slot's index, so a chain that runs past that range is
followed up to the node whose handle would read as invalid. -/
structure FreeRep (p : OrderPool R) (free : List ℕ) : Prop where
  chain : ∃ nodes stop, Chain p.links.next p.freeHead nodes stop ∧
    nodes.map (· % 2 ^ 32) = free ∧ (∀ i ∈ nodes, i < p.capacity) ∧
    ∀ i, stop = some i → i < p.capacity ∧ UInt32.ofNat i = kInvalidHandle

namespace LevelRep

variable {p p' : OrderPool R} {addr : Side × R} {price : Int} {l : PriceLevel} {q : Queue}

theorem congr (h : LevelRep p addr price l q) (hp : ∀ e ∈ q, p'.slots e.slot = p.slots e.slot) :
    LevelRep p' addr price l q where
  links := by
    refine h.links.congr ?_ ?_ <;>
      · intro i hi
        obtain ⟨e, he, rfl⟩ := List.mem_map.mp hi
        simp [hp e he]
  order e he := by rw [hp e he]; exact h.order e he
  price := h.price
  quantity := h.quantity

theorem nil_iff (h : LevelRep p addr price l q) : q = [] ↔ l = {} := by
  rw [← PriceLevel.nil_iff h.links, List.map_eq_nil_iff]

theorem head_eq_none (h : LevelRep p addr price l q) : l.head = none ↔ q = [] := by
  have := h.links.head_eq_none
  simpa [PriceLevel.anchor] using this

theorem empty_eq (h : LevelRep p addr price l q) : l.empty = q.isEmpty := by
  have := h.head_eq_none
  rw [← PriceLevel.empty_iff, ← List.isEmpty_iff] at this
  exact Bool.eq_iff_iff.mpr this

theorem head_cons {e : Entry} (h : LevelRep p addr price l (e :: q)) : l.head = some e.slot := by
  have := h.links.head
  simpa [PriceLevel.anchor] using this

theorem nil : LevelRep p addr price {} [] where
  links := represents_nil.mpr rfl
  order := by simp
  price := by simp
  quantity := by simp

end LevelRep

theorem payload_fields {o : Order R} {e : Entry} {addr : Side × R} (h : o.payload = e.order addr) :
    o.id = e.id ∧ o.price = e.price ∧ o.quantity = e.quantity ∧ o.timestamp = e.timestamp ∧
      o.parentLevel = some addr := by
  simp only [Order.payload, Entry.order, Order.mk.injEq] at h
  obtain ⟨h1, h2, h3, h4, -, -, h5⟩ := h
  exact ⟨h1, h2, h3, h4, h5⟩

namespace FreeRep

variable {p p' : OrderPool R} {free : List ℕ}

theorem congr (h : FreeRep p free) (hh : p'.freeHead = p.freeHead) (hc : p'.capacity = p.capacity)
    (hn : ∀ i, i % 2 ^ 32 ∈ free → (p'.slots i).next = (p.slots i).next) : FreeRep p' free := by
  obtain ⟨nodes, stop, hchain, hmap, hlt, hstop⟩ := h
  refine ⟨nodes, stop, ?_, hmap, fun i hi => hc ▸ hlt i hi, fun i hi => hc ▸ hstop i hi⟩
  rw [hh]
  refine hchain.congr (fun i hi => hn i ?_)
  rw [← hmap]
  exact List.mem_map_of_mem hi

theorem release (h : FreeRep p free) {i : ℕ} (hi : i < 2 ^ 32) (hc : i < p.capacity)
    (hnot : i ∉ free) : FreeRep (p.release i) (i :: free) := by
  obtain ⟨nodes, stop, hchain, hmap, hlt, hstop⟩ := h
  have hnodes : i ∉ nodes := by
    intro hm
    apply hnot
    rw [← hmap, ← Nat.mod_eq_of_lt hi]
    exact List.mem_map_of_mem hm
  refine ⟨i :: nodes, stop, ⟨rfl, ?_⟩, by rw [List.map_cons, hmap, Nat.mod_eq_of_lt hi], ?_, hstop⟩
  · rw [show (p.release i).links.next i = p.freeHead by simp [OrderPool.release, OrderPool.setNext]]
    refine hchain.congr (fun j hj => ?_)
    have hji : j ≠ i := by rintro rfl; exact hnodes hj
    simp [OrderPool.release, OrderPool.setNext, hji]
  · intro j hj
    rcases List.mem_cons.mp hj with rfl | hj
    · exact hc
    · exact hlt j hj

theorem acquire_nil (h : FreeRep p []) : p.acquire.1 = kInvalidHandle := by
  obtain ⟨nodes, stop, hchain, hmap, -, hstop⟩ := h
  obtain rfl : nodes = [] := by simpa using hmap
  simp only [Chain] at hchain
  unfold OrderPool.acquire
  rw [hchain]
  cases stop with
  | none => rfl
  | some i => exact (hstop i rfl).2

theorem acquire_cons {n : ℕ} (h : FreeRep p (n :: free)) (hnot : n ∉ free) :
    p.acquire.1 = UInt32.ofNat n ∧ FreeRep p.acquire.2 free ∧ n < p.capacity ∧ n < 2 ^ 32 ∧
      p.acquire.2.capacity = p.capacity ∧
      ∃ f, f % 2 ^ 32 = n ∧ ∀ i, i ≠ f → p.acquire.2.slots i = p.slots i := by
  obtain ⟨nodes, stop, hchain, hmap, hlt, hstop⟩ := h
  cases nodes with
  | nil => simp at hmap
  | cons f nodes =>
    obtain ⟨hhead, hchain⟩ := hchain
    simp only [List.map_cons, List.cons.injEq] at hmap
    obtain ⟨hf, hmap⟩ := hmap
    have hfn : f ∉ nodes := by
      intro hm
      apply hnot
      rw [← hmap, ← hf]
      exact List.mem_map_of_mem hm
    have hslots : ∀ i, i ≠ f → p.acquire.2.slots i = p.slots i := by
      intro i hi
      simp [OrderPool.acquire, hhead, OrderPool.setNext, OrderPool.setPrev, hi]
    have hle := Nat.mod_le f (2 ^ 32)
    have hfc := hlt f (by simp)
    have hcap : p.acquire.2.capacity = p.capacity := by simp [OrderPool.acquire, hhead]
    refine ⟨?_, ⟨nodes, stop, ?_, hmap, ?_, hcap ▸ hstop⟩, by omega, by omega, hcap, f, hf, hslots⟩
    · simp only [OrderPool.acquire, hhead]
      rw [← hf]
      exact UInt32.ofNat_mod_size.symm
    · have : p.acquire.2.freeHead = p.links.next f := by simp [OrderPool.acquire, hhead]
      rw [this]
      refine hchain.congr (fun i hi => ?_)
      have hif : i ≠ f := by rintro rfl; exact hfn hi
      simp [hslots i hif]
    · intro i hi
      rw [hcap]
      exact hlt i (by simp [hi])

theorem init_chain (n k base : ℕ) (h : base + k ≤ n) :
    Chain (OrderPool.init n : OrderPool R).links.next (if base + k = 0 then none else some (base + k - 1))
      ((List.range k).reverse.map (base + ·)) (if base = 0 then none else some (base - 1)) := by
  induction k with
  | zero => simp [Chain]
  | succ k ih =>
    rw [List.range_succ, List.reverse_append, List.reverse_singleton, List.singleton_append,
      List.map_cons]
    refine ⟨by simp, ?_⟩
    rw [OrderPool.links_next, OrderPool.init_slots n (base + k) (by omega)]
    exact ih (by omega)

theorem init (n : ℕ) : FreeRep (OrderPool.init n : OrderPool R) (List.range (n % 2 ^ 32)).reverse := by
  have hn := Nat.div_add_mod n (2 ^ 32)
  have hchain := init_chain (R := R) n (n % 2 ^ 32) (2 ^ 32 * (n / 2 ^ 32)) (by omega)
  have hhead : (OrderPool.init n : OrderPool R).freeHead =
      if 2 ^ 32 * (n / 2 ^ 32) + n % 2 ^ 32 = 0 then none
      else some (2 ^ 32 * (n / 2 ^ 32) + n % 2 ^ 32 - 1) := by
    rw [hn, OrderPool.init_freeHead]
  rw [← hhead] at hchain
  refine ⟨_, _, hchain, ?_, ?_, ?_⟩
  · rw [List.map_map]
    refine (List.map_congr_left (fun i hi => ?_)).trans (List.map_id _)
    have := List.mem_range.mp (List.mem_reverse.mp hi)
    simp only [Function.comp_apply, id_eq]
    omega
  · intro i hi
    obtain ⟨j, hj, rfl⟩ := List.mem_map.mp hi
    have := List.mem_range.mp (List.mem_reverse.mp hj)
    rw [OrderPool.init_capacity]
    omega
  · intro i hi
    split at hi
    · cases hi
    · obtain rfl := Option.some.inj hi
      refine ⟨by rw [OrderPool.init_capacity]; omega, ?_⟩
      rw [← UInt32.toNat_inj, UInt32.toNat_ofNat']
      simp only [kInvalidHandle, UInt32.reduceToNat]
      omega

theorem chain_of_lt (h : FreeRep p free) (hc : p.capacity < 2 ^ 32) :
    Chain p.links.next p.freeHead free none := by
  obtain ⟨nodes, stop, hchain, hmap, hlt, hstop⟩ := h
  have hnodes : nodes.map (· % 2 ^ 32) = nodes := by
    refine (List.map_congr_left (fun i hi => ?_)).trans (List.map_id _)
    have := hlt i hi
    exact Nat.mod_eq_of_lt (by omega)
  rw [hnodes] at hmap
  subst hmap
  cases stop with
  | none => exact hchain
  | some i =>
    obtain ⟨hi, hinv⟩ := hstop i rfl
    rw [← UInt32.toNat_inj, UInt32.toNat_ofNat'] at hinv
    simp only [kInvalidHandle, UInt32.reduceToNat] at hinv
    omega

end FreeRep

section Book

variable {S : Bool → Type} [BookSide S R] [BookView S R]

structure Rep (b : OrderBook S R) (A : LiveBook) : Prop where
  inv : ∀ s, Inv (b.book s)
  level : ∀ s p r, ref (b.book s) p = some r →
    LevelRep b.pool (s, r) p (level (b.book s) r) (A.queue s p)
  absent : ∀ s p, ref (b.book s) p = none → A.queue s p = []
  proper : ∀ s, Levels.Proper (A.side s)
  free : FreeRep b.pool A.free
  slots : A.slots.Perm (List.range (b.pool.capacity % 2 ^ 32))

namespace Rep

variable {b : OrderBook S R} {A : LiveBook}

theorem tidy (h : Rep b A) (s : Side) : Tidy (b.book s) := by
  intro p r hr hn
  have hl := h.level s p r hr
  exact hl.nil_iff.mp (hl.head_eq_none.mp hn)

theorem nodup (h : Rep b A) : A.slots.Nodup := h.slots.nodup_iff.mpr List.nodup_range

theorem mem_slots (h : Rep b A) {i : ℕ} : i ∈ A.slots ↔ i < b.pool.capacity % 2 ^ 32 := by
  rw [h.slots.mem_iff, List.mem_range]

theorem slot_lt (h : Rep b A) {s : Side} {p : Int} {e : Entry} (he : e ∈ A.queue s p) :
    e.slot < 2 ^ 32 ∧ e.slot < b.pool.capacity := by
  have hm := h.mem_slots.mp (LiveBook.slot_mem_slots he)
  have h1 := Nat.mod_lt b.pool.capacity (show 0 < 2 ^ 32 by norm_num)
  have h2 := Nat.mod_le b.pool.capacity (2 ^ 32)
  omega

theorem sound (h : Rep b A) : A.Sound where
  proper := h.proper
  price s p e he := by
    cases hr : ref (b.book s) p with
    | none => simp [h.absent s p hr] at he
    | some r => exact (h.level s p r hr).price e he
  quantity s p e he := by
    cases hr : ref (b.book s) p with
    | none => simp [h.absent s p hr] at he
    | some r => exact (h.level s p r hr).quantity e he
  nodup := h.nodup

theorem update (h : Rep b A) {s : Side} {p : Int} {r : R} {x : S s.isAsk} {pool : OrderPool R}
    {q : Queue} {free : List ℕ} (hinv : Inv x) (href : ref x p = some r)
    (hlevel : LevelRep pool (s, r) p (BookSide.level x r) q)
    (hkeeps : ∀ p', p' ≠ p → Keeps (b.book s) x p')
    (hframe : ∀ s' p', ¬ (s' = s ∧ p' = p) → ∀ e ∈ A.queue s' p',
      pool.slots e.slot = b.pool.slots e.slot)
    (hcap : pool.capacity = b.pool.capacity) (hfree : FreeRep pool free)
    (hperm : (free ++ q.map Entry.slot).Perm (A.free ++ (A.queue s p).map Entry.slot)) :
    Rep ({ b with pool := pool }.setBook s x) (({ A with free } : LiveBook).setQueue s p q) where
  inv t := by
    by_cases ht : t = s
    · subst ht; simpa using hinv
    · rw [OrderBook.setBook_book_of_ne _ _ _ ht, OrderBook.book_withPool]
      exact h.inv t
  level t p' r' hr' := by
    rw [LiveBook.queue_setQueue, OrderBook.setBook_pool]
    by_cases ht : t = s
    · subst ht
      rw [OrderBook.setBook_book_self] at hr' ⊢
      by_cases hp : p' = p
      · subst hp
        rw [href] at hr'
        obtain rfl := Option.some.inj hr'
        simpa using hlevel
      · obtain ⟨hk, hl⟩ := hkeeps p' hp
        have hb : ref (b.book t) p' = some r' := by
          rcases hk with hk | ⟨hk, -⟩
          · rw [← hk, hr']
          · rw [hk] at hr'; cases hr'
        rw [if_neg (by simp [hp]), LiveBook.queue_withFree, hl r' hr']
        exact (h.level t p' r' hb).congr (hframe t p' (by simp [hp]))
    · rw [OrderBook.setBook_book_of_ne _ _ _ ht, OrderBook.book_withPool] at hr' ⊢
      rw [if_neg (by simp [ht]), LiveBook.queue_withFree]
      exact (h.level t p' r' hr').congr (hframe t p' (by simp [ht]))
  absent t p' hr' := by
    rw [LiveBook.queue_setQueue, LiveBook.queue_withFree]
    by_cases ht : t = s
    · subst ht
      rw [OrderBook.setBook_book_self] at hr'
      by_cases hp : p' = p
      · subst hp; rw [href] at hr'; cases hr'
      · rw [if_neg (by simp [hp])]
        rcases (hkeeps p' hp).1 with hk | ⟨-, hk⟩
        · exact h.absent t p' (hk ▸ hr')
        · cases hb : ref (b.book t) p' with
          | none => exact h.absent t p' hb
          | some r' => exact (h.level t p' r' hb).nil_iff.mpr (hk r' hb)
    · rw [OrderBook.setBook_book_of_ne _ _ _ ht, OrderBook.book_withPool] at hr'
      rw [if_neg (by simp [ht])]
      exact h.absent t p' hr'
  proper t := by
    by_cases ht : t = s
    · subst ht
      rw [LiveBook.setQueue_side_self, LiveBook.side_withFree]
      exact (h.proper t).setQueue p q
    · rw [LiveBook.setQueue_side_of_ne _ _ _ _ ht, LiveBook.side_withFree]
      exact h.proper t
  free := by simpa using hfree
  slots := by
    rw [OrderBook.setBook_pool, hcap]
    exact (LiveBook.slots_setQueue hperm).trans h.slots

theorem drop (h : Rep b A) {s : Side} {x : S s.isAsk} (hinv : Inv x)
    (hkeeps : ∀ p, Keeps (b.book s) x p) : Rep (b.setBook s x) A where
  inv t := by
    by_cases ht : t = s
    · subst ht; simpa using hinv
    · rw [OrderBook.setBook_book_of_ne _ _ _ ht]
      exact h.inv t
  level t p r hr := by
    rw [OrderBook.setBook_pool]
    by_cases ht : t = s
    · subst ht
      rw [OrderBook.setBook_book_self] at hr ⊢
      obtain ⟨hk, hl⟩ := hkeeps p
      rw [hl r hr]
      rcases hk with hk | ⟨hk, -⟩
      · exact h.level t p r (by rw [← hk, hr])
      · rw [hk] at hr; cases hr
    · rw [OrderBook.setBook_book_of_ne _ _ _ ht] at hr ⊢
      exact h.level t p r hr
  absent t p hr := by
    by_cases ht : t = s
    · subst ht
      rw [OrderBook.setBook_book_self] at hr
      rcases (hkeeps p).1 with hk | ⟨-, hk⟩
      · exact h.absent t p (hk ▸ hr)
      · cases hb : ref (b.book t) p with
        | none => exact h.absent t p hb
        | some r => exact (h.level t p r hb).nil_iff.mpr (hk r hb)
    · rw [OrderBook.setBook_book_of_ne _ _ _ ht] at hr
      exact h.absent t p hr
  proper := h.proper
  free := by simpa using h.free
  slots := by simpa using h.slots

theorem init {bids : S false} {asks : S true} (n : ℕ) (hb : Inv bids) (ha : Inv asks)
    (hbids : ∀ p, ref bids p = none) (hasks : ∀ p, ref asks p = none) :
    Rep ⟨bids, asks, OrderPool.init n⟩ (LiveBook.init n) where
  inv s := by cases s <;> assumption
  level s p r hr := by
    cases s
    · exact absurd (hr.symm.trans (hbids p)) (by simp)
    · exact absurd (hr.symm.trans (hasks p)) (by simp)
  absent s p _ := by cases s <;> rfl
  proper s := by
    intro p
    have hf : (LiveBook.init n |>.side s).find? p = none := by cases s <;> rfl
    rw [hf]
    simp
  free := FreeRep.init n
  slots := by
    simp only [LiveBook.slots, LiveBook.init, LiveBook.orders, LiveBook.side, Levels.orders,
      OrderedMap.empty, List.flatMap_nil, List.map_nil, List.append_nil, OrderPool.init_capacity]
    exact List.reverse_perm _

end Rep

end Book

end Llmes
