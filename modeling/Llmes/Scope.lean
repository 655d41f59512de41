import Llmes.Simulation
import Llmes.ArraySideBook
import Llmes.Lib.Machine

namespace Llmes

open Intrusive BookSide BookView LawfulBookSide OrderBook

variable {R : Type}

def OrderPool.walk (p : OrderPool R) : ℕ → Option ℕ → List ℕ
  | 0, _ => []
  | _ + 1, none => []
  | n + 1, some i => i :: p.walk n (p.slots i).next

theorem OrderPool.walk_of_chain {p : OrderPool R} {n : ℕ} {a : Option ℕ} {xs : List ℕ}
    (h : Chain p.links.next a xs none) (hn : xs.length ≤ n) : p.walk n a = xs := by
  induction xs generalizing n a with
  | nil =>
    simp only [Chain] at h
    subst h
    cases n <;> rfl
  | cons x xs ih =>
    obtain ⟨rfl, h⟩ := h
    cases n with
    | zero => simp at hn
    | succ n =>
      rw [walk]
      exact congrArg (x :: ·) (ih h (by simpa using hn))

variable {S : Bool → Type} [BookSide S R]

namespace Reply

def trades : Reply → List Trade
  | added out => out.trades
  | cancelled _ => []

def remaining : Reply → UInt64
  | added out => out.remainingQuantity
  | cancelled _ => 0

def handle : Reply → OrderHandle
  | added out => out.handle
  | cancelled _ => kInvalidHandle

end Reply

namespace OrderBook

def fifo (b : OrderBook S R) (s : Side) (r : R) : List ℕ :=
  b.pool.walk b.pool.capacity (level (b.book s) r).head

def Resting [BookView S R] (b : OrderBook S R) (i : ℕ) : Prop :=
  ∃ s p r, ref (b.book s) p = some r ∧ i ∈ b.fifo s r

def after (b : OrderBook S R) (op : Op) : OrderBook S R := Machine.next exec b op

theorem after_eq {b b' : OrderBook S R} {op : Op} {reply : Reply} (h : b.exec op = .ok (reply, b')) :
    b.after op = b' := Machine.next_of_ok h

theorem exec_after {b : OrderBook S R} {op : Op} {reply : Reply} (h : (b.exec op).toOption.map Prod.fst = some reply) :
    b.exec op = .ok (reply, b.after op) := Machine.step_next h

theorem allowed_cons {b : OrderBook S R} {op : Op} {ok : OrderBook S R → Op → Prop} {ops : List Op} (h : ok b op)
    (h' : Machine.Allowed OrderBook.exec ok (b.after op) ops) :
    Machine.Allowed OrderBook.exec ok b (op :: ops) := .of_next h h'

def matchLimit (b : OrderBook S R) (orderId : UInt64) (side : Side) (price : Int)
    (quantity : UInt64) : Exec (MatchState S R) :=
  if quantity = 0 then .ok { book := b, quantity := 0, out := {} }
  else matchingEngineLimit side b { initialQuantity := quantity } orderId price quantity

def matchMarket (b : OrderBook S R) (orderId : UInt64) (side : Side) (quantity : UInt64) :
    Exec (MatchState S R) :=
  if quantity = 0 then .ok { book := b, quantity := 0, out := {} }
  else matchingEngineMarket side b { initialQuantity := quantity } orderId quantity

def matching (b : OrderBook S R) : Op → Exec (MatchState S R)
  | .limit orderId side price quantity _ => b.matchLimit orderId side price quantity
  | .market orderId side quantity _ => b.matchMarket orderId side quantity
  | .modify h side price quantity _ => do
    let o ← b.pool.resolve h
    let orderId := (b.pool.slots o).id
    let b ← b.removeOrder o
    b.matchLimit orderId side price quantity
  | .cancel h => do
    let o ← b.pool.resolve h
    let b ← b.removeOrder o
    pure { book := b, quantity := 0, out := {} }

structure Reports (out : AddResult) (m : MatchState S R) : Prop where
  trades : out.trades = m.out.trades
  initialQuantity : out.initialQuantity = m.out.initialQuantity
  filledQuantity : out.filledQuantity = m.out.filledQuantity
  remainingQuantity : out.remainingQuantity = m.quantity

theorem addLimitOrder_matching {b b' : OrderBook S R} {orderId : UInt64} {side : Side} {price : Int}
    {quantity timestamp : UInt64} {out : AddResult}
    (h : b.addLimitOrder orderId side price quantity timestamp = .ok (out, b')) :
    ∃ m, b.matchLimit orderId side price quantity = .ok m ∧ Reports out m := by
  unfold addLimitOrder at h
  unfold matchLimit
  split at h
  · next hz =>
    rw [if_pos hz]
    simp only [Except.ok.injEq, Prod.mk.injEq] at h
    rw [← h.1, hz]
    exact ⟨_, rfl, rfl, rfl, rfl, rfl⟩
  · next hz =>
    rw [if_neg hz]
    obtain ⟨m, hm, h⟩ := bind_eq_ok.mp h
    refine ⟨m, hm, ?_⟩
    split at h
    · simp only [pure_eq_ok, Except.ok.injEq, Prod.mk.injEq] at h
      rw [← h.1]
      exact ⟨rfl, rfl, rfl, rfl⟩
    · obtain ⟨n, -, h⟩ := bind_eq_ok.mp h
      simp only [pure_eq_ok, Except.ok.injEq, Prod.mk.injEq] at h
      rw [← h.1]
      exact ⟨rfl, rfl, rfl, rfl⟩

theorem addMarketOrder_matching {b b' : OrderBook S R} {orderId : UInt64} {side : Side}
    {quantity timestamp : UInt64} {out : AddResult}
    (h : b.addMarketOrder orderId side quantity timestamp = .ok (out, b')) :
    ∃ m, b.matchMarket orderId side quantity = .ok m ∧ Reports out m := by
  unfold addMarketOrder at h
  unfold matchMarket
  split at h
  · next hz =>
    rw [if_pos hz]
    simp only [Except.ok.injEq, Prod.mk.injEq] at h
    rw [← h.1, hz]
    exact ⟨_, rfl, rfl, rfl, rfl, rfl⟩
  · next hz =>
    rw [if_neg hz]
    obtain ⟨m, hm, h⟩ := bind_eq_ok.mp h
    refine ⟨m, hm, ?_⟩
    split at h <;>
      · simp only [pure_eq_ok, Except.ok.injEq, Prod.mk.injEq] at h
        rw [← h.1]
        exact ⟨rfl, rfl, rfl, rfl⟩

theorem exec_matching {b b' : OrderBook S R} {op : Op} {reply : Reply}
    (h : b.exec op = .ok (reply, b')) :
    ∃ m, b.matching op = .ok m ∧ reply.trades = m.out.trades ∧ reply.remaining = m.quantity ∧
      ∀ out, reply = .added out → Reports out m := by
  have hadded {out : AddResult} {m : MatchState S R} (hr : Reports out m) :
      (Reply.added out).trades = m.out.trades ∧ (Reply.added out).remaining = m.quantity ∧
        ∀ out', Reply.added out = .added out' → Reports out' m := by
    refine ⟨hr.trades, hr.remainingQuantity, ?_⟩
    rintro out' ⟨⟩
    exact hr
  cases op with
  | limit orderId side price quantity timestamp =>
    obtain ⟨⟨out, b₁⟩, ho, h⟩ := bind_eq_ok.mp h
    obtain ⟨rfl, -⟩ := Prod.mk.inj (Except.ok.inj h)
    obtain ⟨m, hm, hr⟩ := addLimitOrder_matching ho
    exact ⟨m, hm, hadded hr⟩
  | market orderId side quantity timestamp =>
    obtain ⟨⟨out, b₁⟩, ho, h⟩ := bind_eq_ok.mp h
    obtain ⟨rfl, -⟩ := Prod.mk.inj (Except.ok.inj h)
    obtain ⟨m, hm, hr⟩ := addMarketOrder_matching ho
    exact ⟨m, hm, hadded hr⟩
  | modify handle side price quantity timestamp =>
    obtain ⟨⟨out, b₁⟩, ho, h⟩ := bind_eq_ok.mp h
    obtain ⟨rfl, -⟩ := Prod.mk.inj (Except.ok.inj h)
    obtain ⟨o, hres, ho⟩ := bind_eq_ok.mp ho
    obtain ⟨b₂, hb₂, ho⟩ := bind_eq_ok.mp ho
    obtain ⟨m, hm, hr⟩ := addLimitOrder_matching ho
    refine ⟨m, ?_, hadded hr⟩
    simp only [matching, hres, ok_bind, hb₂]
    exact hm
  | cancel handle =>
    obtain ⟨⟨code, b₁⟩, ho, h⟩ := bind_eq_ok.mp h
    obtain ⟨rfl, -⟩ := Prod.mk.inj (Except.ok.inj h)
    obtain ⟨o, hres, ho⟩ := bind_eq_ok.mp ho
    obtain ⟨b₂, hb₂, -⟩ := bind_eq_ok.mp ho
    simp only [matching, hres, ok_bind, hb₂, pure_eq_ok]
    exact ⟨_, rfl, rfl, rfl, by rintro out ⟨⟩⟩

end OrderBook

def LiveBook.matching (A : LiveBook) : Op → Option (Taken LiveBook)
  | .limit _ side price quantity _ => some (A.take side (canCrossLimit side price) quantity)
  | .market _ side quantity _ => some (A.take side (fun _ => true) quantity)
  | .modify h side price quantity _ =>
    (A.locate h.toNat).map (fun x => (A.remove x).take side (canCrossLimit side price) quantity)
  | .cancel h => (A.locate h.toNat).map (fun x => ⟨[], 0, A.remove x⟩)

def LiveBook.takerId (A : LiveBook) : Op → UInt64
  | .limit orderId _ _ _ _ => orderId
  | .market orderId _ _ _ => orderId
  | .modify h _ _ _ _ => ((A.locate h.toNat).map (fun x => x.2.id)).getD 0
  | .cancel _ => 0

section Lawful

variable [LawfulBookSide S R] {b : OrderBook S R} {A : LiveBook}

namespace Rep

theorem fifo_eq (h : Rep b A) {s : Side} {p : Int} {r : R} (hr : ref (b.book s) p = some r) :
    b.fifo s r = (A.queue s p).map Entry.slot := by
  apply OrderPool.walk_of_chain (h.level s p r hr).links.chain
  simpa using h.queue_length_le s p

theorem resting_iff (h : Rep b A) {i : ℕ} : b.Resting i ↔ A.locate i ≠ none := by
  rw [Ne, LiveBook.locate_eq_none, OrderBook.Resting]
  push Not
  constructor
  · rintro ⟨s, p, r, hr, hi⟩
    rw [h.fifo_eq hr] at hi
    obtain ⟨e, he, rfl⟩ := List.mem_map.mp hi
    exact ⟨s, e, LiveBook.mem_orders.mpr ⟨p, he⟩, rfl⟩
  · rintro ⟨s, e, he, rfl⟩
    obtain ⟨hq, r, hr, -⟩ := h.order_spec he
    exact ⟨s, e.price, r, hr, by rw [h.fifo_eq hr]; exact List.mem_map_of_mem hq⟩

theorem live_iff (h : Rep b A) (op : Op) : op.Live A ↔ ∀ i ∈ op.handle, b.Resting i.toNat := by
  cases op <;> simp [Op.Live, Op.handle, h.resting_iff]

end Rep

structure Phase (orderId : UInt64) (b : OrderBook S R) (m : MatchState S R) (t : Taken LiveBook) : Prop where
  quantity : m.quantity = t.quantity
  trades : m.out.trades = t.fills.map (Fill.trade orderId)
  makers : m.makers = t.fills.map (fun f => f.maker.slot)
  moved : Moved none b m.book t.left

theorem foldl_addFill_trades (orderId : UInt64) (fills : List Fill) (out : AddResult) :
    (fills.foldl (AddResult.addFill orderId) out).trades =
      out.trades ++ fills.map (Fill.trade orderId) := by
  induction fills generalizing out with
  | nil => simp
  | cons f fills ih =>
    rw [List.foldl_cons, ih]
    simp [AddResult.addFill]

theorem Swept.phase {taker : Side} {orderId quantity q : UInt64} {cross : Int → Bool}
    {m' : MatchState S R} {t : Taken LiveBook}
    (h : Swept taker orderId cross { book := b, quantity, out := { initialQuantity := q } } m' t) :
    Phase orderId b m' t where
  quantity := h.quantity
  trades := by
    rw [h.traded.out, foldl_addFill_trades]
    rfl
  makers := h.traded.makers
  moved := h.moved

theorem Phase.idle (h : Rep b A) (orderId : UInt64) (taker : Side) (cross : Int → Bool) :
    Phase orderId b { book := b, quantity := 0, out := {} } (A.take taker cross 0) := by
  rw [LiveBook.take_zero]
  exact ⟨rfl, rfl, rfl, .refl h⟩

theorem matchLimit_spec (h : Rep b A) (orderId : UInt64) (side : Side) (price : Int)
    (quantity : UInt64) :
    ∃ m, b.matchLimit orderId side price quantity = .ok m ∧
      Phase orderId b m (A.take side (canCrossLimit side price) quantity) := by
  by_cases hz : quantity = 0
  · subst hz
    exact ⟨_, if_pos rfl, Phase.idle h _ _ _⟩
  · obtain ⟨m, hm, hs⟩ := matchingEngineLimit_spec side h { initialQuantity := quantity } orderId price quantity
    exact ⟨m, (if_neg hz).trans hm, hs.phase⟩

theorem matchMarket_spec (h : Rep b A) (orderId : UInt64) (side : Side) (quantity : UInt64) :
    ∃ m, b.matchMarket orderId side quantity = .ok m ∧
      Phase orderId b m (A.take side (fun _ => true) quantity) := by
  by_cases hz : quantity = 0
  · subst hz
    exact ⟨_, if_pos rfl, Phase.idle h _ _ _⟩
  · obtain ⟨m, hm, hs⟩ := matchingEngineMarket_spec side h { initialQuantity := quantity } orderId quantity
    exact ⟨m, (if_neg hz).trans hm, hs.phase⟩

theorem Phase.after {b₁ : OrderBook S R} {A₁ : LiveBook} {orderId : UInt64} {m : MatchState S R}
    {t : Taken LiveBook} (h : Moved none b b₁ A₁) (hp : Phase orderId b₁ m t) : Phase orderId b m t :=
  ⟨hp.quantity, hp.trades, hp.makers, h.trans hp.moved⟩

theorem matching_spec (h : Rep b A) (op : Op) (hlive : op.Live A) :
    ∃ m t, b.matching op = .ok m ∧ A.matching op = some t ∧ Phase (A.takerId op) b m t := by
  cases op with
  | limit orderId side price quantity timestamp =>
    obtain ⟨m, hm, hp⟩ := matchLimit_spec h orderId side price quantity
    exact ⟨m, _, hm, rfl, hp⟩
  | market orderId side quantity timestamp =>
    obtain ⟨m, hm, hp⟩ := matchMarket_spec h orderId side quantity
    exact ⟨m, _, hm, rfl, hp⟩
  | modify handle side price quantity timestamp =>
    obtain ⟨x, b₁, hx, hres, hb₁, hid, hmoved, -⟩ := h.remove_live hlive
    obtain ⟨m, hm, hp⟩ := matchLimit_spec hmoved.rep x.2.id side price quantity
    refine ⟨m, _, ?_, by rw [LiveBook.matching, hx]; rfl, ?_⟩
    · simp only [OrderBook.matching, hres, ok_bind, hb₁, hid, hm]
    · simp only [LiveBook.takerId, hx, Option.map_some, Option.getD_some]
      exact hp.after hmoved
  | cancel handle =>
    obtain ⟨x, b₁, hx, hres, hb₁, -, hmoved, -⟩ := h.remove_live hlive
    refine ⟨{ book := b₁, quantity := 0, out := {} }, _, ?_, by rw [LiveBook.matching, hx]; rfl, ?_⟩
    · simp only [OrderBook.matching, hres, ok_bind, hb₁, pure_eq_ok]
    · exact ⟨rfl, rfl, rfl, hmoved⟩

end Lawful

abbrev ArrayBook := OrderBook ArraySideBook ℕ

namespace ArrayBook

def init (capacity : ℕ) : ArrayBook := ⟨ArraySideBook.init, ArraySideBook.init, OrderPool.init capacity⟩

/-- The calls that the book is used with: the handle of a cancel or modify is that of an order that
is resting at that moment, a remainder rests inside the price range, and there is a slot for it. -/
structure InScope (b : ArrayBook) (op : Op) : Prop where
  live : ∀ h ∈ op.handle, b.Resting h.toNat
  range : ∀ price ∈ op.price, ∀ m, b.matching op = .ok m → m.quantity ≠ 0 →
    0 ≤ price ∧ price < kBitCount
  roomy : b.exec op ≠ .error .poolExhausted

abbrev Reach (capacity : ℕ) : ArrayBook → Prop := Machine.Reach OrderBook.exec InScope (init capacity)

theorem rep_init (capacity : ℕ) : Rep (init capacity) (LiveBook.init capacity) := by
  have href (isAsk : Bool) (p : Int) : ref (ArraySideBook.init : ArraySideBook isAsk) p = none :=
    (ArraySideBook.ref_eq_none).mpr (fun i _ => by
      simp [ArraySideBook.init, OccupancyTree.test, OccupancyTree.empty])
  exact Rep.init capacity ArraySideBook.init_inv ArraySideBook.init_inv (href false) (href true)

variable {b : ArrayBook} {A : LiveBook} {op : Op}

theorem admissible_of_range (h : Rep b A) (hlive : op.Live A)
    (hrange : ∀ price ∈ op.price, ∀ m, b.matching op = .ok m → m.quantity ≠ 0 →
      0 ≤ price ∧ price < kBitCount) :
    op.Admissible b A := by
  obtain ⟨m, t, hm, ht, hp⟩ := matching_spec h op hlive
  cases op with
  | limit orderId side price quantity timestamp =>
    obtain rfl := Option.some.inj ht
    exact fun hq => hrange price rfl m hm (hp.quantity ▸ hq)
  | market orderId side quantity timestamp => trivial
  | modify handle side price quantity timestamp =>
    intro x hx hq
    rw [LiveBook.matching, hx] at ht
    obtain rfl := Option.some.inj ht
    exact hrange price rfl m hm (hp.quantity ▸ hq)
  | cancel handle => trivial

theorem InScope.admissible (hs : InScope b op) (h : Rep b A) (hlive : op.Live A) :
    op.Admissible b A := admissible_of_range h hlive hs.range

theorem InScope.exec (hs : InScope b op) (h : Rep b A) :
    ∃ reply b' A', b.exec op = .ok (reply, b') ∧ A.exec op = some (reply, A') ∧
      Moved op.price b b' A' := by
  have hlive := (h.live_iff op).mpr hs.live
  rcases exec_spec h op hlive (hs.admissible h hlive) with ⟨hb, -⟩ | ⟨hp, -⟩ | hok
  · exact absurd hb hs.roomy
  · exact absurd hp id
  · exact hok

structure Good (capacity : ℕ) (b : ArrayBook) : Prop where
  rep : ∃ A, Rep b A
  capacity : b.pool.capacity = capacity
  uncrossed : Uncrossed b

theorem Good.init (capacity : ℕ) : Good capacity (init capacity) where
  rep := ⟨_, rep_init capacity⟩
  capacity := OrderPool.init_capacity capacity
  uncrossed := by
    intro p q hp
    refine absurd ?_ hp
    exact (ArraySideBook.ref_eq_none).mpr (fun i _ => by
      simp [ArrayBook.init, OrderBook.book, ArraySideBook.init, OccupancyTree.test, OccupancyTree.empty])

theorem Good.step {capacity : ℕ} {b' : ArrayBook} {reply : Reply} (h : Good capacity b)
    (hs : InScope b op) (hb : b.exec op = .ok (reply, b')) : Good capacity b' := by
  obtain ⟨A, hrep⟩ := h.rep
  obtain ⟨reply', b'', A', hb', -, hm⟩ := hs.exec hrep
  rw [hb] at hb'
  simp only [Except.ok.injEq, Prod.mk.injEq] at hb'
  obtain ⟨rfl, rfl⟩ := hb'
  exact ⟨⟨A', hm.rep⟩, hm.capacity.trans h.capacity, hm.uncrossed h.uncrossed⟩

theorem Reach.good {capacity : ℕ} (h : Reach capacity b) : Good capacity b :=
  Machine.Reach.invariant h (Good.init capacity) (fun _ _ _ _ hg hs hb => hg.step hs hb)

theorem Reach.after {capacity : ℕ} (h : Reach capacity b) {op : Op} (hs : InScope b op) :
    Reach capacity (b.after op) := by
  obtain ⟨A, hrep⟩ := h.good.rep
  obtain ⟨reply, b', -, hb, -, -⟩ := hs.exec hrep
  rw [after_eq hb]
  exact h.step hs hb

theorem InScope.of_add (hh : op.handle = none) (hp : ∀ price ∈ op.price, 0 ≤ price ∧ price < kBitCount)
    (hok : (b.exec op).isOk = true) : InScope b op where
  live h hm := by simp [hh] at hm
  range price hm _ _ _ := hp price hm
  roomy := ne_error_of_isOk hok

/-- A bid is traded down by an ask, another ask rests, and a bid behind the first one is cancelled:
its level stays. -/
def sample : ArrayBook :=
  ((((init 4).after (.limit 1 .buy 100 5 0)).after (.limit 2 .buy 99 4 1)).after (.limit 3 .sell 100 3 2)).after
    (.limit 4 .sell 101 6 3) |>.after (.cancel 2)

theorem reach_sample : Reach 4 sample := by
  have h0 : Reach 4 (init 4) := ⟨[], .nil _⟩
  have h1 := h0.after (show InScope _ (.limit 1 .buy 100 5 0) from
    .of_add rfl (by simp [Op.price, kBitCount]) (by decide +kernel))
  have h2 := h1.after (show InScope _ (.limit 2 .buy 99 4 1) from
    .of_add rfl (by simp [Op.price, kBitCount]) (by decide +kernel))
  have h3 := h2.after (show InScope _ (.limit 3 .sell 100 3 2) from
    .of_add rfl (by simp [Op.price, kBitCount]) (by decide +kernel))
  have h4 := h3.after (show InScope _ (.limit 4 .sell 101 6 3) from
    .of_add rfl (by simp [Op.price, kBitCount]) (by decide +kernel))
  refine h4.after (show InScope _ (.cancel 2) from ⟨?_, ?_, ne_error_of_isOk (by decide +kernel)⟩)
  · rintro h hm
    obtain rfl := Option.some.inj hm
    exact ⟨.buy, 99, 99, by decide +kernel, by decide +kernel⟩
  · simp [Op.price]

end ArrayBook

end Llmes
