import Llmes.BookSide

namespace Llmes

open BookSide

structure OrderBook (S : Bool → Type) (R : Type) where
  bids : S false
  asks : S true
  pool : OrderPool R

/-- The variables of a matching loop. `makers` and `wrapped` are history: the slot each trade was
made against, and whether an unsigned operation of the loops has wrapped. Nothing reads them. -/
structure MatchState (S : Bool → Type) (R : Type) where
  book : OrderBook S R
  quantity : UInt64
  out : AddResult
  makers : List ℕ := []
  wrapped : Bool := false

inductive Op
  | limit (orderId : UInt64) (side : Side) (price : Int) (quantity timestamp : UInt64)
  | market (orderId : UInt64) (side : Side) (quantity timestamp : UInt64)
  | modify (h : OrderHandle) (side : Side) (price : Int) (quantity timestamp : UInt64)
  | cancel (h : OrderHandle)
  deriving DecidableEq

inductive Reply
  | added (out : AddResult)
  | cancelled (code : ErrorCode)
  deriving DecidableEq

namespace OrderBook

variable {S : Bool → Type} {R : Type}

def book (b : OrderBook S R) : (s : Side) → S s.isAsk
  | .buy => b.bids
  | .sell => b.asks

def setBook (b : OrderBook S R) : (s : Side) → S s.isAsk → OrderBook S R
  | .buy, x => { b with bids := x }
  | .sell, x => { b with asks := x }

def canCrossLimit (taker : Side) (limitPrice bestOppositePrice : Int) : Bool :=
  match taker with
  | .sell => limitPrice ≤ bestOppositePrice
  | .buy => limitPrice ≥ bestOppositePrice

section Fields

variable (b : OrderBook S R) (s : Side) (x : S s.isAsk)

@[simp] theorem setBook_book_self : (b.setBook s x).book s = x := by cases s <;> rfl

theorem setBook_book_of_ne {t : Side} (h : t ≠ s) : (b.setBook s x).book t = b.book t := by
  cases s <;> cases t <;> first | rfl | exact absurd rfl h

@[simp] theorem setBook_book_opposite (x : S s.opposite.isAsk) :
    (b.setBook s.opposite x).book s = b.book s := by cases s <;> rfl

@[simp] theorem setBook_pool : (b.setBook s x).pool = b.pool := by cases s <;> rfl

@[simp] theorem book_withPool (p : OrderPool R) :
    ({ b with pool := p } : OrderBook S R).book s = b.book s := by
  cases s <;> rfl

@[simp] theorem setBook_self : b.setBook s (b.book s) = b := by cases s <;> rfl

end Fields

variable [BookSide S R]

def fillFront (taker : Side) (r : R) (orderId : UInt64) (m : MatchState S R) :
    Exec (MatchState S R) := do
  let oppo := m.book.book taker.opposite
  let makerPtr ← (level oppo r).front
  let maker := m.book.pool.slots makerPtr
  let fill := min m.quantity maker.quantity
  let pool := m.book.pool.modify makerPtr (fun o => { o with quantity := o.quantity - fill })
  let m' : MatchState S R :=
    { book := { m.book with pool := pool }
      quantity := m.quantity - fill
      out := { m.out with
        trades := m.out.trades ++ [⟨orderId, maker.id, maker.price, fill⟩]
        filledQuantity := m.out.filledQuantity + fill }
      makers := m.makers ++ [makerPtr]
      wrapped := m.wrapped || decide (maker.quantity < fill) || decide (m.quantity < fill) ||
        decide (2 ^ 64 ≤ m.out.filledQuantity.toNat + fill.toNat) }
  if maker.quantity - fill = 0 then
    let e := (level oppo r).erase pool makerPtr
    pure { m' with
      book := { m.book with pool := e.2.release makerPtr }.setBook taker.opposite
        (setLevel oppo r e.1) }
  else pure m'

def matchLevel (taker : Side) (r : R) (orderId : UInt64) :
    ℕ → MatchState S R → Exec (MatchState S R)
  | fuel, m =>
    if m.quantity > 0 ∧ (level (m.book.book taker.opposite) r).empty = false then
      match fuel with
      | 0 => .error .loopBound
      | fuel + 1 => do
        let m ← fillFront taker r orderId m
        matchLevel taker r orderId fuel m
    else .ok m

/-- What a round of the outer loop does once it has not left it, in both engines. -/
def sweepBest (taker : Side) (orderId : UInt64) (m : MatchState S R) : Exec (MatchState S R) := do
  let r ← bestLevel (m.book.book taker.opposite)
  let m ← matchLevel taker r orderId m.book.pool.capacity m
  if (level (m.book.book taker.opposite) r).empty then
    let oppo ← eraseBest (m.book.book taker.opposite)
    pure { m with book := m.book.setBook taker.opposite oppo }
  else pure m

def limitLoop (taker : Side) (price : Int) (orderId : UInt64) :
    ℕ → MatchState S R → Exec (MatchState S R)
  | fuel, m =>
    if m.quantity > 0 ∧ empty (m.book.book taker.opposite) = false then
      match fuel with
      | 0 => .error .loopBound
      | fuel + 1 => do
        let best ← bestPrice (m.book.book taker.opposite)
        if canCrossLimit taker price best then
          let m ← sweepBest taker orderId m
          limitLoop taker price orderId fuel m
        else pure m
    else .ok m

def marketLoop (taker : Side) (orderId : UInt64) :
    ℕ → MatchState S R → Exec (MatchState S R)
  | fuel, m =>
    if m.quantity > 0 ∧ empty (m.book.book taker.opposite) = false then
      match fuel with
      | 0 => .error .loopBound
      | fuel + 1 => do
        let m ← sweepBest taker orderId m
        marketLoop taker orderId fuel m
    else .ok m

def matchingEngineLimit (taker : Side) (b : OrderBook S R) (out : AddResult) (orderId : UInt64)
    (price : Int) (quantity : UInt64) : Exec (MatchState S R) :=
  limitLoop taker price orderId (levelBound (b.book taker.opposite)) { book := b, quantity, out }

def matchingEngineMarket (taker : Side) (b : OrderBook S R) (out : AddResult) (orderId : UInt64)
    (quantity : UInt64) : Exec (MatchState S R) :=
  marketLoop taker orderId (levelBound (b.book taker.opposite)) { book := b, quantity, out }

/-- The second half of `addLimitOrder`: the remainder takes a slot and joins its level. -/
def restRemainder (b : OrderBook S R) (orderId : UInt64) (side : Side) (price : Int)
    (remaining timestamp : UInt64) : Exec (OrderHandle × OrderBook S R) := do
  let a := b.pool.acquire
  if a.1 = kInvalidHandle then .error .poolExhausted
  else
    let node ← a.2.resolve a.1
    let pool := a.2.modify node (fun o =>
      { o with id := orderId, price, quantity := remaining, timestamp, prev := none, next := none })
    let g ← getOrCreate (b.book side) price
    let l := (level g.2 g.1).pushBack pool node
    let pool := l.2.modify node (fun o => { o with parentLevel := some (side, g.1) })
    pure (a.1, { b with pool }.setBook side (setLevel g.2 g.1 l.1))

def addLimitOrder (b : OrderBook S R) (orderId : UInt64) (side : Side) (price : Int)
    (quantity timestamp : UInt64) : Exec (AddResult × OrderBook S R) :=
  let out : AddResult := { initialQuantity := quantity }
  if quantity = 0 then .ok ({ out with code := .invalidQuantity }, b)
  else do
    let m ← matchingEngineLimit side b out orderId price quantity
    let out := { m.out with remainingQuantity := m.quantity }
    if m.quantity = 0 then pure ({ out with code := .success }, m.book)
    else
      let n ← m.book.restRemainder orderId side price m.quantity timestamp
      pure ({ out with code := .success, handle := n.1 }, n.2)

def addMarketOrder (b : OrderBook S R) (orderId : UInt64) (side : Side)
    (quantity _timestamp : UInt64) : Exec (AddResult × OrderBook S R) :=
  let out : AddResult := { initialQuantity := quantity }
  if quantity = 0 then .ok ({ out with code := .invalidQuantity }, b)
  else do
    let m ← matchingEngineMarket side b out orderId quantity
    let out := { m.out with remainingQuantity := m.quantity }
    if m.quantity = 0 then pure ({ out with code := .success }, m.book)
    else pure ({ out with code := .marketRemainderCancelled }, m.book)

/-- `o->parent_level->erase(*o)` and `pool_.release(o)`. -/
def removeOrder (b : OrderBook S R) (o : ℕ) : Exec (OrderBook S R) :=
  match (b.pool.slots o).parentLevel with
  | none => .error .nullPointer
  | some (s, r) =>
    let e := (level (b.book s) r).erase b.pool o
    .ok ({ b with pool := e.2.release o }.setBook s (setLevel (b.book s) r e.1))

def cancelOrder (b : OrderBook S R) (h : OrderHandle) : Exec (ErrorCode × OrderBook S R) := do
  let o ← b.pool.resolve h
  let b ← b.removeOrder o
  pure (.success, b)

def modifyOrder (b : OrderBook S R) (h : OrderHandle) (side : Side) (price : Int)
    (quantity timestamp : UInt64) : Exec (AddResult × OrderBook S R) := do
  let o ← b.pool.resolve h
  let orderId := (b.pool.slots o).id
  let b ← b.removeOrder o
  b.addLimitOrder orderId side price quantity timestamp

def exec (b : OrderBook S R) : Op → Exec (Reply × OrderBook S R)
  | .limit orderId side price quantity timestamp => do
    let r ← b.addLimitOrder orderId side price quantity timestamp
    pure (.added r.1, r.2)
  | .market orderId side quantity timestamp => do
    let r ← b.addMarketOrder orderId side quantity timestamp
    pure (.added r.1, r.2)
  | .modify h side price quantity timestamp => do
    let r ← b.modifyOrder h side price quantity timestamp
    pure (.added r.1, r.2)
  | .cancel h => do
    let r ← b.cancelOrder h
    pure (.cancelled r.1, r.2)

end OrderBook

end Llmes
