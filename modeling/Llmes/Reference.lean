import Llmes.Scope

/-!
The book that the tests replay the engine against: two maps from price to a queue of orders, in
which a level is erased as soon as it is empty and orders are named by their id.
-/

namespace Llmes

structure RefOrder where
  id : UInt64
  price : Int
  quantity : UInt64
  deriving DecidableEq

abbrev RefLevels (isAsk : Bool) := OrderedMap Int (List RefOrder) (PriceCompare isAsk)

structure ReferenceOrderBook where
  bids : RefLevels false
  asks : RefLevels true

structure RefState (isAsk : Bool) where
  remaining : UInt64
  book : RefLevels isAsk
  out : AddResult

inductive RefOp
  | limit (orderId : UInt64) (side : Side) (price : Int) (quantity timestamp : UInt64)
  | market (orderId : UInt64) (side : Side) (quantity timestamp : UInt64)
  | modify (orderId : UInt64) (side : Side) (price : Int) (quantity timestamp : UInt64)
  | cancel (orderId : UInt64)

inductive RefReply
  | added (out : AddResult)
  | cancelled (found : Bool)

namespace ReferenceOrderBook

variable {isAsk : Bool}

def empty : ReferenceOrderBook := ⟨OrderedMap.empty, OrderedMap.empty⟩

def book (b : ReferenceOrderBook) : (s : Side) → RefLevels s.isAsk
  | .buy => b.bids
  | .sell => b.asks

def setBook (b : ReferenceOrderBook) : (s : Side) → RefLevels s.isAsk → ReferenceOrderBook
  | .buy, x => { b with bids := x }
  | .sell, x => { b with asks := x }

def matchQueue (orderId : UInt64) :
    ℕ → UInt64 → List RefOrder → AddResult → Exec (UInt64 × List RefOrder × AddResult)
  | _, remaining, [], out => .ok (remaining, [], out)
  | fuel, remaining, maker :: queue, out =>
    if remaining > 0 then
      match fuel with
      | 0 => .error .loopBound
      | fuel + 1 =>
        let fill := min remaining maker.quantity
        let out := { out with
          trades := out.trades ++ [⟨orderId, maker.id, maker.price, fill⟩]
          filledQuantity := out.filledQuantity + fill }
        let maker := { maker with quantity := maker.quantity - fill }
        matchQueue orderId fuel (remaining - fill)
          (if maker.quantity = 0 then queue else maker :: queue) out
    else .ok (remaining, maker :: queue, out)

def matchLevel (orderId : UInt64) (s : RefState isAsk) : Exec (RefState isAsk) :=
  match s.book.begin? with
  | none => .error .nullPointer
  | some (price, queue) => do
    let r ← matchQueue orderId queue.length s.remaining queue s.out
    pure { remaining := r.1
           book := if r.2.1 = [] then s.book.erase price else s.book.set price r.2.1
           out := r.2.2 }

def matchLimit (orderId : UInt64) (side : Side) (limitPrice : Int) :
    ℕ → RefState isAsk → Exec (RefState isAsk)
  | fuel, s =>
    if s.remaining > 0 ∧ s.book.isEmpty = false then
      match fuel with
      | 0 => .error .loopBound
      | fuel + 1 =>
        match s.book.begin? with
        | none => .error .nullPointer
        | some (bestPrice, _) =>
          let crosses := if side = .buy then decide (limitPrice ≥ bestPrice) else decide (limitPrice ≤ bestPrice)
          if crosses then do
            let s ← matchLevel orderId s
            matchLimit orderId side limitPrice fuel s
          else .ok s
    else .ok s

def matchMarket (orderId : UInt64) : ℕ → RefState isAsk → Exec (RefState isAsk)
  | fuel, s =>
    if s.remaining > 0 ∧ s.book.isEmpty = false then
      match fuel with
      | 0 => .error .loopBound
      | fuel + 1 => do
        let s ← matchLevel orderId s
        matchMarket orderId fuel s
    else .ok s

def restOrder (b : ReferenceOrderBook) (orderId : UInt64) (side : Side) (price : Int)
    (quantity : UInt64) : ReferenceOrderBook :=
  let book := b.book side
  b.setBook side (book.set price ((book.find? price).getD [] ++ [⟨orderId, price, quantity⟩]))

def addLimitOrder (b : ReferenceOrderBook) (orderId : UInt64) (side : Side) (price : Int)
    (quantity _timestamp : UInt64) : Exec (AddResult × ReferenceOrderBook) :=
  let out : AddResult := { initialQuantity := quantity }
  if quantity = 0 then .ok ({ out with code := .invalidQuantity }, b)
  else do
    let oppo := b.book side.opposite
    let s ← matchLimit orderId side price oppo.size ⟨quantity, oppo, out⟩
    let b := b.setBook side.opposite s.book
    let out := { s.out with remainingQuantity := s.remaining }
    if s.remaining = 0 then pure ({ out with code := .success }, b)
    else pure ({ out with code := .success, handle := 0 }, b.restOrder orderId side price s.remaining)

def addMarketOrder (b : ReferenceOrderBook) (orderId : UInt64) (side : Side)
    (quantity _timestamp : UInt64) : Exec (AddResult × ReferenceOrderBook) :=
  let out : AddResult := { initialQuantity := quantity }
  if quantity = 0 then .ok ({ out with code := .invalidQuantity }, b)
  else do
    let oppo := b.book side.opposite
    let s ← matchMarket orderId oppo.size ⟨quantity, oppo, out⟩
    let b := b.setBook side.opposite s.book
    let out := { s.out with remainingQuantity := s.remaining }
    pure ({ out with code := if s.remaining = 0 then .success else .marketRemainderCancelled }, b)

def cancelFromBook (orderId : UInt64) (book : RefLevels isAsk) : Bool × RefLevels isAsk :=
  match book.entries.find? (fun level => level.2.any (fun order => order.id = orderId)) with
  | none => (false, book)
  | some (price, queue) =>
    let queue := queue.eraseP (fun order => order.id = orderId)
    (true, if queue = [] then book.erase price else book.set price queue)

def cancelOrder (b : ReferenceOrderBook) (orderId : UInt64) : Bool × ReferenceOrderBook :=
  let r := cancelFromBook orderId b.bids
  if r.1 then (true, { b with bids := r.2 })
  else
    let r := cancelFromBook orderId b.asks
    (r.1, { b with asks := r.2 })

def modifyOrder (b : ReferenceOrderBook) (orderId : UInt64) (side : Side) (price : Int)
    (quantity timestamp : UInt64) : Exec (AddResult × ReferenceOrderBook) :=
  (b.cancelOrder orderId).2.addLimitOrder orderId side price quantity timestamp

def exec (b : ReferenceOrderBook) : RefOp → Exec (RefReply × ReferenceOrderBook)
  | .limit orderId side price quantity timestamp => do
    let r ← b.addLimitOrder orderId side price quantity timestamp
    pure (.added r.1, r.2)
  | .market orderId side quantity timestamp => do
    let r ← b.addMarketOrder orderId side quantity timestamp
    pure (.added r.1, r.2)
  | .modify orderId side price quantity timestamp => do
    let r ← b.modifyOrder orderId side price quantity timestamp
    pure (.added r.1, r.2)
  | .cancel orderId =>
    let r := b.cancelOrder orderId
    .ok (.cancelled r.1, r.2)

end ReferenceOrderBook

end Llmes
