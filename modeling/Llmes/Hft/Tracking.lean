import Llmes.Scope
import Llmes.Lib.OrderedMap

namespace Llmes.Hft

instance instIsStrictTotalOrderUInt64 : IsStrictTotalOrder UInt64 (· < ·) where
  trichotomous _ _ hab hba := UInt64.le_antisymm (UInt64.not_lt.mp hba) (UInt64.not_lt.mp hab)
  irrefl := UInt64.lt_irrefl
  trans _ _ _ := UInt64.lt_trans

structure RestingMeta where
  side : Side
  price : Int
  qty : UInt64
  deriving DecidableEq

structure HandleMeta where
  handle : OrderHandle
  qty : UInt64
  deriving DecidableEq

/-- An unordered map: what it holds, without the order in which it is iterated. -/
abbrev IdMap (α : Type) := OrderedMap UInt64 α (· < ·)

structure HashOrder where
  order : List UInt64 → List UInt64
  perm : ∀ ids, (order ids).Perm ids

structure Tracking where
  book : ArrayBook
  restingOrders : IdMap RestingMeta
  bookHandles : IdMap HandleMeta
  restingIds : List UInt64
  askLevelCounts : OrderedMap Int ℕ (PriceCompare true)
  bidLevelCounts : OrderedMap Int ℕ (PriceCompare false)
  bestBid : Int
  bestAsk : Int

namespace Tracking

def levelCounts (t : Tracking) : (s : Side) → OrderedMap Int ℕ (PriceCompare s.isAsk)
  | .buy => t.bidLevelCounts
  | .sell => t.askLevelCounts

def setLevelCounts (t : Tracking) : (s : Side) → OrderedMap Int ℕ (PriceCompare s.isAsk) → Tracking
  | .buy, m => { t with bidLevelCounts := m }
  | .sell, m => { t with askLevelCounts := m }

def hasPriceLevel (t : Tracking) (side : Side) (price : Int) : Bool := ((t.levelCounts side).find? price).isSome

def updateBestPrices (t : Tracking) : Tracking :=
  { t with
    bestBid := (t.bidLevelCounts.begin?.map Prod.fst).getD 0
    bestAsk := (t.askLevelCounts.begin?.map Prod.fst).getD 1000 }

/-- `if (lc->second > 0) --lc->second; if (lc->second == 0) erase(lc);` -/
def decrement (t : Tracking) (side : Side) (price : Int) : Tracking :=
  match (t.levelCounts side).find? price with
  | none => t
  | some n =>
    let n := if n > 0 then n - 1 else n
    if n = 0 then t.setLevelCounts side ((t.levelCounts side).erase price)
    else t.setLevelCounts side ((t.levelCounts side).set price n)

def increment (t : Tracking) (side : Side) (price : Int) : Tracking :=
  t.setLevelCounts side ((t.levelCounts side).set price (((t.levelCounts side).find? price).getD 0 + 1))

def trackRemovePredicted (t : Tracking) (id : UInt64) : Tracking :=
  match t.restingOrders.find? id with
  | none => t
  | some m =>
    let t := t.decrement m.side m.price
    { t with restingOrders := t.restingOrders.erase id }.updateBestPrices

def trackAddPredicted (t : Tracking) (id : UInt64) (side : Side) (price : Int) (qty : UInt64) : Tracking :=
  let t := t.trackRemovePredicted id
  let t := { t with
    restingOrders := t.restingOrders.set id ⟨side, price, qty⟩
    restingIds := t.restingIds ++ [id] }
  (t.increment side price).updateBestPrices

def eraseHandle (t : Tracking) (id : UInt64) : Tracking := { t with bookHandles := t.bookHandles.erase id }

def setHandle (t : Tracking) (id : UInt64) (handle : OrderHandle) (qty : UInt64) : Tracking :=
  { t with bookHandles := t.bookHandles.set id ⟨handle, qty⟩ }

def applyTradeFill (t : Tracking) (trade : Trade) : Tracking :=
  match t.restingOrders.find? trade.makerOrderId with
  | none => t
  | some m =>
    if trade.quantity ≥ m.qty then
      (t.eraseHandle trade.makerOrderId).trackRemovePredicted trade.makerOrderId
    else
      let t := { t with
        restingOrders := t.restingOrders.set trade.makerOrderId { m with qty := m.qty - trade.quantity } }
      match t.bookHandles.find? trade.makerOrderId with
      | none => t
      | some h => t.setHandle trade.makerOrderId h.handle (h.qty - min h.qty trade.quantity)

/-- Every caller passes the handle table. -/
def applyTradeFills (t : Tracking) (trades : List Trade) : Tracking := trades.foldl applyTradeFill t

def restingKeys (t : Tracking) : List UInt64 := t.restingOrders.entries.map Prod.fst

def compactRestingIds (t : Tracking) (iteration : HashOrder) : Tracking :=
  { t with restingIds := iteration.order t.restingKeys }

def buildStep (restingOrders : IdMap RestingMeta) (b : ArrayBook × IdMap HandleMeta) (id : UInt64) :
    Exec (ArrayBook × IdMap HandleMeta) :=
  match restingOrders.find? id with
  | none => .ok b
  | some m => do
    let (res, book) ← b.1.addLimitOrder id m.side m.price m.qty id
    if res.code = .success ∧ res.remainingQuantity > 0 then
      pure (book, b.2.set id ⟨res.handle, res.remainingQuantity⟩)
    else pure (book, b.2)

/-- The ids are sorted first, so the order in which the table is iterated does not show. -/
def buildBookFromTracking (poolCapacity : ℕ) (t : Tracking) : Exec (ArrayBook × IdMap HandleMeta) :=
  let ids := t.restingKeys.insertionSort (· ≤ ·)
  ids.foldlM (buildStep t.restingOrders) (ArrayBook.init poolCapacity, OrderedMap.empty)

end Tracking

end Llmes.Hft
