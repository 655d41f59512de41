import Llmes.ReferenceRefinement
import Llmes.Refusal
import Llmes.Lib.Outcome

/-!
The test that replays random calls on the engine and on the reference book side by side, and keeps a
map of the orders it believes to be live.
-/

namespace Llmes

open OrderBook (canCrossLimit)

structure LiveOrder where
  handle : OrderHandle := kInvalidHandle
  side : Side := .buy
  price : Int := 0
  quantity : UInt64 := 0

def IdLess (a b : UInt64) : Prop := a.toNat < b.toNat

instance : DecidableRel IdLess := fun a b => inferInstanceAs (Decidable (a.toNat < b.toNat))

instance : IsStrictTotalOrder UInt64 IdLess where
  trichotomous a b h h' := UInt64.toNat_inj.mp (by unfold IdLess at h h'; omega)
  irrefl a := by simp [IdLess]
  trans a b c h h' := by unfold IdLess at *; omega

/-- The harness's map from order id to live order. Its own iteration order is not used: the test's map
is unordered. -/
abbrev LiveMap := OrderedMap UInt64 LiveOrder IdLess

inductive Check
  | code
  | initialQuantity
  | filledQuantity
  | remainingQuantity
  | tradeCount
  | trade (index : ℕ)
  | handleValidity
  | targetIsLive
  | restingHandle
  | makerIsLive
  | makerQuantity

inductive Failure
  | stopped (f : Fault)
  | unmet (c : Check)

abbrev Test (α : Type) := Except Failure α

def expect (ok : Bool) (c : Check) : Test Unit := if ok then .ok () else .error (.unmet c)

def liftExec {α : Type} (x : Exec α) : Test α := x.mapError .stopped

def expectSameTrades : ℕ → List Trade → List Trade → Test Unit
  | i, actual :: as, expected :: es => do
    expect (actual.takerOrderId = expected.takerOrderId) (.trade i)
    expect (actual.makerOrderId = expected.makerOrderId) (.trade i)
    expect (actual.price = expected.price) (.trade i)
    expect (actual.quantity = expected.quantity) (.trade i)
    expectSameTrades (i + 1) as es
  | _, _, _ => .ok ()

def expectSameAddResult (actual expected : AddResult) : Test Unit := do
  expect (actual.code = expected.code) .code
  expect (actual.initialQuantity = expected.initialQuantity) .initialQuantity
  expect (actual.filledQuantity = expected.filledQuantity) .filledQuantity
  expect (actual.remainingQuantity = expected.remainingQuantity) .remainingQuantity
  expect (actual.trades.length = expected.trades.length) .tradeCount
  expectSameTrades 0 actual.trades expected.trades
  let actualHasHandle := decide (actual.handle ≠ kInvalidHandle)
  let expectedHasHandle := decide (expected.handle ≠ kInvalidHandle)
  expect (actualHasHandle = expectedHasHandle) .handleValidity

structure ResultHarness where
  actual : ArrayBook
  expected : ReferenceOrderBook
  live : LiveMap

namespace ResultHarness

def init (capacity : ℕ) : ResultHarness := ⟨ArrayBook.init capacity, .empty, .empty⟩

def applyTrade (live : LiveMap) (trade : Trade) : Test LiveMap :=
  match live.find? trade.makerOrderId with
  | none => .error (.unmet .makerIsLive)
  | some order => do
    expect (trade.quantity ≤ order.quantity) .makerQuantity
    let quantity := order.quantity - trade.quantity
    pure (if quantity = 0 then live.erase trade.makerOrderId
      else live.set trade.makerOrderId { order with quantity })

def applyTrades (live : LiveMap) (result : AddResult) : Test LiveMap := result.trades.foldlM applyTrade live

def applyResult (live : LiveMap) (orderId : UInt64) (side : Side) (price : Int) (result : AddResult) :
    Test LiveMap := do
  let live ← applyTrades live result
  if result.code = .success ∧ result.remainingQuantity > 0 then
    expect (result.handle ≠ kInvalidHandle) .restingHandle
    pure (live.set orderId ⟨result.handle, side, price, result.remainingQuantity⟩)
  else pure live

def addLimit (h : ResultHarness) (orderId : UInt64) (side : Side) (price : Int) (quantity timestamp : UInt64) :
    Test ResultHarness := do
  let expected ← liftExec (h.expected.addLimitOrder orderId side price quantity timestamp)
  let actual ← liftExec (h.actual.addLimitOrder orderId side price quantity timestamp)
  expectSameAddResult actual.1 expected.1
  let live ← applyResult h.live orderId side price actual.1
  pure ⟨actual.2, expected.2, live⟩

def addMarket (h : ResultHarness) (orderId : UInt64) (side : Side) (quantity timestamp : UInt64) :
    Test ResultHarness := do
  let expected ← liftExec (h.expected.addMarketOrder orderId side quantity timestamp)
  let actual ← liftExec (h.actual.addMarketOrder orderId side quantity timestamp)
  expectSameAddResult actual.1 expected.1
  let live ← applyTrades h.live actual.1
  pure ⟨actual.2, expected.2, live⟩

def modify (h : ResultHarness) (orderId : UInt64) (side : Side) (price : Int) (quantity timestamp : UInt64) :
    Test ResultHarness :=
  match h.live.find? orderId with
  | none => .error (.unmet .targetIsLive)
  | some order => do
    let live := h.live.erase orderId
    let expected ← liftExec (h.expected.modifyOrder orderId side price quantity timestamp)
    let actual ← liftExec (h.actual.modifyOrder order.handle side price quantity timestamp)
    expectSameAddResult actual.1 expected.1
    let live ← applyResult live orderId side price actual.1
    pure ⟨actual.2, expected.2, live⟩

def cancel (h : ResultHarness) (orderId : UInt64) : Test ResultHarness :=
  match h.live.find? orderId with
  | none => .error (.unmet .targetIsLive)
  | some order => do
    let actual ← liftExec (h.actual.cancelOrder order.handle)
    let expected := h.expected.cancelOrder orderId
    pure ⟨actual.2, expected.2, h.live.erase orderId⟩

def hasLiveOrders (h : ResultHarness) : Bool := !h.live.isEmpty

/-- `ids` are the keys of the map in the order in which it is walked. -/
def liveOrderAt (ids : List UInt64) (index : UInt64) : UInt64 := ids.getD (index.toNat % ids.length) 0

end ResultHarness

abbrev Rng := Stream' UInt64

def randomSide (rng : Rng) : Side × Rng := (if rng.head &&& 1 = 0 then .buy else .sell, rng.tail)

def randomPrice (rng : Rng) : Int × Rng := (1000 + (((rng.head % 41).toNat : Int) - 20), rng.tail)

structure Replay where
  harness : ResultHarness
  rng : Rng
  nextOrderId : UInt64 := 1000
  step : UInt64 := 0

namespace Replay

def init (capacity : ℕ) (rng : Rng) : Replay := { harness := .init capacity, rng }

/-- One round of `RandomStatefulReplayMatchesReferenceAddResults`. `walk` is the order in which the
unordered map is walked at this step. -/
def round (walk : UInt64 → LiveMap → List UInt64) (s : Replay) : Test Replay :=
  let roll := s.rng.head % 100
  let rng := s.rng.tail
  if s.harness.hasLiveOrders = false ∨ roll < 45 then do
    let side := randomSide rng
    let price := randomPrice side.2
    let quantity := 1 + price.2.head % 25
    let harness ← s.harness.addLimit s.nextOrderId side.1 price.1 quantity s.step
    pure ⟨harness, price.2.tail, s.nextOrderId + 1, s.step + 1⟩
  else if roll < 60 then do
    let side := randomSide rng
    let quantity := 1 + side.2.head % 80
    let harness ← s.harness.addMarket s.nextOrderId side.1 quantity s.step
    pure ⟨harness, side.2.tail, s.nextOrderId + 1, s.step + 1⟩
  else
    let target := ResultHarness.liveOrderAt (walk s.step s.harness.live) rng.head
    let rng := rng.tail
    if roll < 80 then do
      let harness ← s.harness.cancel target
      pure { s with harness, rng, step := s.step + 1 }
    else do
      let side := randomSide rng
      let price := randomPrice side.2
      let rng := price.2
      let quantity := if rng.head % 50 = 0 then (0, rng.tail) else (1 + rng.tail.head % 30, rng.tail.tail)
      let harness ← s.harness.modify target side.1 price.1 quantity.1 s.step
      pure { s with harness, rng := quantity.2, step := s.step + 1 }

def run (walk : UInt64 → LiveMap → List UInt64) (steps : ℕ) (s : Replay) : Test Replay :=
  Outcome.times (round walk) steps s

end Replay

end Llmes
