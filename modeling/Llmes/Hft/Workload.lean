import Llmes.Hft.Attribution

/-!
The macro workload: events drawn at random are applied to the book and followed in the tables; those
of the measured batch are recorded, and replayed on a book that is built again.
-/

namespace Llmes.Hft

open OrderBook

inductive MacroScenario
  | addRestExistingLevel
  | addRestNewLevel
  | cancelOrder
  | unmeasured
  deriving DecidableEq

inductive PendingType
  | limitAdd
  | cancel
  | modify
  | market
  deriving DecidableEq

structure PendingOp where
  type : PendingType := .limitAdd
  scenario : MacroScenario := .unmeasured
  side : Side := .buy
  price : Int := 0
  qty : UInt64 := 0
  targetId : UInt64 := 0
  targetHandle : OrderHandle := kInvalidHandle
  marketQty : UInt64 := 0
  oid : UInt64 := 0
  deriving DecidableEq

def PendingOp.op (op : PendingOp) : Op :=
  match op.type with
  | .limitAdd => .limit op.oid op.side op.price op.qty op.oid
  | .cancel => .cancel op.targetHandle
  | .modify => .modify op.targetHandle op.side op.price op.qty op.oid
  | .market => .market op.oid op.side op.marketQty op.oid

def replyCode : Reply → ErrorCode
  | .added out => out.code
  | .cancelled code => code

structure Call where
  before : ArrayBook
  op : Op
  reply : Reply

/-- What a run draws: the two generators, the orders in which the unordered map is iterated, and the
product `total * 0.8` of doubles, truncated. -/
structure Draws where
  eventRng : Stream' UInt64
  paramRng : Stream' UInt64
  iterations : Stream' HashOrder
  eightTenths : UInt64 → UInt64

def kQtyTable : Vector UInt64 32 :=
  #v[1, 1, 1, 2, 2, 2, 3, 3, 3, 4, 4, 4, 5, 5, 5, 5,
    5, 6, 6, 6, 7, 7, 8, 9, 10, 12, 15, 20, 30, 50, 75, 100]

def kSizes : Vector ℕ 50 :=
  #v[2, 2, 2, 2, 2, 2, 2, 2, 2, 2,
    2, 2, 2, 2, 2, 2, 2, 2, 2, 2,
    3, 3, 3, 3, 3, 3, 3, 3, 3, 3,
    4, 4, 4, 4, 4,
    5, 5, 5,
    6, 6,
    7, 8, 9, 10,
    12, 15, 30, 50, 100, 200]

structure LimitDraw where
  side : Side
  price : Int
  qty : UInt64

def sideOf (r : UInt64) : Side := if r % 2 = 0 then .buy else .sell

def refPrice (bestAsk : Int) : Int := if bestAsk > 0 then bestAsk else 1000

/-- `while ((r & 0xFF) < 161 && offset < 100) { ++offset; r >>= 8; }` -/
def offsetLoop : ℕ → UInt64 → ℕ → ℕ
  | 0, _, offset => offset
  | left + 1, r, offset => if r &&& 0xFF < 161 then offsetLoop left (r >>> 8) (offset + 1) else offset

namespace Draws

def nextEvent (d : Draws) : UInt64 × Draws := (d.eventRng.head, { d with eventRng := d.eventRng.tail })

def nextParam (d : Draws) : UInt64 × Draws := (d.paramRng.head, { d with paramRng := d.paramRng.tail })

def nextIteration (d : Draws) : HashOrder × Draws := (d.iterations.head, { d with iterations := d.iterations.tail })

/-- `resting_ids_[param_rng_.next() % resting_ids_.size()]` -/
def restingId (d : Draws) (restingIds : List UInt64) : Plan (UInt64 × Draws) :=
  if h : restingIds.length = 0 then .error .modulusZero
  else
    let (r, d) := d.nextParam
    .ok (restingIds.get ⟨r.toNat % restingIds.length, Nat.mod_lt _ (Nat.pos_of_ne_zero h)⟩, d)

def limit (d : Draws) (bestAsk : Int) : LimitDraw × Draws :=
  let (s, d) := d.nextParam
  let side := sideOf s
  let ref := refPrice bestAsk
  let (r, d) := d.nextParam
  let offset := offsetLoop 100 r 0
  let offset : Int := if offset = 0 then 1 else offset
  let price := match side with
    | .buy => max 1 (ref - offset - 1)
    | .sell => ref + offset
  let (q, d) := d.nextParam
  (⟨side, price, kQtyTable.get (Fin.ofNat 32 q.toNat)⟩, d)

def modify (d : Draws) (oldPrice : Int) : LimitDraw × Draws :=
  let (r, d) := d.nextParam
  let delta : Int := 1 + (r % 3).toNat
  let (s, d) := d.nextParam
  let newPrice := oldPrice + if s % 2 = 0 then -delta else delta
  let (q, d) := d.nextParam
  let newQty := 1 + q % 20
  let (s, d) := d.nextParam
  (⟨sideOf s, newPrice, newQty⟩, d)

def market (d : Draws) (total : UInt64) : (Side × UInt64) × Draws :=
  let (s, d) := d.nextParam
  let (mroll, d) := d.nextParam
  let qty :=
    if mroll % 100 < 85 then max 1 (total / 4)
    else if mroll % 100 < 98 then max 1 (total / 2)
    else max 1 (d.eightTenths total)
  ((sideOf s, qty), d)

def clusterSize (d : Draws) : ℕ × Draws :=
  let (r, d) := d.nextParam
  (kSizes.get (Fin.ofNat 50 r.toNat), d)

end Draws

namespace Tracking

def searchResting (t : Tracking) (accept : RestingMeta → Bool) : ℕ → Draws → Plan (Option UInt64 × Draws)
  | 0, d => .ok (none, d)
  | attempts + 1, d => do
    let (id, d) ← d.restingId t.restingIds
    match t.restingOrders.find? id with
    | none => searchResting t accept attempts d
    | some m => if accept m then pure (some id, d) else searchResting t accept attempts d

def within (best : Int) (minDist maxDist : ℕ) (m : RestingMeta) : Bool :=
  let dist := (m.price - best).natAbs
  decide (minDist ≤ dist ∧ dist ≤ maxDist)

/-- The last resort of `select_cancel_target`: `std::advance(resting_orders_.begin(), offset)`. -/
def pickResting (t : Tracking) (d : Draws) : Plan (UInt64 × Draws) :=
  let (iteration, d) := d.nextIteration
  d.restingId (iteration.order t.restingKeys)

def selectCancelTarget (t : Tracking) (d : Draws) : Plan (UInt64 × Tracking × Draws) := do
  if t.restingOrders.isEmpty then pure (0, t, d)
  else
    let (t, d) :=
      if t.restingIds.isEmpty || t.restingIds.length > t.restingOrders.size * 8 then
        let (iteration, d) := d.nextIteration
        (t.compactRestingIds iteration, d)
      else (t, d)
    let (zroll, d) := d.nextParam
    let best := refPrice t.bestAsk
    let accept :=
      if zroll % 100 < 60 then within best 0 2
      else if zroll % 100 < 90 then within best 3 5
      else within best 6 1000000
    match ← t.searchResting accept 200 d with
    | (some id, d) => pure (id, t, d)
    | (none, d) =>
      match ← t.searchResting (fun _ => true) 100 d with
      | (some id, d) => pure (id, t, d)
      | (none, d) =>
        let (id, d) ← t.pickResting d
        pure (id, t, d)

end Tracking

/-- `calls` is history: the calls made for the batch. Nothing reads it. -/
structure MacroWorkload (enableAttribution : Bool) extends Tracking, Attribution, Draws where
  idCounter : UInt64
  clusterQueue : List UInt64
  pending : List PendingOp
  pendingAttribution : List PendingAttribution
  pregenQueue : List PendingOp
  pregenAttributionQueue : List PendingAttribution
  calls : List Call

/-- No vector has room for more elements than a difference of pointers can count. -/
def kMaxSize : ℕ := 2 ^ 63 - 1

namespace MacroWorkload

variable {enableAttribution : Bool}

def withTables (w : MacroWorkload enableAttribution) (f : Tracking → Tracking) : MacroWorkload enableAttribution :=
  { w with toTracking := f w.toTracking }

/-- A helper that starts with `if constexpr (!EnableAttribution) return;`. -/
def whenEnabled (w : MacroWorkload enableAttribution) (f : Attribution → Attribution) :
    MacroWorkload enableAttribution :=
  if enableAttribution then { w with toAttribution := f w.toAttribution } else w

def whenEnabledM (w : MacroWorkload enableAttribution) (f : Attribution → Plan Attribution) :
    Plan (MacroWorkload enableAttribution) :=
  if enableAttribution then do
    let a ← f w.toAttribution
    pure { w with toAttribution := a }
  else pure w

def call (w : MacroWorkload enableAttribution) (op : Op) : Plan (Reply × MacroWorkload enableAttribution) := do
  let r ← (w.book.exec op).mapError Halt.book
  pure (r.1, { w with book := r.2, calls := w.calls ++ [⟨w.book, op, r.1⟩] })

def nextId (w : MacroWorkload enableAttribution) : UInt64 × MacroWorkload enableAttribution :=
  (w.idCounter, { w with idCounter := w.idCounter + 1 })

def selectCancelTarget (w : MacroWorkload enableAttribution) :
    Plan (UInt64 × MacroWorkload enableAttribution) := do
  let (id, t, d) ← w.toTracking.selectCancelTarget w.toDraws
  pure (id, { w with toTracking := t, toDraws := d })

def trackRest (w : MacroWorkload enableAttribution) (id : UInt64) (side : Side) (price : Int) (res : Reply) :
    MacroWorkload enableAttribution :=
  w.withTables fun t => (t.trackAddPredicted id side price res.remaining).setHandle id res.handle res.remaining

section Warmup

def doLimitAdd (w : MacroWorkload enableAttribution) : Plan (Bool × MacroWorkload enableAttribution) := do
  let (draw, d) := w.toDraws.limit w.bestAsk
  let (oid, w) := { w with toDraws := d }.nextId
  let (res, w) ← w.call (.limit oid draw.side draw.price draw.qty oid)
  let w := w.withTables (·.applyTradeFills res.trades)
  if replyCode res = .success then
    pure (true, if res.remaining > 0 then w.trackRest oid draw.side draw.price res else w)
  else pure (false, w)

def enqueueClusterLoop (best : Int) : ℕ → MacroWorkload enableAttribution → Plan (MacroWorkload enableAttribution)
  | 0, w => .ok w
  | n + 1, w =>
    if w.restingOrders.isEmpty then .ok w
    else do
      let (found, d) ← w.toTracking.searchResting (Tracking.within best 0 3) 50 w.toDraws
      enqueueClusterLoop best n { w with toDraws := d, clusterQueue := w.clusterQueue ++ found.toList }

def enqueueClusterLegacy (w : MacroWorkload enableAttribution) : Plan (MacroWorkload enableAttribution) := do
  let (n, d) := w.toDraws.clusterSize
  let w := { w with toDraws := d }
  if n ≤ 1 then pure w else enqueueClusterLoop (refPrice w.bestAsk) n w

def doCancel (w : MacroWorkload enableAttribution) (targetId : UInt64) :
    Plan (Bool × MacroWorkload enableAttribution) :=
  match w.bookHandles.find? targetId with
  | none => .ok (false, w)
  | some h => do
    let (res, w) ← w.call (.cancel h.handle)
    if replyCode res = .success then
      let w := w.withTables fun t => (t.eraseHandle targetId).trackRemovePredicted targetId
      let (r, d) := w.toDraws.nextParam
      let w := { w with toDraws := d }
      let w ← if r % 100 < 15 then w.enqueueClusterLegacy else pure w
      pure (true, w)
    else pure (false, w)

def doCancelRandom (w : MacroWorkload enableAttribution) : Plan (Bool × MacroWorkload enableAttribution) := do
  if w.restingOrders.isEmpty then w.doLimitAdd
  else
    let (target, w) ← w.selectCancelTarget
    if target = 0 then w.doLimitAdd else w.doCancel target

def doModify (w : MacroWorkload enableAttribution) : Plan (Bool × MacroWorkload enableAttribution) := do
  if w.restingOrders.isEmpty then w.doLimitAdd
  else
    let (target, w) ← w.selectCancelTarget
    if target = 0 then w.doLimitAdd
    else
      match w.restingOrders.find? target with
      | none => w.doLimitAdd
      | some old =>
        let (draw, d) := w.toDraws.modify old.price
        let (ts, w) := { w with toDraws := d }.nextId
        match w.bookHandles.find? target with
        | none => w.doLimitAdd
        | some h =>
          let (res, w) ← w.call (.modify h.handle draw.side draw.price draw.qty ts)
          if replyCode res = .success then
            let w := w.withTables fun t =>
              ((t.eraseHandle target).trackRemovePredicted target).applyTradeFills res.trades
            pure (true, if res.remaining > 0 then w.trackRest target draw.side draw.price res else w)
          else pure (false, w)

def doMarket (w : MacroWorkload enableAttribution) : Plan (Bool × MacroWorkload enableAttribution) := do
  let total := UInt64.ofNat w.restingOrders.size
  if total = 0 then w.doLimitAdd
  else
    let ((side, qty), d) := w.toDraws.market total
    let (oid, w) := { w with toDraws := d }.nextId
    let (res, w) ← w.call (.market oid side qty oid)
    if replyCode res = .success ∨ replyCode res = .marketRemainderCancelled then
      pure (true, w.withTables (·.applyTradeFills res.trades))
    else pure (false, w)

/-- The second half of `generate_and_execute_one`, which draws an event. -/
def executeDrawn (w : MacroWorkload enableAttribution) : Plan (MacroWorkload enableAttribution) := do
  let (roll, d) := w.toDraws.nextEvent
  let w := { w with toDraws := d }
  let (_, w) ←
    if roll % 100 < 45 then w.doLimitAdd
    else if roll % 100 < 93 then w.doCancelRandom
    else if roll % 100 < 98 then w.doModify
    else w.doMarket
  pure w

def generateAndExecuteOne (w : MacroWorkload enableAttribution) : Plan (MacroWorkload enableAttribution) :=
  match w.clusterQueue.getLast? with
  | none => w.executeDrawn
  | some targetId => do
    let (done, w) ← { w with clusterQueue := w.clusterQueue.dropLast }.doCancel targetId
    if done then pure w else w.executeDrawn

end Warmup

section Pregeneration

def push (w : MacroWorkload enableAttribution) (op : PendingOp) (attribution : PendingAttribution) :
    Plan (MacroWorkload enableAttribution) :=
  if w.pending.length < kMaxSize then
    .ok { w with
      pending := w.pending ++ [op]
      pendingAttribution :=
        if enableAttribution then w.pendingAttribution ++ [attribution] else w.pendingAttribution }
  else .error .lengthError

def touchLevel (w : MacroWorkload enableAttribution) (side : Side) (price : Int) : MacroWorkload enableAttribution :=
  w.whenEnabled (·.touchLevel side price)

def annotateLevelReuse (w : MacroWorkload enableAttribution) (attribution : PendingAttribution) (side : Side)
    (price : Int) : PendingAttribution :=
  if enableAttribution then w.toAttribution.annotateLevelReuse attribution side price else attribution

def annotateAdd (w : MacroWorkload enableAttribution) (attribution : PendingAttribution) (side : Side)
    (price : Int) : Plan PendingAttribution :=
  if enableAttribution then w.toAttribution.annotateAdd attribution side price else pure attribution

def applyMatchingAttribution (w : MacroWorkload enableAttribution) (takerSide : Side) (limitPrice : Option Int)
    (trades : List Trade) : Plan (MacroWorkload enableAttribution) :=
  w.whenEnabledM (·.applyMatchingAttribution takerSide limitPrice trades (w.hasPriceLevel takerSide.opposite))

def setShadowLevel (w : MacroWorkload enableAttribution) (side : Side) (price : Int) :
    Plan (MacroWorkload enableAttribution) :=
  w.whenEnabledM (·.setShadowLevel side price)

def nextOp (w : MacroWorkload enableAttribution) : MacroWorkload enableAttribution :=
  { w with attributionOpIndex := w.attributionOpIndex + 1 }

def planRest (w : MacroWorkload enableAttribution) (id : UInt64) (side : Side) (price : Int) (res : Reply) :
    Plan (MacroWorkload enableAttribution) := do
  let w ← (w.trackRest id side price res).setShadowLevel side price
  pure (w.touchLevel side price)

def pendingLimitAdd (w : MacroWorkload enableAttribution) : Plan (MacroWorkload enableAttribution) := do
  let (draw, d) := w.toDraws.limit w.bestAsk
  let (oid, w) := { w with toDraws := d }.nextId
  let levelExistedBefore := w.hasPriceLevel draw.side draw.price
  let attribution ← w.annotateAdd {} draw.side draw.price
  let (res, w) ← w.call (.limit oid draw.side draw.price draw.qty oid)
  let scenario :=
    if replyCode res = .success ∧ res.trades = [] ∧ res.remaining > 0 then
      if levelExistedBefore then .addRestExistingLevel else .addRestNewLevel
    else .unmeasured
  let w := w.withTables (·.applyTradeFills res.trades)
  let w ← w.applyMatchingAttribution draw.side (some draw.price) res.trades
  let w ← if replyCode res = .success ∧ res.remaining > 0 then w.planRest oid draw.side draw.price res else pure w
  let w ← w.push
    { type := .limitAdd, scenario, side := draw.side, price := draw.price, qty := draw.qty, oid } attribution
  pure w.nextOp

/-- A cancel that the book has carried out, as it is recorded. The order is looked up while the
tables still have it. -/
def cancelled (w : MacroWorkload enableAttribution) (target : UInt64) (targetHandle : OrderHandle) :
    (PendingOp × PendingAttribution) × MacroWorkload enableAttribution :=
  let w := w.withTables (·.eraseHandle target)
  let op : PendingOp := { type := .cancel, scenario := .cancelOrder, targetId := target, targetHandle }
  let op :=
    match w.restingOrders.find? target with
    | some m => if enableAttribution then { op with side := m.side, price := m.price, qty := m.qty } else op
    | none => op
  let attribution := w.annotateLevelReuse {} op.side op.price
  let w := (w.touchLevel op.side op.price).withTables (·.trackRemovePredicted target)
  ((op, attribution), w.nextOp)

def forget (w : MacroWorkload enableAttribution) (target : UInt64) : MacroWorkload enableAttribution :=
  w.withTables fun t => (t.eraseHandle target).trackRemovePredicted target

def clusterAttempt (best : Int) : ℕ → MacroWorkload enableAttribution →
    Plan (Option (PendingOp × PendingAttribution) × MacroWorkload enableAttribution)
  | 0, w => .ok (none, w)
  | attempts + 1, w => do
    let (id, d) ← w.toDraws.restingId w.restingIds
    let w := { w with toDraws := d }
    match w.restingOrders.find? id with
    | none => clusterAttempt best attempts w
    | some m =>
      if Tracking.within best 0 3 m then
        match w.bookHandles.find? id with
        | none => clusterAttempt best attempts (w.withTables (·.trackRemovePredicted id))
        | some h =>
          let (res, w) ← w.call (.cancel h.handle)
          if replyCode res ≠ .success then clusterAttempt best attempts (w.forget id)
          else
            let (op, w) := w.cancelled id h.handle
            pure (some op, w)
      else clusterAttempt best attempts w

def clusterLoop (best : Int) : ℕ → MacroWorkload enableAttribution →
    Plan (List (PendingOp × PendingAttribution) × MacroWorkload enableAttribution)
  | 0, w => .ok ([], w)
  | n + 1, w =>
    if w.restingOrders.isEmpty then .ok ([], w)
    else do
      let (op, w) ← clusterAttempt best 50 w
      let (ops, w) ← clusterLoop best n w
      pure (op.toList ++ ops, w)

def enqueueClusterPending (w : MacroWorkload enableAttribution) : Plan (MacroWorkload enableAttribution) := do
  let (n, d) := w.toDraws.clusterSize
  let w := { w with toDraws := d }
  if n ≤ 1 then pure w
  else
    let (ops, w) ← clusterLoop (refPrice w.bestAsk) n w
    pure { w with
      pregenQueue := w.pregenQueue ++ (ops.map Prod.fst).reverse
      pregenAttributionQueue :=
        if enableAttribution then w.pregenAttributionQueue ++ (ops.map Prod.snd).reverse
        else w.pregenAttributionQueue }

def cancelAttempts : ℕ → MacroWorkload enableAttribution → Plan (Bool × MacroWorkload enableAttribution)
  | 0, w => .ok (false, w)
  | attempts + 1, w => do
    let (target, w) ← w.selectCancelTarget
    if target = 0 then pure (false, w)
    else
      match w.bookHandles.find? target with
      | none => cancelAttempts attempts (w.withTables (·.trackRemovePredicted target))
      | some h =>
        let (res, w) ← w.call (.cancel h.handle)
        if replyCode res ≠ .success then cancelAttempts attempts (w.forget target)
        else
          let (op, w) := w.cancelled target h.handle
          let w ← w.push op.1 op.2
          let (r, d) := w.toDraws.nextParam
          let w := { w with toDraws := d }
          let w ← if r % 100 < 15 then w.enqueueClusterPending else pure w
          pure (true, w)

def pendingCancel (w : MacroWorkload enableAttribution) : Plan (MacroWorkload enableAttribution) := do
  if w.restingOrders.isEmpty then w.pendingLimitAdd
  else
    let (done, w) ← cancelAttempts 4 w
    if done then pure w else w.pendingLimitAdd

def pendingModify (w : MacroWorkload enableAttribution) : Plan (MacroWorkload enableAttribution) := do
  if w.restingOrders.isEmpty then w.pendingLimitAdd
  else
    let (target, w) ← w.selectCancelTarget
    if target = 0 then w.pendingLimitAdd
    else
      match w.restingOrders.find? target with
      | none => w.pendingLimitAdd
      | some old =>
        let (draw, d) := w.toDraws.modify old.price
        let (oid, w) := { w with toDraws := d }.nextId
        match w.bookHandles.find? target with
        | none => (w.withTables (·.trackRemovePredicted target)).pendingLimitAdd
        | some h =>
          let (res, w) ← w.call (.modify h.handle draw.side draw.price draw.qty oid)
          if replyCode res ≠ .success then (w.forget target).pendingLimitAdd
          else
            let w := (w.touchLevel old.side old.price).withTables fun t =>
              ((t.eraseHandle target).trackRemovePredicted target).applyTradeFills res.trades
            let w ← w.applyMatchingAttribution draw.side (some draw.price) res.trades
            let w ← if res.remaining > 0 then w.planRest target draw.side draw.price res else pure w
            let w ← w.push
              { type := .modify, side := draw.side, price := draw.price, qty := draw.qty,
                targetId := target, targetHandle := h.handle, oid } {}
            pure w.nextOp

def pendingMarket (w : MacroWorkload enableAttribution) : Plan (MacroWorkload enableAttribution) := do
  let total := UInt64.ofNat w.restingOrders.size
  if total = 0 then w.pendingLimitAdd
  else
    let ((side, marketQty), d) := w.toDraws.market total
    let (oid, w) := { w with toDraws := d }.nextId
    let (res, w) ← w.call (.market oid side marketQty oid)
    let w := w.withTables (·.applyTradeFills res.trades)
    let w ← w.applyMatchingAttribution side none res.trades
    let w ← w.push { type := .market, side, marketQty, oid } {}
    pure w.nextOp

def generatePendingOne (w : MacroWorkload enableAttribution) : Plan (MacroWorkload enableAttribution) :=
  match w.pregenQueue.getLast? with
  | some op => do
    let w ← w.push op (w.pregenAttributionQueue.getLast?.getD {})
    pure { w with
      pregenQueue := w.pregenQueue.dropLast
      pregenAttributionQueue :=
        if enableAttribution then w.pregenAttributionQueue.dropLast else w.pregenAttributionQueue }
  | none =>
    let (roll, d) := w.toDraws.nextEvent
    let w := { w with toDraws := d }
    if roll % 100 < 45 then w.pendingLimitAdd
    else if roll % 100 < 93 then w.pendingCancel
    else if roll % 100 < 98 then w.pendingModify
    else w.pendingMarket

/-- `while (pending_.size() < args.batch_size) generate_pending_one();` with a bound on its rounds. -/
def pregenerate (batchSize : ℕ) : ℕ → MacroWorkload enableAttribution → Plan (MacroWorkload enableAttribution)
  | fuel, w =>
    if w.pending.length < batchSize then
      match fuel with
      | 0 => .error (.book .loopBound)
      | fuel + 1 => do
        let w ← w.generatePendingOne
        pregenerate batchSize fuel w
    else .ok w

end Pregeneration

section Setup

def rebuild (poolCapacity : ℕ) (w : MacroWorkload enableAttribution) : Plan (MacroWorkload enableAttribution) := do
  let (book, bookHandles) ← (w.toTracking.buildBookFromTracking poolCapacity).mapError Halt.book
  pure { w with book, bookHandles }

def executePending (idx ok : ℕ) (w : MacroWorkload enableAttribution) :
    Plan (ℕ × MacroWorkload enableAttribution) :=
  match w.pending[idx]? with
  | none => .error (.book .nullPointer)
  | some op => do
    let (res, w) ← w.call op.op
    let done := replyCode res = .success ∨ (op.type = .market ∧ replyCode res = .marketRemainderCancelled)
    pure (if done then ok + 1 else ok, w)

/-- `Execute(0)`, `Execute(1)`, and so on, from an index. -/
def executeFrom (idx : ℕ) : ℕ → ℕ → MacroWorkload enableAttribution → Plan (ℕ × MacroWorkload enableAttribution)
  | 0, ok, w => .ok (ok, w)
  | n + 1, ok, w => do
    let (ok, w) ← w.executePending idx ok
    executeFrom (idx + 1) n ok w

/-- The dry run of `annotate_order_slot_reuse`. `calls` is history. -/
structure SlotReplay where
  book : ArrayBook
  lastSlotAcquireOp : OrderHandle → Option Int
  attributions : List PendingAttribution
  calls : List Call

def slotReplayStep (s : SlotReplay) (i : ℕ) (op : PendingOp) : Plan SlotReplay := do
  let (res, book) ← (s.book.exec op.op).mapError Halt.book
  let s := { s with book, calls := s.calls ++ [⟨s.book, op.op, res⟩] }
  if op.type = .limitAdd ∧ replyCode res = .success ∧ res.remaining > 0 ∧ res.handle ≠ kInvalidHandle then
    let distance :=
      match s.lastSlotAcquireOp res.handle with
      | none => kNoPreviousSlotTouch
      | some j => UInt64.ofInt (i - j)
    pure { s with
      attributions := s.attributions.modify i (fun a => { a with orderSlotReuseDistanceOps := distance })
      lastSlotAcquireOp := Function.update s.lastSlotAcquireOp res.handle (some (i : Int)) }
  else pure s

def slotReplay (i : ℕ) : List PendingOp → SlotReplay → Plan SlotReplay
  | [], s => .ok s
  | op :: ops, s => do
    let s ← slotReplayStep s i op
    slotReplay (i + 1) ops s

def annotateOrderSlotReuse (w : MacroWorkload enableAttribution) :
    Plan (List Call × MacroWorkload enableAttribution) := do
  let s ← slotReplay 0 w.pending ⟨w.book, fun _ => none, w.pendingAttribution, []⟩
  pure (s.calls, { w with book := s.book, pendingAttribution := s.attributions })

def kWarmupEvents : UInt64 := 500000

def kSeeds : ℕ := 5000

def poolCapacity (batchSize : UInt64) : ℕ := (kWarmupEvents + batchSize + 50000).toNat

def start (enableAttribution : Bool) (poolCapacity : ℕ) (d : Draws) : MacroWorkload enableAttribution :=
  { book := ArrayBook.init poolCapacity
    restingOrders := OrderedMap.empty
    bookHandles := OrderedMap.empty
    restingIds := []
    askLevelCounts := OrderedMap.empty
    bidLevelCounts := OrderedMap.empty
    bestBid := 999
    bestAsk := 1000
    toAttribution := .reset
    toDraws := d
    idCounter := 1000000
    clusterQueue := []
    pending := []
    pendingAttribution := []
    pregenQueue := []
    pregenAttributionQueue := []
    calls := [] }

def seedOne (w : MacroWorkload enableAttribution) : Plan (MacroWorkload enableAttribution) := do
  let (_, w) ← w.doLimitAdd
  pure w

def seeded (enableAttribution : Bool) (poolCapacity : ℕ) (d : Draws) (n : ℕ) :
    Plan (MacroWorkload enableAttribution) :=
  Outcome.times seedOne n (start enableAttribution poolCapacity d)

def warmed (enableAttribution : Bool) (poolCapacity : ℕ) (d : Draws) (n : ℕ) :
    Plan (MacroWorkload enableAttribution) := do
  let w ← seeded enableAttribution poolCapacity d kSeeds
  Outcome.times generateAndExecuteOne n w

def beginBatch (poolCapacity : ℕ) (w : MacroWorkload enableAttribution) : Plan (MacroWorkload enableAttribution) := do
  let w ← (w.withTables Tracking.updateBestPrices).rebuild poolCapacity
  let w ← if enableAttribution then do
      let a ← Attribution.resetAttributionState w.toTracking
      pure { w with toAttribution := a }
    else pure w
  pure { w with
    pending := []
    pregenQueue := []
    pendingAttribution := if enableAttribution then [] else w.pendingAttribution
    pregenAttributionQueue := if enableAttribution then [] else w.pregenAttributionQueue
    calls := [] }

def planned (enableAttribution : Bool) (poolCapacity : ℕ) (d : Draws) (n : ℕ) :
    Plan (MacroWorkload enableAttribution) := do
  let w ← warmed enableAttribution poolCapacity d kWarmupEvents.toNat
  let w ← w.beginBatch poolCapacity
  Outcome.times generatePendingOne n w

def setup (enableAttribution : Bool) (batchSize : UInt64) (d : Draws) :
    Plan (List Call × MacroWorkload enableAttribution) := do
  let pool := poolCapacity batchSize
  let w ← warmed enableAttribution pool d kWarmupEvents.toNat
  let w ← w.beginBatch pool
  let baseRestingOrders := w.restingOrders
  let w ← pregenerate batchSize.toNat batchSize.toNat w
  let w : MacroWorkload enableAttribution := { w with
    pending := w.pending.take batchSize.toNat
    pendingAttribution :=
      if enableAttribution then w.pendingAttribution.take batchSize.toNat else w.pendingAttribution }
  let w ← { w with restingOrders := baseRestingOrders }.rebuild pool
  if enableAttribution then
    let (calls, w) ← w.annotateOrderSlotReuse
    let w ← { w with restingOrders := baseRestingOrders }.rebuild pool
    pure (calls, w)
  else pure ([], w)

end Setup

end MacroWorkload

end Llmes.Hft
