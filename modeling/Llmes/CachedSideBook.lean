import Llmes.RingBuffer
import Llmes.PriceLevelPool
import Llmes.Lib.OrderedMap

namespace Llmes

open RingBuffer

/-- One side of the book as a hot ring around the best price and a cold map of the other levels.
`dropped` is history: whether an `emplace` has found its key taken. Nothing reads it. -/
structure CachedSideBook (isAsk : Bool) where
  hot : RingBuffer isAsk
  cold : OrderedMap Int ℕ (PriceCompare isAsk)
  pool : PriceLevelPool
  dropped : Bool := false

namespace CachedSideBook

variable {isAsk : Bool}

def kLevelCapacity : ℕ := 100000

def init : CachedSideBook isAsk := ⟨{}, OrderedMap.empty, PriceLevelPool.init kLevelCapacity, false⟩

def empty (b : CachedSideBook isAsk) : Bool := b.hot.empty && b.cold.isEmpty

def bestPrice (b : CachedSideBook isAsk) : Exec Int := .ok b.hot.bestPrice

def bestLevel (b : CachedSideBook isAsk) : Exec ℕ :=
  match b.hot.bestLevel with
  | some r => .ok r
  | none => .error .nullPointer

def materialize (b : CachedSideBook isAsk) (idx : ℕ) (price : Int) :
    Exec (ℕ × CachedSideBook isAsk) := do
  let l ← b.pool.acquire
  let hot ← b.hot.insert idx price (some l.1)
  pure (l.1, { b with hot, pool := l.2 })

def coldGetOrCreate (b : CachedSideBook isAsk) (price : Int) : Exec (ℕ × CachedSideBook isAsk) :=
  match b.cold.find? price with
  | some l => .ok (l, b)
  | none => do
    let l ← b.pool.acquire
    pure (l.1, { b with cold := b.cold.set price l.1, pool := l.2 })

def emplace (b : CachedSideBook isAsk) (price : Int) (level : Option ℕ) :
    Exec (CachedSideBook isAsk) :=
  match level, b.cold.find? price with
  | none, _ => .error .nullPointer
  | some r, none => .ok { b with cold := b.cold.set price r }
  | some _, some _ => .ok { b with dropped := true }

def vacate (b : CachedSideBook isAsk) (i : ℕ) : Exec (CachedSideBook isAsk) :=
  let price := (b.hot.slots i).price
  match (b.hot.slots i).level with
  | none => .ok b
  | some r =>
    if (b.pool.levels r).empty then do
      let pool ← b.pool.release (some r)
      let hot ← b.hot.remove pool.levels i
      pure { b with hot, pool }
    else
      let e := b.hot.evict i
      { b with hot := e.2 }.emplace price e.1

def flushAllToCold (b : CachedSideBook isAsk) : Exec (CachedSideBook isAsk) := do
  let b ← (List.range ringSize).foldlM vacate b
  pure { b with hot := b.hot.reset }

def reanchorTo (b : CachedSideBook isAsk) (price : Int) : Exec (ℕ × CachedSideBook isAsk) := do
  let r ← b.hot.rank price
  let d ← checked (-r)
  if toSize d ≥ ringSize then
    let b ← b.flushAllToCold
    let hot ← b.hot.setAnchor 0 price
    { b with hot }.materialize 0 price
  else
    let newAnchorIdx := b.hot.idxOf r
    let b ← (List.range' 1 (toSize d)).foldlM
      (fun b k => b.vacate ((b.hot.anchor + ringSize - k) &&& kMask)) b
    let hot ← b.hot.setAnchor newAnchorIdx price
    { b with hot }.materialize newAnchorIdx price

def getOrCreate (b : CachedSideBook isAsk) (price : Int) : Exec (ℕ × CachedSideBook isAsk) :=
  if b.hot.empty then do
    let hot ← b.hot.setAnchor 0 price
    { b with hot }.materialize 0 price
  else do
    let r ← b.hot.rank price
    if inHotWindow r then
      let idx := b.hot.idxOf r
      let s := b.hot.slots idx
      if s.price = price then
        match s.level with
        | some l => pure (l, b)
        | none => .error .nullPointer
      else if s.level ≠ none then .error .assertion
      else b.materialize idx price
    else if r < 0 then b.reanchorTo price
    else b.coldGetOrCreate price

/-- The unbounded loop of `erase_best`, with a bound on its iterations. The return out of it is not
told from the break: the loop that the return skips has nothing to do when the cold map is empty. -/
def walk : ℕ → CachedSideBook isAsk → Exec (CachedSideBook isAsk)
  | 0, _ => .error .loopBound
  | fuel + 1, b =>
    let off := b.hot.nextLiveOffset
    if off < 0 then
      match b.cold.begin? with
      | none => .ok { b with hot := b.hot.reset }
      | some e => do
        let hot ← b.hot.setAnchor 0 e.1
        let hot ← hot.insert 0 e.1 (some e.2)
        pure { b with hot, cold := b.cold.eraseBegin }
    else do
      let idx := ((b.hot.anchor + toSize off) % 2 ^ 64) &&& kMask
      let hot ← b.hot.setAnchor idx (b.hot.slots idx).price
      match (hot.slots idx).level with
      | none => .error .nullPointer
      | some r =>
        if (b.pool.levels r).empty then
          let pool ← b.pool.release (some r)
          let hot ← hot.remove pool.levels idx
          walk fuel { b with hot, pool }
        else pure { b with hot }

def promoteCold (b : CachedSideBook isAsk) : Exec (CachedSideBook isAsk) :=
  match b.cold.begin? with
  | none => .error .nullPointer
  | some e => do
    let r ← b.hot.rank e.1
    let idx := b.hot.idxOf r
    if (b.hot.slots idx).price ≠ kNoPrice then .error .assertion
    else
      let hot ← b.hot.insert idx e.1 (some e.2)
      pure { b with hot, cold := b.cold.eraseBegin }

def coldInWindow (b : CachedSideBook isAsk) (p : Int) : Exec Bool := do
  let r ← b.hot.rank p
  pure (inHotWindow r)

def promoteAll (fuel : ℕ) (b : CachedSideBook isAsk) : Exec (CachedSideBook isAsk) :=
  match b.cold.begin? with
  | none => .ok b
  | some e => do
    let c ← b.coldInWindow e.1
    if c then
      match fuel with
      | 0 => .error .loopBound
      | fuel + 1 => do
        let r ← b.hot.rank e.1
        if r > 0 then
          let b ← b.promoteCold
          promoteAll fuel b
        else .error .assertion
    else pure b

def eraseBest (b : CachedSideBook isAsk) : Exec (CachedSideBook isAsk) :=
  match b.hot.bestLevel with
  | none => .error .assertion
  | some r =>
    if (b.pool.levels r).empty then do
      let pool ← b.pool.release (b.hot.slots b.hot.anchor).level
      let hot ← b.hot.remove pool.levels b.hot.anchor
      let b ← walk (ringSize + 1) { b with hot, pool }
      promoteAll b.cold.size b
    else .error .assertion

instance : BookSide CachedSideBook ℕ where
  empty := empty
  bestPrice := bestPrice
  bestLevel := bestLevel
  getOrCreate := getOrCreate
  eraseBest := eraseBest
  level b r := b.pool.levels r
  setLevel b r l := { b with pool := { b.pool with levels := Function.update b.pool.levels r l } }
  levelBound b := ringSize + b.cold.size

end CachedSideBook

end Llmes
