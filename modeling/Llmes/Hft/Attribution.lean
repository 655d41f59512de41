import Llmes.Hft.ShadowOccupancyTree
import Llmes.Hft.Tracking
import Llmes.Lib.Outcome

namespace Llmes.Hft

/-- What stops the workload: a fault of the book, `% 0`, or a vector that can grow no more. -/
inductive Halt
  | book (fault : Fault)
  | modulusZero
  | lengthError
  deriving DecidableEq

abbrev Plan (α : Type) := Except Halt α

def kNoPreviousLevelTouch : UInt64 := 0xFFFFFFFFFFFFFFFF

def kNoPreviousSlotTouch : UInt64 := 0xFFFFFFFFFFFFFFFF

structure PendingAttribution where
  occupancySetPath : OccupancySetPath := .notApplicable
  occupancyL1PopcountBefore : ℕ := 0
  priceMod8 : ℕ := 0
  levelReuseDistanceOps : UInt64 := kNoPreviousLevelTouch
  orderSlotReuseDistanceOps : UInt64 := kNoPreviousSlotTouch
  deriving DecidableEq

structure Attribution where
  bidShadowTree : ShadowOccupancyTree
  askShadowTree : ShadowOccupancyTree
  bidLastLevelTouch : Int → Option Int
  askLastLevelTouch : Int → Option Int
  attributionOpIndex : ℕ

/-- The index of a price in a shadow tree; an index past the last word is an undefined access. -/
def priceIndex (price : Int) : Plan (Fin kBitCount) :=
  if h : 0 ≤ price ∧ price.toNat < kBitCount then .ok ⟨price.toNat, h.2⟩ else .error (.book .priceRange)

def shadowCanCross (takerSide : Side) (limitPrice bestOppositePrice : Int) : Bool :=
  match takerSide with
  | .buy => limitPrice ≥ bestOppositePrice
  | .sell => limitPrice ≤ bestOppositePrice

namespace Attribution

def shadowTree (a : Attribution) : Side → ShadowOccupancyTree
  | .buy => a.bidShadowTree
  | .sell => a.askShadowTree

def withShadowTree (a : Attribution) (tree : ShadowOccupancyTree) : Side → Attribution
  | .buy => { a with bidShadowTree := tree }
  | .sell => { a with askShadowTree := tree }

def lastLevelTouch (a : Attribution) : Side → Int → Option Int
  | .buy => a.bidLastLevelTouch
  | .sell => a.askLastLevelTouch

def touch (a : Attribution) (side : Side) (price at_ : Int) : Attribution :=
  match side with
  | .buy => { a with bidLastLevelTouch := Function.update a.bidLastLevelTouch price (some at_) }
  | .sell => { a with askLastLevelTouch := Function.update a.askLastLevelTouch price (some at_) }

def touchLevel (a : Attribution) (side : Side) (price : Int) : Attribution :=
  a.touch side price a.attributionOpIndex

def setShadowLevel (a : Attribution) (side : Side) (price : Int) : Plan Attribution := do
  let bit ← priceIndex price
  pure (a.withShadowTree ((a.shadowTree side).set bit) side)

def clearShadowLevel (a : Attribution) (side : Side) (price : Int) : Plan Attribution := do
  let bit ← priceIndex price
  pure (a.withShadowTree ((a.shadowTree side).clear bit) side)

def shadowBestPrice (a : Attribution) (side : Side) : Option Int :=
  ((a.shadowTree side).best side.isAsk).map (fun bit : ℕ => (bit : Int))

def annotateLevelReuse (a : Attribution) (attribution : PendingAttribution) (side : Side) (price : Int) :
    PendingAttribution :=
  let attribution := { attribution with priceMod8 := (price % 8).toNat }
  match a.lastLevelTouch side price with
  | none => { attribution with levelReuseDistanceOps := kNoPreviousLevelTouch }
  | some touched =>
    { attribution with levelReuseDistanceOps := UInt64.ofInt (a.attributionOpIndex - touched) }

def annotateAdd (a : Attribution) (attribution : PendingAttribution) (side : Side) (price : Int) :
    Plan PendingAttribution := do
  let attribution := a.annotateLevelReuse attribution side price
  let idx ← priceIndex price
  pure { attribution with
    occupancySetPath := (a.shadowTree side).classifySet idx
    occupancyL1PopcountBefore := (a.shadowTree side).l1Popcount idx }

/-- The `while (true)` of `apply_matching_attribution`, with a bound on its rounds. -/
def clearLeading (takerSide : Side) (limitPrice : Option Int) (hasPriceLevel : Int → Bool) :
    ℕ → Bool → Attribution → Plan Attribution
  | fuel, clearedAny, a =>
    match a.shadowBestPrice takerSide.opposite with
    | none => .ok a
    | some best =>
      if hasPriceLevel best then
        .ok (if clearedAny then a.touchLevel takerSide.opposite best else a)
      else if limitPrice.any (fun limitPrice => !shadowCanCross takerSide limitPrice best) then .ok a
      else
        match fuel with
        | 0 => .error (.book .loopBound)
        | fuel + 1 => do
          let a ← (a.touchLevel takerSide.opposite best).clearShadowLevel takerSide.opposite best
          clearLeading takerSide limitPrice hasPriceLevel fuel true a

def applyMatchingAttribution (a : Attribution) (takerSide : Side) (limitPrice : Option Int)
    (trades : List Trade) (hasPriceLevel : Int → Bool) : Plan Attribution :=
  let a := trades.foldl (fun a trade => a.touchLevel takerSide.opposite trade.price) a
  clearLeading takerSide limitPrice hasPriceLevel kBitCount false a

def resetLevel (side : Side) (a : Attribution) (price : Int) : Plan Attribution := do
  let a ← a.setShadowLevel side price
  pure (a.touch side price (-1))

def reset : Attribution := ⟨.reset, .reset, fun _ => none, fun _ => none, 0⟩

def resetAttributionState (t : Tracking) : Plan Attribution := do
  let a ← (t.bidLevelCounts.entries.map Prod.fst).foldlM (resetLevel .buy) reset
  (t.askLevelCounts.entries.map Prod.fst).foldlM (resetLevel .sell) a

end Attribution

end Llmes.Hft
