import Llmes.Hft.Offsets
import Llmes.Simulation

namespace Llmes

open OrderBook

def Indexed (price : Int) : Prop := 0 ≤ price ∧ price < kBitCount

def Op.Indexed (op : Op) : Prop := ∀ price ∈ op.price, Llmes.Indexed price

theorem Op.indexed_of_price {op : Op} {price : Int} (h : op.price = some price) : op.Indexed ↔ Llmes.Indexed price := by
  rw [Op.Indexed, h]
  exact ⟨fun hop => hop price rfl, fun hp p hp' => Option.some.inj hp' ▸ hp⟩

theorem Op.indexed_of_none {op : Op} (h : op.price = none) : op.Indexed := by
  rw [Op.Indexed, h]
  exact fun p hp => by cases hp

namespace Hft

variable {enableAttribution : Bool}

/-- A drawn sell is not too far above the reference. A buy is clamped at 1, and is below the reference. -/
def AddFits (w : MacroWorkload enableAttribution) : Prop :=
  sideOf (w.paramRng.get 0) = .sell → refPrice w.bestAsk + drawnOffset (w.paramRng.get 1) < kBitCount

/-- A drawn modify does not leave the range on either side. Neither of its directions is clamped. -/
def Draws.ModifyFits (d : Draws) (oldPrice : Int) : Prop :=
  if d.paramRng.get 1 % 2 = 0 then 1 + ((d.paramRng.get 0 % 3).toNat : Int) ≤ oldPrice
  else oldPrice + (1 + ((d.paramRng.get 0 % 3).toNat : Int)) < kBitCount

def ModifyFits (w : MacroWorkload enableAttribution) : Prop :=
  ∀ target t d m, w.toTracking.selectCancelTarget w.toDraws = .ok (target, t, d) →
    w.restingOrders.find? target = some m → d.ModifyFits m.price

def FallbackFits (w : MacroWorkload enableAttribution) : Prop := w.restingOrders.isEmpty = true → AddFits w

def DrawnFits (w : MacroWorkload enableAttribution) : Prop :=
  let roll := w.toDraws.nextEvent.1
  let w : MacroWorkload enableAttribution := { w with toDraws := w.toDraws.nextEvent.2 }
  if roll % 100 < 45 then AddFits w
  else if roll % 100 < 93 then FallbackFits w
  else if roll % 100 < 98 then FallbackFits w ∧ (w.restingOrders.isEmpty = false → ModifyFits w)
  else FallbackFits w

def WarmupFits (w : MacroWorkload enableAttribution) : Prop :=
  (∀ targetId, w.clusterQueue.getLast? = some targetId → w.bookHandles.find? targetId = none) → DrawnFits w

def PlanFits (w : MacroWorkload enableAttribution) : Prop := w.pregenQueue = [] → DrawnFits w

theorem drawnOffset_pos (r : UInt64) : 0 < drawnOffset r := by
  rw [drawnOffset]
  split
  · exact Nat.one_pos
  · next h => exact Nat.pos_of_ne_zero h

theorem refPrice_range {bestAsk : Int} (h : bestAsk < kBitCount) : 0 < refPrice bestAsk ∧ refPrice bestAsk < kBitCount := by
  rw [refPrice]
  split
  · next hpos => exact ⟨hpos, h⟩
  · rw [kBitCount]
    omega

theorem AddFits.iff_indexed {w : MacroWorkload enableAttribution} (h : w.bestAsk < kBitCount) :
    AddFits w ↔ Indexed (w.toDraws.limit w.bestAsk).1.price := by
  have hpos := drawnOffset_pos (w.paramRng.get 1)
  obtain ⟨hlow, hhigh⟩ := refPrice_range h
  rw [AddFits, limit_price, Indexed]
  cases sideOf (w.paramRng.get 0) with
  | buy =>
    refine iff_of_true (fun h => by cases h) ⟨?_, ?_⟩
    · exact zero_le_one.trans (le_max_left _ _)
    · exact max_lt (by omega) (by omega)
  | sell =>
    change (_ → _) ↔ 0 ≤ refPrice w.bestAsk + (drawnOffset (w.paramRng.get 1) : Int) ∧
      refPrice w.bestAsk + (drawnOffset (w.paramRng.get 1) : Int) < kBitCount
    rw [imp_iff_right rfl]
    omega

theorem Draws.ModifyFits.iff_indexed {d : Draws} {oldPrice : Int} (h : Indexed oldPrice) :
    d.ModifyFits oldPrice ↔ Indexed (d.modify oldPrice).1.price := by
  obtain ⟨hlow, hhigh⟩ := h
  change _ ↔ Indexed (oldPrice + if d.paramRng.get 1 % 2 = 0 then -(1 + ((d.paramRng.get 0 % 3).toNat : Int))
    else 1 + ((d.paramRng.get 0 % 3).toNat : Int))
  rw [ModifyFits, Indexed]
  split <;> omega

end Hft

end Llmes
