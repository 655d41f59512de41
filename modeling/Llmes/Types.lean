import Mathlib

namespace Llmes

abbrev OrderHandle := UInt32

def kInvalidHandle : OrderHandle := 0xFFFFFFFF

def PriceCompare (isAsk : Bool) (lhs rhs : Int) : Prop :=
  if isAsk then lhs < rhs else lhs > rhs

instance (isAsk : Bool) : DecidableRel (PriceCompare isAsk) := fun lhs rhs => by
  unfold PriceCompare; infer_instance

@[simp] theorem priceCompare_ask (lhs rhs : Int) : PriceCompare true lhs rhs ↔ lhs < rhs := by
  simp [PriceCompare]

@[simp] theorem priceCompare_bid (lhs rhs : Int) : PriceCompare false lhs rhs ↔ rhs < lhs := by
  simp [PriceCompare]

instance (isAsk : Bool) : IsStrictTotalOrder Int (PriceCompare isAsk) where
  trichotomous a b := by cases isAsk <;> simp <;> omega
  irrefl a := by cases isAsk <;> simp
  trans a b c := by cases isAsk <;> simp <;> omega

inductive Side
  | buy
  | sell
  deriving DecidableEq

namespace Side

def isAsk : Side → Bool
  | buy => false
  | sell => true

instance (side : Side) : IsStrictTotalOrder Int (PriceCompare side.isAsk) := inferInstance

def opposite : Side → Side
  | buy => sell
  | sell => buy

@[simp] theorem opposite_opposite (s : Side) : s.opposite.opposite = s := by cases s <;> rfl

theorem opposite_ne (s : Side) : s.opposite ≠ s := by cases s <;> decide

theorem eq_or_eq_opposite (s t : Side) : t = s ∨ t = s.opposite := by
  cases s <;> cases t <;> simp [opposite]

end Side

structure Trade where
  takerOrderId : UInt64
  makerOrderId : UInt64
  price : Int
  quantity : UInt64
  deriving DecidableEq

inductive ErrorCode
  | success
  | invalidQuantity
  | duplicateOrderId
  | unknownOrderId
  | pendingCancelExists
  | marketRemainderCancelled
  deriving DecidableEq

structure AddResult where
  code : ErrorCode := .success
  initialQuantity : UInt64 := 0
  filledQuantity : UInt64 := 0
  remainingQuantity : UInt64 := 0
  handle : OrderHandle := kInvalidHandle
  trades : List Trade := []
  deriving DecidableEq

/-- A resting order. A level pointer is the side it belongs to and the address `R` within it. -/
structure Order (R : Type) where
  id : UInt64 := 0
  price : Int := 0
  quantity : UInt64 := 0
  timestamp : UInt64 := 0
  prev : Option ℕ := none
  next : Option ℕ := none
  parentLevel : Option (Side × R) := none

/-- What stops the program: a failed assertion, an undefined access, or the bound on a loop. -/
inductive Fault
  | poolExhausted
  | levelPoolExhausted
  | priceRange
  | assertion
  | nullPointer
  | overflow
  | loopBound
  deriving DecidableEq

abbrev Exec (α : Type) := Except Fault α

@[simp] theorem ok_bind {α β : Type} (a : α) (f : α → Exec β) :
    (Except.ok a >>= f : Exec β) = f a := rfl

@[simp] theorem error_bind {α β : Type} (e : Fault) (f : α → Exec β) :
    ((Except.error e : Exec α) >>= f : Exec β) = Except.error e := rfl

@[simp] theorem pure_eq_ok {α : Type} (a : α) : (pure a : Exec α) = .ok a := rfl

theorem bind_eq_ok {α β : Type} {x : Exec α} {f : α → Exec β} {b : β} :
    (x >>= f) = .ok b ↔ ∃ a, x = .ok a ∧ f a = .ok b := by
  cases x <;> simp

theorem ne_error_of_isOk {α : Type} {x : Exec α} {f : Fault} (h : x.isOk = true) : x ≠ .error f := by
  rintro rfl
  cases h

end Llmes
