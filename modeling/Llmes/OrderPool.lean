import Llmes.Types
import Llmes.Lib.Intrusive

namespace Llmes

open Intrusive

variable {R : Type}

structure PriceLevel where
  head : Option ℕ := none
  tail : Option ℕ := none
  deriving DecidableEq

/-- Nodes are addressed by their index in `pool_`. -/
structure OrderPool (R : Type) where
  slots : ℕ → Order R
  capacity : ℕ
  freeHead : Option ℕ

namespace OrderPool

def modify (p : OrderPool R) (i : ℕ) (f : Order R → Order R) : OrderPool R :=
  { p with slots := Function.update p.slots i (f (p.slots i)) }

def setPrev (p : OrderPool R) (i : ℕ) (v : Option ℕ) : OrderPool R :=
  p.modify i (fun o => { o with prev := v })

def setNext (p : OrderPool R) (i : ℕ) (v : Option ℕ) : OrderPool R :=
  p.modify i (fun o => { o with next := v })

def init : ℕ → OrderPool R
  | 0 => ⟨fun _ => {}, 0, none⟩
  | n + 1 =>
    let p := init n
    { p.setNext n p.freeHead with capacity := n + 1, freeHead := some n }

def acquire (p : OrderPool R) : OrderHandle × OrderPool R :=
  match p.freeHead with
  | none => (kInvalidHandle, p)
  | some o =>
    (UInt32.ofNat o, { (p.setPrev o none).setNext o none with freeHead := (p.slots o).next })

def release (p : OrderPool R) (o : ℕ) : OrderPool R :=
  { p.setNext o p.freeHead with freeHead := some o }

def resolve (p : OrderPool R) (h : OrderHandle) : Exec ℕ :=
  if h = kInvalidHandle then .error .assertion
  else if h.toNat < p.capacity then .ok h.toNat
  else .error .assertion

def links (p : OrderPool R) : Links ℕ :=
  ⟨fun i => (p.slots i).prev, fun i => (p.slots i).next⟩

end OrderPool

namespace PriceLevel

def empty (l : PriceLevel) : Bool := l.head.isNone

def front (l : PriceLevel) : Exec ℕ :=
  match l.head with
  | some o => .ok o
  | none => .error .nullPointer

def pushBack (l : PriceLevel) (p : OrderPool R) (o : ℕ) : PriceLevel × OrderPool R :=
  let p := (p.setPrev o l.tail).setNext o none
  match l.tail with
  | some t => (⟨l.head, some o⟩, p.setNext t (some o))
  | none => (⟨some o, some o⟩, p)

def erasePrev (l : PriceLevel) (p : OrderPool R) (o : ℕ) : PriceLevel × OrderPool R :=
  match (p.slots o).prev with
  | some q => (l, p.setNext q (p.slots o).next)
  | none => ({ l with head := (p.slots o).next }, p)

def eraseNext (l : PriceLevel) (p : OrderPool R) (o : ℕ) : PriceLevel × OrderPool R :=
  match (p.slots o).next with
  | some n => (l, p.setPrev n (p.slots o).prev)
  | none => ({ l with tail := (p.slots o).prev }, p)

def erase (l : PriceLevel) (p : OrderPool R) (o : ℕ) : PriceLevel × OrderPool R :=
  let r := erasePrev l p o
  let r := eraseNext r.1 r.2 o
  (r.1, (r.2.setPrev o none).setNext o none)

def anchor (l : PriceLevel) : Anchor ℕ := ⟨l.head, l.tail⟩

end PriceLevel

def Order.payload (o : Order R) : Order R := { o with prev := none, next := none }

namespace OrderPool

@[simp] theorem modify_slots (p : OrderPool R) (i j : ℕ) (f : Order R → Order R) :
    (p.modify i f).slots j = if j = i then f (p.slots i) else p.slots j := by
  simp [modify, Function.update_apply]

theorem modify_congr {p : OrderPool R} {i : ℕ} {f g : Order R → Order R}
    (h : f (p.slots i) = g (p.slots i)) : p.modify i f = p.modify i g := by
  rw [modify, modify, h]

@[simp] theorem modify_capacity (p : OrderPool R) (i : ℕ) (f : Order R → Order R) :
    (p.modify i f).capacity = p.capacity := rfl

@[simp] theorem modify_freeHead (p : OrderPool R) (i : ℕ) (f : Order R → Order R) :
    (p.modify i f).freeHead = p.freeHead := rfl

@[simp] theorem setPrev_capacity (p : OrderPool R) (i : ℕ) (v : Option ℕ) :
    (p.setPrev i v).capacity = p.capacity := rfl

@[simp] theorem setNext_capacity (p : OrderPool R) (i : ℕ) (v : Option ℕ) :
    (p.setNext i v).capacity = p.capacity := rfl

@[simp] theorem setPrev_freeHead (p : OrderPool R) (i : ℕ) (v : Option ℕ) :
    (p.setPrev i v).freeHead = p.freeHead := rfl

@[simp] theorem setNext_freeHead (p : OrderPool R) (i : ℕ) (v : Option ℕ) :
    (p.setNext i v).freeHead = p.freeHead := rfl

@[simp] theorem links_prev (p : OrderPool R) (i : ℕ) : p.links.prev i = (p.slots i).prev := rfl

@[simp] theorem links_next (p : OrderPool R) (i : ℕ) : p.links.next i = (p.slots i).next := rfl

theorem links_setNext (p : OrderPool R) (i : ℕ) (v : Option ℕ) :
    (p.setNext i v).links = p.links.setNext i v := by
  simp only [links, setNext, Links.setNext, Links.mk.injEq]
  constructor <;> funext j <;> by_cases hj : j = i <;> simp [hj]

theorem links_setPrev (p : OrderPool R) (i : ℕ) (v : Option ℕ) :
    (p.setPrev i v).links = p.links.setPrev i v := by
  simp only [links, setPrev, Links.setPrev, Links.mk.injEq]
  constructor <;> funext j <;> by_cases hj : j = i <;> simp [hj]

@[simp] theorem payload_setPrev (p : OrderPool R) (i j : ℕ) (v : Option ℕ) :
    ((p.setPrev i v).slots j).payload = (p.slots j).payload := by
  by_cases hj : j = i <;> simp [setPrev, Order.payload, hj]

@[simp] theorem payload_setNext (p : OrderPool R) (i j : ℕ) (v : Option ℕ) :
    ((p.setNext i v).slots j).payload = (p.slots j).payload := by
  by_cases hj : j = i <;> simp [setNext, Order.payload, hj]

@[simp] theorem init_capacity (n : ℕ) : (init n : OrderPool R).capacity = n := by
  cases n <;> rfl

theorem init_freeHead (n : ℕ) : (init n : OrderPool R).freeHead = if n = 0 then none else some (n - 1) := by
  cases n <;> simp [init]

theorem init_slots (n i : ℕ) (hi : i < n) : (init n : OrderPool R).slots i =
    { next := if i = 0 then none else some (i - 1) } := by
  induction n with
  | zero => omega
  | succ n ih =>
    rcases Nat.lt_succ_iff_lt_or_eq.mp hi with h | rfl
    · simpa [init, setNext, h.ne] using ih h
    · have hdefault : (init i : OrderPool R).slots i = {} := by
        clear ih hi
        suffices h : ∀ n j, n ≤ j → (init n : OrderPool R).slots j = {} from h i i (le_refl i)
        intro n j hj
        induction n with
        | zero => rfl
        | succ n ih => simp [init, setNext, (show j ≠ n by omega), ih (by omega)]
      simp [init, setNext, hdefault, init_freeHead]

end OrderPool

namespace PriceLevel

theorem empty_iff {l : PriceLevel} : l.empty = true ↔ l.head = none := by
  simp [empty]

theorem nil_iff {l : PriceLevel} {links : Links ℕ} {os : List ℕ} (h : Represents links l.anchor os) :
    os = [] ↔ l = {} := by
  constructor
  · rintro rfl
    have := represents_nil.mp h
    obtain ⟨hd, tl⟩ := l
    simpa [anchor] using this
  · rintro rfl
    exact h.head_eq_none.mp rfl

theorem pushBack_links (l : PriceLevel) (p : OrderPool R) (o : ℕ) :
    (l.pushBack p o).2.links = (Intrusive.pushBack p.links l.anchor o).1 ∧
      (l.pushBack p o).1.anchor = (Intrusive.pushBack p.links l.anchor o).2 := by
  cases ht : l.tail <;>
    simp [pushBack, Intrusive.pushBack, anchor, ht, OrderPool.links_setNext, OrderPool.links_setPrev]

theorem erasePrev_links (l : PriceLevel) (p : OrderPool R) (o : ℕ) :
    (l.erasePrev p o).2.links = (unlinkPrev p.links l.anchor o).1 ∧
      (l.erasePrev p o).1.anchor = (unlinkPrev p.links l.anchor o).2 := by
  cases hp : (p.slots o).prev <;>
    simp [erasePrev, unlinkPrev, anchor, hp, OrderPool.links_setNext]

theorem eraseNext_links (l : PriceLevel) (p : OrderPool R) (o : ℕ) :
    (l.eraseNext p o).2.links = (unlinkNext p.links l.anchor o).1 ∧
      (l.eraseNext p o).1.anchor = (unlinkNext p.links l.anchor o).2 := by
  cases hn : (p.slots o).next <;>
    simp [eraseNext, unlinkNext, anchor, hn, OrderPool.links_setPrev]

theorem erase_links (l : PriceLevel) (p : OrderPool R) (o : ℕ) :
    (l.erase p o).2.links = (Intrusive.erase p.links l.anchor o).1 ∧
      (l.erase p o).1.anchor = (Intrusive.erase p.links l.anchor o).2 := by
  have h1 := erasePrev_links l p o
  have h2 := eraseNext_links (l.erasePrev p o).1 (l.erasePrev p o).2 o
  simp only [erase, Intrusive.erase, OrderPool.links_setPrev, OrderPool.links_setNext]
  rw [h2.1, h2.2, h1.1, h1.2]
  exact ⟨rfl, rfl⟩

theorem pushBack_payload (l : PriceLevel) (p : OrderPool R) (o i : ℕ) :
    ((l.pushBack p o).2.slots i).payload = (p.slots i).payload := by
  cases ht : l.tail <;> simp [pushBack, ht]

theorem erase_payload (l : PriceLevel) (p : OrderPool R) (o i : ℕ) :
    ((l.erase p o).2.slots i).payload = (p.slots i).payload := by
  have h1 : ((l.erasePrev p o).2.slots i).payload = (p.slots i).payload := by
    cases hp : (p.slots o).prev <;> simp [erasePrev, hp]
  have h2 (m : PriceLevel) (q : OrderPool R) :
      ((m.eraseNext q o).2.slots i).payload = (q.slots i).payload := by
    cases hn : (q.slots o).next <;> simp [eraseNext, hn]
  simp [erase, h1, h2]

@[simp] theorem pushBack_freeHead (l : PriceLevel) (p : OrderPool R) (o : ℕ) :
    (l.pushBack p o).2.freeHead = p.freeHead := by
  cases ht : l.tail <;> simp [pushBack, ht]

@[simp] theorem pushBack_capacity (l : PriceLevel) (p : OrderPool R) (o : ℕ) :
    (l.pushBack p o).2.capacity = p.capacity := by
  cases ht : l.tail <;> simp [pushBack, ht]

@[simp] theorem erase_freeHead (l : PriceLevel) (p : OrderPool R) (o : ℕ) :
    (l.erase p o).2.freeHead = p.freeHead := by
  simp only [erase, eraseNext, erasePrev, OrderPool.setNext_freeHead, OrderPool.setPrev_freeHead]
  split <;> split <;> rfl

@[simp] theorem erase_capacity (l : PriceLevel) (p : OrderPool R) (o : ℕ) :
    (l.erase p o).2.capacity = p.capacity := by
  simp only [erase, eraseNext, erasePrev, OrderPool.setNext_capacity, OrderPool.setPrev_capacity]
  split <;> split <;> rfl

end PriceLevel

end Llmes
