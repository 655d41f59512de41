import Llmes.OrderPool

namespace Llmes

open Intrusive

structure PriceLevelPool where
  levels : ℕ → PriceLevel
  next : ℕ → Option ℕ
  capacity : ℕ
  freeHead : Option ℕ

namespace PriceLevelPool

def thread : ℕ → (ℕ → Option ℕ) × Option ℕ
  | 0 => (fun _ => none, none)
  | n + 1 => (Function.update (thread n).1 n (thread n).2, some n)

def init (capacity : ℕ) : PriceLevelPool :=
  ⟨fun _ => {}, (thread capacity).1, capacity, (thread capacity).2⟩

def acquire (p : PriceLevelPool) : Exec (ℕ × PriceLevelPool) :=
  match p.freeHead with
  | none => .error .levelPoolExhausted
  | some r => .ok (r, { p with freeHead := p.next r })

def release (p : PriceLevelPool) (level : Option ℕ) : Exec PriceLevelPool :=
  match level with
  | none => .error .assertion
  | some r =>
    if (p.levels r).empty then .ok { p with
      levels := Function.update p.levels r {}
      next := Function.update p.next r p.freeHead
      freeHead := some r }
    else .error .assertion

structure FreeList (p : PriceLevelPool) (free : List ℕ) : Prop where
  chain : Chain p.next p.freeHead free none
  fresh : ∀ r ∈ free, p.levels r = {}

variable {p : PriceLevelPool} {free : List ℕ} {r : ℕ}

def released (p : PriceLevelPool) (r : ℕ) : PriceLevelPool :=
  { p with next := Function.update p.next r p.freeHead, freeHead := some r }

theorem release_eq (h : p.levels r = {}) : p.release (some r) = .ok (p.released r) := by
  have hempty : (p.levels r).empty = true := by rw [h]; rfl
  rw [release, if_pos hempty, ← h, Function.update_eq_self]
  rfl

theorem FreeList.released (h : FreeList p free) (hr : r ∉ free) (hl : p.levels r = {}) :
    FreeList (p.released r) (r :: free) where
  chain := by
    refine ⟨rfl, ?_⟩
    simp only [PriceLevelPool.released, Function.update_self]
    refine h.chain.congr (fun i hi => ?_)
    rw [Function.update_of_ne]
    rintro rfl
    exact hr hi
  fresh i hi := by
    rcases List.mem_cons.mp hi with rfl | hi
    · exact hl
    · exact h.fresh i hi

theorem FreeList.acquire_nil (h : FreeList p []) : p.acquire = .error .levelPoolExhausted := by
  have hhead : p.freeHead = none := h.chain
  rw [acquire, hhead]

theorem FreeList.acquire_cons (h : FreeList p (r :: free)) :
    p.acquire = .ok (r, { p with freeHead := p.next r }) ∧
      FreeList { p with freeHead := p.next r } free ∧ p.levels r = {} := by
  obtain ⟨hhead, hchain⟩ := h.chain
  refine ⟨by rw [acquire, hhead], ⟨hchain, fun i hi => h.fresh i (by simp [hi])⟩, h.fresh r (by simp)⟩

theorem thread_next {k n : ℕ} (h : k < n) : (thread n).1 k = (thread k).2 := by
  induction n with
  | zero => omega
  | succ n ih =>
    rw [thread]
    by_cases hk : k = n
    · simp [hk]
    · simpa [hk] using ih (by omega)

theorem thread_chain {k n : ℕ} (h : k ≤ n) :
    Chain (thread n).1 (thread k).2 (List.range k).reverse none := by
  induction k with
  | zero => rfl
  | succ k ih =>
    rw [List.range_succ, List.reverse_append, List.reverse_singleton, List.singleton_append]
    refine ⟨rfl, ?_⟩
    rw [thread_next h]
    exact ih (by omega)

theorem init_freeList (n : ℕ) : FreeList (init n) (List.range n).reverse where
  chain := thread_chain le_rfl
  fresh _ _ := rfl

end PriceLevelPool

end Llmes
