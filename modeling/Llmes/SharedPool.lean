import Llmes.BookRep
import Llmes.Shelves
import Llmes.Lib.Machine

namespace Llmes

open Intrusive

variable {R : Type}

inductive LevelCall
  | pushBack (r o : ℕ)
  | erase (r o : ℕ)
  | front (r : ℕ)
  | empty (r : ℕ)
  | acquire
  | release (o : ℕ)

inductive LevelReply
  | done
  | order (o : ℕ)
  | isEmpty (e : Bool)
  | handle (h : OrderHandle)

structure SharedPool (R : Type) where
  levels : ℕ → PriceLevel
  orders : OrderPool R

structure LevelLists where
  queue : ℕ → List ℕ
  free : List ℕ

namespace LevelLists

def step (a : LevelLists) : LevelCall → Exec (LevelReply × LevelLists)
  | .pushBack r o => .ok (.done, { a with queue := Function.update a.queue r (a.queue r ++ [o]) })
  | .erase r o => .ok (.done, { a with queue := Function.update a.queue r ((a.queue r).erase o) })
  | .front r =>
    match a.queue r with
    | [] => .error .nullPointer
    | o :: _ => .ok (.order o, a)
  | .empty r => .ok (.isEmpty (a.queue r).isEmpty, a)
  | .acquire =>
    match a.free with
    | [] => .ok (.handle kInvalidHandle, a)
    | o :: free => .ok (.handle (UInt32.ofNat o), { a with free })
  | .release o => .ok (.done, { a with free := o :: a.free })

def Loose (a : LevelLists) (o : ℕ) : Prop := (∀ r, o ∉ a.queue r) ∧ o ∉ a.free

def InScope (a : LevelLists) : LevelCall → Prop
  | .pushBack _ o => a.Loose o
  | .erase r o => o ∈ a.queue r
  | .release o => a.Loose o
  | _ => True

end LevelLists

namespace SharedPool

def write (s : SharedPool R) (r : ℕ) (l : PriceLevel × OrderPool R) : SharedPool R :=
  ⟨Function.update s.levels r l.1, l.2⟩

def step (s : SharedPool R) : LevelCall → Exec (LevelReply × SharedPool R)
  | .pushBack r o => .ok (.done, s.write r ((s.levels r).pushBack s.orders o))
  | .erase r o => .ok (.done, s.write r ((s.levels r).erase s.orders o))
  | .front r => do
    let o ← (s.levels r).front
    pure (.order o, s)
  | .empty r => .ok (.isEmpty (s.levels r).empty, s)
  | .acquire =>
    let h := s.orders.acquire
    .ok (.handle h.1, { s with orders := h.2 })
  | .release o => .ok (.done, { s with orders := s.orders.release o })

structure Holds (s : SharedPool R) (a : LevelLists) : Prop where
  shelved : Shelved s.levels s.orders a.queue
  free : Chain s.orders.links.next s.orders.freeHead a.free none
  nodup : a.free.Nodup
  apart : ∀ r, ∀ o ∈ a.queue r, o ∉ a.free

end SharedPool

structure KeepsLinks (p p' : OrderPool R) (os : List ℕ) : Prop where
  prev : ∀ y ∉ os, p'.links.prev y = p.links.prev y
  next : ∀ y ∉ os, p'.links.next y = p.links.next y
  payload : ∀ y, (p'.slots y).payload = (p.slots y).payload
  freeHead : p'.freeHead = p.freeHead

namespace KeepsLinks

variable {p p' : OrderPool R} {os : List ℕ}

theorem represents {l : PriceLevel} {ys : List ℕ} (h : KeepsLinks p p' os) (hl : Represents p.links l.anchor ys)
    (hdis : ys.Disjoint os) : Represents p'.links l.anchor ys :=
  hl.congr (fun y hy => h.prev y (hdis hy)) (fun y hy => h.next y (hdis hy))

theorem chain {free : List ℕ} (h : KeepsLinks p p' os) (hfree : Chain p.links.next p.freeHead free none)
    (hdis : free.Disjoint os) : Chain p'.links.next p'.freeHead free none := by
  rw [h.freeHead]
  exact hfree.congr (fun y hy => h.next y (hdis hy))

end KeepsLinks

namespace PriceLevel

variable {l : PriceLevel} {p : OrderPool R} {s xs ys : List ℕ} {o : ℕ}

theorem pushBack_spec (h : Represents p.links l.anchor s) (ho : o ∉ s) :
    Represents (l.pushBack p o).2.links (l.pushBack p o).1.anchor (s ++ [o]) ∧
      KeepsLinks p (l.pushBack p o).2 (o :: s) := by
  obtain ⟨hlinks, hanchor⟩ := pushBack_links l p o
  have hframe {y : ℕ} (hy : y ∉ o :: s) := pushBack_frame h (fun hm => hy (List.mem_cons_of_mem o hm))
    (fun hyo => hy (hyo ▸ List.mem_cons_self))
  constructor
  · rw [hlinks, hanchor]
    exact pushBack_represents h ho
  · refine ⟨fun y hy => ?_, fun y hy => ?_, pushBack_payload l p o, pushBack_freeHead l p o⟩
    · rw [hlinks]
      exact (hframe hy).1
    · rw [hlinks]
      exact (hframe hy).2

theorem erase_spec (h : Represents p.links l.anchor (xs ++ o :: ys)) :
    Represents (l.erase p o).2.links (l.erase p o).1.anchor (xs ++ ys) ∧
      KeepsLinks p (l.erase p o).2 (xs ++ o :: ys) ∧
      (l.erase p o).2.links.prev o = none ∧ (l.erase p o).2.links.next o = none := by
  obtain ⟨hlinks, hanchor⟩ := erase_links l p o
  refine ⟨?_, ⟨fun y hy => ?_, fun y hy => ?_, erase_payload l p o, erase_freeHead l p o⟩, ?_⟩
  · rw [hlinks, hanchor]
    exact erase_represents h
  · rw [hlinks]
    exact (erase_frame h hy).1
  · rw [hlinks]
    exact (erase_frame h hy).2
  · rw [hlinks]
    exact erase_unlinks

end PriceLevel

namespace SharedPool

variable {s : SharedPool R} {a : LevelLists} {r o : ℕ}

namespace Holds

theorem init (n : ℕ) : Holds (R := R) ⟨fun _ => {}, OrderPool.init n⟩ ⟨fun _ => [], (List.range n).reverse⟩ where
  shelved := ⟨fun _ => represents_nil.mpr rfl, fun _ _ _ ho => by cases ho⟩
  free := by
    have hchain := FreeRep.init_chain (R := R) n n 0 (by omega)
    simp only [zero_add, List.map_id', if_true] at hchain
    rwa [← OrderPool.init_freeHead] at hchain
  nodup := List.nodup_reverse.mpr List.nodup_range
  apart r o ho := by cases ho

theorem pushBack (h : Holds s a) (ho : a.Loose o) :
    Holds (s.write r ((s.levels r).pushBack s.orders o))
      { a with queue := Function.update a.queue r (a.queue r ++ [o]) } where
  shelved := h.shelved.append ho.1
  free := by
    apply (PriceLevel.pushBack_spec (h.shelved.linked r) (ho.1 r)).2.chain h.free
    intro y hy hm
    rcases List.mem_cons.mp hm with rfl | hm
    · exact ho.2 hy
    · exact h.apart r y hm hy
  nodup := h.nodup
  apart r' o' ho' := by
    simp only [Function.update_apply] at ho'
    split at ho'
    · rcases List.mem_append.mp ho' with ho' | ho'
      · exact h.apart r o' ho'
      · rw [List.mem_singleton.mp ho']
        exact ho.2
    · exact h.apart r' o' ho'

theorem erase (h : Holds s a) (ho : o ∈ a.queue r) :
    Holds (s.write r ((s.levels r).erase s.orders o))
      { a with queue := Function.update a.queue r ((a.queue r).erase o) } where
  shelved := h.shelved.remove ho
  free := by
    obtain ⟨xs, ys, hxy⟩ := List.append_of_mem ho
    have hl := h.shelved.linked r
    rw [hxy] at hl
    apply (PriceLevel.erase_spec hl).2.1.chain h.free
    intro y hy hm
    rw [← hxy] at hm
    exact h.apart r y hm hy
  nodup := h.nodup
  apart r' o' ho' := by
    simp only [Function.update_apply] at ho'
    split at ho'
    · exact h.apart r o' (List.mem_of_mem_erase ho')
    · exact h.apart r' o' ho'

theorem reshelved {orders : OrderPool R} (h : Holds s a)
    (hlinks : ∀ y, y ≠ o → orders.links.prev y = s.orders.links.prev y ∧
      orders.links.next y = s.orders.links.next y) (ho : ∀ r, o ∉ a.queue r) :
    Shelved s.levels orders a.queue where
  linked r' := by
    have hne (y : ℕ) (hy : y ∈ a.queue r') : y ≠ o := by
      rintro rfl
      exact ho r' hy
    exact (h.shelved.linked r').congr (fun y hy => (hlinks y (hne y hy)).1) (fun y hy => (hlinks y (hne y hy)).2)
  apart := h.shelved.apart

theorem acquire {free : List ℕ} (h : Holds s a) (hfree : a.free = o :: free) :
    s.orders.acquire.1 = UInt32.ofNat o ∧
      Holds { s with orders := s.orders.acquire.2 } { a with free } := by
  have hchain := h.free
  have hnodup := h.nodup
  rw [hfree] at hchain hnodup
  obtain ⟨hhead, hrest⟩ := hchain
  have hlinks (y : ℕ) (hy : y ≠ o) : s.orders.acquire.2.links.prev y = s.orders.links.prev y ∧
      s.orders.acquire.2.links.next y = s.orders.links.next y := by
    simp [OrderPool.acquire, hhead, OrderPool.setNext, OrderPool.setPrev, hy]
  refine ⟨by rw [OrderPool.acquire, hhead], ⟨?_, ?_, hnodup.of_cons, ?_⟩⟩
  · apply h.reshelved hlinks
    intro r ho
    exact h.apart r o ho (by simp [hfree])
  · have hnext : s.orders.acquire.2.freeHead = s.orders.links.next o := by simp [OrderPool.acquire, hhead]
    rw [hnext]
    refine hrest.congr fun y hy => (hlinks y ?_).2
    rintro rfl
    exact (List.nodup_cons.mp hnodup).1 hy
  · intro r y hy hm
    exact h.apart r y hy (by simp [hfree, hm])

theorem acquire_nil (h : Holds s a) (hfree : a.free = []) : s.orders.acquire = (kInvalidHandle, s.orders) := by
  have hchain := h.free
  rw [hfree] at hchain
  have hhead : s.orders.freeHead = none := hchain
  rw [OrderPool.acquire, hhead]

theorem release (h : Holds s a) (ho : a.Loose o) :
    Holds { s with orders := s.orders.release o } { a with free := o :: a.free } where
  shelved := by
    refine h.reshelved (fun y hy => ?_) ho.1
    simp [OrderPool.release, OrderPool.setNext, hy]
  free := by
    refine ⟨rfl, ?_⟩
    have hself : (s.orders.release o).links.next o = s.orders.freeHead := by
      simp [OrderPool.release, OrderPool.setNext]
    rw [hself]
    refine h.free.congr fun y hy => ?_
    have hne : y ≠ o := by
      rintro rfl
      exact ho.2 hy
    simp [OrderPool.release, OrderPool.setNext, hne]
  nodup := List.nodup_cons.mpr ⟨ho.2, h.nodup⟩
  apart r y hy hm := by
    rcases List.mem_cons.mp hm with rfl | hm
    · exact ho.1 r hy
    · exact h.apart r y hy hm

theorem head_eq (h : Holds s a) (r : ℕ) : (s.levels r).head = (a.queue r).head? := (h.shelved.linked r).head

theorem step {c : LevelCall} (h : Holds s a) (hc : a.InScope c) :
    (∃ e, s.step c = .error e ∧ a.step c = .error e) ∨
    ∃ reply s' a', s.step c = .ok (reply, s') ∧ a.step c = .ok (reply, a') ∧ Holds s' a' := by
  cases c with
  | pushBack r o => exact Or.inr ⟨_, _, _, rfl, rfl, h.pushBack hc⟩
  | erase r o => exact Or.inr ⟨_, _, _, rfl, rfl, h.erase hc⟩
  | front r =>
    have hhead := h.head_eq r
    cases hq : a.queue r with
    | nil =>
      left
      rw [hq] at hhead
      exact ⟨.nullPointer, by simp [SharedPool.step, PriceLevel.front, hhead], by simp [LevelLists.step, hq]⟩
    | cons o os =>
      right
      rw [hq] at hhead
      refine ⟨.order o, s, a, ?_, by simp [LevelLists.step, hq], h⟩
      simp [SharedPool.step, PriceLevel.front, hhead]
  | empty r =>
    refine Or.inr ⟨_, s, a, rfl, ?_, h⟩
    rw [LevelLists.step, PriceLevel.empty, h.head_eq r]
    cases a.queue r <;> rfl
  | acquire =>
    right
    cases hf : a.free with
    | nil =>
      have hacq := h.acquire_nil hf
      exact ⟨.handle kInvalidHandle, s, a, by simp only [SharedPool.step, hacq], by simp only [LevelLists.step, hf], h⟩
    | cons o free =>
      obtain ⟨hhandle, hacq⟩ := h.acquire hf
      exact ⟨_, _, _, rfl, by simp only [LevelLists.step, hf, hhandle], hacq⟩
  | release o => exact Or.inr ⟨_, _, _, rfl, rfl, h.release hc⟩

end Holds

/-- What appending to a level and taking from it do to its sequence, what they leave as it is, and that
levels and the free list of one pool behave as independent lists over any sequence of calls. -/
theorem levels_are_lists :
    (∀ (l : PriceLevel) (p : OrderPool R) (xs : List ℕ) (o : ℕ), Represents p.links l.anchor xs → o ∉ xs →
      Represents (l.pushBack p o).2.links (l.pushBack p o).1.anchor (xs ++ [o]) ∧
        KeepsLinks p (l.pushBack p o).2 (o :: xs)) ∧
    (∀ (l : PriceLevel) (p : OrderPool R) (xs ys : List ℕ) (o : ℕ), Represents p.links l.anchor (xs ++ o :: ys) →
      Represents (l.erase p o).2.links (l.erase p o).1.anchor (xs ++ ys) ∧
        KeepsLinks p (l.erase p o).2 (xs ++ o :: ys) ∧
        (l.erase p o).2.links.prev o = none ∧ (l.erase p o).2.links.next o = none) ∧
    (∀ (p p' : OrderPool R) (os : List ℕ), KeepsLinks p p' os →
      (∀ (l : PriceLevel) (ys : List ℕ), Represents p.links l.anchor ys → ys.Disjoint os →
        Represents p'.links l.anchor ys) ∧
      ∀ free : List ℕ, Chain p.links.next p.freeHead free none → free.Disjoint os →
        Chain p'.links.next p'.freeHead free none) ∧
    ∀ (s : SharedPool R) (a : LevelLists), Holds s a →
      ∀ calls, Machine.Allowed LevelLists.step LevelLists.InScope a calls →
        (∃ e, Machine.runAll step s calls = .error e ∧ Machine.runAll LevelLists.step a calls = .error e) ∨
        ∃ replies s' a', Machine.runAll step s calls = .ok (replies, s') ∧
          Machine.runAll LevelLists.step a calls = .ok (replies, a') ∧ Holds s' a' := by
  refine ⟨fun _ _ _ _ h ho => PriceLevel.pushBack_spec h ho, fun _ _ _ _ _ h => PriceLevel.erase_spec h,
    fun _ _ _ h => ⟨fun _ _ hl hdis => h.represents hl hdis, fun _ hf hdis => h.chain hf hdis⟩, ?_⟩
  intro s a h calls hcalls
  exact Machine.runAll_match (fun _ _ _ h hc => h.step hc) h hcalls

theorem levels_are_lists_first : ∃ s : SharedPool ℕ,
    Machine.runAll step ⟨fun _ => {}, OrderPool.init 2⟩
      [.acquire, .pushBack 7 1, .acquire, .pushBack 7 0, .erase 7 1, .front 7] =
        .ok ([.handle 1, .done, .handle 0, .done, .done, .order 0], s) := by
  have hloose₁ : LevelLists.Loose ⟨fun _ => [], [0]⟩ 1 := by simp [LevelLists.Loose]
  have hloose₀ : LevelLists.Loose ⟨Function.update (fun _ => []) 7 [1], []⟩ 0 := by
    refine ⟨fun r => ?_, by simp⟩
    by_cases hr : r = 7 <;> simp [hr]
  have hcalls : Machine.Allowed LevelLists.step LevelLists.InScope ⟨fun _ => [], (List.range 2).reverse⟩
      [.acquire, .pushBack 7 1, .acquire, .pushBack 7 0, .erase 7 1, .front 7] := by
    refine .of_next trivial (.of_next hloose₁ (.of_next trivial (.of_next hloose₀ (.of_next ?_ (.of_next ?_ ?_)))))
    · change 1 ∈ [1, 0]
      simp
    · trivial
    · trivial
  rcases levels_are_lists.2.2.2 _ _ (Holds.init 2) _ hcalls with ⟨e, -, he⟩ | ⟨replies, s, a, hs, ha, -⟩
  · cases he
  · refine ⟨s, ?_⟩
    rw [hs, ← (Prod.mk.inj (Except.ok.inj ha)).1]
    rfl

end SharedPool

end Llmes
