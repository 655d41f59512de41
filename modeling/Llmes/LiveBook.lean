import Llmes.OrderBook
import Llmes.Quantity
import Llmes.Lib.OrderedMap

/-!
The book as the orders that rest in it: two ordered maps from price to queue, without empty queues,
and the free slots in the order in which they will be handed out.
-/

namespace Llmes

structure Entry where
  slot : ℕ
  id : UInt64
  price : Int
  quantity : UInt64
  timestamp : UInt64
  deriving DecidableEq

abbrev Queue := List Entry

theorem filter_slot_ne {xs ys : Queue} {e : Entry} (hnd : ((xs ++ e :: ys).map Entry.slot).Nodup) :
    (xs ++ e :: ys).filter (fun e' => e'.slot ≠ e.slot) = xs ++ ys := by
  rw [List.map_append, List.map_cons, List.nodup_append, List.nodup_cons] at hnd
  obtain ⟨-, ⟨hys, -⟩, hxs⟩ := hnd
  rw [List.filter_append, List.filter_cons_of_neg (by simp)]
  congr 1 <;> apply List.filter_eq_self.mpr <;> intro x hx <;> simp only [decide_eq_true_eq]
  · exact hxs x.slot (List.mem_map_of_mem hx) e.slot (by simp)
  · exact fun heq => hys (heq ▸ List.mem_map_of_mem hx)

abbrev Levels (isAsk : Bool) := OrderedMap Int Queue (PriceCompare isAsk)

namespace Levels

variable {isAsk : Bool}

def queue (m : Levels isAsk) (p : Int) : Queue := (m.find? p).getD []

def setQueue (m : Levels isAsk) (p : Int) (q : Queue) : Levels isAsk :=
  if q = [] then m.erase p else m.set p q

def orders (m : Levels isAsk) : List Entry := m.entries.flatMap Prod.snd

def Proper (m : Levels isAsk) : Prop := ∀ p, m.find? p ≠ some []

@[simp] theorem queue_setQueue (m : Levels isAsk) (p p' : Int) (q : Queue) :
    queue (setQueue m p q) p' = if p' = p then q else queue m p' := by
  unfold setQueue queue
  split
  · next h => rw [OrderedMap.find?_erase]; split <;> simp [h]
  · next h => rw [OrderedMap.find?_set]; split <;> simp

theorem Proper.setQueue {m : Levels isAsk} (h : Proper m) (p : Int) (q : Queue) :
    Proper (setQueue m p q) := by
  intro p'
  unfold Levels.setQueue
  split
  · rw [OrderedMap.find?_erase]
    split
    · simp
    · exact h p'
  · next hq =>
    rw [OrderedMap.find?_set]
    split
    · simpa using hq
    · exact h p'

theorem Proper.find? {m : Levels isAsk} (h : Proper m) (p : Int) :
    m.find? p = if queue m p = [] then none else some (queue m p) := by
  unfold queue
  cases hf : m.find? p with
  | none => simp
  | some q =>
    have : q ≠ [] := by rintro rfl; exact h p hf
    simp [this]

theorem ext_queue {m m' : Levels isAsk} (h : Proper m) (h' : Proper m')
    (hq : ∀ p, queue m p = queue m' p) : m = m' := by
  apply OrderedMap.ext_find?
  intro p
  rw [h.find?, h'.find?, hq]

theorem setQueue_setQueue {m : Levels isAsk} (h : Proper m) (p : Int) (q q' : Queue) :
    setQueue (setQueue m p q) p q' = setQueue m p q' := by
  apply ext_queue ((h.setQueue p q).setQueue p q') (h.setQueue p q')
  intro p'
  simp only [queue_setQueue]
  split <;> rfl

theorem setQueue_self {m : Levels isAsk} (h : Proper m) {p : Int} {q : Queue}
    (hq : queue m p = q) : setQueue m p q = m := by
  apply ext_queue (h.setQueue p q) h
  intro p'
  rw [queue_setQueue]
  split
  · next hp => rw [hp, hq]
  · rfl

theorem mem_orders {m : Levels isAsk} {e : Entry} : e ∈ orders m ↔ ∃ p, e ∈ queue m p := by
  simp only [orders, List.mem_flatMap, queue]
  constructor
  · rintro ⟨x, hx, he⟩
    exact ⟨x.1, by rw [OrderedMap.find?_of_mem hx]; exact he⟩
  · rintro ⟨p, he⟩
    cases hf : m.find? p with
    | none => simp [hf] at he
    | some q =>
      simp only [hf, Option.getD_some] at he
      exact ⟨(p, q), OrderedMap.find?_eq_some.mp hf, he⟩

theorem orders_perm (m : Levels isAsk) (p : Int) :
    (orders m).Perm (queue m p ++ orders (m.erase p)) := by
  unfold queue
  cases hf : m.find? p with
  | none => rw [OrderedMap.erase_of_find?_eq_none hf]; exact List.Perm.refl _
  | some q => exact (OrderedMap.entries_perm_erase hf).flatMap_right _

theorem orders_setQueue (m : Levels isAsk) (p : Int) (q : Queue) :
    (orders (setQueue m p q)).Perm (q ++ orders (m.erase p)) := by
  have h := orders_perm (setQueue m p q) p
  rw [queue_setQueue, if_pos rfl] at h
  refine h.trans (List.Perm.append_left _ ?_)
  have : (setQueue m p q).erase p = m.erase p := by
    apply OrderedMap.ext_find?
    intro p'
    unfold setQueue
    by_cases hp : p' = p
    · simp [hp]
    · split <;> simp [hp]
  rw [this]

theorem orders_eq_nil {m : Levels isAsk} (h : ∀ p, queue m p = []) : orders m = [] := by
  rw [List.eq_nil_iff_forall_not_mem]
  intro e he
  obtain ⟨p, hp⟩ := mem_orders.mp he
  simp [h p] at hp

theorem orders_perm_range {m : Levels isAsk} {n : ℕ}
    (h : ∀ p, queue m p ≠ [] → 0 ≤ p ∧ p < n) :
    (orders m).Perm ((List.range n).flatMap (fun i : ℕ => queue m i)) := by
  induction n generalizing m with
  | zero =>
    have : orders m = [] := orders_eq_nil (fun p => by
      by_contra hp
      have := h p hp
      omega)
    rw [this]
    exact List.Perm.refl _
  | succ n ih =>
    have hq (p : Int) : queue (m.erase (n : Int)) p = if p = n then [] else queue m p := by
      rw [queue, OrderedMap.find?_erase]
      split <;> rfl
    have hrest := ih (m := m.erase (n : Int)) (fun p hp => by
      rw [hq] at hp
      split at hp
      · exact absurd rfl hp
      · have := h p hp
        omega)
    rw [List.range_succ, List.flatMap_append, List.flatMap_singleton]
    refine (orders_perm m n).trans (List.perm_append_comm.trans (hrest.append_right _ |>.trans ?_))
    rw [List.flatMap_congr (fun i hi => by
      have := List.mem_range.mp hi
      rw [hq, if_neg (by omega)])]

theorem entries_cons_of_best {m : Levels isAsk} (h : Proper m) {p : Int} (hq : queue m p ≠ [])
    (hbest : ∀ p', queue m p' ≠ [] → p' = p ∨ PriceCompare isAsk p p') :
    ∃ rest, m.entries = (p, queue m p) :: rest := by
  have hf : m.find? p = some (queue m p) := by rw [h.find?, if_neg hq]
  have hb : m.begin? = some (p, queue m p) := by
    refine OrderedMap.begin?_of_least hf (fun p' q' hp' => hbest p' ?_)
    rw [queue, hp']
    rintro rfl
    exact h p' hp'
  cases hm : m.entries with
  | nil => simp [OrderedMap.begin?, hm] at hb
  | cons e rest =>
    simp only [OrderedMap.begin?, hm, List.head?_cons, Option.some.injEq] at hb
    exact ⟨rest, by rw [hb]⟩

end Levels

structure Fill where
  maker : Entry
  quantity : UInt64

def Fill.trade (orderId : UInt64) (f : Fill) : Trade :=
  ⟨orderId, f.maker.id, f.maker.price, f.quantity⟩

def Fill.complete (f : Fill) : Bool := f.maker.quantity - f.quantity == 0

def freed (fills : List Fill) : List ℕ := (fills.filter Fill.complete).map (fun f => f.maker.slot)

def AddResult.addFill (orderId : UInt64) (out : AddResult) (f : Fill) : AddResult :=
  { out with
    trades := out.trades ++ [f.trade orderId]
    filledQuantity := out.filledQuantity + f.quantity }

@[ext] structure Taken (α : Type) where
  fills : List Fill
  quantity : UInt64
  left : α

def takeQueue (q : UInt64) : Queue → Taken Queue
  | [] => ⟨[], q, []⟩
  | e :: es =>
    if q = 0 then ⟨[], q, e :: es⟩
    else
      let f := min q e.quantity
      if e.quantity - f = 0 then
        let t := takeQueue (q - f) es
        ⟨⟨e, f⟩ :: t.fills, t.quantity, t.left⟩
      else ⟨[⟨e, f⟩], q - f, { e with quantity := e.quantity - f } :: es⟩

def takeLevels (cross : Int → Bool) (q : UInt64) : List (Int × Queue) → Taken (List (Int × Queue))
  | [] => ⟨[], q, []⟩
  | (p, es) :: rest =>
    if q = 0 ∨ cross p = false then ⟨[], q, (p, es) :: rest⟩
    else
      let t := takeQueue q es
      if t.left = [] then
        let u := takeLevels cross t.quantity rest
        ⟨t.fills ++ u.fills, u.quantity, u.left⟩
      else ⟨t.fills, t.quantity, (p, t.left) :: rest⟩

theorem takeLevels_sorted {lt : Int → Int → Prop} (cross : Int → Bool) (q : UInt64)
    {es : List (Int × Queue)} (h : (es.map Prod.fst).Pairwise lt) :
    ((takeLevels cross q es).left.map Prod.fst).Pairwise lt := by
  induction es generalizing q with
  | nil => simp [takeLevels]
  | cons e es ih =>
    rw [takeLevels]
    split
    · exact h
    · dsimp only
      split
      · exact ih _ h.of_cons
      · exact h

structure LiveBook where
  bids : Levels false
  asks : Levels true
  free : List ℕ

namespace LiveBook

def init (capacity : ℕ) : LiveBook :=
  ⟨OrderedMap.empty, OrderedMap.empty, (List.range (capacity % 2 ^ 32)).reverse⟩

def side (A : LiveBook) : (s : Side) → Levels s.isAsk
  | .buy => A.bids
  | .sell => A.asks

def setSide (A : LiveBook) : (s : Side) → Levels s.isAsk → LiveBook
  | .buy, m => { A with bids := m }
  | .sell, m => { A with asks := m }

def queue (A : LiveBook) (s : Side) (p : Int) : Queue := Levels.queue (A.side s) p

def setQueue (A : LiveBook) (s : Side) (p : Int) (q : Queue) : LiveBook :=
  A.setSide s (Levels.setQueue (A.side s) p q)

def orders (A : LiveBook) (s : Side) : List Entry := Levels.orders (A.side s)

def slots (A : LiveBook) : List ℕ :=
  A.free ++ ((A.orders .buy).map Entry.slot ++ (A.orders .sell).map Entry.slot)

def takeSide (A : LiveBook) (s : Side) (cross : Int → Bool) (q : UInt64) : Taken (Levels s.isAsk) :=
  let t := takeLevels cross q (A.side s).entries
  ⟨t.fills, t.quantity, t.left, takeLevels_sorted cross q (A.side s).sorted⟩

def take (A : LiveBook) (taker : Side) (cross : Int → Bool) (q : UInt64) : Taken LiveBook :=
  let t := A.takeSide taker.opposite cross q
  ⟨t.fills, t.quantity,
    { A with free := (freed t.fills).reverse ++ A.free }.setSide taker.opposite t.left⟩

def rest (A : LiveBook) (orderId : UInt64) (side : Side) (price : Int)
    (remaining timestamp : UInt64) : Option (OrderHandle × LiveBook) :=
  match A.free with
  | [] => none
  | n :: free =>
    some (UInt32.ofNat n, { A with free }.setQueue side price
      (A.queue side price ++ [Entry.mk n orderId price remaining timestamp]))

def limit (A : LiveBook) (orderId : UInt64) (side : Side) (price : Int)
    (quantity timestamp : UInt64) : Option (AddResult × LiveBook) :=
  let out : AddResult := { initialQuantity := quantity }
  if quantity = 0 then some ({ out with code := .invalidQuantity }, A)
  else
    let t := A.take side (OrderBook.canCrossLimit side price) quantity
    let out := { t.fills.foldl (AddResult.addFill orderId) out with remainingQuantity := t.quantity }
    if t.quantity = 0 then some ({ out with code := .success }, t.left)
    else (t.left.rest orderId side price t.quantity timestamp).map
      (fun n => ({ out with code := .success, handle := n.1 }, n.2))

def market (A : LiveBook) (orderId : UInt64) (side : Side) (quantity : UInt64) :
    AddResult × LiveBook :=
  let out : AddResult := { initialQuantity := quantity }
  if quantity = 0 then ({ out with code := .invalidQuantity }, A)
  else
    let t := A.take side (fun _ => true) quantity
    let out := { t.fills.foldl (AddResult.addFill orderId) out with remainingQuantity := t.quantity }
    if t.quantity = 0 then ({ out with code := .success }, t.left)
    else ({ out with code := .marketRemainderCancelled }, t.left)

def locate (A : LiveBook) (i : ℕ) : Option (Side × Entry) :=
  match (A.orders .buy).find? (fun e => e.slot = i) with
  | some e => some (.buy, e)
  | none => ((A.orders .sell).find? (fun e => e.slot = i)).map (fun e => (.sell, e))

def remove (A : LiveBook) (x : Side × Entry) : LiveBook :=
  { A with free := x.2.slot :: A.free }.setQueue x.1 x.2.price
    ((A.queue x.1 x.2.price).filter (fun e => e.slot ≠ x.2.slot))

def exec (A : LiveBook) : Op → Option (Reply × LiveBook)
  | .limit orderId side price quantity timestamp =>
    (A.limit orderId side price quantity timestamp).map (fun r => (.added r.1, r.2))
  | .market orderId side quantity _ =>
    let r := A.market orderId side quantity
    some (.added r.1, r.2)
  | .modify h side price quantity timestamp =>
    match A.locate h.toNat with
    | none => none
    | some x => ((A.remove x).limit x.2.id side price quantity timestamp).map
        (fun r => (.added r.1, r.2))
  | .cancel h =>
    match A.locate h.toNat with
    | none => none
    | some x => some (.cancelled .success, A.remove x)

section Fields

variable (A : LiveBook) (s : Side) (m : Levels s.isAsk)

@[simp] theorem setSide_side_self : (A.setSide s m).side s = m := by cases s <;> rfl

theorem setSide_side_of_ne {t : Side} (h : t ≠ s) : (A.setSide s m).side t = A.side t := by
  cases s <;> cases t <;> first | rfl | exact absurd rfl h

@[simp] theorem setSide_free : (A.setSide s m).free = A.free := by cases s <;> rfl

@[simp] theorem side_withFree (f : List ℕ) : ({ A with free := f } : LiveBook).side s = A.side s := by
  cases s <;> rfl

@[simp] theorem queue_withFree (f : List ℕ) (p : Int) :
    ({ A with free := f } : LiveBook).queue s p = A.queue s p := by
  cases s <;> rfl

@[simp] theorem setQueue_free (p : Int) (q : Queue) : (A.setQueue s p q).free = A.free := by
  simp [setQueue]

theorem setQueue_side_of_ne {t : Side} (p : Int) (q : Queue) (h : t ≠ s) :
    (A.setQueue s p q).side t = A.side t := setSide_side_of_ne A s _ h

@[simp] theorem setQueue_side_self (p : Int) (q : Queue) :
    (A.setQueue s p q).side s = Levels.setQueue (A.side s) p q := setSide_side_self A s _

theorem queue_setQueue (t : Side) (p p' : Int) (q : Queue) :
    (A.setQueue s p q).queue t p' = if t = s ∧ p' = p then q else A.queue t p' := by
  by_cases h : t = s
  · subst h
    simp [queue]
  · simp [queue, setQueue_side_of_ne A s p q h, h]

theorem ext_side {A B : LiveBook} (h : ∀ s, A.side s = B.side s) (hf : A.free = B.free) : A = B := by
  obtain ⟨b, a, f⟩ := A
  obtain ⟨b', a', f'⟩ := B
  have h1 := h .buy
  have h2 := h .sell
  simp only [side] at h1 h2 hf
  rw [h1, h2, hf]

end Fields

theorem mem_orders {A : LiveBook} {s : Side} {e : Entry} :
    e ∈ A.orders s ↔ ∃ p, e ∈ A.queue s p := Levels.mem_orders

theorem slot_mem_of_order {A : LiveBook} {s : Side} {e : Entry} (he : e ∈ A.orders s) :
    e.slot ∈ A.slots := by
  have hm : e.slot ∈ (A.orders s).map Entry.slot := List.mem_map_of_mem he
  cases s <;> simp [slots, hm]

theorem slot_mem_slots {A : LiveBook} {s : Side} {p : Int} {e : Entry} (he : e ∈ A.queue s p) :
    e.slot ∈ A.slots := slot_mem_of_order (mem_orders.mpr ⟨p, he⟩)

structure Sound (A : LiveBook) : Prop where
  proper : ∀ s, Levels.Proper (A.side s)
  price : ∀ s p, ∀ e ∈ A.queue s p, e.price = p
  quantity : ∀ s p, ∀ e ∈ A.queue s p, e.quantity ≠ 0
  nodup : A.slots.Nodup

namespace Sound

variable {A : LiveBook}

theorem order (h : Sound A) {s : Side} {e : Entry} (he : e ∈ A.orders s) :
    e ∈ A.queue s e.price ∧ e.quantity ≠ 0 := by
  obtain ⟨p, hp⟩ := mem_orders.mp he
  obtain rfl := h.price s p e hp
  exact ⟨hp, h.quantity s _ e hp⟩

theorem orders_nodup (h : Sound A) (s : Side) : ((A.orders s).map Entry.slot).Nodup := by
  have hlive := (List.nodup_append.mp (List.nodup_append.mp h.nodup).2.1)
  cases s
  · exact hlive.1
  · exact hlive.2.1

theorem queue_nodup (h : Sound A) (s : Side) (p : Int) : ((A.queue s p).map Entry.slot).Nodup := by
  have hs : ((Levels.orders (A.side s)).map Entry.slot).Nodup := h.orders_nodup s
  rw [((Levels.orders_perm (A.side s) p).map Entry.slot).nodup_iff, List.map_append,
    List.nodup_append] at hs
  exact hs.1

theorem slot_not_free (h : Sound A) {s : Side} {p : Int} {e : Entry} (he : e ∈ A.queue s p) :
    e.slot ∉ A.free := by
  have hm : e.slot ∈ (A.orders s).map Entry.slot := List.mem_map_of_mem (mem_orders.mpr ⟨p, he⟩)
  intro hf
  refine (List.nodup_append.mp h.nodup).2.2 _ hf e.slot ?_ rfl
  cases s <;> simp [hm]

theorem slot_ne_of_side (h : Sound A) {s s' : Side} {e e' : Entry} (he : e ∈ A.orders s)
    (he' : e' ∈ A.orders s') (hs : s' ≠ s) : e'.slot ≠ e.slot := by
  have hdis := (List.nodup_append.mp (List.nodup_append.mp h.nodup).2.1).2.2
  have hm := List.mem_map_of_mem (f := Entry.slot) he
  have hm' := List.mem_map_of_mem (f := Entry.slot) he'
  intro heq
  cases s <;> cases s' <;>
    first
      | exact hs rfl
      | exact hdis _ hm _ hm' heq.symm
      | exact hdis _ hm' _ hm heq

theorem slot_ne (h : Sound A) {s s' : Side} {p p' : Int} {e e' : Entry} (he : e ∈ A.queue s p)
    (he' : e' ∈ A.queue s' p') (hne : ¬ (s' = s ∧ p' = p)) : e'.slot ≠ e.slot := by
  by_cases hs : s' = s
  · subst hs
    have hp : p' ≠ p := fun hp => hne ⟨rfl, hp⟩
    have hnd : ((Levels.orders (A.side s')).map Entry.slot).Nodup := h.orders_nodup s'
    rw [((Levels.orders_perm (A.side s') p).map Entry.slot).nodup_iff, List.map_append,
      List.nodup_append] at hnd
    intro heq
    refine hnd.2.2 e.slot (List.mem_map_of_mem he) e'.slot (List.mem_map_of_mem ?_) heq.symm
    rw [Levels.mem_orders]
    refine ⟨p', ?_⟩
    rw [Levels.queue, OrderedMap.find?_erase, if_neg hp]
    exact he'
  · exact h.slot_ne_of_side (mem_orders.mpr ⟨p, he⟩) (mem_orders.mpr ⟨p', he'⟩) hs

theorem order_unique (h : Sound A) {s s' : Side} {e e' : Entry} (he : e ∈ A.orders s)
    (he' : e' ∈ A.orders s') (heq : e.slot = e'.slot) : s = s' ∧ e = e' := by
  by_cases hs : s' = s
  · subst hs
    exact ⟨rfl, List.inj_on_of_nodup_map (h.orders_nodup s') he he' heq⟩
  · exact absurd heq.symm (h.slot_ne_of_side he he' hs)

end Sound

theorem slots_setQueue {A : LiveBook} {s : Side} {p : Int} {q : Queue} {free : List ℕ}
    (h : (free ++ q.map Entry.slot).Perm (A.free ++ (A.queue s p).map Entry.slot)) :
    (({ A with free } : LiveBook).setQueue s p q).slots.Perm A.slots := by
  have hs := (Levels.orders_setQueue (A.side s) p q).map Entry.slot
  have hp := (Levels.orders_perm (A.side s) p).map Entry.slot
  rw [List.map_append] at hs hp
  rw [List.perm_iff_count] at h hs hp ⊢
  intro i
  have h := h i
  have hs := hs i
  have hp := hp i
  cases s <;>
    · simp only [slots, orders, setQueue, setSide, side, queue, List.count_append] at *
      omega

end LiveBook

theorem takeQueue_zero (q : Queue) : takeQueue 0 q = ⟨[], 0, q⟩ := by
  cases q <;> simp [takeQueue]

theorem takeQueue_quantity {q : UInt64} {es : Queue} (h : (takeQueue q es).left ≠ []) :
    (takeQueue q es).quantity = 0 := by
  induction es generalizing q with
  | nil => simp [takeQueue] at h
  | cons e es ih =>
    rw [takeQueue] at h ⊢
    split
    · next hq => simpa using hq
    · next hq =>
      rw [if_neg hq] at h
      dsimp only at h ⊢
      split
      · next hf =>
        rw [if_pos hf] at h
        exact ih h
      · next hf => exact sub_min_eq_zero hf

theorem takeLevels_zero (cross : Int → Bool) (es : List (Int × Queue)) :
    takeLevels cross 0 es = ⟨[], 0, es⟩ := by
  cases es <;> simp [takeLevels]

namespace LiveBook

def settle (A : LiveBook) (fills : List Fill) (s : Side) (p : Int) (q : Queue) : LiveBook :=
  ({ A with free := (freed fills).reverse ++ A.free } : LiveBook).setQueue s p q

@[simp] theorem settle_free (A : LiveBook) (fills : List Fill) (s : Side) (p : Int) (q : Queue) :
    (A.settle fills s p q).free = (freed fills).reverse ++ A.free := by
  simp [settle]

@[simp] theorem settle_side_self (A : LiveBook) (fills : List Fill) (s : Side) (p : Int) (q : Queue) :
    (A.settle fills s p q).side s = Levels.setQueue (A.side s) p q := by
  simp [settle]

theorem settle_side_of_ne (A : LiveBook) (fills : List Fill) {s t : Side} (p : Int) (q : Queue)
    (h : t ≠ s) : (A.settle fills s p q).side t = A.side t := by
  rw [settle, setQueue_side_of_ne _ _ _ _ h, side_withFree]

theorem settle_queue_self (A : LiveBook) (fills : List Fill) (s : Side) (p : Int) (q : Queue) :
    (A.settle fills s p q).queue s p = q := by
  simp [settle, queue_setQueue]

theorem settle_settle {A : LiveBook} {s : Side} (h : Levels.Proper (A.side s)) (f g : List Fill)
    (p : Int) (q q' : Queue) : (A.settle f s p q).settle g s p q' = A.settle (f ++ g) s p q' := by
  apply ext_side
  · intro t
    by_cases ht : t = s
    · subst ht
      simp only [settle_side_self]
      exact Levels.setQueue_setQueue h p q q'
    · simp only [settle_side_of_ne _ _ _ _ ht]
  · simp [freed]

theorem settle_nil {A : LiveBook} {s : Side} (h : Levels.Proper (A.side s)) {p : Int} {q : Queue}
    (hq : A.queue s p = q) : A.settle [] s p q = A := by
  apply ext_side
  · intro t
    by_cases ht : t = s
    · subst ht
      rw [settle_side_self]
      exact Levels.setQueue_self h hq
    · rw [settle_side_of_ne _ _ _ _ ht]
  · simp [freed]

theorem ext_entries {A B : LiveBook} (h : ∀ s, (A.side s).entries = (B.side s).entries)
    (hf : A.free = B.free) : A = B :=
  ext_side (fun s => OrderedMap.ext_entries (h s)) hf

section Take

variable (A : LiveBook) (taker : Side) (cross : Int → Bool) (q : UInt64)

theorem take_fills : (A.take taker cross q).fills =
    (takeLevels cross q (A.side taker.opposite).entries).fills := rfl

theorem take_quantity : (A.take taker cross q).quantity =
    (takeLevels cross q (A.side taker.opposite).entries).quantity := rfl

@[simp] theorem take_left_free : (A.take taker cross q).left.free =
    (freed (A.take taker cross q).fills).reverse ++ A.free := by
  simp [take]

theorem take_left_entries : ((A.take taker cross q).left.side taker.opposite).entries =
    (takeLevels cross q (A.side taker.opposite).entries).left := by
  simp [take, takeSide]

theorem take_left_side_of_ne {s : Side} (h : s ≠ taker.opposite) :
    (A.take taker cross q).left.side s = A.side s := by
  simp only [take, setSide_side_of_ne _ _ _ h, side_withFree]

end Take

theorem take_zero (A : LiveBook) (taker : Side) (cross : Int → Bool) :
    A.take taker cross 0 = ⟨[], 0, A⟩ := by
  have hf : (A.take taker cross 0).fills = [] := by rw [take_fills, takeLevels_zero]
  have hq : (A.take taker cross 0).quantity = 0 := by rw [take_quantity, takeLevels_zero]
  have hl : (A.take taker cross 0).left = A := by
    refine ext_entries (fun s => ?_) (by rw [take_left_free, hf]; rfl)
    by_cases hs : s = taker.opposite
    · subst hs
      rw [take_left_entries, takeLevels_zero]
    · rw [take_left_side_of_ne _ _ _ _ hs]
  exact Taken.ext hf hq hl

theorem take_of_not_cross {A : LiveBook} {taker : Side} {cross : Int → Bool}
    (hcross : ∀ p, A.queue taker.opposite p ≠ [] → cross p = false)
    (h : Levels.Proper (A.side taker.opposite)) (q : UInt64) :
    A.take taker cross q = ⟨[], q, A⟩ := by
  have ht : takeLevels cross q (A.side taker.opposite).entries =
      ⟨[], q, (A.side taker.opposite).entries⟩ := by
    cases he : (A.side taker.opposite).entries with
    | nil => rfl
    | cons x rest =>
      have hf : (A.side taker.opposite).find? x.1 = some x.2 :=
        OrderedMap.find?_of_mem (by simp [he])
      have hx : x.2 ≠ [] := by
        intro hx
        exact h x.1 (hx ▸ hf)
      have : cross x.1 = false := hcross x.1 (by simpa [queue, Levels.queue, hf] using hx)
      rw [takeLevels, if_pos (Or.inr this)]
  have hf : (A.take taker cross q).fills = [] := by rw [take_fills, ht]
  have hq : (A.take taker cross q).quantity = q := by rw [take_quantity, ht]
  have hl : (A.take taker cross q).left = A := by
    refine ext_entries (fun s => ?_) (by rw [take_left_free, hf]; rfl)
    by_cases hs : s = taker.opposite
    · subst hs
      rw [take_left_entries, ht]
    · rw [take_left_side_of_ne _ _ _ _ hs]
  exact Taken.ext hf hq hl

theorem take_round {A : LiveBook} {taker : Side} {cross : Int → Bool} {p : Int} {q : UInt64}
    (h : Levels.Proper (A.side taker.opposite)) (hcross : cross p = true)
    (hbest : ∀ p', A.queue taker.opposite p' ≠ [] →
      p' = p ∨ PriceCompare taker.opposite.isAsk p p') :
    A.take taker cross q =
      let t := takeQueue q (A.queue taker.opposite p)
      let u := (A.settle t.fills taker.opposite p t.left).take taker cross t.quantity
      ⟨t.fills ++ u.fills, u.quantity, u.left⟩ := by
  by_cases hz : q = 0
  · subst hz
    simp only [takeQueue_zero, settle_nil h rfl, take_zero, List.append_nil]
  by_cases hq : A.queue taker.opposite p = []
  · simp only [hq, takeQueue, List.nil_append]
    rw [settle_nil h hq]
  obtain ⟨rest, he⟩ := Levels.entries_cons_of_best h hq hbest
  extract_lets t u
  have hround : takeLevels cross q (A.side taker.opposite).entries =
      let v := takeLevels cross t.quantity
        ((A.settle t.fills taker.opposite p t.left).side taker.opposite).entries
      ⟨t.fills ++ v.fills, v.quantity, v.left⟩ := by
    rw [settle_side_self, Levels.setQueue, he, takeLevels, if_neg (by simp [hz, hcross])]
    change (if t.left = [] then _ else _) = _
    by_cases hleft : t.left = []
    · rw [if_pos hleft, if_pos hleft, OrderedMap.erase_entries_of_cons he]
      rfl
    · have hzero : t.quantity = 0 := takeQueue_quantity hleft
      rw [if_neg hleft, if_neg hleft, OrderedMap.entries_set_of_cons he, hzero, takeLevels_zero]
      simp only [List.append_nil, Taken.mk.injEq]
      exact ⟨rfl, hzero, rfl⟩
  have hf : (A.take taker cross q).fills = t.fills ++ u.fills := by
    rw [take_fills, hround]; rfl
  have hu : (A.take taker cross q).quantity = u.quantity := by
    rw [take_quantity, hround]; rfl
  have hl : (A.take taker cross q).left = u.left := by
    refine ext_entries (fun s => ?_) ?_
    · by_cases hs : s = taker.opposite
      · subst hs
        rw [take_left_entries, hround]
        exact (take_left_entries _ _ _ _).symm
      · rw [take_left_side_of_ne _ _ _ _ hs, take_left_side_of_ne _ _ _ _ hs,
          settle_side_of_ne _ _ _ _ hs]
    · rw [take_left_free, take_left_free, hf, settle_free]
      simp [freed, u]
  exact Taken.ext hf hu hl

end LiveBook

end Llmes
