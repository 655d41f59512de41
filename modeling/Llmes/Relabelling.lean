import Llmes.Transition
import Llmes.Lib.MapRelation

/-!
Other names for the sides, prices, ids, timestamps and slots that a book is told of, and another unit
of quantity.
-/

namespace Llmes

open List (Forall₂)
open BookSide BookView LawfulBookSide OrderBook

/-- Prices are `known` where their order is kept; it is turned round when the sides are swapped. -/
structure Relabelling where
  swap : Bool
  known : Set Int
  price : Int → Int
  ordered : ∀ p ∈ known, ∀ q ∈ known, p < q → if swap then price q < price p else price p < price q
  id : UInt64 → UInt64
  timestamp : UInt64 → UInt64
  unit : UInt64
  unit_ne_zero : unit ≠ 0
  slot : ℕ → ℕ → Prop

theorem LiveBook.free_take_subset {A : LiveBook} {taker : Side} {cross : Int → Bool} {q : UInt64} {i : ℕ}
    (hi : i ∈ (A.take taker cross q).left.free) : i ∈ A.slots := by
  rw [take_left_free, List.mem_append, List.mem_reverse] at hi
  rcases hi with hi | hi
  · obtain ⟨f, hf, rfl⟩ := List.mem_map.mp hi
    exact slot_mem_of_order ((consumed_take taker cross q).maker_mem (List.mem_of_mem_filter hf))
  · exact List.mem_append_left _ hi

theorem LiveBook.locate_of_mem {A : LiveBook} (h : A.Sound) {s : Side} {e : Entry} (he : e ∈ A.orders s) :
    A.locate e.slot = some (s, e) := by
  obtain ⟨x, hx⟩ := Option.ne_none_iff_exists'.mp (fun hn => locate_eq_none.mp hn s e he rfl)
  obtain ⟨hmem, hslot⟩ := locate_eq_some hx
  obtain ⟨hs, he'⟩ := h.order_unique hmem he hslot
  rw [hx, ← hs, ← he']

theorem LiveBook.slots_remove {A : LiveBook} (h : A.Sound) {s : Side} {e : Entry} (he : e ∈ A.orders s) :
    (A.remove (s, e)).slots.Perm A.slots := by
  obtain ⟨xs, ys, hq⟩ := List.append_of_mem (h.order he).1
  apply slots_setQueue
  dsimp only
  rw [hq, filter_slot_ne (hq ▸ h.queue_nodup s e.price)]
  simp only [List.map_append, List.map_cons, List.cons_append]
  rw [← List.append_assoc, ← List.append_assoc]
  exact List.perm_middle.symm

namespace Relabelling

variable (M : Relabelling)

def side (s : Side) : Side := if M.swap then s.opposite else s

def quantity (q : UInt64) : UInt64 := q * M.unit

def Fits (q : UInt64) : Prop := q.toNat * M.unit.toNat < 2 ^ 64

def Key (p p' : Int) : Prop := p ∈ M.known ∧ p' = M.price p

def trade (t : Trade) : Trade :=
  ⟨M.id t.takerOrderId, M.id t.makerOrderId, M.price t.price, M.quantity t.quantity⟩

def op (name : OrderHandle → OrderHandle) : Op → Op
  | .limit orderId side price quantity timestamp =>
    .limit (M.id orderId) (M.side side) (M.price price) (M.quantity quantity) (M.timestamp timestamp)
  | .market orderId side quantity timestamp =>
    .market (M.id orderId) (M.side side) (M.quantity quantity) (M.timestamp timestamp)
  | .modify h side price quantity timestamp =>
    .modify (name h) (M.side side) (M.price price) (M.quantity quantity) (M.timestamp timestamp)
  | .cancel h => .cancel (name h)

/-- Timestamps are not compared: nothing reads them. -/
structure Renames (e e' : Entry) : Prop where
  slot : M.slot e.slot e'.slot
  id : e'.id = M.id e.id
  price : M.Key e.price e'.price
  quantity : e'.quantity = M.quantity e.quantity
  fits : M.Fits e.quantity

structure Trades (f f' : Fill) : Prop where
  maker : M.Renames f.maker f'.maker
  quantity : f'.quantity = M.quantity f.quantity
  fits : M.Fits f.quantity

structure Takes {α : Type} (L : α → α → Prop) (t t' : Taken α) : Prop where
  fills : Forall₂ M.Trades t.fills t'.fills
  quantity : t'.quantity = M.quantity t.quantity
  fits : M.Fits t.quantity
  left : L t.left t'.left

section Names

variable {M}

@[simp] theorem side_side (s : Side) : M.side (M.side s) = s := by
  cases h : M.swap <;> simp [side, h]

theorem side_inj {s t : Side} (h : M.side s = M.side t) : s = t := by
  rw [← side_side (M := M) s, h, side_side]

theorem side_opposite (s : Side) : M.side s.opposite = (M.side s).opposite := by
  cases h : M.swap <;> simp [side, h]

theorem price_lt_iff {p q : Int} (hp : p ∈ M.known) (hq : q ∈ M.known) :
    p < q ↔ if M.swap then M.price q < M.price p else M.price p < M.price q := by
  constructor
  · exact M.ordered p hp q hq
  · intro h
    by_contra hlt
    rcases lt_or_eq_of_le (not_lt.mp hlt) with hqp | rfl
    · have := M.ordered q hq p hp hqp
      cases hs : M.swap <;> simp only [hs, Bool.false_eq_true, if_false, if_true] at h this <;> omega
    · cases hs : M.swap <;> simp [hs] at h

theorem keepsOrder (s : Side) :
    OrderedMap.KeepsOrder M.Key (PriceCompare s.isAsk) (PriceCompare (M.side s).isAsk) := by
  rintro p _ q _ ⟨hp, rfl⟩ ⟨hq, rfl⟩
  have hpq := price_lt_iff hp hq
  have hqp := price_lt_iff hq hp
  cases hs : M.swap <;> cases s <;>
    simp_all [side, Side.isAsk, Side.opposite]

theorem canCrossLimit_price (s : Side) {p q : Int} (hp : p ∈ M.known) (hq : q ∈ M.known) :
    canCrossLimit (M.side s) (M.price p) (M.price q) = canCrossLimit s p q := by
  have hpq := price_lt_iff hp hq
  have hqp := price_lt_iff hq hp
  cases hs : M.swap <;> cases s <;>
    simp only [side, hs, Side.opposite, canCrossLimit, Bool.false_eq_true, if_false, if_true, decide_eq_decide] at * <;>
    omega

theorem unit_pos : 0 < M.unit.toNat := by
  have := toNat_ne_zero.mp M.unit_ne_zero
  omega

theorem toNat_quantity {q : UInt64} (h : M.Fits q) : (M.quantity q).toNat = q.toNat * M.unit.toNat := by
  rw [quantity, UInt64.toNat_mul, Nat.mod_eq_of_lt h]

theorem Fits.mono {q q' : UInt64} (h : M.Fits q) (hle : q'.toNat ≤ q.toNat) : M.Fits q' :=
  lt_of_le_of_lt (Nat.mul_le_mul_right _ hle) h

@[simp] theorem quantity_zero : M.quantity 0 = 0 := by
  simp [quantity]

theorem quantity_eq_zero {q : UInt64} (h : M.Fits q) : M.quantity q = 0 ↔ q = 0 := by
  rw [← UInt64.toNat_inj, ← UInt64.toNat_inj, toNat_quantity h, UInt64.toNat_zero, Nat.mul_eq_zero]
  have := M.unit_pos
  omega

theorem quantity_inj {a b : UInt64} (ha : M.Fits a) (hb : M.Fits b) : M.quantity a = M.quantity b ↔ a = b := by
  rw [← UInt64.toNat_inj, ← UInt64.toNat_inj, toNat_quantity ha, toNat_quantity hb]
  exact Nat.mul_left_inj M.unit_pos.ne'

theorem quantity_sub (a b : UInt64) : M.quantity (a - b) = M.quantity a - M.quantity b := by
  simp only [quantity]
  grind

theorem quantity_add (a b : UInt64) : M.quantity (a + b) = M.quantity a + M.quantity b := by
  simp only [quantity]
  grind

theorem quantity_min {a b : UInt64} (ha : M.Fits a) (hb : M.Fits b) :
    min (M.quantity a) (M.quantity b) = M.quantity (min a b) := by
  have hle : M.quantity a ≤ M.quantity b ↔ a ≤ b := by
    rw [UInt64.le_iff_toNat_le, UInt64.le_iff_toNat_le, toNat_quantity ha, toNat_quantity hb]
    exact Nat.mul_le_mul_right_iff M.unit_pos
  have hmin (x y : UInt64) : min x y = if x ≤ y then x else y := rfl
  by_cases h : a ≤ b
  · rw [hmin, hmin, if_pos h, if_pos (hle.mpr h)]
  · rw [hmin, hmin, if_neg h, if_neg (fun h' => h (hle.mp h'))]

end Names

section Taking

variable {M}

theorem Trades.complete {f f' : Fill} (h : M.Trades f f') : f'.complete = f.complete := by
  have hinj := quantity_inj h.maker.fits h.fits
  have hsub (x y : UInt64) : (x - y == 0) = true ↔ x = y := by
    rw [beq_iff_eq, sub_eq_zero]
  rw [Fill.complete, Fill.complete, h.maker.quantity, h.quantity, Bool.eq_iff_iff, hsub, hsub]
  exact hinj

theorem freed_related {fills fills' : List Fill} (h : Forall₂ M.Trades fills fills') :
    Forall₂ M.slot (freed fills) (freed fills') := by
  apply List.rel_map (R := M.Trades) (P := M.slot)
  · exact fun _ _ hf => hf.maker.slot
  · apply List.rel_filter _ h
    intro f f' hf
    change f.complete = true ↔ f'.complete = true
    rw [hf.complete]

theorem takeQueue_related {q : UInt64} {es es' : Queue} (hq : M.Fits q) (h : Forall₂ M.Renames es es') :
    M.Takes (Forall₂ M.Renames) (takeQueue q es) (takeQueue (M.quantity q) es') := by
  induction h generalizing q with
  | nil => exact ⟨.nil, rfl, hq, .nil⟩
  | @cons e e' es es' he hes ih =>
    have hmin := quantity_min hq he.fits
    have hle := UInt64.le_iff_toNat_le.mp (min_le_left q e.quantity)
    have hleft := toNat_sub_min_right q e.quantity
    have hrest := toNat_sub_min_left q e.quantity
    have hfill : M.Fits (min q e.quantity) := hq.mono hle
    have hf : M.Fits (e.quantity - min q e.quantity) := he.fits.mono (by omega)
    have hq' : M.Fits (q - min q e.quantity) := hq.mono (by omega)
    rw [takeQueue, takeQueue, if_congr (quantity_eq_zero hq) rfl rfl]
    split
    · exact ⟨.nil, rfl, hq, .cons he hes⟩
    · simp only [he.quantity, hmin, ← quantity_sub, quantity_eq_zero hf]
      split
      · have ht := ih hq'
        exact ⟨.cons ⟨he, rfl, hfill⟩ ht.fills, ht.quantity, ht.fits, ht.left⟩
      · exact ⟨.cons ⟨he, rfl, hfill⟩ .nil, rfl, hq',
          .cons ⟨he.slot, he.id, he.price, rfl, hf⟩ hes⟩

theorem takeLevels_related {cross cross' : Int → Bool} (hcross : ∀ p ∈ M.known, cross' (M.price p) = cross p)
    {q : UInt64} (hq : M.Fits q) {es es' : List (Int × Queue)}
    (h : Forall₂ (fun e e' => M.Key e.1 e'.1 ∧ Forall₂ M.Renames e.2 e'.2) es es') :
    M.Takes (Forall₂ (fun e e' => M.Key e.1 e'.1 ∧ Forall₂ M.Renames e.2 e'.2)) (takeLevels cross q es)
      (takeLevels cross' (M.quantity q) es') := by
  induction h generalizing q with
  | nil => exact ⟨.nil, rfl, hq, .nil⟩
  | @cons l l' es es' hl hes ih =>
    obtain ⟨p, os⟩ := l
    obtain ⟨p', os'⟩ := l'
    obtain ⟨⟨hp, rfl⟩, hos⟩ := hl
    rw [takeLevels, takeLevels, hcross p hp, if_congr (or_congr (quantity_eq_zero hq) Iff.rfl) rfl rfl]
    split
    · exact ⟨.nil, rfl, hq, .cons ⟨⟨hp, rfl⟩, hos⟩ hes⟩
    · have ht := takeQueue_related hq hos
      have hnil : (takeQueue (M.quantity q) os').left = [] ↔ (takeQueue q os).left = [] := by
        rw [← List.length_eq_zero_iff, ← List.length_eq_zero_iff, ht.left.length_eq]
      simp only [hnil, ht.quantity]
      split
      · have hu := ih ht.fits
        exact ⟨List.rel_append ht.fills hu.fills, hu.quantity, hu.fits, hu.left⟩
      · exact ⟨ht.fills, rfl, ht.fits, .cons ⟨⟨hp, rfl⟩, ht.left⟩ hes⟩

end Taking

structure Maps (A B : LiveBook) : Prop where
  side : ∀ s, OrderedMap.Related M.Key (Forall₂ M.Renames) (A.side s) (B.side (M.side s))
  free : ∃ used spare, B.free = used ++ spare ∧ Forall₂ M.slot A.free used

namespace Maps

variable {M} {A B : LiveBook}

theorem queue (h : M.Maps A B) (s : Side) {p : Int} (hp : p ∈ M.known) :
    Forall₂ M.Renames (A.queue s p) (B.queue (M.side s) (M.price p)) := by
  have hf := (h.side s).find? (keepsOrder s) (show M.Key p (M.price p) from ⟨hp, rfl⟩)
  rw [LiveBook.queue, LiveBook.queue, Levels.queue, Levels.queue]
  generalize (A.side s).find? p = a at hf
  generalize (B.side (M.side s)).find? (M.price p) = b at hf
  cases hf with
  | none => exact .nil
  | some hq => exact hq

theorem setSide (h : M.Maps A B) (s : Side) {m : Levels s.isAsk} {m' : Levels (M.side s).isAsk}
    (hm : OrderedMap.Related M.Key (Forall₂ M.Renames) m m') :
    M.Maps (A.setSide s m) (B.setSide (M.side s) m') where
  side t := by
    by_cases ht : t = s
    · subst ht
      rw [LiveBook.setSide_side_self, LiveBook.setSide_side_self]
      exact hm
    · have ht' : M.side t ≠ M.side s := fun heq => ht (side_inj heq)
      rw [LiveBook.setSide_side_of_ne _ _ _ ht, LiveBook.setSide_side_of_ne _ _ _ ht']
      exact h.side t
  free := by
    rw [LiveBook.setSide_free, LiveBook.setSide_free]
    exact h.free

theorem setQueue (h : M.Maps A B) (s : Side) {p : Int} (hp : p ∈ M.known) {q q' : Queue}
    (hq : Forall₂ M.Renames q q') : M.Maps (A.setQueue s p q) (B.setQueue (M.side s) (M.price p) q') := by
  have hnil : q' = [] ↔ q = [] := by
    rw [← List.length_eq_zero_iff, ← List.length_eq_zero_iff, hq.length_eq]
  apply h.setSide
  rw [Levels.setQueue, Levels.setQueue, if_congr hnil rfl rfl]
  split
  · exact (h.side s).erase (keepsOrder s) ⟨hp, rfl⟩
  · exact (h.side s).set (keepsOrder s) ⟨hp, rfl⟩ hq

theorem withFree (h : M.Maps A B) {free free' : List ℕ}
    (hf : ∃ used spare, free' = used ++ spare ∧ Forall₂ M.slot free used) :
    M.Maps { A with free } { B with free := free' } where
  side s := by
    rw [LiveBook.side_withFree, LiveBook.side_withFree]
    exact h.side s
  free := hf

theorem prepend (h : M.Maps A B) {is js : List ℕ} (hij : Forall₂ M.slot is js) :
    ∃ used spare, js ++ B.free = used ++ spare ∧ Forall₂ M.slot (is ++ A.free) used := by
  obtain ⟨used, spare, hB, hfree⟩ := h.free
  exact ⟨js ++ used, spare, by rw [hB, List.append_assoc], List.rel_append hij hfree⟩

theorem take (h : M.Maps A B) (taker : Side) {cross cross' : Int → Bool}
    (hcross : ∀ p ∈ M.known, cross' (M.price p) = cross p) {q : UInt64} (hq : M.Fits q) :
    M.Takes M.Maps (A.take taker cross q) (B.take (M.side taker) cross' (M.quantity q)) := by
  have ht := takeLevels_related hcross hq (h.side taker.opposite)
  have hentries (X : LiveBook) (t : Side) (c : Int → Bool) (v : UInt64) {s : Side} (hs : s = t.opposite) :
      ((X.take t c v).left.side s).entries = (takeLevels c v (X.side s).entries).left := by
    subst hs
    exact LiveBook.take_left_entries X t c v
  have hopp := side_opposite (M := M) taker
  have hfills : Forall₂ M.Trades (A.take taker cross q).fills (B.take (M.side taker) cross' (M.quantity q)).fills := by
    rw [LiveBook.take_fills, LiveBook.take_fills, ← hopp]
    exact ht.fills
  refine ⟨hfills, ?_, ?_, ⟨fun s => ?_, ?_⟩⟩
  · rw [LiveBook.take_quantity, LiveBook.take_quantity, ← hopp]
    exact ht.quantity
  · exact ht.fits
  · by_cases hs : s = taker.opposite
    · subst hs
      rw [OrderedMap.Related, hentries _ _ _ _ rfl, hentries _ _ _ _ hopp]
      exact ht.left
    · have hs' : M.side s ≠ (M.side taker).opposite := by
        intro heq
        rw [← hopp] at heq
        exact hs (side_inj heq)
      rw [LiveBook.take_left_side_of_ne _ _ _ _ hs, LiveBook.take_left_side_of_ne _ _ _ _ hs']
      exact h.side s
  · rw [LiveBook.take_left_free, LiveBook.take_left_free]
    exact h.prepend (List.rel_reverse (freed_related hfills))

theorem rest (h : M.Maps A B) {orderId : UInt64} {side : Side} {price : Int} {remaining timestamp : UInt64}
    (hp : price ∈ M.known) (hr : M.Fits remaining) {n : OrderHandle} {A' : LiveBook}
    (hA : A.rest orderId side price remaining timestamp = some (n, A')) :
    ∃ i j B', i ∈ A.free ∧ j ∈ B.free ∧ M.slot i j ∧ n = UInt32.ofNat i ∧ M.Maps A' B' ∧
      B.rest (M.id orderId) (M.side side) (M.price price) (M.quantity remaining) (M.timestamp timestamp) =
        some (UInt32.ofNat j, B') := by
  obtain ⟨used, spare, hB, hfree⟩ := h.free
  cases hf : A.free with
  | nil => simp [LiveBook.rest, hf] at hA
  | cons i free =>
    rw [hf] at hfree
    cases hfree with
    | @cons _ j _ used hij hfree =>
      simp only [LiveBook.rest, hf, Option.some.injEq, Prod.mk.injEq] at hA
      obtain ⟨rfl, rfl⟩ := hA
      rw [LiveBook.rest, hB, List.cons_append]
      refine ⟨i, j, _, by simp, by simp, hij, rfl, ?_, rfl⟩
      apply (h.withFree ⟨used, spare, rfl, hfree⟩).setQueue side hp
      exact List.rel_append (h.queue side hp) (.cons ⟨hij, rfl, ⟨hp, rfl⟩, rfl, hr⟩ .nil)

end Maps

def Handle (h h' : OrderHandle) : Prop :=
  (h = kInvalidHandle ∧ h' = kInvalidHandle) ∨
    (h ≠ kInvalidHandle ∧ h' ≠ kInvalidHandle ∧ M.slot h.toNat h'.toNat)

structure Answers (out out' : AddResult) : Prop where
  code : out'.code = out.code
  initialQuantity : out'.initialQuantity = M.quantity out.initialQuantity
  filledQuantity : out'.filledQuantity = M.quantity out.filledQuantity
  remainingQuantity : out'.remainingQuantity = M.quantity out.remainingQuantity
  handle : M.Handle out.handle out'.handle
  trades : out'.trades = out.trades.map M.trade

def Replies : Reply → Reply → Prop
  | .added out, .added out' => M.Answers out out'
  | .cancelled code, .cancelled code' => code' = code
  | _, _ => False

def Same (A B : LiveBook) (i j : ℕ) : Prop :=
  ∃ s p xs ys xs' ys' e e', p ∈ M.known ∧ A.queue s p = xs ++ e :: ys ∧
    B.queue (M.side s) (M.price p) = xs' ++ e' :: ys' ∧ Forall₂ M.Renames xs xs' ∧ M.Renames e e' ∧
    Forall₂ M.Renames ys ys' ∧ e.slot = i ∧ e'.slot = j

structure Covers (op : Op) : Prop where
  price : ∀ p ∈ op.price, p ∈ M.known
  quantity : M.Fits op.quantity

def Narrow (A : LiveBook) : Prop := ∀ i ∈ A.slots, i < 2 ^ 32 - 1

section Answering

variable {M} {A B : LiveBook}

theorem answers_initial (quantity : UInt64) :
    M.Answers { initialQuantity := quantity } { initialQuantity := M.quantity quantity } where
  code := rfl
  initialQuantity := rfl
  filledQuantity := quantity_zero.symm
  remainingQuantity := quantity_zero.symm
  handle := Or.inl ⟨rfl, rfl⟩
  trades := rfl

theorem Answers.addFills {out out' : AddResult} {fills fills' : List Fill} (h : M.Answers out out')
    (hf : Forall₂ M.Trades fills fills') (orderId : UInt64) :
    M.Answers (fills.foldl (AddResult.addFill orderId) out)
      (fills'.foldl (AddResult.addFill (M.id orderId)) out') := by
  induction hf generalizing out out' with
  | nil => exact h
  | @cons f f' fills fills' hf _ ih =>
    rw [List.foldl_cons, List.foldl_cons]
    apply ih
    have htrade : f'.trade (M.id orderId) = M.trade (f.trade orderId) := by
      simp [Fill.trade, trade, hf.maker.id, hf.maker.price.2, hf.quantity]
    constructor
    · exact h.code
    · exact h.initialQuantity
    · simp only [AddResult.addFill, h.filledQuantity, hf.quantity, quantity_add]
    · exact h.remainingQuantity
    · exact h.handle
    · simp only [AddResult.addFill, h.trades, htrade, List.map_append, List.map_cons, List.map_nil]

theorem handle_ofNat {i j : ℕ} (hi : i < 2 ^ 32 - 1) (hj : j < 2 ^ 32 - 1) (hij : M.slot i j) :
    M.Handle (UInt32.ofNat i) (UInt32.ofNat j) := by
  obtain ⟨hi', hi⟩ := Rep.ofNat_ne_invalid hi
  obtain ⟨hj', hj⟩ := Rep.ofNat_ne_invalid hj
  exact Or.inr ⟨hi', hj', by rwa [hi, hj]⟩

theorem Maps.limit (h : M.Maps A B) (hA : Narrow A) (hB : Narrow B) {orderId : UInt64} {side : Side}
    {price : Int} {quantity timestamp : UInt64} (hp : price ∈ M.known) (hq : M.Fits quantity) {out : AddResult}
    {A' : LiveBook} (hout : A.limit orderId side price quantity timestamp = some (out, A')) :
    ∃ out' B', B.limit (M.id orderId) (M.side side) (M.price price) (M.quantity quantity)
        (M.timestamp timestamp) = some (out', B') ∧ M.Answers out out' ∧ M.Maps A' B' := by
  have ht := h.take side (fun q hq => canCrossLimit_price side hp hq) hq
  have hfills := (answers_initial quantity).addFills ht.fills orderId
  unfold LiveBook.limit at hout ⊢
  rw [if_congr (quantity_eq_zero hq) rfl rfl]
  split at hout
  · next hz =>
    obtain ⟨rfl, rfl⟩ := Prod.mk.inj (Option.some.inj hout)
    rw [if_pos hz]
    exact ⟨_, B, rfl, ⟨rfl, rfl, quantity_zero.symm, quantity_zero.symm, Or.inl ⟨rfl, rfl⟩, rfl⟩, h⟩
  · next hz =>
    rw [if_neg hz]
    dsimp only at hout ⊢
    simp only [ht.quantity, quantity_eq_zero ht.fits]
    split at hout
    · next hleft =>
      obtain ⟨rfl, rfl⟩ := Prod.mk.inj (Option.some.inj hout)
      rw [if_pos hleft]
      exact ⟨_, _, rfl, ⟨rfl, hfills.initialQuantity, hfills.filledQuantity, rfl, hfills.handle, hfills.trades⟩,
        ht.left⟩
    · next hleft =>
      obtain ⟨⟨n, A₁⟩, hrest, hout⟩ := Option.map_eq_some_iff.mp hout
      obtain ⟨rfl, rfl⟩ := Prod.mk.inj hout
      obtain ⟨i, j, B', hi, hj, hij, rfl, hmaps, hB'⟩ := ht.left.rest hp ht.fits hrest
      rw [if_neg hleft, hB']
      refine ⟨_, B', rfl, ⟨rfl, hfills.initialQuantity, hfills.filledQuantity, rfl, ?_, hfills.trades⟩, hmaps⟩
      exact handle_ofNat (hA i (LiveBook.free_take_subset hi)) (hB j (LiveBook.free_take_subset hj)) hij

theorem Maps.market (h : M.Maps A B) (orderId : UInt64) (side : Side) {quantity : UInt64} (hq : M.Fits quantity) :
    M.Answers (A.market orderId side quantity).1 (B.market (M.id orderId) (M.side side) (M.quantity quantity)).1 ∧
      M.Maps (A.market orderId side quantity).2 (B.market (M.id orderId) (M.side side) (M.quantity quantity)).2 := by
  have ht := @Maps.take M A B h side (fun _ => true) (fun _ => true) (fun _ _ => rfl) quantity hq
  have hfills := (answers_initial quantity).addFills ht.fills orderId
  unfold LiveBook.market
  rw [if_congr (quantity_eq_zero hq) rfl rfl]
  split
  · exact ⟨⟨rfl, rfl, quantity_zero.symm, quantity_zero.symm, Or.inl ⟨rfl, rfl⟩, rfl⟩, h⟩
  · dsimp only
    simp only [ht.quantity, quantity_eq_zero ht.fits]
    split <;>
      exact ⟨⟨rfl, hfills.initialQuantity, hfills.filledQuantity, rfl, hfills.handle, hfills.trades⟩, ht.left⟩

theorem Maps.known (h : M.Maps A B) {s : Side} {p : Int} (hp : A.queue s p ≠ []) : p ∈ M.known := by
  rw [LiveBook.queue, Levels.queue] at hp
  cases hf : (A.side s).find? p with
  | none => simp [hf] at hp
  | some q =>
    obtain ⟨e', -, hkey, -⟩ := (h.side s).exists_right (OrderedMap.find?_eq_some.mp hf)
    exact hkey.1

theorem Maps.same (h : M.Maps A B) (hA : A.Sound) {f : ℕ → ℕ} (hslot : ∀ i j, M.slot i j → j = f i) {i : ℕ}
    (hi : A.locate i ≠ none) : M.Same A B i (f i) := by
  obtain ⟨⟨s, e⟩, hx⟩ := Option.ne_none_iff_exists'.mp hi
  obtain ⟨hmem, rfl⟩ := LiveBook.locate_eq_some hx
  have he := (hA.order hmem).1
  have hp := h.known (List.ne_nil_of_mem he)
  obtain ⟨xs, ys, hq⟩ := List.append_of_mem he
  obtain ⟨xs', e', ys', hq', hxs, he', hys⟩ := OrderedMap.forall₂_split (hq ▸ h.queue s hp)
  exact ⟨s, e.price, xs, ys, xs', ys', e, e', hp, hq, hq', hxs, he', hys, rfl, hslot _ _ he'.slot⟩

theorem Maps.remove (h : M.Maps A B) (hA : A.Sound) (hB : B.Sound) {i j : ℕ} (hij : M.Same A B i j) :
    ∃ s e e', M.Renames e e' ∧ A.locate i = some (s, e) ∧ B.locate j = some (M.side s, e') ∧
      M.Maps (A.remove (s, e)) (B.remove (M.side s, e')) := by
  obtain ⟨s, p, xs, ys, xs', ys', e, e', hp, hq, hq', hxs, he, hys, rfl, rfl⟩ := hij
  have hmem : e ∈ A.queue s p := by simp [hq]
  have hmem' : e' ∈ B.queue (M.side s) (M.price p) := by simp [hq']
  refine ⟨s, e, e', he, LiveBook.locate_of_mem hA (LiveBook.mem_orders.mpr ⟨p, hmem⟩),
    LiveBook.locate_of_mem hB (LiveBook.mem_orders.mpr ⟨_, hmem'⟩), ?_⟩
  have hfilter := filter_slot_ne (hq ▸ hA.queue_nodup s p)
  have hfilter' := filter_slot_ne (hq' ▸ hB.queue_nodup (M.side s) (M.price p))
  rw [LiveBook.remove, LiveBook.remove]
  dsimp only
  rw [hA.price s p e hmem, hB.price _ _ e' hmem', hq, hq', hfilter, hfilter']
  apply (h.withFree (h.prepend (.cons he.slot .nil))).setQueue s hp
  exact List.rel_append hxs hys

theorem Narrow.remove (h : Narrow A) (hA : A.Sound) {s : Side} {e : Entry} (he : e ∈ A.orders s) :
    Narrow (A.remove (s, e)) := fun _ hi => h _ ((LiveBook.slots_remove hA he).mem_iff.mp hi)

theorem Maps.exec (h : M.Maps A B) (hA : A.Sound) (hB : B.Sound) (hnA : Narrow A) (hnB : Narrow B)
    {name : OrderHandle → OrderHandle} {op : Op} (hc : M.Covers op)
    (hname : ∀ i ∈ op.handle, M.Same A B i.toNat (name i).toNat) {reply : Reply} {A' : LiveBook}
    (hexec : A.exec op = some (reply, A')) :
    ∃ reply' B', B.exec (M.op name op) = some (reply', B') ∧ M.Replies reply reply' ∧ M.Maps A' B' := by
  cases op with
  | limit orderId side price quantity timestamp =>
    obtain ⟨⟨out, A₁⟩, hout, hexec⟩ := Option.map_eq_some_iff.mp hexec
    obtain ⟨rfl, rfl⟩ := Prod.mk.inj hexec
    have hq : M.Fits quantity := hc.quantity
    obtain ⟨out', B', hB', hanswers, hmaps⟩ := h.limit hnA hnB (hc.price _ rfl) hq hout
    exact ⟨.added out', B', by rw [op, LiveBook.exec, hB']; rfl, hanswers, hmaps⟩
  | market orderId side quantity timestamp =>
    obtain ⟨rfl, rfl⟩ := Prod.mk.inj (Option.some.inj hexec)
    obtain ⟨hanswers, hmaps⟩ := h.market orderId side hc.quantity
    exact ⟨_, _, rfl, hanswers, hmaps⟩
  | modify handle side price quantity timestamp =>
    obtain ⟨s, e, e', he, hloc, hloc', hmaps⟩ := h.remove hA hB (hname handle rfl)
    obtain ⟨hmem, -⟩ := LiveBook.locate_eq_some hloc
    obtain ⟨hmem', -⟩ := LiveBook.locate_eq_some hloc'
    simp only [LiveBook.exec, hloc] at hexec
    obtain ⟨⟨out, A₁⟩, hout, hexec⟩ := Option.map_eq_some_iff.mp hexec
    obtain ⟨rfl, rfl⟩ := Prod.mk.inj hexec
    have hq : M.Fits quantity := hc.quantity
    obtain ⟨out', B', hB', hanswers, hmaps'⟩ := hmaps.limit (hnA.remove hA hmem) (hnB.remove hB hmem')
      (hc.price _ rfl) hq hout
    refine ⟨.added out', B', ?_, hanswers, hmaps'⟩
    simp only [op, LiveBook.exec, hloc', he.id, hB', Option.map_some]
  | cancel handle =>
    obtain ⟨s, e, e', he, hloc, hloc', hmaps⟩ := h.remove hA hB (hname handle rfl)
    simp only [LiveBook.exec, hloc] at hexec
    obtain ⟨rfl, rfl⟩ := Prod.mk.inj (Option.some.inj hexec)
    exact ⟨.cancelled .success, _, by simp only [op, LiveBook.exec, hloc'], rfl, hmaps⟩

end Answering

section Engines

variable {M} {S S' : Bool → Type} {R R' : Type} [BookSide S R] [LawfulBookSide S R] [BookSide S' R']
  [LawfulBookSide S' R'] {b : OrderBook S R} {b' : OrderBook S' R'} {A B : LiveBook}

theorem narrow (h : Rep b A) : Narrow A := fun _ hi => (h.slot_lt_max hi).1

theorem Maps.admissible (h : M.Maps A B) (hA : A.Sound) (hB : B.Sound) {name : OrderHandle → OrderHandle} {op : Op}
    (hc : M.Covers op) (hname : ∀ i ∈ op.handle, M.Same A B i.toNat (name i).toNat)
    (hadm : ∀ t, A.matching op = some t → t.quantity ≠ 0 → ∀ p ∈ op.price, ∀ s, Admits (b'.book s) (M.price p)) :
    (M.op name op).Admissible b' B := by
  cases op with
  | limit orderId side price quantity timestamp =>
    have hfits : M.Fits quantity := hc.quantity
    have ht := h.take side (fun q hq => canCrossLimit_price side (hc.price price rfl) hq) hfits
    intro hq
    rw [ht.quantity, Ne, quantity_eq_zero ht.fits] at hq
    exact hadm _ rfl hq price rfl _
  | market orderId side quantity timestamp => trivial
  | modify handle side price quantity timestamp =>
    obtain ⟨s, e, e', -, hloc, hloc', hmaps⟩ := h.remove hA hB (hname handle rfl)
    have hfits : M.Fits quantity := hc.quantity
    have ht := hmaps.take side (fun q hq => canCrossLimit_price side (hc.price price rfl) hq) hfits
    intro x hx hq
    obtain rfl := Option.some.inj (hloc'.symm.trans hx)
    rw [ht.quantity, Ne, quantity_eq_zero ht.fits] at hq
    exact hadm _ (by rw [LiveBook.matching, hloc]; rfl) hq price rfl _
  | cancel handle => trivial

theorem Maps.step (h : M.Maps A B) (hb : Rep b A) (hb' : Rep b' B) {name : OrderHandle → OrderHandle} {op : Op}
    (hc : M.Covers op) (hname : ∀ i ∈ op.handle, M.Same A B i.toNat (name i).toNat)
    (hadm : ∀ t, A.matching op = some t → t.quantity ≠ 0 → ∀ p ∈ op.price, ∀ s, Admits (b'.book s) (M.price p))
    (hlevels : Pooled S' → b'.exec (M.op name op) ≠ .error .levelPoolExhausted) {reply : Reply} {A' : LiveBook}
    (hexec : A.exec op = some (reply, A')) :
    ∃ reply' c' B', b'.exec (M.op name op) = .ok (reply', c') ∧ M.Replies reply reply' ∧ M.Maps A' B' ∧
      Moved (M.op name op).price b' c' B' := by
  obtain ⟨reply', B', hB', hreplies, hmaps⟩ := h.exec hb.sound hb'.sound (narrow hb) (narrow hb') hc hname hexec
  have hlive : (M.op name op).Live B := by
    cases op with
    | limit | market => trivial
    | modify handle | cancel handle =>
      obtain ⟨s, e, e', -, -, hloc', -⟩ := h.remove hb.sound hb'.sound (hname handle rfl)
      exact Option.ne_none_iff_exists'.mpr ⟨_, hloc'⟩
  rcases exec_spec hb' _ hlive (h.admissible hb.sound hb'.sound hc hname hadm) with
    ⟨-, hnone⟩ | ⟨hp, hfull⟩ | ⟨reply'', c', B'', hc', hB'', hmoved⟩
  · rw [hB'] at hnone
    cases hnone
  · exact absurd hfull (hlevels hp)
  · obtain ⟨rfl, rfl⟩ := Prod.mk.inj (Option.some.inj (hB'.symm.trans hB''))
    exact ⟨reply', c', B', hc', hreplies, hmaps, hmoved⟩

end Engines

end Relabelling

end Llmes
