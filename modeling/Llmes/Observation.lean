import Llmes.Symmetries
import Llmes.Slicing
import Llmes.ReferenceRefinement
import Llmes.Priority

namespace Llmes

open List (Forall₂)
open BookSide BookView LawfulBookSide OrderBook

inductive PlacedOp
  | limit (orderId : UInt64) (side : Side) (price : Int) (quantity timestamp : UInt64)
  | market (orderId : UInt64) (side : Side) (quantity timestamp : UInt64)
  | modify (place : Side × ℕ × ℕ) (side : Side) (price : Int) (quantity timestamp : UInt64)
  | cancel (place : Side × ℕ × ℕ)

def Reply.masked : Reply → Reply := Reply.mapHandle (fun h => if h = kInvalidHandle then h else 0)

namespace Relabelling

def faces : Relabelling where
  swap := false
  known := Set.univ
  price p := p
  ordered _ _ _ _ h := h
  id orderId := orderId
  timestamp t := t
  unit := 1
  unit_ne_zero := by decide
  slot _ _ := True

theorem faces_fits (q : UInt64) : faces.Fits q := by
  change q.toNat * 1 < 2 ^ 64
  rw [Nat.mul_one]
  exact q.toNat_lt

@[simp] theorem faces_quantity (q : UInt64) : faces.quantity q = q := by
  simp [quantity, faces]

@[simp] theorem faces_side (s : Side) : faces.side s = s := rfl

theorem faces_trade (t : Trade) : faces.trade t = t := by
  simp only [trade, faces_quantity]
  rfl

theorem faces_renames {e e' : Entry} : faces.Renames e e' ↔ e.ref = e'.ref := by
  constructor
  · intro h
    have hq := h.quantity
    rw [faces_quantity] at hq
    have hid : e'.id = e.id := h.id
    have hprice : e'.price = e.price := h.price.2
    rw [Entry.ref, Entry.ref, hid, hprice, hq]
  · intro h
    simp only [Entry.ref, RefOrder.mk.injEq] at h
    obtain ⟨hid, hprice, hq⟩ := h
    exact ⟨trivial, hid.symm, ⟨Set.mem_univ _, hprice.symm⟩, by rw [faces_quantity, hq], faces_fits _⟩

theorem faces_queue {q q' : Queue} : Forall₂ faces.Renames q q' ↔ q.map Entry.ref = q'.map Entry.ref := by
  rw [← List.forall₂_eq_eq_eq, List.forall₂_map_left_iff, List.forall₂_map_right_iff]
  constructor
  · exact fun h => h.imp (fun _ _ => faces_renames.mp)
  · exact fun h => h.imp (fun _ _ => faces_renames.mpr)

theorem faces_op (name : OrderHandle → OrderHandle) : faces.op name = Op.mapHandle name := by
  funext op
  cases op <;> simp [op, Op.mapHandle, faces_quantity] <;> trivial

theorem faces_masked {r r' : Reply} (h : faces.Replies r r') : r'.masked = r.masked := by
  cases r <;> cases r' <;> try cases h
  · next out out' h₁ h₂ h₃ h₄ h₅ h₆ =>
    obtain ⟨code, initial, filled, remaining, handle, trades⟩ := out'
    have htrades : out.trades.map faces.trade = out.trades := List.map_id'' faces_trade _
    simp only [faces_quantity, htrades] at h₁ h₂ h₃ h₄ h₅ h₆
    have hmask : (if handle = kInvalidHandle then handle else 0) =
        if out.handle = kInvalidHandle then out.handle else 0 := by
      rcases h₅ with ⟨hi, hi'⟩ | ⟨hi, hi', -⟩
      · rw [if_pos hi, if_pos hi', hi, hi']
      · rw [if_neg hi, if_neg hi']
    simp only [Reply.masked, Reply.mapHandle, h₁, h₂, h₃, h₄, h₆, hmask]
  · rfl

def SameFaces (A B : LiveBook) : Prop := ∀ s p, (A.queue s p).map Entry.ref = (B.queue s p).map Entry.ref

theorem forall₂_true {is js : List ℕ} (h : is.length = js.length) : Forall₂ (fun _ _ => True) is js := by
  induction is generalizing js with
  | nil =>
    rw [List.length_nil] at h
    rw [List.length_eq_zero_iff.mp h.symm]
    exact .nil
  | cons i is ih =>
    cases js with
    | nil => cases h
    | cons j js => exact .cons trivial (ih (Nat.succ.inj h))

theorem SameFaces.maps {A B : LiveBook} (h : SameFaces A B) (hA : A.Sound) (hB : B.Sound)
    (hfree : A.free.length ≤ B.free.length) : faces.Maps A B where
  side s := by
    have hval : (A.side s).mapValues (List.map Entry.ref) = (B.side s).mapValues (List.map Entry.ref) := by
      apply OrderedMap.ext_find?
      intro p
      rw [OrderedMap.find?_mapValues, OrderedMap.find?_mapValues, (hA.proper s).find?, (hB.proper s).find?]
      have hq := h s p
      have hnil : A.queue s p = [] ↔ B.queue s p = [] := by
        rw [← List.map_eq_nil_iff (f := Entry.ref), hq, List.map_eq_nil_iff]
      rw [LiveBook.queue, LiveBook.queue] at hq hnil
      rw [if_congr hnil rfl rfl]
      split
      · rfl
      · rw [Option.map_some, Option.map_some, hq]
    have hentries : refEntries (A.side s).entries = refEntries (B.side s).entries := congrArg OrderedMap.entries hval
    rw [OrderedMap.Related]
    rw [refEntries, refEntries, ← List.forall₂_eq_eq_eq, List.forall₂_map_left_iff, List.forall₂_map_right_iff] at hentries
    apply hentries.imp
    intro x y hxy
    obtain ⟨hp, hq⟩ := Prod.mk.inj hxy
    exact ⟨⟨Set.mem_univ _, hp.symm⟩, faces_queue.mpr hq⟩
  free := by
    refine ⟨B.free.take A.free.length, B.free.drop A.free.length, (List.take_append_drop _ _).symm, ?_⟩
    apply forall₂_true
    rw [List.length_take, min_eq_left hfree]

end Relabelling

section Flat

theorem takeQueue_append (q : UInt64) (xs ys : Queue) :
    takeQueue q (xs ++ ys) =
      if (takeQueue q xs).left = [] then
        ⟨(takeQueue q xs).fills ++ (takeQueue (takeQueue q xs).quantity ys).fills,
          (takeQueue (takeQueue q xs).quantity ys).quantity, (takeQueue (takeQueue q xs).quantity ys).left⟩
      else ⟨(takeQueue q xs).fills, (takeQueue q xs).quantity, (takeQueue q xs).left ++ ys⟩ := by
  induction xs generalizing q with
  | nil => simp [takeQueue]
  | cons x xs ih =>
    rw [List.cons_append, takeQueue, takeQueue]
    split
    · simp
    · dsimp only
      split
      · rw [ih]
        split
        · rfl
        · rfl
      · simp

theorem takeLevels_all (q : UInt64) {es : List (Int × Queue)} (hne : ∀ l ∈ es, l.2 ≠ []) :
    (takeLevels (fun _ => true) q es).fills = (takeQueue q (es.flatMap Prod.snd)).fills ∧
      (takeLevels (fun _ => true) q es).quantity = (takeQueue q (es.flatMap Prod.snd)).quantity ∧
      (takeLevels (fun _ => true) q es).left.flatMap Prod.snd = (takeQueue q (es.flatMap Prod.snd)).left := by
  induction es generalizing q with
  | nil => exact ⟨rfl, rfl, rfl⟩
  | cons l es ih =>
    obtain ⟨p, os⟩ := l
    have hos : os ≠ [] := hne (p, os) List.mem_cons_self
    rw [takeLevels, List.flatMap_cons, takeQueue_append]
    split
    · next hz =>
      obtain rfl : q = 0 := hz.resolve_right (by simp)
      rw [takeQueue_zero, if_neg hos]
      exact ⟨rfl, rfl, rfl⟩
    · dsimp only
      split
      · obtain ⟨hf, hq, hl⟩ := ih (takeQueue q os).quantity (fun l hl => hne l (List.mem_cons_of_mem _ hl))
        exact ⟨by rw [hf], hq, hl⟩
      · exact ⟨rfl, rfl, rfl⟩

variable {A : LiveBook}

theorem take_all (h : A.Sound) (taker : Side) (q : UInt64) :
    (A.take taker (fun _ => true) q).fills = (takeQueue q (A.orders taker.opposite)).fills ∧
      (A.take taker (fun _ => true) q).left.orders taker.opposite = (takeQueue q (A.orders taker.opposite)).left := by
  have hne : ∀ l ∈ (A.side taker.opposite).entries, l.2 ≠ [] := by
    intro l hl hnil
    exact h.proper taker.opposite l.1 (hnil ▸ OrderedMap.find?_of_mem hl)
  obtain ⟨hf, -, hl⟩ := takeLevels_all q hne
  refine ⟨(LiveBook.take_fills _ _ _ _).trans hf, ?_⟩
  rw [LiveBook.orders, Levels.orders, LiveBook.take_left_entries]
  exact hl

theorem takeQueue_front (e : Entry) (es : Queue) (he : e.quantity ≠ 0) :
    takeQueue e.quantity (e :: es) = ⟨[Fill.whole e], 0, es⟩ := by
  rw [takeQueue_of_le es he (UInt64.le_refl _), UInt64.sub_self, takeQueue_zero]

theorem takeQueue_head {q : UInt64} {e : Entry} (es : Queue) (hq : q ≠ 0) (hle : e.quantity ≤ q) :
    ∃ fills, (takeQueue q (e :: es)).fills = Fill.whole e :: fills := by
  rw [takeQueue_of_le es hq hle]
  exact ⟨_, rfl⟩

end Flat

namespace ArrayBook

variable {b b' : ArrayBook} {A B : LiveBook} {capacity capacity' : ℕ}

def handleAt (b : ArrayBook) (place : Side × ℕ × ℕ) : OrderHandle :=
  match (b.fifo place.1 place.2.1)[place.2.2]? with
  | some o => UInt32.ofNat o
  | none => kInvalidHandle

def placed (b : ArrayBook) : PlacedOp → Op
  | .limit orderId side price quantity timestamp => .limit orderId side price quantity timestamp
  | .market orderId side quantity timestamp => .market orderId side quantity timestamp
  | .modify place side price quantity timestamp => .modify (b.handleAt place) side price quantity timestamp
  | .cancel place => .cancel (b.handleAt place)

def placedExec : Machine.Step ArrayBook PlacedOp Reply Fault := fun b op => b.exec (b.placed op)

def PlacedInScope (b : ArrayBook) (op : PlacedOp) : Prop := InScope b (b.placed op)

def observe (b : ArrayBook) (ops : List PlacedOp) : Exec (List Reply) :=
  (Machine.runAll placedExec b ops).map (fun r => r.1.map Reply.masked)

theorem fifo_entry (h : Rep b A) {s : Side} {i n o : ℕ} (ho : (b.fifo s i)[n]? = some o) :
    ∃ e, (A.queue s i)[n]? = some e ∧ e.slot = o := by
  rw [fifo_eq h, List.getElem?_map, Option.map_eq_some_iff] at ho
  exact ho

theorem handleAt_toNat (h : Rep b A) {s : Side} {i n : ℕ} {e : Entry} (he : (A.queue s i)[n]? = some e) :
    (b.handleAt (s, i, n)).toNat = e.slot := by
  have hmem : e ∈ A.queue s i := List.mem_of_getElem? he
  rw [handleAt, fifo_eq h, List.getElem?_map, he]
  exact (Rep.ofNat_ne_invalid (h.slot_lt_max (LiveBook.slot_mem_slots hmem)).1).2

theorem same_at (hb : Rep b A) (hb' : Rep b' B) (hmaps : Relabelling.faces.Maps A B) {place : Side × ℕ × ℕ}
    (hlive : b.Resting (b.handleAt place).toNat) :
    Relabelling.faces.Same A B (b.handleAt place).toNat (b'.handleAt place).toNat := by
  obtain ⟨s, i, n⟩ := place
  cases ho : (b.fifo s i)[n]? with
  | none =>
    have hinvalid : b.handleAt (s, i, n) = kInvalidHandle := by rw [handleAt, ho]
    rw [hinvalid] at hlive
    obtain ⟨x, hx⟩ := Option.ne_none_iff_exists'.mp (hb.resting_iff.mp hlive)
    obtain ⟨hmem, hslot⟩ := LiveBook.locate_eq_some hx
    have hlt := (hb.slot_lt_max (LiveBook.slot_mem_of_order hmem)).1
    rw [hslot] at hlt
    simp [kInvalidHandle] at hlt
  | some o =>
    obtain ⟨e, he, rfl⟩ := fifo_entry hb ho
    have hq := hmaps.queue s (Set.mem_univ (i : Int))
    have hlen := List.getElem?_eq_some_iff.mp he
    obtain ⟨hlt, hget⟩ := hlen
    have hsplit : A.queue s i = (A.queue s i).take n ++ e :: (A.queue s i).drop (n + 1) := by
      rw [← hget, List.getElem_cons_drop, List.take_append_drop]
    rw [hsplit] at hq
    obtain ⟨xs', e', ys', hq', hxs, he', hys⟩ := OrderedMap.forall₂_split hq
    have hn : xs'.length = n := by
      rw [← hxs.length_eq, List.length_take, min_eq_left hlt.le]
    have hget' : (B.queue s i)[n]? = some e' := by
      have hqB : B.queue s i = xs' ++ e' :: ys' := hq'
      rw [hqB, List.getElem?_append_right (by omega), hn]
      simp
    rw [handleAt_toNat hb he, handleAt_toNat hb' hget']
    exact ⟨s, i, _, _, xs', ys', e, e', Set.mem_univ _, hsplit, hq', hxs, he', hys, rfl, rfl⟩

theorem placed_op (b b' : ArrayBook) (op : PlacedOp) : ∃ name, b'.placed op = (b.placed op).mapHandle name ∧
    ∀ i ∈ (b.placed op).handle, ∃ place, i = b.handleAt place ∧ name i = b'.handleAt place := by
  cases op with
  | limit | market => exact ⟨fun h => h, rfl, fun i hi => by cases hi⟩
  | modify place | cancel place =>
    refine ⟨fun _ => b'.handleAt place, rfl, fun i hi => ⟨place, ?_, rfl⟩⟩
    exact (Option.some.inj hi).symm

theorem placed_step (h : Renamed .faces b b') {op : PlacedOp} (hs : PlacedInScope b op) :
    ∃ reply c reply' c', placedExec b op = .ok (reply, c) ∧ placedExec b' op = .ok (reply', c') ∧
      reply'.masked = reply.masked ∧ Renamed .faces c c' := by
  obtain ⟨A, B, hb, hb', hmaps⟩ := h
  obtain ⟨name, hop, hname⟩ := placed_op b b' op
  have hsame : ∀ i ∈ (b.placed op).handle, Relabelling.faces.Same A B i.toNat (name i).toNat := by
    intro i hi
    obtain ⟨place, rfl, hplace⟩ := hname i hi
    rw [hplace]
    exact same_at hb hb' hmaps (hs.live _ hi)
  obtain ⟨reply, c, reply', c', hc, hc', hreplies, hmaps'⟩ := Renamed.exec hb hb' hmaps hs hsame
    ⟨fun _ _ => Set.mem_univ _, Relabelling.faces_fits _⟩ (fun _ _ h₀ h₁ => ⟨h₀, h₁⟩)
  rw [Relabelling.faces_op, ← hop] at hc'
  exact ⟨reply, c, reply', c', hc, hc', Relabelling.faces_masked hreplies, hmaps'⟩

theorem observe_of_renamed (h : Renamed .faces b b') {ops : List PlacedOp}
    (hops : Machine.Allowed placedExec PlacedInScope b ops) : b'.observe ops = b.observe ops := by
  have hstep (s t : ArrayBook) (op : PlacedOp) (hR : Renamed .faces s t) (hs : PlacedInScope s op) :
      ∃ r s' r' t', placedExec s op = .ok (r, s') ∧ placedExec t op = .ok (r', t') ∧
        r'.masked = r.masked ∧ Renamed .faces s' t' := placed_step hR hs
  obtain ⟨rs, c, rs', c', hrun, hrun', hmasked, -⟩ := Machine.runAll_simulation hstep h hops
  rw [Machine.translate_of_ok hrun] at hrun'
  have hmap : rs'.map Reply.masked = rs.map Reply.masked := by
    rw [← List.forall₂_eq_eq_eq, List.forall₂_map_left_iff, List.forall₂_map_right_iff]
    exact hmasked.flip
  rw [observe, observe, hrun, hrun']
  exact congrArg Except.ok hmap

def Indistinct (b b' : ArrayBook) : Prop :=
  ∀ ops, Machine.Allowed placedExec PlacedInScope b ops → b'.observe ops = b.observe ops

theorem observe_cons {op : PlacedOp} {r : Reply} {c : ArrayBook} (h : placedExec b op = .ok (r, c))
    (ops : List PlacedOp) : b.observe (op :: ops) = (c.observe ops).map (r.masked :: ·) := by
  rw [observe, observe, Machine.runAll, h, ok_bind]
  dsimp only
  cases Machine.runAll placedExec c ops <;> rfl

theorem Indistinct.next (h : Indistinct b b') {op : PlacedOp} (hs : PlacedInScope b op) {r r' : Reply}
    {c c' : ArrayBook} (hb : placedExec b op = .ok (r, c)) (hb' : placedExec b' op = .ok (r', c')) :
    r'.masked = r.masked ∧ Indistinct c c' := by
  have hallowed {ops : List PlacedOp} (hops : Machine.Allowed placedExec PlacedInScope c ops) :
      Machine.Allowed placedExec PlacedInScope b (op :: ops) := by
    refine ⟨hs, fun s t ht => ?_⟩
    obtain ⟨-, rfl⟩ := Prod.mk.inj (Except.ok.inj (hb.symm.trans ht))
    exact hops
  have hall {ops : List PlacedOp} (hops : Machine.Allowed placedExec PlacedInScope c ops) :
      (c'.observe ops).map (r'.masked :: ·) = (c.observe ops).map (r.masked :: ·) := by
    rw [← observe_cons hb, ← observe_cons hb']
    exact h _ (hallowed hops)
  have hhead : r'.masked = r.masked := by
    have hnil : Except.ok [r'.masked] = Except.ok [r.masked] := @hall [] trivial
    exact (List.cons.inj (Except.ok.inj hnil)).1
  refine ⟨hhead, fun ops hops => ?_⟩
  have heq := hall hops
  rw [hhead] at heq
  cases hc : c.observe ops <;> cases hc' : c'.observe ops <;> rw [hc, hc'] at heq
  · exact congrArg Except.error (Except.error.inj heq)
  · cases heq
  · cases heq
  · exact congrArg Except.ok (List.cons.inj (Except.ok.inj heq)).2

theorem market_exec (h : Rep b A) (taker : Side) (q : UInt64) :
    ∃ out c, placedExec b (.market 0 taker q 0) = .ok (.added out, c) ∧
      Rep c (A.take taker (fun _ => true) q).left ∧
      out.trades = (A.take taker (fun _ => true) q).fills.map (Fill.trade 0) := by
  obtain ⟨out, c, hc, hrep, htrades, -⟩ := exec_slice h 0 taker none (q, 0) (fun h => absurd rfl h)
  exact ⟨out, c, hc, hrep, htrades⟩

theorem market_inScope (h : Rep b A) (taker : Side) (q : UInt64) : PlacedInScope b (.market 0 taker q 0) := by
  obtain ⟨out, c, hc, -⟩ := market_exec h taker q
  refine ⟨fun i hi => (by cases hi), fun p hp => (by cases hp), fun he => ?_⟩
  rw [placedExec, he] at hc
  cases hc

theorem Indistinct.market (h : Indistinct b b') (hb : Rep b A) (hb' : Rep b' B) (taker : Side) (q : UInt64) :
    ∃ c c', Rep c (A.take taker (fun _ => true) q).left ∧ Rep c' (B.take taker (fun _ => true) q).left ∧
      Indistinct c c' ∧
      (takeQueue q (A.orders taker.opposite)).fills.map (Fill.trade 0) =
        (takeQueue q (B.orders taker.opposite)).fills.map (Fill.trade 0) := by
  obtain ⟨out, c, hc, hrep, htrades⟩ := market_exec hb taker q
  obtain ⟨out', c', hc', hrep', htrades'⟩ := market_exec hb' taker q
  obtain ⟨hmasked, hnext⟩ := h.next (market_inScope hb taker q) hc hc'
  refine ⟨c, c', hrep, hrep', hnext, ?_⟩
  rw [← (take_all hb.sound taker q).1, ← (take_all hb'.sound taker q).1, ← htrades, ← htrades']
  exact (congrArg Reply.trades hmasked).symm

theorem Indistinct.orders (h : Indistinct b b') (hb : Rep b A) (hb' : Rep b' B) (taker : Side) :
    (A.orders taker.opposite).map Entry.ref = (B.orders taker.opposite).map Entry.ref := by
  generalize hx : A.orders taker.opposite = xs
  induction xs generalizing b b' A B with
  | nil =>
    cases hy : B.orders taker.opposite with
    | nil => rfl
    | cons y ys =>
      obtain ⟨-, -, -, -, -, htrades⟩ := h.market hb hb' taker y.quantity
      have hne := (hb'.sound.order (hy ▸ List.mem_cons_self : y ∈ B.orders taker.opposite)).2
      rw [hx, hy, takeQueue_front y ys hne] at htrades
      cases htrades
  | cons x xs ih =>
    have hne := (hb.sound.order (hx ▸ List.mem_cons_self : x ∈ A.orders taker.opposite)).2
    obtain ⟨-, -, -, -, -, hmax⟩ := h.market hb hb' taker (UInt64.ofNat (2 ^ 64 - 1))
    obtain ⟨c, c', hc, hc', hnext, htrades⟩ := h.market hb hb' taker x.quantity
    have hle (q : UInt64) : q ≤ UInt64.ofNat (2 ^ 64 - 1) := by
      have := q.toNat_lt
      rw [UInt64.le_iff_toNat_le]
      simp only [UInt64.reduceOfNat, UInt64.reduceToNat, Nat.reducePow, Nat.reduceSub] at *
      omega
    obtain ⟨fills, hfills⟩ := takeQueue_head xs (by decide) (hle x.quantity)
    rw [hx, hfills] at hmax
    cases hy : B.orders taker.opposite with
    | nil =>
      rw [hy] at hmax
      cases hmax
    | cons y ys =>
      obtain ⟨fills', hfills'⟩ := takeQueue_head ys (by decide) (hle y.quantity)
      rw [hy, hfills', List.map_cons, List.map_cons] at hmax
      have htrade := (List.cons.inj hmax).1
      simp only [Fill.trade, Fill.whole, Trade.mk.injEq, true_and] at htrade
      obtain ⟨hid, hprice, hq⟩ := htrade
      have hleft : (A.take taker (fun _ => true) x.quantity).left.orders taker.opposite = xs := by
        rw [(take_all hb.sound taker x.quantity).2, hx, takeQueue_front x xs hne]
      have hleft' : (B.take taker (fun _ => true) x.quantity).left.orders taker.opposite = ys := by
        rw [(take_all hb'.sound taker x.quantity).2, hy, hq, takeQueue_front y ys (hq ▸ hne)]
      have hrest := ih hnext hc hc' hleft
      rw [hleft'] at hrest
      rw [List.map_cons, List.map_cons, hrest, Entry.ref, Entry.ref, hid, hprice, hq]

def SameContents (b b' : ArrayBook) : Prop :=
  ∀ s i, (b.contents s i).map Entry.ref = (b'.contents s i).map Entry.ref

theorem SameContents.faces (h : SameContents b b') (hb : Rep b A) (hb' : Rep b' B) : Relabelling.SameFaces A B := by
  intro s p
  have hnil {c : ArrayBook} {C : LiveBook} (hc : Rep c C) (hp : p < 0) : C.queue s p = [] := by
    by_contra hne
    have := (queue_range hc s p hne).1
    omega
  rcases lt_or_ge p 0 with hp | hp
  · rw [hnil hb hp, hnil hb' hp]
  · obtain ⟨i, rfl⟩ : ∃ i : ℕ, p = i := ⟨p.toNat, by omega⟩
    rw [← contents_eq hb, ← contents_eq hb']
    exact h s i

theorem SameContents.length (h : SameContents b b') (hb : Rep b A) (hb' : Rep b' B) (s : Side) :
    (A.orders s).length = (B.orders s).length := by
  rw [orders_eq hb, orders_eq hb', List.length_flatMap, List.length_flatMap]
  congr 1
  apply List.map_congr_left
  intro i _
  have := congrArg List.length (h s i)
  rwa [List.length_map, List.length_map] at this

theorem free_length (h : Rep b A) :
    A.free.length + ((A.orders .buy).length + (A.orders .sell).length) = b.pool.capacity % 2 ^ 32 := by
  have hlen := h.slots.length_eq
  rw [LiveBook.slots, List.length_append, List.length_append, List.length_map, List.length_map, List.length_range] at hlen
  exact hlen

theorem SameContents.renamed (h : SameContents b b') (hb : Rep b A) (hb' : Rep b' B)
    (hle : b.pool.capacity % 2 ^ 32 ≤ b'.pool.capacity % 2 ^ 32) : Renamed .faces b b' := by
  refine ⟨A, B, hb, hb', (h.faces hb hb').maps hb.sound hb'.sound ?_⟩
  have := free_length hb
  have := free_length hb'
  have := h.length hb hb' .buy
  have := h.length hb hb' .sell
  omega

/-- A book is what its queues show. Two books that calls have led to are told apart by further calls
just when the queues differ, whatever the timestamps and whichever slots and handles the orders have. -/
theorem contents_observable (h : Reach capacity b) (h' : Reach capacity' b') (hle : capacity ≤ capacity')
    (hlt : capacity' < 2 ^ 32) : Indistinct b b' ↔ SameContents b b' := by
  obtain ⟨A, hb⟩ := h.good.rep
  obtain ⟨B, hb'⟩ := h'.good.rep
  constructor
  · intro hind s i
    have horders := hind.orders hb hb' s.opposite
    rw [Side.opposite_opposite] at horders
    have hfilter (es : List Entry) : (es.filter (fun e => e.price = (i : Int))).map Entry.ref =
        (es.map Entry.ref).filter (fun o => o.price = (i : Int)) := by
      rw [List.filter_map]
      rfl
    rw [contents_eq hb, contents_eq hb', LiveBook.queue_eq_filter hb.sound,
      LiveBook.queue_eq_filter hb'.sound, hfilter, hfilter, horders]
  · intro hsame ops hops
    apply observe_of_renamed (hsame.renamed hb hb' ?_) hops
    rw [h.good.capacity, h'.good.capacity, Nat.mod_eq_of_lt (lt_of_le_of_lt hle hlt), Nat.mod_eq_of_lt hlt]
    exact hle

def entered : ArrayBook := ((init 9).after (.limit 4 .sell 101 6 7)).after (.limit 1 .buy 100 2 8)

theorem contents_observable_entered : Indistinct sample entered ↔ SameContents sample entered := by
  have h0 : Reach 9 (init 9) := ⟨[], .nil _⟩
  have h1 := h0.after (show InScope _ (.limit 4 .sell 101 6 7) from
    .of_add rfl (by simp [Op.price, kBitCount]) (by decide +kernel))
  have h2 := h1.after (show InScope _ (.limit 1 .buy 100 2 8) from
    .of_add rfl (by simp [Op.price, kBitCount]) (by decide +kernel))
  exact contents_observable reach_sample h2 (by decide) (by decide)

end ArrayBook

end Llmes
