import Llmes.EngineAgreement
import Llmes.Transition

namespace Llmes

open BookSide BookView LawfulBookSide OrderBook

def units (trades : List Trade) : List (UInt64 × UInt64 × Int) :=
  trades.flatMap (fun t => List.replicate t.quantity.toNat (t.takerOrderId, t.makerOrderId, t.price))

@[simp] theorem units_append (xs ys : List Trade) : units (xs ++ ys) = units xs ++ units ys :=
  List.flatMap_append

@[simp] theorem units_nil : units [] = [] := rfl

theorem freed_append (fs gs : List Fill) : freed (fs ++ gs) = freed fs ++ freed gs := by
  simp [freed]

def slice (orderId : UInt64) (side : Side) (limit : Option Int) (s : UInt64 × UInt64) : Op :=
  match limit with
  | none => .market orderId side s.1 s.2
  | some price => .limit orderId side price s.1 s.2

def reachesLimit (side : Side) : Option Int → Int → Bool
  | none => fun _ => true
  | some price => canCrossLimit side price

structure Continued {α : Type} (t t₁ t₂ : Taken α) : Prop where
  left : t.left = t₂.left
  quantity : t.quantity = t₁.quantity + t₂.quantity
  units : ∀ orderId, units (t.fills.map (Fill.trade orderId)) =
    units (t₁.fills.map (Fill.trade orderId)) ++ units (t₂.fills.map (Fill.trade orderId))
  freed : freed t.fills = freed t₁.fills ++ freed t₂.fills

namespace Continued

variable {α β : Type}

theorem start (t : Taken α) (left : α) : Continued t ⟨[], 0, left⟩ t where
  left := rfl
  quantity := (UInt64.zero_add _).symm
  units _ := rfl
  freed := rfl

theorem stop (t : Taken α) : Continued t t ⟨[], 0, t.left⟩ where
  left := rfl
  quantity := (UInt64.add_zero _).symm
  units _ := (List.append_nil _).symm
  freed := (List.append_nil _).symm

theorem prepend {t t₁ t₂ : Taken α} (h : Continued t t₁ t₂) (fills fills₁ : List Fill)
    (hunits : ∀ orderId, Llmes.units (fills.map (Fill.trade orderId)) = Llmes.units (fills₁.map (Fill.trade orderId)))
    (hfreed : Llmes.freed fills = Llmes.freed fills₁) :
    Continued ⟨fills ++ t.fills, t.quantity, t.left⟩ ⟨fills₁ ++ t₁.fills, t₁.quantity, t₁.left⟩ t₂ where
  left := h.left
  quantity := h.quantity
  units orderId := by
    simp only [List.map_append, units_append, hunits, h.units, List.append_assoc]
  freed := by simp only [freed_append, hfreed, h.freed, List.append_assoc]

theorem append {s s₁ s₂ : Taken α} (h : Continued s s₁ s₂) (left : β) (t : Taken β) :
    Continued ⟨s.fills ++ t.fills, t.quantity, t.left⟩ ⟨s₁.fills, 0, left⟩ ⟨s₂.fills ++ t.fills, t.quantity, t.left⟩ where
  left := rfl
  quantity := (UInt64.zero_add _).symm
  units orderId := by
    simp only [List.map_append, units_append, h.units, List.append_assoc]
  freed := by simp only [freed_append, h.freed, List.append_assoc]

end Continued

section Arithmetic

variable {q₁ q₂ m : UInt64}

theorem toNat_add_of_lt (h : q₁.toNat + q₂.toNat < 2 ^ 64) : (q₁ + q₂).toNat = q₁.toNat + q₂.toNat := by
  rw [UInt64.toNat_add, Nat.mod_eq_of_lt h]

theorem sub_eq_zero_iff_le (h : q₁ ≤ m) : m - q₁ = 0 ↔ m ≤ q₁ := by
  have hsub := UInt64.toNat_sub_of_le _ _ h
  rw [UInt64.le_iff_toNat_le] at h ⊢
  rw [← UInt64.toNat_inj, hsub, UInt64.toNat_zero]
  omega

theorem le_add_of_sub_le (h : q₁.toNat + q₂.toNat < 2 ^ 64) (hle : q₁ ≤ m) (hsub : m - q₁ ≤ q₂) : m ≤ q₁ + q₂ := by
  rw [UInt64.le_iff_toNat_le, UInt64.toNat_sub_of_le _ _ hle] at hsub
  rw [UInt64.le_iff_toNat_le, toNat_add_of_lt h]
  omega

theorem le_add_of_le (h : q₁.toNat + q₂.toNat < 2 ^ 64) (hle : m ≤ q₁) : m ≤ q₁ + q₂ := by
  rw [UInt64.le_iff_toNat_le] at hle ⊢
  rw [toNat_add_of_lt h]
  omega

theorem sub_le_of_le_add (h : q₁.toNat + q₂.toNat < 2 ^ 64) (hle : q₁ ≤ m) (hadd : m ≤ q₁ + q₂) : m - q₁ ≤ q₂ := by
  rw [UInt64.le_iff_toNat_le, toNat_add_of_lt h] at hadd
  rw [UInt64.le_iff_toNat_le, UInt64.toNat_sub_of_le _ _ hle]
  omega

end Arithmetic

section Queues

variable {q q₁ q₂ : UInt64}

theorem takeQueue_of_le {e : Entry} (es : Queue) (hq : q ≠ 0) (hle : e.quantity ≤ q) :
    takeQueue q (e :: es) = ⟨Fill.whole e :: (takeQueue (q - e.quantity) es).fills,
      (takeQueue (q - e.quantity) es).quantity, (takeQueue (q - e.quantity) es).left⟩ := by
  have hmin : min q e.quantity = e.quantity := by
    rcases min_cases q e.quantity with ⟨hle', hmin⟩ | ⟨-, hmin⟩
    · rw [hmin]
      exact UInt64.le_antisymm hle' hle
    · exact hmin
  rw [takeQueue, if_neg hq]
  dsimp only
  rw [hmin, if_pos (UInt64.sub_self _)]
  rfl

theorem takeQueue_of_lt {e : Entry} (es : Queue) (hq : q ≠ 0) (hlt : ¬ e.quantity ≤ q) :
    takeQueue q (e :: es) = ⟨[⟨e, q⟩], 0, { e with quantity := e.quantity - q } :: es⟩ := by
  have hle : q ≤ e.quantity := UInt64.le_of_lt (UInt64.not_le.mp hlt)
  have hmin : min q e.quantity = q := if_pos hle
  rw [takeQueue, if_neg hq]
  dsimp only
  rw [hmin, if_neg (fun h => hlt ((sub_eq_zero_iff_le hle).mp h)), UInt64.sub_self]

theorem Continued.seam {α : Type} {e : Entry} {v w : UInt64} (h : v.toNat + w.toNat < 2 ^ 64)
    (hlt : ¬ e.quantity ≤ v) (t : Taken α) (left : α) :
    Continued ⟨⟨e, v + w⟩ :: t.fills, t.quantity, t.left⟩ ⟨[⟨e, v⟩], 0, left⟩
      ⟨⟨{ e with quantity := e.quantity - v }, w⟩ :: t.fills, t.quantity, t.left⟩ where
  left := rfl
  quantity := (UInt64.zero_add _).symm
  units orderId := by
    simp only [Llmes.units, Fill.trade, List.map_cons, List.map_nil, List.flatMap_cons, List.flatMap_nil,
      List.append_nil, toNat_add_of_lt h, List.replicate_add, List.append_assoc]
  freed := by
    have hpart : (⟨e, v⟩ : Fill).complete = false := by
      have hle := UInt64.le_of_lt (UInt64.not_le.mp hlt)
      simpa [Fill.complete] using fun h => hlt ((sub_eq_zero_iff_le hle).mp h)
    have hwhole : (⟨e, v + w⟩ : Fill).complete = (⟨{ e with quantity := e.quantity - v }, w⟩ : Fill).complete := by
      have hsub : e.quantity - (v + w) = e.quantity - v - w := by grind
      rw [Fill.complete, Fill.complete, hsub]
    rw [Llmes.freed, Llmes.freed, Llmes.freed, List.filter_cons, List.filter_cons, List.filter_cons, hpart, hwhole]
    cases (⟨{ e with quantity := e.quantity - v }, w⟩ : Fill).complete <;> rfl

theorem takeQueue_add (h : q₁.toNat + q₂.toNat < 2 ^ 64) (es : Queue) :
    Continued (takeQueue (q₁ + q₂) es) (takeQueue q₁ es) (takeQueue q₂ (takeQueue q₁ es).left) := by
  induction es generalizing q₁ with
  | nil => exact ⟨rfl, rfl, fun _ => rfl, rfl⟩
  | cons e es ih =>
    by_cases hz : q₁ = 0
    · subst hz
      rw [takeQueue_zero, UInt64.zero_add]
      exact .start _ _
    by_cases hz' : q₂ = 0
    · subst hz'
      rw [takeQueue_zero, UInt64.add_zero]
      exact .stop _
    have hsum : q₁ + q₂ ≠ 0 := by
      have := toNat_ne_zero.mp hz
      rw [toNat_ne_zero, toNat_add_of_lt h]
      omega
    by_cases hle : e.quantity ≤ q₁
    · have hrest : (q₁ - e.quantity).toNat + q₂.toNat < 2 ^ 64 := by
        rw [UInt64.toNat_sub_of_le _ _ hle]
        omega
      have hq : q₁ + q₂ - e.quantity = q₁ - e.quantity + q₂ := by grind
      rw [takeQueue_of_le es hsum (le_add_of_le h hle), takeQueue_of_le es hz hle, hq]
      exact (ih hrest).prepend [Fill.whole e] _ (fun _ => rfl) rfl
    · have hlt := UInt64.le_of_lt (UInt64.not_le.mp hle)
      rw [takeQueue_of_lt es hz hle]
      by_cases hle' : e.quantity - q₁ ≤ q₂
      · have hv : e.quantity = q₁ + (e.quantity - q₁) := by grind
        have hq : q₁ + q₂ - e.quantity = q₂ - (e.quantity - q₁) := by grind
        have hlast : q₁.toNat + (e.quantity - q₁).toNat < 2 ^ 64 := by
          have := UInt64.le_iff_toNat_le.mp hle'
          omega
        rw [takeQueue_of_le es hsum (le_add_of_sub_le h hlt hle'), takeQueue_of_le es hz' hle', hq]
        have hseam := Continued.seam hlast hle (takeQueue (q₂ - (e.quantity - q₁)) es)
          ({ e with quantity := e.quantity - q₁ } :: es)
        rwa [← hv] at hseam
      · rw [takeQueue_of_lt es hsum (fun hall => hle' (sub_le_of_le_add h hlt hall)), takeQueue_of_lt es hz' hle']
        have hq : e.quantity - (q₁ + q₂) = e.quantity - q₁ - q₂ := by grind
        rw [hq]
        exact Continued.seam h hle ⟨[], 0, { e with quantity := e.quantity - q₁ - q₂ } :: es⟩ _

theorem takeQueue_quantity_le (q : UInt64) (es : Queue) : (takeQueue q es).quantity.toNat ≤ q.toNat := by
  have := takeQueue_total q es
  omega

theorem takeLevels_add (cross : Int → Bool) (h : q₁.toNat + q₂.toNat < 2 ^ 64) (es : List (Int × Queue)) :
    Continued (takeLevels cross (q₁ + q₂) es) (takeLevels cross q₁ es)
      (takeLevels cross q₂ (takeLevels cross q₁ es).left) := by
  induction es generalizing q₁ with
  | nil => exact ⟨rfl, rfl, fun _ => rfl, rfl⟩
  | cons l es ih =>
    obtain ⟨p, os⟩ := l
    by_cases hz : q₁ = 0
    · subst hz
      rw [takeLevels_zero, UInt64.zero_add]
      exact .start _ _
    by_cases hz' : q₂ = 0
    · subst hz'
      rw [takeLevels_zero, UInt64.add_zero]
      exact .stop _
    have hsum : q₁ + q₂ ≠ 0 := by
      have := toNat_ne_zero.mp hz
      rw [toNat_ne_zero, toNat_add_of_lt h]
      omega
    cases hcross : cross p with
    | false =>
      have hstop (q : UInt64) : takeLevels cross q ((p, os) :: es) = ⟨[], q, (p, os) :: es⟩ := by
        rw [takeLevels, if_pos (Or.inr hcross)]
      rw [hstop, hstop]
      dsimp only
      rw [hstop]
      exact ⟨rfl, rfl, fun _ => rfl, rfl⟩
    | true =>
      have hstep {q : UInt64} (hq : q ≠ 0) (os : Queue) : takeLevels cross q ((p, os) :: es) =
          if (takeQueue q os).left = [] then
            ⟨(takeQueue q os).fills ++ (takeLevels cross (takeQueue q os).quantity es).fills,
              (takeLevels cross (takeQueue q os).quantity es).quantity,
              (takeLevels cross (takeQueue q os).quantity es).left⟩
          else ⟨(takeQueue q os).fills, (takeQueue q os).quantity, (p, (takeQueue q os).left) :: es⟩ := by
        rw [takeLevels, if_neg (by simp [hq, hcross])]
      have hos := takeQueue_add h os
      rw [hstep hz]
      split
      · next hleft =>
        rw [hleft] at hos
        have hnil : (takeQueue (q₁ + q₂) os).left = [] := hos.left
        have hquantity : (takeQueue (q₁ + q₂) os).quantity = (takeQueue q₁ os).quantity + q₂ := hos.quantity
        have hlt : (takeQueue q₁ os).quantity.toNat + q₂.toNat < 2 ^ 64 := by
          have := takeQueue_quantity_le q₁ os
          omega
        rw [hstep hsum, if_pos hnil, hquantity]
        apply (ih hlt).prepend _ _
        · intro orderId
          rw [hos.units orderId]
          exact List.append_nil _
        · rw [hos.freed]
          exact List.append_nil _
      · next hleft =>
        have hzero := takeQueue_quantity hleft
        have hquantity : (takeQueue (q₁ + q₂) os).quantity = (takeQueue q₂ (takeQueue q₁ os).left).quantity := by
          rw [hos.quantity, hzero, UInt64.zero_add]
        dsimp only
        rw [hstep hsum, hstep hz', hos.left, hquantity, hzero]
        split
        · exact hos.append _ _
        · exact ⟨rfl, (UInt64.zero_add _).symm, hos.units, hos.freed⟩

end Queues

variable {A : LiveBook} {taker : Side} {cross : Int → Bool}

theorem LiveBook.take_total (A : LiveBook) (taker : Side) (cross : Int → Bool) (q : UInt64) :
    total (A.take taker cross q).fills + (A.take taker cross q).quantity.toNat = q.toNat :=
  takeLevels_total cross q _

theorem LiveBook.take_add (A : LiveBook) (taker : Side) (cross : Int → Bool) {q₁ q₂ : UInt64}
    (h : q₁.toNat + q₂.toNat < 2 ^ 64) :
    Continued (A.take taker cross (q₁ + q₂)) (A.take taker cross q₁) ((A.take taker cross q₁).left.take taker cross q₂) := by
  have hlevels := takeLevels_add cross h (A.side taker.opposite).entries
  have hfills : ((A.take taker cross q₁).left.take taker cross q₂).fills =
      (takeLevels cross q₂ (takeLevels cross q₁ (A.side taker.opposite).entries).left).fills := by
    rw [take_fills, take_left_entries]
  refine ⟨?_, ?_, ?_, ?_⟩
  · apply ext_entries
    · intro s
      by_cases hs : s = taker.opposite
      · subst hs
        rw [take_left_entries, take_left_entries, take_left_entries]
        exact hlevels.left
      · rw [take_left_side_of_ne _ _ _ _ hs, take_left_side_of_ne _ _ _ _ hs, take_left_side_of_ne _ _ _ _ hs]
    · rw [take_left_free, take_left_free, take_left_free, hfills, take_fills, take_fills, hlevels.freed,
        List.reverse_append, List.append_assoc]
  · rw [take_quantity, take_quantity, take_quantity, take_left_entries]
    exact hlevels.quantity
  · intro orderId
    rw [hfills]
    exact hlevels.units orderId
  · rw [hfills]
    exact hlevels.freed

section Slices

variable {b : ArrayBook}

theorem exec_slice (h : Rep b A) (orderId : UInt64) (side : Side) (limit : Option Int) (s : UInt64 × UInt64)
    (hfull : limit ≠ none → (A.take side (reachesLimit side limit) s.1).quantity = 0) :
    ∃ out c, b.exec (slice orderId side limit s) = .ok (.added out, c) ∧
      Rep c (A.take side (reachesLimit side limit) s.1).left ∧
      out.trades = (A.take side (reachesLimit side limit) s.1).fills.map (Fill.trade orderId) ∧
      out.remainingQuantity = (A.take side (reachesLimit side limit) s.1).quantity := by
  cases limit with
  | none =>
    obtain ⟨c, hc, hmoved⟩ := addMarketOrder_spec h orderId side s.1 s.2
    obtain ⟨m, hm, hphase⟩ := matchMarket_spec h orderId side s.1
    obtain ⟨m', hm', hreports⟩ := addMarketOrder_matching hc
    obtain rfl := Except.ok.inj (hm.symm.trans hm')
    refine ⟨_, c, ?_, ?_, hreports.trades.trans hphase.trades, hreports.remainingQuantity.trans hphase.quantity⟩
    · rw [slice, OrderBook.exec, hc]
      rfl
    · rw [reachesLimit, ← (LiveBook.market_left (A := A) orderId side s.1).1]
      exact hmoved.rep
  | some price =>
    have hzero : (A.take side (canCrossLimit side price) s.1).quantity = 0 := hfull (by simp)
    have hA : ∃ out, A.limit orderId side price s.1 s.2 =
        some (out, (A.take side (canCrossLimit side price) s.1).left) := by
      by_cases hz : s.1 = 0
      · rw [LiveBook.limit, if_pos hz, hz, LiveBook.take_zero]
        exact ⟨_, rfl⟩
      · rw [LiveBook.limit, if_neg hz]
        dsimp only
        rw [if_pos hzero]
        exact ⟨_, rfl⟩
    obtain ⟨out, hA⟩ := hA
    rcases addLimitOrder_spec h orderId side price s.1 s.2 (fun hne => absurd hzero hne) with
      ⟨-, hnone⟩ | ⟨hpooled, -⟩ | ⟨out', c, A', hc, hA', hmoved⟩
    · rw [hA] at hnone
      cases hnone
    · exact hpooled.elim
    · obtain ⟨rfl, rfl⟩ := Prod.mk.inj (Option.some.inj (hA.symm.trans hA'))
      obtain ⟨m, hm, hphase⟩ := matchLimit_spec h orderId side price s.1
      obtain ⟨m', hm', hreports⟩ := addLimitOrder_matching hc
      obtain rfl := Except.ok.inj (hm.symm.trans hm')
      refine ⟨out, c, ?_, hmoved.rep, hreports.trades.trans hphase.trades,
        hreports.remainingQuantity.trans hphase.quantity⟩
      rw [slice, OrderBook.exec, hc]
      rfl

def sliceTotal (slices : List (UInt64 × UInt64)) : ℕ := (slices.map (fun s => s.1.toNat)).sum

theorem sliceTotal_cons {s : UInt64 × UInt64} {slices : List (UInt64 × UInt64)} (h : sliceTotal (s :: slices) < 2 ^ 64) :
    s.1.toNat + (UInt64.ofNat (sliceTotal slices)).toNat < 2 ^ 64 ∧
      UInt64.ofNat (sliceTotal (s :: slices)) = s.1 + UInt64.ofNat (sliceTotal slices) := by
  simp only [sliceTotal, List.map_cons, List.sum_cons] at h ⊢
  have hrest : (UInt64.ofNat (slices.map (fun s => s.1.toNat)).sum).toNat = (slices.map (fun s => s.1.toNat)).sum := by
    rw [UInt64.toNat_ofNat', Nat.mod_eq_of_lt (by omega)]
  rw [hrest]
  refine ⟨h, ?_⟩
  rw [← UInt64.toNat_inj, toNat_add_of_lt (by omega), hrest, UInt64.toNat_ofNat', Nat.mod_eq_of_lt h]

theorem run_slices (h : Rep b A) (orderId : UInt64) (side : Side) (limit : Option Int)
    {slices : List (UInt64 × UInt64)} (hsum : sliceTotal slices < 2 ^ 64) {t : Taken LiveBook}
    (ht : A.take side (reachesLimit side limit) (UInt64.ofNat (sliceTotal slices)) = t)
    (hfull : limit ≠ none → t.quantity = 0) :
    ∃ rs c, Machine.runAll OrderBook.exec b (slices.map (slice orderId side limit)) = .ok (rs, c) ∧ Rep c t.left ∧
      units (rs.flatMap Reply.trades) = units (t.fills.map (Fill.trade orderId)) ∧
      (rs.map (fun r => r.remaining.toNat)).sum = t.quantity.toNat := by
  induction slices generalizing b A t with
  | nil =>
    have hzero : A.take side (reachesLimit side limit) 0 = t := ht
    rw [LiveBook.take_zero] at hzero
    subst hzero
    exact ⟨[], b, rfl, h, rfl, rfl⟩
  | cons s slices ih =>
    obtain ⟨hlt, hadd⟩ := sliceTotal_cons hsum
    have hrest : sliceTotal slices < 2 ^ 64 := by
      simp only [sliceTotal, List.map_cons, List.sum_cons] at hsum ⊢
      omega
    have hcont := A.take_add side (reachesLimit side limit) hlt
    rw [← hadd, ht] at hcont
    have hle (q : UInt64) (B : LiveBook) : (B.take side (reachesLimit side limit) q).quantity.toNat ≤ q.toNat := by
      have := B.take_total side (reachesLimit side limit) q
      omega
    have hquantity : t.quantity.toNat = (A.take side (reachesLimit side limit) s.1).quantity.toNat +
        ((A.take side (reachesLimit side limit) s.1).left.take side (reachesLimit side limit)
          (UInt64.ofNat (sliceTotal slices))).quantity.toNat := by
      rw [hcont.quantity]
      apply toNat_add_of_lt
      exact lt_of_le_of_lt (Nat.add_le_add (hle _ _) (hle _ _)) hlt
    have hzero (hlimit : limit ≠ none) : t.quantity.toNat = 0 := by
      rw [hfull hlimit]
      rfl
    have hnone {q : UInt64} (hq : q.toNat = 0) : q = 0 := by
      rw [← UInt64.toNat_inj, hq]
      rfl
    obtain ⟨out, c, hc, hrep, htrades, hremaining⟩ := exec_slice h orderId side limit s (fun hlimit => by
      have := hzero hlimit
      apply hnone
      omega)
    obtain ⟨rs, c', hrun, hrep', hunits, hsum'⟩ := ih hrep hrest rfl (fun hlimit => by
      have := hzero hlimit
      apply hnone
      omega)
    refine ⟨.added out :: rs, c', ?_, hcont.left ▸ hrep', ?_, ?_⟩
    · simp only [List.map_cons, Machine.runAll, hc, hrun, ok_bind]
      rfl
    · rw [List.flatMap_cons, units_append, hunits, hcont.units, Reply.trades, htrades]
    · rw [List.map_cons, List.sum_cons, hsum', hquantity, Reply.remaining, hremaining]

namespace ArrayBook

/-- Whether an order is sent at once or in any number of slices, one after the other, the same units
trade in the same order, as much is left over, and no later call can tell. An order with a limit must
be one that trades in full, since the remainders of its slices would rest one by one. -/
theorem slices_as_one {capacity : ℕ} (h : Reach capacity b) {orderId : UInt64} {side : Side} {limit : Option Int}
    {slices : List (UInt64 × UInt64)} (hsum : sliceTotal slices < 2 ^ 64) {timestamp : UInt64} {out : AddResult}
    {c : ArrayBook}
    (hone : b.exec (slice orderId side limit (UInt64.ofNat (sliceTotal slices), timestamp)) = .ok (.added out, c))
    (hfull : limit ≠ none → out.remainingQuantity = 0) :
    ∃ rs c', Machine.runAll OrderBook.exec b (slices.map (slice orderId side limit)) = .ok (rs, c') ∧
      units (rs.flatMap Reply.trades) = units out.trades ∧
      (rs.map (fun r => r.remaining.toNat)).sum = out.remainingQuantity.toNat ∧
      ∀ ops : List Op, (∀ op ∈ ops, ∀ p ∈ op.price, 0 ≤ p ∧ p < kBitCount) →
        Machine.Allowed OrderBook.exec OrderBook.Names c ops → c'.replies ops = c.replies ops := by
  obtain ⟨A, hrep⟩ := h.good.rep
  have hzero (hlimit : limit ≠ none) :
      (A.take side (reachesLimit side limit) (UInt64.ofNat (sliceTotal slices))).quantity = 0 := by
    cases limit with
    | none => exact absurd rfl hlimit
    | some price =>
      obtain ⟨⟨out', c'⟩, ho, hr⟩ := bind_eq_ok.mp hone
      obtain ⟨hout, -⟩ := Prod.mk.inj (Except.ok.inj hr)
      obtain ⟨m, hm, hreports⟩ := addLimitOrder_matching ho
      obtain ⟨m', hm', hphase⟩ := matchLimit_spec hrep orderId side price (UInt64.ofNat (sliceTotal slices))
      obtain rfl := Except.ok.inj (hm'.symm.trans hm)
      rw [← Reply.added.inj hout] at hfull
      exact hphase.quantity.symm.trans (hreports.remainingQuantity.symm.trans (hfull hlimit))
  obtain ⟨out', c₁, hc₁, hrep₁, htrades, hremaining⟩ :=
    exec_slice hrep orderId side limit (UInt64.ofNat (sliceTotal slices), timestamp) hzero
  obtain ⟨hout, rfl⟩ := Prod.mk.inj (Except.ok.inj (hc₁.symm.trans hone))
  obtain rfl := Reply.added.inj hout
  obtain ⟨rs, c', hrun, hrep', hunits, hsum'⟩ := run_slices hrep orderId side limit hsum rfl hzero
  refine ⟨rs, c', hrun, ?_, ?_, ?_⟩
  · rw [hunits, htrades]
  · rw [hsum', hremaining]
  · intro ops hprice hlive
    exact (serves hprice).agree (serves hprice) hrep' hrep₁ trivial trivial hlive

theorem slices_as_one_sample :
    ∃ rs c', Machine.runAll OrderBook.exec sample ([(1, 7), (0, 8), (3, 9)].map (slice 9 .buy (some 101))) = .ok (rs, c') ∧
      units (rs.flatMap Reply.trades) = units [⟨9, 4, 101, 4⟩] ∧ (rs.map (fun r => r.remaining.toNat)).sum = 0 ∧
      ∀ ops : List Op, (∀ op ∈ ops, ∀ p ∈ op.price, 0 ≤ p ∧ p < kBitCount) →
        Machine.Allowed OrderBook.exec OrderBook.Names (sample.after (.limit 9 .buy 101 4 6)) ops →
          c'.replies ops = (sample.after (.limit 9 .buy 101 4 6)).replies ops := by
  have hone : sample.exec (slice 9 .buy (some 101) (UInt64.ofNat (sliceTotal [(1, 7), (0, 8), (3, 9)]), 6)) =
      .ok (.added ⟨.success, 4, 4, 0, kInvalidHandle, [⟨9, 4, 101, 4⟩]⟩, sample.after (.limit 9 .buy 101 4 6)) :=
    exec_after (by decide +kernel)
  exact slices_as_one reach_sample (by decide) hone (fun _ => rfl)

end ArrayBook

end Slices

end Llmes
