import Llmes.Hft.Events
import Llmes.Hft.ShadowSteps

namespace Llmes.Hft

open BookSide BookView LawfulBookSide OrderBook Outcome Tracking Strip

def Op.taking : Op → Option (Side × Option Int)
  | .limit _ side price _ _ => some (side, some price)
  | .market _ side _ _ => some (side, none)
  | .modify _ side price _ _ => some (side, some price)
  | .cancel _ => none

def shadowed (op : Op) (reply : Reply) (live : Side → Int → Bool) (M : Side → Set Int) (s : Side) : Set Int :=
  match Op.taking op with
  | none => M s
  | some (side, limit) =>
    if s = side.opposite then strip (PriceCompare s.isAsk) (fun p => live s p = false ∧ reaches side limit p) (M s)
    else M s ∪ {p | reply.remaining > 0 ∧ op.price = some p}

theorem shadowed_eq {op : Op} {reply : Reply} {live live' : Side → Int → Bool} {M : Side → Set Int} {s side : Side}
    {limit : Option Int} (htaking : Op.taking op = some (side, limit))
    (hlive : ∀ p, live' side.opposite p = live side.opposite p) :
    shadowed op reply live' M s =
      if s = side.opposite then strip (PriceCompare s.isAsk) (fun p => live s p = false ∧ reaches side limit p) (M s)
      else M s ∪ {p | reply.remaining > 0 ∧ op.price = some p} := by
  rw [shadowed, htaking]
  dsimp only
  split
  · next hs =>
    subst hs
    rw [funext hlive]
  · rfl

theorem shadowed_market {orderId : UInt64} {side s : Side} {quantity timestamp : UInt64} {reply : Reply}
    {live : Side → Int → Bool} {M : Side → Set Int} :
    shadowed (.market orderId side quantity timestamp) reply live M s =
      if s = side.opposite then strip (PriceCompare s.isAsk) (fun p => live s p = false ∧ reaches side none p) (M s)
      else M s := by
  rw [shadowed_eq rfl (fun _ => rfl)]
  split
  · rfl
  · exact Set.union_eq_self_of_subset_right (fun p hp => by cases hp.2)

def Targets (b : ArrayBook) (op : PendingOp) : Prop :=
  op.type = .cancel ∨ op.type = .modify →
    b.Resting op.targetHandle.toNat ∧ (b.pool.slots op.targetHandle.toNat).id = op.targetId

variable {enableAttribution : Bool} {w w₁ w' : MacroWorkload enableAttribution} {A : LiveBook} {capacity n : ℕ}
  {x : PendingOp × PendingAttribution} {xs : List (PendingOp × PendingAttribution)}

structure Recorded (w : MacroWorkload enableAttribution) (x : PendingOp × PendingAttribution)
    (w' : MacroWorkload enableAttribution) : Prop where
  call : ∃ reply, w.book.exec x.1.op = .ok (reply, w'.book) ∧ w'.calls = w.calls ++ [⟨w.book, x.1.op, reply⟩] ∧
    (enableAttribution = true → ∀ s, w'.marks s = shadowed x.1.op reply w'.hasPriceLevel w.marks s)
  target : Targets w.book x.1
  quantity : Op.taking x.1.op ≠ none → x.1.op.quantity ≠ 0
  lists : ∃ A, Rep w'.book A ∧ Lists w'.toTracking A.live
  path : enableAttribution = true → x.1.type = .limitAdd → ∀ bit, priceIndex x.1.price = .ok bit →
    x.2.occupancySetPath = (w.shadowTree x.1.side).classifySet bit

theorem Recorded.of_call {b' : ArrayBook} {reply : Reply} (hbook : w'.book = b')
    (hexec : w.book.exec x.1.op = .ok (reply, b')) (hcalls : w'.calls = w.calls ++ [⟨w.book, x.1.op, reply⟩])
    (hmarks : enableAttribution = true → ∀ s, w'.marks s = shadowed x.1.op reply w'.hasPriceLevel w.marks s)
    (target : Targets w.book x.1) (quantity : Op.taking x.1.op ≠ none → x.1.op.quantity ≠ 0)
    (lists : ∃ A, Rep w'.book A ∧ Lists w'.toTracking A.live)
    (path : enableAttribution = true → x.1.type = .limitAdd → ∀ bit, priceIndex x.1.price = .ok bit →
      x.2.occupancySetPath = (w.shadowTree x.1.side).classifySet bit) : Recorded w x w' :=
  ⟨⟨reply, hbook ▸ hexec, hcalls, hmarks⟩, target, quantity, lists, path⟩

inductive RecordedAll : MacroWorkload enableAttribution → List (PendingOp × PendingAttribution) →
    MacroWorkload enableAttribution → Prop
  | nil {w w' : MacroWorkload enableAttribution} (book : w'.book = w.book) (calls : w'.calls = w.calls)
      (attribution : w'.toAttribution = w.toAttribution) : RecordedAll w [] w'
  | cons {w w₁ w' : MacroWorkload enableAttribution} {x : PendingOp × PendingAttribution}
      {xs : List (PendingOp × PendingAttribution)} (head : Recorded w x w₁) (tail : RecordedAll w₁ xs w') : RecordedAll w (x :: xs) w'

theorem Recorded.of_same (h : Recorded w₁ x w') (hbook : w₁.book = w.book) (hcalls : w₁.calls = w.calls)
    (ha : w₁.toAttribution = w.toAttribution) : Recorded w x w' := by
  obtain ⟨reply, hexec, hc, hmarks⟩ := h.call
  rw [hbook] at hexec hc
  rw [hcalls] at hc
  rw [ha] at hmarks
  refine ⟨⟨reply, hexec, hc, hmarks⟩, hbook ▸ h.target, h.quantity, h.lists, ?_⟩
  have hpath := h.path
  rw [ha] at hpath
  exact hpath

theorem RecordedAll.of_same (h : RecordedAll w₁ xs w') (hbook : w₁.book = w.book) (hcalls : w₁.calls = w.calls)
    (ha : w₁.toAttribution = w.toAttribution) : RecordedAll w xs w' := by
  cases h with
  | nil book calls attribution => exact .nil (book.trans hbook) (calls.trans hcalls) (attribution.trans ha)
  | cons head tail => exact .cons (head.of_same hbook hcalls ha) tail

theorem RecordedAll.append {ys : List (PendingOp × PendingAttribution)} (h : RecordedAll w xs w₁)
    (h' : RecordedAll w₁ ys w') : RecordedAll w (xs ++ ys) w' := by
  induction h with
  | nil book calls attribution => exact h'.of_same book calls attribution
  | cons head tail ih => exact .cons head (ih h')

theorem RecordedAll.to_same (h : RecordedAll w xs w₁) (hbook : w'.book = w₁.book) (hcalls : w'.calls = w₁.calls)
    (ha : w'.toAttribution = w₁.toAttribution) : RecordedAll w xs w' := by
  rw [← List.append_nil xs]
  exact h.append (.nil hbook hcalls ha)

structure SameRecord (w w' : MacroWorkload enableAttribution) : Prop where
  pending : w'.pending = w.pending
  pendingAttribution : w'.pendingAttribution = w.pendingAttribution
  pregenQueue : w'.pregenQueue = w.pregenQueue
  pregenAttributionQueue : w'.pregenAttributionQueue = w.pregenAttributionQueue

theorem SameRecord.trans (h : SameRecord w w₁) (h' : SameRecord w₁ w') : SameRecord w w' :=
  ⟨h'.1.trans h.1, h'.2.trans h.2, h'.3.trans h.3, h'.4.trans h.4⟩

structure Planned (w : MacroWorkload enableAttribution) (x : PendingOp × PendingAttribution)
    (xs : List (PendingOp × PendingAttribution)) (w' : MacroWorkload enableAttribution) : Prop where
  recorded : RecordedAll w (x :: xs) w'
  cluster : ∀ y ∈ xs, y.1.type = .cancel
  room : w.pending.length < kMaxSize
  pending : w'.pending = w.pending ++ [x.1]
  pendingAttribution : enableAttribution = true → w'.pendingAttribution = w.pendingAttribution ++ [x.2]
  pregenQueue : w'.pregenQueue = (xs.map Prod.fst).reverse
  pregenAttributionQueue : enableAttribution = true → w'.pregenAttributionQueue = (xs.map Prod.snd).reverse

theorem Planned.of_same (h : Planned w₁ x xs w') (hbook : w₁.book = w.book) (hcalls : w₁.calls = w.calls)
    (ha : w₁.toAttribution = w.toAttribution) (hpending : w₁.pending = w.pending)
    (hattrs : w₁.pendingAttribution = w.pendingAttribution) : Planned w x xs w' :=
  ⟨h.recorded.of_same hbook hcalls ha, h.cluster, hpending ▸ h.room, hpending ▸ h.pending, fun he => hattrs ▸ h.pendingAttribution he, h.pregenQueue,
    h.pregenAttributionQueue⟩

def Popped (w w' : MacroWorkload enableAttribution) : Prop :=
  ∃ op, w.pregenQueue.getLast? = some op ∧ w.pending.length < kMaxSize ∧ w' = { w with
    pending := w.pending ++ [op]
    pendingAttribution :=
      if enableAttribution then w.pendingAttribution ++ [w.pregenAttributionQueue.getLast?.getD {}]
      else w.pendingAttribution
    pregenQueue := w.pregenQueue.dropLast
    pregenAttributionQueue :=
      if enableAttribution then w.pregenAttributionQueue.dropLast else w.pregenAttributionQueue }

structure Pushed (w : MacroWorkload enableAttribution) (x : PendingOp × PendingAttribution)
    (w' : MacroWorkload enableAttribution) : Prop where
  room : w.pending.length < kMaxSize
  pending : w'.pending = w.pending ++ [x.1]
  pendingAttribution : enableAttribution = true → w'.pendingAttribution = w.pendingAttribution ++ [x.2]
  pregenQueue : w'.pregenQueue = w.pregenQueue
  pregenAttributionQueue : w'.pregenAttributionQueue = w.pregenAttributionQueue

namespace MacroWorkload

theorem push_ends {fits : Prop} (w : MacroWorkload enableAttribution) (op : PendingOp) (attribution : PendingAttribution)
    (hlen : w.pending.length ≤ n) :
    Ends (Halts fits capacity n)
      (fun w' => w.pending.length < kMaxSize ∧ w' = { w with
        pending := w.pending ++ [op]
        pendingAttribution :=
          if enableAttribution then w.pendingAttribution ++ [attribution] else w.pendingAttribution })
      (w.push op attribution) := by
  rw [push]
  by_cases hroom : w.pending.length < kMaxSize
  · rw [if_pos hroom]
    exact ⟨hroom, rfl⟩
  · rw [if_neg hroom]
    exact ⟨Or.inr (Or.inr ⟨rfl, by omega⟩), fun _ h => by cases h⟩

theorem applyMatchingAttribution_ends (w : MacroWorkload enableAttribution) (takerSide : Side)
    (limitPrice : Option Int) (trades : List Trade) :
    Ends (fun _ => False)
      (fun w' => ∃ a, w' = { w with toAttribution := a } ∧ (enableAttribution = true → ∀ s, a.marks s =
        if s = takerSide.opposite then
          strip (PriceCompare s.isAsk) (fun p => w.hasPriceLevel s p = false ∧ reaches takerSide limitPrice p) (w.marks s)
        else w.marks s))
      (w.applyMatchingAttribution takerSide limitPrice trades) := by
  rw [applyMatchingAttribution, whenEnabledM]
  split
  · apply Ends.bind (w.toAttribution.applyMatchingAttribution_ends takerSide limitPrice trades _)
    intro a ha
    refine ⟨a, rfl, fun _ s => ?_⟩
    rw [ha]
    split
    · next hs => rw [hs]
    · rfl
  · next he => exact ⟨w.toAttribution, rfl, fun h => absurd h he⟩

theorem touchLevel_eq (w : MacroWorkload enableAttribution) (side : Side) (price : Int) :
    ∃ a, w.touchLevel side price = { w with toAttribution := a } ∧ a.marks = w.marks := by
  rw [touchLevel, whenEnabled]
  split
  · exact ⟨_, rfl, w.toAttribution.touchLevel_marks side price⟩
  · exact ⟨w.toAttribution, rfl, rfl⟩

theorem planRest_ends {fits : Prop} (w : MacroWorkload enableAttribution) (id : UInt64) (side : Side) (price : Int)
    (res : Reply) (hfits : fits → Indexed price) :
    Ends (Halts fits capacity n)
      (fun w' => ∃ a, w' = { w.trackRest id side price res with toAttribution := a } ∧
        (enableAttribution = true → ∀ s, a.marks s = if s = side then w.marks s ∪ {price} else w.marks s))
      (w.planRest id side price res) := by
  have hset : Ends (Halts fits capacity n)
      (fun w' => ∃ a, w' = { w.trackRest id side price res with toAttribution := a } ∧
        (enableAttribution = true → ∀ s, a.marks s = if s = side then w.marks s ∪ {price} else w.marks s))
      ((w.trackRest id side price res).setShadowLevel side price) := by
    rw [setShadowLevel, whenEnabledM]
    split
    · refine Ends.bind (((w.trackRest id side price res).setShadowLevel_ends side price).weaken (halts_range hfits)) ?_
      intro a ha
      exact ⟨a, rfl, fun _ => ha⟩
    · next he => exact ⟨w.toAttribution, rfl, fun h => absurd h he⟩
  rw [planRest]
  apply hset.bind
  rintro _ ⟨a, rfl, ha⟩
  obtain ⟨a', heq, ha'⟩ := touchLevel_eq { w.trackRest id side price res with toAttribution := a } side price
  refine ⟨a', heq, fun he s => ?_⟩
  rw [ha']
  exact ha he s

theorem annotateAdd_ends {fits : Prop} (w : MacroWorkload enableAttribution) (attribution : PendingAttribution)
    (side : Side) (price : Int) (hfits : fits → Indexed price) :
    Ends (Halts fits capacity n)
      (fun a => enableAttribution = true → ∀ bit, priceIndex price = .ok bit →
        a.occupancySetPath = (w.shadowTree side).classifySet bit)
      (w.annotateAdd attribution side price) := by
  rw [annotateAdd]
  split
  · have hindex : Ends (Halts fits capacity n) _ (priceIndex price) :=
      (Attribution.priceIndex_ends price).weaken (halts_range hfits)
    apply Ends.bind hindex.eq_ok
    rintro bit ⟨hbit, -⟩ - bit' hbit'
    obtain rfl := Except.ok.inj (hbit.symm.trans hbit')
    rfl
  · next he => exact fun h => absurd h he

theorem cancelled_eq (w : MacroWorkload enableAttribution) (target : UInt64) (handle : OrderHandle) :
    ∃ x a, w.cancelled target handle =
        (x, { w with toTracking := (w.toTracking.eraseHandle target).trackRemovePredicted target, toAttribution := a }) ∧
      a.marks = w.marks ∧ x.1.op = .cancel handle ∧ x.1.type = .cancel ∧ x.1.targetId = target ∧
      x.1.targetHandle = handle := by
  have hrecord (op : PendingOp) (htype : op.type = .cancel) (hid : op.targetId = target)
      (hhandle : op.targetHandle = handle) (attribution : PendingAttribution) :
      ∃ x a, (((op, attribution), (((w.withTables (·.eraseHandle target)).touchLevel op.side op.price).withTables
          (·.trackRemovePredicted target)).nextOp) : (PendingOp × PendingAttribution) × MacroWorkload enableAttribution) =
          (x, { w with
            toTracking := (w.toTracking.eraseHandle target).trackRemovePredicted target, toAttribution := a }) ∧
        a.marks = w.marks ∧ x.1.op = .cancel handle ∧ x.1.type = .cancel ∧ x.1.targetId = target ∧
        x.1.targetHandle = handle := by
    obtain ⟨a, heq, ha⟩ := (w.withTables (·.eraseHandle target)).touchLevel_eq op.side op.price
    rw [heq]
    refine ⟨_, { a with attributionOpIndex := a.attributionOpIndex + 1 }, rfl, ha, ?_, htype, hid, hhandle⟩
    change op.op = _
    rw [PendingOp.op, htype, hhandle]
  unfold cancelled
  dsimp only
  cases (w.withTables (·.eraseHandle target)).restingOrders.find? target with
  | none => exact hrecord _ rfl rfl rfl _
  | some m =>
    dsimp only
    split
    · exact hrecord _ rfl rfl rfl _
    · exact hrecord _ rfl rfl rfl _

theorem follow_ends {β : Type} {P : β → Prop} {fits : Prop} {k : MacroWorkload enableAttribution → Plan β}
    (w : MacroWorkload enableAttribution) {t : Tracking} {id : UInt64} {side : Side} {price : Int} {res : Reply}
    (hw : w.toTracking = t.applyTradeFills res.trades) (hfits : fits → Indexed price)
    (hk : ∀ a : Attribution,
      (enableAttribution = true → ∀ s, a.marks s =
        if s = side.opposite then
          strip (PriceCompare s.isAsk) (fun p => w.hasPriceLevel s p = false ∧ reaches side (some price) p) (w.marks s)
        else w.marks s ∪ {p | res.remaining > 0 ∧ some price = some p}) →
      Ends (Halts fits capacity n) P
        (k { w with toTracking := t.followAdd id side price res, toAttribution := a })) :
    Ends (Halts fits capacity n) P (do
      let w ← w.applyMatchingAttribution side (some price) res.trades
      if res.remaining > 0 then do
        let w ← w.planRest id side price res
        k w
      else k w) := by
  apply Ends.bind ((w.applyMatchingAttribution_ends side (some price) res.trades).of_never)
  rintro _ ⟨a, rfl, ha⟩
  unfold Tracking.followAdd at hk
  rw [← hw] at hk
  split
  · next hr =>
    rw [if_pos hr] at hk
    apply Ends.bind (planRest_ends _ id side price res hfits)
    rintro _ ⟨a', rfl, ha'⟩
    apply hk
    intro he s
    rw [ha' he s]
    change (if s = side then a.marks s ∪ {price} else a.marks s) = _
    rw [ha he s]
    have hset : {p | res.remaining > 0 ∧ some price = some p} = {price} := by
      ext p
      simp [hr, eq_comm]
    by_cases hs : s = side
    · subst hs
      rw [if_pos rfl, if_neg s.opposite_ne.symm, if_neg s.opposite_ne.symm, hset]
    · rw [if_neg hs]
      split
      · rfl
      · next hs' => exact ((Side.eq_or_eq_opposite side s).elim hs hs').elim
  · next hr =>
    rw [if_neg hr] at hk
    apply hk
    intro he s
    rw [ha he s]
    split
    · rfl
    · simp [hr]

end MacroWorkload

section Levels

variable {t : Tracking} {live : List (Side × Entry)} {A' : LiveBook} {id : UInt64} {side s : Side} {price : Int}
  {q ts : UInt64} {reply : Reply}

theorem Lists.hasPriceLevel_iff (h : Lists t live) {p : Int} :
    t.hasPriceLevel s p = true ↔ ∃ e, (s, e) ∈ live ∧ e.price = p := by
  rw [hasPriceLevel, h.counts]
  have hcount : restingAt live s p = 0 ↔ ¬ ∃ e, (s, e) ∈ live ∧ e.price = p := by
    rw [restingAt, List.countP_eq_zero]
    simp only [decide_eq_true_eq, Prod.forall, not_and, not_exists]
    exact ⟨fun h e he hp => h s e he rfl hp, fun h s' e he hs' hp => h e (hs' ▸ he) hp⟩
  by_cases hz : restingAt live s p = 0
  · rw [hz]
    exact ⟨fun h => absurd h Bool.false_ne_true, fun h => absurd h (hcount.mp hz)⟩
  · rw [levelCount, if_neg hz]
    exact ⟨fun _ => not_not.mp (mt hcount.mpr hz), fun _ => rfl⟩

theorem followAdd_hasPriceLevel (h : Follows t A.live) (ha : LiveBook.Added A id side price q ts reply A')
    (hfresh : ∀ y ∈ A.live, y.2.id ≠ id) (hs : s ≠ side) (p : Int) :
    (t.followAdd id side price reply).hasPriceLevel s p = (t.applyTradeFills reply.trades).hasPriceLevel s p := by
  have hadded := (h.added ha hfresh).1
  have htake := (h.take side (canCrossLimit side price) q id).1
  rw [← ha.trades] at htake
  rw [Bool.eq_iff_iff, hadded.toLists.hasPriceLevel_iff, htake.toLists.hasPriceLevel_iff]
  by_cases hr : reply.remaining = 0
  · rw [ha.left hr]
  · obtain ⟨i, -, hlive⟩ := LiveBook.live_rest (ha.rests hr)
    simp only [hlive.mem_iff, List.mem_cons, Prod.mk.injEq, hs, false_and, false_or]

end Levels

theorem Booked.targets {b : ArrayBook} (h : Booked capacity b A) {y : Side × Entry} (hy : y ∈ A.live) :
    b.Resting (UInt32.ofNat y.2.slot).toNat ∧ (b.pool.slots (UInt32.ofNat y.2.slot).toNat).id = y.2.id := by
  have hloc := h.locate hy
  refine ⟨h.rep.resting_iff.mpr (by rw [hloc]; exact Option.some_ne_none y), ?_⟩
  obtain ⟨z, b₁, hz, -, -, hid, -⟩ := h.rep.remove_live (by rw [hloc]; exact Option.some_ne_none y)
  obtain rfl := Option.some.inj (hloc.symm.trans hz)
  exact hid

theorem Booked.cancel {b : ArrayBook} (h : Booked capacity b A) {y : Side × Entry} (hy : y ∈ A.live) :
    ∃ b', b.exec (.cancel (UInt32.ofNat y.2.slot)) = .ok (.cancelled .success, b') ∧ Booked capacity b' (A.remove y) := by
  have hloc := h.locate hy
  rcases exec_spec h.rep (.cancel (UInt32.ofNat y.2.slot)) (h.cancel_live hy) trivial
    with ⟨-, hA⟩ | ⟨hp, -⟩ | ⟨reply, b', A', hb, hA, hm⟩
  · rw [LiveBook.exec, hloc] at hA
    cases hA
  · exact absurd hp id
  · obtain ⟨rfl, rfl⟩ := cancelled_of_exec hloc hA
    exact ⟨b', hb, h.moved hm⟩

theorem MacroWorkload.call_cancel_ends (h : Booked capacity w.book A) {y : Side × Entry} (hy : y ∈ A.live) :
    Ends (fun _ => False)
      (fun r => ∃ b', r = (.cancelled .success,
          w.called (.cancel (UInt32.ofNat y.2.slot)) (.cancelled .success) b') ∧
        w.book.exec (.cancel (UInt32.ofNat y.2.slot)) = .ok (.cancelled .success, b') ∧
        Booked capacity b' (A.remove y))
      (w.call (.cancel (UInt32.ofNat y.2.slot))) := by
  obtain ⟨b', hb, hbook⟩ := h.cancel hy
  rw [MacroWorkload.call, hb]
  exact ⟨b', rfl, rfl, hbook⟩

theorem PendingOp.indexed_of_cancel {op : PendingOp} (h : op.type = .cancel) : op.op.Indexed := by
  apply Op.indexed_of_none
  rw [PendingOp.op, h]
  rfl

namespace Kept

theorem pendingLimitAdd (h : Kept capacity n w) (hn : 1000000 + n < 2 ^ 64 - 1) (hlen : w.pending.length ≤ n)
    (hask : w.bestAsk < kBitCount) :
    Ends (Halts (AddFits w) capacity n)
      (fun w' => ∃ x, Kept capacity (n + 1) w' ∧ Recorded w x w' ∧ Pushed w x w' ∧ (x.1.op.Indexed ↔ AddFits w))
      w.pendingLimitAdd := by
  have hfits := AddFits.iff_indexed hask
  obtain ⟨A, hbook, hacc, hpriced⟩ := h
  obtain ⟨-, hfresh, -⟩ := hacc.next hn
  have hq := w.toDraws.limit_qty_ne_zero w.bestAsk
  rw [MacroWorkload.pendingLimitAdd]
  generalize w.toDraws.limit w.bestAsk = draw at hq hfits ⊢
  obtain ⟨draw, d⟩ := draw
  have hop : (Op.limit w.idCounter draw.side draw.price draw.qty w.idCounter).Indexed ↔ AddFits w :=
    (Op.indexed_of_price rfl).trans hfits.symm
  dsimp only [MacroWorkload.nextId]
  apply Ends.bind (MacroWorkload.annotateAdd_ends _ _ _ _ hfits.mp)
  intro attribution hpath
  refine Ends.bind (MacroWorkload.call_ends hbook hacc.few trivial hop.mpr) ?_
  rintro _ ⟨res, b', A', rfl, hb, hA, hbook'⟩
  have hadded := added_of_exec_limit hq hA
  obtain ⟨hacc', hpriced'⟩ := hacc.limitAdded hpriced hn hq b' hadded
  have hlevel := followAdd_hasPriceLevel (hacc.follows.withBook b') hadded hfresh draw.side.opposite_ne
  dsimp only
  simp only [hadded.code, true_and]
  apply MacroWorkload.follow_ends _ rfl hfits.mp
  intro a ha
  refine Ends.bind (MacroWorkload.push_ends _ _ _ hlen) ?_
  rintro _ ⟨hroom, rfl⟩
  refine ⟨(_, attribution), ⟨A', hbook'.congr (followAdd_book _ _ _ _ _), hacc', fun _ => hpriced'⟩, ?_,
    ⟨hroom, rfl, fun he => if_pos he, rfl, rfl⟩, hop⟩
  refine Recorded.of_call (followAdd_book _ _ _ _ _) hb rfl ?_ ?_ (fun _ => hq)
    ⟨A', Booked.rep (hbook'.congr (followAdd_book _ _ _ _ _)), hacc'.follows.toLists⟩ (fun he _ => hpath he)
  · intro he s
    refine (ha he s).trans (Eq.symm ?_)
    exact shadowed_eq rfl hlevel
  · rintro (h | h) <;> cases h

theorem pendingFallback (h : Kept capacity n w) (hn : 1000000 + n < 2 ^ 64 - 1) (hlen : w.pending.length ≤ n)
    (hask : w.bestAsk < kBitCount) (hempty : w.restingOrders.isEmpty = true) :
    Ends (Halts (FallbackFits w) capacity n)
      (fun w' => ∃ x, Kept capacity (n + 1) w' ∧ Recorded w x w' ∧ Pushed w x w' ∧ (x.1.op.Indexed ↔ FallbackFits w))
      w.pendingLimitAdd := by
  have hfits : AddFits w ↔ FallbackFits w := by
    rw [FallbackFits, imp_iff_right hempty]
  rw [← hfits]
  exact h.pendingLimitAdd hn hlen hask

theorem pendingMarket (h : Kept capacity n w) (hn : 1000000 + n < 2 ^ 64 - 1) (hlen : w.pending.length ≤ n)
    (hask : w.bestAsk < kBitCount) :
    Ends (Halts (FallbackFits w) capacity n)
      (fun w' => ∃ x, Kept capacity (n + 1) w' ∧ Recorded w x w' ∧ Pushed w x w' ∧ (x.1.op.Indexed ↔ FallbackFits w))
      w.pendingMarket := by
  rw [MacroWorkload.pendingMarket]
  dsimp only
  split
  · next hzero =>
    have hempty : w.restingOrders.isEmpty = true := by
      obtain ⟨A, -, hacc, -⟩ := h
      exact (size_eq_zero_iff hacc hn).mp hzero
    exact h.pendingFallback hn hlen hask hempty
  · next hne =>
    obtain ⟨A, hbook, hacc, hpriced⟩ := h
    rw [size_eq_zero_iff hacc hn] at hne
    rw [← fallback_of_ne hne]
    obtain ⟨y, hy⟩ := List.exists_mem_of_ne_nil _ (mt hacc.follows.toLists.isEmpty_iff.mpr hne)
    have hq := w.toDraws.market_qty_ne_zero (UInt64.ofNat w.restingOrders.size)
    generalize w.toDraws.market (UInt64.ofNat w.restingOrders.size) = draw at hq ⊢
    obtain ⟨⟨side, qty⟩, d⟩ := draw
    have hop : (Op.market w.idCounter side qty w.idCounter).Indexed ↔ True := iff_true_intro (Op.indexed_of_none rfl)
    dsimp only [MacroWorkload.nextId]
    refine Ends.bind (MacroWorkload.call_ends hbook hacc.few trivial hop.mpr) ?_
    rintro _ ⟨res, b', A', rfl, hb, hA, hbook'⟩
    obtain ⟨hcode, htrades, rfl⟩ := marketed_of_exec hq hA
    obtain ⟨hacc', hp⟩ := hacc.marketed hpriced hn hy b' htrades
    apply Ends.bind ((MacroWorkload.applyMatchingAttribution_ends _ side none res.trades).of_never)
    rintro _ ⟨a, rfl, ha⟩
    refine Ends.bind (MacroWorkload.push_ends _ _ _ hlen) ?_
    rintro _ ⟨hroom, rfl⟩
    refine ⟨(_, _), ⟨_, hbook'.congr (applyTradeFills_same _ _).book, hacc', fun _ => hp⟩, ?_,
      ⟨hroom, rfl, fun he => if_pos he, rfl, rfl⟩, hop⟩
    refine Recorded.of_call (applyTradeFills_same _ _).book hb rfl ?_ ?_ (fun _ => hq)
      ⟨_, Booked.rep (hbook'.congr (applyTradeFills_same _ _).book), hacc'.follows.toLists⟩ ?_
    · intro he s
      refine (ha he s).trans (Eq.symm ?_)
      exact shadowed_market
    · rintro (h | h) <;> cases h
    · rintro - h
      cases h

theorem pendingModify (h : Kept capacity n w) (hn : 1000000 + n < 2 ^ 64 - 1) (hlen : w.pending.length ≤ n)
    (hask : w.bestAsk < kBitCount) :
    Ends (Halts (FallbackFits w ∧ (w.restingOrders.isEmpty = false → ModifyFits w)) capacity n)
      (fun w' => ∃ x, Kept capacity (n + 1) w' ∧ Recorded w x w' ∧ Pushed w x w' ∧
        (x.1.op.Indexed ↔ FallbackFits w ∧ (w.restingOrders.isEmpty = false → ModifyFits w)))
      w.pendingModify := by
  rw [MacroWorkload.pendingModify]
  split
  · next hempty =>
    rw [hempty]
    simp only [Bool.true_eq_false, false_imp_iff, and_true]
    exact h.pendingFallback hn hlen hask hempty
  · next hne =>
    obtain ⟨A, hbook, hacc, hpriced⟩ := h
    have hne' := Bool.eq_false_of_not_eq_true hne
    rw [hacc.follows.toLists.isEmpty_iff] at hne
    apply Ends.bind ((MacroWorkload.selectCancelTarget_ends hacc hne).of_never)
    rintro _ ⟨y, hy, restingIds, d, hlisted, hsel, rfl⟩
    have hfits := modify_indexed_iff hbook hacc hne' hy hsel
    have hacc₁ := hacc.withIds hlisted
    dsimp only
    rw [if_neg (hacc.id_ne_zero hy), hacc.follows.toLists.find?_of_mem hy]
    have hq := d.modify_qty_ne_zero y.2.price
    dsimp only
    generalize d.modify y.2.price = draw at hq hfits ⊢
    obtain ⟨draw, d'⟩ := draw
    have hloc := hbook.locate hy
    have hop := (@Op.indexed_of_price (.modify (UInt32.ofNat y.2.slot) draw.side draw.price draw.qty w.idCounter) _
      rfl).trans hfits
    dsimp only [MacroWorkload.nextId]
    rw [hacc.follows.handle_of_mem hy]
    refine Ends.bind (MacroWorkload.call_ends hbook hacc.few (hbook.modify_live hy _ _ _ _) hop.mpr) ?_
    rintro _ ⟨res, b', A', rfl, hb, hA, hbook'⟩
    have hadded := added_of_exec_modify hloc hq hA
    obtain ⟨hacc', hp⟩ := hacc₁.modified hn hbook.rep.sound hy b' hadded
    obtain ⟨hdrop, -, -, hfresh⟩ := (hacc₁.withBook b').drop hbook.rep.sound hy
    have hlevel := followAdd_hasPriceLevel hdrop.follows hadded hfresh draw.side.opposite_ne
    have hbook'' := followModify_book ({ w.toTracking with book := b', restingIds }) y.2.id draw.side draw.price res
    dsimp only
    simp only [hadded.code, ne_eq, not_true_eq_false, if_false]
    obtain ⟨a₀, heq, ha₀⟩ := MacroWorkload.touchLevel_eq (({ w with
      restingIds, toDraws := d', idCounter := w.idCounter + 1 } : MacroWorkload enableAttribution).called
        (.modify (UInt32.ofNat y.2.slot) draw.side draw.price draw.qty w.idCounter) res b') y.1 y.2.price
    rw [heq]
    apply MacroWorkload.follow_ends _ rfl hfits.mpr
    intro a ha
    refine Ends.bind (MacroWorkload.push_ends _ _ _ hlen) ?_
    rintro _ ⟨hroom, rfl⟩
    refine ⟨(_, _), ⟨A', hbook'.congr hbook'', hacc', fun _ => hp⟩, ?_, ⟨hroom, rfl, fun he => if_pos he, rfl, rfl⟩,
      hop⟩
    refine Recorded.of_call hbook'' hb rfl ?_ ?_ (fun _ => hq) ⟨A', (hbook'.congr hbook'').rep, hacc'.follows.toLists⟩ ?_
    · intro he s
      refine (ha he s).trans (Eq.symm ?_)
      rw [show w.marks = a₀.marks from ha₀.symm]
      exact shadowed_eq rfl hlevel
    · exact fun _ => hbook.targets hy
    · rintro - h
      cases h

theorem cancelled (hbook : Booked capacity w.book A) (hacc : Accounts n w.toTracking w.idCounter A)
    {y : Side × Entry} (hy : y ∈ A.live) {b' : ArrayBook} (hbook' : Booked capacity b' (A.remove y))
    (hb : w.book.exec (.cancel (UInt32.ofNat y.2.slot)) = .ok (.cancelled .success, b')) :
    ∃ x w', (w.called (.cancel (UInt32.ofNat y.2.slot)) (.cancelled .success) b').cancelled y.2.id
        (UInt32.ofNat y.2.slot) = (x, w') ∧
      Recorded w x w' ∧ SameRecord w w' ∧ x.1.type = .cancel ∧ Kept capacity n w' ∧ Priced w'.toTracking := by
  obtain ⟨hdrop, hpriced, -, -⟩ := (hacc.withBook b').drop hbook.rep.sound hy
  have hbook'' := hbook'.congr (trackRemovePredicted_same
    (({ w with book := b' } : MacroWorkload enableAttribution).toTracking.eraseHandle y.2.id) y.2.id).1.book
  obtain ⟨x, a, heq, ha, hop, htype, hid, hhandle⟩ := (w.called (.cancel (UInt32.ofNat y.2.slot)) (.cancelled .success)
    b').cancelled_eq y.2.id (UInt32.ofNat y.2.slot)
  refine ⟨x, _, heq, ?_, ⟨rfl, rfl, rfl, rfl⟩, htype, ⟨_, hbook'', hdrop, fun _ => hpriced⟩, hpriced⟩
  refine Recorded.of_call (trackRemovePredicted_same _ _).1.book (hop ▸ hb) (by rw [hop]; rfl) ?_ ?_ ?_
    ⟨_, hbook''.rep, hdrop.follows.toLists⟩ ?_
  · intro he s
    rw [hop]
    exact congrFun ha s
  · rintro -
    rw [hid, hhandle]
    exact hbook.targets hy
  · rw [hop]
    exact fun h => absurd rfl h
  · rintro - h
    rw [htype] at h
    cases h

theorem clusterAttempt (h : Kept capacity n w) (hne : w.restingOrders.isEmpty = false) (best : Int)
    (attempts : ℕ) :
    Ends (fun _ => False)
      (fun r => Kept capacity n r.2 ∧ RecordedAll w r.1.toList r.2 ∧ SameRecord w r.2 ∧
        ∀ x ∈ r.1, x.1.type = .cancel)
      (w.clusterAttempt best attempts) := by
  induction attempts generalizing w with
  | zero => exact ⟨h, .nil rfl rfl rfl, ⟨rfl, rfl, rfl, rfl⟩, fun x hx => by cases hx⟩
  | succ attempts ih =>
    obtain ⟨A, hbook, hacc, hpriced⟩ := h
    have hlive := hacc.follows.toLists.isEmpty_eq_false.mp hne
    have hids := hacc.follows.toLists.restingIds_ne_nil hlive
    rw [MacroWorkload.clusterAttempt]
    apply Ends.bind (Draws.restingId_ends _ hids)
    rintro ⟨id, d⟩ -
    have hretry := ih (w := { w with toDraws := d }) ⟨A, hbook, hacc, hpriced⟩ hne
    have hretry : Ends (fun _ => False)
        (fun r => Kept capacity n r.2 ∧ RecordedAll w r.1.toList r.2 ∧ SameRecord w r.2 ∧
          ∀ x ∈ r.1, x.1.type = .cancel)
        (MacroWorkload.clusterAttempt best attempts { w with toDraws := d }) := by
      apply hretry.imp
      rintro r ⟨hkept, hrec, hsame, htype⟩
      exact ⟨hkept, hrec.of_same rfl rfl rfl, ⟨hsame.1, hsame.2, hsame.3, hsame.4⟩, htype⟩
    dsimp only
    cases hm : w.restingOrders.find? id with
    | none => exact hretry
    | some m =>
      obtain ⟨y, hy, hrow⟩ := hacc.follows.toLists.find?_eq_some.mp hm
      obtain ⟨rfl, rfl⟩ := Prod.mk.inj hrow
      dsimp only
      split
      · rw [hacc.follows.handle_of_mem hy]
        dsimp only
        apply Ends.bind (MacroWorkload.call_cancel_ends (w := { w with toDraws := d }) hbook hy)
        rintro _ ⟨b', rfl, hb, hbook'⟩
        obtain ⟨x, w', heq, hrec, hsame, htype, hkept, -⟩ := cancelled (w := { w with toDraws := d }) hbook hacc hy hbook' hb
        dsimp only
        rw [if_neg (fun h => h rfl), heq]
        refine ⟨hkept, .cons (hrec.of_same rfl rfl rfl) (.nil rfl rfl rfl), ⟨hsame.1, hsame.2, hsame.3, hsame.4⟩, ?_⟩
        rintro x' hx'
        obtain rfl := Option.some.inj hx'
        exact htype
      · exact hretry

theorem clusterLoop (h : Kept capacity n w) (best : Int) (k : ℕ) :
    Ends (fun _ => False)
      (fun r => Kept capacity n r.2 ∧ RecordedAll w r.1 r.2 ∧ SameRecord w r.2 ∧ ∀ x ∈ r.1, x.1.type = .cancel)
      (w.clusterLoop best k) := by
  induction k generalizing w with
  | zero => exact ⟨h, .nil rfl rfl rfl, ⟨rfl, rfl, rfl, rfl⟩, fun x hx => by cases hx⟩
  | succ k ih =>
    rw [MacroWorkload.clusterLoop]
    split
    · exact ⟨h, .nil rfl rfl rfl, ⟨rfl, rfl, rfl, rfl⟩, List.forall_mem_nil _⟩
    · next hne =>
      apply Ends.bind (h.clusterAttempt (by simpa using hne) best 50)
      rintro ⟨op, w₁⟩ ⟨hkept, hrec, hsame, htype⟩
      apply Ends.bind (ih hkept)
      rintro ⟨ops, w₂⟩ ⟨hkept', hrec', hsame', htype'⟩
      refine ⟨hkept', hrec.append hrec', hsame.trans hsame', ?_⟩
      intro x hx
      rcases List.mem_append.mp hx with hx | hx
      · exact htype x (Option.mem_toList.mp hx)
      · exact htype' x hx

theorem enqueueClusterPending (h : Kept capacity n w) (hqueue : w.pregenQueue = [])
    (hattributions : enableAttribution = true → w.pregenAttributionQueue = []) :
    Ends (fun _ => False)
      (fun w' => Kept capacity n w' ∧ ∃ xs, RecordedAll w xs w' ∧ (∀ x ∈ xs, x.1.type = .cancel) ∧
        w'.pending = w.pending ∧ w'.pendingAttribution = w.pendingAttribution ∧
        w'.pregenQueue = (xs.map Prod.fst).reverse ∧
        (enableAttribution = true → w'.pregenAttributionQueue = (xs.map Prod.snd).reverse))
      w.enqueueClusterPending := by
  rw [MacroWorkload.enqueueClusterPending]
  dsimp only
  by_cases hsize : w.toDraws.clusterSize.1 ≤ 1
  · rw [if_pos hsize]
    exact ⟨h, [], .nil rfl rfl rfl, List.forall_mem_nil _, rfl, rfl, hqueue, hattributions⟩
  · rw [if_neg hsize]
    apply Ends.bind (clusterLoop (w := { w with toDraws := w.toDraws.clusterSize.2 }) h _ _)
    rintro ⟨ops, w₁⟩ ⟨hkept, hrec, hsame, htype⟩
    have hrec := hrec.of_same (w := w) rfl rfl rfl
    refine ⟨hkept, ops, hrec.to_same rfl rfl rfl, htype, hsame.pending, hsame.pendingAttribution, ?_, fun he => ?_⟩
    · change w₁.pregenQueue ++ _ = _
      rw [hsame.pregenQueue, hqueue, List.nil_append]
    · apply (if_pos he).trans
      rw [hsame.pregenAttributionQueue, hattributions he, List.nil_append]

theorem cancelAttempts (h : Kept capacity n w) (hne : w.restingOrders.isEmpty = false) (hlen : w.pending.length ≤ n)
    (hqueue : w.pregenQueue = []) (hattributions : enableAttribution = true → w.pregenAttributionQueue = []) (attempts : ℕ) :
    Ends (Halts True capacity n)
      (fun r => r.1 = true ∧ Kept capacity (n + 1) r.2 ∧ ∃ x xs, Planned w x xs r.2 ∧ x.1.type = .cancel)
      (w.cancelAttempts (attempts + 1)) := by
  obtain ⟨A, hbook, hacc, hpriced⟩ := h
  have hlive := hacc.follows.toLists.isEmpty_eq_false.mp hne
  rw [MacroWorkload.cancelAttempts]
  apply Ends.bind ((MacroWorkload.selectCancelTarget_ends hacc hlive).of_never)
  rintro _ ⟨y, hy, restingIds, d, hlisted, -, rfl⟩
  dsimp only
  rw [if_neg (hacc.id_ne_zero hy), hacc.follows.handle_of_mem hy]
  dsimp only
  apply Ends.bind ((MacroWorkload.call_cancel_ends (w := { w with restingIds, toDraws := d }) hbook hy).of_never)
  rintro _ ⟨b', rfl, hb, hbook'⟩
  obtain ⟨x, w₁, heq, hrec, hsame, htype, hkept, hpriced'⟩ :=
    cancelled (w := { w with restingIds, toDraws := d }) hbook (hacc.withIds hlisted) hy hbook' hb
  have hkept := hkept.mono (hacc.pos_of_mem hy) (Nat.le_succ n)
  have hrec := hrec.of_same (w := w) rfl rfl rfl
  dsimp only
  rw [if_neg (fun h => h rfl), heq]
  apply Ends.bind (MacroWorkload.push_ends _ _ _ (hsame.pending ▸ hlen))
  rintro _ ⟨hroom, rfl⟩
  have hroom' := hsame.pending ▸ hroom
  dsimp only
  split
  · refine Ends.bind (Ends.of_never (enqueueClusterPending (n := n + 1) (w := { w₁ with
      pending := w₁.pending ++ [x.1]
      pendingAttribution := if enableAttribution then w₁.pendingAttribution ++ [x.2] else w₁.pendingAttribution
      toDraws := w₁.toDraws.nextParam.2 }) hkept (hsame.pregenQueue.trans hqueue)
      (fun he => hsame.pregenAttributionQueue.trans (hattributions he)))) ?_
    rintro w₂ ⟨hkept', xs, hrecs, htypes, hpending, hattrs, hq, hqa⟩
    refine ⟨rfl, hkept', x, xs, ⟨.cons hrec (hrecs.of_same rfl rfl rfl), htypes, hroom', ?_, ?_, hq, hqa⟩, htype⟩
    · exact hpending.trans (congrArg (· ++ [x.1]) hsame.pending)
    · intro he
      apply (hattrs.trans (if_pos he)).trans
      rw [hsame.pendingAttribution]
  · refine ⟨rfl, hkept, x, [], ⟨.cons hrec (.nil rfl rfl rfl), List.forall_mem_nil _, hroom', ?_, ?_, ?_, ?_⟩, htype⟩
    · exact congrArg (· ++ [x.1]) hsame.pending
    · intro he
      apply (if_pos he).trans
      rw [hsame.pendingAttribution]
    · exact hsame.pregenQueue.trans hqueue
    · exact fun he => hsame.pregenAttributionQueue.trans (hattributions he)

theorem planned_of_pushed (hrec : Recorded w x w') (hpush : Pushed w x w') (hqueue : w.pregenQueue = [])
    (hattributions : enableAttribution = true → w.pregenAttributionQueue = []) : Planned w x [] w' :=
  ⟨.cons hrec (.nil rfl rfl rfl), List.forall_mem_nil _, hpush.room, hpush.pending, hpush.pendingAttribution,
    hpush.pregenQueue.trans hqueue, fun he => hpush.pregenAttributionQueue.trans (hattributions he)⟩

theorem pendingCancel (h : Kept capacity n w) (hn : 1000000 + n < 2 ^ 64 - 1) (hlen : w.pending.length ≤ n)
    (hask : w.bestAsk < kBitCount) (hqueue : w.pregenQueue = [])
    (hattributions : enableAttribution = true → w.pregenAttributionQueue = []) :
    Ends (Halts (FallbackFits w) capacity n)
      (fun w' => Kept capacity (n + 1) w' ∧ ∃ x xs, Planned w x xs w' ∧ (x.1.op.Indexed ↔ FallbackFits w))
      w.pendingCancel := by
  rw [MacroWorkload.pendingCancel]
  split
  · next hempty =>
    apply (h.pendingFallback hn hlen hask hempty).imp
    rintro w' ⟨x, hkept, hrec, hpush, hop⟩
    exact ⟨hkept, x, [], planned_of_pushed hrec hpush hqueue hattributions, hop⟩
  · next hne =>
    rw [← fallback_of_ne hne]
    apply Ends.bind (h.cancelAttempts (by simpa using hne) hlen hqueue hattributions 3)
    rintro ⟨done, w'⟩ ⟨hdone, hkept, x, xs, hplanned, htype⟩
    cases hdone
    exact ⟨hkept, x, xs, hplanned, iff_true_intro (PendingOp.indexed_of_cancel htype)⟩

theorem generatePendingOne (h : Kept capacity n w) (hpos : 0 < n) (hn : 1000000 + n < 2 ^ 64 - 1)
    (hlen : w.pending.length ≤ n) (hask : w.bestAsk < kBitCount)
    (hattributions : w.pregenQueue = [] → enableAttribution = true → w.pregenAttributionQueue = []) :
    Ends (Halts (PlanFits w) capacity n)
      (fun w' => Kept capacity (n + 1) w' ∧
        (Popped w w' ∨ (w.pregenQueue = [] ∧ ∃ x xs, Planned w x xs w' ∧ (x.1.op.Indexed ↔ PlanFits w))))
      w.generatePendingOne := by
  rw [MacroWorkload.generatePendingOne]
  split
  · next op hop =>
    apply Ends.bind (MacroWorkload.push_ends _ _ _ hlen)
    rintro _ ⟨hroom, rfl⟩
    exact ⟨h.mono hpos (Nat.le_succ n), Or.inl ⟨op, hop, hroom, rfl⟩⟩
  · next hop =>
    have hqueue := List.getLast?_eq_none_iff.mp hop
    have hkept : Kept capacity n ({ w with toDraws := w.toDraws.nextEvent.2 } : MacroWorkload enableAttribution) := h
    have hpushed {fits : Prop} {w' : MacroWorkload enableAttribution} :
        (∃ x, Kept capacity (n + 1) w' ∧ Recorded ({ w with toDraws := w.toDraws.nextEvent.2 }) x w' ∧
          Pushed ({ w with toDraws := w.toDraws.nextEvent.2 }) x w' ∧ (x.1.op.Indexed ↔ fits)) →
        Kept capacity (n + 1) w' ∧
          (Popped w w' ∨ (w.pregenQueue = [] ∧ ∃ x xs, Planned w x xs w' ∧ (x.1.op.Indexed ↔ fits))) := by
      rintro ⟨x, hkept, hrec, hpush, hop⟩
      exact ⟨hkept, Or.inr ⟨hqueue, x, [], planned_of_pushed (hrec.of_same rfl rfl rfl)
        ⟨hpush.1, hpush.2, hpush.3, hpush.4, hpush.5⟩ hqueue (hattributions hqueue), hop⟩⟩
    have hfits : PlanFits w ↔ DrawnFits w := by
      rw [PlanFits, imp_iff_right hqueue]
    rw [hfits, DrawnFits]
    dsimp only
    split
    · exact (hkept.pendingLimitAdd hn hlen hask).imp (fun _ => hpushed)
    · split
      · apply (hkept.pendingCancel hn hlen hask hqueue (hattributions hqueue)).imp
        rintro w' ⟨hkept, x, xs, hplanned, hop⟩
        exact ⟨hkept, Or.inr ⟨hqueue, x, xs, hplanned.of_same rfl rfl rfl rfl rfl, hop⟩⟩
      · split
        · exact (hkept.pendingModify hn hlen hask).imp (fun _ => hpushed)
        · exact (hkept.pendingMarket hn hlen hask).imp (fun _ => hpushed)

end Kept

end Llmes.Hft
