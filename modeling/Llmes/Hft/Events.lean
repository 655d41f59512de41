import Llmes.Hft.Accounts

namespace Llmes.Hft

open BookSide BookView LawfulBookSide OrderBook Outcome Tracking

section Selection

variable {t : Tracking} {live : List (Side × Entry)}

theorem Lists.isEmpty_iff (h : Lists t live) : t.restingOrders.isEmpty = true ↔ live = [] := by
  rw [OrderedMap.isEmpty, List.isEmpty_iff, ← List.length_eq_zero_iff, h.resting.length_eq, List.length_map,
    List.length_eq_zero_iff]

theorem Lists.isEmpty_eq_false (h : Lists t live) : t.restingOrders.isEmpty = false ↔ live ≠ [] := by
  rw [← Bool.not_eq_true, h.isEmpty_iff]

theorem Lists.restingIds_ne_nil (h : Lists t live) (hne : live ≠ []) : t.restingIds ≠ [] := by
  obtain ⟨x, hx⟩ := List.exists_mem_of_ne_nil _ hne
  exact List.ne_nil_of_mem (h.listed x hx)

theorem Lists.mem_restingKeys (h : Lists t live) {id : UInt64} :
    id ∈ t.restingKeys ↔ ∃ x ∈ live, x.2.id = id := by
  rw [Tracking.restingKeys, (h.resting.map Prod.fst).mem_iff, List.map_map, List.mem_map]
  rfl

theorem Draws.restingId_ends (d : Draws) {ids : List UInt64} (h : ids ≠ []) :
    Ends (fun _ => False) (fun r => r.1 ∈ ids) (d.restingId ids) := by
  rw [Draws.restingId, dif_neg (mt List.length_eq_zero_iff.mp h)]
  exact List.get_mem _ _

theorem Tracking.searchResting_ends (t : Tracking) (accept : RestingMeta → Bool) (attempts : ℕ) (d : Draws)
    (h : t.restingIds ≠ []) :
    Ends (fun _ => False) (fun r => ∀ id ∈ r.1, ∃ m, t.restingOrders.find? id = some m)
      (t.searchResting accept attempts d) := by
  induction attempts generalizing d with
  | zero => exact fun id hid => by cases hid
  | succ attempts ih =>
    apply (d.restingId_ends h).bind
    intro r _
    dsimp only
    cases hm : t.restingOrders.find? r.1 with
    | none => exact ih r.2
    | some m =>
      dsimp only
      split
      · intro id hid
        cases hid
        exact ⟨m, hm⟩
      · exact ih r.2

theorem Lists.pickResting_ends (h : Lists t live) (hne : live ≠ []) (d : Draws) :
    Ends (fun _ => False) (fun r => ∃ x ∈ live, x.2.id = r.1) (t.pickResting d) := by
  have hkeys (iteration : HashOrder) : iteration.order t.restingKeys ≠ [] := by
    intro hnil
    have hperm := iteration.perm t.restingKeys
    rw [hnil] at hperm
    obtain ⟨x, hx⟩ := List.exists_mem_of_ne_nil _ hne
    have hmem := h.mem_restingKeys.mpr ⟨x, hx, rfl⟩
    rw [hperm.nil_eq.symm] at hmem
    exact List.not_mem_nil hmem
  rw [Tracking.pickResting]
  apply (Draws.restingId_ends _ (hkeys _)).imp
  intro r hr
  exact h.mem_restingKeys.mp (((HashOrder.perm _ _).mem_iff).mp hr)

theorem Lists.selectCancelTarget_ends (h : Lists t live) (hne : live ≠ []) (d : Draws) :
    Ends (fun _ => False)
      (fun r => (∃ x ∈ live, x.2.id = r.1) ∧ ∃ restingIds, r.2.1 = { t with restingIds } ∧
        ∀ x ∈ live, x.2.id ∈ restingIds)
      (t.selectCancelTarget d) := by
  have hfound (u : Tracking) (hu : u.restingOrders = t.restingOrders) (id : UInt64)
      (hid : ∃ m, u.restingOrders.find? id = some m) : ∃ x ∈ live, x.2.id = id := by
    obtain ⟨m, hm⟩ := hid
    rw [hu, h.find?_eq_some] at hm
    obtain ⟨x, hx, hrow⟩ := hm
    exact ⟨x, hx, congrArg Prod.fst hrow⟩
  rw [Tracking.selectCancelTarget, if_neg (mt h.isEmpty_iff.mp hne)]
  split
  rename_i u d' hc
  have hu : ∃ restingIds, u = { t with restingIds } ∧ ∀ x ∈ live, x.2.id ∈ restingIds := by
    split at hc
    · obtain ⟨rfl, -⟩ := Prod.mk.inj hc
      refine ⟨_, rfl, fun x hx => ?_⟩
      exact ((HashOrder.perm _ _).mem_iff).mpr (h.mem_restingKeys.mpr ⟨x, hx, rfl⟩)
    · obtain ⟨rfl, -⟩ := Prod.mk.inj hc
      exact ⟨t.restingIds, rfl, h.listed⟩
  obtain ⟨restingIds, rfl, hlisted⟩ := hu
  have hlists : Lists { t with restingIds } live := by
    refine ⟨h.resting, fun s p => ?_, hlisted⟩
    cases s
    · exact h.counts .buy p
    · exact h.counts .sell p
  have hids := hlists.restingIds_ne_nil hne
  dsimp only
  apply (Tracking.searchResting_ends _ _ _ _ hids).bind
  rintro ⟨found, d₁⟩ hr
  cases found with
  | some id => exact ⟨hfound _ rfl id (hr id rfl), _, rfl, hlisted⟩
  | none =>
    apply (Tracking.searchResting_ends _ _ _ _ hids).bind
    rintro ⟨found, d₂⟩ hr
    cases found with
    | some id => exact ⟨hfound _ rfl id (hr id rfl), _, rfl, hlisted⟩
    | none =>
      apply (hlists.pickResting_ends hne d₂).bind
      intro r hr
      exact ⟨hr, _, rfl, hlisted⟩

end Selection

def Stops (capacity n : ℕ) (e : Halt) : Prop :=
  e = .book .priceRange ∨ (e = .book .poolExhausted ∧ capacity % 2 ^ 32 ≤ n) ∨ (e = .lengthError ∧ kMaxSize ≤ n)

def Halts (fits : Prop) (capacity n : ℕ) (e : Halt) : Prop := Stops capacity n e ∧ (fits → e ≠ .book .priceRange)

theorem halts_range {fits : Prop} {capacity n : ℕ} {price : Int} (h : fits → Indexed price) (e : Halt)
    (he : e = .book .priceRange ∧ ¬ Indexed price) : Halts fits capacity n e :=
  ⟨Or.inl he.1, fun hfits => absurd (h hfits) he.2⟩

theorem Halts.imp {fits fits' : Prop} {capacity n : ℕ} (h : fits' → fits) (e : Halt) (he : Halts fits capacity n e) :
    Halts fits' capacity n e := ⟨he.1, fun hfits => he.2 (h hfits)⟩

variable {enableAttribution : Bool} {w : MacroWorkload enableAttribution} {A : LiveBook} {capacity n : ℕ}

def Kept (capacity n : ℕ) (w : MacroWorkload enableAttribution) : Prop :=
  ∃ A, Booked capacity w.book A ∧ Accounts n w.toTracking w.idCounter A ∧ (0 < n → Priced w.toTracking)

theorem Booked.exec_ends {b : ArrayBook} (h : Booked capacity b A) (hfew : A.live.length ≤ n) (op : Op)
    (hlive : op.Live A) :
    Ends (Halts op.Indexed capacity n)
      (fun r => b.exec op = .ok r ∧ ∃ A', A.exec op = some (r.1, A') ∧ Booked capacity r.2 A')
      ((b.exec op).mapError Halt.book) := by
  apply ((ArrayBook.exec_ends h.rep op hlive).eq_ok.imp ?_).mapError
  · rintro f ⟨hf, hrange⟩
    refine ⟨?_, fun hop heq => hrange hop (Halt.book.inj heq)⟩
    rcases hf with rfl | ⟨rfl, hfull⟩
    · exact Or.inl rfl
    · rw [h.capacity] at hfull
      exact Or.inr (Or.inl ⟨rfl, hfull.trans hfew⟩)
  · rintro r ⟨hr, A', hA, hm⟩
    exact ⟨hr, A', hA, h.moved hm⟩

namespace MacroWorkload

def called (w : MacroWorkload enableAttribution) (op : Op) (reply : Reply) (book : ArrayBook) :
    MacroWorkload enableAttribution :=
  { w with book, calls := w.calls ++ [⟨w.book, op, reply⟩] }

theorem call_ends {op : Op} {fits : Prop} (h : Booked capacity w.book A) (hfew : A.live.length ≤ n)
    (hlive : op.Live A) (hop : fits → op.Indexed) :
    Ends (Halts fits capacity n)
      (fun r => ∃ reply b' A', r = (reply, w.called op reply b') ∧ w.book.exec op = .ok (reply, b') ∧
        A.exec op = some (reply, A') ∧ Booked capacity b' A')
      (w.call op) := by
  apply ((h.exec_ends hfew op hlive).weaken (Halts.imp hop)).bind
  rintro ⟨reply, b'⟩ ⟨hb, A', hA, hbooked⟩
  exact ⟨reply, b', A', rfl, hb, hA, hbooked⟩

theorem selectCancelTarget_ends (h : Accounts n w.toTracking w.idCounter A) (hne : A.live ≠ []) :
    Ends (fun _ => False)
      (fun r => ∃ x ∈ A.live, ∃ restingIds d', (∀ x ∈ A.live, x.2.id ∈ restingIds) ∧
        w.toTracking.selectCancelTarget w.toDraws = .ok (x.2.id, { w.toTracking with restingIds }, d') ∧
        r = (x.2.id, { w with restingIds, toDraws := d' }))
      w.selectCancelTarget := by
  apply (h.follows.toLists.selectCancelTarget_ends hne w.toDraws).eq_ok.bind
  rintro ⟨id, t, d⟩ ⟨hsel, ⟨x, hx, rfl⟩, restingIds, rfl, hlisted⟩
  exact ⟨x, hx, restingIds, d, hlisted, hsel, rfl⟩

end MacroWorkload

theorem kQtyTable_ne_zero (i : Fin 32) : kQtyTable.get i ≠ 0 := by
  revert i
  decide

theorem Draws.limit_qty_ne_zero (d : Draws) (bestAsk : Int) : (d.limit bestAsk).1.qty ≠ 0 := kQtyTable_ne_zero _

theorem Draws.modify_qty_ne_zero (d : Draws) (oldPrice : Int) : (d.modify oldPrice).1.qty ≠ 0 := by
  change 1 + d.paramRng.tail.tail.head % 20 ≠ 0
  intro h
  have hmod : (d.paramRng.tail.tail.head % 20).toNat < 20 := by
    rw [UInt64.toNat_mod]
    exact Nat.mod_lt _ (by decide)
  have h' := congrArg UInt64.toNat h
  rw [UInt64.toNat_add, UInt64.toNat_one, UInt64.toNat_zero, Nat.mod_eq_of_lt (by omega)] at h'
  omega

theorem max_one_ne_zero (v : UInt64) : max 1 v ≠ 0 := by
  change (if 1 ≤ v then v else 1) ≠ 0
  split
  · next hv =>
    rintro rfl
    exact absurd hv (by decide)
  · decide

theorem Draws.market_qty_ne_zero (d : Draws) (total : UInt64) : (d.market total).1.2 ≠ 0 := by
  change (if d.paramRng.tail.head % 100 < 85 then max 1 (total / 4)
    else if d.paramRng.tail.head % 100 < 98 then max 1 (total / 2) else max 1 (d.eightTenths total)) ≠ 0
  split
  · exact max_one_ne_zero _
  · split <;> exact max_one_ne_zero _

def Sent (fits : Prop) (w w' : MacroWorkload enableAttribution) : Prop :=
  ∃ cs : List Call, w'.calls = w.calls ++ cs ∧ ((∀ c ∈ cs, c.op.Indexed) ↔ fits)

theorem Sent.one {fits : Prop} {w w' : MacroWorkload enableAttribution} {c : Call} (hcalls : w'.calls = w.calls ++ [c])
    (h : c.op.Indexed ↔ fits) : Sent fits w w' :=
  ⟨[c], hcalls, by rw [List.forall_mem_singleton, h]⟩

theorem Sent.congr {fits fits' : Prop} {w w' : MacroWorkload enableAttribution} (h : Sent fits w w') (hfits : fits ↔ fits') :
    Sent fits' w w' := by
  obtain ⟨cs, hcalls, hiff⟩ := h
  exact ⟨cs, hcalls, hiff.trans hfits⟩

namespace Kept

def followed (w : MacroWorkload enableAttribution) (op : Op) (res : Reply) (book : ArrayBook) (t : Tracking) (d : Draws) :
    MacroWorkload enableAttribution :=
  { w.called op res book with toTracking := t, toDraws := d, idCounter := w.idCounter + 1 }

theorem trackRest_follow {t : Tracking} {id : UInt64} {side : Side} {price : Int} {res : Reply}
    (hw : w.toTracking = t.applyTradeFills res.trades) :
    (if res.remaining > 0 then w.trackRest id side price res else w) =
      { w with toTracking := t.followAdd id side price res } := by
  unfold Tracking.followAdd
  rw [← hw]
  split <;> rfl

theorem doLimitAdd_ends (hbook : Booked capacity w.book A) (hacc : Accounts n w.toTracking w.idCounter A)
    (hask : w.bestAsk < kBitCount) :
    Ends (Halts (AddFits w) capacity n)
      (fun r => ∃ draw d res b' A', w.toDraws.limit w.bestAsk = (draw, d) ∧
        LiveBook.Added A w.idCounter draw.side draw.price draw.qty w.idCounter res A' ∧ Booked capacity b' A' ∧
        ((Op.limit w.idCounter draw.side draw.price draw.qty w.idCounter).Indexed ↔ AddFits w) ∧
        r = (true, followed w (.limit w.idCounter draw.side draw.price draw.qty w.idCounter) res b'
          (({ w.toTracking with book := b' } : Tracking).followAdd w.idCounter draw.side draw.price res) d))
      w.doLimitAdd := by
  have hfits := AddFits.iff_indexed hask
  have hq := w.toDraws.limit_qty_ne_zero w.bestAsk
  rw [MacroWorkload.doLimitAdd]
  generalize w.toDraws.limit w.bestAsk = draw at hq hfits ⊢
  obtain ⟨draw, d⟩ := draw
  have hop : (Op.limit w.idCounter draw.side draw.price draw.qty w.idCounter).Indexed ↔ AddFits w :=
    (Op.indexed_of_price rfl).trans hfits.symm
  dsimp only [MacroWorkload.nextId]
  refine Ends.bind (MacroWorkload.call_ends hbook hacc.few trivial hop.mpr) ?_
  rintro _ ⟨res, b', A', rfl, hb, hA, hbook'⟩
  have hadded := added_of_exec_limit hq hA
  dsimp only
  rw [if_pos hadded.code]
  refine ⟨draw, d, res, b', A', rfl, hadded, hbook', hop, congrArg (Prod.mk true) ?_⟩
  exact trackRest_follow rfl

theorem doLimitAdd (h : Kept capacity n w) (hn : 1000000 + n < 2 ^ 64 - 1) (hask : w.bestAsk < kBitCount) :
    Ends (Halts (AddFits w) capacity n) (fun r => Kept capacity (n + 1) r.2 ∧ Sent (AddFits w) w r.2) w.doLimitAdd := by
  obtain ⟨A, hbook, hacc, hpriced⟩ := h
  apply (doLimitAdd_ends hbook hacc hask).imp
  rintro _ ⟨draw, d, res, b', A', hdraw, hadded, hbook', hop, rfl⟩
  have hq : draw.qty ≠ 0 := by
    have hq := w.toDraws.limit_qty_ne_zero w.bestAsk
    rwa [hdraw] at hq
  obtain ⟨hacc', hpriced'⟩ := hacc.limitAdded hpriced hn hq b' hadded
  exact ⟨⟨A', hbook'.congr (Tracking.followAdd_book _ _ _ _ _), hacc', fun _ => hpriced'⟩, Sent.one rfl hop⟩

theorem mono {m : ℕ} (h : Kept capacity n w) (hn : 0 < n) (hnm : n ≤ m) : Kept capacity m w := by
  obtain ⟨A, hbook, hacc, hpriced⟩ := h
  exact ⟨A, hbook, hacc.mono hnm, fun _ => hpriced hn⟩

theorem enqueueClusterLoop {t : Tracking} {ids : UInt64} (h : Accounts n t ids A) (best : Int) (k : ℕ)
    (w : MacroWorkload enableAttribution) (hw : w.toTracking = t) :
    Ends (fun _ => False) (fun w' => ∃ d clusterQueue, w' = { w with toDraws := d, clusterQueue })
      (MacroWorkload.enqueueClusterLoop best k w) := by
  induction k generalizing w with
  | zero => exact ⟨w.toDraws, w.clusterQueue, rfl⟩
  | succ k ih =>
    rw [MacroWorkload.enqueueClusterLoop]
    split
    · exact ⟨w.toDraws, w.clusterQueue, rfl⟩
    · next hne =>
      rw [hw, h.follows.toLists.isEmpty_iff] at hne
      have hids : w.restingIds ≠ [] := by
        rw [hw]
        exact h.follows.toLists.restingIds_ne_nil hne
      apply Ends.bind (Tracking.searchResting_ends _ _ _ _ hids)
      rintro ⟨found, d⟩ _
      refine Ends.imp (ih _ ?_) ?_
      · exact hw
      · rintro _ ⟨d, q, rfl⟩
        exact ⟨d, q, rfl⟩

theorem enqueueClusterLegacy {t : Tracking} {ids : UInt64} (h : Accounts n t ids A)
    (w : MacroWorkload enableAttribution) (hw : w.toTracking = t) :
    Ends (fun _ => False) (fun w' => ∃ d clusterQueue, w' = { w with toDraws := d, clusterQueue })
      w.enqueueClusterLegacy := by
  rw [MacroWorkload.enqueueClusterLegacy]
  dsimp only
  split
  · exact ⟨_, w.clusterQueue, rfl⟩
  · refine Ends.imp (enqueueClusterLoop h _ _ _ ?_) ?_
    · exact hw
    · rintro _ ⟨d, q, rfl⟩
      exact ⟨d, q, rfl⟩

theorem doCancel (h : Kept capacity n w) (targetId : UInt64) :
    Ends (Halts True capacity n)
      (fun r => (r.1 = true → w.bookHandles.find? targetId ≠ none ∧ Kept capacity (n + 1) r.2 ∧ Sent True w r.2) ∧
        (r.1 = false → w.bookHandles.find? targetId = none ∧ r.2 = w)) (w.doCancel targetId) := by
  obtain ⟨A, hbook, hacc, hpriced⟩ := h
  rw [MacroWorkload.doCancel]
  cases hf : w.bookHandles.find? targetId with
  | none => exact ⟨fun h => absurd h Bool.false_ne_true, fun _ => ⟨rfl, rfl⟩⟩
  | some m =>
    obtain ⟨x, hx, hrow⟩ := hacc.follows.find?_handle.mp hf
    obtain ⟨rfl, rfl⟩ := Prod.mk.inj hrow
    have hloc := hbook.locate hx
    have hop : (Op.cancel (UInt32.ofNat x.2.slot)).Indexed ↔ True := iff_true_intro (Op.indexed_of_none rfl)
    dsimp only
    apply Ends.bind (MacroWorkload.call_ends hbook hacc.few (hbook.cancel_live hx) hop.mpr)
    rintro _ ⟨res, b', A', rfl, hb, hA, hbook'⟩
    obtain ⟨rfl, rfl⟩ := cancelled_of_exec hloc hA
    obtain ⟨hdrop, hpriced', -, -⟩ := (hacc.withBook b').drop hbook.rep.sound hx
    have hkept : Kept capacity (n + 1) ((w.called (.cancel (UInt32.ofNat x.2.slot)) (.cancelled .success) b').withTables
        fun t => (t.eraseHandle x.2.id).trackRemovePredicted x.2.id) :=
      ⟨A.remove x, hbook'.congr (trackRemovePredicted_same _ _).1.book, hdrop.mono (Nat.le_succ n), fun _ => hpriced'⟩
    dsimp only
    rw [if_pos (show replyCode (.cancelled .success) = .success from rfl)]
    split
    · apply Ends.bind (Ends.of_never (enqueueClusterLegacy hdrop _ rfl))
      rintro _ ⟨d, q, rfl⟩
      exact ⟨fun _ => ⟨Option.some_ne_none _, hkept, Sent.one rfl hop⟩, fun h => absurd h.symm Bool.false_ne_true⟩
    · exact ⟨fun _ => ⟨Option.some_ne_none _, hkept, Sent.one rfl hop⟩, fun h => absurd h.symm Bool.false_ne_true⟩

theorem fallback (h : Kept capacity n w) (hn : 1000000 + n < 2 ^ 64 - 1) (hask : w.bestAsk < kBitCount)
    (hempty : w.restingOrders.isEmpty = true) :
    Ends (Halts (FallbackFits w) capacity n) (fun r => Kept capacity (n + 1) r.2 ∧ Sent (FallbackFits w) w r.2)
      w.doLimitAdd := by
  have hfits : AddFits w ↔ FallbackFits w := by
    rw [FallbackFits, imp_iff_right hempty]
  rw [← hfits]
  exact h.doLimitAdd hn hask

theorem fallback_of_ne (hne : ¬ w.restingOrders.isEmpty = true) : True ↔ FallbackFits w :=
  iff_of_true trivial (fun h => absurd h hne)

theorem doCancelRandom (h : Kept capacity n w) (hn : 1000000 + n < 2 ^ 64 - 1) (hask : w.bestAsk < kBitCount) :
    Ends (Halts (FallbackFits w) capacity n) (fun r => Kept capacity (n + 1) r.2 ∧ Sent (FallbackFits w) w r.2)
      w.doCancelRandom := by
  rw [MacroWorkload.doCancelRandom]
  split
  · next hempty => exact h.fallback hn hask hempty
  · next hne =>
    rw [← fallback_of_ne hne]
    obtain ⟨A, hbook, hacc, hpriced⟩ := h
    rw [hacc.follows.toLists.isEmpty_iff] at hne
    apply Ends.bind ((MacroWorkload.selectCancelTarget_ends hacc hne).of_never)
    rintro _ ⟨x, hx, restingIds, d, hlisted, -, rfl⟩
    have hkept : Kept capacity n ({ w with restingIds, toDraws := d } : MacroWorkload enableAttribution) :=
      ⟨A, hbook, hacc.withIds hlisted, hpriced⟩
    dsimp only
    rw [if_neg (hacc.id_ne_zero hx)]
    apply (hkept.doCancel x.2.id).imp
    rintro ⟨done, w'⟩ ⟨hdone, hnot⟩
    cases done with
    | true =>
      obtain ⟨-, hkept', hsent⟩ := hdone rfl
      exact ⟨hkept', hsent⟩
    | false =>
      have hhandle := (hnot rfl).1
      change w.bookHandles.find? x.2.id = none at hhandle
      rw [hacc.follows.handle_of_mem hx] at hhandle
      cases hhandle

theorem modify_indexed_iff (hbook : Booked capacity w.book A) (hacc : Accounts n w.toTracking w.idCounter A)
    (hne : w.restingOrders.isEmpty = false) {x : Side × Entry} (hx : x ∈ A.live) {t : Tracking} {d : Draws}
    (hsel : w.toTracking.selectCancelTarget w.toDraws = .ok (x.2.id, t, d)) :
    Indexed (d.modify x.2.price).1.price ↔
      FallbackFits w ∧ (w.restingOrders.isEmpty = false → ModifyFits w) := by
  have hfind := hacc.follows.toLists.find?_of_mem hx
  rw [← Draws.ModifyFits.iff_indexed (hbook.indexed hx), FallbackFits, hne]
  constructor
  · intro hfits
    refine ⟨fun h => absurd h Bool.false_ne_true, fun _ target t' d' m htarget hm => ?_⟩
    cases hsel.symm.trans htarget
    cases hfind.symm.trans hm
    exact hfits
  · rintro ⟨-, hfits⟩
    exact hfits rfl _ _ _ _ hsel hfind

theorem doModify_ends (hbook : Booked capacity w.book A) (hacc : Accounts n w.toTracking w.idCounter A)
    (hne : w.restingOrders.isEmpty = false) :
    Ends (Halts (FallbackFits w ∧ (w.restingOrders.isEmpty = false → ModifyFits w)) capacity n)
      (fun r => ∃ x ∈ A.live, ∃ restingIds d draw d' res b' A', (∀ y ∈ A.live, y.2.id ∈ restingIds) ∧
        w.toTracking.selectCancelTarget w.toDraws = .ok (x.2.id, { w.toTracking with restingIds }, d) ∧
        d.modify x.2.price = (draw, d') ∧
        LiveBook.Added (A.remove x) x.2.id draw.side draw.price draw.qty w.idCounter res A' ∧ Booked capacity b' A' ∧
        ((Op.modify (UInt32.ofNat x.2.slot) draw.side draw.price draw.qty w.idCounter).Indexed ↔
          FallbackFits w ∧ (w.restingOrders.isEmpty = false → ModifyFits w)) ∧
        r = (true, followed w (.modify (UInt32.ofNat x.2.slot) draw.side draw.price draw.qty w.idCounter) res b'
          (((({ w.toTracking with book := b', restingIds } : Tracking).eraseHandle x.2.id).trackRemovePredicted
            x.2.id).followAdd x.2.id draw.side draw.price res) d'))
      w.doModify := by
  have hlive := hacc.follows.toLists.isEmpty_eq_false.mp hne
  rw [MacroWorkload.doModify, if_neg (by rw [hne]; exact Bool.false_ne_true)]
  apply Ends.bind ((MacroWorkload.selectCancelTarget_ends hacc hlive).of_never)
  rintro _ ⟨x, hx, restingIds, d, hlisted, hsel, rfl⟩
  have hfits := modify_indexed_iff hbook hacc hne hx hsel
  dsimp only
  rw [if_neg (hacc.id_ne_zero hx), hacc.follows.toLists.find?_of_mem hx]
  have hq := d.modify_qty_ne_zero x.2.price
  dsimp only
  generalize hdraw : d.modify x.2.price = draw at hq hfits ⊢
  obtain ⟨draw, d'⟩ := draw
  have hloc := hbook.locate hx
  have hop := (@Op.indexed_of_price (.modify (UInt32.ofNat x.2.slot) draw.side draw.price draw.qty w.idCounter) _
    rfl).trans hfits
  dsimp only [MacroWorkload.nextId]
  rw [hacc.follows.handle_of_mem hx]
  refine Ends.bind (MacroWorkload.call_ends hbook hacc.few (hbook.modify_live hx _ _ _ _) hop.mpr) ?_
  rintro _ ⟨res, b', A', rfl, hb, hA, hbook'⟩
  have hadded := added_of_exec_modify hloc hq hA
  dsimp only
  rw [if_pos hadded.code]
  refine ⟨x, hx, restingIds, d, draw, d', res, b', A', hlisted, hsel, hdraw, hadded, hbook', hop,
    congrArg (Prod.mk true) ?_⟩
  exact trackRest_follow rfl

theorem doModify (h : Kept capacity n w) (hn : 1000000 + n < 2 ^ 64 - 1) (hask : w.bestAsk < kBitCount) :
    Ends (Halts (FallbackFits w ∧ (w.restingOrders.isEmpty = false → ModifyFits w)) capacity n)
      (fun r => Kept capacity (n + 1) r.2 ∧
        Sent (FallbackFits w ∧ (w.restingOrders.isEmpty = false → ModifyFits w)) w r.2)
      w.doModify := by
  by_cases hempty : w.restingOrders.isEmpty = true
  · rw [MacroWorkload.doModify, if_pos hempty, hempty]
    simp only [Bool.true_eq_false, false_imp_iff, and_true]
    exact h.fallback hn hask hempty
  · obtain ⟨A, hbook, hacc, hpriced⟩ := h
    apply (doModify_ends hbook hacc (Bool.eq_false_of_not_eq_true hempty)).imp
    rintro _ ⟨x, hx, restingIds, d, draw, d', res, b', A', hlisted, -, hdraw, hadded, hbook', hop, rfl⟩
    obtain ⟨hacc', hpriced'⟩ := (hacc.withIds hlisted).modified hn hbook.rep.sound hx b' hadded
    exact ⟨⟨A', hbook'.congr (Tracking.followModify_book _ _ _ _ _), hacc', fun _ => hpriced'⟩, Sent.one rfl hop⟩

theorem size_eq_zero_iff (hacc : Accounts n w.toTracking w.idCounter A) (hn : 1000000 + n < 2 ^ 64 - 1) :
    UInt64.ofNat w.restingOrders.size = 0 ↔ w.restingOrders.isEmpty = true := by
  have hlen : w.restingOrders.size = A.live.length := by
    rw [OrderedMap.size, hacc.follows.resting.length_eq, List.length_map]
  have hfew := hacc.few
  rw [hacc.follows.toLists.isEmpty_iff, hlen, ← List.length_eq_zero_iff, ← UInt64.toNat_inj, UInt64.toNat_zero,
    UInt64.toNat_ofNat_of_lt' (show A.live.length < 2 ^ 64 by omega)]

theorem doMarket (h : Kept capacity n w) (hn : 1000000 + n < 2 ^ 64 - 1) (hask : w.bestAsk < kBitCount) :
    Ends (Halts (FallbackFits w) capacity n) (fun r => Kept capacity (n + 1) r.2 ∧ Sent (FallbackFits w) w r.2)
      w.doMarket := by
  rw [MacroWorkload.doMarket]
  dsimp only
  split
  · next hzero =>
    have hempty : w.restingOrders.isEmpty = true := by
      obtain ⟨A, -, hacc, -⟩ := h
      exact (size_eq_zero_iff hacc hn).mp hzero
    exact h.fallback hn hask hempty
  · next hne =>
    obtain ⟨A, hbook, hacc, hpriced⟩ := h
    rw [size_eq_zero_iff hacc hn] at hne
    rw [← fallback_of_ne hne]
    obtain ⟨x, hx⟩ := List.exists_mem_of_ne_nil _ (mt hacc.follows.toLists.isEmpty_iff.mpr hne)
    have hq := w.toDraws.market_qty_ne_zero (UInt64.ofNat w.restingOrders.size)
    generalize w.toDraws.market (UInt64.ofNat w.restingOrders.size) = draw at hq ⊢
    obtain ⟨⟨side, qty⟩, d⟩ := draw
    have hop : (Op.market w.idCounter side qty w.idCounter).Indexed ↔ True := iff_true_intro (Op.indexed_of_none rfl)
    dsimp only [MacroWorkload.nextId]
    refine Ends.bind (MacroWorkload.call_ends hbook hacc.few trivial hop.mpr) ?_
    rintro _ ⟨res, b', A', rfl, hb, hA, hbook'⟩
    obtain ⟨hcode, htrades, rfl⟩ := marketed_of_exec hq hA
    dsimp only
    rw [if_pos hcode]
    obtain ⟨hacc', hp⟩ := hacc.marketed hpriced hn hx b' htrades
    exact ⟨⟨_, hbook'.congr (applyTradeFills_same _ _).book, hacc', fun _ => hp⟩, Sent.one rfl hop⟩

theorem executeDrawn (h : Kept capacity n w) (hn : 1000000 + n < 2 ^ 64 - 1) (hask : w.bestAsk < kBitCount) :
    Ends (Halts (DrawnFits w) capacity n) (fun w' => Kept capacity (n + 1) w' ∧ Sent (DrawnFits w) w w')
      w.executeDrawn := by
  have hkept : Kept capacity n ({ w with toDraws := w.toDraws.nextEvent.2 } : MacroWorkload enableAttribution) := h
  rw [MacroWorkload.executeDrawn, DrawnFits]
  dsimp only
  split
  · exact (hkept.doLimitAdd hn hask).bind (fun _ hr => hr)
  · split
    · exact (hkept.doCancelRandom hn hask).bind (fun _ hr => hr)
    · split
      · exact (hkept.doModify hn hask).bind (fun _ hr => hr)
      · exact (hkept.doMarket hn hask).bind (fun _ hr => hr)

theorem generateAndExecuteOne (h : Kept capacity n w) (hn : 1000000 + n < 2 ^ 64 - 1) (hask : w.bestAsk < kBitCount) :
    Ends (Halts (WarmupFits w) capacity n) (fun w' => Kept capacity (n + 1) w' ∧ Sent (WarmupFits w) w w')
      w.generateAndExecuteOne := by
  rw [MacroWorkload.generateAndExecuteOne]
  split
  · next hqueue =>
    have hfits : DrawnFits w ↔ WarmupFits w := by
      rw [WarmupFits, hqueue]
      exact (imp_iff_right (fun target htarget => by cases htarget)).symm
    rw [← hfits]
    exact h.executeDrawn hn hask
  · next targetId hqueue =>
    have hkept : Kept capacity n
        ({ w with clusterQueue := w.clusterQueue.dropLast } : MacroWorkload enableAttribution) := h
    apply Ends.bind ((hkept.doCancel targetId).weaken (Halts.imp (fun _ => trivial)))
    rintro ⟨done, w'⟩ ⟨hdone, hnot⟩
    cases done with
    | true =>
      obtain ⟨hhandle, hkept', hsent⟩ := hdone rfl
      exact ⟨hkept', hsent.congr (iff_of_true trivial (fun h => absurd (h targetId hqueue) hhandle))⟩
    | false =>
      obtain ⟨hhandle, rfl⟩ := hnot rfl
      have hfits : DrawnFits w ↔ WarmupFits w := by
        rw [WarmupFits]
        refine (imp_iff_right (fun target htarget => ?_)).symm
        cases hqueue.symm.trans htarget
        exact hhandle
      rw [← hfits]
      exact hkept.executeDrawn hn hask

end Kept

end Llmes.Hft
