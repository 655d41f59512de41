import Llmes.Hft.Planning
import Llmes.Hft.Rebuild

namespace Llmes

def ArrayBook.live (b : ArrayBook) : List (Side × Entry) :=
  [Side.buy, Side.sell].flatMap (fun s => ((List.range kBitCount).flatMap (b.contents s)).map (Prod.mk s))

theorem ArrayBook.live_perm {b : ArrayBook} {A : LiveBook} (h : Rep b A) : A.live.Perm b.live := by
  have hside (s : Side) : (A.orders s).Perm ((List.range kBitCount).flatMap (b.contents s)) := by
    rw [List.flatMap_congr (fun i _ => contents_eq h s i)]
    exact orders_perm h s
  rw [LiveBook.live, live, List.flatMap_cons, List.flatMap_singleton]
  exact ((hside .buy).map _).append ((hside .sell).map _)

namespace Hft

open BookSide BookView LawfulBookSide OrderBook Outcome Tracking

def Best (s : Side) (live : List (Side × Entry)) (default_ price : Int) : Prop :=
  (∃ e, (s, e) ∈ live ∧ e.price = price ∧ ∀ e', (s, e') ∈ live → e'.price = price ∨ PriceCompare s.isAsk price e'.price) ∨
    ((∀ e, (s, e) ∉ live) ∧ price = default_)

structure Accounted (capacity : ℕ) {enableAttribution : Bool} (w : MacroWorkload enableAttribution) : Prop where
  follows : Follows w.toTracking w.book.live
  bestBid : Best .buy w.book.live 0 w.bestBid
  bestAsk : Best .sell w.book.live 1000 w.bestAsk
  target : w.book.live ≠ [] → ∀ d, Ends (fun _ => False) (fun r => ∃ x ∈ w.book.live, x.2.id = r.1)
    (w.toTracking.selectCancelTarget d)
  rests : ∀ pre id post, w.restingKeys.insertionSort (· ≤ ·) = pre ++ id :: post → ∃ b m,
    pre.foldlM (buildStep w.restingOrders) (ArrayBook.init capacity, OrderedMap.empty) = .ok b ∧
      w.restingOrders.find? id = some m ∧ RestsWhole b.1 id m
  rebuilt : ∃ b, w.buildBookFromTracking capacity = .ok b ∧ w.restingOrders.entries.Perm (b.1.live.map restingRow)

theorem Lists.best {t : Tracking} {live : List (Side × Entry)} (h : Lists t live) (s : Side) (default_ : Int) :
    Best s live default_ (((t.levelCounts s).begin?.map Prod.fst).getD default_) := by
  have hfind {p : Int} {n : ℕ} (hf : (t.levelCounts s).find? p = some n) : ∃ e, (s, e) ∈ live ∧ e.price = p := by
    rw [← h.hasPriceLevel_iff, hasPriceLevel, hf]
    rfl
  have hlevel {e : Entry} (he : (s, e) ∈ live) : ∃ n, (t.levelCounts s).find? e.price = some n := by
    have hsome := h.hasPriceLevel_iff.mpr ⟨e, he, rfl⟩
    exact Option.isSome_iff_exists.mp hsome
  cases hb : (t.levelCounts s).begin? with
  | none =>
    refine Or.inr ⟨fun e he => ?_, rfl⟩
    obtain ⟨n, hn⟩ := hlevel he
    rw [OrderedMap.begin?_eq_none.mp hb] at hn
    cases hn
  | some x =>
    obtain ⟨e, he, hprice⟩ := hfind (OrderedMap.find?_of_begin? hb)
    refine Or.inl ⟨e, he, hprice, fun e' he' => ?_⟩
    obtain ⟨n, hn⟩ := hlevel he'
    exact OrderedMap.begin?_least hb hn

variable {enableAttribution : Bool} {w : MacroWorkload enableAttribution} {capacity n : ℕ}

theorem Kept.accounted (h : Kept capacity n w) (hn : 0 < n) : Accounted capacity w := by
  obtain ⟨A, hbook, hacc, hpriced⟩ := h
  have hfollows := hacc.follows.perm (ArrayBook.live_perm hbook.rep)
  obtain ⟨hrests, b, A', hb, hbook', hrows, -, -⟩ := rebuild_spec hacc.follows.toLists hbook
  refine ⟨hfollows, ?_, ?_, ?_, hrests, b, hb, ?_⟩
  · rw [(hpriced hn).1]
    exact hfollows.toLists.best .buy 0
  · rw [(hpriced hn).2]
    exact hfollows.toLists.best .sell 1000
  · exact fun hne d => (hfollows.toLists.selectCancelTarget_ends hne d).imp (fun _ hr => hr.1)
  · exact hrows.trans ((ArrayBook.live_perm hbook'.rep).map _)

theorem Kept.bestAsk_lt (h : Kept capacity n w) (hn : 0 < n) : w.bestAsk < kBitCount := by
  obtain ⟨A, hbook, hacc, hpriced⟩ := h
  have hbest := hacc.follows.toLists.best .sell 1000
  rw [show w.bestAsk = _ from (hpriced hn).2]
  rcases hbest with ⟨e, he, hprice, -⟩ | ⟨-, hprice⟩
  · exact hprice ▸ (hbook.indexed he).2
  · exact hprice.trans_lt (by decide)

theorem Accounts.start (d : Draws) :
    Accounts 0 (MacroWorkload.start enableAttribution capacity d).toTracking
      (MacroWorkload.start enableAttribution capacity d).idCounter (LiveBook.init capacity) := by
  refine ⟨⟨⟨List.Perm.refl _, fun s p => ?_, List.forall_mem_nil _⟩, List.Perm.refl _⟩, le_rfl,
    List.forall_mem_nil _, ⟨le_rfl, le_rfl⟩⟩
  cases s <;> rfl

theorem Kept.start (d : Draws) : Kept capacity 0 (MacroWorkload.start enableAttribution capacity d) :=
  ⟨LiveBook.init capacity, .init capacity, .start d, fun h => absurd h (lt_irrefl 0)⟩

theorem setShadowLevel_of_range (a : Attribution) (s : Side) {p : Int} (hp : Indexed p) :
    Ends (fun _ => False) (fun a' => ∀ t, a'.marks t = if t = s then a.marks t ∪ {p} else a.marks t)
      (a.setShadowLevel s p) :=
  (a.setShadowLevel_ends s p).weaken (fun _ h => h.2 hp)

theorem resetLevels_ends (s : Side) (ps : List Int) (a : Attribution) (hps : ∀ p ∈ ps, 0 ≤ p ∧ p < kBitCount) :
    Ends (fun _ => False) (fun a' => ∀ t, a'.marks t = if t = s then a.marks t ∪ {p | p ∈ ps} else a.marks t)
      (ps.foldlM (Attribution.resetLevel s) a) := by
  induction ps generalizing a with
  | nil =>
    intro t
    split
    · simp
    · rfl
  | cons p ps ih =>
    have hstep := setShadowLevel_of_range a s (hps p List.mem_cons_self)
    rw [List.foldlM_cons, Attribution.resetLevel, bind_assoc]
    apply hstep.bind
    intro a' ha'
    apply (ih _ (fun q hq => hps q (List.mem_cons_of_mem _ hq))).imp
    intro a'' ha'' t
    rw [ha'', Attribution.touch_marks, ha']
    by_cases ht : t = s
    · simp only [ht, if_true, List.mem_cons, Set.union_assoc]
      rfl
    · simp only [ht, if_false]

theorem resetAttributionState_ends {t : Tracking}
    (hrange : ∀ s p, t.hasPriceLevel s p = true → 0 ≤ p ∧ p < kBitCount) :
    Ends (fun _ => False) (fun a => ∀ s, a.marks s = {p | t.hasPriceLevel s p = true})
      (Attribution.resetAttributionState t) := by
  have hkeys (s : Side) (p : Int) :
      p ∈ (t.levelCounts s).entries.map Prod.fst ↔ t.hasPriceLevel s p = true := by
    rw [hasPriceLevel, Option.isSome_iff_exists, List.mem_map]
    constructor
    · rintro ⟨e, he, rfl⟩
      exact ⟨e.2, OrderedMap.find?_of_mem he⟩
    · rintro ⟨n, hn⟩
      exact ⟨(p, n), OrderedMap.find?_eq_some.mp hn, rfl⟩
  have hempty (s : Side) : Attribution.reset.marks s = ∅ := by
    rw [Set.eq_empty_iff_forall_notMem]
    rintro p ⟨i, -, hi⟩
    cases s <;> simp [Attribution.reset, Attribution.shadowTree, ShadowOccupancyTree.test, ShadowOccupancyTree.reset] at hi
  apply Ends.bind (resetLevels_ends .buy _ _ (fun p hp => hrange .buy p ((hkeys .buy p).mp hp)))
  intro a ha
  apply (resetLevels_ends .sell _ a (fun p hp => hrange .sell p ((hkeys .sell p).mp hp))).imp
  intro a' ha' s
  rw [ha', ha, hempty]
  cases s
  · rw [if_neg (by decide), if_pos rfl, Set.empty_union]
    exact Set.ext (hkeys .buy)
  · rw [if_pos rfl, if_neg (by decide), Set.empty_union]
    exact Set.ext (hkeys .sell)

theorem Accounts.rebuilt {t : Tracking} {ids : UInt64} {A A' : LiveBook} (h : Accounts n t ids A)
    {b : ArrayBook × IdMap HandleMeta} (hrows : t.restingOrders.entries.Perm (A'.live.map restingRow))
    (hhandles : b.2.entries.Perm (A'.live.map handleRow)) :
    Accounts n { t with book := b.1, bookHandles := b.2 } ids A' := by
  have hperm := h.follows.resting.symm.trans hrows
  have hids : (A.live.map (fun x => x.2.id)).Perm (A'.live.map (fun x => x.2.id)) := by
    have hfst := hperm.map Prod.fst
    rwa [List.map_map, List.map_map] at hfst
  have horigin {y : Side × Entry} (hy : y ∈ A'.live) : ∃ x ∈ A.live, x.2.id = y.2.id :=
    List.mem_map.mp (hids.mem_iff.mpr (List.mem_map_of_mem hy))
  have hcount (s : Side) (p : Int) : restingAt A.live s p = restingAt A'.live s p := by
    have hc := hperm.countP_eq (fun r => r.2.side = s ∧ r.2.price = p)
    rwa [List.countP_map, List.countP_map] at hc
  refine ⟨⟨⟨hrows, fun s p => ?_, fun y hy => ?_⟩, hhandles⟩, ?_, fun y hy => ?_, h.counter⟩
  · rw [← hcount]
    cases s
    · exact h.follows.counts .buy p
    · exact h.follows.counts .sell p
  · obtain ⟨x, hx, hxy⟩ := horigin hy
    rw [← hxy]
    exact h.follows.listed x hx
  · have hlen := hids.length_eq
    rw [List.length_map, List.length_map] at hlen
    exact hlen ▸ h.few
  · obtain ⟨x, hx, hxy⟩ := horigin hy
    rw [← hxy]
    exact h.issued x hx

theorem Kept.beginBatch (h : Kept capacity n w) :
    Ends (fun _ => False)
      (fun w' => Kept capacity n w' ∧ w'.pending = [] ∧ w'.pregenQueue = [] ∧ w'.calls = [] ∧
        (enableAttribution = true → w'.pendingAttribution = [] ∧ w'.pregenAttributionQueue = [] ∧
          ∀ s, w'.marks s = {p | w'.hasPriceLevel s p = true}) ∧
        (∀ s p, ref (w'.book.book s) p ≠ none → w'.hasPriceLevel s p = true) ∧
        ∀ t : Tracking, t.restingOrders = w'.restingOrders →
          t.buildBookFromTracking capacity = .ok (w'.book, w'.bookHandles))
      (w.beginBatch capacity) := by
  obtain ⟨A, hbook, hacc, hpriced⟩ := h
  have hacc₁ : Accounts n w.toTracking.updateBestPrices w.idCounter A := by
    refine ⟨⟨⟨hacc.follows.resting, fun s p => ?_, hacc.follows.listed⟩, hacc.follows.handles⟩, hacc.few,
      hacc.issued, hacc.counter⟩
    rw [levelCounts_updateBestPrices]
    exact hacc.follows.counts s p
  obtain ⟨-, b, A', hb, hbook', hrows, hhandles, hfull⟩ :=
    rebuild_spec (t := w.toTracking.updateBestPrices) hacc₁.follows.toLists hbook
  have hacc' := hacc₁.rebuilt hrows hhandles
  have hlevel {s : Side} {p : Int} := hacc'.follows.toLists.hasPriceLevel_iff (s := s) (p := p)
  have hrange (s : Side) (p : Int)
      (hp : ({ w.toTracking.updateBestPrices with book := b.1, bookHandles := b.2 } : Tracking).hasPriceLevel s p = true) :
      0 ≤ p ∧ p < kBitCount := by
    obtain ⟨e, he, rfl⟩ := hlevel.mp hp
    exact hbook'.indexed he
  have hmarked (s : Side) (p : Int) (hp : ref (b.1.book s) p ≠ none) :
      ({ w.toTracking.updateBestPrices with book := b.1, bookHandles := b.2 } : Tracking).hasPriceLevel s p = true := by
    obtain ⟨e, he⟩ := List.exists_mem_of_ne_nil _ (hfull s p hp)
    exact hlevel.mpr ⟨e, LiveBook.mem_live.mpr (LiveBook.mem_orders.mpr ⟨p, he⟩), hbook'.rep.sound.price s p e he⟩
  have hbuild (t : Tracking) (ht : t.restingOrders = w.restingOrders) : t.buildBookFromTracking capacity = .ok b := by
    rw [← hb, buildBookFromTracking, buildBookFromTracking, restingKeys, restingKeys, ht]
    rfl
  have hkept (a : Attribution) : Kept capacity n ({ w with
      toTracking := { w.toTracking.updateBestPrices with book := b.1, bookHandles := b.2 }
      toAttribution := a } : MacroWorkload enableAttribution) :=
    ⟨A', hbook', hacc', fun _ => ⟨rfl, rfl⟩⟩
  rw [MacroWorkload.beginBatch, MacroWorkload.rebuild]
  change Ends _ _ (Except.mapError Halt.book (w.toTracking.updateBestPrices.buildBookFromTracking capacity) >>= _ >>= _)
  rw [hb, bind_assoc]
  change Ends _ _ (if enableAttribution then _ else _)
  by_cases he : enableAttribution = true
  · rw [if_pos he]
    apply Ends.bind (resetAttributionState_ends hrange)
    intro a ha
    exact ⟨hkept a, rfl, rfl, rfl, fun _ => ⟨if_pos he, if_pos he, ha⟩, hmarked, hbuild⟩
  · rw [if_neg he]
    exact ⟨hkept w.toAttribution, rfl, rfl, rfl, fun h => absurd h he, hmarked, hbuild⟩

structure Batch (capacity k : ℕ) (w : MacroWorkload enableAttribution) : Prop where
  kept : Kept capacity (505000 + k) w
  length : w.pending.length = k
  room : k ≤ kMaxSize
  queues : enableAttribution = true → w.pregenAttributionQueue.length = w.pregenQueue.length

theorem Batch.step {k : ℕ} (h : Batch capacity k w) :
    Ends (Halts (PlanFits w) capacity (505000 + k))
      (fun w' => Batch capacity (k + 1) w' ∧
        (Popped w w' ∨ (w.pregenQueue = [] ∧ ∃ x xs, Planned w x xs w' ∧ (x.1.op.Indexed ↔ PlanFits w))))
      w.generatePendingOne := by
  have hroom := h.room
  have hmax : kMaxSize + 1 = 2 ^ 63 := by
    rw [kMaxSize]
    norm_num
  have hask := h.kept.bestAsk_lt (by omega)
  refine (h.kept.generatePendingOne (by omega) (by omega) (by rw [h.length]; omega) hask ?_).imp ?_
  · intro hqueue he
    have hlen := h.queues he
    rw [hqueue] at hlen
    exact List.length_eq_zero_iff.mp hlen
  · rintro w' ⟨hkept, hw'⟩
    refine ⟨⟨hkept, ?_, ?_, fun he => ?_⟩, hw'⟩
    · rcases hw' with ⟨op, -, -, rfl⟩ | ⟨-, x, xs, hp, -⟩
      · exact (List.length_append).trans (congrArg (· + 1) h.length)
      · rw [hp.pending, List.length_append, h.length]
        rfl
    · rcases hw' with ⟨op, -, hlt, -⟩ | ⟨-, x, xs, hp, -⟩
      · rw [h.length] at hlt
        exact hlt
      · have hlt := hp.room
        rw [h.length] at hlt
        exact hlt
    · rcases hw' with ⟨op, -, -, rfl⟩ | ⟨-, x, xs, hp, -⟩
      · change (if enableAttribution then _ else _ : List PendingAttribution).length = _
        rw [if_pos he, List.length_dropLast, List.length_dropLast, h.queues he]
      · rw [hp.pregenAttributionQueue he, hp.pregenQueue, List.length_reverse, List.length_reverse, List.length_map,
          List.length_map]

theorem Stops.mono {m : ℕ} (hnm : n ≤ m) (e : Halt) (h : Stops capacity n e) : Stops capacity m e :=
  h.imp_right (Or.imp (fun h => ⟨h.1, h.2.trans hnm⟩) (fun h => ⟨h.1, h.2.trans hnm⟩))

theorem Halts.mono {fits : Prop} {m : ℕ} (hnm : n ≤ m) (e : Halt) (h : Halts fits capacity n e) :
    Halts fits capacity m e := ⟨Stops.mono hnm e h.1, h.2⟩

theorem Kept.seedOne (h : Kept capacity n w) (hn : 1000000 + n < 2 ^ 64 - 1) (hask : w.bestAsk < kBitCount) :
    Ends (Halts (AddFits w) capacity n) (fun w' => Kept capacity (n + 1) w' ∧ Sent (AddFits w) w w')
      (MacroWorkload.seedOne w) := by
  apply (h.doLimitAdd hn hask).bind
  intro r hr
  exact hr

end Hft

end Llmes
