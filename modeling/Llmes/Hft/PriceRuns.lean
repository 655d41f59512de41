import Llmes.Hft.SetupRuns

namespace Llmes.Hft

open BookSide BookView LawfulBookSide OrderBook Outcome MacroWorkload

variable {enableAttribution : Bool} {w w₁ w' : MacroWorkload enableAttribution} {capacity n k : ℕ}

theorem Kept.resting_indexed (h : Kept capacity n w) : ∀ r ∈ w.restingOrders.entries, Indexed r.2.price := by
  intro r hr
  obtain ⟨A, hbook, hacc, -⟩ := h
  obtain ⟨x, hx, rfl⟩ := List.mem_map.mp (hacc.follows.resting.mem_iff.mp hr)
  exact hbook.indexed hx

/-- Events of the kind 93 modify an order. With words of zeros a seed is a buy, and a modify takes a tick off
the price of the order whose id is the first. -/
def sinking : Draws :=
  ⟨Stream'.const 93, Stream'.const 0, Stream'.const ⟨id, List.Perm.refl⟩, fun total => total * 4 / 5⟩

theorem Halts.elim {fits : Prop} {e : Halt} (h : Halts fits capacity n e) (hfits : fits) (hpool : n < capacity % 2 ^ 32)
    (hmax : n < kMaxSize) : False := by
  obtain ⟨he | ⟨-, hfull⟩ | ⟨-, hfull⟩, hrange⟩ := h
  · exact hrange hfits he
  · omega
  · omega

section Runs

variable (enableAttribution : Bool) (capacity : ℕ) (d : Draws)

theorem warmupsFit_of_indexed {k : ℕ} (hk : k ≤ 500000) (hpool : 5000 + k < capacity % 2 ^ 32) (hmax : 5000 + k < kMaxSize)
    (h : Ends (fun e => e ≠ .book .priceRange) (fun w => ∀ c ∈ w.calls, c.op.Indexed)
      (warmed enableAttribution capacity d k)) :
    WarmupsFit enableAttribution capacity d k := by
  have hsent := warmed_sent enableAttribution capacity d hk
  cases hw : warmed enableAttribution capacity d k with
  | ok w =>
    rw [hw] at h hsent
    exact (hsent.2.calls rfl).mp h
  | error e =>
    rw [hw] at h hsent
    exact (Halts.elim ⟨hsent.1, fun _ => h⟩ trivial hpool hmax).elim

/-- Every price that is passed to the book can be indexed just if each event is drawn so that it fits. Then no
index is out of range either. What the end of the warmup builds the book from always fits. -/
theorem prices_indexed_iff :
    (∀ k ≤ kSeeds, Ends (Halts (SeedsFit enableAttribution capacity d k) capacity k)
      (fun w => (∀ c ∈ w.calls, c.op.Indexed) ↔ SeedsFit enableAttribution capacity d k)
      (seeded enableAttribution capacity d k)) ∧
    (∀ k ≤ kWarmupEvents.toNat, Ends (Halts (WarmupsFit enableAttribution capacity d k) capacity (kSeeds + k))
      (fun w => ((∀ c ∈ w.calls, c.op.Indexed) ↔ WarmupsFit enableAttribution capacity d k) ∧
        ∀ r ∈ w.restingOrders.entries, Indexed r.2.price)
      (warmed enableAttribution capacity d k)) ∧
    ∀ k, Ends (Halts (WarmupsFit enableAttribution capacity d kWarmupEvents.toNat ∧
        PlansFit enableAttribution capacity d k) capacity (kSeeds + kWarmupEvents.toNat + k))
      (fun w => (∀ c ∈ w.calls, c.op.Indexed) ↔ PlansFit enableAttribution capacity d k)
      (planned enableAttribution capacity d k) := by
  refine ⟨fun k hk => ?_, fun k hk => ?_, fun k => (planned_sent k).imp (fun _ => And.right)⟩
  · apply (seeded_sent enableAttribution capacity d hk).imp
    rintro w ⟨-, hsent⟩
    exact hsent.calls rfl
  · apply (warmed_sent enableAttribution capacity d hk).imp
    rintro w ⟨hkept, hsent⟩
    exact ⟨hsent.calls rfl, hkept.resting_indexed⟩

end Runs

def passed : Plan (MacroWorkload false) → List (Option Int)
  | .error _ => []
  | .ok w => w.calls.map (fun c => c.op.price)

theorem fits_of_passed {g : Plan (MacroWorkload false)} {fits : Prop} {E : Halt → Prop}
    (h : Ends E (fun w => (∀ c ∈ w.calls, c.op.Indexed) ↔ fits) g)
    (hg : passed g = [some 899, some 899, some 899]) : fits := by
  cases g with
  | error e => cases hg
  | ok w =>
    refine h.mp (fun c hc => ?_)
    have hmem : c.op.price ∈ passed (.ok w) := List.mem_map_of_mem hc
    rw [hg] at hmem
    have hprice : c.op.price = some 899 := by simpa using hmem
    exact (Op.indexed_of_price hprice).mpr ⟨by norm_num, by decide⟩

theorem prices_indexed_seeds : passed (seeded false 8 sinking 3) = [some 899, some 899, some 899] ∧
    SeedsFit false 8 sinking 3 := by
  have hpassed : passed (seeded false 8 sinking 3) = [some 899, some 899, some 899] := by decide +kernel
  have hk : 3 ≤ kSeeds := by norm_num [kSeeds]
  refine ⟨hpassed, ?_⟩
  -- a literal number of rounds would be run by the elaborator
  generalize 3 = k at hpassed hk ⊢
  exact fits_of_passed ((prices_indexed_iff false 8 sinking).1 k hk) hpassed

section Sinking

structure Sinking (capacity n size : ℕ) (price : Int) (w : MacroWorkload enableAttribution) (A : LiveBook) : Prop where
  booked : Booked capacity w.book A
  accounts : Accounts n w.toTracking w.idCounter A
  priced : 0 < n → Priced w.toTracking
  bestAsk : w.bestAsk = 1000
  buys : A.orders .sell = []
  length : A.live.length = size
  ids : w.restingIds.length = n
  first : ∀ id ∈ w.restingIds.head?, ∃ x ∈ A.live, x.2.id = id ∧ x.2.price = price
  toDraws : w.toDraws = sinking
  clusterQueue : w.clusterQueue = []

variable {A A' : LiveBook} {t : Tracking} {size : ℕ} {price : Int}

theorem Follows.bestAsk (h : Follows t A.live) (hpriced : Priced t) (hbuys : A.orders .sell = []) : t.bestAsk = 1000 := by
  rw [hpriced.2]
  rcases h.toLists.best .sell 1000 with ⟨e, he, -⟩ | ⟨-, hprice⟩
  · have hmem := LiveBook.mem_live.mp he
    rw [hbuys] at hmem
    cases hmem
  · exact hprice

theorem added_alone {id : UInt64} {q ts : UInt64} {reply : Reply} (h : LiveBook.Added A id .buy price q ts reply A')
    (hq : q ≠ 0) (hbuys : A.orders .sell = []) :
    reply.trades = [] ∧ reply.remaining > 0 ∧ A'.orders .sell = [] ∧
      ∃ e : Entry, e.id = id ∧ e.price = price ∧ A'.live.Perm ((.buy, e) :: A.live) := by
  obtain ⟨hfills, hquantity, hperm⟩ := @LiveBook.take_of_orders_nil A .buy hbuys (canCrossLimit .buy price) q
  have hremaining : reply.remaining = q := h.remaining.trans hquantity
  obtain ⟨i, -, hlive⟩ := LiveBook.live_rest (h.rests (hremaining ▸ hq))
  have hlive := hlive.trans (hperm.cons _)
  refine ⟨by rw [h.trades, hfills]; rfl, hremaining ▸ UInt64.pos_iff_ne_zero.mpr hq, ?_, _, rfl, rfl, hlive⟩
  rw [List.eq_nil_iff_forall_not_mem]
  intro e he
  have hmem := hlive.mem_iff.mp (LiveBook.mem_live.mpr he : (Side.sell, e) ∈ A'.live)
  rcases List.mem_cons.mp hmem with heq | hmem
  · cases heq
  · have hold := LiveBook.mem_live.mp hmem
    rw [hbuys] at hold
    cases hold

theorem followAdd_restingIds {id : UInt64} {side : Side} {res : Reply} (h : res.remaining > 0) :
    (t.followAdd id side price res).restingIds = t.restingIds ++ [id] := by
  rw [Tracking.followAdd, if_pos h]
  exact (Tracking.trackAddPredicted_same _ side price id _).2.2.trans
    (congrArg (· ++ [id]) (Tracking.applyTradeFills_same _ _).restingIds)

theorem restingId_sinking {id : UInt64} {ids : List UInt64} (h : ids.head? = some id) :
    sinking.restingId ids = .ok (id, sinking) := by
  cases ids with
  | nil => cases h
  | cons id' ids =>
    obtain rfl := Option.some.inj h
    have hne : (id' :: ids).length ≠ 0 := Nat.succ_ne_zero _
    have hindex : (0 : UInt64).toNat % (id' :: ids).length = 0 := Nat.zero_mod _
    rw [Draws.restingId, dif_neg hne]
    change Except.ok ((id' :: ids).get ⟨(0 : UInt64).toNat % (id' :: ids).length, _⟩, sinking) = _
    simp only [hindex]
    rfl

theorem searchResting_sinking {id : UInt64} {m : RestingMeta} (hids : t.restingIds.head? = some id)
    (hm : t.restingOrders.find? id = some m) (accept : RestingMeta → Bool) {attempts : ℕ} (hattempts : attempts ≠ 0) :
    t.searchResting accept attempts sinking = .ok (if accept m then some id else none, sinking) := by
  have hstep (attempts : ℕ) : t.searchResting accept (attempts + 1) sinking =
      if accept m then .ok (some id, sinking) else t.searchResting accept attempts sinking := by
    rw [Tracking.searchResting, restingId_sinking hids]
    simp only [bind, Except.bind, hm]
    rfl
  obtain ⟨attempts, rfl⟩ := Nat.exists_eq_succ_of_ne_zero hattempts
  by_cases haccept : accept m = true
  · rw [hstep, if_pos haccept, if_pos haccept]
  · rw [if_neg haccept]
    induction attempts with
    | zero =>
      rw [hstep, if_neg haccept]
      rfl
    | succ attempts ih =>
      rw [hstep, if_neg haccept]
      exact ih (Nat.succ_ne_zero _)

theorem selectCancelTarget_sinking {id : UInt64} {m : RestingMeta} (hids : t.restingIds.head? = some id)
    (hm : t.restingOrders.find? id = some m) (hlen : t.restingIds.length ≤ t.restingOrders.size * 8) :
    t.selectCancelTarget sinking = .ok (id, t, sinking) := by
  have hne : t.restingOrders.isEmpty ≠ true := by
    intro hempty
    rw [OrderedMap.isEmpty_iff.mp hempty] at hm
    cases hm
  have hcompact : (t.restingIds.isEmpty || t.restingIds.length > t.restingOrders.size * 8) = false := by
    have hcons : t.restingIds.isEmpty = false := by
      rw [List.isEmpty_eq_false_iff]
      rintro hnil
      rw [hnil] at hids
      cases hids
    rw [hcons, Bool.false_or, decide_eq_false_iff_not]
    omega
  rw [Tracking.selectCancelTarget, if_neg hne]
  have hnext : sinking.nextParam = (0, sinking) := rfl
  have hroll : (0 : UInt64) % 100 < 60 := by decide
  simp only [hcompact, Bool.false_eq_true, if_false, hnext, hroll, if_true]
  rw [searchResting_sinking hids hm _ (by norm_num)]
  cases Tracking.within (refPrice t.bestAsk) 0 2 m with
  | true => rfl
  | false =>
    change (t.searchResting (fun _ => true) 100 sinking >>= _) = _
    rw [searchResting_sinking hids hm _ (by norm_num)]
    rfl

theorem limit_sinking : (sinking.limit 1000).1.side = .buy ∧ (sinking.limit 1000).1.price = 899 ∧
    (sinking.limit 1000).2 = sinking := by
  refine ⟨rfl, ?_, rfl⟩
  rw [limit_price]
  decide +kernel

theorem modify_sinking (price : Int) : (sinking.modify price).1.side = .buy ∧ (sinking.modify price).1.price = price - 1 ∧
    (sinking.modify price).2 = sinking := ⟨rfl, rfl, rfl⟩

theorem first_append {ids : List UInt64} {id : UInt64} {live : List (Side × Entry)}
    (hids : ∀ id ∈ ids.head?, ∃ x ∈ live, x.2.id = id ∧ x.2.price = price)
    (hid : ∃ x ∈ live, x.2.id = id ∧ x.2.price = price) :
    ∀ id' ∈ (ids ++ [id]).head?, ∃ x ∈ live, x.2.id = id' ∧ x.2.price = price := by
  cases ids with
  | nil =>
    rintro id' h
    cases h
    exact hid
  | cons id₀ ids => exact hids

theorem Sinking.add (h : Sinking capacity n n 899 w A) (hn : n < 500000) (hpool : n < capacity % 2 ^ 32) :
    Ends (fun _ => False) (fun w' => ∃ A', Sinking capacity (n + 1) (n + 1) 899 w' A') (seedOne w) := by
  obtain ⟨hside, hprice, hnext⟩ := limit_sinking
  rw [← h.toDraws, ← h.bestAsk] at hside hprice hnext
  have hfits : AddFits w := by
    rw [AddFits.iff_indexed (by rw [h.bestAsk]; decide), hprice]
    exact ⟨by norm_num, by decide⟩
  have hacc := h.accounts
  have hmax : n < kMaxSize := by
    rw [kMaxSize]
    omega
  refine Ends.bind ((Kept.doLimitAdd_ends h.booked hacc (by rw [h.bestAsk]; decide)).mono
    (fun e he => he.elim hfits hpool hmax) (fun _ hr => hr)) ?_
  rintro _ ⟨draw, d, res, b', A', hdraw, hadded, hbook', -, rfl⟩
  have hq := w.toDraws.limit_qty_ne_zero w.bestAsk
  rw [hdraw] at hside hprice hnext hq
  obtain ⟨side, p, q⟩ := draw
  obtain rfl : side = .buy := hside
  obtain rfl : p = 899 := hprice
  obtain ⟨hacc', hpriced⟩ := hacc.limitAdded h.priced (by omega) hq b' hadded
  obtain ⟨-, hrests, hbuys, e, he, hep, hperm⟩ := added_alone hadded hq h.buys
  have hids := @followAdd_restingIds { w.toTracking with book := b' } 899 w.idCounter .buy res hrests
  refine ⟨A', hbook'.congr (Tracking.followAdd_book _ _ _ _ _), hacc', fun _ => hpriced, ?_, hbuys, ?_, ?_, ?_, ?_,
    h.clusterQueue⟩
  · exact hacc'.follows.bestAsk hpriced hbuys
  · rw [hperm.length_eq, List.length_cons, h.length]
  · exact (congrArg List.length hids).trans (by rw [List.length_append, List.length_singleton]; exact congrArg _ h.ids)
  · change ∀ id ∈ (Tracking.followAdd _ _ _ _ _).restingIds.head?, _
    rw [hids]
    apply first_append
    · intro id hhead
      obtain ⟨x, hx, hfirst⟩ := h.first id hhead
      exact ⟨x, hperm.mem_iff.mpr (List.mem_cons_of_mem _ hx), hfirst⟩
    · exact ⟨_, hperm.mem_iff.mpr List.mem_cons_self, he, hep⟩
  · exact hnext.trans h.toDraws

theorem Sinking.target (h : Sinking capacity n size price w A) (hpos : 0 < n) (hsize : n ≤ size * 8) :
    ∃ x ∈ A.live, x.2.price = price ∧ w.restingIds.head? = some x.2.id ∧
      w.toTracking.selectCancelTarget w.toDraws = .ok (x.2.id, w.toTracking, sinking) := by
  obtain ⟨id, hid⟩ : ∃ id, w.restingIds.head? = some id := by
    have hne : w.restingIds ≠ [] := by
      intro hnil
      have hids := h.ids
      rw [hnil] at hids
      exact hpos.ne hids
    exact ⟨_, List.head?_eq_some_head hne⟩
  obtain ⟨x, hx, rfl, hprice⟩ := h.first id hid
  have hlen : w.restingOrders.size = size := by
    rw [OrderedMap.size, h.accounts.follows.resting.length_eq, List.length_map, h.length]
  refine ⟨x, hx, hprice, hid, ?_⟩
  rw [h.toDraws]
  apply selectCancelTarget_sinking hid (h.accounts.follows.toLists.find?_of_mem hx)
  rw [h.ids, hlen]
  exact hsize

theorem Sinking.drawn (h : Sinking capacity n size price w A) : w.generateAndExecuteOne = (w.doModify >>= fun r => pure r.2) ∧
    (WarmupFits w ↔ FallbackFits w ∧ (w.restingOrders.isEmpty = false → ModifyFits w)) := by
  have hroll : w.toDraws.nextEvent.1 = 93 := by
    rw [h.toDraws]
    rfl
  have hdraws : w.toDraws.nextEvent.2 = w.toDraws := by
    rw [h.toDraws]
    rfl
  have hqueue : w.clusterQueue.getLast? = none := by
    rw [h.clusterQueue]
    rfl
  have hadd : ¬ (93 : UInt64) % 100 < 45 := by decide
  have hcancel : ¬ (93 : UInt64) % 100 < 93 := by decide
  have hmodify : (93 : UInt64) % 100 < 98 := by decide
  constructor
  · rw [generateAndExecuteOne, hqueue]
    dsimp only
    rw [executeDrawn]
    dsimp only
    rw [hroll, hdraws, if_neg hadd, if_neg hcancel, if_pos hmodify]
  · rw [WarmupFits, imp_iff_right (fun target htarget => by rw [hqueue] at htarget; cases htarget), DrawnFits]
    dsimp only
    rw [hroll, hdraws, if_neg hadd, if_neg hcancel, if_pos hmodify]

theorem Sinking.fits_iff (h : Sinking capacity n size price w A) (hpos : 0 < n) (hsize : n ≤ size * 8) :
    WarmupFits w ↔ 1 ≤ price := by
  obtain ⟨x, hx, hprice, -, hsel⟩ := h.target hpos hsize
  have hne := h.accounts.follows.toLists.isEmpty_eq_false.mpr (List.ne_nil_of_mem hx)
  obtain ⟨hlow, hhigh⟩ := h.booked.indexed hx
  rw [h.drawn.2, ← Kept.modify_indexed_iff h.booked h.accounts hne hx hsel, (modify_sinking _).2.1, Indexed]
  omega

theorem Sinking.sink (h : Sinking capacity n size price w A) (hpos : 0 < n) (hn : n < 500000)
    (hpool : n < capacity % 2 ^ 32) (hsize : n ≤ size * 8) (hprice : 1 ≤ price) :
    Ends (fun _ => False) (fun w' => ∃ A', Sinking capacity (n + 1) size (price - 1) w' A')
      w.generateAndExecuteOne := by
  have hacc := h.accounts
  obtain ⟨hevent, hfits⟩ := h.drawn
  obtain ⟨x, hx, hxp, hid, hsel⟩ := h.target hpos hsize
  have hne := hacc.follows.toLists.isEmpty_eq_false.mpr (List.ne_nil_of_mem hx)
  have hmax : n < kMaxSize := by
    rw [kMaxSize]
    omega
  rw [hevent]
  refine Ends.bind ((Kept.doModify_ends h.booked hacc hne).mono (fun e he => he.elim
    (hfits.mp ((h.fits_iff hpos hsize).mpr hprice)) hpool hmax) (fun _ hr => hr)) ?_
  rintro _ ⟨y, hy, restingIds, d, draw, d', res, b', A', hlisted, hsel', hdraw, hadded, hbook', -, rfl⟩
  obtain ⟨hxy, hrest⟩ := Prod.mk.inj (Except.ok.inj (hsel.symm.trans hsel'))
  obtain ⟨htables, rfl⟩ := Prod.mk.inj hrest
  obtain rfl : w.restingIds = restingIds := congrArg Tracking.restingIds htables
  have hyp : y.2.price = price := by
    have hrow := hacc.follows.toLists.find?_of_mem hx
    rw [hxy, hacc.follows.toLists.find?_of_mem hy] at hrow
    exact (congrArg RestingMeta.price (Option.some.inj hrow)).trans hxp
  obtain ⟨hside, hdp, hnext⟩ := modify_sinking y.2.price
  have hq := sinking.modify_qty_ne_zero y.2.price
  rw [hdraw] at hside hdp hnext hq
  rw [hyp] at hdp
  obtain ⟨side, p, q⟩ := draw
  obtain rfl : side = .buy := hside
  obtain rfl : p = price - 1 := hdp
  have hremove := LiveBook.live_remove h.booked.rep.sound (LiveBook.mem_live.mp hy)
  obtain ⟨hacc', hpriced'⟩ := hacc.modified (by omega) h.booked.rep.sound hy b' hadded
  have hsame := (Tracking.trackRemovePredicted_same
    (({ w.toTracking with book := b' } : Tracking).eraseHandle y.2.id) y.2.id).1
  have hsells : (A.remove y).orders .sell = [] := by
    rw [List.eq_nil_iff_forall_not_mem]
    intro e he
    have hmem := hremove.mem_iff.mpr (List.mem_cons_of_mem _ (LiveBook.mem_live.mpr he : (Side.sell, e) ∈ _))
    have hold := LiveBook.mem_live.mp hmem
    rw [h.buys] at hold
    cases hold
  obtain ⟨-, hrests, hbuys, e, he, hep, hperm⟩ := added_alone hadded hq hsells
  have hids := (@followAdd_restingIds ((({ w.toTracking with book := b' } : Tracking).eraseHandle
    y.2.id).trackRemovePredicted y.2.id) (price - 1) y.2.id .buy res hrests).trans
      (congrArg (· ++ [y.2.id]) hsame.restingIds)
  refine ⟨A', hbook'.congr ((Tracking.followAdd_book _ _ _ _ _).trans hsame.book), hacc', fun _ => hpriced', ?_, hbuys,
    ?_, ?_, ?_, hnext, h.clusterQueue⟩
  · exact hacc'.follows.bestAsk hpriced' hbuys
  · have hlength := hremove.length_eq
    rw [h.length] at hlength
    rw [hperm.length_eq, List.length_cons, hlength, List.length_cons]
  · apply (congrArg List.length hids).trans
    rw [List.length_append, List.length_singleton]
    exact congrArg (· + 1) h.ids
  · change ∀ id ∈ (Tracking.followAdd _ _ _ _ _).restingIds.head?, _
    rw [hids]
    have hnew : ∃ z ∈ A'.live, z.2.id = y.2.id ∧ z.2.price = price - 1 :=
      ⟨_, hperm.mem_iff.mpr List.mem_cons_self, he, hep⟩
    apply first_append _ hnew
    intro id hhead
    obtain rfl : x.2.id = id := Option.some.inj (hid.symm.trans hhead)
    rw [hxy]
    exact hnew

theorem Sinking.start : Sinking capacity 0 0 899 (start enableAttribution capacity sinking) (LiveBook.init capacity) where
  booked := .init capacity
  accounts := .start sinking
  priced h := absurd h (lt_irrefl 0)
  bestAsk := rfl
  buys := rfl
  length := rfl
  ids := rfl
  first id hid := by cases hid
  toDraws := rfl
  clusterQueue := rfl

theorem sinking_seeded (hpool : 5000 < capacity % 2 ^ 32) :
    Ends (fun _ => False) (fun w => ∃ A, Sinking capacity 5000 5000 899 w A)
      (seeded enableAttribution capacity sinking 5000) := by
  have hstep (i : ℕ) (hi : i < 5000) (w : MacroWorkload enableAttribution)
      (hw : ∃ A, Sinking capacity (0 + i) (0 + i) 899 w A) :
      Ends (fun _ => False) (fun w' => ∃ A, Sinking capacity (0 + i + 1) (0 + i + 1) 899 w' A) (seedOne w) := by
    obtain ⟨A, hA⟩ := hw
    exact hA.add (by omega) (by omega)
  exact Ends.times (P := fun n w => ∃ A, Sinking capacity n n 899 w A) (n := 5000) (k := 0) hstep ⟨_, Sinking.start⟩

theorem sinking_times (hpool : 6000 < capacity % 2 ^ 32) (h : ∃ A, Sinking capacity 5000 5000 899 w A) {k : ℕ}
    (hk : k ≤ 899) :
    Ends (fun _ => False) (fun w' => ∃ A, Sinking capacity (5000 + k) 5000 (899 - k) w' A)
      (Outcome.times generateAndExecuteOne k w) := by
  have hstep (i : ℕ) (hi : i < k) (w : MacroWorkload enableAttribution)
      (hw : ∃ A, Sinking capacity (5000 + (0 + i)) 5000 (899 - (0 + i : ℕ)) w A) :
      Ends (fun _ => False) (fun w' => ∃ A, Sinking capacity (5000 + (0 + i + 1)) 5000 (899 - (0 + i + 1 : ℕ)) w' A)
        w.generateAndExecuteOne := by
    obtain ⟨A, hA⟩ := hw
    have hprice : (899 : Int) - (0 + i + 1 : ℕ) = 899 - (0 + i : ℕ) - 1 := by omega
    rw [hprice]
    exact hA.sink (by omega) (by omega) (by omega) (by omega) (by omega)
  have hrun := Ends.times (P := fun i w => ∃ A, Sinking capacity (5000 + i) 5000 (899 - i) w A) (n := k) (k := 0) hstep h
  rwa [Nat.zero_add] at hrun

theorem not_warmupsFit (hpool : 6000 < capacity % 2 ^ 32) : ¬ WarmupsFit enableAttribution capacity sinking 900 := by
  intro hfits
  have hseeds : Ends (fun _ => False) (fun w => ∃ A, Sinking capacity 5000 5000 899 w A)
      (seeded enableAttribution capacity sinking 5000) := sinking_seeded (by omega)
  obtain ⟨w, hw, hsinking⟩ := hseeds.exists_ok
  obtain ⟨w', hw', A, hA⟩ := (sinking_times hpool hsinking (k := 899) le_rfl).exists_ok
  have hmodify := hfits.2 w hw 899 (by norm_num) w' hw'
  rw [hA.fits_iff (by norm_num) (by norm_num)] at hmodify
  norm_num at hmodify

/-- The first order of the seed rests at 899. The 900th modify takes it from 0 to -1. -/
theorem modify_leaves_range :
    ¬ Ends (fun e => e ≠ .book .priceRange) (fun w => ∀ c ∈ w.calls, c.op.Indexed)
      (warmed false (MacroWorkload.poolCapacity 1000) sinking 900) := by
  have hcapacity : MacroWorkload.poolCapacity 1000 = 551000 := by decide
  have hmax : 5000 + 900 < kMaxSize := by norm_num [kMaxSize]
  rw [hcapacity]
  exact mt (warmupsFit_of_indexed false 551000 sinking (by norm_num) (by norm_num) hmax) (not_warmupsFit (by norm_num))

end Sinking

end Llmes.Hft
