import Llmes.Hft.Replay
import Llmes.Marks

namespace Llmes

def OccupancyTree.setPath (t : OccupancyTree) (bit : ℕ) : Hft.OccupancySetPath :=
  let wordIdx := bit / kWordBits
  let mask := 1#64 <<< (bit &&& (kWordBits - 1))
  if t.levels wordIdx = 0#64 then .reachedL2
  else if t.levels wordIdx &&& mask ≠ 0#64 then .targetAlreadySet
  else .l1Only

namespace Hft

open BookSide BookView LawfulBookSide OrderBook Outcome ArrayBook Strip

def Overruns (marks : Set Int) (queue : ℕ → Queue) (side : Side) (limit : Int) (quantity : UInt64) : Prop :=
  (∃ p ∈ marks, canCrossLimit side limit p = true) ∧
    held (((bestFirst side.opposite).flatMap queue).filter (fun e => canCrossLimit side limit e.price)) ≤
      quantity.toNat ∧
    ∃ g, First (PriceCompare side.opposite.isAsk) {p ∈ marks | canCrossLimit side limit p = false} g ∧
      queue g.toNat = []

def Skips (b : ArrayBook) : Op → Prop
  | .limit _ side price quantity _ => Overruns (marks b side.opposite) (b.contents side.opposite) side price quantity
  | .modify h side price quantity _ =>
    Overruns (marks b side.opposite) (fun i => (b.contents side.opposite i).filter (fun e => e.slot ≠ h.toNat)) side
      price quantity
  | _ => False

section Matched

variable {b b' : ArrayBook} {A A' : LiveBook} {side : Side} {price : Int} {q : UInt64}

theorem marks_finite (b : ArrayBook) (s : Side) : (marks b s).Finite := by
  apply (Set.finite_Ico (0 : Int) kBitCount).subset
  rintro p ⟨i, rfl, hi⟩
  have := ArraySideBook.test_lt hi
  rw [Set.mem_Ico]
  omega

theorem overruns_iff (h : Rep b A) (hleft : (A.take side (canCrossLimit side price) q).left.Sound) :
    strip (PriceCompare side.opposite.isAsk)
        (fun p => (A.take side (canCrossLimit side price) q).left.queue side.opposite p = [] ∧
          canCrossLimit side price p = true) (marks b side.opposite) =
      leftMarks b side (canCrossLimit side price) (A.take side (canCrossLimit side price) q).left ↔
    ¬ Overruns (marks b side.opposite) (b.contents side.opposite) side price q := by
  by_cases hgo : ∃ p ∈ marks b side.opposite, canCrossLimit side price p = true
  · have hheld := @held_crossed_le b A side (some price) q h hleft
    have hspared {p : Int} (hp : canCrossLimit side price p = false) :=
      @left_queue_of_not_cross b A side (some price) q h hleft p hp
    have hqueue {g : Int} (hg : g ∈ marks b side.opposite) :
        b.contents side.opposite g.toNat = A.queue side.opposite g := by
      obtain ⟨i, rfl, -⟩ := hg
      rw [Int.toNat_natCast, contents_eq h]
    simp only [leftMarks, hgo, and_true]
    rw [strip_and_eq]
    constructor
    · rintro hall ⟨-, hle, g, hg, hempty⟩
      obtain ⟨j, hj, hjg, hne⟩ := hall g hg.1.1 (by rw [hg.1.2]; decide)
      cases hc : canCrossLimit side price j with
      | true => exact hne (hheld.mp hle j hc)
      | false =>
        have hjg : j = g := by
          rcases hjg with rfl | hlt
          · rfl
          · rcases hg.2 j ⟨hj, hc⟩ with rfl | hlt'
            · rfl
            · exact absurd hlt' (asymm_of (PriceCompare side.opposite.isAsk) hlt)
        subst hjg
        rw [hqueue hj] at hempty
        exact hne ((hspared hc).trans hempty)
    · intro hno i hi hci
      by_contra hall
      push Not at hall
      have hci : canCrossLimit side price i = false := by simpa using hci
      have hfin : {p ∈ marks b side.opposite | canCrossLimit side price p = false}.Finite :=
        (marks_finite b side.opposite).subset (fun _ hp => hp.1)
      obtain ⟨g, hg⟩ := exists_first (r := PriceCompare side.opposite.isAsk) hfin ⟨hi, hci⟩
      refine hno ⟨hgo, hheld.mpr (fun p hp => ?_), g, hg, ?_⟩
      · by_cases hmark : p ∈ marks b side.opposite
        · apply hall p hmark
          rcases trichotomous_of (PriceCompare side.opposite.isAsk) p i with hlt | rfl | hlt
          · exact Or.inr hlt
          · exact Or.inl rfl
          · have hpc : canCrossLimit side price p = true := hp
            rw [canCrossLimit_facing side price i p hlt hci] at hpc
            cases hpc
        · refine take_queue_nil h.sound hleft (h.absent _ _ ?_)
          by_contra hne
          exact hmark (mem_marks.mpr hne)
      · have hleftg := hall g hg.1.1 ((hg.2 i ⟨hi, hci⟩).imp Eq.symm id)
        rw [hqueue hg.1.1]
        exact (hspared hg.1.2).symm.trans hleftg
  · rw [leftMarks, strip_of_forall_not (fun p hp hc => hgo ⟨p, hp, hc.2⟩), strip_of_forall_not (fun _ _ hc => hgo hc.2)]
    exact iff_of_true rfl (fun ho => hgo ho.1)

theorem queue_eq (h : Rep b A) (h' : Rep b A') (s : Side) (p : Int) : A.queue s p = A'.queue s p := by
  by_cases hp : 0 ≤ p
  · obtain ⟨i, rfl⟩ := Int.eq_ofNat_of_zero_le hp
    rw [← contents_eq h, ← contents_eq h']
  · have hnil {A : LiveBook} (h : Rep b A) : A.queue s p = [] := by
      by_contra hne
      exact hp (queue_range h s p hne).1
    rw [hnil h, hnil h']

theorem added_queue {id ts : UInt64} {reply : Reply} (h : LiveBook.Added A id side price q ts reply A') (p : Int) :
    A'.queue side.opposite p = (A.take side (canCrossLimit side price) q).left.queue side.opposite p := by
  by_cases hr : reply.remaining = 0
  · rw [h.left hr]
  · have hrest := h.rests hr
    unfold LiveBook.rest at hrest
    split at hrest
    · cases hrest
    · obtain ⟨-, rfl⟩ := Prod.mk.inj (Option.some.inj hrest)
      rw [LiveBook.queue_setQueue, if_neg (fun hs => side.opposite_ne hs.1)]
      rfl

theorem reaches_iff {p : Int} : reaches side (some price) p ↔ canCrossLimit side price p = true := by
  rw [reaches]
  cases side <;> simp [shadowCanCross, canCrossLimit]

theorem take_sound (h : Rep b A) : (A.take side (canCrossLimit side price) q).left.Sound := by
  obtain ⟨m, -, hs⟩ := matchingEngineLimit_spec side h {} 0 price q
  exact hs.rep.sound

theorem limit_shadowed_iff (h : Rep b A) {id ts : UInt64} {out : AddResult} (hq : q ≠ 0)
    (hb : b.addLimitOrder id side price q ts = .ok (out, b')) (hadded : LiveBook.Added A id side price q ts (.added out) A')
    {live : Side → Int → Bool} (hlive : ∀ s p, live s p = false ↔ A'.queue s p = []) :
    (∀ s, (if s = side.opposite then
          strip (PriceCompare s.isAsk) (fun p => live s p = false ∧ reaches side (some price) p) (marks b s)
        else marks b s ∪ {p | out.remainingQuantity > 0 ∧ some price = some p}) = marks b' s) ↔
      ¬ Overruns (marks b side.opposite) (b.contents side.opposite) side price q := by
  obtain ⟨hother, hself⟩ := addLimitOrder_marks h hq hb
  rw [← overruns_iff h (take_sound h), ← hother]
  have hset : {p | out.remainingQuantity > 0 ∧ some price = some p} = {p | out.remainingQuantity > 0 ∧ p = price} := by
    ext p
    simp [eq_comm]
  have hstrip : strip (PriceCompare side.opposite.isAsk)
        (fun p => live side.opposite p = false ∧ reaches side (some price) p) (marks b side.opposite) =
      strip (PriceCompare side.opposite.isAsk)
        (fun p => (A.take side (canCrossLimit side price) q).left.queue side.opposite p = [] ∧
          canCrossLimit side price p = true) (marks b side.opposite) := by
    apply strip_congr
    intro p _
    rw [hlive, added_queue hadded, reaches_iff]
  constructor
  · intro hall
    have hall := hall side.opposite
    rw [if_pos rfl, hstrip] at hall
    exact hall
  · intro heq s
    rcases Side.eq_or_eq_opposite side s with rfl | rfl
    · rw [if_neg s.opposite_ne.symm, hset, hself]
    · rw [if_pos rfl, hstrip, heq]

theorem remove_queue (h : A.Sound) {x : Side × Entry} (hx : x.2 ∈ A.orders x.1) (s : Side) (p : Int) :
    (A.remove x).queue s p = (A.queue s p).filter (fun e => e.slot ≠ x.2.slot) := by
  rw [LiveBook.remove, LiveBook.queue_setQueue]
  split
  · next hsp => rw [hsp.1, hsp.2]
  · next hsp =>
    rw [LiveBook.queue_withFree]
    refine (List.filter_eq_self.mpr (fun e he => ?_)).symm
    simpa using h.slot_ne (h.order hx).1 he hsp

theorem modify_eq {handle : OrderHandle} {ts : UInt64} {out : AddResult}
    (h : Rep b A) (hlive : A.locate handle.toNat ≠ none) (hb : b.modifyOrder handle side price q ts = .ok (out, b')) :
    ∃ (x : Side × Entry) (b₁ : ArrayBook), A.locate handle.toNat = some x ∧ Rep b₁ (A.remove x) ∧ marks b₁ = marks b ∧
      (∀ s, b₁.contents s = fun i => (b.contents s i).filter (fun e => e.slot ≠ handle.toNat)) ∧
      b₁.addLimitOrder x.2.id side price q ts = .ok (out, b') := by
  obtain ⟨x, b₁, hx, hres, hb₁, hid, hmoved, -⟩ := h.remove_live hlive
  obtain ⟨hmem, hslot⟩ := LiveBook.locate_eq_some hx
  obtain ⟨b₂, hb₂, hrep, href, -⟩ := removeOrder_spec h hmem
  rw [hslot] at hb₂
  obtain rfl := Except.ok.inj (hb₁.symm.trans hb₂)
  refine ⟨x, b₁, hx, hrep, ?_, fun s => ?_, ?_⟩
  · funext s
    ext p
    rw [mem_marks, mem_marks, href]
  · funext i
    rw [contents_eq hrep, contents_eq h, remove_queue h.sound hmem, hslot]
  · simpa only [modifyOrder, hres, ok_bind, hb₁, hid] using hb

theorem cancel_marks {handle : OrderHandle} {reply : Reply} (h : Rep b A) (hlive : A.locate handle.toNat ≠ none)
    (hb : b.exec (.cancel handle) = .ok (reply, b')) : marks b' = marks b := by
  obtain ⟨x, b₁, hx, hres, hb₁, -, -, -⟩ := h.remove_live hlive
  obtain ⟨hmem, hslot⟩ := LiveBook.locate_eq_some hx
  obtain ⟨b₂, hb₂, -, href, -⟩ := removeOrder_spec h hmem
  rw [hslot] at hb₂
  obtain rfl := Except.ok.inj (hb₁.symm.trans hb₂)
  simp only [exec, cancelOrder, hres, ok_bind, hb₁, pure_eq_ok] at hb
  obtain ⟨-, rfl⟩ := Prod.mk.inj (Except.ok.inj hb)
  funext s
  ext p
  rw [mem_marks, mem_marks, href]

theorem shadowed_iff (h : Rep b A) {op : Op} (hlive : op.Live A) (hq : Op.taking op ≠ none → op.quantity ≠ 0)
    {reply : Reply} (hb : b.exec op = .ok (reply, b')) (h' : Rep b' A') {live : Side → Int → Bool}
    (hlevel : ∀ s p, live s p = false ↔ A'.queue s p = []) :
    (∀ s, shadowed op reply live (marks b) s = marks b' s) ↔ ¬ Skips b op := by
  obtain ⟨A₁, hA, hm⟩ := (exec_ends h op hlive).of_ok hb
  have hlevel (s : Side) (p : Int) : live s p = false ↔ A₁.queue s p = [] := by
    rw [hlevel, queue_eq h' hm.rep]
  cases op with
  | limit orderId side price quantity timestamp =>
    have hq := hq (Option.some_ne_none _)
    obtain ⟨⟨out, b₁⟩, ho, hb⟩ := bind_eq_ok.mp hb
    obtain ⟨rfl, rfl⟩ := Prod.mk.inj (Except.ok.inj hb)
    exact limit_shadowed_iff h hq ho (added_of_exec_limit hq hA) hlevel
  | market orderId side quantity timestamp =>
    have hq := hq (Option.some_ne_none _)
    obtain ⟨⟨out, b₁⟩, ho, hb⟩ := bind_eq_ok.mp hb
    obtain ⟨rfl, rfl⟩ := Prod.mk.inj (Except.ok.inj hb)
    obtain ⟨hother, hself⟩ := addMarketOrder_marks h hq ho
    obtain ⟨-, -, rfl⟩ := marketed_of_exec hq hA
    refine iff_of_true (fun s => ?_) id
    rw [shadowed_market]
    split
    · next hs =>
      subst hs
      rw [hother]
      apply strip_congr
      intro p hp
      rw [hlevel]
      exact and_congr_right (fun _ => iff_of_true (fun _ h => by cases h) ⟨p, hp, rfl⟩)
    · next hs =>
      rcases Side.eq_or_eq_opposite side s with rfl | rfl
      · exact hself.symm
      · exact absurd rfl hs
  | modify handle side price quantity timestamp =>
    have hq := hq (Option.some_ne_none _)
    obtain ⟨⟨out, b₁⟩, ho, hb⟩ := bind_eq_ok.mp hb
    obtain ⟨rfl, rfl⟩ := Prod.mk.inj (Except.ok.inj hb)
    obtain ⟨x, b₁, hx, hrep, hmarks, hcontents, ho⟩ := modify_eq h hlive ho
    have hiff := limit_shadowed_iff hrep hq ho (added_of_exec_modify hx hq hA) hlevel
    rw [hmarks, hcontents] at hiff
    exact hiff
  | cancel handle =>
    exact iff_of_true (fun s => congrFun (cancel_marks h hlive hb).symm s) id

end Matched

def Mirrored {enableAttribution : Bool} (w : MacroWorkload enableAttribution) : Prop :=
  ∀ s i, (w.shadowTree s).test i = (w.book.book s).activeTree.test i

variable {enableAttribution : Bool} {w w₁ w' : MacroWorkload enableAttribution} {A : LiveBook} {capacity n k : ℕ}
  {x : PendingOp × PendingAttribution} {xs : List (PendingOp × PendingAttribution)}

theorem mirrored_iff : Mirrored w ↔ w.marks = marks w.book := by
  constructor
  · intro h
    funext s
    ext p
    exact exists_congr (fun i => and_congr_right (fun _ => by rw [h s i]))
  · intro h s i
    rw [Bool.eq_iff_iff, ← Attribution.mem_marks, h]
    constructor
    · rintro ⟨j, hj, htest⟩
      rwa [Int.ofNat_inj.mp hj]
    · exact fun htest => ⟨i, rfl, htest⟩

theorem Mirrored.classifySet (h : Mirrored w) (s : Side) (bit : Fin kBitCount) :
    (w.shadowTree s).classifySet bit = (w.book.book s).activeTree.setPath bit := by
  have hword : (w.shadowTree s).l1 (bit / 64) = (w.book.book s).activeTree.levels (bit / kWordBits) := by
    apply BitVec.eq_of_getLsbD_eq
    intro j hj
    have hlt := (OccupancyTree.bit_lt bit.isLt).1
    have htest := h s (64 * (bit / 64) + j)
    have hrange : 64 * ((bit : ℕ) / 64) + j < kBitCount := by
      have := bit.isLt
      simp only [kBitCount] at this ⊢
      omega
    rw [ShadowOccupancyTree.test, OccupancyTree.test, decide_eq_true hrange, Bool.true_and, Bool.true_and,
      kWordBits] at htest
    rwa [show (64 * ((bit : ℕ) / 64) + j) / 64 = bit / 64 by omega,
      show (64 * ((bit : ℕ) / 64) + j) % 64 = j by omega] at htest
  unfold ShadowOccupancyTree.classifySet OccupancyTree.setPath ShadowOccupancyTree.l1Mask
  dsimp only
  rw [← hword]
  by_cases hz : (w.shadowTree s).l1 (bit / 64) = 0#64
  · simp [hz]
  · simp only [hz, ne_eq, not_false_eq_true, if_true, if_false]
    rfl

theorem Lists.level_iff {t : Tracking} (h : Lists t A.live) (hs : A.Sound) (s : Side) (p : Int) :
    t.hasPriceLevel s p = false ↔ A.queue s p = [] := by
  rw [← Bool.not_eq_true, h.hasPriceLevel_iff, not_iff_comm, List.eq_nil_iff_forall_not_mem]
  push Not
  constructor
  · rintro ⟨e, he⟩
    exact ⟨e, LiveBook.mem_live.mpr (LiveBook.mem_orders.mpr ⟨p, he⟩), hs.price s p e he⟩
  · rintro ⟨e, he, rfl⟩
    exact ⟨e, (hs.order (LiveBook.mem_live.mp he)).1⟩

theorem Recorded.live (h : Recorded w x w') (hrep : Rep w.book A) : x.1.op.Live A := by
  rw [hrep.live_iff]
  intro i hi
  have htarget := h.target
  rw [Targets] at htarget
  rw [PendingOp.op] at hi
  split at hi
  · cases hi
  · next htype =>
    obtain rfl := Option.some.inj hi
    exact (htarget (Or.inl htype)).1
  · next htype =>
    obtain rfl := Option.some.inj hi
    exact (htarget (Or.inr htype)).1
  · cases hi

theorem Recorded.mirrored {w w' : MacroWorkload true} (h : Recorded w x w') (hrep : Rep w.book A) (hw : Mirrored w) :
    Mirrored w' ↔ ¬ Skips w.book x.1.op := by
  obtain ⟨reply, hexec, -, hmarks⟩ := h.call
  obtain ⟨A', hrep', hlists⟩ := h.lists
  have hmarks := hmarks rfl
  rw [mirrored_iff.mp hw] at hmarks
  rw [← shadowed_iff hrep (h.live hrep) h.quantity hexec hrep' (hlists.level_iff hrep'.sound), mirrored_iff,
    funext_iff]
  exact forall_congr' (fun s => by rw [hmarks s])

theorem Recorded.cancel (h : Recorded w x w') (hx : x.1.type = .cancel) (hrep : Rep w.book A) :
    marks w'.book = marks w.book ∧ (enableAttribution = true → w'.marks = w.marks) := by
  obtain ⟨reply, hexec, -, hmarks⟩ := h.call
  have hlive := h.live hrep
  have hop : x.1.op = .cancel x.1.targetHandle := by rw [PendingOp.op, hx]
  rw [hop] at hexec hmarks hlive
  exact ⟨cancel_marks hrep hlive hexec, fun he => funext (hmarks he)⟩

theorem RecordedAll.cancels {w w' : MacroWorkload true} (h : RecordedAll w xs w') (hrep : Rep w.book A)
    (hxs : ∀ y ∈ xs, y.1.type = .cancel) : Mirrored w' ↔ Mirrored w := by
  induction h generalizing A with
  | nil book calls attribution => rw [mirrored_iff, mirrored_iff, book, attribution]
  | cons head tail ih =>
    obtain ⟨A₁, hrep₁, -⟩ := head.lists
    obtain ⟨hbook, hshadow⟩ := head.cancel (hxs _ List.mem_cons_self) hrep
    rw [ih hrep₁ (fun y hy => hxs y (List.mem_cons_of_mem _ hy)), mirrored_iff, mirrored_iff, hbook, hshadow rfl]

theorem Records.not_skips {c : Call} {op : PendingOp} (h : Records c op) (hop : op.type = .cancel) :
    ¬ Skips c.before c.op := by
  rw [h.1, PendingOp.op, hop]
  exact id

def Right (c : Call) (a : PendingAttribution) : Prop :=
  ∀ orderId side price quantity timestamp, c.op = .limit orderId side price quantity timestamp → c.reply.remaining > 0 →
    ∃ m, matchingEngineLimit side c.before { initialQuantity := quantity } orderId price quantity = .ok m ∧
      a.occupancySetPath = (m.book.book side).activeTree.setPath price.toNat

theorem Recorded.right {w w' : MacroWorkload true} {reply : Reply} {b' : ArrayBook} (h : Recorded w x w')
    (hrep : Rep w.book A) (hw : Mirrored w) (hexec : w.book.exec x.1.op = .ok (reply, b')) :
    Right ⟨w.book, x.1.op, reply⟩ x.2 := by
  intro orderId side price quantity timestamp hop hr
  dsimp only at hop hr
  obtain ⟨htype, rfl, rfl⟩ : x.1.type = .limitAdd ∧ x.1.side = side ∧ x.1.price = price := by
    rw [PendingOp.op] at hop
    split at hop
    · next htype =>
      cases hop
      exact ⟨htype, rfl, rfl⟩
    all_goals cases hop
  have hq := h.quantity
  rw [hop] at hq hexec
  have hq := hq (Option.some_ne_none _)
  obtain ⟨⟨out, b₁⟩, ho, hb⟩ := bind_eq_ok.mp hexec
  obtain ⟨rfl, rfl⟩ := Prod.mk.inj (Except.ok.inj hb)
  obtain ⟨m, hm, hs⟩ := matchingEngineLimit_spec x.1.side hrep { initialQuantity := quantity } orderId x.1.price quantity
  obtain ⟨-, hself⟩ := addLimitOrder_marks hrep hq ho
  have hmark : x.1.price ∈ marks b₁ x.1.side := by
    rw [hself]
    exact Or.inr ⟨hr, rfl⟩
  obtain ⟨i, hi, htest⟩ := hmark
  have hbit : priceIndex x.1.price = .ok ⟨i, ArraySideBook.test_lt htest⟩ := by
    rw [hi]
    exact @Attribution.priceIndex_ok ⟨i, ArraySideBook.test_lt htest⟩
  refine ⟨m, hm, ?_⟩
  rw [h.path rfl htype _ hbit, hw.classifySet, hs.spared.own, hi]
  rfl

end Hft

end Llmes
