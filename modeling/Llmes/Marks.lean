import Llmes.Priority
import Llmes.Lib.Strip

namespace Llmes

open BookSide BookView LawfulBookSide OrderBook Strip

namespace ArraySideBook

variable {isAsk : Bool} {b b' : ArraySideBook isAsk}

def marks (b : ArraySideBook isAsk) : Set Int := {p | ∃ i : ℕ, p = i ∧ b.activeTree.test i = true}

theorem mem_marks {p : Int} : p ∈ b.marks ↔ BookView.ref b p ≠ none := by
  rw [Option.ne_none_iff_exists']
  apply exists_congr
  intro i
  exact ref_eq_some.symm

theorem marks_clear {tree : OccupancyTree} (hc : b.activeTree.clear b.bestPriceIdx = .ok tree)
    (htree : b'.activeTree = tree) : b'.marks = b.marks \ {(b.bestPriceIdx : Int)} := by
  ext p
  constructor
  · rintro ⟨i, rfl, hi⟩
    rw [htree, OccupancyTree.test_clear hc, Bool.and_eq_true, decide_eq_true_eq] at hi
    exact ⟨⟨i, rfl, hi.2⟩, fun h => hi.1 (Int.ofNat_inj.mp h)⟩
  · rintro ⟨⟨i, rfl, hi⟩, hne⟩
    refine ⟨i, rfl, ?_⟩
    rw [htree, OccupancyTree.test_clear hc, hi, Bool.and_true, decide_eq_true_eq]
    exact fun h => hne (congrArg Int.ofNat h)

theorem Inv.first (h : b.Inv) (hb : b.hasBest = true) :
    First (PriceCompare isAsk) b.marks (b.bestPriceIdx : Int) := by
  obtain ⟨htest, hbest⟩ := h.best hb
  refine ⟨⟨_, rfl, htest⟩, ?_⟩
  rintro p ⟨i, rfl, hi⟩
  exact (hbest i hi).imp (congrArg Int.ofNat) betterIdx_iff.mp

theorem Inv.marks_empty (h : b.Inv) (hb : b.hasBest = false) : b.marks = ∅ := by
  rw [Set.eq_empty_iff_forall_notMem]
  rintro p ⟨i, -, hi⟩
  rw [h.has.mpr ⟨i, hi⟩] at hb
  cases hb

def Hollow (b : ArraySideBook isAsk) (p : Int) : Prop := (b.levels p.toNat).empty = true

theorem Inv.strip_marks (h : b.Inv) (hc : ¬ (b.hasBest && (b.levels b.bestPriceIdx).empty) = true) :
    strip (PriceCompare isAsk) b.Hollow b.marks = b.marks := by
  cases hb : b.hasBest with
  | false => rw [h.marks_empty hb, strip_empty]
  | true =>
    apply strip_of_first_not (h.first hb)
    rwa [hb, Bool.true_and] at hc

theorem clearGhostBestLevel_marks {fuel : ℕ} (h : b.Inv) (htidy : ∀ i, (b.levels i).head = none → b.levels i = {})
    (hb' : clearGhostBestLevel fuel b = .ok b') : b'.marks = strip (PriceCompare isAsk) b.Hollow b.marks := by
  induction fuel generalizing b with
  | zero =>
    rw [clearGhostBestLevel] at hb'
    split at hb'
    · cases hb'
    · next hc =>
      obtain rfl := Except.ok.inj hb'
      exact (h.strip_marks hc).symm
  | succ fuel ih =>
    rw [clearGhostBestLevel] at hb'
    split at hb'
    · next hc =>
      rw [Bool.and_eq_true] at hc
      have hfirst := h.first hc.1
      obtain ⟨tree, hclear, hempty, hnext⟩ := retireBest_spec h hc.1 (htidy _ (PriceLevel.empty_iff.mp hc.2))
      rw [strip_of_first hfirst hc.2]
      simp only [hclear, ok_bind, pure_eq_ok] at hb'
      split at hb'
      · next he =>
        obtain rfl := Except.ok.inj hb'
        rw [← @marks_clear isAsk b { b with activeTree := tree, hasBest := false } tree hclear rfl,
          (hempty he).inv.marks_empty rfl, strip_empty]
      · next he =>
        obtain ⟨idx, hidx, hret⟩ := hnext (by simpa using he)
        simp only [hidx, ok_bind] at hb'
        rw [ih hret.inv htidy hb', marks_clear hclear rfl]
        rfl
    · next hc =>
      obtain rfl := Except.ok.inj hb'
      exact (h.strip_marks hc).symm

theorem eraseBest_marks (h : b.Inv) (htidy : ∀ i, (b.levels i).head = none → b.levels i = {})
    (hb' : b.eraseBest = .ok b') : b'.marks = strip (PriceCompare isAsk) b.Hollow b.marks := by
  apply @clearGhostBestLevel_marks isAsk b b' (kBitCount + 1) h htidy
  rw [eraseBest] at hb'
  split at hb'
  · next hc =>
    rw [clearGhostBestLevel, if_pos hc]
    exact hb'
  · cases hb'

theorem getOrCreate_marks (h : b.Inv) {p : Int} {r : ℕ} (hb' : b.getOrCreate p = .ok (r, b')) :
    b'.marks = b.marks ∪ {p} := by
  by_cases hp : 0 ≤ p ∧ p < kBitCount
  · obtain ⟨b₁, hb₁, -, -, htest⟩ := getOrCreate_spec h hp.1 hp.2
    obtain ⟨-, rfl⟩ := Prod.mk.inj (Except.ok.inj (hb₁.symm.trans hb'))
    ext q
    constructor
    · rintro ⟨i, rfl, hi⟩
      rw [htest, Bool.or_eq_true, decide_eq_true_eq] at hi
      rcases hi with rfl | hi
      · exact Or.inr (Int.toNat_of_nonneg hp.1)
      · exact Or.inl ⟨i, rfl, hi⟩
    · rintro (⟨i, rfl, hi⟩ | rfl)
      · exact ⟨i, rfl, by rw [htest, hi, Bool.or_true]⟩
      · exact ⟨_, (Int.toNat_of_nonneg hp.1).symm, by simp [htest]⟩
  · rw [getOrCreate, idxOf_error hp] at hb'
    cases hb'

end ArraySideBook

namespace ArrayBook

def marks (b : ArrayBook) (s : Side) : Set Int := (b.book s).marks

variable {b b' : ArrayBook} {A A' : LiveBook} {side : Side} {orderId : UInt64} {m m' : MatchState ArraySideBook ℕ}

theorem mem_marks {s : Side} {p : Int} : p ∈ b.marks s ↔ ref (b.book s) p ≠ none := ArraySideBook.mem_marks

theorem hollow_iff (h : Rep b A) {s : Side} {p : Int} (hp : p ∈ b.marks s) :
    (b.book s).Hollow p ↔ A.queue s p = [] := by
  obtain ⟨i, rfl, hi⟩ := hp
  have hr : ref (b.book s) (i : Int) = some i := ArraySideBook.ref_eq_some.mpr ⟨rfl, hi⟩
  rw [ArraySideBook.Hollow, Int.toNat_natCast]
  exact (Bool.eq_iff_iff.mp (h.level_empty hr)).trans List.isEmpty_iff

theorem sweepBest_marks {p : Int} {r : ℕ} (h : Rep m.book A) (he : empty (m.book.book side.opposite) = false)
    (hp : bestPrice (m.book.book side.opposite) = .ok p) (hb : bestLevel (m.book.book side.opposite) = .ok r)
    (hr : ref (m.book.book side.opposite) p = some r) (hm' : sweepBest side orderId m = .ok m') :
    let t := takeQueue m.quantity (A.queue side.opposite p)
    marks m'.book side.opposite = strip (PriceCompare side.opposite.isAsk)
      (fun q => (A.settle t.fills side.opposite p t.left).queue side.opposite q = []) (marks m.book side.opposite) := by
  intro t
  obtain ⟨m₁, hm₁, -, -, hc₁, hrep₁⟩ := matchLevel_spec orderId h hr rfl (h.queue_length_le side.opposite p)
  have hr₁ : ref (m₁.book.book side.opposite) p = some r := by rw [hc₁.ref, hr]
  have hinv : (m₁.book.book side.opposite).Inv := hrep₁.inv side.opposite
  have hmarks : marks m.book side.opposite = marks m₁.book side.opposite := by
    ext q
    rw [mem_marks, mem_marks, hc₁.ref]
  have hcongr := strip_congr (r := PriceCompare side.opposite.isAsk)
    (fun q (hq : q ∈ marks m₁.book side.opposite) => hollow_iff hrep₁ hq)
  rw [hmarks, ← hcongr]
  simp only [sweepBest, hb, ok_bind, hm₁, pure_eq_ok] at hm'
  split at hm'
  · obtain ⟨oppo, hoppo, hm'⟩ := bind_eq_ok.mp hm'
    obtain rfl := Except.ok.inj hm'
    have herase := ArraySideBook.eraseBest_marks hinv (ArraySideBook.Inv.tidy hinv (hrep₁.tidy _)) hoppo
    rw [marks, setBook_book_self]
    exact herase
  · next hlevel =>
    obtain rfl := Except.ok.inj hm'
    obtain ⟨he₁, -, hb₁⟩ := best_congr (h.inv _) hinv hc₁.ref he hp hb
    have hbest : (m₁.book.book side.opposite).hasBest = true := by
      simpa [BookSide.empty, ArraySideBook.empty] using he₁
    obtain rfl : (m₁.book.book side.opposite).bestPriceIdx = r := by
      simpa [BookSide.bestLevel, ArraySideBook.bestLevel, hbest] using hb₁
    refine (ArraySideBook.Inv.strip_marks hinv ?_).symm
    rwa [hbest, Bool.true_and]

theorem take_queue_nil (h : A.Sound) {cross : Int → Bool} {q : UInt64} {p : Int}
    (hleft : (A.take side cross q).left.Sound) (hp : A.queue side.opposite p = []) :
    (A.take side cross q).left.queue side.opposite p = [] := by
  rw [List.eq_nil_iff_forall_not_mem]
  intro e he
  obtain ⟨e₀, he₀, hc⟩ := (LiveBook.consumed_take side cross q).origin (LiveBook.mem_orders.mpr ⟨p, he⟩)
  have hprice : e₀.price = p := hc.price.symm.trans (hleft.price side.opposite p e he)
  have hmem := (h.order he₀).1
  rw [hprice, hp] at hmem
  exact List.not_mem_nil hmem

section Sweep

variable {cross : Int → Bool} {loop : ℕ → MatchState ArraySideBook ℕ → Exec (MatchState ArraySideBook ℕ)} {fuel : ℕ}

def Sweepable (side : Side) (cross : Int → Bool) (m : MatchState ArraySideBook ℕ) : Prop :=
  m.quantity ≠ 0 ∧ ∃ p ∈ marks m.book side.opposite, cross p = true

theorem sweeps_idle (hloop : Sweeps side orderId cross loop) (h : Rep m.book A)
    (hfuel : m.quantity ≠ 0 → count (m.book.book side.opposite) ≤ fuel) (hidle : ¬ Sweepable side cross m) :
    loop fuel m = .ok m ∧ (A.take side cross m.quantity).left = A := by
  by_cases hz : m.quantity = 0
  · rw [hloop.done _ _ (by simp [hz]), hz, LiveBook.take_zero]
    exact ⟨rfl, rfl⟩
  · have hcross (p : Int) (hp : ref (m.book.book side.opposite) p ≠ none) : cross p = false := by
      by_contra hc
      exact hidle ⟨hz, p, mem_marks.mpr hp, by simpa using hc⟩
    rw [LiveBook.take_of_not_cross (fun p hp => hcross p (h.ref_ne_none hp)) (h.proper _)]
    refine ⟨?_, rfl⟩
    cases he : empty (m.book.book side.opposite) with
    | true => exact hloop.done _ _ (by simp [he])
    | false =>
      obtain ⟨p, r, hp, -, hr, -⟩ := best (h.inv side.opposite) he
      have hpos := count_pos (h.inv side.opposite) he
      obtain ⟨k, rfl⟩ : ∃ k, fuel = k + 1 := ⟨fuel - 1, by have := hfuel hz; omega⟩
      rw [hloop.round k m p (pos_iff_ne_zero.mpr hz) he hp, hcross p (by simp [hr])]
      rfl

theorem sweeps_marks (hloop : Sweeps side orderId cross loop) (hface : Facing side cross) (h : Rep m.book A)
    (hfuel : count (m.book.book side.opposite) ≤ fuel) (hgo : Sweepable side cross m) (hm' : loop fuel m = .ok m') :
    marks m'.book side.opposite = strip (PriceCompare side.opposite.isAsk)
      (fun p => (A.take side cross m.quantity).left.queue side.opposite p = []) (marks m.book side.opposite) := by
  induction fuel generalizing m A with
  | zero =>
    obtain ⟨-, p, hp, -⟩ := hgo
    have hpos := count_pos (h.inv side.opposite) ((empty_eq_false_iff (h.inv _)).mpr ⟨p, mem_marks.mp hp⟩)
    omega
  | succ fuel ih =>
    obtain ⟨hz, p₀, hp₀, hc₀⟩ := hgo
    have he := (empty_eq_false_iff (h.inv side.opposite)).mpr ⟨p₀, mem_marks.mp hp₀⟩
    obtain ⟨p, r, hp, hb, hr, hbest⟩ := best (h.inv side.opposite) he
    have hcross : cross p = true := by
      rcases hbest p₀ (mem_marks.mp hp₀) with rfl | hlt
      · exact hc₀
      · by_contra hc
        rw [hface p p₀ hlt (by simpa using hc)] at hc₀
        cases hc₀
    obtain ⟨m₁, hm₁, hq₁, -, -, hrep₁, hless⟩ := sweepBest_spec orderId h he hp hb hr
    have hmarks := sweepBest_marks h he hp hb hr hm₁
    rw [hloop.round fuel m p (pos_iff_ne_zero.mpr hz) he hp, if_pos hcross, hm₁, ok_bind] at hm'
    rw [LiveBook.take_round (h.proper _) hcross (fun q hq => hbest q (h.ref_ne_none hq))]
    dsimp only at hmarks ⊢
    rw [← hq₁]
    by_cases hgo₁ : Sweepable side cross m₁
    · have hfuel₁ : count (m₁.book.book side.opposite) ≤ fuel := by
        have := hless.resolve_left hgo₁.1
        omega
      obtain ⟨m₂, hm₂, hs⟩ := hloop.spec hface hrep₁ hfuel₁
      rw [ih hrep₁ hfuel₁ hgo₁ hm', hmarks]
      exact strip_strip (fun q => take_queue_nil hrep₁.sound hs.rep.sound)
    · have hfuel₁ (hz₁ : m₁.quantity ≠ 0) : count (m₁.book.book side.opposite) ≤ fuel := by
        have := hless.resolve_left hz₁
        omega
      obtain ⟨hdone, hleft⟩ := sweeps_idle hloop hrep₁ hfuel₁ hgo₁
      obtain rfl := Except.ok.inj (hdone.symm.trans hm')
      rw [hleft]
      exact hmarks

theorem matched_marks (hloop : Sweeps side orderId cross loop) (hface : Facing side cross) (h : Rep m.book A)
    (hfuel : count (m.book.book side.opposite) ≤ fuel) (hq : m.quantity ≠ 0) (hm' : loop fuel m = .ok m') :
    marks m'.book side.opposite = strip (PriceCompare side.opposite.isAsk)
      (fun p => (A.take side cross m.quantity).left.queue side.opposite p = [] ∧
        ∃ p ∈ marks m.book side.opposite, cross p = true) (marks m.book side.opposite) := by
  by_cases hgo : ∃ p ∈ marks m.book side.opposite, cross p = true
  · rw [sweeps_marks hloop hface h hfuel ⟨hq, hgo⟩ hm']
    simp only [hgo, and_true]
  · obtain ⟨hdone, -⟩ := sweeps_idle hloop h (fun _ => hfuel) (fun hs => hgo hs.2)
    obtain rfl := Except.ok.inj (hdone.symm.trans hm')
    rw [strip_of_forall_not (fun _ _ hp => hgo hp.2)]

end Sweep

theorem restRemainder_marks (h : Rep b A) {price : Int} {remaining timestamp : UInt64} {n : OrderHandle}
    (hb : b.restRemainder orderId side price remaining timestamp = .ok (n, b')) :
    marks b' side.opposite = marks b side.opposite ∧ marks b' side = marks b side ∪ {price} := by
  cases hf : A.free with
  | nil =>
    rw [restRemainder_of_nil h hf] at hb
    cases hb
  | cons i free =>
    rw [restRemainder_of_cons h hf] at hb
    obtain ⟨⟨r, x⟩, hg, hb⟩ := bind_eq_ok.mp hb
    obtain ⟨-, rfl⟩ := Prod.mk.inj (Except.ok.inj hb)
    have hcreated : x.marks = (b.book side).marks ∪ {price} := ArraySideBook.getOrCreate_marks (h.inv side) hg
    rw [marks, marks, marks, marks, OrderBook.setBook_book_of_ne _ _ _ side.opposite_ne, book_withPool,
      setBook_book_self, ← hcreated]
    exact ⟨rfl, rfl⟩

def leftMarks (b : ArrayBook) (side : Side) (cross : Int → Bool) (left : LiveBook) : Set Int :=
  strip (PriceCompare side.opposite.isAsk)
    (fun p => left.queue side.opposite p = [] ∧ ∃ p ∈ marks b side.opposite, cross p = true) (marks b side.opposite)

theorem addLimitOrder_marks (h : Rep b A) {price : Int} {quantity timestamp : UInt64} {out : AddResult}
    (hq : quantity ≠ 0) (hb : b.addLimitOrder orderId side price quantity timestamp = .ok (out, b')) :
    marks b' side.opposite =
      leftMarks b side (canCrossLimit side price) (A.take side (canCrossLimit side price) quantity).left ∧
    marks b' side = marks b side ∪ {p | out.remainingQuantity > 0 ∧ p = price} := by
  obtain ⟨m, hm, hs⟩ := matchingEngineLimit_spec side h { initialQuantity := quantity } orderId price quantity
  have hmarks := matched_marks (m := { book := b, quantity, out := { initialQuantity := quantity } })
    (limitLoop_sweeps side price orderId) (canCrossLimit_facing side price) h (count_le (h.inv side.opposite)) hq hm
  have hown : marks m.book side = marks b side := by
    rw [marks, hs.spared.own]
    rfl
  rw [addLimitOrder, if_neg hq] at hb
  simp only [hm, ok_bind, pure_eq_ok] at hb
  split at hb
  · next hz =>
    obtain ⟨rfl, rfl⟩ := Prod.mk.inj (Except.ok.inj hb)
    refine ⟨hmarks, ?_⟩
    have hnone : {p | m.quantity > 0 ∧ p = price} = ∅ := by
      rw [Set.eq_empty_iff_forall_notMem]
      exact fun p hp => pos_iff_ne_zero.mp hp.1 hz
    rw [hown, hnone, Set.union_empty]
  · next hz =>
    obtain ⟨⟨n, b₁⟩, hrest, hb⟩ := bind_eq_ok.mp hb
    obtain ⟨rfl, rfl⟩ := Prod.mk.inj (Except.ok.inj hb)
    obtain ⟨hother, hself⟩ := restRemainder_marks hs.rep hrest
    refine ⟨hother.trans hmarks, ?_⟩
    have hsome : {p | m.quantity > 0 ∧ p = price} = {price} := by
      ext p
      exact and_iff_right (pos_iff_ne_zero.mpr hz)
    rw [hself, hown, hsome]

theorem addMarketOrder_marks (h : Rep b A) {quantity timestamp : UInt64} {out : AddResult}
    (hq : quantity ≠ 0) (hb : b.addMarketOrder orderId side quantity timestamp = .ok (out, b')) :
    marks b' side.opposite = leftMarks b side (fun _ => true) (A.take side (fun _ => true) quantity).left ∧
    marks b' side = marks b side := by
  obtain ⟨m, hm, hs⟩ := matchingEngineMarket_spec side h { initialQuantity := quantity } orderId quantity
  have hmarks := matched_marks (m := { book := b, quantity, out := { initialQuantity := quantity } })
    (marketLoop_sweeps side orderId) (true_facing side) h (count_le (h.inv side.opposite)) hq hm
  have hown : marks m.book side = marks b side := by
    rw [marks, hs.spared.own]
    rfl
  rw [addMarketOrder, if_neg hq] at hb
  simp only [hm, ok_bind, pure_eq_ok] at hb
  split at hb <;>
    · obtain ⟨rfl, rfl⟩ := Prod.mk.inj (Except.ok.inj hb)
      exact ⟨hmarks, hown⟩

section Left

variable {price : Option Int} {q : UInt64}

theorem held_crossed_le (h : Rep b A) (hleft : (A.take side (crossing side price) q).left.Sound) :
    held (b.crossed side (crossing side price)) ≤ q.toNat ↔
      ∀ p, crossing side price p = true → (A.take side (crossing side price) q).left.queue side.opposite p = [] := by
  have htotal := @total_take b A price q side h
  have hheld := (consumed_crossed h side (crossing side price) q).total_eq
  rw [held] at htotal ⊢
  constructor
  · intro hle p hp
    rw [List.eq_nil_iff_forall_not_mem]
    intro e he
    have hmem : e ∈ ((A.take side (crossing side price) q).left.orders side.opposite).filter
        (fun e => crossing side price e.price) := by
      refine List.mem_filter.mpr ⟨LiveBook.mem_orders.mpr ⟨p, he⟩, ?_⟩
      rwa [hleft.price _ p e he]
    have hzero := List.single_le_sum (fun _ _ => Nat.zero_le _) _ (List.mem_map_of_mem (f := fun e => e.quantity.toNat) hmem)
    have hpos := toNat_ne_zero.mp (hleft.quantity _ p e he)
    omega
  · intro hall
    have hnone : ((A.take side (crossing side price) q).left.orders side.opposite).filter
        (fun e => crossing side price e.price) = [] := by
      rw [List.filter_eq_nil_iff]
      intro e he hcross
      have hq := (hleft.order he).1
      rw [hall e.price hcross] at hq
      exact List.not_mem_nil hq
    rw [hnone, List.map_nil, List.sum_nil] at hheld
    omega

theorem left_queue_of_not_cross (h : Rep b A) (hleft : (A.take side (crossing side price) q).left.Sound) {p : Int}
    (hp : crossing side price p = false) :
    (A.take side (crossing side price) q).left.queue side.opposite p = A.queue side.opposite p := by
  rw [left_queue h hleft, Consumed.filterMap_remnant_spared]
  intro e he f hf heq
  have hmaker := (LiveBook.consumed_take (A := A) side (crossing side price) q).maker_mem hf
  obtain ⟨-, rfl⟩ := h.sound.order_unique hmaker (LiveBook.mem_orders.mpr ⟨p, he⟩) heq
  have hcross := LiveBook.take_cross h.sound hf
  rw [h.sound.price _ p _ he, hp] at hcross
  cases hcross

end Left

end ArrayBook

end Llmes
