import Llmes.Hft.Accounting

namespace Llmes

abbrev Level := Side × Int

namespace ArrayBook

def holds (b : ArrayBook) (l : Level) : Bool := b.live.any (fun y => decide (y.1 = l.1 ∧ y.2.price = l.2))

def levelOf (b : ArrayBook) (h : OrderHandle) : Option Level :=
  (b.live.find? (fun y => y.2.slot = h.toNat)).map (fun y => (y.1, y.2.price))

theorem mem_holds {b : ArrayBook} {l : Level} : b.holds l = true ↔ ∃ e, (l.1, e) ∈ b.live ∧ e.price = l.2 := by
  rw [holds, List.any_eq_true]
  constructor
  · rintro ⟨⟨s, e⟩, hy, heq⟩
    obtain ⟨rfl, hp⟩ := of_decide_eq_true heq
    exact ⟨e, hy, hp⟩
  · rintro ⟨e, hy, hp⟩
    exact ⟨(l.1, e), hy, decide_eq_true ⟨rfl, hp⟩⟩

end ArrayBook

namespace Hft

open OrderBook Outcome Tracking

namespace Call

def left (c : Call) : Option Level :=
  match c.op with
  | .cancel h => c.before.levelOf h
  | .modify h _ _ _ _ => c.before.levelOf h
  | _ => none

def rested (c : Call) : Option Level :=
  match c.op with
  | .limit _ side price _ _ => if c.reply.remaining > 0 then some (side, price) else none
  | .modify _ side price _ _ => if c.reply.remaining > 0 then some (side, price) else none
  | _ => none

def takesFrom (c : Call) : Option Side := (Op.taking c.op).map (fun t => t.1.opposite)

def moved (c : Call) : Set Level :=
  {l | c.left = some l ∨ c.rested = some l ∨ c.takesFrom = some l.1 ∧ ∃ t ∈ c.reply.trades, t.price = l.2}

def measured (c : Call) : Option Level :=
  match c.op with
  | .limit _ side price _ _ => some (side, price)
  | .cancel h => c.before.levelOf h
  | _ => none

def scenario (c : Call) : MacroScenario :=
  match c.op with
  | .limit _ side price _ _ =>
    if replyCode c.reply = .success ∧ c.reply.trades = [] ∧ c.reply.remaining > 0 then
      if c.before.holds (side, price) then .addRestExistingLevel else .addRestNewLevel
    else .unmeasured
  | .cancel _ => .cancelOrder
  | _ => .unmeasured

def entered (side : Side) (price : Int) (reply : Reply) : Set Level :=
  {l | l.1 = side.opposite ∧ (∃ t ∈ reply.trades, t.price = l.2) ∨ reply.remaining > 0 ∧ l = (side, price)}

section Moved

variable {b : ArrayBook} {h : OrderHandle} {id q ts : UInt64} {side : Side} {price : Int} {reply : Reply}

theorem mem_rest {l : Level} :
    (if reply.remaining > 0 then some (side, price) else none) = some l ↔ reply.remaining > 0 ∧ l = (side, price) := by
  by_cases hr : reply.remaining > 0
  · rw [if_pos hr, Option.some.injEq]
    exact ⟨fun h => ⟨hr, h.symm⟩, fun h => h.2.symm⟩
  · rw [if_neg hr]
    exact iff_of_false nofun (fun h => hr h.1)

theorem moved_limit : (Call.mk b (.limit id side price q ts) reply).moved = entered side price reply := by
  ext l
  simp only [moved, left, rested, takesFrom, Op.taking, entered, Set.mem_ofPred_eq, mem_rest, Option.map_some,
    Option.some.injEq, reduceCtorEq, false_or, eq_comm (a := l.1)]
  exact or_comm

theorem moved_modify : (Call.mk b (.modify h side price q ts) reply).moved =
    {l | b.levelOf h = some l} ∪ entered side price reply := by
  ext l
  simp only [moved, left, rested, takesFrom, Op.taking, entered, Set.mem_ofPred_eq, Set.mem_union, mem_rest,
    Option.map_some, Option.some.injEq, eq_comm (a := l.1)]
  exact or_congr_right or_comm

theorem moved_market : (Call.mk b (.market id side q ts) reply).moved =
    {l | l.1 = side.opposite ∧ ∃ t ∈ reply.trades, t.price = l.2} := by
  ext l
  simp only [moved, left, rested, takesFrom, Op.taking, Set.mem_ofPred_eq, Option.map_some, Option.some.injEq,
    reduceCtorEq, false_or, eq_comm (a := l.1)]

theorem moved_cancel : (Call.mk b (.cancel h) reply).moved = {l | b.levelOf h = some l} := by
  ext l
  simp only [moved, left, rested, takesFrom, Op.taking, Set.mem_ofPred_eq, Option.map_none, reduceCtorEq, false_and,
    or_false]

end Moved

end Call

variable {A : LiveBook} {capacity n : ℕ}

theorem Lists.hasPriceLevel_eq {t : Tracking} {b : ArrayBook} (h : Lists t A.live) (hrep : Rep b A) (s : Side)
    (p : Int) : t.hasPriceLevel s p = b.holds (s, p) := by
  rw [Bool.eq_iff_iff, h.hasPriceLevel_iff, ArrayBook.mem_holds]
  exact exists_congr (fun e => and_congr_left' (ArrayBook.live_perm hrep).mem_iff)

theorem Booked.levelOf {b : ArrayBook} (h : Booked capacity b A) {y : Side × Entry} (hy : y ∈ A.live) :
    b.levelOf (UInt32.ofNat y.2.slot) = some (y.1, y.2.price) := by
  have hperm := ArrayBook.live_perm h.rep
  have hslot : (UInt32.ofNat y.2.slot).toNat = y.2.slot :=
    (Rep.ofNat_ne_invalid (h.rep.slot_lt_max (LiveBook.slot_mem_of_order (LiveBook.mem_live.mp hy))).1).2
  rw [ArrayBook.levelOf, hslot]
  cases hz : b.live.find? (fun z => z.2.slot = y.2.slot) with
  | none =>
    have hnone := List.find?_eq_none.mp hz y (hperm.mem_iff.mp hy)
    exact absurd (decide_eq_true rfl) hnone
  | some z =>
    have hmem := hperm.mem_iff.mpr (List.mem_of_find?_eq_some hz)
    have heq : z.2.slot = y.2.slot := by simpa using List.find?_some hz
    have hloc := h.locate hmem
    rw [heq, h.locate hy] at hloc
    obtain rfl := Option.some.inj hloc
    rfl

namespace Attribution

def reuse (a : Attribution) (l : Level) : UInt64 := (a.annotateLevelReuse {} l.1 l.2).levelReuseDistanceOps

structure Touches (a : Attribution) (must may : Set Level) (a' : Attribution) : Prop where
  index : a'.attributionOpIndex = a.attributionOpIndex
  must : ∀ l ∈ must, a'.lastLevelTouch l.1 l.2 = some (a.attributionOpIndex : Int)
  may : ∀ l, a'.lastLevelTouch l.1 l.2 = a.lastLevelTouch l.1 l.2 ∨
    l ∈ may ∧ a'.lastLevelTouch l.1 l.2 = some (a.attributionOpIndex : Int)

variable {a a₁ a₂ : Attribution} {must may must' may' : Set Level}

namespace Touches

theorem rfl' : Touches a ∅ ∅ a := ⟨rfl, fun _ h => absurd h (Set.notMem_empty _), fun _ => Or.inl rfl⟩

theorem of_same (hindex : a₁.attributionOpIndex = a.attributionOpIndex)
    (hlast : ∀ l : Level, a₁.lastLevelTouch l.1 l.2 = a.lastLevelTouch l.1 l.2) : Touches a ∅ may a₁ :=
  ⟨hindex, fun _ h => absurd h (Set.notMem_empty _), fun l => Or.inl (hlast l)⟩

theorem trans (h : Touches a must may a₁) (h' : Touches a₁ must' may' a₂) :
    Touches a (must ∪ must') (may ∪ may') a₂ := by
  have hkeep (l : Level) (hl : a₁.lastLevelTouch l.1 l.2 = some (a.attributionOpIndex : Int)) :
      a₂.lastLevelTouch l.1 l.2 = some (a.attributionOpIndex : Int) := by
    rcases h'.may l with heq | ⟨-, heq⟩
    · exact heq.trans hl
    · rw [heq, h.index]
  refine ⟨h'.index.trans h.index, ?_, fun l => ?_⟩
  · rintro l (hl | hl)
    · exact hkeep l (h.must l hl)
    · rw [h'.must l hl, h.index]
  · rcases h'.may l with heq | ⟨hl, heq⟩
    · rw [heq]
      exact (h.may l).imp_right (And.imp_left Or.inl)
    · exact Or.inr ⟨Or.inr hl, by rw [heq, h.index]⟩

theorem imp (h : Touches a must may a₁) (hmust : must' ⊆ must) (hmay : may ⊆ may') : Touches a must' may' a₁ :=
  ⟨h.index, fun l hl => h.must l (hmust hl), fun l => (h.may l).imp_right (And.imp_left (fun hl => hmay hl))⟩

end Touches

theorem touch_last (a : Attribution) (s : Side) (p at_ : Int) (l : Level) :
    (a.touch s p at_).lastLevelTouch l.1 l.2 = if l = (s, p) then some at_ else a.lastLevelTouch l.1 l.2 := by
  obtain ⟨s', p'⟩ := l
  by_cases hs : s' = s
  · subst hs
    cases s' <;> simp [touch, lastLevelTouch, Function.update_apply]
  · cases s <;> cases s' <;> first | exact absurd rfl hs | simp [touch, lastLevelTouch]

theorem touch_index (a : Attribution) (s : Side) (p at_ : Int) :
    (a.touch s p at_).attributionOpIndex = a.attributionOpIndex := by
  cases s <;> rfl

theorem touchLevel_touches (a : Attribution) (s : Side) (p : Int) :
    Touches a {(s, p)} {(s, p)} (a.touchLevel s p) := by
  refine ⟨a.touch_index s p _, fun l hl => ?_, fun l => ?_⟩
  · rw [touchLevel, touch_last, if_pos (Set.mem_singleton_iff.mp hl)]
  · rw [touchLevel, touch_last]
    by_cases hl : l = (s, p)
    · rw [if_pos hl]
      exact Or.inr ⟨hl, rfl⟩
    · rw [if_neg hl]
      exact Or.inl rfl

theorem withShadowTree_touches (a : Attribution) (tree : ShadowOccupancyTree) (s : Side) :
    Touches a ∅ ∅ (a.withShadowTree tree s) := by
  apply Touches.of_same
  · cases s <;> rfl
  · rintro ⟨t, p⟩
    cases s <;> cases t <;> rfl

theorem setShadowLevel_touches (a : Attribution) (s : Side) (p : Int) :
    Ends (fun _ => True) (Touches a ∅ ∅) (a.setShadowLevel s p) := by
  rw [setShadowLevel]
  apply (Ends.trivial _).bind
  intro bit _
  exact a.withShadowTree_touches _ s

theorem clearShadowLevel_touches (a : Attribution) (s : Side) (p : Int) :
    Ends (fun _ => True) (Touches a ∅ ∅) (a.clearShadowLevel s p) := by
  rw [clearShadowLevel]
  apply (Ends.trivial _).bind
  intro bit _
  exact a.withShadowTree_touches _ s

theorem clearLeading_touches (takerSide : Side) (limitPrice : Option Int) (hasPriceLevel : Int → Bool) (fuel : ℕ)
    (clearedAny : Bool) (a : Attribution) :
    Ends (fun _ => True) (Touches a ∅ {l | l.1 = takerSide.opposite})
      (clearLeading takerSide limitPrice hasPriceLevel fuel clearedAny a) := by
  have hsame (a : Attribution) : Touches a ∅ {l | l.1 = takerSide.opposite} a :=
    Touches.of_same rfl (fun _ => rfl)
  have hone (a : Attribution) (best : Int) :
      Touches a ∅ {l | l.1 = takerSide.opposite} (a.touchLevel takerSide.opposite best) := by
    apply (a.touchLevel_touches takerSide.opposite best).imp (Set.empty_subset _)
    rintro l rfl
    rfl
  induction fuel using Nat.strong_induction_on generalizing clearedAny a with
  | _ fuel ih =>
    rw [clearLeading]
    cases a.shadowBestPrice takerSide.opposite with
    | none => exact hsame a
    | some best =>
      dsimp only
      split
      · cases clearedAny
        · exact hsame a
        · exact hone a best
      · split
        · exact hsame a
        · cases fuel with
          | zero => exact True.intro
          | succ fuel =>
            apply (clearShadowLevel_touches _ _ _).bind
            intro a₁ h₁
            apply (ih fuel (Nat.lt_succ_self _) true a₁).imp
            intro a₂ h₂
            apply (((hone a best).trans h₁).trans h₂).imp
            · exact Set.empty_subset _
            · rintro l ((hl | hl) | hl)
              · exact hl
              · exact absurd hl (Set.notMem_empty _)
              · exact hl

theorem applyMatchingAttribution_touches (a : Attribution) (takerSide : Side) (limitPrice : Option Int)
    (trades : List Trade) (hasPriceLevel : Int → Bool) :
    Ends (fun _ => True)
      (Touches a {l | l.1 = takerSide.opposite ∧ ∃ t ∈ trades, t.price = l.2} {l | l.1 = takerSide.opposite})
      (a.applyMatchingAttribution takerSide limitPrice trades hasPriceLevel) := by
  have htrades : Touches a {l | l.1 = takerSide.opposite ∧ ∃ t ∈ trades, t.price = l.2}
      {l | l.1 = takerSide.opposite}
      (trades.foldl (fun a trade => a.touchLevel takerSide.opposite trade.price) a) := by
    induction trades generalizing a with
    | nil => exact Touches.rfl'.imp (by rintro l ⟨-, t, ht, -⟩; cases ht) (Set.empty_subset _)
    | cons t ts ih =>
      apply ((a.touchLevel_touches takerSide.opposite t.price).trans (ih _)).imp
      · rintro ⟨s, p⟩ ⟨rfl, t', ht, rfl⟩
        rcases List.mem_cons.mp ht with rfl | ht
        · exact Or.inl rfl
        · exact Or.inr ⟨rfl, t', ht, rfl⟩
      · rintro l (rfl | hl)
        · rfl
        · exact hl
  rw [applyMatchingAttribution]
  apply (clearLeading_touches takerSide limitPrice hasPriceLevel _ _ _).imp
  intro a' h
  exact (htrades.trans h).imp Set.subset_union_left (Set.union_subset subset_rfl subset_rfl)

theorem annotateAdd_reuse (a : Attribution) (s : Side) (p : Int) :
    Ends (fun _ => True) (fun x : PendingAttribution => x.levelReuseDistanceOps = a.reuse (s, p))
      (a.annotateAdd {} s p) := by
  rw [annotateAdd]
  apply (Ends.trivial _).bind
  intro bit _
  rfl

end Attribution

end Hft

end Llmes
