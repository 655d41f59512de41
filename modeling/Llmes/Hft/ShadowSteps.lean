import Llmes.Hft.PriceRange
import Llmes.Lib.Strip

namespace Llmes.Hft

open Outcome Strip

def Attribution.marks (a : Attribution) (s : Side) : Set Int := {p | ∃ i : ℕ, p = i ∧ (a.shadowTree s).test i = true}

def reaches (takerSide : Side) (limitPrice : Option Int) (p : Int) : Prop :=
  ∀ limit ∈ limitPrice, shadowCanCross takerSide limit p = true

namespace Attribution

variable {a : Attribution} {s : Side} {p : Int}

theorem withShadowTree_shadowTree (a : Attribution) (tree : ShadowOccupancyTree) (s t : Side) :
    (a.withShadowTree tree s).shadowTree t = if t = s then tree else a.shadowTree t := by
  cases s <;> cases t <;> rfl

theorem touch_marks (a : Attribution) (s : Side) (p at_ : Int) : (a.touch s p at_).marks = a.marks := by
  funext t
  cases s <;> cases t <;> rfl

theorem touchLevel_marks (a : Attribution) (s : Side) (p : Int) : (a.touchLevel s p).marks = a.marks :=
  a.touch_marks s p _

theorem mem_marks {i : ℕ} : (i : Int) ∈ a.marks s ↔ (a.shadowTree s).test i = true := by
  constructor
  · rintro ⟨j, hj, htest⟩
    rwa [Int.ofNat_inj.mp hj]
  · exact fun h => ⟨i, rfl, h⟩

theorem marks_range (h : p ∈ a.marks s) : 0 ≤ p ∧ p < kBitCount := by
  obtain ⟨i, rfl, hi⟩ := h
  have := ShadowOccupancyTree.test_lt hi
  omega

theorem marks_finite (a : Attribution) (s : Side) : (a.marks s).Finite := by
  apply (Set.finite_Ico (0 : Int) kBitCount).subset
  intro p hp
  exact marks_range hp

theorem priceIndex_ends (p : Int) :
    Ends (fun e => e = .book .priceRange ∧ ¬ Indexed p) (fun bit : Fin kBitCount => p = (bit : ℕ)) (priceIndex p) := by
  unfold priceIndex
  split
  · next h => exact (Int.toNat_of_nonneg h.1).symm
  · next h =>
    refine ⟨rfl, ?_⟩
    rintro ⟨hlow, hhigh⟩
    apply h
    omega

theorem priceIndex_ok {bit : Fin kBitCount} : priceIndex (bit : ℕ) = .ok bit := by
  rw [priceIndex, dif_pos (by simp)]
  rfl

theorem set_marks (a : Attribution) (s : Side) (bit : Fin kBitCount) (t : Side) :
    (a.withShadowTree ((a.shadowTree s).set bit) s).marks t =
      if t = s then a.marks t ∪ {((bit : ℕ) : Int)} else a.marks t := by
  ext p
  by_cases hts : t = s
  · subst hts
    rw [if_pos rfl]
    constructor
    · rintro ⟨i, rfl, hi⟩
      rw [withShadowTree_shadowTree, if_pos rfl, ShadowOccupancyTree.test_set, Bool.or_eq_true, decide_eq_true_eq] at hi
      rcases hi with rfl | hi
      · exact Or.inr rfl
      · exact Or.inl ⟨i, rfl, hi⟩
    · intro hp
      rw [marks, Set.mem_ofPred, withShadowTree_shadowTree, if_pos rfl]
      rcases hp with ⟨i, rfl, hi⟩ | rfl
      · exact ⟨i, rfl, by rw [ShadowOccupancyTree.test_set, hi, Bool.or_true]⟩
      · exact ⟨bit, rfl, by simp [ShadowOccupancyTree.test_set]⟩
  · rw [if_neg hts, marks, marks, withShadowTree_shadowTree, if_neg hts]

theorem clear_marks (a : Attribution) (s : Side) (bit : Fin kBitCount) (t : Side) :
    (a.withShadowTree ((a.shadowTree s).clear bit) s).marks t =
      if t = s then a.marks t \ {((bit : ℕ) : Int)} else a.marks t := by
  ext p
  by_cases hts : t = s
  · subst hts
    rw [if_pos rfl]
    constructor
    · rintro ⟨i, rfl, hi⟩
      rw [withShadowTree_shadowTree, if_pos rfl, ShadowOccupancyTree.test_clear, Bool.and_eq_true,
        decide_eq_true_eq] at hi
      exact ⟨⟨i, rfl, hi.2⟩, fun h => hi.1 (Int.ofNat_inj.mp h)⟩
    · rintro ⟨⟨i, rfl, hi⟩, hne⟩
      rw [marks, Set.mem_ofPred, withShadowTree_shadowTree, if_pos rfl]
      refine ⟨i, rfl, ?_⟩
      rw [ShadowOccupancyTree.test_clear, hi, Bool.and_true, decide_eq_true_eq]
      exact fun h => hne (congrArg Int.ofNat h)
  · rw [if_neg hts, marks, marks, withShadowTree_shadowTree, if_neg hts]

theorem setShadowLevel_ends (a : Attribution) (s : Side) (p : Int) :
    Ends (fun e => e = .book .priceRange ∧ ¬ Indexed p)
      (fun a' => ∀ t, a'.marks t = if t = s then a.marks t ∪ {p} else a.marks t) (a.setShadowLevel s p) := by
  apply (priceIndex_ends p).bind
  rintro bit rfl
  exact a.set_marks s bit

theorem shadowBestPrice_none (h : a.shadowBestPrice s = none) : a.marks s = ∅ := by
  rw [shadowBestPrice, Option.map_eq_none_iff, ShadowOccupancyTree.best_eq_none] at h
  rw [Set.eq_empty_iff_forall_notMem]
  rintro p ⟨i, -, hi⟩
  rw [h] at hi
  cases hi

theorem shadowBestPrice_some {best : Int} (h : a.shadowBestPrice s = some best) :
    First (PriceCompare s.isAsk) (a.marks s) best ∧ ∃ bit : Fin kBitCount, best = (bit : ℕ) := by
  obtain ⟨i, hi, rfl⟩ := Option.map_eq_some_iff.mp h
  obtain ⟨htest, hbest⟩ := ShadowOccupancyTree.best_spec hi
  refine ⟨⟨mem_marks.mpr htest, ?_⟩, ⟨i, ShadowOccupancyTree.test_lt htest⟩, rfl⟩
  rintro p ⟨j, rfl, hj⟩
  exact (hbest j hj).imp (congrArg Int.ofNat) id

theorem clearLeading_ends {takerSide : Side} {limitPrice : Option Int} {hasPriceLevel : Int → Bool} {fuel : ℕ}
    (clearedAny : Bool) (a : Attribution) (hfuel : (a.marks takerSide.opposite).ncard ≤ fuel) :
    Ends (fun _ => False)
      (fun a' => ∀ t, a'.marks t =
        if t = takerSide.opposite then
          strip (PriceCompare t.isAsk) (fun p => hasPriceLevel p = false ∧ reaches takerSide limitPrice p) (a.marks t)
        else a.marks t)
      (clearLeading takerSide limitPrice hasPriceLevel fuel clearedAny a) := by
  induction fuel using Nat.strong_induction_on generalizing clearedAny a with
  | _ fuel ih =>
    rw [clearLeading]
    cases hbest : a.shadowBestPrice takerSide.opposite with
    | none =>
      intro t
      split
      · next ht => rw [ht, shadowBestPrice_none hbest, strip_empty]
      · rfl
    | some best =>
      obtain ⟨hfirst, bit, rfl⟩ := shadowBestPrice_some hbest
      have hstop (a' : Attribution) (ha' : a'.marks = a.marks)
          (hnot : ¬ (hasPriceLevel (bit : ℕ) = false ∧ reaches takerSide limitPrice (bit : ℕ))) (t : Side) :
          a'.marks t = if t = takerSide.opposite then
              strip (PriceCompare t.isAsk) (fun p => hasPriceLevel p = false ∧ reaches takerSide limitPrice p)
                (a.marks t)
            else a.marks t := by
        rw [ha']
        split
        · next ht =>
          subst ht
          rw [strip_of_first_not hfirst hnot]
        · rfl
      dsimp only
      split
      · next hlive =>
        have hnot : ¬ (hasPriceLevel (bit : ℕ) = false ∧ reaches takerSide limitPrice (bit : ℕ)) := by simp [hlive]
        refine hstop _ ?_ hnot
        split
        · exact touchLevel_marks _ _ _
        · rfl
      · next hlive =>
        split
        · next hlimit =>
          refine hstop a rfl (fun h => ?_)
          obtain ⟨limit, hl, hc⟩ := (Option.any_eq_true _ _).mp hlimit
          rw [h.2 limit hl] at hc
          exact absurd hc (by decide)
        · next hlimit =>
          have hpass : hasPriceLevel (bit : ℕ) = false ∧ reaches takerSide limitPrice (bit : ℕ) := by
            refine ⟨by simpa using hlive, fun limit hl => ?_⟩
            rw [Option.mem_def] at hl
            rw [hl] at hlimit
            simpa using hlimit
          have hcard : 0 < (a.marks takerSide.opposite).ncard :=
            (Set.ncard_pos (a.marks_finite _)).mpr ⟨_, hfirst.1⟩
          cases fuel with
          | zero => omega
          | succ fuel =>
            have hclear := clear_marks (a.touchLevel takerSide.opposite (bit : ℕ)) takerSide.opposite bit
            rw [touchLevel_marks] at hclear
            dsimp only
            rw [clearShadowLevel, priceIndex_ok]
            change Ends _ _ (clearLeading _ _ _ fuel true _)
            have hless := Set.ncard_sdiff_singleton_lt_of_mem hfirst.1 (a.marks_finite _)
            apply (ih fuel (Nat.lt_succ_self _) true _ ?_).imp
            · intro a' ha' t
              rw [ha', hclear]
              by_cases ht : t = takerSide.opposite
              · rw [if_pos ht, if_pos ht, if_pos ht, ht, strip_of_first hfirst hpass]
              · rw [if_neg ht, if_neg ht, if_neg ht]
            · rw [hclear, if_pos rfl]
              omega

theorem applyMatchingAttribution_ends (a : Attribution) (takerSide : Side) (limitPrice : Option Int)
    (trades : List Trade) (hasPriceLevel : Int → Bool) :
    Ends (fun _ => False)
      (fun a' => ∀ t, a'.marks t =
        if t = takerSide.opposite then
          strip (PriceCompare t.isAsk) (fun p => hasPriceLevel p = false ∧ reaches takerSide limitPrice p) (a.marks t)
        else a.marks t)
      (a.applyMatchingAttribution takerSide limitPrice trades hasPriceLevel) := by
  have htouch : (trades.foldl (fun a trade => a.touchLevel takerSide.opposite trade.price) a).marks = a.marks := by
    induction trades generalizing a with
    | nil => rfl
    | cons trade trades ih => exact (ih _).trans (touchLevel_marks _ _ _)
  have hfuel : (a.marks takerSide.opposite).ncard ≤ kBitCount := by
    have hsub : a.marks takerSide.opposite ⊆ Set.Ico (0 : Int) kBitCount := fun p hp => marks_range hp
    have hle := Set.ncard_le_ncard hsub (Set.finite_Ico _ _)
    rwa [← Finset.coe_Ico, Set.ncard_coe_finset, Int.card_Ico, sub_zero, Int.toNat_natCast] at hle
  have hclear := @clearLeading_ends takerSide limitPrice hasPriceLevel kBitCount false _ (htouch ▸ hfuel)
  rw [htouch] at hclear
  exact hclear

end Attribution

end Llmes.Hft
