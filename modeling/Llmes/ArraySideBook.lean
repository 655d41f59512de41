import Llmes.BookSide
import Llmes.OccupancyTree

namespace Llmes

def kDefaultBasePrice : Int := 0

def kDefaultPriceCount : ℕ := kBitCount

/-- One side of the book as an array of levels. The book uses the default base price and price
count, so neither is a field here. -/
structure ArraySideBook (isAsk : Bool) where
  levels : ℕ → PriceLevel
  activeTree : OccupancyTree
  bestPriceIdx : ℕ
  hasBest : Bool

namespace ArraySideBook

variable {isAsk : Bool}

def init : ArraySideBook isAsk := ⟨fun _ => {}, OccupancyTree.empty, 0, false⟩

def empty (b : ArraySideBook isAsk) : Bool := !b.hasBest

def idxOf (price : Int) : Exec ℕ :=
  let diff := price - kDefaultBasePrice
  if kDefaultBasePrice ≤ price ∧ diff.toNat < kDefaultPriceCount then .ok diff.toNat
  else .error .priceRange

def priceOf (idx : ℕ) : Exec Int :=
  if idx < kDefaultPriceCount then .ok (kDefaultBasePrice + idx) else .error .assertion

def bestPrice (b : ArraySideBook isAsk) : Exec Int :=
  if b.hasBest then priceOf b.bestPriceIdx else .error .assertion

def bestLevel (b : ArraySideBook isAsk) : Exec ℕ :=
  if b.hasBest then .ok b.bestPriceIdx else .error .assertion

def betterIdx (isAsk : Bool) (idx bestPriceIdx : ℕ) : Bool :=
  if isAsk then idx < bestPriceIdx else idx > bestPriceIdx

def getOrCreate (b : ArraySideBook isAsk) (price : Int) : Exec (ℕ × ArraySideBook isAsk) := do
  let idx ← idxOf price
  let tree ← b.activeTree.set idx
  if !b.hasBest || betterIdx isAsk idx b.bestPriceIdx then
    pure (idx, { b with activeTree := tree, bestPriceIdx := idx, hasBest := true })
  else pure (idx, { b with activeTree := tree })

/-- The loop of the source, with a bound on its iterations. -/
def clearGhostBestLevel : ℕ → ArraySideBook isAsk → Exec (ArraySideBook isAsk)
  | fuel, b =>
    if b.hasBest && (b.levels b.bestPriceIdx).empty then
      match fuel with
      | 0 => .error .loopBound
      | fuel + 1 => do
        let tree ← b.activeTree.clear b.bestPriceIdx
        if tree.isEmpty then pure { b with activeTree := tree, hasBest := false }
        else
          let idx ← tree.nextBest isAsk b.bestPriceIdx
          clearGhostBestLevel fuel { b with activeTree := tree, bestPriceIdx := idx }
    else .ok b

def eraseBest (b : ArraySideBook isAsk) : Exec (ArraySideBook isAsk) :=
  if b.hasBest && (b.levels b.bestPriceIdx).empty then do
    let tree ← b.activeTree.clear b.bestPriceIdx
    if tree.isEmpty then pure { b with activeTree := tree, hasBest := false }
    else
      let idx ← tree.nextBest isAsk b.bestPriceIdx
      clearGhostBestLevel kBitCount { b with activeTree := tree, bestPriceIdx := idx }
  else .error .assertion

instance : BookSide ArraySideBook ℕ where
  empty := empty
  bestPrice := bestPrice
  bestLevel := bestLevel
  getOrCreate := getOrCreate
  eraseBest := eraseBest
  level b r := b.levels r
  setLevel b r l := { b with levels := Function.update b.levels r l }
  levelBound _ := kBitCount

structure Inv (b : ArraySideBook isAsk) : Prop where
  has : b.hasBest = true ↔ ∃ i, b.activeTree.test i = true
  best : b.hasBest = true → b.activeTree.test b.bestPriceIdx = true ∧
    ∀ i, b.activeTree.test i = true → i = b.bestPriceIdx ∨ betterIdx isAsk b.bestPriceIdx i = true
  vacant : ∀ i, b.activeTree.test i = false → b.levels i = {}

def ref (b : ArraySideBook isAsk) (price : Int) : Option ℕ :=
  if 0 ≤ price ∧ b.activeTree.test price.toNat = true then some price.toNat else none

def count (b : ArraySideBook isAsk) : ℕ :=
  ((Finset.range kBitCount).filter (fun i => b.activeTree.test i = true)).card

theorem ref_eq_some {b : ArraySideBook isAsk} {p : Int} {r : ℕ} :
    b.ref p = some r ↔ p = r ∧ b.activeTree.test r = true := by
  unfold ref
  split
  · next h =>
    rw [Option.some.injEq]
    constructor
    · rintro rfl; exact ⟨by omega, h.2⟩
    · rintro ⟨rfl, -⟩; omega
  · next h =>
    simp only [reduceCtorEq, false_iff, not_and]
    rintro rfl h'
    exact h ⟨by omega, by simpa using h'⟩

theorem test_lt {t : OccupancyTree} {i : ℕ} (h : t.test i = true) : i < kBitCount :=
  (OccupancyTree.test_iff.mp h).1

theorem betterIdx_iff {i j : ℕ} : betterIdx isAsk i j = true ↔ PriceCompare isAsk i j := by
  cases isAsk <;> simp [betterIdx]

theorem init_inv : (init : ArraySideBook isAsk).Inv where
  has := by simp [init, OccupancyTree.test, OccupancyTree.empty]
  best := by simp [init]
  vacant := by simp [init]

theorem nextBest_spec {t : OccupancyTree} {p : ℕ} (hp : p < kBitCount)
    (hall : ∀ i, t.test i = true → betterIdx isAsk p i = true) (hne : t.isEmpty = false) :
    ∃ j, t.nextBest isAsk p = .ok j ∧ t.test j = true ∧
      ∀ k, t.test k = true → k = j ∨ betterIdx isAsk j k = true := by
  obtain ⟨i, hi⟩ : ∃ i, t.test i = true := by
    by_contra h
    push Not at h
    have := OccupancyTree.isEmpty_iff.mpr (fun i => by simpa using h i)
    rw [hne] at this
    cases this
  cases isAsk with
  | true =>
    simp only [betterIdx, if_true, decide_eq_true_eq] at hall ⊢
    obtain ⟨j, hj, htest, hpj, hleast⟩ := OccupancyTree.findNextSet_spec hi (hall i hi).le
    refine ⟨j, by simpa [OccupancyTree.nextBest] using hj, htest, fun k hk => ?_⟩
    have := hleast k hk (hall k hk).le
    omega
  | false =>
    simp only [betterIdx, Bool.false_eq_true, if_false, decide_eq_true_eq] at hall ⊢
    obtain ⟨j, hj, htest, hpj, hgreatest⟩ := OccupancyTree.findPrevSet_spec hi (hall i hi).le hp
    refine ⟨j, by simpa [OccupancyTree.nextBest] using hj, htest, fun k hk => ?_⟩
    have := hgreatest k hk (hall k hk).le
    omega

structure Retired (b b' : ArraySideBook isAsk) : Prop where
  inv : b'.Inv
  levels : b'.levels = b.levels
  test_of : ∀ i, b'.activeTree.test i = true → b.activeTree.test i = true
  vacant : ∀ i, b.activeTree.test i = true → b'.activeTree.test i = false → b.levels i = {}

theorem Retired.refl {b : ArraySideBook isAsk} (h : b.Inv) : Retired b b :=
  ⟨h, rfl, fun _ h => h, fun i h h' => by rw [h] at h'; cases h'⟩

theorem Retired.trans {b b' b'' : ArraySideBook isAsk} (h : Retired b b') (h' : Retired b' b'') :
    Retired b b'' where
  inv := h'.inv
  levels := h'.levels.trans h.levels
  test_of i hi := h.test_of i (h'.test_of i hi)
  vacant i hi hi'' := by
    cases ht : b'.activeTree.test i with
    | true => rw [← h.levels]; exact h'.vacant i ht hi''
    | false => exact h.vacant i hi ht

theorem Retired.count_le {b b' : ArraySideBook isAsk} (h : Retired b b') : b'.count ≤ b.count := by
  apply Finset.card_le_card
  intro i
  simp only [Finset.mem_filter]
  exact fun ⟨h1, h2⟩ => ⟨h1, h.test_of i h2⟩

theorem count_lt_of_clear {b b' : ArraySideBook isAsk} {i : ℕ} (hi : b.activeTree.test i = true)
    (hc : b.activeTree.clear i = .ok b'.activeTree) : b'.count < b.count := by
  apply Finset.card_lt_card
  rw [Finset.ssubset_iff_of_subset]
  · refine ⟨i, ?_, ?_⟩
    · simp [hi, test_lt hi]
    · simp [OccupancyTree.test_clear hc]
  · intro j
    simp only [Finset.mem_filter, OccupancyTree.test_clear hc, Bool.and_eq_true]
    exact fun ⟨h1, h2⟩ => ⟨h1, h2.2⟩

theorem retireBest_spec {b : ArraySideBook isAsk} (h : b.Inv) (hb : b.hasBest = true)
    (hlevel : b.levels b.bestPriceIdx = {}) :
    ∃ tree, b.activeTree.clear b.bestPriceIdx = .ok tree ∧
      (tree.isEmpty = true → Retired b { b with activeTree := tree, hasBest := false }) ∧
      (tree.isEmpty = false → ∃ idx, tree.nextBest isAsk b.bestPriceIdx = .ok idx ∧
        Retired b { b with activeTree := tree, bestPriceIdx := idx }) := by
  obtain ⟨htest, hbest⟩ := h.best hb
  obtain ⟨tree, hc⟩ := OccupancyTree.clear_ok htest
  have ht := OccupancyTree.test_clear hc
  have hof : ∀ i, tree.test i = true → b.activeTree.test i = true := by
    intro i hi
    rw [ht, Bool.and_eq_true] at hi
    exact hi.2
  have hvac : ∀ i, b.activeTree.test i = true → tree.test i = false → b.levels i = {} := by
    intro i hi hi'
    rw [ht, hi, Bool.and_true, decide_eq_false_iff_not, not_not] at hi'
    rw [hi', hlevel]
  have hvac' : ∀ i, tree.test i = false → b.levels i = {} := by
    intro i hi
    cases hbi : b.activeTree.test i with
    | true => exact hvac i hbi hi
    | false => exact h.vacant i hbi
  refine ⟨tree, hc, fun he => ?_, fun he => ?_⟩
  · have hnone := OccupancyTree.isEmpty_iff.mp he
    exact ⟨⟨by simp [hnone], by simp, hvac'⟩, rfl, hof, hvac⟩
  · have hall : ∀ i, tree.test i = true → betterIdx isAsk b.bestPriceIdx i = true := by
      intro i hi
      have hi' := hi
      rw [ht, Bool.and_eq_true, decide_eq_true_eq] at hi'
      exact (hbest i hi'.2).resolve_left hi'.1
    obtain ⟨j, hj, hjt, hjb⟩ := nextBest_spec (test_lt htest) hall he
    refine ⟨j, hj, ⟨⟨⟨fun _ => ⟨j, hjt⟩, fun _ => hb⟩, fun _ => ⟨hjt, hjb⟩, hvac'⟩, rfl, hof, hvac⟩⟩

theorem count_pos {b : ArraySideBook isAsk} (h : b.Inv) (hb : b.hasBest = true) : 0 < b.count := by
  have hm := (h.best hb).1
  exact Finset.card_pos.mpr ⟨b.bestPriceIdx, by simp [hm, test_lt hm]⟩

theorem clearGhostBestLevel_spec {b : ArraySideBook isAsk} {fuel : ℕ} (h : b.Inv)
    (htidy : ∀ i, (b.levels i).head = none → b.levels i = {}) (hfuel : b.count ≤ fuel) :
    ∃ b', clearGhostBestLevel fuel b = .ok b' ∧ Retired b b' ∧
      (b'.hasBest = true → (b'.levels b'.bestPriceIdx).head ≠ none) := by
  induction fuel generalizing b with
  | zero =>
    have hnone : ¬ (b.hasBest && (b.levels b.bestPriceIdx).empty) = true := by
      intro hc
      rw [Bool.and_eq_true] at hc
      have hpos := count_pos h hc.1
      omega
    refine ⟨b, by rw [clearGhostBestLevel, if_neg hnone], Retired.refl h, fun hb hn => hnone ?_⟩
    rw [hb, Bool.true_and, PriceLevel.empty_iff, hn]
  | succ fuel ih =>
    by_cases hc : (b.hasBest && (b.levels b.bestPriceIdx).empty) = true
    · rw [clearGhostBestLevel, if_pos hc]
      rw [Bool.and_eq_true, PriceLevel.empty_iff] at hc
      obtain ⟨tree, hclear, hempty, hnext⟩ := retireBest_spec h hc.1 (htidy _ hc.2)
      simp only [hclear, ok_bind, pure_eq_ok]
      cases he : tree.isEmpty with
      | true => exact ⟨_, rfl, hempty he, by simp⟩
      | false =>
        obtain ⟨idx, hidx, hret⟩ := hnext he
        have hlt : ({ b with activeTree := tree, bestPriceIdx := idx } : ArraySideBook isAsk).count
            < b.count := count_lt_of_clear (h.best hc.1).1 hclear
        obtain ⟨b', hb', hret', hlive⟩ := ih hret.inv htidy (by omega)
        simp only [Bool.false_eq_true, if_false, hidx, ok_bind]
        exact ⟨b', hb', hret.trans hret', hlive⟩
    · refine ⟨b, by rw [clearGhostBestLevel, if_neg hc], Retired.refl h, fun hb hn => hc ?_⟩
      rw [hb, Bool.true_and, PriceLevel.empty_iff, hn]

theorem count_le {b : ArraySideBook isAsk} : b.count ≤ kBitCount := by
  simpa [count] using Finset.card_filter_le (Finset.range kBitCount) (fun i => b.activeTree.test i = true)

theorem eraseBest_spec {b : ArraySideBook isAsk} (h : b.Inv)
    (htidy : ∀ i, (b.levels i).head = none → b.levels i = {}) (hb : b.hasBest = true)
    (hlevel : b.levels b.bestPriceIdx = {}) :
    ∃ b', b.eraseBest = .ok b' ∧ Retired b b' ∧ b'.activeTree.test b.bestPriceIdx = false ∧
      b'.count < b.count ∧ (b'.hasBest = true → (b'.levels b'.bestPriceIdx).head ≠ none) := by
  have hcond : (b.hasBest && (b.levels b.bestPriceIdx).empty) = true := by simp [hb, hlevel, PriceLevel.empty]
  obtain ⟨htest, -⟩ := h.best hb
  obtain ⟨tree, hclear, hempty, hnext⟩ := retireBest_spec h hb hlevel
  have hgone : tree.test b.bestPriceIdx = false := by simp [OccupancyTree.test_clear hclear]
  simp only [eraseBest, if_pos hcond, hclear, ok_bind, pure_eq_ok]
  cases he : tree.isEmpty with
  | true => exact ⟨_, rfl, hempty he, hgone, count_lt_of_clear htest hclear, by simp⟩
  | false =>
    obtain ⟨idx, hidx, hret⟩ := hnext he
    have hlt : ({ b with activeTree := tree, bestPriceIdx := idx } : ArraySideBook isAsk).count
        < b.count := count_lt_of_clear htest hclear
    obtain ⟨b', hb', hret', hlive⟩ := clearGhostBestLevel_spec hret.inv htidy count_le
    simp only [Bool.false_eq_true, if_false, hidx, ok_bind]
    refine ⟨b', hb', hret.trans hret', ?_, by have := hret'.count_le; omega, hlive⟩
    cases ht : b'.activeTree.test b.bestPriceIdx with
    | false => rfl
    | true => exact absurd (hret'.test_of _ ht) (by simp [hgone])

theorem idxOf_ok {p : Int} (h0 : 0 ≤ p) (h1 : p < kBitCount) : idxOf p = .ok p.toNat := by
  have : p.toNat < kBitCount := by omega
  simp [idxOf, kDefaultBasePrice, kDefaultPriceCount, h0, this]

theorem idxOf_error {p : Int} (h : ¬ (0 ≤ p ∧ p < kBitCount)) : idxOf p = .error .priceRange := by
  have : ¬ (0 ≤ p ∧ p.toNat < kBitCount) := by omega
  simp [idxOf, kDefaultBasePrice, kDefaultPriceCount, this]

theorem getOrCreate_spec {b : ArraySideBook isAsk} {p : Int} (h : b.Inv) (h0 : 0 ≤ p)
    (h1 : p < kBitCount) :
    ∃ b', b.getOrCreate p = .ok (p.toNat, b') ∧ b'.Inv ∧ b'.levels = b.levels ∧
      ∀ i, b'.activeTree.test i = (decide (i = p.toNat) || b.activeTree.test i) := by
  obtain ⟨tree, hset⟩ := OccupancyTree.set_ok b.activeTree (show p.toNat < kBitCount by omega)
  have ht := OccupancyTree.test_set hset
  have hself : tree.test p.toNat = true := by simp [ht]
  have hvac : ∀ i, tree.test i = false → b.levels i = {} := by
    intro i hi
    rw [ht, Bool.or_eq_false_iff] at hi
    exact h.vacant i hi.2
  simp only [getOrCreate, idxOf_ok h0 h1, ok_bind, hset, pure_eq_ok]
  by_cases hc : (!b.hasBest || betterIdx isAsk p.toNat b.bestPriceIdx) = true
  · rw [if_pos hc]
    refine ⟨_, rfl, ⟨⟨fun _ => ⟨_, hself⟩, fun _ => rfl⟩, fun _ => ⟨hself, ?_⟩, hvac⟩, rfl, ht⟩
    intro i hi
    simp only [ht, Bool.or_eq_true, decide_eq_true_eq] at hi
    rcases hi with hi | hi
    · exact Or.inl hi
    · have hb : b.hasBest = true := h.has.mpr ⟨i, hi⟩
      simp only [hb, Bool.not_true, Bool.false_or] at hc
      rcases (h.best hb).2 i hi with rfl | hlt
      · exact Or.inr hc
      · rw [betterIdx_iff] at hc hlt ⊢
        exact Or.inr (trans_of (PriceCompare isAsk) hc hlt)
  · rw [if_neg hc]
    simp only [Bool.or_eq_true, Bool.not_eq_true', not_or, Bool.not_eq_false, Bool.not_eq_true] at hc
    obtain ⟨hb, hnot⟩ := hc
    refine ⟨_, rfl, ⟨⟨fun _ => ⟨_, hself⟩, fun _ => hb⟩, fun _ => ⟨?_, ?_⟩, hvac⟩, rfl, ht⟩
    · simp [ht, (h.best hb).1]
    · intro i hi
      simp only [ht, Bool.or_eq_true, decide_eq_true_eq] at hi
      rcases hi with rfl | hi
      · have hn : ¬ PriceCompare isAsk (p.toNat : Int) (b.bestPriceIdx : Int) := by
          rw [← betterIdx_iff, hnot]; simp
        rcases trichotomous_of (PriceCompare isAsk) (p.toNat : Int) (b.bestPriceIdx : Int) with h | h | h
        · exact absurd h hn
        · exact Or.inl (by exact_mod_cast h)
        · exact Or.inr (betterIdx_iff.mpr h)
      · exact (h.best hb).2 i hi

instance : BookView ArraySideBook ℕ where
  Inv := Inv
  ref := ref
  Admits _ p := 0 ≤ p ∧ p < kBitCount
  count := count
  Pooled := False

theorem Inv.tidy {b : ArraySideBook isAsk} (h : b.Inv) (ht : Tidy b) (i : ℕ)
    (hi : (b.levels i).head = none) : b.levels i = {} := by
  cases htest : b.activeTree.test i with
  | false => exact h.vacant i htest
  | true => exact ht i i (ref_eq_some.mpr ⟨rfl, htest⟩) hi

theorem ref_eq_none {b : ArraySideBook isAsk} {p : Int} :
    b.ref p = none ↔ ∀ i : ℕ, p = i → b.activeTree.test i = false := by
  constructor
  · intro h i hi
    by_contra hne
    rw [ref_eq_some.mpr ⟨hi, by simpa using hne⟩] at h
    cases h
  · intro h
    cases hr : b.ref p with
    | none => rfl
    | some r =>
      obtain ⟨hp, ht⟩ := ref_eq_some.mp hr
      rw [h r hp] at ht
      cases ht

theorem Retired.keeps {b b' : ArraySideBook isAsk} (h : Retired b b') (q : Int) : Keeps b b' q := by
  refine ⟨?_, fun r _ => congrFun h.levels r⟩
  change b'.ref q = b.ref q ∨ (b'.ref q = none ∧ ∀ r, b.ref q = some r → b.levels r = {})
  cases hr : b'.ref q with
  | some r =>
    obtain ⟨hq, ht⟩ := ref_eq_some.mp hr
    exact Or.inl (ref_eq_some.mpr ⟨hq, h.test_of r ht⟩).symm
  | none =>
    refine Or.inr ⟨rfl, fun r hbr => ?_⟩
    obtain ⟨hq, ht⟩ := ref_eq_some.mp hbr
    exact h.vacant r ht (ref_eq_none.mp hr r hq)

instance : LawfulBookSide ArraySideBook ℕ where
  ref_inj _ hp hq := (ref_eq_some.mp hp).1.trans (ref_eq_some.mp hq).1.symm
  empty_iff {_ b} h := by
    change (!b.hasBest) = true ↔ ∀ p, b.ref p = none
    rw [Bool.not_eq_true', ← Bool.not_eq_true, h.has, not_exists]
    constructor
    · intro hn p
      exact ref_eq_none.mpr (fun i _ => by simpa using hn i)
    · intro hn i
      simpa using ref_eq_none.mp (hn i) i rfl
  best {isAsk b} h he := by
    have hb : b.hasBest = true := by simpa [BookSide.empty, empty] using he
    obtain ⟨htest, hbest⟩ := h.best hb
    refine ⟨b.bestPriceIdx, b.bestPriceIdx, ?_, ?_, ref_eq_some.mpr ⟨rfl, htest⟩, ?_⟩
    · have := test_lt htest
      simp [BookSide.bestPrice, bestPrice, hb, priceOf, kDefaultPriceCount, kDefaultBasePrice, this]
    · simp [BookSide.bestLevel, bestLevel, hb]
    · intro q hq
      obtain ⟨r, hr⟩ := Option.ne_none_iff_exists'.mp hq
      obtain ⟨rfl, ht⟩ := ref_eq_some.mp hr
      rcases hbest r ht with rfl | h
      · exact Or.inl rfl
      · exact Or.inr (betterIdx_iff.mp h)
  getOrCreate_spec {isAsk b p} h _ hp := by
    obtain ⟨b', hb', hinv, hlevels, htest⟩ := getOrCreate_spec h hp.1 hp.2
    have hself : (p : Int) = p.toNat := by have := hp.1; omega
    refine Or.inr ⟨p.toNat, b', hb', hinv, ref_eq_some.mpr ⟨hself, by simp [htest]⟩, ?_, ?_⟩
    · change (b.ref p = some p.toNat ∧ b'.levels p.toNat = b.levels p.toNat) ∨
        (b.ref p = none ∧ b'.levels p.toNat = {})
      rw [hlevels]
      cases ht : b.activeTree.test p.toNat with
      | true => exact Or.inl ⟨ref_eq_some.mpr ⟨hself, ht⟩, rfl⟩
      | false =>
        refine Or.inr ⟨ref_eq_none.mpr (fun i hi => ?_), h.vacant _ ht⟩
        rw [show i = p.toNat by omega]
        exact ht
    · intro q hq
      refine ⟨Or.inl ?_, fun r _ => congrFun hlevels r⟩
      apply Option.ext
      intro r
      change b'.ref q = some r ↔ b.ref q = some r
      rw [ref_eq_some, ref_eq_some, htest]
      constructor
      · rintro ⟨rfl, h⟩
        have : r ≠ p.toNat := by omega
        exact ⟨rfl, by simpa [this] using h⟩
      · rintro ⟨rfl, h⟩
        exact ⟨rfl, by simp [h]⟩
  eraseBest_spec {isAsk b p r} h ht he hp hr hlevel := by
    have hb : b.hasBest = true := by simpa [BookSide.empty, empty] using he
    obtain rfl : b.bestPriceIdx = r := by simpa [BookSide.bestLevel, bestLevel, hb] using hr
    obtain ⟨b', hb', hret, hgone, hlt, -⟩ := eraseBest_spec h (h.tidy ht) hb hlevel
    refine ⟨b', hb', hret.inv, ref_eq_none.mpr (fun i hi => ?_), hret.keeps, hlt⟩
    have hlt := test_lt (h.best hb).1
    have : kDefaultBasePrice + (b.bestPriceIdx : Int) = p := by
      simpa [BookSide.bestPrice, bestPrice, hb, priceOf, kDefaultPriceCount, hlt] using hp
    rw [show i = b.bestPriceIdx by simp only [kDefaultBasePrice] at this; omega]
    exact hgone
  setLevel_inv {isAsk b p r} l h hr := by
    refine ⟨h.has, h.best, fun i hi => ?_⟩
    change b.activeTree.test i = false at hi
    have : i ≠ r := by
      rintro rfl
      rw [(ref_eq_some.mp hr).2] at hi
      cases hi
    exact (Function.update_of_ne this _ _).trans (h.vacant i hi)
  setLevel_ref _ _ := rfl
  setLevel_admits _ _ _ := Iff.rfl
  setLevel_count _ _ := rfl
  level_setLevel _ _ _ := Function.update_self _ _ _
  level_setLevel_of_ne _ h := Function.update_of_ne h _ _
  count_le _ := count_le
  count_pos h he := count_pos h (by simpa [BookSide.empty, empty] using he)

end ArraySideBook

end Llmes
