import Llmes.OrderPool

namespace Llmes

/-- What the matching code uses of one side of the book. `R` is the address of a price level, and
`levelBound` a bound on the number of times the best level can be erased. -/
class BookSide (S : Bool → Type) (R : outParam Type) where
  empty {isAsk : Bool} : S isAsk → Bool
  bestPrice {isAsk : Bool} : S isAsk → Exec Int
  bestLevel {isAsk : Bool} : S isAsk → Exec R
  getOrCreate {isAsk : Bool} : S isAsk → Int → Exec (R × S isAsk)
  eraseBest {isAsk : Bool} : S isAsk → Exec (S isAsk)
  level {isAsk : Bool} : S isAsk → R → PriceLevel
  setLevel {isAsk : Bool} : S isAsk → R → PriceLevel → S isAsk
  levelBound {isAsk : Bool} : S isAsk → ℕ

/-- A side as the levels it holds, ghosts included: `ref b p` is the address of the level at `p`.
`Pooled` says that levels come from a pool that may run out. -/
class BookView (S : Bool → Type) (R : outParam Type) [BookSide S R] where
  Inv {isAsk : Bool} : S isAsk → Prop
  ref {isAsk : Bool} : S isAsk → Int → Option R
  Admits {isAsk : Bool} : S isAsk → Int → Prop
  count {isAsk : Bool} : S isAsk → ℕ
  Pooled : Prop

open BookSide BookView

section Relations

variable {S : Bool → Type} {R : Type} [BookSide S R] [BookView S R] {isAsk : Bool}

def Tidy (b : S isAsk) : Prop :=
  ∀ p r, ref b p = some r → (level b r).head = none → level b r = {}

def Keeps (b b' : S isAsk) (q : Int) : Prop :=
  (ref b' q = ref b q ∨ (ref b' q = none ∧ ∀ r, ref b q = some r → level b r = {})) ∧
    ∀ r, ref b' q = some r → level b' r = level b r

structure Created (b : S isAsk) (p : Int) (r : R) (b' : S isAsk) : Prop where
  inv : Inv b'
  ref_self : ref b' p = some r
  level_self : (ref b p = some r ∧ level b' r = level b r) ∨ (ref b p = none ∧ level b' r = {})
  keeps : ∀ q, q ≠ p → Keeps b b' q

structure Erased (b : S isAsk) (p : Int) (b' : S isAsk) : Prop where
  inv : Inv b'
  ref_self : ref b' p = none
  keeps : ∀ q, Keeps b b' q
  count_lt : count b' < count b

end Relations

class LawfulBookSide (S : Bool → Type) (R : outParam Type) [BookSide S R] extends
    BookView S R where
  ref_inj {isAsk : Bool} {b : S isAsk} {p q : Int} {r : R} :
    Inv b → ref b p = some r → ref b q = some r → p = q
  empty_iff {isAsk : Bool} {b : S isAsk} : Inv b → (empty b = true ↔ ∀ p, ref b p = none)
  best {isAsk : Bool} {b : S isAsk} : Inv b → empty b = false →
    ∃ p r, bestPrice b = .ok p ∧ bestLevel b = .ok r ∧ ref b p = some r ∧
      ∀ q, ref b q ≠ none → q = p ∨ PriceCompare isAsk p q
  getOrCreate_spec {isAsk : Bool} {b : S isAsk} {p : Int} : Inv b → Tidy b → Admits b p →
    (Pooled ∧ getOrCreate b p = .error .levelPoolExhausted) ∨
      ∃ r b', getOrCreate b p = .ok (r, b') ∧ Created b p r b'
  eraseBest_spec {isAsk : Bool} {b : S isAsk} {p : Int} {r : R} : Inv b → Tidy b →
    empty b = false → bestPrice b = .ok p → bestLevel b = .ok r → level b r = {} →
    ∃ b', eraseBest b = .ok b' ∧ Erased b p b'
  setLevel_inv {isAsk : Bool} {b : S isAsk} {p : Int} {r : R} (l : PriceLevel) :
    Inv b → ref b p = some r → Inv (setLevel b r l)
  setLevel_ref {isAsk : Bool} {b : S isAsk} (r : R) (l : PriceLevel) :
    ref (setLevel b r l) = ref b
  setLevel_admits {isAsk : Bool} {b : S isAsk} (r : R) (l : PriceLevel) (p : Int) :
    Admits (setLevel b r l) p ↔ Admits b p
  setLevel_count {isAsk : Bool} {b : S isAsk} (r : R) (l : PriceLevel) :
    count (setLevel b r l) = count b
  level_setLevel {isAsk : Bool} {b : S isAsk} {p : Int} {r : R} (l : PriceLevel) :
    Inv b → ref b p = some r → level (setLevel b r l) r = l
  level_setLevel_of_ne {isAsk : Bool} {b : S isAsk} {r r' : R} (l : PriceLevel) :
    r' ≠ r → level (setLevel b r l) r' = level b r'
  count_le {isAsk : Bool} {b : S isAsk} : Inv b → count b ≤ levelBound b
  count_pos {isAsk : Bool} {b : S isAsk} : Inv b → empty b = false → 0 < count b

section Best

variable {S : Bool → Type} {R : Type} [BookSide S R] [LawfulBookSide S R] {isAsk : Bool}

open LawfulBookSide

theorem empty_eq_false_iff {b : S isAsk} (h : Inv b) : empty b = false ↔ ∃ p, ref b p ≠ none := by
  rw [← Bool.not_eq_true, empty_iff h]
  push Not
  rfl

theorem best_congr {b b' : S isAsk} (h : Inv b) (h' : Inv b') (href : ref b' = ref b)
    (he : empty b = false) {p : Int} {r : R} (hp : bestPrice b = .ok p) (hr : bestLevel b = .ok r) :
    empty b' = false ∧ bestPrice b' = .ok p ∧ bestLevel b' = .ok r := by
  have he' : empty b' = false := by
    rw [empty_eq_false_iff h', href, ← empty_eq_false_iff h]
    exact he
  obtain ⟨q, u, hq, hu, hqu, hbest⟩ := best h he
  obtain ⟨q', u', hq', hu', hqu', hbest'⟩ := best h' he'
  obtain rfl : q = p := Except.ok.inj (hq.symm.trans hp)
  obtain rfl : u = r := Except.ok.inj (hu.symm.trans hr)
  rw [href] at hqu' hbest'
  have hqq : q' = q := by
    rcases hbest q' (by simp [hqu']) with h | h
    · exact h
    · rcases hbest' q (by simp [hqu]) with h' | h'
      · exact h'.symm
      · exact absurd h' (asymm_of (PriceCompare isAsk) h)
  subst hqq
  obtain rfl : u = u' := Option.some.inj (hqu.symm.trans hqu')
  exact ⟨he', hq', hu'⟩

end Best

end Llmes
