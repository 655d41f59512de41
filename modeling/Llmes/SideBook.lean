import Llmes.BookSide
import Llmes.Lib.OrderedMap

namespace Llmes

open BookSide BookView

/-- One side of the book as an ordered map of levels. A level is addressed by its key. -/
structure SideBook (isAsk : Bool) where
  levels : OrderedMap Int PriceLevel (PriceCompare isAsk)

namespace SideBook

variable {isAsk : Bool}

def init : SideBook isAsk := ⟨OrderedMap.empty⟩

def empty (b : SideBook isAsk) : Bool := b.levels.isEmpty

def bestPrice (b : SideBook isAsk) : Exec Int :=
  match b.levels.begin? with
  | some e => .ok e.1
  | none => .error .nullPointer

def bestLevel (b : SideBook isAsk) : Exec Int :=
  match b.levels.begin? with
  | some e => .ok e.1
  | none => .error .nullPointer

def getOrCreate (b : SideBook isAsk) (price : Int) : Exec (Int × SideBook isAsk) :=
  match b.levels.find? price with
  | some _ => .ok (price, b)
  | none => .ok (price, ⟨b.levels.set price {}⟩)

def eraseBest (b : SideBook isAsk) : Exec (SideBook isAsk) :=
  match b.levels.begin? with
  | some _ => .ok ⟨b.levels.eraseBegin⟩
  | none => .error .nullPointer

/-- A write through a pointer to the level of a key that is there. -/
def setLevel (b : SideBook isAsk) (r : Int) (l : PriceLevel) : SideBook isAsk :=
  match b.levels.find? r with
  | some _ => ⟨b.levels.set r l⟩
  | none => b

def ref (b : SideBook isAsk) (price : Int) : Option Int :=
  (b.levels.find? price).map (fun _ => price)

instance : BookSide SideBook Int where
  empty := empty
  bestPrice := bestPrice
  bestLevel := bestLevel
  getOrCreate := getOrCreate
  eraseBest := eraseBest
  level b r := (b.levels.find? r).getD {}
  setLevel := setLevel
  levelBound b := b.levels.size

instance : BookView SideBook Int where
  Inv _ := True
  ref := ref
  Admits _ _ := True
  count b := b.levels.size
  Pooled := False

theorem ref_eq_some {b : SideBook isAsk} {p r : Int} :
    b.ref p = some r ↔ r = p ∧ b.levels.find? p ≠ none := by
  rw [ref, Option.map_eq_some_iff, Option.ne_none_iff_exists']
  constructor
  · rintro ⟨l, hl, rfl⟩
    exact ⟨rfl, l, hl⟩
  · rintro ⟨rfl, l, hl⟩
    exact ⟨l, hl, rfl⟩

theorem ref_eq_none {b : SideBook isAsk} {p : Int} : b.ref p = none ↔ b.levels.find? p = none :=
  Option.map_eq_none_iff

theorem find?_setLevel (b : SideBook isAsk) (r : Int) (l : PriceLevel) (p : Int) :
    (b.setLevel r l).levels.find? p =
      if p = r then (b.levels.find? r).map (fun _ => l) else b.levels.find? p := by
  unfold setLevel
  cases hr : b.levels.find? r with
  | none =>
    by_cases hp : p = r
    · rw [if_pos hp, hp, hr]
      rfl
    · rw [if_neg hp]
  | some x => rw [OrderedMap.find?_set, Option.map_some]

instance : LawfulBookSide SideBook Int where
  ref_inj _ hp hq := (ref_eq_some.mp hp).1.symm.trans (ref_eq_some.mp hq).1
  empty_iff {_ b} _ := by
    change b.levels.isEmpty = true ↔ ∀ p, b.ref p = none
    simp only [OrderedMap.isEmpty_iff, ref_eq_none]
  best {isAsk b} _ he := by
    cases hb : b.levels.begin? with
    | none =>
      have : b.levels.isEmpty = true := by rw [OrderedMap.isEmpty_iff, ← OrderedMap.begin?_eq_none, hb]
      exact absurd (this.symm.trans he) (by simp)
    | some e =>
      refine ⟨e.1, e.1, by simp [BookSide.bestPrice, bestPrice, hb], by simp [BookSide.bestLevel, bestLevel, hb],
        ref_eq_some.mpr ⟨rfl, ?_⟩, ?_⟩
      · rw [OrderedMap.find?_of_begin? hb]
        simp
      · intro q hq
        obtain ⟨l, hl⟩ := Option.ne_none_iff_exists'.mp (fun h => hq (ref_eq_none.mpr h))
        exact OrderedMap.begin?_least hb hl
  getOrCreate_spec {isAsk b p} _ _ _ := by
    right
    cases hf : b.levels.find? p with
    | some l =>
      refine ⟨p, b, by simp [BookSide.getOrCreate, getOrCreate, hf], trivial, ?_, ?_, ?_⟩
      · exact ref_eq_some.mpr ⟨rfl, by simp [hf]⟩
      · exact Or.inl ⟨ref_eq_some.mpr ⟨rfl, by simp [hf]⟩, rfl⟩
      · exact fun q _ => ⟨Or.inl rfl, fun _ _ => rfl⟩
    | none =>
      refine ⟨p, ⟨b.levels.set p {}⟩, by simp [BookSide.getOrCreate, getOrCreate, hf], trivial, ?_, ?_, ?_⟩
      · exact ref_eq_some.mpr ⟨rfl, by simp⟩
      · exact Or.inr ⟨ref_eq_none.mpr hf, by simp [BookSide.level]⟩
      · intro q hq
        refine ⟨Or.inl ?_, ?_⟩
        · simp [BookView.ref, ref, hq]
        · intro r hr
          obtain ⟨rfl, -⟩ := ref_eq_some.mp hr
          simp [BookSide.level, hq]
  eraseBest_spec {isAsk b p r} _ _ _ hp hr hlevel := by
    cases hb : b.levels.begin? with
    | none => simp [BookSide.bestPrice, bestPrice, hb] at hp
    | some e =>
      obtain rfl : e.1 = p := by simpa [BookSide.bestPrice, bestPrice, hb] using hp
      obtain rfl : e.1 = r := by simpa [BookSide.bestLevel, bestLevel, hb] using hr
      have herase : b.levels.eraseBegin = b.levels.erase e.1 := OrderedMap.eraseBegin_eq hb
      refine ⟨⟨b.levels.erase e.1⟩, by simp [BookSide.eraseBest, eraseBest, hb, herase], trivial, ?_, ?_, ?_⟩
      · exact ref_eq_none.mpr (by simp)
      · intro q
        by_cases hq : q = e.1
        · subst hq
          refine ⟨Or.inr ⟨ref_eq_none.mpr (by simp), ?_⟩, ?_⟩
          · intro r hr
            obtain ⟨rfl, -⟩ := ref_eq_some.mp hr
            exact hlevel
          · intro r hr
            exact absurd (OrderedMap.find?_erase b.levels e.1 e.1) (by simpa using (ref_eq_some.mp hr).2)
        · refine ⟨Or.inl (by simp [BookView.ref, ref, hq]), ?_⟩
          intro r hr
          obtain ⟨rfl, -⟩ := ref_eq_some.mp hr
          simp [BookSide.level, hq]
      · exact OrderedMap.size_erase_lt (OrderedMap.find?_of_begin? hb)
  setLevel_inv _ _ _ := trivial
  setLevel_ref {isAsk b} r l := by
    funext p
    change (b.setLevel r l).ref p = b.ref p
    rw [ref, ref, find?_setLevel]
    by_cases hp : p = r
    · subst hp
      rw [if_pos rfl, Option.map_map]
      rfl
    · rw [if_neg hp]
  setLevel_admits _ _ _ := Iff.rfl
  setLevel_count {isAsk b} r l := by
    change (b.setLevel r l).levels.size = b.levels.size
    unfold setLevel
    cases hr : b.levels.find? r with
    | none => rfl
    | some x => exact OrderedMap.size_set hr
  level_setLevel {isAsk b p r} l _ hr := by
    obtain ⟨rfl, hf⟩ := ref_eq_some.mp hr
    obtain ⟨x, hx⟩ := Option.ne_none_iff_exists'.mp hf
    change ((b.setLevel r l).levels.find? r).getD {} = l
    rw [find?_setLevel, if_pos rfl, hx]
    rfl
  level_setLevel_of_ne {isAsk b r r'} l h := by
    change ((b.setLevel r l).levels.find? r').getD {} = (b.levels.find? r').getD {}
    rw [find?_setLevel, if_neg h]
  count_le _ := le_rfl
  count_pos {isAsk b} _ he := by
    change 0 < b.levels.entries.length
    change b.levels.entries.isEmpty = false at he
    exact List.length_pos_of_ne_nil (by simpa using he)

end SideBook

end Llmes
