import Mathlib

namespace Strip

variable {α : Type} (r : α → α → Prop) (P : α → Prop) (M : Set α)

/-- What is left of a set once its leading elements are removed as long as they have the property. -/
def strip : Set α := {i ∈ M | ∃ j ∈ M, (j = i ∨ r j i) ∧ ¬ P j}

def First (b : α) : Prop := b ∈ M ∧ ∀ i ∈ M, i = b ∨ r b i

variable {r P M}

theorem strip_subset : strip r P M ⊆ M := fun _ h => h.1

theorem strip_empty : strip r P (∅ : Set α) = ∅ := Set.eq_empty_of_subset_empty strip_subset

theorem strip_congr {Q : α → Prop} (h : ∀ i ∈ M, P i ↔ Q i) : strip r P M = strip r Q M := by
  ext i
  apply and_congr_right
  intro _
  apply exists_congr
  intro j
  exact and_congr_right (fun hj => and_congr_right (fun _ => not_congr (h j hj)))

theorem strip_of_forall_not (h : ∀ i ∈ M, ¬ P i) : strip r P M = M := by
  apply Set.Subset.antisymm strip_subset
  intro i hi
  exact ⟨hi, i, hi, Or.inl rfl, h i hi⟩

theorem strip_strip {Q : α → Prop} (h : ∀ i, P i → Q i) : strip r Q (strip r P M) = strip r Q M := by
  ext i
  constructor
  · rintro ⟨⟨hi, -⟩, j, ⟨hj, -⟩, hji, hQ⟩
    exact ⟨hi, j, hj, hji, hQ⟩
  · rintro ⟨hi, j, hj, hji, hQ⟩
    have hP : ¬ P j := fun hPj => hQ (h j hPj)
    exact ⟨⟨hi, j, hj, hji, hP⟩, j, ⟨hj, j, hj, Or.inl rfl, hP⟩, hji, hQ⟩

theorem exists_first [IsStrictTotalOrder α r] (hM : M.Finite) {i : α} (hi : i ∈ M) : ∃ b, First r M b := by
  obtain ⟨b, hb, hleast⟩ := hM.wellFoundedOn (r := r) |>.has_min Set.univ ⟨⟨i, hi⟩, trivial⟩
  refine ⟨b, b.2, fun j hj => ?_⟩
  rcases trichotomous_of r (b : α) j with hlt | heq | hlt
  · exact Or.inr hlt
  · exact Or.inl heq.symm
  · exact absurd hlt (hleast ⟨j, hj⟩ trivial)

theorem strip_of_first_not {b : α} (hb : First r M b) (hP : ¬ P b) : strip r P M = M := by
  apply Set.Subset.antisymm strip_subset
  intro i hi
  exact ⟨hi, b, hb.1, (hb.2 i hi).imp Eq.symm id, hP⟩

theorem strip_of_first [Std.Irrefl r] [IsTrans α r] {b : α} (hb : First r M b) (hP : P b) :
    strip r P M = strip r P (M \ {b}) := by
  ext i
  constructor
  · rintro ⟨hi, j, hj, hji, hPj⟩
    have hjb : j ≠ b := fun h => hPj (h ▸ hP)
    refine ⟨⟨hi, ?_⟩, j, ⟨hj, hjb⟩, hji, hPj⟩
    rintro rfl
    rcases hji with rfl | hlt
    · exact hjb rfl
    · rcases hb.2 j hj with rfl | hlt'
      · exact hjb rfl
      · exact irrefl j (trans_of r hlt hlt')
  · rintro ⟨hi, j, hj, hji, hPj⟩
    exact ⟨hi.1, j, hj.1, hji, hPj⟩

theorem strip_and_eq [IsTrans α r] {C : α → Prop} :
    strip r (fun i => P i ∧ C i) M = strip r P M ↔ ∀ i ∈ M, ¬ C i → ∃ j ∈ M, (j = i ∨ r j i) ∧ ¬ P j := by
  constructor
  · intro heq i hi hCi
    have hmem : i ∈ strip r P M := by
      rw [← heq]
      exact ⟨hi, i, hi, Or.inl rfl, fun h => hCi h.2⟩
    exact hmem.2
  · intro hall
    apply Set.Subset.antisymm
    · rintro i ⟨hi, j, hj, hji, hPC⟩
      refine ⟨hi, ?_⟩
      by_cases hPj : P j
      · have hCj : ¬ C j := fun h => hPC ⟨hPj, h⟩
        obtain ⟨k, hk, hkj, hPk⟩ := hall j hj hCj
        refine ⟨k, hk, ?_, hPk⟩
        rcases hkj with rfl | hkj
        · exact hji
        · rcases hji with rfl | hji
          · exact Or.inr hkj
          · exact Or.inr (trans_of r hkj hji)
      · exact ⟨j, hj, hji, hPj⟩
    · rintro i ⟨hi, j, hj, hji, hPj⟩
      exact ⟨hi, j, hj, hji, fun h => hPj h.1⟩

end Strip
