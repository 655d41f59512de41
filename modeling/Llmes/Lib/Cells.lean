import Mathlib

namespace Cells

variable {α : Type} {f g : ℕ → Option α} {n i : ℕ} {a : α}

def contents (f : ℕ → Option α) (n : ℕ) : List α := (List.range n).filterMap f

theorem mem_contents : a ∈ contents f n ↔ ∃ i < n, f i = some a := by
  simp [contents, List.mem_filterMap]

theorem contents_succ (f : ℕ → Option α) (n : ℕ) :
    contents f (n + 1) = contents f n ++ (f n).toList := by
  rw [contents, List.range_succ, List.filterMap_append]
  cases h : f n <;> simp [contents, h]

theorem contents_congr (h : ∀ i < n, f i = g i) : contents f n = contents g n := by
  apply List.filterMap_congr
  intro i hi
  exact h i (List.mem_range.mp hi)

theorem contents_perm (hi : i < n) (h : f i = some a) :
    (contents f n).Perm (a :: contents (Function.update f i none) n) := by
  induction n with
  | zero => omega
  | succ n ih =>
    rw [contents_succ, contents_succ]
    by_cases hin : i = n
    · subst hin
      have hrest : contents (Function.update f i none) i = contents f i :=
        contents_congr (fun j hj => Function.update_of_ne (by omega) _ _)
      rw [hrest, Function.update_self, h]
      simp only [Option.toList_some, Option.toList_none, List.append_nil]
      exact List.perm_append_comm
    · rw [Function.update_of_ne (Ne.symm hin)]
      exact (ih (by omega)).append_right _

theorem contents_update_some (hi : i < n) (h : f i = none) :
    (contents (Function.update f i (some a)) n).Perm (a :: contents f n) := by
  have hp := contents_perm (f := Function.update f i (some a)) hi (Function.update_self _ _ _)
  rwa [Function.update_idem, ← h, Function.update_eq_self] at hp

theorem index_unique {j : ℕ} (hnd : (contents f n).Nodup) (hi : i < n) (hj : j < n) (h : f i = some a)
    (h' : f j = some a) : j = i := by
  by_contra hne
  have hnd := (contents_perm hi h).nodup_iff.mp hnd
  refine (List.nodup_cons.mp hnd).1 (mem_contents.mpr ⟨j, hj, ?_⟩)
  rw [Function.update_of_ne hne, h']

end Cells
