import Mathlib

namespace Buckets

variable {α β γ κ : Type}

theorem flatMap_filter_perm [DecidableEq κ] (f : α → κ) (l : List α) {keys : List κ} (h : keys.Nodup) :
    (keys.flatMap (fun k => l.filter (fun x => f x = k))).Perm (l.filter (fun x => f x ∈ keys)) := by
  induction keys with
  | nil =>
    rw [List.flatMap_nil, List.filter_eq_nil_iff.mpr]
    intro x _
    simp
  | cons k keys ih =>
    obtain ⟨hk, hkeys⟩ := List.nodup_cons.mp h
    have hsplit := List.filter_append_perm (fun x => decide (f x = k)) (l.filter (fun x => f x ∈ k :: keys))
    rw [List.filter_filter, List.filter_filter] at hsplit
    rw [List.flatMap_cons]
    apply ((ih hkeys).append_left _).trans
    convert hsplit using 2
    · apply List.filter_congr
      intro x _
      simp +contextual
    · apply List.filter_congr
      intro x _
      by_cases hx : f x = k
      · simp [hx, hk]
      · simp [hx]

theorem flatMap_comm_perm (xs : List α) (ys : List β) (g : α → β → List γ) :
    (xs.flatMap (fun x => ys.flatMap (g x))).Perm (ys.flatMap (fun y => xs.flatMap (fun x => g x y))) := by
  have h := Multiset.bind_bind (xs : Multiset α) (ys : Multiset β) (f := fun x y => (g x y : Multiset γ))
  simp only [Multiset.coe_bind] at h
  exact Multiset.coe_eq_coe.mp h

theorem eq_of_perm_of_sorted {r : α → α → Prop} [Std.Asymm r] {l l' : List α} (hperm : l'.Perm l)
    (hl : l.Pairwise r) (hl' : l'.Pairwise (fun a b => ¬ r b a)) : l' = l := by
  have hle : l.Pairwise (fun a b => ¬ r b a) := hl.imp (fun h => asymm_of r h)
  apply List.Perm.eq_of_pairwise _ hl' hle hperm
  intro a b ha hb hab hba
  have htri : a = b ∨ r a b ∨ r b a := by
    apply List.Pairwise.forall_of_forall_of_flip (R := fun a b => a = b ∨ r a b ∨ r b a) _ _ _ (hperm.mem_iff.mp ha) hb
    · exact fun _ _ => Or.inl rfl
    · exact hl.imp (fun h => Or.inr (Or.inl h))
    · exact hl.imp (fun h => Or.inr (Or.inr h))
  tauto

end Buckets
