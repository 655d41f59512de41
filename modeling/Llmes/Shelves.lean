import Llmes.OrderPool

namespace Llmes

open Intrusive

inductive SideCall
  | getOrCreate (price : Int)
  | append (r o : ℕ)
  | remove (r o : ℕ)
  | eraseBest

structure Shelved {R : Type} (levels : ℕ → PriceLevel) (orders : OrderPool R) (queue : ℕ → List ℕ) :
    Prop where
  linked : ∀ r, Represents orders.links (levels r).anchor (queue r)
  apart : ∀ r r' o, o ∈ queue r → o ∈ queue r' → r = r'

namespace Shelved

variable {R : Type} {levels : ℕ → PriceLevel} {orders : OrderPool R} {queue : ℕ → List ℕ} {r o : ℕ}

theorem queue_eq_nil (h : Shelved levels orders queue) : queue r = [] ↔ levels r = {} :=
  PriceLevel.nil_iff (h.linked r)

theorem write {l : PriceLevel × OrderPool R} {os : List ℕ} (h : Shelved levels orders queue)
    (hl : Represents l.2.links l.1.anchor os) (hos : ∀ o ∈ os, ∀ r', o ∈ queue r' → r' = r)
    (hframe : ∀ o r', r' ≠ r → o ∈ queue r' →
      l.2.links.prev o = orders.links.prev o ∧ l.2.links.next o = orders.links.next o) :
    Shelved (Function.update levels r l.1) l.2 (Function.update queue r os) where
  linked r' := by
    by_cases hr' : r' = r
    · subst hr'
      simpa using hl
    · simp only [Function.update_of_ne hr']
      exact (h.linked r').congr (fun o ho => (hframe o r' hr' ho).1) (fun o ho => (hframe o r' hr' ho).2)
  apart r₁ r₂ o := by
    simp only [Function.update_apply]
    split <;> split <;> intro h₁ h₂
    · simp_all
    · next hr₁ _ => rw [hr₁, hos o h₁ r₂ h₂]
    · next _ hr₂ => rw [hr₂, hos o h₂ r₁ h₁]
    · exact h.apart r₁ r₂ o h₁ h₂

theorem append (h : Shelved levels orders queue) (ho : ∀ r', o ∉ queue r') :
    Shelved (Function.update levels r ((levels r).pushBack orders o).1) ((levels r).pushBack orders o).2
      (Function.update queue r (queue r ++ [o])) := by
  obtain ⟨hlinks, hanchor⟩ := PriceLevel.pushBack_links (levels r) orders o
  have hl := h.linked r
  apply h.write
  · rw [hlinks, hanchor]
    exact pushBack_represents hl (ho r)
  · intro o' ho' r' hr'
    rcases List.mem_append.mp ho' with ho' | ho'
    · exact h.apart r' r o' hr' ho'
    · rw [List.mem_singleton.mp ho'] at hr'
      exact absurd hr' (ho r')
  · intro o' r' hne ho'
    rw [hlinks]
    apply pushBack_frame hl
    · exact fun hm => hne (h.apart r' r o' ho' hm)
    · rintro rfl
      exact ho r' ho'

theorem remove (h : Shelved levels orders queue) (ho : o ∈ queue r) :
    Shelved (Function.update levels r ((levels r).erase orders o).1) ((levels r).erase orders o).2
      (Function.update queue r ((queue r).erase o)) := by
  obtain ⟨hlinks, hanchor⟩ := PriceLevel.erase_links (levels r) orders o
  obtain ⟨xs, ys, hxy⟩ := List.append_of_mem ho
  have hl := h.linked r
  rw [hxy] at hl
  have hox : o ∉ xs := fun hm => (List.nodup_append.mp hl.nodup).2.2 o hm o (by simp) rfl
  have herase : (queue r).erase o = xs ++ ys := by
    rw [hxy, List.erase_append_right _ hox, List.erase_cons_head]
  apply h.write
  · rw [hlinks, hanchor, herase]
    exact erase_represents hl
  · intro o' ho' r' hr'
    exact h.apart r' r o' hr' (List.mem_of_mem_erase ho')
  · intro o' r' hne ho'
    rw [hlinks]
    apply erase_frame hl
    rw [← hxy]
    exact fun hm => hne (h.apart r' r o' ho' hm)

end Shelved

end Llmes
