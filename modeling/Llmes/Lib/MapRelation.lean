import Llmes.Lib.OrderedMap

open List (Forall₂)

namespace OrderedMap

variable {κ κ' α α' : Type} {lt : κ → κ → Prop} {lt' : κ' → κ' → Prop} {K : κ → κ' → Prop}
  {V : α → α' → Prop} {m : OrderedMap κ α lt} {m' : OrderedMap κ' α' lt'}

theorem forall₂_split {α β : Type} {r : α → β → Prop} {xs ys : List α} {x : α} {zs : List β}
    (h : Forall₂ r (xs ++ x :: ys) zs) :
    ∃ xs' x' ys', zs = xs' ++ x' :: ys' ∧ Forall₂ r xs xs' ∧ r x x' ∧ Forall₂ r ys ys' := by
  induction xs generalizing zs with
  | nil =>
    obtain ⟨x', ys', hx, hys, rfl⟩ := List.forall₂_cons_left_iff.mp h
    exact ⟨[], x', ys', rfl, .nil, hx, hys⟩
  | cons a xs ih =>
    obtain ⟨a', zs, ha, hzs, rfl⟩ := List.forall₂_cons_left_iff.mp h
    obtain ⟨xs', x', ys', rfl, hxs, hx, hys⟩ := ih hzs
    exact ⟨a' :: xs', x', ys', rfl, .cons ha hxs, hx, hys⟩

def Related (K : κ → κ' → Prop) (V : α → α' → Prop) (m : OrderedMap κ α lt)
    (m' : OrderedMap κ' α' lt') : Prop :=
  Forall₂ (fun e e' => K e.1 e'.1 ∧ V e.2 e'.2) m.entries m'.entries

def KeepsOrder (K : κ → κ' → Prop) (lt : κ → κ → Prop) (lt' : κ' → κ' → Prop) : Prop :=
  ∀ a a' b b', K a a' → K b b' → (lt a b ↔ lt' a' b')

theorem KeepsOrder.eq_iff [IsStrictTotalOrder κ lt] [IsStrictTotalOrder κ' lt'] (hK : KeepsOrder K lt lt')
    {a b : κ} {a' b' : κ'} (ha : K a a') (hb : K b b') : a = b ↔ a' = b' := by
  have hab := hK a a' b b' ha hb
  have hba := hK b b' a a' hb ha
  constructor
  · rintro rfl
    rcases trichotomous_of lt' a' b' with h | h | h
    · exact absurd (hab.mpr h) (irrefl_of lt a)
    · exact h
    · exact absurd (hba.mpr h) (irrefl_of lt a)
  · rintro rfl
    rcases trichotomous_of lt a b with h | h | h
    · exact absurd (hab.mp h) (irrefl_of lt' a')
    · exact h
    · exact absurd (hba.mp h) (irrefl_of lt' a')

namespace Related

theorem exists_right (h : Related K V m m') {e : κ × α} (he : e ∈ m.entries) :
    ∃ e' ∈ m'.entries, K e.1 e'.1 ∧ V e.2 e'.2 := by
  obtain ⟨es, hs⟩ := m
  obtain ⟨es', hs'⟩ := m'
  simp only [Related] at h he ⊢
  clear hs hs'
  induction h with
  | nil => cases he
  | @cons a a' es es' ha _ ih =>
    rcases List.mem_cons.mp he with rfl | he
    · exact ⟨a', List.mem_cons_self, ha⟩
    · obtain ⟨e', he', hrel⟩ := ih he
      exact ⟨e', List.mem_cons_of_mem _ he', hrel⟩

variable [DecidableEq κ] [DecidableEq κ'] [IsStrictTotalOrder κ lt] [IsStrictTotalOrder κ' lt'] {k : κ} {k' : κ'}

theorem find? (hK : KeepsOrder K lt lt') (h : Related K V m m') (hk : K k k') :
    Option.Rel V (m.find? k) (m'.find? k') := by
  obtain ⟨es, hs⟩ := m
  obtain ⟨es', hs'⟩ := m'
  simp only [Related, OrderedMap.find?] at h ⊢
  clear hs hs'
  induction h with
  | nil => exact .none
  | @cons e e' es es' he _ ih =>
    by_cases heq : e.1 = k
    · rw [List.find?_cons_of_pos (by simpa using heq),
        List.find?_cons_of_pos (by simpa using (hK.eq_iff he.1 hk).mp heq)]
      exact .some he.2
    · rw [List.find?_cons_of_neg (by simpa using heq),
        List.find?_cons_of_neg (by simpa using fun h => heq ((hK.eq_iff he.1 hk).mpr h))]
      exact ih

theorem erase (hK : KeepsOrder K lt lt') (h : Related K V m m') (hk : K k k') :
    Related K V (m.erase k) (m'.erase k') := by
  apply List.rel_filter _ h
  intro e e' he
  simp only [ne_eq, decide_not, Bool.not_eq_true', decide_eq_false_iff_not]
  exact not_congr (hK.eq_iff he.1 hk)

variable [DecidableRel lt] [DecidableRel lt']

theorem set (hK : KeepsOrder K lt lt') (h : Related K V m m') (hk : K k k') {v : α} {v' : α'} (hv : V v v') :
    Related K V (m.set k v) (m'.set k' v') := by
  suffices hinsert : ∀ es es', Forall₂ (fun e e' => K e.1 e'.1 ∧ V e.2 e'.2) es es' →
      Forall₂ (fun e e' => K e.1 e'.1 ∧ V e.2 e'.2) (insertEntry lt k v es) (insertEntry lt' k' v' es') from
    hinsert _ _ h
  intro es es' hes
  induction hes with
  | nil => exact .cons ⟨hk, hv⟩ .nil
  | @cons e e' es es' he hes ih =>
    have hlt := hK k k' e.1 e'.1 hk he.1
    have heq := hK.eq_iff he.1 hk
    rw [insertEntry, insertEntry]
    by_cases h₁ : lt k e.1
    · rw [if_pos h₁, if_pos (hlt.mp h₁)]
      exact .cons ⟨hk, hv⟩ (.cons he hes)
    · rw [if_neg h₁, if_neg (fun h => h₁ (hlt.mpr h))]
      by_cases h₂ : e.1 = k
      · rw [if_pos h₂, if_pos (heq.mp h₂)]
        exact .cons ⟨hk, hv⟩ hes
      · rw [if_neg h₂, if_neg (fun h => h₂ (heq.mpr h))]
        exact .cons he ih

end Related

end OrderedMap
