import Mathlib

structure OrderedMap (κ α : Type) (lt : κ → κ → Prop) where
  entries : List (κ × α)
  sorted : (entries.map Prod.fst).Pairwise lt

namespace OrderedMap

variable {κ α β : Type} {lt : κ → κ → Prop}

def empty : OrderedMap κ α lt := ⟨[], List.Pairwise.nil⟩

def isEmpty (m : OrderedMap κ α lt) : Bool := m.entries.isEmpty

def begin? (m : OrderedMap κ α lt) : Option (κ × α) := m.entries.head?

def size (m : OrderedMap κ α lt) : ℕ := m.entries.length

def eraseBegin (m : OrderedMap κ α lt) : OrderedMap κ α lt :=
  ⟨m.entries.tail, by rw [List.map_tail]; exact m.sorted.tail⟩

section Ordered

variable [DecidableEq κ]

def find? (m : OrderedMap κ α lt) (k : κ) : Option α :=
  (m.entries.find? (fun e => e.1 = k)).map Prod.snd

def erase (m : OrderedMap κ α lt) (k : κ) : OrderedMap κ α lt :=
  ⟨m.entries.filter (fun e => e.1 ≠ k), m.sorted.sublist (List.filter_sublist.map _)⟩

theorem find?_eq_none {m : OrderedMap κ α lt} {k : κ} :
    m.find? k = none ↔ ∀ e ∈ m.entries, e.1 ≠ k := by
  simp [find?]

@[simp] theorem find?_empty (k : κ) : (empty : OrderedMap κ α lt).find? k = none := rfl

section Lookup

variable [IsStrictTotalOrder κ lt]

theorem find?_eq_some {m : OrderedMap κ α lt} {k : κ} {v : α} :
    m.find? k = some v ↔ (k, v) ∈ m.entries := by
  obtain ⟨es, hs⟩ := m
  simp only [find?]
  induction es with
  | nil => simp
  | cons e es ih =>
    obtain ⟨hlt, hes⟩ := List.pairwise_cons.mp hs
    by_cases he : e.1 = k
    · subst he
      simp only [List.find?_cons_of_pos, decide_true, Option.map_some, Option.some.injEq,
        List.mem_cons]
      constructor
      · rintro rfl; exact Or.inl rfl
      · rintro (h | h)
        · rw [← h]
        · exact absurd (hlt _ (List.mem_map_of_mem h)) (irrefl_of lt _)
    · rw [List.find?_cons_of_neg (by simpa using he), ih hes, List.mem_cons]
      constructor
      · exact Or.inr
      · rintro (h | h)
        · exact absurd (congrArg Prod.fst h).symm he
        · exact h

theorem find?_of_mem {m : OrderedMap κ α lt} {e : κ × α} (h : e ∈ m.entries) :
    m.find? e.1 = some e.2 :=
  find?_eq_some.mpr h

@[simp] theorem find?_erase (m : OrderedMap κ α lt) (k k' : κ) :
    (m.erase k).find? k' = if k' = k then none else m.find? k' := by
  apply Option.ext
  intro x
  rw [find?_eq_some, erase]
  split
  · next h => subst h; simp
  · next h => simp [h, find?_eq_some]

theorem begin?_least {m : OrderedMap κ α lt} {e : κ × α} (h : m.begin? = some e) {k : κ} {v : α}
    (hk : m.find? k = some v) : k = e.1 ∨ lt e.1 k := by
  obtain ⟨es, hs⟩ := m
  cases es with
  | nil => simp [begin?] at h
  | cons e' es =>
    obtain rfl : e' = e := by simpa [begin?] using h
    rcases List.mem_cons.mp (find?_eq_some.mp hk) with h | h
    · exact Or.inl (congrArg Prod.fst h)
    · exact Or.inr ((List.pairwise_cons.mp hs).1 _ (List.mem_map_of_mem h))

theorem begin?_eq_none {m : OrderedMap κ α lt} : m.begin? = none ↔ ∀ k, m.find? k = none := by
  constructor
  · intro h k
    rw [begin?, List.head?_eq_none_iff] at h
    rw [find?_eq_none, h]
    simp
  · intro h
    rw [begin?, List.head?_eq_none_iff, List.eq_nil_iff_forall_not_mem]
    intro e he
    have := find?_of_mem he
    rw [h] at this
    cases this

theorem find?_of_begin? {m : OrderedMap κ α lt} {e : κ × α} (h : m.begin? = some e) :
    m.find? e.1 = some e.2 :=
  find?_of_mem (List.mem_of_head? h)

theorem isEmpty_iff {m : OrderedMap κ α lt} : m.isEmpty = true ↔ ∀ k, m.find? k = none := by
  rw [← begin?_eq_none, isEmpty, begin?, List.isEmpty_iff, List.head?_eq_none_iff]

theorem eraseBegin_eq {m : OrderedMap κ α lt} {e : κ × α} (h : m.begin? = some e) :
    m.eraseBegin = m.erase e.1 := by
  obtain ⟨es, hs⟩ := m
  cases es with
  | nil => simp [begin?] at h
  | cons e' es =>
    obtain rfl : e' = e := by simpa [begin?] using h
    simp only [eraseBegin, erase, List.tail_cons, OrderedMap.mk.injEq]
    rw [List.filter_cons_of_neg (by simp), List.filter_eq_self.mpr]
    intro x hx
    have := (List.pairwise_cons.mp hs).1 x.1 (List.mem_map_of_mem hx)
    simp only [ne_eq, decide_not, Bool.not_eq_eq_eq_not, Bool.not_true, decide_eq_false_iff_not]
    rintro he
    exact irrefl_of lt _ (he ▸ this)

theorem erase_entries_of_cons {m : OrderedMap κ α lt} {e : κ × α} {rest : List (κ × α)}
    (h : m.entries = e :: rest) : (m.erase e.1).entries = rest := by
  rw [← eraseBegin_eq (by rw [begin?, h, List.head?_cons])]
  exact congrArg List.tail h

theorem begin?_of_least {m : OrderedMap κ α lt} {k : κ} {v : α} (hk : m.find? k = some v)
    (h : ∀ k' v', m.find? k' = some v' → k' = k ∨ lt k k') : m.begin? = some (k, v) := by
  cases hb : m.begin? with
  | none => rw [begin?_eq_none.mp hb k] at hk; cases hk
  | some e =>
    have hek : e.1 = k := by
      rcases h e.1 e.2 (find?_of_begin? hb) with h1 | h1
      · exact h1
      · rcases begin?_least hb hk with h2 | h2
        · exact h2.symm
        · exact absurd (trans_of lt h1 h2) (irrefl_of lt _)
    have := find?_of_begin? hb
    rw [hek, hk] at this
    rw [Option.some.inj this, ← hek]

theorem size_erase_lt {m : OrderedMap κ α lt} {k : κ} {v : α} (h : m.find? k = some v) :
    (m.erase k).size < m.size := by
  have hm := find?_eq_some.mp h
  simp only [erase, size]
  exact List.length_filter_lt_length_iff_exists.mpr ⟨_, hm, by simp⟩

omit [DecidableEq κ] [IsStrictTotalOrder κ lt] in
theorem ext_entries {m m' : OrderedMap κ α lt} (h : m.entries = m'.entries) : m = m' := by
  cases m
  cases m'
  simpa using h

theorem ext_find? {m m' : OrderedMap κ α lt} (h : ∀ k, m.find? k = m'.find? k) : m = m' := by
  obtain ⟨es, hs⟩ := m
  obtain ⟨es', hs'⟩ := m'
  have hmem : ∀ e, e ∈ es ↔ e ∈ es' := by
    rintro ⟨k, v⟩
    have := h k
    rw [Option.ext_iff] at this
    simpa [find?_eq_some] using this v
  rw [List.pairwise_map] at hs hs'
  have hp : es.Perm es' := by
    refine (List.perm_ext_iff_of_nodup ?_ ?_).mpr hmem
    · exact hs.imp (fun {a b} hab => by rintro rfl; exact irrefl_of lt _ hab)
    · exact hs'.imp (fun {a b} hab => by rintro rfl; exact irrefl_of lt _ hab)
  have : es = es' := by
    refine List.Perm.eq_of_pairwise ?_ hs hs' hp
    intro a b _ _ hab hba
    exact absurd (trans_of lt hab hba) (irrefl_of lt _)
  subst this
  rfl

omit [DecidableEq κ] in
theorem entries_nodup (m : OrderedMap κ α lt) : m.entries.Nodup := by
  have := m.sorted
  rw [List.pairwise_map] at this
  exact this.imp (fun {a b} hab => by rintro rfl; exact irrefl_of lt _ hab)

theorem entries_perm_erase {m : OrderedMap κ α lt} {k : κ} {v : α} (h : m.find? k = some v) :
    m.entries.Perm ((k, v) :: (m.erase k).entries) := by
  rw [List.perm_ext_iff_of_nodup m.entries_nodup]
  · rintro ⟨k', v'⟩
    rw [List.mem_cons, ← find?_eq_some, ← find?_eq_some, find?_erase, Prod.mk.injEq]
    by_cases hk : k' = k
    · subst hk; simp [h, eq_comm]
    · simp [hk]
  · refine List.nodup_cons.mpr ⟨?_, (m.erase k).entries_nodup⟩
    rw [← find?_eq_some]
    simp

theorem erase_of_find?_eq_none {m : OrderedMap κ α lt} {k : κ} (h : m.find? k = none) :
    m.erase k = m := by
  apply ext_find?
  intro k'
  rw [find?_erase]
  split
  · next hk => rw [hk, h]
  · rfl

end Lookup

variable [DecidableRel lt]

def insertEntry (lt : κ → κ → Prop) [DecidableRel lt] (k : κ) (v : α) : List (κ × α) → List (κ × α)
  | [] => [(k, v)]
  | e :: es =>
    if lt k e.1 then (k, v) :: e :: es
    else if e.1 = k then (k, v) :: es
    else e :: insertEntry lt k v es

theorem mem_insertEntry {k : κ} {v : α} {es : List (κ × α)} {e : κ × α}
    (h : e ∈ insertEntry lt k v es) : e = (k, v) ∨ e ∈ es := by
  induction es with
  | nil => simpa [insertEntry] using h
  | cons e' es ih =>
    rw [insertEntry] at h
    split at h
    · simpa using h
    · split at h
      · rcases List.mem_cons.mp h with h | h
        · exact Or.inl h
        · exact Or.inr (by simp [h])
      · rcases List.mem_cons.mp h with h | h
        · exact Or.inr (by simp [h])
        · rcases ih h with h | h
          · exact Or.inl h
          · exact Or.inr (by simp [h])

variable [IsStrictTotalOrder κ lt]

theorem insertEntry_sorted (k : κ) (v : α) {es : List (κ × α)}
    (h : (es.map Prod.fst).Pairwise lt) : ((insertEntry lt k v es).map Prod.fst).Pairwise lt := by
  induction es with
  | nil => simp [insertEntry]
  | cons e es ih =>
    obtain ⟨hlt, hes⟩ := List.pairwise_cons.mp h
    rw [insertEntry]
    split
    · next hk =>
      refine List.pairwise_cons.mpr ⟨?_, h⟩
      intro x hx
      rcases List.mem_cons.mp hx with rfl | hx
      · exact hk
      · exact trans_of lt hk (hlt x hx)
    · next hk =>
      split
      · next he => subst he; exact List.pairwise_cons.mpr ⟨hlt, hes⟩
      · next he =>
        refine List.pairwise_cons.mpr ⟨?_, ih hes⟩
        intro x hx
        obtain ⟨y, hy, rfl⟩ := List.mem_map.mp hx
        rcases mem_insertEntry hy with rfl | hy
        · rcases trichotomous_of lt e.1 k with h | h | h
          · exact h
          · exact absurd h he
          · exact absurd h hk
        · exact hlt _ (List.mem_map_of_mem hy)

def set (m : OrderedMap κ α lt) (k : κ) (v : α) : OrderedMap κ α lt :=
  ⟨insertEntry lt k v m.entries, insertEntry_sorted k v m.sorted⟩

theorem mem_insertEntry_iff {k : κ} {v : α} {es : List (κ × α)}
    (h : (es.map Prod.fst).Pairwise lt) (e : κ × α) :
    e ∈ insertEntry lt k v es ↔ e = (k, v) ∨ (e ∈ es ∧ e.1 ≠ k) := by
  induction es with
  | nil => simp [insertEntry]
  | cons e' es ih =>
    obtain ⟨hlt, hes⟩ := List.pairwise_cons.mp h
    have hgt : ∀ x ∈ es, lt e'.1 x.1 := fun x hx => hlt _ (List.mem_map_of_mem hx)
    rw [insertEntry]
    split
    · next hk =>
      have hne : ∀ x ∈ e' :: es, x.1 ≠ k := by
        intro x hx hxk
        rcases List.mem_cons.mp hx with rfl | hx
        · exact irrefl_of lt _ (hxk ▸ hk)
        · exact irrefl_of lt _ (trans_of lt hk (hxk ▸ hgt x hx))
      rw [List.mem_cons]
      exact or_congr_right ⟨fun hx => ⟨hx, hne e hx⟩, And.left⟩
    · split
      · next he =>
        subst he
        rw [List.mem_cons]
        refine or_congr_right ⟨fun hx => ⟨List.mem_cons_of_mem _ hx, ?_⟩, ?_⟩
        · intro hxk
          exact irrefl_of lt _ (hxk ▸ hgt e hx)
        · rintro ⟨hx, hxk⟩
          rcases List.mem_cons.mp hx with rfl | hx
          · exact absurd rfl hxk
          · exact hx
      · next he =>
        rw [List.mem_cons, ih hes, List.mem_cons]
        constructor
        · rintro (rfl | h | ⟨h, hk⟩)
          · exact Or.inr ⟨Or.inl rfl, he⟩
          · exact Or.inl h
          · exact Or.inr ⟨Or.inr h, hk⟩
        · rintro (h | ⟨h | h, hk⟩)
          · exact Or.inr (Or.inl h)
          · exact Or.inl h
          · exact Or.inr (Or.inr ⟨h, hk⟩)

theorem entries_set_of_cons {m : OrderedMap κ α lt} {k : κ} {v w : α} {rest : List (κ × α)}
    (h : m.entries = (k, v) :: rest) : (m.set k w).entries = (k, w) :: rest := by
  simp [set, h, insertEntry, irrefl_of lt k]

@[simp] theorem find?_set (m : OrderedMap κ α lt) (k k' : κ) (v : α) :
    (m.set k v).find? k' = if k' = k then some v else m.find? k' := by
  apply Option.ext
  intro x
  rw [find?_eq_some, set, mem_insertEntry_iff m.sorted]
  split
  · next h => subst h; simp [eq_comm]
  · next h => simp [h, find?_eq_some]

theorem entries_perm_set {m : OrderedMap κ α lt} {k : κ} (v : α) (h : m.find? k = none) :
    (m.set k v).entries.Perm ((k, v) :: m.entries) := by
  have hp := entries_perm_erase (m := m.set k v) (k := k) (v := v) (by simp)
  have herase : (m.set k v).erase k = m := by
    apply ext_find?
    intro k'
    by_cases hk : k' = k <;> simp [hk, h]
  rwa [herase] at hp

theorem set_erase (m : OrderedMap κ α lt) (k : κ) (v : α) : (m.erase k).set k v = m.set k v := by
  apply ext_find?
  intro k'
  by_cases hk : k' = k <;> simp [hk]

omit [DecidableRel lt] in
theorem perm_erase {m : OrderedMap κ α lt} {k : κ} {v : α} {es : List (κ × α)} (h : m.entries.Perm ((k, v) :: es)) :
    (m.erase k).entries.Perm es := by
  have hk : m.find? k = some v := find?_eq_some.mpr (h.mem_iff.mpr List.mem_cons_self)
  exact ((entries_perm_erase hk).symm.trans h).cons_inv

theorem perm_set_new {m : OrderedMap κ α lt} {k : κ} {es : List (κ × α)} (v : α) (h : m.entries.Perm es)
    (hk : m.find? k = none) : (m.set k v).entries.Perm ((k, v) :: es) :=
  (entries_perm_set v hk).trans (h.cons _)

theorem perm_set_old {m : OrderedMap κ α lt} {k : κ} {v : α} {es : List (κ × α)} (w : α)
    (h : m.entries.Perm ((k, v) :: es)) : (m.set k w).entries.Perm ((k, w) :: es) := by
  rw [← set_erase]
  apply perm_set_new w (perm_erase h)
  rw [find?_erase, if_pos rfl]

theorem size_set {m : OrderedMap κ α lt} {k : κ} {v w : α} (h : m.find? k = some v) :
    (m.set k w).size = m.size := by
  have h₁ := (entries_perm_erase h).length_eq
  have h₂ := (entries_perm_erase (m := m.set k w) (k := k) (v := w) (by simp)).length_eq
  have herase : (m.set k w).erase k = m.erase k := by
    apply ext_find?
    intro k'
    by_cases hk : k' = k <;> simp [hk]
  rw [herase] at h₂
  rw [size, size, h₁, h₂]
  rfl

section MapValues

variable {β : Type} (f : α → β)

def mapValues (m : OrderedMap κ α lt) : OrderedMap κ β lt :=
  ⟨m.entries.map (fun e => (e.1, f e.2)), by simpa [Function.comp_def] using m.sorted⟩

omit [DecidableRel lt] [IsStrictTotalOrder κ lt] in
@[simp] theorem find?_mapValues (m : OrderedMap κ α lt) (k : κ) :
    (m.mapValues f).find? k = (m.find? k).map f := by
  rw [find?, find?, mapValues, List.find?_map, Option.map_map, Option.map_map]
  rfl

theorem mapValues_set (m : OrderedMap κ α lt) (k : κ) (v : α) :
    (m.set k v).mapValues f = (m.mapValues f).set k (f v) := by
  apply ext_find?
  intro k'
  simp only [find?_mapValues, find?_set]
  split <;> rfl

omit [DecidableRel lt] in
theorem mapValues_erase (m : OrderedMap κ α lt) (k : κ) :
    (m.erase k).mapValues f = (m.mapValues f).erase k := by
  apply ext_find?
  intro k'
  simp only [find?_mapValues, find?_erase]
  split <;> rfl

end MapValues

end Ordered

end OrderedMap
