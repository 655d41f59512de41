import Mathlib

namespace Intrusive

variable {ι : Type}

structure Links (ι : Type) where
  prev : ι → Option ι
  next : ι → Option ι

structure Anchor (ι : Type) where
  head : Option ι
  tail : Option ι

def Chain (next : ι → Option ι) : Option ι → List ι → Option ι → Prop
  | a, [], z => a = z
  | a, x :: xs, z => a = some x ∧ Chain next (next x) xs z

def Linked (l : Links ι) : Option ι → List ι → Option ι → Prop
  | _, [], _ => True
  | p, x :: xs, q => l.prev x = p ∧ l.next x = xs.head?.or q ∧ Linked l (some x) xs q

structure Represents (l : Links ι) (a : Anchor ι) (xs : List ι) : Prop where
  head : a.head = xs.head?
  tail : a.tail = xs.getLast?
  linked : Linked l none xs none
  nodup : xs.Nodup

theorem Chain.congr {next next' : ι → Option ι} {xs : List ι} {a z : Option ι}
    (h : Chain next a xs z) (he : ∀ x ∈ xs, next' x = next x) : Chain next' a xs z := by
  induction xs generalizing a with
  | nil => exact h
  | cons x xs ih =>
    obtain ⟨ha, hc⟩ := h
    refine ⟨ha, ?_⟩
    rw [he x (by simp)]
    exact ih hc (fun y hy => he y (by simp [hy]))

theorem Linked.congr {l l' : Links ι} {xs : List ι} {p q : Option ι} (h : Linked l p xs q)
    (hp : ∀ x ∈ xs, l'.prev x = l.prev x) (hn : ∀ x ∈ xs, l'.next x = l.next x) :
    Linked l' p xs q := by
  induction xs generalizing p with
  | nil => trivial
  | cons x xs ih =>
    obtain ⟨h1, h2, h3⟩ := h
    refine ⟨(hp x (by simp)).trans h1, (hn x (by simp)).trans h2, ih h3 ?_ ?_⟩
    · exact fun y hy => hp y (by simp [hy])
    · exact fun y hy => hn y (by simp [hy])

theorem linked_append {l : Links ι} {p q : Option ι} {xs ys : List ι} :
    Linked l p (xs ++ ys) q ↔
      Linked l p xs (ys.head?.or q) ∧ Linked l (xs.getLast?.or p) ys q := by
  induction xs generalizing p with
  | nil => simp [Linked]
  | cons x xs ih =>
    have hl : ((x :: xs).getLast?.or p) = (xs.getLast?.or (some x)) := by
      cases xs with
      | nil => simp
      | cons y ys => simp [List.getLast?_cons]
    rw [hl]
    simp only [List.cons_append, Linked, ih, List.head?_append, Option.or_assoc, and_assoc]

theorem Linked.chain {l : Links ι} {p q : Option ι} {xs : List ι} (h : Linked l p xs q) :
    Chain l.next (xs.head?.or q) xs q := by
  induction xs generalizing p with
  | nil => simp [Chain]
  | cons x xs ih =>
    obtain ⟨-, h2, h3⟩ := h
    refine ⟨by simp, ?_⟩
    rw [h2]
    exact ih h3

theorem Represents.chain {l : Links ι} {a : Anchor ι} {xs : List ι} (h : Represents l a xs) :
    Chain l.next a.head xs none := by
  rw [h.head]
  simpa using h.linked.chain

theorem Represents.congr {l l' : Links ι} {a : Anchor ι} {xs : List ι} (h : Represents l a xs)
    (hp : ∀ x ∈ xs, l'.prev x = l.prev x) (hn : ∀ x ∈ xs, l'.next x = l.next x) :
    Represents l' a xs :=
  ⟨h.head, h.tail, h.linked.congr hp hn, h.nodup⟩

theorem represents_nil {l : Links ι} {a : Anchor ι} : Represents l a [] ↔ a = ⟨none, none⟩ := by
  constructor
  · rintro ⟨h1, h2, -, -⟩
    cases a
    simp_all
  · rintro rfl
    exact ⟨rfl, rfl, trivial, List.nodup_nil⟩

theorem Represents.head_eq_none {l : Links ι} {a : Anchor ι} {xs : List ι}
    (h : Represents l a xs) : a.head = none ↔ xs = [] := by
  rw [h.head, List.head?_eq_none_iff]

theorem Represents.tail_eq_none {l : Links ι} {a : Anchor ι} {xs : List ι}
    (h : Represents l a xs) : a.tail = none ↔ xs = [] := by
  rw [h.tail, List.getLast?_eq_none_iff]

theorem Linked.next_eq_some_iff {l : Links ι} {p : Option ι} {xs : List ι} {o n : ι}
    (h : Linked l p xs none) (ho : o ∈ xs) :
    l.next o = some n ↔ ∃ as bs, xs = as ++ o :: n :: bs := by
  constructor
  · intro hn
    obtain ⟨as, bs, rfl⟩ := List.append_of_mem ho
    have hb := (linked_append.mp h).2.2.1
    rw [hn, Option.or_none] at hb
    cases bs with
    | nil => simp at hb
    | cons m bs =>
      obtain rfl : n = m := by simpa using hb
      exact ⟨as, bs, rfl⟩
  · rintro ⟨as, bs, rfl⟩
    simpa using (linked_append.mp h).2.2.1

theorem Linked.prev_eq_some_iff {l : Links ι} {q : Option ι} {xs : List ι} {o n : ι}
    (h : Linked l none xs q) (hn : n ∈ xs) :
    l.prev n = some o ↔ ∃ as bs, xs = as ++ o :: n :: bs := by
  constructor
  · intro ho
    obtain ⟨as, bs, rfl⟩ := List.append_of_mem hn
    have hp := (linked_append.mp h).2.1
    rw [ho, Option.or_none] at hp
    rcases List.eq_nil_or_concat as with rfl | ⟨as, m, rfl⟩
    · simp at hp
    · obtain rfl : o = m := by simpa using hp
      exact ⟨as, bs, by simp⟩
  · rintro ⟨as, bs, rfl⟩
    rw [show as ++ o :: n :: bs = (as ++ [o]) ++ n :: bs by simp] at h
    simpa using (linked_append.mp h).2.1

theorem Represents.next_iff_prev {l : Links ι} {a : Anchor ι} {xs : List ι} {o n : ι}
    (h : Represents l a xs) (ho : o ∈ xs) (hn : n ∈ xs) : l.next o = some n ↔ l.prev n = some o := by
  rw [h.linked.next_eq_some_iff ho, h.linked.prev_eq_some_iff hn]

section Operations

variable [DecidableEq ι]

def Links.setNext (l : Links ι) (i : ι) (v : Option ι) : Links ι :=
  { l with next := Function.update l.next i v }

def Links.setPrev (l : Links ι) (i : ι) (v : Option ι) : Links ι :=
  { l with prev := Function.update l.prev i v }

@[simp] theorem Links.setNext_prev (l : Links ι) (i : ι) (v : Option ι) :
    (l.setNext i v).prev = l.prev := rfl

@[simp] theorem Links.setPrev_next (l : Links ι) (i : ι) (v : Option ι) :
    (l.setPrev i v).next = l.next := rfl

@[simp] theorem Links.setNext_next (l : Links ι) (i j : ι) (v : Option ι) :
    (l.setNext i v).next j = if j = i then v else l.next j := by
  simp [Links.setNext, Function.update_apply]

@[simp] theorem Links.setPrev_prev (l : Links ι) (i j : ι) (v : Option ι) :
    (l.setPrev i v).prev j = if j = i then v else l.prev j := by
  simp [Links.setPrev, Function.update_apply]

def pushBack (l : Links ι) (a : Anchor ι) (o : ι) : Links ι × Anchor ι :=
  let l := (l.setPrev o a.tail).setNext o none
  match a.tail with
  | some t => (l.setNext t (some o), ⟨a.head, some o⟩)
  | none => (l, ⟨some o, some o⟩)

def unlinkPrev (l : Links ι) (a : Anchor ι) (o : ι) : Links ι × Anchor ι :=
  match l.prev o with
  | some p => (l.setNext p (l.next o), a)
  | none => (l, { a with head := l.next o })

def unlinkNext (l : Links ι) (a : Anchor ι) (o : ι) : Links ι × Anchor ι :=
  match l.next o with
  | some n => (l.setPrev n (l.prev o), a)
  | none => (l, { a with tail := l.prev o })

def erase (l : Links ι) (a : Anchor ι) (o : ι) : Links ι × Anchor ι :=
  let r := unlinkPrev l a o
  let r := unlinkNext r.1 r.2 o
  ((r.1.setPrev o none).setNext o none, r.2)

theorem pushBack_represents {l : Links ι} {a : Anchor ι} {xs : List ι} {o : ι}
    (h : Represents l a xs) (ho : o ∉ xs) :
    Represents (pushBack l a o).1 (pushBack l a o).2 (xs ++ [o]) := by
  have hnodup : (xs ++ [o]).Nodup := by
    rw [List.nodup_append]
    exact ⟨h.nodup, by simp, fun x hx y hy => by simp at hy; rintro rfl; exact ho (hy ▸ hx)⟩
  rcases List.eq_nil_or_concat xs with rfl | ⟨ys, t, rfl⟩
  · obtain rfl := represents_nil.mp h
    exact ⟨rfl, rfl, by simp [pushBack, Linked], hnodup⟩
  · have ht : a.tail = some t := by simp [h.tail]
    have hot : o ≠ t := by rintro rfl; simp at ho
    have hys : t ∉ ys := by
      have := h.nodup
      simp [List.nodup_append] at this
      exact fun hm => this.2 t hm rfl
    have hoy : o ∉ ys := fun hm => ho (by simp [hm])
    have hl := linked_append.mp (by simpa using h.linked)
    simp only [pushBack, ht]
    refine ⟨by simp [h.head, List.head?_append], by simp, ?_, hnodup⟩
    rw [List.concat_eq_append, List.append_assoc, linked_append]
    refine ⟨?_, ?_⟩
    · refine hl.1.congr ?_ ?_
      · intro x hx
        have hxo : x ≠ o := by rintro rfl; exact hoy hx
        simp [hxo]
      · intro x hx
        have hxt : x ≠ t := by rintro rfl; exact hys hx
        have hxo : x ≠ o := by rintro rfl; exact hoy hx
        simp [hxo, hxt]
    · have hp := hl.2.1
      simpa [Linked, hot, hot.symm] using hp

theorem pushBack_frame {l : Links ι} {a : Anchor ι} {xs : List ι} {o : ι}
    (h : Represents l a xs) {y : ι} (hy : y ∉ xs) (hyo : y ≠ o) :
    (pushBack l a o).1.prev y = l.prev y ∧ (pushBack l a o).1.next y = l.next y := by
  cases ht : a.tail with
  | none => simp [pushBack, ht, hyo]
  | some t =>
    have hm : t ∈ xs := List.mem_of_getLast? (h.tail ▸ ht)
    have hyt : y ≠ t := by rintro rfl; exact hy hm
    simp [pushBack, ht, hyo, hyt]

theorem unlinkPrev_represents {l : Links ι} {a : Anchor ι} {xs ys : List ι} {o : ι}
    (h : Represents l a (xs ++ o :: ys)) :
    let r := unlinkPrev l a o
    r.2.head = (xs ++ ys).head? ∧ r.2.tail = a.tail ∧ Linked r.1 none xs ys.head? ∧
      r.1.prev = l.prev ∧ (∀ y ∉ xs, r.1.next y = l.next y) := by
  have hl := linked_append.mp h.linked
  have hnd := h.nodup
  simp only [List.nodup_append, List.nodup_cons, List.mem_cons] at hnd
  obtain ⟨hxs, ⟨hoy, -⟩, hdis⟩ := hnd
  have hox : o ∉ xs := fun hm => hdis o hm o (Or.inl rfl) rfl
  obtain ⟨h1, hprev, hnext, -⟩ := hl
  simp only [Option.or_none] at hprev hnext
  rcases List.eq_nil_or_concat xs with rfl | ⟨zs, p, rfl⟩
  · simp only [List.getLast?_nil] at hprev
    simp [unlinkPrev, hprev, hnext, Linked]
  · simp only [List.concat_eq_append] at *
    simp only [List.getLast?_append, List.getLast?_singleton, Option.some_or] at hprev
    have hpz : p ∉ zs := by
      rw [List.nodup_append] at hxs
      exact fun hm => hxs.2.2 p hm p (by simp) rfl
    have hop : o ≠ p := by rintro rfl; simp at hox
    rw [linked_append] at h1
    simp only [unlinkPrev, hprev, Links.setNext_prev, Links.setNext_next, true_and]
    refine ⟨by simp [h.head, List.head?_append], ?_, ?_⟩
    · rw [linked_append]
      refine ⟨h1.1.congr (fun _ _ => rfl) ?_, by simpa [Linked, hnext] using h1.2.1⟩
      intro x hx
      have hxp : x ≠ p := by rintro rfl; exact hpz hx
      simp [hxp]
    · intro y hy
      have hyp : y ≠ p := by rintro rfl; simp at hy
      simp [hyp]

theorem erase_represents {l : Links ι} {a : Anchor ι} {xs ys : List ι} {o : ι}
    (h : Represents l a (xs ++ o :: ys)) :
    Represents (erase l a o).1 (erase l a o).2 (xs ++ ys) := by
  obtain ⟨hhead, htail, hxs, hprev, hnext⟩ := unlinkPrev_represents h
  have hl := (linked_append.mp h.linked).2
  have hnd := h.nodup
  simp only [List.nodup_append, List.nodup_cons, List.mem_cons] at hnd
  obtain ⟨hndx, ⟨hoy, hndy⟩, hdis⟩ := hnd
  have hox : o ∉ xs := fun hm => hdis o hm o (Or.inl rfl) rfl
  have hnodup : (xs ++ ys).Nodup := by
    rw [List.nodup_append]
    exact ⟨hndx, hndy, fun x hx y hy => hdis x hx y (Or.inr hy)⟩
  obtain ⟨hpo, hno, hys⟩ := hl
  simp only [Option.or_none] at hpo hno
  have hno' : (unlinkPrev l a o).1.next o = ys.head? := (hnext o hox).trans hno
  have hpo' : (unlinkPrev l a o).1.prev o = xs.getLast? := by rw [hprev]; exact hpo
  cases ys with
  | nil =>
    simp only [List.head?_nil] at hno'
    simp only [erase, unlinkNext, hno', hpo']
    refine ⟨by simpa using hhead, by simp, ?_, by simpa using hnodup⟩
    rw [List.append_nil]
    refine hxs.congr ?_ ?_ <;>
      · intro x hx
        have hxo : x ≠ o := by rintro rfl; exact hox hx
        simp [hxo]
  | cons n zs =>
    simp only [List.head?_cons] at hno'
    obtain ⟨hpn, hnn, hzs⟩ := hys
    have hon : o ≠ n := by rintro rfl; simp at hoy
    have hnx : n ∉ xs := fun hm => hdis n hm n (by simp) rfl
    have hnz : n ∉ zs := (List.nodup_cons.mp hndy).1
    have hoz : o ∉ zs := fun hm => hoy (by simp [hm])
    simp only [erase, unlinkNext, hno', hpo']
    refine ⟨by simpa using hhead, ?_, ?_, hnodup⟩
    · rw [htail, h.tail]
      simp [List.getLast?_append, List.getLast?_cons]
    · rw [linked_append]
      refine ⟨hxs.congr ?_ ?_, ?_, ?_, ?_⟩
      · intro x hx
        have hxo : x ≠ o := by rintro rfl; exact hox hx
        have hxn : x ≠ n := by rintro rfl; exact hnx hx
        simp [hxo, hxn]
      · intro x hx
        have hxo : x ≠ o := by rintro rfl; exact hox hx
        simp [hxo]
      · simp [hon.symm]
      · simp only [Links.setNext_next, Links.setPrev_next, hon.symm, if_false]
        rw [hnext n hnx, hnn]
      · refine hzs.congr ?_ ?_
        · intro x hx
          have hxo : x ≠ o := by rintro rfl; exact hoz hx
          have hxn : x ≠ n := by rintro rfl; exact hnz hx
          simp [hxo, hxn, hprev]
        · intro x hx
          have hxo : x ≠ o := by rintro rfl; exact hoz hx
          have hxx : x ∉ xs := fun hm => hdis x hm x (by simp [hx]) rfl
          simp [hxo, hnext x hxx]

theorem erase_frame {l : Links ι} {a : Anchor ι} {xs ys : List ι} {o : ι}
    (h : Represents l a (xs ++ o :: ys)) {y : ι} (hy : y ∉ xs ++ o :: ys) :
    (erase l a o).1.prev y = l.prev y ∧ (erase l a o).1.next y = l.next y := by
  obtain ⟨-, -, -, hprev, hnext⟩ := unlinkPrev_represents h
  obtain ⟨-, hno, -⟩ := (linked_append.mp h.linked).2
  have hnd := h.nodup
  simp only [List.nodup_append, List.mem_cons] at hnd
  have hox : o ∉ xs := fun hm => hnd.2.2 o hm o (Or.inl rfl) rfl
  simp only [List.mem_append, List.mem_cons, not_or] at hy
  obtain ⟨hyx, hyo, hyy⟩ := hy
  have hno' : (unlinkPrev l a o).1.next o = ys.head? := by rw [hnext o hox]; simpa using hno
  cases ys with
  | nil =>
    simp only [List.head?_nil] at hno'
    simp [erase, unlinkNext, hno', hyo, hprev, hnext y hyx]
  | cons n zs =>
    simp only [List.head?_cons] at hno'
    have hyn : y ≠ n := by rintro rfl; simp at hyy
    simp [erase, unlinkNext, hno', hyo, hyn, hprev, hnext y hyx]

theorem erase_unlinks {l : Links ι} {a : Anchor ι} {o : ι} :
    (erase l a o).1.prev o = none ∧ (erase l a o).1.next o = none := by
  simp [erase]

end Operations

end Intrusive
