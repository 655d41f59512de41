import Llmes.LiveBook

namespace Llmes

def Fill.whole (e : Entry) : Fill := ⟨e, e.quantity⟩

inductive Consumed : Queue → Queue → List Fill → Prop
  | whole (done rest : Queue) : Consumed (done ++ rest) rest (done.map Fill.whole)
  | part (done : Queue) (e : Entry) (v : UInt64) (rest : Queue) (hv : v ≠ 0) (hlt : v < e.quantity) :
      Consumed (done ++ e :: rest) ({ e with quantity := e.quantity - v } :: rest)
        (done.map Fill.whole ++ [⟨e, v⟩])

def volume (i : ℕ) (fills : List Fill) : ℕ :=
  ((fills.filter (fun f => f.maker.slot = i)).map (fun f => f.quantity.toNat)).sum

def total (fills : List Fill) : ℕ := (fills.map (fun f => f.quantity.toNat)).sum

@[simp] theorem total_append (f g : List Fill) : total (f ++ g) = total f + total g := by
  simp [total]

namespace Consumed

theorem append_left {es left : Queue} {fills : List Fill} (done : Queue) (h : Consumed es left fills) :
    Consumed (done ++ es) left (done.map Fill.whole ++ fills) := by
  cases h with
  | whole done' rest =>
    rw [← List.append_assoc, ← List.map_append]
    apply whole
  | part done' e v rest hv hlt =>
    rw [← List.append_assoc, ← List.append_assoc, ← List.map_append]
    exact part _ e v rest hv hlt

theorem append_right {es left : Queue} {fills : List Fill} (h : Consumed es left fills) (rest : Queue) :
    Consumed (es ++ rest) (left ++ rest) fills := by
  cases h with
  | whole done rest' =>
    rw [List.append_assoc]
    apply whole
  | part done e v rest' hv hlt =>
    rw [List.append_assoc]
    exact part done e v (rest' ++ rest) hv hlt

theorem all {es : Queue} {fills : List Fill} (h : Consumed es [] fills) : fills = es.map Fill.whole := by
  generalize hl : ([] : Queue) = left at h
  cases h with
  | whole done rest =>
    subst hl
    simp
  | part => cases hl

end Consumed

theorem consumed_takeQueue (q : UInt64) (es : Queue) :
    Consumed es (takeQueue q es).left (takeQueue q es).fills := by
  induction es generalizing q with
  | nil => exact .whole [] []
  | cons e es ih =>
    rw [takeQueue]
    by_cases hq : q = 0
    · rw [if_pos hq]
      exact .whole [] _
    · rw [if_neg hq]
      dsimp only
      by_cases hf : e.quantity - min q e.quantity = 0
      · rw [if_pos hf, sub_min_eq_zero_iff.mp hf]
        exact (ih _).append_left [e]
      · rw [if_neg hf]
        have hmin : min q e.quantity = q := by
          rcases min_cases q e.quantity with ⟨-, h⟩ | ⟨-, h⟩
          · exact h
          · rw [h, UInt64.sub_self] at hf
            exact absurd rfl hf
        have hlt : q < e.quantity := by
          have h1 := toNat_sub_min_right q e.quantity
          have h2 := toNat_ne_zero.mp hf
          rw [hmin] at h1 h2
          rw [UInt64.lt_iff_toNat_lt]
          omega
        rw [hmin]
        exact .part [] e q es hq hlt

theorem consumed_takeLevels (cross : Int → Bool) (q : UInt64) (es : List (Int × Queue)) :
    Consumed (es.flatMap Prod.snd) ((takeLevels cross q es).left.flatMap Prod.snd)
      (takeLevels cross q es).fills := by
  induction es generalizing q with
  | nil => exact .whole [] []
  | cons l rest ih =>
    obtain ⟨p, es⟩ := l
    rw [takeLevels]
    split
    · exact .whole [] _
    · dsimp only
      have hq := consumed_takeQueue q es
      split
      · next hleft =>
        rw [hleft] at hq
        rw [hq.all]
        exact (ih _).append_left es
      · exact hq.append_right _

theorem takeQueue_total (q : UInt64) (es : Queue) :
    total (takeQueue q es).fills + (takeQueue q es).quantity.toNat = q.toNat := by
  induction es generalizing q with
  | nil => simp [takeQueue, total]
  | cons e es ih =>
    rw [takeQueue]
    by_cases hq : q = 0
    · simp [hq, total]
    · rw [if_neg hq]
      dsimp only
      have hle := UInt64.le_iff_toNat_le.mp (min_le_left q e.quantity)
      have hsub := toNat_sub_min_left q e.quantity
      by_cases hf : e.quantity - min q e.quantity = 0
      · rw [if_pos hf]
        have h := ih (q - min q e.quantity)
        simp only [total, List.map_cons, List.sum_cons] at h ⊢
        omega
      · rw [if_neg hf]
        simp only [total, List.map_cons, List.map_nil, List.sum_cons, List.sum_nil]
        omega

theorem takeLevels_total (cross : Int → Bool) (q : UInt64) (es : List (Int × Queue)) :
    total (takeLevels cross q es).fills + (takeLevels cross q es).quantity.toNat = q.toNat := by
  induction es generalizing q with
  | nil => simp [takeLevels, total]
  | cons l rest ih =>
    obtain ⟨p, es⟩ := l
    rw [takeLevels]
    split
    · simp [total]
    · dsimp only
      have hq := takeQueue_total q es
      split
      · have hr := ih (takeQueue q es).quantity
        simp only [total_append]
        omega
      · exact hq

structure Entry.Continues (e e' : Entry) : Prop where
  slot : e'.slot = e.slot
  id : e'.id = e.id
  price : e'.price = e.price
  timestamp : e'.timestamp = e.timestamp

theorem Entry.Continues.refl (e : Entry) : e.Continues e := ⟨rfl, rfl, rfl, rfl⟩

theorem volume_append (i : ℕ) (f g : List Fill) : volume i (f ++ g) = volume i f + volume i g := by
  simp [volume]

theorem volume_eq_zero {i : ℕ} {fills : List Fill} (h : ∀ f ∈ fills, f.maker.slot ≠ i) :
    volume i fills = 0 := by
  have : fills.filter (fun f => f.maker.slot = i) = [] := by
    apply List.filter_eq_nil_iff.mpr
    intro f hf
    simpa using h f hf
  rw [volume, this]
  rfl

theorem volume_whole_of_not_mem {i : ℕ} {q : Queue} (h : i ∉ q.map Entry.slot) :
    volume i (q.map Fill.whole) = 0 := by
  apply volume_eq_zero
  intro f hf
  obtain ⟨e, he, rfl⟩ := List.mem_map.mp hf
  exact fun heq => h (heq ▸ List.mem_map_of_mem he)

theorem volume_whole_of_mem {q : Queue} {e : Entry} (hnd : (q.map Entry.slot).Nodup) (he : e ∈ q) :
    volume e.slot (q.map Fill.whole) = e.quantity.toNat := by
  obtain ⟨xs, ys, rfl⟩ := List.append_of_mem he
  rw [List.map_append, List.map_cons, List.nodup_append, List.nodup_cons] at hnd
  have hx : e.slot ∉ xs.map Entry.slot := fun hm => hnd.2.2 _ hm _ (by simp) rfl
  rw [List.map_append, List.map_cons, volume_append, volume_whole_of_not_mem hx]
  have hcons : volume e.slot (Fill.whole e :: ys.map Fill.whole) =
      e.quantity.toNat + volume e.slot (ys.map Fill.whole) := by
    simp [volume, Fill.whole]
  rw [hcons, volume_whole_of_not_mem hnd.2.1.1]
  omega

namespace Consumed

variable {es left : Queue} {fills : List Fill}

theorem maker_mem (h : Consumed es left fills) {f : Fill} (hf : f ∈ fills) : f.maker ∈ es := by
  cases h with
  | whole done rest =>
    obtain ⟨e, he, rfl⟩ := List.mem_map.mp hf
    exact List.mem_append_left _ he
  | part done e v rest hv hlt =>
    rcases List.mem_append.mp hf with hf | hf
    · obtain ⟨e', he', rfl⟩ := List.mem_map.mp hf
      exact List.mem_append_left _ he'
    · rw [List.mem_singleton.mp hf]
      simp

theorem origin (h : Consumed es left fills) {e' : Entry} (he' : e' ∈ left) :
    ∃ e ∈ es, e.Continues e' := by
  cases h with
  | whole done rest => exact ⟨e', by simp [he'], .refl e'⟩
  | part done e v rest hv hlt =>
    rcases List.mem_cons.mp he' with rfl | he'
    · exact ⟨e, by simp, rfl, rfl, rfl, rfl⟩
    · exact ⟨e', by simp [he'], .refl e'⟩

theorem track (h : Consumed es left fills) (hnd : (es.map Entry.slot).Nodup) {e : Entry} (he : e ∈ es) :
    (∃ e' ∈ left, e.Continues e' ∧ e'.quantity.toNat + volume e.slot fills = e.quantity.toNat) ∨
    (volume e.slot fills = e.quantity.toNat ∧ ∀ e' ∈ left, e'.slot ≠ e.slot) := by
  cases h with
  | whole done rest =>
    rw [List.map_append, List.nodup_append] at hnd
    obtain ⟨hdone, -, hdis⟩ := hnd
    rcases List.mem_append.mp he with he | he
    · right
      refine ⟨volume_whole_of_mem hdone he, ?_⟩
      intro e' he' heq
      exact hdis _ (List.mem_map_of_mem he) _ (List.mem_map_of_mem he') heq.symm
    · left
      refine ⟨e, he, .refl e, ?_⟩
      have hn : e.slot ∉ done.map Entry.slot := fun hm => hdis _ hm _ (List.mem_map_of_mem he) rfl
      rw [volume_whole_of_not_mem hn]
      omega
  | part done e₀ v rest hv hlt =>
    rw [List.map_append, List.map_cons, List.nodup_append, List.nodup_cons] at hnd
    obtain ⟨hdone, ⟨hrest, -⟩, hdis⟩ := hnd
    have hone (i : ℕ) : volume i [⟨e₀, v⟩] = if e₀.slot = i then v.toNat else 0 := by
      by_cases hi : e₀.slot = i <;> simp [volume, hi]
    rcases List.mem_append.mp he with he | he
    · right
      have hne : e₀.slot ≠ e.slot := fun heq => hdis _ (List.mem_map_of_mem he) _ (by simp) heq.symm
      refine ⟨?_, ?_⟩
      · rw [volume_append, volume_whole_of_mem hdone he, hone, if_neg hne]
        omega
      · intro e' he' heq
        rcases List.mem_cons.mp he' with rfl | he'
        · exact hne heq
        · exact hdis _ (List.mem_map_of_mem he) e'.slot (by simp [List.mem_map_of_mem he']) heq.symm
    · left
      have hn : e.slot ∉ done.map Entry.slot := by
        intro hm
        exact hdis _ hm e.slot (by simpa using List.mem_map_of_mem he) rfl
      rcases List.mem_cons.mp he with rfl | he
      · refine ⟨{ e with quantity := e.quantity - v }, by simp, ⟨rfl, rfl, rfl, rfl⟩, ?_⟩
        rw [volume_append, volume_whole_of_not_mem hn, hone, if_pos rfl,
          UInt64.toNat_sub_of_le _ _ (UInt64.le_of_lt hlt)]
        have := UInt64.lt_iff_toNat_lt.mp hlt
        omega
      · refine ⟨e, by simp [he], .refl e, ?_⟩
        have hne : e₀.slot ≠ e.slot := fun heq => hrest (heq ▸ List.mem_map_of_mem he)
        rw [volume_append, volume_whole_of_not_mem hn, hone, if_neg hne]
        omega

theorem total_eq (h : Consumed es left fills) :
    (es.map (fun e => e.quantity.toNat)).sum =
      total fills + (left.map (fun e => e.quantity.toNat)).sum := by
  have hwhole (q : Queue) : total (q.map Fill.whole) = (q.map (fun e => e.quantity.toNat)).sum := by
    simp [total, Fill.whole, Function.comp_def]
  cases h with
  | whole done rest => rw [List.map_append, List.sum_append, hwhole]
  | part done e v rest hv hlt =>
    have hone : total [⟨e, v⟩] = v.toNat := by simp [total]
    rw [List.map_append, List.sum_append, total_append, hwhole, hone, List.map_cons, List.map_cons,
      List.sum_cons, List.sum_cons, UInt64.toNat_sub_of_le _ _ (UInt64.le_of_lt hlt)]
    have := UInt64.lt_iff_toNat_lt.mp hlt
    omega

theorem quantity_ne_zero (h : Consumed es left fills) (hes : ∀ e ∈ es, e.quantity ≠ 0) {f : Fill}
    (hf : f ∈ fills) : f.quantity ≠ 0 := by
  cases h with
  | whole done rest =>
    obtain ⟨e, he, rfl⟩ := List.mem_map.mp hf
    exact hes e (List.mem_append_left _ he)
  | part done e v rest hv hlt =>
    rcases List.mem_append.mp hf with hf | hf
    · obtain ⟨e', he', rfl⟩ := List.mem_map.mp hf
      exact hes e' (List.mem_append_left _ he')
    · rw [List.mem_singleton.mp hf]
      exact hv

end Consumed

end Llmes
