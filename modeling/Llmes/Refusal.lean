import Llmes.Invariants
import Llmes.Transition

namespace Llmes

open BookSide BookView LawfulBookSide OrderBook

namespace Consumed

variable {es left : Queue} {fills : List Fill}

theorem remains (h : Consumed es left fills) {f : Fill} (hf : f ∈ fills) (hc : f.complete = false) :
    ∃ e ∈ left, e.slot = f.maker.slot := by
  have hwhole {done : Queue} : f ∉ done.map Fill.whole := by
    intro hm
    obtain ⟨e, -, rfl⟩ := List.mem_map.mp hm
    simp [Fill.complete, Fill.whole] at hc
  cases h with
  | whole done rest => exact absurd hf hwhole
  | part done e v rest hv hlt =>
    rcases List.mem_append.mp hf with hf | hf
    · exact absurd hf hwhole
    · rw [List.mem_singleton.mp hf]
      exact ⟨_, List.mem_cons_self, rfl⟩

end Consumed

namespace LiveBook

variable {A : LiveBook}

theorem rest_eq_none {orderId : UInt64} {side : Side} {price : Int} {remaining timestamp : UInt64} :
    A.rest orderId side price remaining timestamp = none ↔ A.free = [] := by
  unfold rest
  cases A.free <;> simp

theorem limit_eq_none {orderId : UInt64} {side : Side} {price : Int} {quantity timestamp : UInt64} :
    A.limit orderId side price quantity timestamp = none ↔
      (A.take side (canCrossLimit side price) quantity).quantity ≠ 0 ∧
        (A.take side (canCrossLimit side price) quantity).left.free = [] := by
  unfold limit
  by_cases hz : quantity = 0
  · subst hz
    simp [take_zero]
  · rw [if_neg hz]
    dsimp only
    split
    · next hq => simp [hq]
    · next hq => simp [hq, rest_eq_none]

theorem exec_eq_none {op : Op} {t : Taken LiveBook} (ht : A.matching op = some t) :
    A.exec op = none ↔ op.price ≠ none ∧ t.quantity ≠ 0 ∧ t.left.free = [] := by
  cases op with
  | limit orderId side price quantity timestamp =>
    obtain rfl := Option.some.inj ht
    simp [exec, Op.price, limit_eq_none]
  | market orderId side quantity timestamp => simp [exec, Op.price]
  | modify handle side price quantity timestamp =>
    obtain ⟨x, hx, rfl⟩ := Option.map_eq_some_iff.mp ht
    simp [exec, hx, Op.price, limit_eq_none]
  | cancel handle =>
    obtain ⟨x, hx, -⟩ := Option.map_eq_some_iff.mp ht
    simp [exec, hx, Op.price]

theorem not_mem_free_of_mem_orders (h : A.Sound) {s : Side} {e : Entry} (he : e ∈ A.orders s) :
    e.slot ∉ A.free := h.slot_not_free (h.order he).1

end LiveBook

section Rejected

variable {R : Type} {S : Bool → Type} [BookSide S R] {b b' : OrderBook S R} {side : Side} {out : AddResult}

theorem addLimitOrder_rejected {orderId quantity timestamp : UInt64} {price : Int}
    (h : b.addLimitOrder orderId side price quantity timestamp = .ok (out, b'))
    (hcode : out.code = .invalidQuantity) : b' = b := by
  unfold addLimitOrder at h
  split at h
  · obtain ⟨-, rfl⟩ := Prod.mk.inj (Except.ok.inj h)
    rfl
  · obtain ⟨m, -, h⟩ := bind_eq_ok.mp h
    split at h
    · obtain ⟨rfl, -⟩ := Prod.mk.inj (Except.ok.inj h)
      cases hcode
    · obtain ⟨n, -, h⟩ := bind_eq_ok.mp h
      obtain ⟨rfl, -⟩ := Prod.mk.inj (Except.ok.inj h)
      cases hcode

theorem addMarketOrder_rejected {orderId quantity timestamp : UInt64}
    (h : b.addMarketOrder orderId side quantity timestamp = .ok (out, b'))
    (hcode : out.code = .invalidQuantity) : b' = b := by
  unfold addMarketOrder at h
  split at h
  · obtain ⟨-, rfl⟩ := Prod.mk.inj (Except.ok.inj h)
    rfl
  · obtain ⟨m, -, h⟩ := bind_eq_ok.mp h
    split at h <;>
      · obtain ⟨rfl, -⟩ := Prod.mk.inj (Except.ok.inj h)
        cases hcode

end Rejected

namespace ArrayBook

variable {b b' : ArrayBook} {A : LiveBook} {op : Op} {out : AddResult}

/-- A rejected add leaves the book alone. `modify_order` cancels before it adds: when it is rejected,
its order is gone, as after `cancel_order` on the same handle. -/
theorem rejected_unchanged {capacity : ℕ} (h : Reach capacity b) (hlive : ∀ i ∈ op.handle, b.Resting i.toNat)
    (hb : b.exec op = .ok (.added out, b')) (hcode : out.code = .invalidQuantity) :
    (b' = b ↔ op.handle = none) ∧
      ∀ i ∈ op.handle, b.exec (.cancel i) = .ok (.cancelled .success, b') ∧ ¬ b'.Resting i.toNat := by
  obtain ⟨A, hrep⟩ := h.good.rep
  cases op with
  | limit orderId side price quantity timestamp =>
    obtain ⟨⟨out', b₁⟩, ho, hb⟩ := bind_eq_ok.mp hb
    obtain ⟨h₁, rfl⟩ := Prod.mk.inj (Except.ok.inj hb)
    obtain rfl := Reply.added.inj h₁
    simp [Op.handle, addLimitOrder_rejected ho hcode]
  | market orderId side quantity timestamp =>
    obtain ⟨⟨out', b₁⟩, ho, hb⟩ := bind_eq_ok.mp hb
    obtain ⟨h₁, rfl⟩ := Prod.mk.inj (Except.ok.inj hb)
    obtain rfl := Reply.added.inj h₁
    simp [Op.handle, addMarketOrder_rejected ho hcode]
  | modify handle side price quantity timestamp =>
    have hrest : b.Resting handle.toNat := hlive handle rfl
    obtain ⟨x, b₁, hx, hres, hb₁, hid, hmoved, -⟩ := hrep.remove_live (hrep.resting_iff.mp hrest)
    obtain ⟨hmem, hslot⟩ := LiveBook.locate_eq_some hx
    obtain ⟨⟨out', b₂⟩, ho, hb⟩ := bind_eq_ok.mp hb
    obtain ⟨h₁, rfl⟩ := Prod.mk.inj (Except.ok.inj hb)
    obtain rfl := Reply.added.inj h₁
    simp only [modifyOrder, hres, ok_bind, hb₁] at ho
    -- the add saw the book without the order and gave that book back
    obtain rfl := addLimitOrder_rejected ho hcode
    have hcancel : b.exec (.cancel handle) = .ok (.cancelled .success, b₂) := by
      simp only [exec, cancelOrder, hres, ok_bind, hb₁, pure_eq_ok]
    have hgone : ¬ OrderBook.Resting b₂ handle.toNat := by
      rw [hmoved.rep.resting_iff, not_not, LiveBook.locate_eq_none]
      intro s e he
      rw [← hslot]
      exact ((LiveBook.mem_remove hrep.sound hmem).mp he).2
    refine ⟨⟨?_, ?_⟩, ?_⟩
    · intro heq
      obtain rfl : b₂ = b := heq
      exact absurd hrest hgone
    · simp [Op.handle]
    · rintro i hi
      obtain rfl := Option.some.inj hi
      exact ⟨hcancel, hgone⟩
  | cancel handle =>
    obtain ⟨r, -, hb⟩ := bind_eq_ok.mp hb
    cases hb

theorem rejected_unchanged_sample : sample.after (.market 7 .buy 0 9) = sample ∧
    sample.exec (.cancel 3) = .ok (.cancelled .success, sample.after (.modify 3 .buy 100 0 9)) := by
  have hmarket : sample.exec (.market 7 .buy 0 9) =
      .ok (.added { code := .invalidQuantity }, sample.after (.market 7 .buy 0 9)) := exec_after (by decide +kernel)
  have hmodify : sample.exec (.modify 3 .buy 100 0 9) =
      .ok (.added { code := .invalidQuantity }, sample.after (.modify 3 .buy 100 0 9)) := exec_after (by decide +kernel)
  have hrest : sample.Resting 3 := ⟨.buy, 100, 100, by decide +kernel, by decide +kernel⟩
  constructor
  · exact (rejected_unchanged reach_sample (fun _ hi => by cases hi) hmarket rfl).1.mpr rfl
  · refine ((rejected_unchanged reach_sample ?_ hmodify rfl).2 3 rfl).1
    rintro i hi
    obtain rfl := Option.some.inj hi
    exact hrest

theorem modify_zero_drops : Reach 4 sample ∧ sample.Resting 3 ∧
    sample.exec (.modify 3 .buy 100 0 9) =
      .ok (.added { code := .invalidQuantity }, sample.after (.modify 3 .buy 100 0 9)) ∧
    sample.fifo .buy 100 = [3] ∧ (sample.after (.modify 3 .buy 100 0 9)).fifo .buy 100 = [] :=
  ⟨reach_sample, ⟨.buy, 100, 100, by decide +kernel, by decide +kernel⟩, exec_after (by decide +kernel),
    by decide +kernel, by decide +kernel⟩

def filledOut (m : MatchState ArraySideBook ℕ) : List ℕ :=
  m.makers.filter (fun i => i ∉ resting m.book .buy ++ resting m.book .sell)

theorem mem_resting (h : Rep b A) {i : ℕ} :
    i ∈ b.resting .buy ++ b.resting .sell ↔ ∃ s, ∃ e ∈ A.orders s, e.slot = i := by
  rw [List.mem_append, (resting_perm h _).mem_iff, (resting_perm h _).mem_iff, List.mem_map, List.mem_map]
  constructor
  · rintro (he | he)
    · exact ⟨.buy, he⟩
    · exact ⟨.sell, he⟩
  · rintro ⟨s, he⟩
    cases s
    · exact Or.inl he
    · exact Or.inr he

theorem resting_length (h : Rep b A) (hc : b.pool.capacity < 2 ^ 32) :
    A.free.length + (b.resting .buy ++ b.resting .sell).length = b.pool.capacity := by
  have hslots := h.slots.length_eq
  rw [Nat.mod_eq_of_lt hc, List.length_range] at hslots
  rw [List.length_append, (resting_perm h _).length_eq, (resting_perm h _).length_eq, ← hslots,
    LiveBook.slots, List.length_append, List.length_append]

theorem acquire_invalid_iff (h : Rep b A) : b.pool.acquire.1 = kInvalidHandle ↔ A.free = [] := by
  have hfree := h.free
  cases hf : A.free with
  | nil =>
    rw [hf] at hfree
    simp [hfree.acquire_nil]
  | cons n free =>
    rw [hf] at hfree
    obtain ⟨hmem, hnot, -⟩ := h.free_cons hf
    obtain ⟨hacq, -⟩ := hfree.acquire_cons hnot
    rw [hacq]
    simp [(Rep.ofNat_ne_invalid (h.slot_lt_max hmem).1).1]

theorem filledOut_eq {orderId : UInt64} {m : MatchState ArraySideBook ℕ} {t : Taken LiveBook}
    (hp : Phase orderId b m t) (ht : A.matching op = some t) : filledOut m = freed t.fills := by
  obtain ⟨A₁, side, cross, rfl, -⟩ := LiveBook.matching_eq_take ht
  have hrest (f : Fill) (hf : f ∈ (A₁.take side cross op.quantity).fills) :
      f.maker.slot ∉ resting m.book .buy ++ resting m.book .sell ↔ f.complete = true := by
    rw [mem_resting hp.moved.rep]
    constructor
    · intro hnot
      by_contra hc
      obtain ⟨e, he, heq⟩ := (LiveBook.consumed_take side cross op.quantity).remains hf (by simpa using hc)
      exact hnot ⟨_, e, he, heq⟩
    · rintro hc ⟨s, e, he, heq⟩
      apply LiveBook.not_mem_free_of_mem_orders hp.moved.rep.sound he
      rw [heq, LiveBook.take_left_free]
      apply List.mem_append_left
      rw [List.mem_reverse]
      exact List.mem_map_of_mem (List.mem_filter.mpr ⟨hf, hc⟩)
  rw [filledOut, hp.makers, List.filter_map, freed]
  apply congrArg
  apply List.filter_congr
  intro f hf
  rw [Function.comp_apply, Bool.eq_iff_iff, decide_eq_true_iff]
  exact hrest f hf

theorem matching_free {t : Taken LiveBook} (ht : A.matching op = some t) : ∃ free,
    t.left.free = (freed t.fills).reverse ++ free ∧ ∀ i ∈ op.handle, ∃ rest, free = i.toNat :: rest := by
  obtain ⟨A₁, side, cross, rfl, ⟨hop, rfl⟩ | ⟨i, x, hop, hx, rfl⟩⟩ := LiveBook.matching_eq_take ht
  · exact ⟨A₁.free, LiveBook.take_left_free .., by simp [hop]⟩
  · refine ⟨x.2.slot :: A.free, by rw [LiveBook.take_left_free, LiveBook.remove, LiveBook.setQueue_free], ?_⟩
    rintro j hj
    rw [hop] at hj
    obtain rfl := Option.some.inj hj
    exact ⟨A.free, by rw [(LiveBook.locate_eq_some hx).2]⟩

/-- The pool runs out exactly when every slot rests once matching is over. What matching or a modify
sets free is the next to be handed out. -/
theorem exhaustion_exact {capacity : ℕ} (hc : capacity < 2 ^ 32) (h : Reach capacity b)
    (hlive : ∀ i ∈ op.handle, b.Resting i.toNat)
    (hrange : ∀ price ∈ op.price, ∀ m, b.matching op = .ok m → m.quantity ≠ 0 →
      0 ≤ price ∧ price < kBitCount) :
    ∃ m, b.matching op = .ok m ∧
      (m.book.pool.acquire.1 = kInvalidHandle ↔
        (resting m.book .buy ++ resting m.book .sell).length = capacity) ∧
      (b.exec op = .error .poolExhausted ↔ op.price ≠ none ∧ m.quantity ≠ 0 ∧
        (resting m.book .buy ++ resting m.book .sell).length = capacity) ∧
      (filledOut m ≠ [] ∨ op.handle ≠ none → ∃ reply b', b.exec op = .ok (reply, b')) ∧
      ∀ i ∈ op.handle, ∀ out b', b.exec op = .ok (.added out, b') → m.quantity ≠ 0 →
        out.handle = ((filledOut m).getLast?.map UInt32.ofNat).getD i := by
  obtain ⟨A, hrep⟩ := h.good.rep
  have hlive' := (hrep.live_iff op).mpr hlive
  obtain ⟨m, t, hm, ht, hp⟩ := matching_spec hrep op hlive'
  have hcap : m.book.pool.capacity = capacity := hp.moved.capacity.trans h.good.capacity
  have hlength := resting_length hp.moved.rep (hcap ▸ hc)
  have hfull : t.left.free = [] ↔ (resting m.book .buy ++ resting m.book .sell).length = capacity := by
    rw [← List.length_eq_zero_iff]
    omega
  obtain ⟨free, hfree, hhandle⟩ := matching_free ht
  have hspec := exec_spec hrep op hlive' (admissible_of_range hrep hlive' hrange)
  have hnone := LiveBook.exec_eq_none ht
  have hexec : b.exec op = .error .poolExhausted ↔ A.exec op = none := by
    rcases hspec with ⟨hb, hA⟩ | ⟨hpool, -⟩ | ⟨reply, b', A', hb, hA, -⟩
    · simp [hb, hA]
    · exact absurd hpool id
    · simp [hb, hA]
  refine ⟨m, hm, (acquire_invalid_iff hp.moved.rep).trans hfull, ?_, ?_, ?_⟩
  · rw [hexec, hnone, hfull, hp.quantity]
  · intro hfreed
    have hne : t.left.free ≠ [] := by
      rw [hfree]
      rcases hfreed with hfreed | hop
      · rw [filledOut_eq hp ht] at hfreed
        simp [hfreed]
      · obtain ⟨i, hi⟩ := Option.ne_none_iff_exists'.mp hop
        obtain ⟨rest, hrest⟩ := hhandle i hi
        simp [hrest]
    rcases hspec with ⟨-, hA⟩ | ⟨hpool, -⟩ | ⟨reply, b', -, hb, -⟩
    · exact absurd (hnone.mp hA).2.2 hne
    · exact absurd hpool id
    · exact ⟨reply, b', hb⟩
  · intro i hi out b' hb hq
    rcases hspec with ⟨hb', -⟩ | ⟨hpool, -⟩ | ⟨reply, b'', A', hb', hA, -⟩
    · rw [hb] at hb'
      cases hb'
    · exact absurd hpool id
    rw [hb] at hb'
    obtain ⟨rfl, rfl⟩ := Prod.mk.inj (Except.ok.inj hb')
    rw [hp.quantity] at hq
    rcases LiveBook.exec_cases hA ht with ⟨-, -, hzero⟩ | ⟨k, -, -, -, hrest⟩
    · obtain ⟨m', hm', -, hrem, -⟩ := exec_matching hb
      rw [hm] at hm'
      obtain rfl := Except.ok.inj hm'
      rw [hzero ?_, hp.quantity] at hrem
      · exact absurd hrem.symm hq
      · cases op with
        | modify handle side price quantity timestamp => simpa [LiveBook.ticket, Op.Live] using hlive'
        | cancel handle =>
          obtain ⟨r, -, hb⟩ := bind_eq_ok.mp hb
          cases hb
        | limit | market => cases hi
    · obtain ⟨j, rest, hj, hout, -⟩ := LiveBook.rest_cases hrest
      obtain ⟨rest', hrest'⟩ := hhandle i hi
      rw [hfree, hrest'] at hj
      change out.handle = UInt32.ofNat j at hout
      rw [hout, filledOut_eq hp ht, ← List.head?_reverse]
      cases hr : (freed t.fills).reverse with
      | nil =>
        rw [hr, List.nil_append] at hj
        rw [← (List.cons.inj hj).1]
        simp
      | cons k ks =>
        rw [hr, List.cons_append] at hj
        rw [← (List.cons.inj hj).1]
        rfl

theorem exhaustion_exact_modify : ∃ out,
    sample.exec (.modify 3 .buy 101 9 5) = .ok (.added out, sample.after (.modify 3 .buy 101 9 5)) ∧
      out.handle = 1 := by
  have hlive : ∀ i ∈ Op.handle (.modify 3 .buy 101 9 5), sample.Resting i.toNat := by
    rintro i hi
    obtain rfl := Option.some.inj hi
    exact ⟨.buy, 100, 100, by decide +kernel, by decide +kernel⟩
  obtain ⟨m, hm, -, -, hok, hhandle⟩ := exhaustion_exact (by norm_num) reach_sample hlive
    (by simp [Op.price, kBitCount])
  obtain ⟨reply, b', hb⟩ := hok (Or.inr (by simp [Op.handle]))
  have hmatch (f : MatchState ArraySideBook ℕ → Bool)
      (h : ((sample.matching (.modify 3 .buy 101 9 5)).toOption.map f) = some true) : f m = true := by
    rw [hm] at h
    exact Option.some.inj h
  cases reply with
  | cancelled code =>
    obtain ⟨r, -, hb⟩ := bind_eq_ok.mp hb
    cases hb
  | added out =>
    rw [after_eq hb]
    refine ⟨out, hb, ?_⟩
    have hq : m.quantity ≠ 0 := by simpa using hmatch (fun m => m.quantity ≠ 0) (by decide +kernel)
    have hf : filledOut m = [1] := by simpa using hmatch (fun m => filledOut m = [1]) (by decide +kernel)
    rw [hhandle 3 rfl out b' hb hq, hf]
    rfl

end ArrayBook

end Llmes
