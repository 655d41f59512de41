import Llmes.Hft.Journal

namespace Llmes

open BookSide BookView LawfulBookSide OrderBook

namespace LiveBook

variable {A A' : LiveBook}

theorem take_level {taker : Side} {cross : Int → Bool} {q : UInt64} {y : Side × Entry}
    (hy : y ∈ (A.take taker cross q).left.live) : ∃ z ∈ A.live, z.1 = y.1 ∧ z.2.price = y.2.price := by
  rw [mem_live] at hy
  by_cases hs : y.1 = taker.opposite
  · rw [hs] at hy
    obtain ⟨e, he, hc⟩ := (consumed_take taker cross q).origin hy
    exact ⟨(taker.opposite, e), mem_live.mpr he, hs.symm, hc.price.symm⟩
  · rw [take_orders_of_ne taker cross q hs] at hy
    exact ⟨y, mem_live.mpr hy, rfl, rfl⟩

theorem exec_level (h : A.Sound) {op : Op} {reply : Reply} {t : Taken LiveBook} (ht : A.matching op = some t)
    (hexec : A.exec op = some (reply, A')) {y : Side × Entry} (hy : y ∈ A'.live) :
    (∃ z ∈ A.live, z.1 = y.1 ∧ z.2.price = y.2.price) ∨
      reply.remaining ≠ 0 ∧ ∃ k, A.ticket op = some k ∧ k.side = y.1 ∧ k.price = y.2.price := by
  have hleft {y : Side × Entry} (hy : y ∈ t.left.live) : ∃ z ∈ A.live, z.1 = y.1 ∧ z.2.price = y.2.price := by
    obtain ⟨A₁, side, cross, rfl, ⟨-, rfl⟩ | ⟨i, x, -, hx, rfl⟩⟩ := matching_eq_take ht
    · exact take_level hy
    · obtain ⟨z, hz, hlevel⟩ := take_level hy
      have hperm := live_remove h (locate_eq_some hx).1
      exact ⟨z, hperm.mem_iff.mpr (List.mem_cons_of_mem _ hz), hlevel⟩
  rcases exec_cases hexec ht with ⟨rfl, -, -⟩ | ⟨k, hk, hq, hrem, hrest⟩
  · exact Or.inl (hleft hy)
  · obtain ⟨i, -, hlive⟩ := live_rest hrest
    rcases List.mem_cons.mp (hlive.mem_iff.mp hy) with rfl | hy
    · exact Or.inr ⟨hrem ▸ hq, k, hk, rfl, rfl⟩
    · exact Or.inl (hleft hy)

end LiveBook

namespace Hft

open Outcome Tracking Attribution

variable {capacity n : ℕ} {A : LiveBook} {b b' : ArrayBook} {c : Call} {cs : List Call}

theorem Targets.live (hrep : Rep b A) {op : PendingOp} (h : Targets b op) : op.op.Live A := by
  rw [Targets] at h
  rw [PendingOp.op]
  cases htype : op.type with
  | limitAdd => exact True.intro
  | market => exact True.intro
  | cancel => exact hrep.resting_iff.mp (h (Or.inl htype)).1
  | modify => exact hrep.resting_iff.mp (h (Or.inr htype)).1

theorem Records.step (hrep : Rep c.before A) {op : PendingOp} (h : Records c op)
    (hexec : c.before.exec c.op = .ok (c.reply, b')) :
    ∃ A', Rep b' A' ∧ ∀ l, b'.holds l = true → c.before.holds l = true ∨ c.rested = some l := by
  obtain ⟨hop, htargets⟩ := h
  have hlive := htargets.live hrep
  rw [← hop] at hlive
  obtain ⟨A', hA, hmoved⟩ := (ArrayBook.exec_ends hrep c.op hlive).of_ok hexec
  obtain ⟨-, t, -, ht, -⟩ := matching_spec hrep c.op hlive
  refine ⟨A', hmoved.rep, fun l hl => ?_⟩
  obtain ⟨e, he, hprice⟩ := ArrayBook.mem_holds.mp hl
  have hmem := (ArrayBook.live_perm hmoved.rep).mem_iff.mpr he
  rcases LiveBook.exec_level hrep.sound ht hA hmem with ⟨⟨s, z⟩, hz, rfl, hp⟩ | ⟨hr, k, hk, hside, hp⟩
  · exact Or.inl (ArrayBook.mem_holds.mpr ⟨z, (ArrayBook.live_perm hrep).mem_iff.mp hz, hp.trans hprice⟩)
  · right
    have hlevel : (k.side, k.price) = l := Prod.ext hside (hp.trans hprice)
    obtain ⟨before, op', reply⟩ := c
    cases op' with
    | limit =>
      cases hk
      exact (if_pos (UInt64.pos_iff_ne_zero.mpr hr)).trans (congrArg some hlevel)
    | modify =>
      obtain ⟨x, -, rfl⟩ := Option.map_eq_some_iff.mp hk
      exact (if_pos (UInt64.pos_iff_ne_zero.mpr hr)).trans (congrArg some hlevel)
    | market => cases hk
    | cancel => cases hk

theorem Ran.holds {ops : List PendingOp} (hran : Ran b cs b') (hrecords : List.Forall₂ Records cs ops) (hrep : Rep b A)
    {l : Level} (hl : b'.holds l = true) : b.holds l = true ∨ ∃ c ∈ cs, c.rested = some l := by
  induction hrecords generalizing b A with
  | nil =>
    obtain rfl : b' = b := hran
    exact Or.inl hl
  | @cons c op cs ops hrecord _ ih =>
    obtain ⟨rfl, b₁, hexec, hrest⟩ := hran
    obtain ⟨A₁, hrep₁, hstep⟩ := hrecord.step hrep hexec
    rcases ih hrest hrep₁ with h | ⟨c', hc', h⟩
    · exact (hstep l h).imp_right (fun h => ⟨c, List.mem_cons_self, h⟩)
    · exact Or.inr ⟨c', List.mem_cons_of_mem _ hc', h⟩

theorem Ran.before (hran : Ran b cs b') {i : ℕ} (hc : cs[i]? = some c) : Ran b (cs.take i) c.before := by
  induction cs generalizing b i with
  | nil => cases hc
  | cons c' cs ih =>
    obtain ⟨hbefore, b₁, hexec, hrest⟩ := hran
    cases i with
    | zero =>
      obtain rfl := Option.some.inj hc
      exact hbefore
    | succ i => exact ⟨hbefore, b₁, hexec, ih hrest hc⟩

section History

variable {a a' : Attribution} {xs : List (PendingOp × PendingAttribution)} {l : Level}

theorem Trail.length (h : Trail a cs xs a') : cs.length = xs.length := by
  induction h with
  | nil => rfl
  | snoc _ _ ih => rw [List.length_append, List.length_append, ih]; rfl

theorem Trail.index (h : Trail a cs xs a') : a'.attributionOpIndex = a.attributionOpIndex + cs.length := by
  induction h with
  | nil => rfl
  | snoc _ last ih =>
    rw [last.index, ih, List.length_append]
    rfl

theorem Trail.at_index (h : Trail a cs xs a') {i : ℕ} {c : Call} (hc : cs[i]? = some c) :
    ∃ x a₁ a₂, xs[i]? = some x ∧ Trail a (cs.take i) (xs.take i) a₁ ∧ Noted a₁ c x.2 a₂ := by
  induction h with
  | nil => cases hc
  | @snoc cs xs a₁ a₂ c' x init last ih =>
    have hlen := init.length
    rcases Nat.lt_trichotomy i cs.length with hi | rfl | hi
    · rw [List.getElem?_append_left hi] at hc
      obtain ⟨y, b₁, b₂, hy, htrail, hnoted⟩ := ih hc
      refine ⟨y, b₁, b₂, ?_, ?_, hnoted⟩
      · rwa [List.getElem?_append_left (hlen ▸ hi)]
      · rwa [List.take_append_of_le_length hi.le, List.take_append_of_le_length (hlen ▸ hi.le)]
    · rw [List.getElem?_concat_length] at hc
      obtain rfl := Option.some.inj hc
      refine ⟨x, a₁, a₂, ?_, ?_, last⟩
      · rw [hlen, List.getElem?_concat_length]
      · rwa [List.take_left' rfl, List.take_left' hlen.symm]
    · rw [List.getElem?_eq_none (by rw [List.length_append, List.length_singleton]; omega)] at hc
      cases hc

structure Remembered (first : Option Int) (cs : List Call) (l : Level) (t : Option Int) : Prop where
  start : ∀ k ∈ first, ∃ m, t = some m ∧ k ≤ m
  moved : ∀ (j : ℕ) c, cs[j]? = some c → l ∈ c.moved → ∃ m, t = some m ∧ (j : Int) ≤ m
  since : ∀ m ∈ t, m ∈ first ∨ ∃ (j : ℕ) (c : Call), cs[j]? = some c ∧ m = (j : Int) ∧ (l ∈ c.moved ∨ c.takesFrom = some l.1)

theorem Trail.remembered (h : Trail a cs xs a') (hzero : a.attributionOpIndex = 0)
    (hstart : ∀ k ∈ a.lastLevelTouch l.1 l.2, k ≤ 0) :
    Remembered (a.lastLevelTouch l.1 l.2) cs l (a'.lastLevelTouch l.1 l.2) := by
  induction h with
  | nil =>
    refine ⟨fun k hk => ⟨k, hk, le_rfl⟩, fun j c hj => ?_, fun m hm => Or.inl hm⟩
    rw [List.getElem?_nil] at hj
    cases hj
  | @snoc cs xs a₁ a₂ c x init last ih =>
    have hindex : a₁.attributionOpIndex = cs.length := by
      rw [init.index, hzero, Nat.zero_add]
    have hsince (j : ℕ) (c' : Call) (hj : cs[j]? = some c') : (cs ++ [c])[j]? = some c' := by
      rw [List.getElem?_append_left (List.getElem?_eq_some_iff.mp hj).1]
      exact hj
    have hlast : (cs ++ [c])[cs.length]? = some c := List.getElem?_concat_length
    rcases last.kept l with heq | ⟨hl, heq⟩
    · rw [heq]
      refine ⟨ih.start, fun j c' hj hl => ?_, fun m hm => ?_⟩
      · rcases Nat.lt_trichotomy j cs.length with hlt | rfl | hlt
        · rw [List.getElem?_append_left hlt] at hj
          exact ih.moved j c' hj hl
        · obtain rfl := Option.some.inj (hlast.symm.trans hj)
          refine ⟨a₁.attributionOpIndex, heq ▸ last.moved l hl, ?_⟩
          rw [hindex]
        · rw [List.getElem?_eq_none (by rw [List.length_append, List.length_singleton]; omega)] at hj
          cases hj
      · apply (ih.since m hm).imp_right
        rintro ⟨j, c', hj, hm, hl⟩
        exact ⟨j, c', hsince j c' hj, hm, hl⟩
    · rw [heq, hindex]
      refine ⟨fun k hk => ⟨_, rfl, (hstart k hk).trans (Int.natCast_nonneg _)⟩, fun j c' hj _ => ⟨_, rfl, ?_⟩, ?_⟩
      · have hlt := (List.getElem?_eq_some_iff.mp hj).1
        rw [List.length_append, List.length_singleton] at hlt
        omega
      · rintro m ⟨⟩
        exact Or.inr ⟨cs.length, c, hlast, rfl, hl⟩

theorem toNat_ofInt {z : Int} {k : ℕ} (hz : z = k) (hk : k < 2 ^ 64) : (UInt64.ofInt z).toNat = k := by
  subst hz
  rw [UInt64.ofInt, UInt64.toNat_ofNat_of_lt']
  · omega
  · rw [UInt64.size]
    omega

structure Begun (b : ArrayBook) (a : Attribution) : Prop where
  index : a.attributionOpIndex = 0
  last : ∀ l : Level, a.lastLevelTouch l.1 l.2 = if b.holds l then some (-1) else none

structure LevelReuse (b : ArrayBook) (cs : List Call) (i : ℕ) (l : Level) (distance : UInt64) : Prop where
  held : ∀ c, cs[i]? = some c → c.before.holds l = true → distance.toNat ≤ i + 1
  moved : ∀ j < i, ∀ c, cs[j]? = some c → l ∈ c.moved → distance.toNat ≤ i - j
  since : distance ≠ kNoPreviousLevelTouch → (b.holds l = true ∧ distance.toNat = i + 1) ∨
    ∃ j < i, ∃ c, cs[j]? = some c ∧ distance.toNat = i - j ∧ (l ∈ c.moved ∨ c.takesFrom = some l.1)

theorem mem_moved_of_rested (h : c.rested = some l) : l ∈ c.moved := Or.inr (Or.inl h)

theorem Trail.levelReuse (h : Trail a cs xs a') (hbegun : Begun b a) {ops : List PendingOp} (hran : Ran b cs b')
    (hrecords : List.Forall₂ Records cs ops) (hrep : Rep b A) (hlen : cs.length < 2 ^ 63) {i : ℕ}
    (hc : cs[i]? = some c) (hl : l ∈ c.measured) :
    ∃ x, xs[i]? = some x ∧ LevelReuse b cs i l x.2.levelReuseDistanceOps := by
  obtain ⟨x, a₁, a₂, hx, htrail, hnoted⟩ := h.at_index hc
  have hi : i < cs.length := (List.getElem?_eq_some_iff.mp hc).1
  have hindex : a₁.attributionOpIndex = i := by
    rw [htrail.index, hbegun.index, List.length_take_of_le hi.le, Nat.zero_add]
  have hrem := htrail.remembered (l := l) hbegun.index (by
    intro k hk
    rw [hbegun.last] at hk
    split at hk
    · cases hk
      decide
    · cases hk)
  have htake {j : ℕ} (hj : j < i) : (cs.take i)[j]? = cs[j]? := List.getElem?_take_of_lt hj
  have htake' {j : ℕ} {c : Call} (hj : (cs.take i)[j]? = some c) : j < i ∧ cs[j]? = some c := by
    have hlt := (List.getElem?_eq_some_iff.mp hj).1
    rw [List.length_take_of_le hi.le] at hlt
    exact ⟨hlt, by rwa [← htake hlt]⟩
  refine ⟨x, hx, ?_⟩
  rw [hnoted.measured l hl]
  have hreuse : a₁.reuse l =
      (a₁.lastLevelTouch l.1 l.2).elim kNoPreviousLevelTouch (fun m => UInt64.ofInt (i - m)) := by
    rw [reuse, annotateLevelReuse, ← hindex]
    cases a₁.lastLevelTouch l.1 l.2 <;> rfl
  rw [hreuse]
  have hheld (hholds : c.before.holds l = true) : ∃ m, a₁.lastLevelTouch l.1 l.2 = some m ∧ -1 ≤ m := by
    rcases (hran.before hc).holds (List.forall₂_take i hrecords) hrep hholds with hb | ⟨c', hc', hrested⟩
    · exact hrem.start (-1) ((hbegun.last l).trans (if_pos hb))
    · obtain ⟨j, hj⟩ := List.mem_iff_getElem?.mp hc'
      obtain ⟨m, hm, hle⟩ := hrem.moved j c' hj (mem_moved_of_rested hrested)
      exact ⟨m, hm, by omega⟩
  cases ht : a₁.lastLevelTouch l.1 l.2 with
  | none =>
    refine ⟨fun c' hc' hholds => ?_, fun j hj c' hc' hl => ?_, fun h => absurd rfl h⟩
    · obtain rfl := Option.some.inj (hc.symm.trans hc')
      obtain ⟨m, hm, -⟩ := hheld hholds
      cases ht.symm.trans hm
    · obtain ⟨m, hm, -⟩ := hrem.moved j c' ((htake hj).trans hc') hl
      cases ht.symm.trans hm
  | some m =>
    have hm := hrem.since m ht
    have hfirst (h : m ∈ a.lastLevelTouch l.1 l.2) : b.holds l = true ∧ m = -1 := by
      rw [hbegun.last] at h
      split at h
      · next hb => exact ⟨hb, (Option.some.inj h).symm⟩
      · cases h
    have hrange : -1 ≤ m ∧ m < i := by
      rcases hm with h | ⟨j, c', hj, rfl, -⟩
      · rw [(hfirst h).2]
        omega
      · have hj := (htake' hj).1
        omega
    have hdist : (UInt64.ofInt (i - m)).toNat = (i - m).toNat := toNat_ofInt (by omega) (by omega)
    dsimp only [Option.elim]
    refine ⟨fun _ _ _ => ?_, fun j hj c' hc' hl => ?_, fun _ => ?_⟩
    · omega
    · obtain ⟨m', hm', hle⟩ := hrem.moved j c' ((htake hj).trans hc') hl
      obtain rfl := Option.some.inj (ht.symm.trans hm')
      omega
    · rcases hm with h | ⟨j, c', hj, rfl, hl⟩
      · obtain ⟨hb, rfl⟩ := hfirst h
        exact Or.inl ⟨hb, by omega⟩
      · obtain ⟨hlt, hj⟩ := htake' hj
        exact Or.inr ⟨j, hlt, c', hj, by omega, hl⟩

end History

def Call.acquired (c : Call) : Option OrderHandle :=
  match c.op with
  | .limit .. =>
    if replyCode c.reply = .success ∧ c.reply.remaining > 0 ∧ c.reply.handle ≠ kInvalidHandle then
      some c.reply.handle
    else none
  | _ => none

structure LastAcquired (cs : List Call) (h : OrderHandle) (t : Option Int) : Prop where
  never : t = none → ∀ c ∈ cs, c.acquired ≠ some h
  last : ∀ m ∈ t, ∃ (j : ℕ) (c : Call), m = j ∧ cs[j]? = some c ∧ c.acquired = some h ∧
    ∀ k > j, ∀ c', cs[k]? = some c' → c'.acquired ≠ some h

def SlotReuse (cs : List Call) (i : ℕ) (h : OrderHandle) (distance : UInt64) : Prop :=
  (distance = kNoPreviousSlotTouch ∧ ∀ c ∈ cs.take i, c.acquired ≠ some h) ∨
    ∃ j < i, ∃ c, cs[j]? = some c ∧ c.acquired = some h ∧ distance.toNat = i - j ∧
      ∀ k, j < k → k < i → ∀ c', cs[k]? = some c' → c'.acquired ≠ some h

section Slots

variable {h : OrderHandle} {t : Option Int} {s : MacroWorkload.SlotReplay} {i : ℕ} {op : PendingOp}

theorem LastAcquired.snoc (hlast : LastAcquired cs h t) (c : Call) :
    LastAcquired (cs ++ [c]) h (if c.acquired = some h then some (cs.length : Int) else t) := by
  have hend : (cs ++ [c])[cs.length]? = some c := List.getElem?_concat_length
  have hpast {k : ℕ} (hk : k > cs.length) : (cs ++ [c])[k]? = none := by
    apply List.getElem?_eq_none
    rw [List.length_append, List.length_singleton]
    omega
  split
  · next hc =>
    refine ⟨nofun, ?_⟩
    rintro m ⟨⟩
    refine ⟨cs.length, c, rfl, hend, hc, fun k hk c' hc' => ?_⟩
    rw [hpast hk] at hc'
    cases hc'
  · next hc =>
    refine ⟨fun ht c' hc' => ?_, fun m hm => ?_⟩
    · rcases List.mem_append.mp hc' with hc' | hc'
      · exact hlast.never ht c' hc'
      · exact List.mem_singleton.mp hc' ▸ hc
    · obtain ⟨j, c₀, rfl, hj, hacq, hlater⟩ := hlast.last m hm
      have hlt := (List.getElem?_eq_some_iff.mp hj).1
      refine ⟨j, c₀, rfl, (List.getElem?_append_left hlt).trans hj, hacq, fun k hk c' hc' => ?_⟩
      rcases Nat.lt_trichotomy k cs.length with hk' | rfl | hk'
      · rw [List.getElem?_append_left hk'] at hc'
        exact hlater k hk c' hc'
      · exact Option.some.inj (hend.symm.trans hc') ▸ hc
      · rw [hpast hk'] at hc'
        cases hc'

def slotDistance (i : ℕ) : Option Int → UInt64
  | none => kNoPreviousSlotTouch
  | some j => UInt64.ofInt (i - j)

theorem LastAcquired.slotReuse {ds : List Call} (hlast : LastAcquired cs h t) (hlen : cs.length < 2 ^ 63) :
    SlotReuse (cs ++ ds) cs.length h (slotDistance cs.length t) := by
  have hleft {k : ℕ} (hk : k < cs.length) : (cs ++ ds)[k]? = cs[k]? := List.getElem?_append_left hk
  cases t with
  | none =>
    refine Or.inl ⟨rfl, ?_⟩
    rw [List.take_left]
    exact hlast.never rfl
  | some m =>
    obtain ⟨j, c, rfl, hj, hacq, hlater⟩ := hlast.last m rfl
    have hlt := (List.getElem?_eq_some_iff.mp hj).1
    refine Or.inr ⟨j, hlt, c, (hleft hlt).trans hj, hacq, toNat_ofInt (by omega) (by omega), ?_⟩
    intro k hjk hk c' hc'
    exact hlater k hjk c' ((hleft hk).symm.trans hc')

theorem slotReplayStep_eq (hop : c.op = op.op)
    (hexec : s.book.exec c.op = .ok (c.reply, b')) :
    ∃ s', MacroWorkload.slotReplayStep s i op = .ok s' ∧ s'.book = b' ∧
      s'.lastSlotAcquireOp =
        (fun h => if c.acquired = some h then some (i : Int) else s.lastSlotAcquireOp h) ∧
      s'.attributions = match c.acquired with
        | none => s.attributions
        | some h => s.attributions.modify i
          (fun a => { a with orderSlotReuseDistanceOps := slotDistance i (s.lastSlotAcquireOp h) }) := by
  have hacquired : c.acquired = if op.type = .limitAdd ∧ replyCode c.reply = .success ∧ c.reply.remaining > 0 ∧
      c.reply.handle ≠ kInvalidHandle then some c.reply.handle else none := by
    rw [Call.acquired, hop, PendingOp.op]
    cases op.type <;> simp
  rw [MacroWorkload.slotReplayStep, ← hop, hexec, hacquired]
  simp only [Except.mapError, bind, Except.bind]
  split
  · refine ⟨_, rfl, rfl, ?_, ?_⟩
    · funext h
      simp only [Function.update_apply, Option.some.injEq, eq_comm]
    · dsimp only
      cases s.lastSlotAcquireOp c.reply.handle <;> rfl
  · exact ⟨_, rfl, rfl, by simp, rfl⟩

theorem slotReplay_spec {ops : List PendingOp} (hops : List.Forall₂ (fun c op => c.op = op.op) cs ops)
    (pre : List Call) (hran : Ran s.book cs b') (hlast : ∀ h, LastAcquired pre h (s.lastSlotAcquireOp h))
    (hlen : pre.length + cs.length < 2 ^ 63) :
    ∃ s', MacroWorkload.slotReplay pre.length ops s = .ok s' ∧
      s'.attributions.map (·.levelReuseDistanceOps) = s.attributions.map (·.levelReuseDistanceOps) ∧
      (∀ k < pre.length, s'.attributions[k]? = s.attributions[k]?) ∧
      ∀ k c h, cs[k]? = some c → c.acquired = some h → ∀ x ∈ s'.attributions[pre.length + k]?,
        SlotReuse (pre ++ cs) (pre.length + k) h x.orderSlotReuseDistanceOps := by
  induction hops generalizing s pre with
  | nil =>
    refine ⟨s, rfl, rfl, fun _ _ => rfl, fun k c h hk => ?_⟩
    rw [List.getElem?_nil] at hk
    cases hk
  | @cons c op cs ops hop _ ih =>
    obtain ⟨-, b₁, hexec, hrest⟩ := hran
    obtain ⟨s₁, hstep, hbook, hacquire, hattr⟩ := slotReplayStep_eq (i := pre.length) hop hexec
    have hlast₁ (h : OrderHandle) : LastAcquired (pre ++ [c]) h (s₁.lastSlotAcquireOp h) := by
      rw [hacquire]
      exact (hlast h).snoc c
    have hlength : (pre ++ [c]).length = pre.length + 1 := by
      rw [List.length_append, List.length_singleton]
    rw [List.length_cons] at hlen
    obtain ⟨s', hs', hlevel, hframe, hslots⟩ := ih (pre ++ [c]) (hbook ▸ hrest) hlast₁ (by omega)
    rw [hlength] at hs' hframe hslots
    refine ⟨s', ?_, ?_, fun k hk => ?_, fun k c' h hk hacq x hx => ?_⟩
    · rw [MacroWorkload.slotReplay, hstep]
      exact hs'
    · rw [hlevel, hattr]
      cases c.acquired with
      | none => rfl
      | some h =>
        apply List.ext_getElem?
        intro k
        rw [List.getElem?_map, List.getElem?_map, List.getElem?_modify]
        cases s.attributions[k]? with
        | none => rfl
        | some a =>
          apply congrArg some
          dsimp only
          split <;> rfl
    · rw [hframe k (Nat.lt_succ_of_lt hk), hattr]
      cases c.acquired with
      | none => rfl
      | some h => exact List.getElem?_modify_ne _ _ hk.ne'
    · cases k with
      | zero =>
        obtain rfl := Option.some.inj hk
        rw [Nat.add_zero, hframe _ (Nat.lt_succ_self _), hattr, hacq, List.getElem?_modify_eq] at hx
        obtain ⟨a, -, rfl⟩ := Option.map_eq_some_iff.mp hx
        exact (hlast h).slotReuse (by omega)
      | succ k =>
        rw [show pre.length + (k + 1) = pre.length + 1 + k by omega] at hx ⊢
        rw [List.append_cons]
        exact hslots k c' h hk hacq x hx

end Slots

end Hft

end Llmes
