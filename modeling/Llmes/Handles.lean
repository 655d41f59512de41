import Llmes.Invariants
import Llmes.Transition

namespace Llmes

open OrderBook

structure Event where
  reply : Reply
  makers : List ℕ
  deriving DecidableEq

namespace Event

def volume (ev : Event) (i : ℕ) : ℕ :=
  (((ev.reply.trades.zip ev.makers).filter (fun x => x.2 = i)).map (fun x => x.1.quantity.toNat)).sum

end Event

namespace ArrayBook

def traced (b : ArrayBook) (op : Op) : Exec (Event × ArrayBook) := do
  let m ← b.matching op
  let r ← b.exec op
  pure (⟨r.1, m.makers⟩, r.2)

def ticket (b : ArrayBook) : Op → Option Ticket
  | .limit orderId side price _ timestamp => some ⟨orderId, side, price, timestamp⟩
  | .modify h side price _ timestamp => some ⟨(b.pool.slots h.toNat).id, side, price, timestamp⟩
  | _ => none

def volume (i : ℕ) (l : List (Op × Event)) : ℕ := (l.map (fun x => x.2.volume i)).sum

structure Holds (b : ArrayBook) (h : OrderHandle) (k : Ticket) (quantity : ℕ) : Prop where
  resting : b.Resting h.toNat
  resolve : b.pool.resolve h = .ok h.toNat
  id : (b.pool.slots h.toNat).id = k.id
  price : (b.pool.slots h.toNat).price = k.price
  timestamp : (b.pool.slots h.toNat).timestamp = k.timestamp
  side : ∃ r, (b.pool.slots h.toNat).parentLevel = some (k.side, r)
  quantity : (b.pool.slots h.toNat).quantity.toNat = quantity

variable {b b' : ArrayBook} {A : LiveBook} {op : Op} {ev : Event}

theorem traced_after (h : (b.traced op).toOption.map Prod.fst = some ev) :
    b.traced op = .ok (ev, b.after op) := by
  cases ht : b.traced op with
  | error e => simp [ht, Except.toOption] at h
  | ok r =>
    simp only [ht, Except.toOption, Option.map_some, Option.some.injEq] at h
    obtain ⟨m, -, hr⟩ := bind_eq_ok.mp ht
    obtain ⟨⟨reply, b'⟩, hb, hr⟩ := bind_eq_ok.mp hr
    obtain rfl := Except.ok.inj hr
    rw [← h, after_eq hb]

theorem ticket_eq (h : Rep b A) (hlive : op.Live A) : b.ticket op = A.ticket op := by
  cases op with
  | modify handle side price quantity timestamp =>
    obtain ⟨x, b₁, hx, -, -, hid, -, -⟩ := h.remove_live hlive
    rw [ticket, LiveBook.ticket, hx, hid]
    rfl
  | _ => rfl

theorem volume_trades (orderId : UInt64) (fills : List Fill) (i : ℕ) {reply : Reply}
    (h : reply.trades = fills.map (Fill.trade orderId)) :
    (Event.mk reply (fills.map (fun f => f.maker.slot))).volume i = Llmes.volume i fills := by
  simp only [Event.volume, Llmes.volume, h, List.zip_map', List.filter_map, List.map_map]
  rfl

structure Seen (A : LiveBook) (op : Op) (ev : Event) (A' : LiveBook) : Prop where
  maker : ∀ i ∈ ev.makers, ∃ s, ∃ e ∈ A.orders s, e.slot = i ∧ ∀ h ∈ op.handle, h.toNat ≠ i
  origin : ∀ s, ∀ e' ∈ A'.orders s, (∃ e ∈ A.orders s, e.slot = e'.slot ∧ ∀ h ∈ op.handle, h.toNat ≠ e.slot) ∨
    ev.reply.handle.toNat = e'.slot
  track : ∀ s, ∀ e ∈ A.orders s, (∀ h ∈ op.handle, h.toNat ≠ e.slot) →
    (∃ e' ∈ A'.orders s, e.Continues e' ∧ e'.quantity.toNat + ev.volume e.slot = e.quantity.toNat ∧
      ev.reply.handle.toNat ≠ e.slot) ∨
    (ev.volume e.slot = e.quantity.toNat ∧
      ∀ s', ∀ e' ∈ A'.orders s', e'.slot = e.slot → ev.reply.handle.toNat = e.slot)
  untouched : ∀ h ∈ op.handle, ev.volume h.toNat = 0
  placed : ∀ k, A.ticket op = some k → ev.reply.remaining ≠ 0 →
    k.entry ev.reply.handle.toNat ev.reply.remaining ∈ A'.orders k.side

theorem traced_spec (hs : InScope b op) (h : Rep b A) :
    ∃ ev b' A', traced b op = .ok (ev, b') ∧ b.exec op = .ok (ev.reply, b') ∧
      Moved op.price b b' A' ∧
      Seen A op ev A' := by
  have hlive := (h.live_iff op).mpr hs.live
  obtain ⟨reply, b', A', hb, hA, hmoved⟩ := hs.exec h
  obtain ⟨m, t, hm, ht, hphase⟩ := matching_spec h op hlive
  obtain ⟨m', hm', htrades, -, -⟩ := exec_matching hb
  obtain rfl : m = m' := Except.ok.inj (hm.symm.trans hm')
  have htraffic := matching_traffic h ht
  have hmid := hphase.moved.rep
  have hvol (i : ℕ) : (Event.mk reply m.makers).volume i = Llmes.volume i t.fills := by
    rw [hphase.makers]
    exact volume_trades _ _ _ (htrades.trans hphase.trades)
  have hbound {s : Side} {e : Entry} (he : e ∈ t.left.orders s) : e.slot < 2 ^ 32 - 1 :=
    (hmid.slot_lt_max (LiveBook.slot_mem_of_order he)).1
  have hmaker : ∀ i ∈ m.makers, ∃ s, ∃ e ∈ A.orders s, e.slot = i ∧ ∀ h ∈ op.handle, h.toNat ≠ i := by
    intro i hi
    rw [hphase.makers] at hi
    obtain ⟨f, hf, rfl⟩ := List.mem_map.mp hi
    obtain ⟨s, he, hne⟩ := htraffic.maker f hf
    exact ⟨s, f.maker, he, rfl, hne⟩
  have huntouched : ∀ h ∈ op.handle, (Event.mk reply m.makers).volume h.toNat = 0 := by
    intro h hh
    rw [hvol]
    apply volume_eq_zero
    intro f hf heq
    obtain ⟨s, -, hne⟩ := htraffic.maker f hf
    exact hne h hh heq.symm
  refine ⟨⟨reply, m.makers⟩, b', A', by simp only [traced, hm, hb, ok_bind, pure_eq_ok], hb, hmoved, ?_⟩
  rcases LiveBook.exec_cases hA ht with ⟨rfl, hhandle, hzero⟩ | ⟨k, hk, hq, hrem, hrest⟩
  · have hinvalid {s : Side} {e : Entry} (he : e ∈ t.left.orders s) : reply.handle.toNat ≠ e.slot := by
      have := hbound he
      rw [hhandle]
      simp only [kInvalidHandle, UInt32.reduceToNat]
      omega
    refine ⟨hmaker, ?_, ?_, huntouched, ?_⟩
    · intro s e' he'
      obtain ⟨e, he, hc, hne⟩ := htraffic.origin s e' he'
      exact Or.inl ⟨e, he, hc.slot.symm, hne⟩
    · intro s e he hne
      rcases htraffic.track s e he hne with ⟨e', he', hc, hsum⟩ | ⟨hsum, hgone⟩
      · refine Or.inl ⟨e', he', hc, by rwa [hvol], ?_⟩
        rw [← hc.slot]
        exact hinvalid he'
      · refine Or.inr ⟨by rwa [hvol], fun s' e' he' heq => ?_⟩
        exact absurd heq (hgone s' e' he')
    · intro k hk hne
      exact absurd (hzero (by rw [hk]; simp)) hne
  · obtain ⟨i, free, hfree, hhandle, hmem⟩ := LiveBook.rest_cases hrest
    obtain ⟨hislot, -, hilive⟩ := hmid.free_cons hfree
    have hi : reply.handle.toNat = i := by
      rw [hhandle]
      exact (Rep.ofNat_ne_invalid (hmid.slot_lt_max hislot).1).2
    have hinvalid {s : Side} {e : Entry} (he : e ∈ t.left.orders s) : i ≠ e.slot := by
      obtain ⟨p, hp⟩ := LiveBook.mem_orders.mp he
      exact (hilive s p e hp).symm
    refine ⟨hmaker, ?_, ?_, huntouched, ?_⟩
    · intro s e' he'
      rcases (hmem s e').mp he' with he' | ⟨-, rfl⟩
      · obtain ⟨e, he, hc, hne⟩ := htraffic.origin s e' he'
        exact Or.inl ⟨e, he, hc.slot.symm, hne⟩
      · exact Or.inr hi
    · intro s e he hne
      rcases htraffic.track s e he hne with ⟨e', he', hc, hsum⟩ | ⟨hsum, hgone⟩
      · refine Or.inl ⟨e', (hmem s e').mpr (Or.inl he'), hc, by rwa [hvol], ?_⟩
        rw [hi, ← hc.slot]
        exact hinvalid he'
      · refine Or.inr ⟨by rwa [hvol], fun s' e' he' heq => ?_⟩
        rcases (hmem s' e').mp he' with he' | ⟨-, rfl⟩
        · exact absurd heq (hgone s' e' he')
        · exact hi.trans heq
    · intro k' hk' _
      obtain rfl := Option.some.inj (hk.symm.trans hk')
      change k.entry reply.handle.toNat reply.remaining ∈ A'.orders k.side
      rw [hi, hrem]
      exact (hmem _ _).mpr (Or.inr ⟨rfl, rfl⟩)

def Alive (b : ArrayBook) (h : OrderHandle) (k : Ticket) (quantity : ℕ) : Prop :=
  ∃ A q, Rep b A ∧ k.entry h.toNat q ∈ A.orders k.side ∧ q.toNat = quantity

def Gone (b : ArrayBook) (h : OrderHandle) : Prop :=
  ∃ A, Rep b A ∧ ∀ s, ∀ e ∈ A.orders s, e.slot ≠ h.toNat

theorem Alive.holds {h : OrderHandle} {k : Ticket} {quantity : ℕ} (ha : Alive b h k quantity) :
    Holds b h k quantity := by
  obtain ⟨A, q, hrep, he, rfl⟩ := ha
  obtain ⟨-, r, -, hpay, -⟩ := hrep.order_spec he
  obtain ⟨hid, hprice, hquantity, htimestamp, hparent⟩ := payload_fields hpay
  refine ⟨?_, ?_, hid, hprice, htimestamp, ⟨r, hparent⟩, congrArg UInt64.toNat hquantity⟩
  · rw [hrep.resting_iff]
    exact fun hn => LiveBook.locate_eq_none.mp hn _ _ he rfl
  · exact hrep.resolve_ok (LiveBook.slot_mem_of_order he)

theorem Gone.not_resting {h : OrderHandle} (hg : Gone b h) : ¬ b.Resting h.toNat := by
  obtain ⟨A, hrep, hgone⟩ := hg
  rw [hrep.resting_iff, not_not, LiveBook.locate_eq_none]
  exact hgone

theorem Alive.step {h : OrderHandle} {k : Ticket} {quantity : ℕ} (ha : Alive b h k quantity)
    (hs : InScope b op) (ht : traced b op = .ok (ev, b')) (hop : op.handle ≠ some h) :
    (Alive b' h k (quantity - ev.volume h.toNat) ∧ ev.volume h.toNat < quantity ∧ ev.reply.handle ≠ h) ∨
    (ev.volume h.toNat = quantity ∧ (ev.reply.handle = h ∨ Gone b' h)) := by
  obtain ⟨A, q, hrep, he, rfl⟩ := ha
  obtain ⟨ev', b'', A', ht', -, hmoved, hseen⟩ := traced_spec hs hrep
  obtain ⟨rfl, rfl⟩ := Prod.mk.inj (Except.ok.inj (ht.symm.trans ht'))
  have hne : ∀ i ∈ op.handle, i.toNat ≠ (k.entry h.toNat q).slot := by
    intro i hi heq
    exact hop (by rw [hi, UInt32.toNat_inj.mp heq])
  rcases hseen.track k.side _ he hne with ⟨e', he', hc, hsum, hhandle⟩ | ⟨hsum, hgone⟩
  · left
    have hentry : e' = k.entry h.toNat e'.quantity := by
      obtain ⟨slot, id, price, quantity, timestamp⟩ := e'
      obtain ⟨rfl, rfl, rfl, rfl⟩ := hc
      rfl
    have hpos := toNat_ne_zero.mp (hmoved.rep.sound.order he').2
    simp only [Ticket.entry] at hsum
    refine ⟨⟨A', e'.quantity, hmoved.rep, hentry ▸ he', by omega⟩, by omega, ?_⟩
    exact fun heq => hhandle (congrArg UInt32.toNat heq)
  · right
    refine ⟨hsum, ?_⟩
    by_cases heq : ev.reply.handle = h
    · exact Or.inl heq
    · refine Or.inr ⟨A', hmoved.rep, fun s e' he' hslot => heq ?_⟩
      exact UInt32.toNat_inj.mp (hgone s e' he' hslot)

theorem gone_of_handle {h : OrderHandle} {A : LiveBook} (hrep : Rep b A) (hs : InScope b op)
    (ht : traced b op = .ok (ev, b')) (hop : op.handle = some h) :
    ev.volume h.toNat = 0 ∧ (ev.reply.handle = h ∨ Gone b' h) := by
  obtain ⟨ev', b'', A', ht', -, hmoved, hseen⟩ := traced_spec hs hrep
  obtain ⟨rfl, rfl⟩ := Prod.mk.inj (Except.ok.inj (ht.symm.trans ht'))
  refine ⟨hseen.untouched h hop, ?_⟩
  by_cases heq : ev.reply.handle = h
  · exact Or.inl heq
  · refine Or.inr ⟨A', hmoved.rep, fun s e' he' hslot => ?_⟩
    rcases hseen.origin s e' he' with ⟨e, -, hes, hne⟩ | hnew
    · exact hne h hop (hslot.symm.trans hes.symm)
    · exact heq (UInt32.toNat_inj.mp (hnew.trans hslot))

theorem Gone.step {h : OrderHandle} (hg : Gone b h) (hs : InScope b op)
    (ht : traced b op = .ok (ev, b')) :
    h.toNat ∉ ev.makers ∧ (ev.reply.handle = h ∨ Gone b' h) := by
  obtain ⟨A, hrep, hgone⟩ := hg
  obtain ⟨ev', b'', A', ht', -, hmoved, hseen⟩ := traced_spec hs hrep
  obtain ⟨rfl, rfl⟩ := Prod.mk.inj (Except.ok.inj (ht.symm.trans ht'))
  refine ⟨fun hm => ?_, ?_⟩
  · obtain ⟨s, e, he, hslot, -⟩ := hseen.maker _ hm
    exact hgone s e he hslot
  · by_cases heq : ev.reply.handle = h
    · exact Or.inl heq
    · refine Or.inr ⟨A', hmoved.rep, fun s e' he' hslot => ?_⟩
      rcases hseen.origin s e' he' with ⟨e, he, hes, -⟩ | hnew
      · exact hgone s e he (hes.trans hslot)
      · exact heq (UInt32.toNat_inj.mp (hnew.trans hslot))

def Untouched (h : OrderHandle) (l : List (Op × Event)) : Prop := ∀ x ∈ l, x.1.handle ≠ some h

def Withheld (h : OrderHandle) (l : List (Op × Event)) : Prop := ∀ x ∈ l, x.2.reply.handle ≠ h

@[simp] theorem volume_nil (i : ℕ) : volume i [] = 0 := rfl

@[simp] theorem volume_cons (i : ℕ) (x : Op × Event) (l : List (Op × Event)) :
    volume i (x :: l) = x.2.volume i + volume i l := by
  simp [volume]

theorem Alive.run {h : OrderHandle} {k : Ticket} {quantity : ℕ} {l : List (Op × Event)}
    (hrun : Machine.Run traced InScope b l b') (ha : Alive b h k quantity) (hl : Untouched h l)
    (hv : volume h.toNat l < quantity) :
    Alive b' h k (quantity - volume h.toNat l) ∧ Withheld h l := by
  induction hrun generalizing quantity with
  | nil s => exact ⟨ha, by simp [Withheld]⟩
  | @cons s s' s'' op ev l hs ht hrun ih =>
    rw [volume_cons] at hv ⊢
    rcases ha.step hs ht (hl (op, ev) (by simp)) with ⟨ha', hlt, hne⟩ | ⟨heq, -⟩
    · obtain ⟨hfinal, hwith⟩ := ih ha' (fun x hx => hl x (by simp [hx])) (by dsimp only at hv; omega)
      refine ⟨?_, ?_⟩
      · rw [Nat.sub_sub] at hfinal
        exact hfinal
      · intro x hx
        rcases List.mem_cons.mp hx with rfl | hx
        · exact hne
        · exact hwith x hx
    · dsimp only at hv
      omega

theorem Gone.run {h : OrderHandle} {l : List (Op × Event)}
    (hrun : Machine.Run traced InScope b l b') (hg : Gone b h) (hl : Withheld h l) :
    Gone b' h ∧ ∀ x ∈ l, h.toNat ∉ x.2.makers := by
  induction hrun with
  | nil s => exact ⟨hg, by simp⟩
  | @cons s s' s'' op ev l hs ht hrun ih =>
    obtain ⟨hm, hnew | hg'⟩ := hg.step hs ht
    · exact absurd hnew (hl (op, ev) (by simp))
    · obtain ⟨hfinal, hmakers⟩ := ih hg' (fun x hx => hl x (by simp [hx]))
      refine ⟨hfinal, fun x hx => ?_⟩
      rcases List.mem_cons.mp hx with rfl | hx
      · exact hm
      · exact hmakers x hx

theorem handles_nodup (h : Rep b A) : ((b.resting .buy ++ b.resting .sell).map UInt32.ofNat).Nodup := by
  have hperm := (resting_perm h .buy).append (resting_perm h .sell)
  rw [(hperm.map _).nodup_iff]
  apply List.Nodup.map_on ?_ (List.nodup_append.mp h.nodup).2.1
  have hbound : ∀ i ∈ (A.orders .buy).map Entry.slot ++ (A.orders .sell).map Entry.slot, i < 2 ^ 32 - 1 :=
    fun i hi => (h.slot_lt_max (List.mem_append_right _ hi)).1
  intro i hi j hj heq
  rw [← (Rep.ofNat_ne_invalid (hbound i hi)).2, heq, (Rep.ofNat_ne_invalid (hbound j hj)).2]

/-- A handle names one order from the call that returns it until the order is cancelled, modified or
filled, and no order after that until it is returned again. -/
theorem handle_stable {capacity : ℕ} {b₀ b₁ : ArrayBook} {op₀ : Op} {out : AddResult} {k : Ticket}
    (h₀ : Reach capacity b₀) (hs₀ : InScope b₀ op₀) (hk : b₀.ticket op₀ = some k)
    (hadd : b₀.exec op₀ = .ok (.added out, b₁)) (hrem : out.remainingQuantity ≠ 0) :
    (∀ l b, Machine.Run traced InScope b₁ l b → Untouched out.handle l →
      volume out.handle.toNat l < out.remainingQuantity.toNat →
      Holds b out.handle k (out.remainingQuantity.toNat - volume out.handle.toNat l) ∧
        Withheld out.handle l) ∧
    (∀ l x b, Machine.Run traced InScope b₁ (l ++ [x]) b → Untouched out.handle l →
      volume out.handle.toNat l < out.remainingQuantity.toNat →
      (x.1.handle = some out.handle ∨
        out.remainingQuantity.toNat ≤ volume out.handle.toNat (l ++ [x])) →
      volume out.handle.toNat (l ++ [x]) ≤ out.remainingQuantity.toNat ∧
      (x.2.reply.handle ≠ out.handle → ∀ l' b', Machine.Run traced InScope b l' b' →
        Withheld out.handle l' →
          ¬ b'.Resting out.handle.toNat ∧ ∀ y ∈ l', out.handle.toNat ∉ y.2.makers)) ∧
    (∀ b, Reach capacity b → ((b.resting .buy ++ b.resting .sell).map UInt32.ofNat).Nodup) := by
  obtain ⟨A, hrep⟩ := h₀.good.rep
  have halive : Alive b₁ out.handle k out.remainingQuantity.toNat := by
    obtain ⟨ev, b', A', -, hb', hmoved, hseen⟩ := traced_spec hs₀ hrep
    obtain ⟨hreply, rfl⟩ := Prod.mk.inj (Except.ok.inj (hadd.symm.trans hb'))
    have hk' : A.ticket op₀ = some k := by
      rw [← ticket_eq hrep ((hrep.live_iff op₀).mpr hs₀.live), hk]
    have hplaced := hseen.placed k hk'
    rw [← hreply] at hplaced
    exact ⟨A', out.remainingQuantity, hmoved.rep, hplaced hrem, rfl⟩
  refine ⟨?_, ?_, ?_⟩
  · intro l b hrun hl hv
    obtain ⟨ha, hw⟩ := halive.run hrun hl hv
    exact ⟨ha.holds, hw⟩
  · intro l x b hrun hl hv hend
    obtain ⟨bm, hrunl, hrunx⟩ := hrun.split
    obtain ⟨ha, -⟩ := halive.run hrunl hl hv
    have hvol : volume out.handle.toNat (l ++ [x]) =
        volume out.handle.toNat l + x.2.volume out.handle.toNat := by
      simp [volume]
    cases hrunx with
    | @cons _ _ _ op ev _ hs ht hnil =>
      cases hnil
      have hgone : ev.volume out.handle.toNat ≤ out.remainingQuantity.toNat - volume out.handle.toNat l ∧
          (ev.reply.handle = out.handle ∨ Gone b out.handle) := by
        by_cases hop : op.handle = some out.handle
        · obtain ⟨Am, qm, hrepm, -⟩ := ha
          obtain ⟨hzero, hg⟩ := gone_of_handle hrepm hs ht hop
          exact ⟨by omega, hg⟩
        · rcases ha.step hs ht hop with ⟨-, hlt, -⟩ | ⟨heq, hg⟩
          · rcases hend with hend | hend
            · exact absurd hend hop
            · dsimp only at hvol
              omega
          · exact ⟨by omega, hg⟩
      refine ⟨by dsimp only at hvol; omega, fun hne l' b' hrun' hw => ?_⟩
      rcases hgone.2 with hnew | hg
      · exact absurd hnew hne
      · obtain ⟨hg', hmakers⟩ := hg.run hrun' hw
        exact ⟨hg'.not_resting, hmakers⟩
  · intro b hb
    obtain ⟨B, hB⟩ := hb.good.rep
    exact handles_nodup hB

theorem handle_stable_partial :
    Holds (((init 4).after (.limit 1 .buy 100 5 0)).after (.limit 2 .sell 100 3 1)) 3
      ⟨1, .buy, 100, 0⟩ 2 := by
  have h₀ : Reach 4 (init 4) := ⟨[], .nil _⟩
  have hs₀ : InScope (init 4) (.limit 1 .buy 100 5 0) :=
    .of_add rfl (by simp [Op.price, kBitCount]) (by decide +kernel)
  have hadd : (init 4).exec (.limit 1 .buy 100 5 0) =
      .ok (.added { initialQuantity := 5, remainingQuantity := 5, handle := 3 },
        (init 4).after (.limit 1 .buy 100 5 0)) := exec_after (by decide +kernel)
  have hs₁ : InScope ((init 4).after (.limit 1 .buy 100 5 0)) (.limit 2 .sell 100 3 1) :=
    .of_add rfl (by simp [Op.price, kBitCount]) (by decide +kernel)
  have ht : traced ((init 4).after (.limit 1 .buy 100 5 0)) (.limit 2 .sell 100 3 1) =
      .ok (⟨.added { initialQuantity := 3, filledQuantity := 3, trades := [⟨2, 1, 100, 3⟩] }, [3]⟩,
        ((init 4).after (.limit 1 .buy 100 5 0)).after (.limit 2 .sell 100 3 1)) :=
    traced_after (by decide +kernel)
  exact ((handle_stable h₀ hs₀ rfl hadd (by decide)).1 _ _ (.cons hs₁ ht (.nil _))
    (by simp [Untouched, Op.handle]) (by decide)).1

end ArrayBook

end Llmes
