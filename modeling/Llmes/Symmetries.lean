import Llmes.Relabelling

namespace Llmes

open List (Forall₂)
open BookSide BookView LawfulBookSide OrderBook

namespace Relabelling

def rename (f : ℕ → ℕ) (h : OrderHandle) : OrderHandle :=
  if h = kInvalidHandle then h else UInt32.ofNat (f h.toNat)

def answer (M : Relabelling) (f : ℕ → ℕ) (out : AddResult) : AddResult :=
  { code := out.code
    initialQuantity := M.quantity out.initialQuantity
    filledQuantity := M.quantity out.filledQuantity
    remainingQuantity := M.quantity out.remainingQuantity
    handle := rename f out.handle
    trades := out.trades.map M.trade }

def reply (M : Relabelling) (f : ℕ → ℕ) : Reply → Reply
  | .added out => .added (M.answer f out)
  | .cancelled code => .cancelled code

variable {M : Relabelling} {f : ℕ → ℕ}

theorem Handle.eq_rename (hslot : ∀ i j, M.slot i j → j = f i) {h h' : OrderHandle} (hh : M.Handle h h') :
    h' = rename f h := by
  rcases hh with ⟨rfl, rfl⟩ | ⟨hne, -, hij⟩
  · rfl
  · rw [rename, if_neg hne, ← hslot _ _ hij, UInt32.ofNat_toNat]

theorem Replies.eq_reply (hslot : ∀ i j, M.slot i j → j = f i) {r r' : Reply} (h : M.Replies r r') :
    r' = M.reply f r := by
  cases r <;> cases r' <;> try cases h
  · next out out' h₁ h₂ h₃ h₄ h₅ h₆ =>
    obtain ⟨code, initial, filled, remaining, handle, trades⟩ := out'
    simp only at h₁ h₂ h₃ h₄ h₅ h₆
    simp only [reply, answer, h₁, h₂, h₃, h₄, h₆, h₅.eq_rename hslot]
  · rfl

theorem Same.slots {A B : LiveBook} {i j : ℕ} (h : M.Same A B i j) : i ∈ A.slots ∧ j ∈ B.slots := by
  obtain ⟨s, p, xs, ys, xs', ys', e, e', -, hq, hq', -, -, -, rfl, rfl⟩ := h
  exact ⟨LiveBook.slot_mem_slots (s := s) (p := p) (by simp [hq]),
    LiveBook.slot_mem_slots (s := M.side s) (p := M.price p) (by simp [hq'])⟩

theorem rename_toNat {A B : LiveBook} (hA : Narrow A) (hB : Narrow B) {h : OrderHandle}
    (hs : M.Same A B h.toNat (f h.toNat)) : (rename f h).toNat = f h.toNat := by
  obtain ⟨hi, hj⟩ := hs.slots
  have hne : h ≠ kInvalidHandle := by
    rintro rfl
    have := hA _ hi
    simp only [kInvalidHandle, UInt32.reduceToNat] at this
    omega
  rw [rename, if_neg hne]
  exact (Rep.ofNat_ne_invalid (hB _ hj)).2

theorem one_ne_zero : (1 : UInt64) ≠ 0 := by decide

def mirror (top : Int) : Relabelling where
  swap := true
  known := Set.univ
  price p := top - p
  ordered := by
    intro p _ q _ h
    simpa using h
  id orderId := orderId
  timestamp t := t
  unit := 1
  unit_ne_zero := one_ne_zero
  slot := Eq

def shift (d : ℕ) : Relabelling where
  swap := false
  known := Set.univ
  price p := p
  ordered := by
    intro p _ q _ h
    simpa using h
  id orderId := orderId
  timestamp t := t
  unit := 1
  unit_ne_zero := one_ne_zero
  slot i j := j = i + d

def scale (k : UInt64) (hk : k ≠ 0) : Relabelling where
  swap := false
  known := Set.univ
  price p := p
  ordered := by
    intro p _ q _ h
    simpa using h
  id orderId := orderId
  timestamp t := t
  unit := k
  unit_ne_zero := hk
  slot := Eq

end Relabelling

def Op.mapHandle (name : OrderHandle → OrderHandle) : Op → Op
  | .modify h side price quantity timestamp => .modify (name h) side price quantity timestamp
  | .cancel h => .cancel (name h)
  | op => op

def Reply.mapHandle (name : OrderHandle → OrderHandle) : Reply → Reply
  | .added out => .added { out with handle := name out.handle }
  | .cancelled code => .cancelled code

def Op.scale (k : UInt64) : Op → Op
  | .limit orderId side price quantity timestamp => .limit orderId side price (quantity * k) timestamp
  | .market orderId side quantity timestamp => .market orderId side (quantity * k) timestamp
  | .modify h side price quantity timestamp => .modify h side price (quantity * k) timestamp
  | .cancel h => .cancel h

def Trade.scale (k : UInt64) (t : Trade) : Trade := { t with quantity := t.quantity * k }

def Reply.scale (k : UInt64) : Reply → Reply
  | .added out => .added { out with
      initialQuantity := out.initialQuantity * k
      filledQuantity := out.filledQuantity * k
      remainingQuantity := out.remainingQuantity * k
      trades := out.trades.map (Trade.scale k) }
  | .cancelled code => .cancelled code

namespace ArrayBook

variable {M : Relabelling} {f : ℕ → ℕ} {b b' : ArrayBook}

def Renamed (M : Relabelling) (b b' : ArrayBook) : Prop :=
  ∃ A B, Rep b A ∧ Rep b' B ∧ M.Maps A B

theorem matching_of_live {A : LiveBook} {op : Op} (h : Rep b A) (hlive : op.Live A) {t : Taken LiveBook}
    (ht : A.matching op = some t) : ∃ m, b.matching op = .ok m ∧ m.quantity = t.quantity := by
  obtain ⟨m, t', hm, ht', hp⟩ := matching_spec h op hlive
  obtain rfl := Option.some.inj (ht.symm.trans ht')
  exact ⟨m, hm, hp.quantity⟩

theorem Renamed.exec {A B : LiveBook} (hb : Rep b A) (hb' : Rep b' B) (hmaps : M.Maps A B) {op : Op} (hs : InScope b op)
    {name : OrderHandle → OrderHandle} (hname : ∀ i ∈ op.handle, M.Same A B i.toNat (name i).toNat) (hc : M.Covers op)
    (hrange : ∀ p ∈ op.price, 0 ≤ p → p < kBitCount → 0 ≤ M.price p ∧ M.price p < kBitCount) :
    ∃ reply c reply' c', b.exec op = .ok (reply, c) ∧ b'.exec (M.op name op) = .ok (reply', c') ∧
      M.Replies reply reply' ∧ Renamed M c c' := by
  have hlive := (hb.live_iff op).mpr hs.live
  obtain ⟨reply, c, A', hc', hA', hmoved⟩ := hs.exec hb
  have hadm : ∀ t, A.matching op = some t → t.quantity ≠ 0 → ∀ p ∈ op.price, ∀ s,
      Admits (b'.book s) (M.price p) := by
    intro t ht hq p hp s
    obtain ⟨m, hm, hmq⟩ := matching_of_live hb hlive ht
    obtain ⟨h₀, h₁⟩ := hs.range p hp m hm (hmq ▸ hq)
    exact hrange p hp h₀ h₁
  obtain ⟨reply', c', B', hc'', hreplies, hmaps', hmoved'⟩ :=
    hmaps.step hb hb' hc hname hadm (fun hp => absurd hp id) hA'
  exact ⟨reply, c, reply', c', hc', hc'', hreplies, A', B', hmoved.rep, hmoved'.rep, hmaps'⟩

theorem Renamed.step (hslot : ∀ i j, M.slot i j → j = f i) (h : Renamed M b b') {op : Op} (hs : InScope b op)
    (hc : M.Covers op)
    (hrange : ∀ p ∈ op.price, 0 ≤ p → p < kBitCount → 0 ≤ M.price p ∧ M.price p < kBitCount) :
    ∃ reply c c', b.exec op = .ok (reply, c) ∧
      b'.exec (M.op (Relabelling.rename f) op) = .ok (M.reply f reply, c') ∧ Renamed M c c' := by
  obtain ⟨A, B, hb, hb', hmaps⟩ := h
  have hname : ∀ i ∈ op.handle, M.Same A B i.toNat (Relabelling.rename f i).toNat := by
    intro i hi
    have hsame := hmaps.same hb.sound hslot (hb.resting_iff.mp (hs.live i hi))
    rw [Relabelling.rename_toNat (Relabelling.narrow hb) (Relabelling.narrow hb') hsame]
    exact hsame
  obtain ⟨reply, c, reply', c', hc₁, hc₂, hreplies, hmaps'⟩ := Renamed.exec hb hb' hmaps hs hname hc hrange
  rw [hreplies.eq_reply hslot] at hc₂
  exact ⟨reply, c, c', hc₁, hc₂, hmaps'⟩

theorem Renamed.run (hslot : ∀ i j, M.slot i j → j = f i) (h : Renamed M b b') {ops : List Op}
    (hops : Machine.Allowed OrderBook.exec InScope b ops) (hc : ∀ op ∈ ops, M.Covers op)
    (hrange : ∀ op ∈ ops, ∀ p ∈ op.price, 0 ≤ p → p < kBitCount → 0 ≤ M.price p ∧ M.price p < kBitCount) :
    ∃ replies c c', Machine.runAll OrderBook.exec b ops = .ok (replies, c) ∧
      Machine.runAll OrderBook.exec b' (ops.map (M.op (Relabelling.rename f))) =
        .ok (replies.map (M.reply f), c') ∧ Renamed M c c' := by
  have hstep (s t : ArrayBook) (op : Op) (hR : Renamed M s t) (hok : InScope s op ∧ op ∈ ops) :
      ∃ r s' r' t', s.exec op = .ok (r, s') ∧ t.exec (M.op (Relabelling.rename f) op) = .ok (r', t') ∧
        M.reply f r = r' ∧ Renamed M s' t' := by
    obtain ⟨r, s', t', hs', ht', hR'⟩ := hR.step hslot hok.1 (hc op hok.2) (hrange op hok.2)
    exact ⟨r, s', _, t', hs', ht', rfl, hR'⟩
  obtain ⟨rs, c, rs', c', hrun, hrun', hM, hR⟩ := Machine.runAll_simulation hstep h hops.mem
  have hrs : rs' = rs.map (M.reply f) := by
    have hmap := List.forall₂_map_left_iff.mpr hM
    rw [List.forall₂_eq_eq_eq] at hmap
    exact hmap.symm
  rw [Machine.translate_eq_map _ hrun, hrs] at hrun'
  exact ⟨rs, c, c', hrun, hrun', hR⟩

theorem covers_of_unit (hunit : M.unit = 1) {op : Op} (hknown : ∀ p ∈ op.price, p ∈ M.known) : M.Covers op := by
  refine ⟨hknown, ?_⟩
  rw [Relabelling.Fits, hunit, UInt64.toNat_one, Nat.mul_one]
  exact op.quantity.toNat_lt

theorem rename_id : Relabelling.rename id = id := by
  funext h
  simp [Relabelling.rename]

theorem renamed_init {capacity capacity' : ℕ} (hfree : ∃ used spare,
    (List.range (capacity' % 2 ^ 32)).reverse = used ++ spare ∧
      Forall₂ M.slot (List.range (capacity % 2 ^ 32)).reverse used) :
    Renamed M (init capacity) (init capacity') := by
  refine ⟨_, _, rep_init capacity, rep_init capacity', fun s => ?_, hfree⟩
  have hentries (n : ℕ) (s : Side) : ((LiveBook.init n).side s).entries = [] := by cases s <;> rfl
  rw [OrderedMap.Related, hentries, hentries]
  exact .nil

def sampleOps : List Op :=
  [.limit 1 .buy 100 5 0, .limit 2 .sell 100 3 1, .modify 0 .sell 101 4 2, .cancel 0]

theorem allowed_sampleOps : Machine.Allowed OrderBook.exec InScope (init 1) sampleOps := by
  refine allowed_cons (.of_add rfl (by simp [Op.price, kBitCount]) (by decide +kernel)) ?_
  refine allowed_cons (.of_add rfl (by simp [Op.price, kBitCount]) (by decide +kernel)) ?_
  refine allowed_cons ⟨?_, ?_, ne_error_of_isOk (by decide +kernel)⟩ (allowed_cons ⟨?_, ?_, ?_⟩ trivial)
  · rintro h hm
    obtain rfl := Option.some.inj hm
    exact ⟨.buy, 100, 100, by decide +kernel, by decide +kernel⟩
  · rintro price hp - - -
    obtain rfl := Option.some.inj hp
    decide
  · rintro h hm
    obtain rfl := Option.some.inj hm
    exact ⟨.sell, 101, 101, by decide +kernel, by decide +kernel⟩
  · simp [Op.price]
  · exact ne_error_of_isOk (by decide +kernel)

theorem only_order_matters (M : Relabelling) (hslot : M.slot = Eq) (hunit : M.unit = 1) (capacity : ℕ)
    (ops : List Op) (hops : Machine.Allowed OrderBook.exec InScope (init capacity) ops)
    (hknown : ∀ op ∈ ops, ∀ p ∈ op.price, p ∈ M.known)
    (hrange : ∀ op ∈ ops, ∀ p ∈ op.price, 0 ≤ p → p < kBitCount → 0 ≤ M.price p ∧ M.price p < kBitCount) :
    ∃ replies b b', Machine.runAll OrderBook.exec (init capacity) ops = .ok (replies, b) ∧
      Machine.runAll OrderBook.exec (init capacity) (ops.map (M.op id)) = .ok (replies.map (M.reply id), b') := by
  have hinit : Renamed M (init capacity) (init capacity) := by
    refine renamed_init ⟨_, [], (List.append_nil _).symm, ?_⟩
    rw [hslot, List.forall₂_eq_eq_eq]
  obtain ⟨replies, b, b', hb, hb', -⟩ := hinit.run (f := id) (by simp [hslot, eq_comm]) hops
    (fun op hop => covers_of_unit hunit (hknown op hop)) hrange
  rw [rename_id] at hb'
  exact ⟨replies, b, b', hb, hb'⟩

theorem only_order_matters_mirror : ∃ replies b b',
    Machine.runAll OrderBook.exec (init 1) sampleOps = .ok (replies, b) ∧
    Machine.runAll OrderBook.exec (init 1) (sampleOps.map ((Relabelling.mirror 200).op id)) =
      .ok (replies.map ((Relabelling.mirror 200).reply id), b') := by
  refine only_order_matters (.mirror 200) rfl rfl 1 sampleOps allowed_sampleOps (fun _ _ _ _ => Set.mem_univ _) ?_
  intro op hop p hp _ _
  fin_cases hop <;> simp_all [Op.price, Relabelling.mirror, kBitCount] <;> omega

theorem capacity_unobservable {capacity capacity' : ℕ} (hle : capacity ≤ capacity') (hlt : capacity' < 2 ^ 32)
    (ops : List Op) (hops : Machine.Allowed OrderBook.exec InScope (init capacity) ops) :
    let name := Relabelling.rename (· + (capacity' - capacity))
    ∃ replies b b', Machine.runAll OrderBook.exec (init capacity) ops = .ok (replies, b) ∧
      Machine.runAll OrderBook.exec (init capacity') (ops.map (Op.mapHandle name)) =
        .ok (replies.map (Reply.mapHandle name), b') := by
  intro name
  have hinit : Renamed (Relabelling.shift (capacity' - capacity)) (init capacity) (init capacity') := by
    refine renamed_init ⟨((List.range capacity).map (· + (capacity' - capacity))).reverse,
      (List.range (capacity' - capacity)).reverse, ?_, ?_⟩
    · rw [Nat.mod_eq_of_lt hlt, ← List.reverse_append, List.reverse_inj]
      obtain ⟨d, rfl⟩ := Nat.exists_eq_add_of_le' hle
      rw [Nat.add_sub_cancel, List.range_add]
      simp only [Nat.add_comm d]
    · rw [Nat.mod_eq_of_lt (lt_of_le_of_lt hle hlt), List.forall₂_reverse_iff, List.forall₂_map_right_iff,
        List.forall₂_same]
      exact fun _ _ => rfl
  obtain ⟨replies, b, b', hb, hb', -⟩ := hinit.run (f := (· + (capacity' - capacity))) (fun _ _ h => h) hops
    (fun op hop => covers_of_unit rfl (fun _ _ => Set.mem_univ _)) (fun _ _ _ _ h₀ h₁ => ⟨h₀, h₁⟩)
  have hop : (Relabelling.shift (capacity' - capacity)).op name = Op.mapHandle name := by
    funext op
    cases op <;> simp [Relabelling.op, Op.mapHandle, Relabelling.shift, Relabelling.side, Relabelling.quantity]
  have hreply : (Relabelling.shift (capacity' - capacity)).reply (· + (capacity' - capacity)) = Reply.mapHandle name := by
    funext reply
    cases reply with
    | cancelled code => rfl
    | added out =>
      have htrades : out.trades.map (Relabelling.shift (capacity' - capacity)).trade = out.trades :=
        List.map_id'' (fun t => by simp [Relabelling.trade, Relabelling.shift, Relabelling.quantity]) _
      simp only [Relabelling.reply, Relabelling.answer, htrades]
      simp [Reply.mapHandle, Relabelling.shift, Relabelling.quantity, name]
  rw [hop, hreply] at hb'
  exact ⟨replies, b, b', hb, hb'⟩

theorem capacity_unobservable_one : ∃ replies b b',
    Machine.runAll OrderBook.exec (init 1) sampleOps = .ok (replies, b) ∧
    Machine.runAll OrderBook.exec (init 6) (sampleOps.map (Op.mapHandle (Relabelling.rename (· + (6 - 1))))) =
      .ok (replies.map (Reply.mapHandle (Relabelling.rename (· + (6 - 1)))), b') :=
  capacity_unobservable (by decide) (by decide) sampleOps allowed_sampleOps

theorem quantities_scale {k : UInt64} (hk : k ≠ 0) (capacity : ℕ) (ops : List Op)
    (hops : Machine.Allowed OrderBook.exec InScope (init capacity) ops)
    (hfits : ∀ op ∈ ops, op.quantity.toNat * k.toNat < 2 ^ 64) :
    ∃ replies b b', Machine.runAll OrderBook.exec (init capacity) ops = .ok (replies, b) ∧
      Machine.runAll OrderBook.exec (init capacity) (ops.map (Op.scale k)) =
        .ok (replies.map (Reply.scale k), b') := by
  have hinit : Renamed (Relabelling.scale k hk) (init capacity) (init capacity) := by
    refine renamed_init ⟨_, [], (List.append_nil _).symm, ?_⟩
    exact List.forall₂_same.mpr (fun _ _ => rfl)
  obtain ⟨replies, b, b', hb, hb', -⟩ := hinit.run (f := id) (fun _ _ h => Eq.symm h) hops
    (fun op hop => ⟨fun _ _ => Set.mem_univ _, hfits op hop⟩) (fun _ _ _ _ h₀ h₁ => ⟨h₀, h₁⟩)
  have hop : (Relabelling.scale k hk).op id = Op.scale k := by
    funext op
    cases op <;> rfl
  have hreply : (Relabelling.scale k hk).reply id = Reply.scale k := by
    funext reply
    cases reply with
    | cancelled code => rfl
    | added out =>
      simp only [Relabelling.reply, Relabelling.answer, rename_id]
      rfl
  rw [rename_id, hop, hreply] at hb'
  exact ⟨replies, b, b', hb, hb'⟩

theorem quantities_scale_ten : ∃ replies b b',
    Machine.runAll OrderBook.exec (init 1) sampleOps = .ok (replies, b) ∧
    Machine.runAll OrderBook.exec (init 1) (sampleOps.map (Op.scale 10)) =
      .ok (replies.map (Reply.scale 10), b') := by
  refine quantities_scale (by decide) 1 sampleOps allowed_sampleOps ?_
  intro op hop
  fin_cases hop <;> decide

end ArrayBook

end Llmes
