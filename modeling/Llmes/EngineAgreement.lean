import Llmes.CachedCapacity

namespace Llmes

open BookSide BookView OrderBook Outcome

section Spares

variable {S : Bool → Type} {R : Type} [BookSide S R] [LawfulBookSide S R] {b : OrderBook S R} {A : LiveBook}
  {P : ∀ isAsk, S isAsk → Prop}

def Provides (P : ∀ isAsk, S isAsk → Prop) (b : OrderBook S R) (p : Int) : Prop :=
  ∀ s (x : S s.isAsk), Inv x → Tidy x → P s.isAsk x → (∀ q, ref x q ≠ none → ref (b.book s) q ≠ none) →
    Ends (· ≠ .levelPoolExhausted) (fun _ => True) (getOrCreate x p)

theorem Provides.of_refs {b₁ : OrderBook S R} {p : Int} (h : Provides P b p)
    (href : ∀ s q, ref (b₁.book s) q ≠ none → ref (b.book s) q ≠ none) : Provides P b₁ p :=
  fun s x hx ht hP hr => h s x hx ht hP (fun q hq => href s q (hr q hq))

theorem Provides.restRemainder {p : Int} (h : Provides P b p) (hrep : Rep b A) (hb : b.Has P)
    (orderId : UInt64) (side : Side) (remaining timestamp : UInt64) :
    Ends (· ≠ .levelPoolExhausted) (fun _ => True) (b.restRemainder orderId side p remaining timestamp) := by
  unfold OrderBook.restRemainder
  dsimp only
  split
  · exact Fault.noConfusion
  · apply Ends.bind (Q := fun _ => True)
    · unfold OrderPool.resolve
      split
      · exact Fault.noConfusion
      · split
        · trivial
        · exact Fault.noConfusion
    · intro node _
      have hside := h side (b.book side) (hrep.inv side) (hrep.tidy side) (hb side) (fun _ hq => hq)
      exact hside.bind (fun g _ => True.intro)

theorem Provides.addLimitOrder (hP : Retained P) {p : Int} (h : Provides P b p) (hrep : Rep b A) (hb : b.Has P)
    (orderId : UInt64) (side : Side) (quantity timestamp : UInt64) :
    Ends (· ≠ .levelPoolExhausted) (fun _ => True) (b.addLimitOrder orderId side p quantity timestamp) := by
  unfold OrderBook.addLimitOrder
  dsimp only
  split
  · trivial
  · obtain ⟨m, hm, hs⟩ := matchingEngineLimit_spec side hrep { initialQuantity := quantity } orderId p quantity
    have hkept : m.book.Has P := (hP.limitLoop _ hb).of_ok hm
    rw [hm, ok_bind]
    split
    · trivial
    · have hrest : Provides P m.book p :=
        h.of_refs (fun s q hq => (hs.moved.levels s q hq).resolve_right (by simp))
      exact (hrest.restRemainder hs.rep hkept orderId side m.quantity timestamp).bind (fun n _ => True.intro)

theorem exec_spares (hP : Retained P) (hrep : Rep b A) (hb : b.Has P) {op : Op} (hlive : op.Live A)
    (h : ∀ p ∈ op.price, Provides P b p) : b.exec op ≠ .error .levelPoolExhausted := by
  suffices hends : Ends (· ≠ .levelPoolExhausted) (fun _ => True) (b.exec op) by
    intro herr
    rw [herr] at hends
    exact hends rfl
  cases op with
  | limit orderId side price quantity timestamp =>
    exact ((h price rfl).addLimitOrder hP hrep hb orderId side quantity timestamp).bind (fun _ _ => True.intro)
  | market orderId side quantity timestamp =>
    obtain ⟨b', hb', -⟩ := addMarketOrder_spec hrep orderId side quantity timestamp
    rw [OrderBook.exec, hb']
    trivial
  | modify handle side price quantity timestamp =>
    obtain ⟨x, b₁, -, hres, hb₁, -, hmoved, -⟩ := hrep.remove_live hlive
    have hkept : b₁.Has P := (hP.removeOrder hb _).of_ok hb₁
    have hprov : Provides P b₁ price :=
      (h price rfl).of_refs (fun s q hq => (hmoved.levels s q hq).resolve_right (by simp))
    simp only [OrderBook.exec, modifyOrder, hres, ok_bind, hb₁]
    exact (hprov.addLimitOrder hP hmoved.rep hkept _ side quantity timestamp).bind (fun _ _ => True.intro)
  | cancel handle =>
    obtain ⟨x, b₁, -, hres, hb₁, -, -, -⟩ := hrep.remove_live hlive
    simp only [OrderBook.exec, cancelOrder, hres, ok_bind, hb₁]
    trivial

end Spares

section Agreement

variable {S S' : Bool → Type} {R R' : Type} [BookSide S R] [LawfulBookSide S R] [BookSide S' R']
  [LawfulBookSide S' R'] {b : OrderBook S R} {b' : OrderBook S' R'} {A : LiveBook} {op : Op}

theorem exec_agree (h : Rep b A) (h' : Rep b' A) (hlive : op.Live A) (hadm : op.Admissible b A)
    (hadm' : op.Admissible b' A) (hb : b.exec op ≠ .error .levelPoolExhausted)
    (hb' : b'.exec op ≠ .error .levelPoolExhausted) :
    (∃ e, b.exec op = .error e ∧ b'.exec op = .error e) ∨
      ∃ reply c c' A', b.exec op = .ok (reply, c) ∧ b'.exec op = .ok (reply, c') ∧ Moved op.price b c A' ∧
        Moved op.price b' c' A' := by
  rcases exec_spec h op hlive hadm with ⟨hfull, hA⟩ | ⟨-, hfull⟩ | ⟨reply, c, A', hc, hA, hmoved⟩
  · rcases exec_spec h' op hlive hadm' with ⟨hfull', -⟩ | ⟨-, hfull'⟩ | ⟨_, _, _, _, hA', _⟩
    · exact Or.inl ⟨_, hfull, hfull'⟩
    · exact absurd hfull' hb'
    · rw [hA] at hA'
      cases hA'
  · exact absurd hfull hb
  · rcases exec_spec h' op hlive hadm' with ⟨-, hA'⟩ | ⟨-, hfull'⟩ | ⟨reply', c', A'', hc', hA', hmoved'⟩
    · rw [hA] at hA'
      cases hA'
    · exact absurd hfull' hb'
    · obtain ⟨rfl, rfl⟩ := Prod.mk.inj (Option.some.inj (hA.symm.trans hA'))
      exact Or.inr ⟨reply, c, c', A', hc, hc', hmoved, hmoved'⟩

def OrderBook.replies {S : Bool → Type} {R : Type} [BookSide S R] (b : OrderBook S R) (ops : List Op) :
    Exec (List Reply) :=
  (Machine.runAll OrderBook.exec b ops).map Prod.fst

def OrderBook.Names {S : Bool → Type} {R : Type} [BookSide S R] [BookView S R] (b : OrderBook S R) (op : Op) : Prop :=
  ∀ h ∈ op.handle, b.Resting h.toNat

theorem OrderBook.Names.of_add {S : Bool → Type} {R : Type} [BookSide S R] [BookView S R] {b : OrderBook S R}
    {op : Op} (h : op.handle = none) : b.Names op := by
  intro i hi
  rw [h] at hi
  cases hi

theorem OrderBook.Names.of_mem {S : Bool → Type} {R : Type} [BookSide S R] [BookView S R] {b : OrderBook S R}
    {op : Op} {i : OrderHandle} (h : op.handle = some i) (hb : b.Resting i.toNat) : b.Names op := by
  intro j hj
  obtain rfl := Option.some.inj (h.symm.trans hj)
  exact hb

structure Serves (ops : List Op) (I : OrderBook S R → Prop) : Prop where
  ready : ∀ b A op, Rep b A → I b → op ∈ ops → op.Live A →
    op.Admissible b A ∧ b.exec op ≠ .error .levelPoolExhausted
  next : ∀ b op reply c A', I b → op ∈ ops → b.exec op = .ok (reply, c) → Moved op.price b c A' → I c

theorem Serves.agree {ops : List Op} {I : OrderBook S R → Prop} {I' : OrderBook S' R' → Prop} (h : Serves ops I)
    (h' : Serves ops I') (hb : Rep b A) (hb' : Rep b' A) (hI : I b) (hI' : I' b')
    (hlive : Machine.Allowed OrderBook.exec OrderBook.Names b' ops) : b.replies ops = b'.replies ops := by
  have hstep (s : OrderBook S R) (t : OrderBook S' R') (op : Op)
      (hR : (∃ A, Rep s A ∧ Rep t A) ∧ I s ∧ I' t) (hok : t.Names op ∧ op ∈ ops) :
      (∃ e, s.exec op = .error e ∧ t.exec op = .error e) ∨ ∃ r s' t', s.exec op = .ok (r, s') ∧
        t.exec op = .ok (r, t') ∧ (∃ A, Rep s' A ∧ Rep t' A) ∧ I s' ∧ I' t' := by
    obtain ⟨⟨A, hs, ht⟩, hIs, hIt⟩ := hR
    have hop : op.Live A := (ht.live_iff op).mpr hok.1
    obtain ⟨hadm, hlevels⟩ := h.ready s A op hs hIs hok.2 hop
    obtain ⟨hadm', hlevels'⟩ := h'.ready t A op ht hIt hok.2 hop
    rcases exec_agree hs ht hop hadm hadm' hlevels hlevels' with herr | ⟨r, c, c', A', hc, hc', hm, hm'⟩
    · exact Or.inl herr
    · exact Or.inr ⟨r, c, c', hc, hc', ⟨A', hm.rep, hm'.rep⟩, h.next s op r c A' hIs hok.2 hc hm,
        h'.next t op r c' A' hIt hok.2 hc' hm'⟩
  rcases Machine.runAll_match hstep ⟨⟨A, hb, hb'⟩, hI, hI'⟩ hlive.mem with ⟨e, he, he'⟩ | ⟨rs, c, c', hc, hc', -⟩
  · rw [OrderBook.replies, OrderBook.replies, he, he']
    rfl
  · rw [OrderBook.replies, OrderBook.replies, hc, hc']
    rfl

end Agreement

theorem exec_ne_levelPoolExhausted {S : Bool → Type} {R : Type} [BookSide S R] [LawfulBookSide S R]
    {b : OrderBook S R} {A : LiveBook} {op : Op} (hpool : ¬ Pooled S) (h : Rep b A) (hlive : op.Live A)
    (hadm : op.Admissible b A) : b.exec op ≠ .error .levelPoolExhausted := by
  intro he
  rcases exec_spec h op hlive hadm with ⟨hb, -⟩ | ⟨hp, -⟩ | ⟨reply, c, A', hc, -⟩
  · cases he.symm.trans hb
  · exact hpool hp
  · cases he.symm.trans hc

theorem MapBook.rep_init (capacity : ℕ) : Rep (MapBook.init capacity) (LiveBook.init capacity) :=
  Rep.init capacity trivial trivial (fun _ => rfl) (fun _ => rfl)

theorem MapBook.serves (ops : List Op) : Serves ops (fun _ : MapBook => True) where
  ready b A op h _ _ hlive := by
    have hadm : op.Admissible b A := Op.admissible_of_price A (fun _ _ _ => trivial)
    exact ⟨hadm, exec_ne_levelPoolExhausted (fun hp => hp) h hlive hadm⟩
  next _ _ _ _ _ _ _ _ _ := trivial

theorem ArrayBook.serves {ops : List Op} (hprice : ∀ op ∈ ops, ∀ p ∈ op.price, 0 ≤ p ∧ p < kBitCount) :
    Serves ops (fun _ : ArrayBook => True) where
  ready b A op h _ hop hlive := by
    have hadm : op.Admissible b A := Op.admissible_of_price A (fun _ p hp => hprice op hop p hp)
    exact ⟨hadm, exec_ne_levelPoolExhausted (fun hp => hp) h hlive hadm⟩
  next _ _ _ _ _ _ _ _ _ := trivial

namespace CachedBook

structure Stocked (P : Finset Int) (b : CachedBook) : Prop where
  sized : b.Has (fun _ x => x.Sized CachedSideBook.kLevelCapacity)
  prices : ∀ s p, ref (b.book s) p ≠ none → p ∈ P

theorem rep_init (capacity : ℕ) : Rep (init capacity) (LiveBook.init capacity) :=
  Rep.init capacity ⟨CachedSideBook.init_inv, CachedSideBook.init_close⟩
    ⟨CachedSideBook.init_inv, CachedSideBook.init_close⟩ CachedSideBook.init_ref CachedSideBook.init_ref

theorem stocked_init (P : Finset Int) (capacity : ℕ) : Stocked P (init capacity) where
  sized s := by cases s <;> rfl
  prices s p hr := by
    cases s <;> exact absurd (CachedSideBook.init_ref p) hr

theorem serves {P : Finset Int} (hfits : CachedSideBook.Fits (P : Set Int))
    (hcard : P.card ≤ CachedSideBook.kLevelCapacity) {ops : List Op} (hprice : ∀ op ∈ ops, ∀ p ∈ op.price, p ∈ P) :
    Serves ops (Stocked P) where
  ready b A op h hs hop hlive := by
    constructor
    · apply Op.admissible_of_price
      intro s p hp
      refine ⟨hfits.legal p (hprice op hop p hp), fun q hq => hfits.apart p (hprice op hop p hp) q ?_⟩
      exact hs.prices s q ((CachedSideBook.ref_ne_none (h.inv s).1.toSound).mpr hq)
    · apply exec_spares (CachedSideBook.retained_sized _) h hs.sized hlive
      intro p hp s x hx ht hsized hrefs
      apply CachedSideBook.spares_getOrCreate_of_card hx ht _ hfits (hprice op hop p hp) (hsized ▸ hcard)
      exact fun q hq => hs.prices s q (hrefs q ((CachedSideBook.ref_ne_none hx.1.toSound).mpr hq))
  next b op reply c A' hs hop hc hm := by
    refine ⟨((CachedSideBook.retained_sized _).exec hs.sized op).of_ok hc, fun s p hp => ?_⟩
    rcases hm.levels s p hp with hp | hp
    · exact hs.prices s p hp
    · exact hprice op hop p hp

theorem levels_suffice (capacity : ℕ) {P : Finset Int} (hfits : CachedSideBook.Fits (P : Set Int))
    (hcard : P.card ≤ CachedSideBook.kLevelCapacity) (ops : List Op) (hprice : ∀ op ∈ ops, ∀ p ∈ op.price, p ∈ P)
    (hlive : Machine.Allowed OrderBook.exec OrderBook.Names (MapBook.init capacity) ops) :
    (init capacity).replies ops = (MapBook.init capacity).replies ops :=
  (serves hfits hcard hprice).agree (MapBook.serves ops) (rep_init capacity) (MapBook.rep_init capacity)
    (stocked_init P capacity) trivial hlive

theorem levels_suffice_walk :
    (init 3).replies [.limit 1 .buy 100 5 0, .limit 2 .buy 40 4 1, .limit 3 .buy 107 2 2, .cancel 2,
        .market 4 .sell 3 3, .limit 5 .buy 100 1 4, .limit 6 .buy 107 1 5, .limit 7 .buy 40 1 6] =
      (MapBook.init 3).replies [.limit 1 .buy 100 5 0, .limit 2 .buy 40 4 1, .limit 3 .buy 107 2 2, .cancel 2,
        .market 4 .sell 3 3, .limit 5 .buy 100 1 4, .limit 6 .buy 107 1 5, .limit 7 .buy 40 1 6] := by
  apply levels_suffice 3 (P := {40, 100, 107})
  · refine ⟨fun p hp => ?_, fun p hp q hq => ?_⟩
    · simp at hp
      simp only [CachedSideBook.Legal, kNoPrice]
      omega
    · simp at hp hq
      simp only [CachedSideBook.Apart]
      omega
  · decide
  · simp [Op.price]
  · refine allowed_cons (.of_add rfl) (allowed_cons (.of_add rfl) (allowed_cons (.of_add rfl) ?_))
    refine allowed_cons (.of_mem rfl ⟨.buy, 100, 100, by decide +kernel, by decide +kernel⟩) ?_
    refine allowed_cons (.of_add rfl) (allowed_cons (.of_add rfl) (allowed_cons (.of_add rfl) ?_))
    exact allowed_cons (.of_add rfl) trivial

end CachedBook

namespace ArrayBook

theorem fits_prices : CachedSideBook.Fits (Finset.Ico 0 (kBitCount : Int) : Set Int) where
  legal p hp := by
    have := Finset.mem_Ico.mp hp
    simp only [kBitCount, CachedSideBook.Legal, kNoPrice] at *
    omega
  apart p hp q hq := by
    have := Finset.mem_Ico.mp hp
    have := Finset.mem_Ico.mp hq
    simp only [kBitCount, CachedSideBook.Apart] at *
    omega

theorem agrees_with_cached (capacity : ℕ) (ops : List Op)
    (hprice : ∀ op ∈ ops, ∀ p ∈ op.price, 0 ≤ p ∧ p < kBitCount)
    (hlive : Machine.Allowed OrderBook.exec OrderBook.Names (init capacity) ops) :
    (CachedBook.init capacity).replies ops = (init capacity).replies ops := by
  have hcached : Serves ops (CachedBook.Stocked (Finset.Ico 0 (kBitCount : Int))) := by
    apply CachedBook.serves fits_prices
    · rw [Int.card_Ico]
      decide
    · exact fun op hop p hp => Finset.mem_Ico.mpr (hprice op hop p hp)
  exact hcached.agree (serves hprice) (CachedBook.rep_init capacity) (rep_init capacity)
    (CachedBook.stocked_init _ capacity) trivial hlive

theorem agrees_with_cached_sample :
    (CachedBook.init 1).replies [.limit 1 .buy 100 5 0, .limit 2 .sell 100 3 1, .modify 0 .sell 101 4 2, .limit 3 .sell 102 1 3] =
      (init 1).replies [.limit 1 .buy 100 5 0, .limit 2 .sell 100 3 1, .modify 0 .sell 101 4 2, .limit 3 .sell 102 1 3] := by
  apply agrees_with_cached
  · simp [Op.price, kBitCount]
  · refine allowed_cons (.of_add rfl) (allowed_cons (.of_add rfl) ?_)
    refine allowed_cons (.of_mem rfl ⟨.buy, 100, 100, by decide +kernel, by decide +kernel⟩) ?_
    exact allowed_cons (.of_add rfl) trivial

end ArrayBook

end Llmes
