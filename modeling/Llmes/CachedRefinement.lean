import Llmes.Scope
import Llmes.SideBook
import Llmes.CachedLawful

namespace Llmes

open BookSide BookView OrderBook

theorem Op.admissible_of_price {R : Type} {S : Bool → Type} [BookSide S R] [LawfulBookSide S R]
    {b : OrderBook S R} {op : Op} (A : LiveBook) (h : ∀ s, ∀ p ∈ op.price, Admits (b.book s) p) :
    op.Admissible b A := by
  cases op with
  | limit orderId side price quantity timestamp => exact fun _ => h side price rfl
  | market orderId side quantity timestamp => trivial
  | modify handle side price quantity timestamp => exact fun _ _ _ => h side price rfl
  | cancel handle => trivial

abbrev MapBook := OrderBook SideBook Int

def MapBook.init (capacity : ℕ) : MapBook := ⟨SideBook.init, SideBook.init, OrderPool.init capacity⟩

abbrev CachedBook := OrderBook CachedSideBook ℕ

namespace CachedBook

def init (capacity : ℕ) : CachedBook :=
  ⟨CachedSideBook.init, CachedSideBook.init, OrderPool.init capacity⟩

structure InScope (b : CachedBook) (op : Op) : Prop where
  live : ∀ h ∈ op.handle, b.Resting h.toNat
  roomy : b.exec op ≠ .error .poolExhausted
  levels : b.exec op ≠ .error .levelPoolExhausted

structure Alike (P : Set Int) (b : CachedBook) (b' : MapBook) : Prop where
  rep : ∃ A, Rep b A ∧ Rep b' A
  prices : ∀ s p, ref (b.book s) p ≠ none → p ∈ P

variable {P : Set Int} {b : CachedBook} {b' : MapBook} {op : Op}

theorem Alike.step (hfits : CachedSideBook.Fits P) (h : Alike P b b') (hs : InScope b op) (hp : ∀ p ∈ op.price, p ∈ P) :
    ∃ reply c c', b.exec op = .ok (reply, c) ∧ b'.exec op = .ok (reply, c') ∧ Alike P c c' := by
  obtain ⟨A, hrep, hrep'⟩ := h.rep
  have hlive := (hrep.live_iff op).mpr hs.live
  have hadm : op.Admissible b A := by
    apply Op.admissible_of_price
    intro s p hop
    refine ⟨hfits.legal p (hp p hop), fun q hq => hfits.apart p (hp p hop) q ?_⟩
    exact h.prices s q ((CachedSideBook.ref_ne_none (hrep.inv s).1.toSound).mpr hq)
  have hadm' : op.Admissible b' A := Op.admissible_of_price A (fun _ _ _ => trivial)
  rcases exec_spec hrep op hlive hadm with ⟨hb, -⟩ | ⟨-, hb⟩ | ⟨reply, c, A', hb, hA, hmoved⟩
  · exact absurd hb hs.roomy
  · exact absurd hb hs.levels
  · rcases exec_spec hrep' op hlive hadm' with ⟨-, hA'⟩ | ⟨hp', -⟩ | ⟨reply', c', A'', hb', hA', hmoved'⟩
    · rw [hA] at hA'
      cases hA'
    · exact absurd hp' id
    · obtain ⟨rfl, rfl⟩ := Prod.mk.inj (Option.some.inj (hA.symm.trans hA'))
      refine ⟨reply, c, c', hb, hb', ⟨A', hmoved.rep, hmoved'.rep⟩, fun s p hr => ?_⟩
      rcases hmoved.levels s p hr with hr | hr
      · exact h.prices s p hr
      · exact hp p hr

theorem alike_init (P : Set Int) (capacity : ℕ) : Alike P (init capacity) (MapBook.init capacity) where
  rep := by
    refine ⟨LiveBook.init capacity, ?_, ?_⟩
    · exact Rep.init capacity ⟨CachedSideBook.init_inv, CachedSideBook.init_close⟩
        ⟨CachedSideBook.init_inv, CachedSideBook.init_close⟩ CachedSideBook.init_ref
        CachedSideBook.init_ref
    · exact Rep.init capacity trivial trivial (fun _ => rfl) (fun _ => rfl)
  prices s p hr := by
    cases s <;> exact absurd (CachedSideBook.init_ref p) hr

theorem refines_map (capacity : ℕ) (ops : List Op)
    (hfits : CachedSideBook.Fits {p | ∃ op ∈ ops, op.price = some p})
    (hok : Machine.Allowed OrderBook.exec InScope (init capacity) ops) :
    ∃ replies b b', Machine.runAll OrderBook.exec (init capacity) ops = .ok (replies, b) ∧
      Machine.runAll OrderBook.exec (MapBook.init capacity) ops = .ok (replies, b') := by
  have hstep (b : CachedBook) (b' : MapBook) (op : Op)
      (h : Alike {p | ∃ op ∈ ops, op.price = some p} b b') (hs : InScope b op ∧ op ∈ ops) :
      ∃ reply c c', b.exec op = .ok (reply, c) ∧ b'.exec op = .ok (reply, c') ∧
        Alike {p | ∃ op ∈ ops, op.price = some p} c c' :=
    h.step hfits hs.1 (fun p hp => ⟨op, hs.2, hp⟩)
  obtain ⟨replies, b, b', hb, hb', -⟩ := Machine.runAll_agree hstep (alike_init _ capacity) hok.mem
  exact ⟨replies, b, b', hb, hb'⟩

theorem InScope.of_add (hh : op.handle = none) (hok : (b.exec op).isOk = true) : InScope b op where
  live h hm := by simp [hh] at hm
  roomy := ne_error_of_isOk hok
  levels := ne_error_of_isOk hok

theorem refines_map_walk :
    ∃ replies b b', Machine.runAll OrderBook.exec (init 8)
        [.limit 1 .buy 100 5 0, .limit 2 .buy 40 4 1, .limit 3 .buy 107 2 2, .cancel 7, .market 4 .sell 3 3] =
          .ok (replies, b) ∧
      Machine.runAll OrderBook.exec (MapBook.init 8)
        [.limit 1 .buy 100 5 0, .limit 2 .buy 40 4 1, .limit 3 .buy 107 2 2, .cancel 7, .market 4 .sell 3 3] =
          .ok (replies, b') := by
  have s4 : InScope ((((init 8).after (.limit 1 .buy 100 5 0)).after (.limit 2 .buy 40 4 1)).after
      (.limit 3 .buy 107 2 2)) (.cancel 7) := by
    refine ⟨?_, ne_error_of_isOk (by decide +kernel), ne_error_of_isOk (by decide +kernel)⟩
    rintro h hm
    obtain rfl := Option.some.inj hm
    exact ⟨.buy, 100, 99999, by decide +kernel, by decide +kernel⟩
  apply refines_map 8
  · refine ⟨fun p hp => ?_, fun p hp q hq => ?_⟩
    · simp [Op.price] at hp
      simp only [CachedSideBook.Legal, kNoPrice]
      omega
    · simp [Op.price] at hp hq
      simp only [CachedSideBook.Apart]
      omega
  · refine allowed_cons (.of_add rfl (by decide +kernel)) (allowed_cons (.of_add rfl (by decide +kernel)) ?_)
    refine allowed_cons (.of_add rfl (by decide +kernel)) (allowed_cons s4 ?_)
    exact allowed_cons (.of_add rfl (by decide +kernel)) trivial

end CachedBook

end Llmes
