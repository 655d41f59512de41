import Llmes.OrderBook
import Llmes.Lib.Outcome

namespace Llmes

open BookSide OrderBook Outcome

variable {R : Type} {S : Bool → Type} {P : ∀ isAsk, S isAsk → Prop}

namespace OrderBook

def Has (P : ∀ isAsk, S isAsk → Prop) (b : OrderBook S R) : Prop := ∀ s, P s.isAsk (b.book s)

theorem Has.setBook {b : OrderBook S R} (h : b.Has P) {s : Side} {x : S s.isAsk} (hx : P s.isAsk x) : (b.setBook s x).Has P := by
  intro t
  by_cases ht : t = s
  · subst ht
    rwa [setBook_book_self]
  · rw [setBook_book_of_ne _ _ _ ht]
    exact h t

theorem Has.withPool {b : OrderBook S R} (h : b.Has P) (pool : OrderPool R) : ({ b with pool } : OrderBook S R).Has P := by
  intro s
  rw [book_withPool]
  exact h s

end OrderBook

variable [BookSide S R]

structure Retained (P : ∀ isAsk, S isAsk → Prop) : Prop where
  setLevel : ∀ isAsk (x : S isAsk) r l, P isAsk x → P isAsk (setLevel x r l)
  getOrCreate : ∀ isAsk (x : S isAsk) p, P isAsk x → Ends (fun _ => True) (fun g => P isAsk g.2) (getOrCreate x p)
  eraseBest : ∀ isAsk (x : S isAsk), P isAsk x → Ends (fun _ => True) (P isAsk) (eraseBest x)

namespace Retained

variable {b : OrderBook S R} {m : MatchState S R} {taker : Side} {r : R}
  {orderId : UInt64}

theorem fillFront (hP : Retained P) (h : m.book.Has P) :
    Ends (fun _ => True) (fun m' => m'.book.Has P) (fillFront taker r orderId m) := by
  apply (Ends.trivial _).bind
  intro maker _
  dsimp only
  split
  · exact (h.withPool _).setBook (hP.setLevel _ _ _ _ (h _))
  · exact h.withPool _

theorem matchLevel (hP : Retained P) (fuel : ℕ) (h : m.book.Has P) :
    Ends (fun _ => True) (fun m' => m'.book.Has P) (matchLevel taker r orderId fuel m) := by
  induction fuel generalizing m with
  | zero =>
    unfold OrderBook.matchLevel
    split
    · trivial
    · exact h
  | succ fuel ih =>
    unfold OrderBook.matchLevel
    split
    · exact (hP.fillFront h).bind (fun m' => ih)
    · exact h

theorem sweepBest (hP : Retained P) (h : m.book.Has P) :
    Ends (fun _ => True) (fun m' => m'.book.Has P) (sweepBest taker orderId m) := by
  apply (Ends.trivial _).bind
  intro r _
  apply (hP.matchLevel _ h).bind
  intro m' h'
  split
  · exact (hP.eraseBest _ _ (h' _)).bind (fun x hx => h'.setBook hx)
  · exact h'

theorem limitLoop (hP : Retained P) {price : Int} (fuel : ℕ) (h : m.book.Has P) :
    Ends (fun _ => True) (fun m' => m'.book.Has P) (limitLoop taker price orderId fuel m) := by
  induction fuel generalizing m with
  | zero =>
    unfold OrderBook.limitLoop
    split
    · trivial
    · exact h
  | succ fuel ih =>
    unfold OrderBook.limitLoop
    split
    · apply (Ends.trivial _).bind
      intro best _
      split
      · exact (hP.sweepBest h).bind (fun m' => ih)
      · exact h
    · exact h

theorem marketLoop (hP : Retained P) (fuel : ℕ) (h : m.book.Has P) :
    Ends (fun _ => True) (fun m' => m'.book.Has P) (marketLoop taker orderId fuel m) := by
  induction fuel generalizing m with
  | zero =>
    unfold OrderBook.marketLoop
    split
    · trivial
    · exact h
  | succ fuel ih =>
    unfold OrderBook.marketLoop
    split
    · exact (hP.sweepBest h).bind (fun m' => ih)
    · exact h

theorem restRemainder (hP : Retained P) (h : b.Has P) (side : Side) (price : Int) (remaining timestamp : UInt64) :
    Ends (fun _ => True) (fun n => n.2.Has P) (b.restRemainder orderId side price remaining timestamp) := by
  unfold OrderBook.restRemainder
  dsimp only
  split
  · trivial
  · apply (Ends.trivial _).bind
    intro node _
    apply (hP.getOrCreate _ _ price (h side)).bind
    intro g hg
    exact (h.withPool _).setBook (hP.setLevel _ _ _ _ hg)

theorem addLimitOrder (hP : Retained P) (h : b.Has P) (side : Side) (price : Int) (quantity timestamp : UInt64) :
    Ends (fun _ => True) (fun r => r.2.Has P) (b.addLimitOrder orderId side price quantity timestamp) := by
  unfold OrderBook.addLimitOrder
  dsimp only
  split
  · exact h
  · apply (hP.limitLoop _ h).bind
    intro m hm
    split
    · exact hm
    · exact (hP.restRemainder hm side price m.quantity timestamp).bind (fun n hn => hn)

theorem addMarketOrder (hP : Retained P) (h : b.Has P) (side : Side) (quantity timestamp : UInt64) :
    Ends (fun _ => True) (fun r => r.2.Has P) (b.addMarketOrder orderId side quantity timestamp) := by
  unfold OrderBook.addMarketOrder
  dsimp only
  split
  · exact h
  · apply (hP.marketLoop _ h).bind
    intro m hm
    split
    · exact hm
    · exact hm

theorem removeOrder (hP : Retained P) (h : b.Has P) (o : ℕ) :
    Ends (fun _ => True) (OrderBook.Has P) (b.removeOrder o) := by
  unfold OrderBook.removeOrder
  split
  · trivial
  · exact (h.withPool _).setBook (hP.setLevel _ _ _ _ (h _))

theorem exec (hP : Retained P) (h : b.Has P) (op : Op) :
    Ends (fun _ => True) (fun r => r.2.Has P) (b.exec op) := by
  cases op with
  | limit orderId side price quantity timestamp =>
    exact (hP.addLimitOrder h side price quantity timestamp).bind (fun _ hr => hr)
  | market orderId side quantity timestamp =>
    exact (hP.addMarketOrder h side quantity timestamp).bind (fun _ hr => hr)
  | modify handle side price quantity timestamp =>
    apply ((Ends.trivial _).bind _).bind (fun _ hr => hr)
    intro o _
    exact (hP.removeOrder h o).bind (fun b' h' => hP.addLimitOrder h' side price quantity timestamp)
  | cancel handle =>
    apply ((Ends.trivial _).bind _).bind (fun _ hr => hr)
    intro o _
    exact (hP.removeOrder h o).bind (fun b' h' => h')

end Retained

end Llmes
