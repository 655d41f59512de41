import Llmes.Hft.Touches
import Llmes.Hft.Replay

namespace Llmes.Hft

open OrderBook Outcome Tracking Attribution

structure Tagged (c : Call) (op : PendingOp) : Prop where
  call : c.op = op.op
  scenario : op.scenario = c.scenario
  done : replyCode c.reply = .success ∨ op.type = .market ∧ replyCode c.reply = .marketRemainderCancelled

structure Noted (a : Attribution) (c : Call) (x : PendingAttribution) (a' : Attribution) : Prop where
  index : a'.attributionOpIndex = a.attributionOpIndex + 1
  measured : ∀ l ∈ c.measured, x.levelReuseDistanceOps = a.reuse l
  moved : ∀ l ∈ c.moved, a'.lastLevelTouch l.1 l.2 = some (a.attributionOpIndex : Int)
  kept : ∀ l, a'.lastLevelTouch l.1 l.2 = a.lastLevelTouch l.1 l.2 ∨
    (l ∈ c.moved ∨ c.takesFrom = some l.1) ∧ a'.lastLevelTouch l.1 l.2 = some (a.attributionOpIndex : Int)

theorem Noted.of_touches {a a' : Attribution} {c : Call} {x : PendingAttribution}
    (h : Touches a c.moved (c.moved ∪ {l | c.takesFrom = some l.1}) a')
    (hx : ∀ l ∈ c.measured, x.levelReuseDistanceOps = a.reuse l) :
    Noted a c x { a' with attributionOpIndex := a'.attributionOpIndex + 1 } :=
  ⟨congrArg (· + 1) h.index, hx, h.must, h.may⟩

inductive Trail (a : Attribution) : List Call → List (PendingOp × PendingAttribution) → Attribution → Prop
  | nil : Trail a [] [] a
  | snoc {cs : List Call} {xs : List (PendingOp × PendingAttribution)} {a₁ a₂ : Attribution} {c : Call}
      {x : PendingOp × PendingAttribution} (init : Trail a cs xs a₁) (last : Noted a₁ c x.2 a₂) :
      Trail a (cs ++ [c]) (xs ++ [x]) a₂

variable {enableAttribution : Bool} {w w₁ w' : MacroWorkload enableAttribution} {A : LiveBook} {capacity n : ℕ}
  {x : PendingOp × PendingAttribution} {xs ys : List (PendingOp × PendingAttribution)} {start : Attribution}

structure Logged (start : Attribution) (w : MacroWorkload enableAttribution)
    (xs : List (PendingOp × PendingAttribution)) : Prop where
  tagged : List.Forall₂ (fun c x => Tagged c x.1) w.calls xs
  trail : enableAttribution = true → Trail start w.calls xs w.toAttribution

def Extends (w : MacroWorkload enableAttribution) (ys : List (PendingOp × PendingAttribution))
    (w' : MacroWorkload enableAttribution) : Prop :=
  ∀ start xs, Logged start w xs → Logged start w' (xs ++ ys)

namespace Extends

theorem same (hcalls : w'.calls = w.calls) (ha : w'.toAttribution = w.toAttribution) : Extends w [] w' := by
  intro start xs h
  rw [List.append_nil]
  exact ⟨hcalls ▸ h.tagged, fun he => hcalls ▸ ha ▸ h.trail he⟩

theorem one {c : Call} (hcalls : w'.calls = w.calls ++ [c]) (htag : Tagged c x.1)
    (hnote : enableAttribution = true → Noted w.toAttribution c x.2 w'.toAttribution) : Extends w [x] w' := by
  intro start xs h
  refine ⟨?_, fun he => ?_⟩
  · rw [hcalls]
    exact List.rel_append h.tagged (.cons htag .nil)
  · rw [hcalls]
    exact .snoc (h.trail he) (hnote he)

theorem append (h : Extends w xs w₁) (h' : Extends w₁ ys w') : Extends w (xs ++ ys) w' := by
  intro start zs hz
  rw [← List.append_assoc]
  exact h' start _ (h start zs hz)

theorem of_same (h : Extends w₁ xs w') (hcalls : w₁.calls = w.calls) (ha : w₁.toAttribution = w.toAttribution) :
    Extends w xs w' :=
  (same hcalls ha).append h

theorem to_same {v : MacroWorkload enableAttribution} (h : Extends w xs w₁) (hcalls : v.calls = w₁.calls)
    (ha : v.toAttribution = w₁.toAttribution) : Extends w xs v := by
  rw [← List.append_nil xs]
  exact h.append (same hcalls ha)

end Extends

namespace MacroWorkload

theorem touchLevel_touches (w : MacroWorkload enableAttribution) (side : Side) (price : Int) :
    ∃ a, w.touchLevel side price = { w with toAttribution := a } ∧
      (enableAttribution = true → Touches w.toAttribution {(side, price)} {(side, price)} a) := by
  rw [touchLevel, whenEnabled]
  split
  · exact ⟨_, rfl, fun _ => w.toAttribution.touchLevel_touches side price⟩
  · next he => exact ⟨w.toAttribution, rfl, fun h => absurd h he⟩

theorem applyMatchingAttribution_touches (w : MacroWorkload enableAttribution) (takerSide : Side)
    (limitPrice : Option Int) (trades : List Trade) :
    Ends (fun _ => True)
      (fun w' => ∃ a, w' = { w with toAttribution := a } ∧ (enableAttribution = true →
        Touches w.toAttribution {l | l.1 = takerSide.opposite ∧ ∃ t ∈ trades, t.price = l.2}
          {l | l.1 = takerSide.opposite} a))
      (w.applyMatchingAttribution takerSide limitPrice trades) := by
  rw [applyMatchingAttribution, whenEnabledM]
  split
  · apply (w.toAttribution.applyMatchingAttribution_touches takerSide limitPrice trades _).bind
    exact fun a ha => ⟨a, rfl, fun _ => ha⟩
  · next he => exact ⟨w.toAttribution, rfl, fun h => absurd h he⟩

theorem planRest_touches (w : MacroWorkload enableAttribution) (id : UInt64) (side : Side) (price : Int)
    (res : Reply) :
    Ends (fun _ => True)
      (fun w' => ∃ a, w' = { w.trackRest id side price res with toAttribution := a } ∧
        (enableAttribution = true → Touches w.toAttribution {(side, price)} {(side, price)} a))
      (w.planRest id side price res) := by
  have hset : Ends (fun _ => True)
      (fun w' => ∃ a, w' = { w.trackRest id side price res with toAttribution := a } ∧
        (enableAttribution = true → Touches w.toAttribution ∅ ∅ a))
      ((w.trackRest id side price res).setShadowLevel side price) := by
    rw [setShadowLevel, whenEnabledM]
    split
    · apply ((w.trackRest id side price res).setShadowLevel_touches side price).bind
      exact fun a ha => ⟨a, rfl, fun _ => ha⟩
    · next he => exact ⟨w.toAttribution, rfl, fun h => absurd h he⟩
  rw [planRest]
  apply hset.bind
  rintro _ ⟨a, rfl, ha⟩
  obtain ⟨a', heq, ha'⟩ := touchLevel_touches { w.trackRest id side price res with toAttribution := a } side price
  refine ⟨a', heq, fun he => ?_⟩
  have h := (ha he).trans (ha' he)
  rwa [Set.empty_union] at h

theorem annotateAdd_reuse (w : MacroWorkload enableAttribution) (side : Side) (price : Int) :
    Ends (fun _ => True)
      (fun x => enableAttribution = true → x.levelReuseDistanceOps = w.toAttribution.reuse (side, price))
      (w.annotateAdd {} side price) := by
  rw [annotateAdd]
  split
  · exact (w.toAttribution.annotateAdd_reuse side price).imp (fun _ hx _ => hx)
  · next he => exact fun h => absurd h he

theorem follow_touches {β : Type} {P : β → Prop} {k : MacroWorkload enableAttribution → Plan β}
    (w : MacroWorkload enableAttribution) {id : UInt64} {side : Side} {price : Int} {res : Reply}
    (hk : ∀ t a, (enableAttribution = true →
      Touches w.toAttribution
        (Call.entered side price res) (Call.entered side price res ∪ {l | l.1 = side.opposite}) a) →
      Ends (fun _ => True) P (k { w with toTracking := t, toAttribution := a })) :
    Ends (fun _ => True) P (do
      let w ← w.applyMatchingAttribution side (some price) res.trades
      if res.remaining > 0 then do
        let w ← w.planRest id side price res
        k w
      else k w) := by
  apply (w.applyMatchingAttribution_touches side (some price) res.trades).bind
  rintro _ ⟨a, rfl, ha⟩
  split
  · next hr =>
    apply (planRest_touches _ id side price res).bind
    rintro _ ⟨a', rfl, ha'⟩
    apply hk
    intro he
    apply ((ha he).trans (ha' he)).imp
    · rintro l (⟨hl, ht⟩ | ⟨-, hl⟩)
      · exact Or.inl ⟨hl, ht⟩
      · exact Or.inr hl
    · rintro l (hl | hl)
      · exact Or.inr hl
      · exact Or.inl (Or.inr ⟨hr, hl⟩)
  · next hr =>
    apply hk
    intro he
    apply (ha he).imp
    · rintro l (hl | ⟨hr', -⟩)
      · exact hl
      · exact absurd hr' hr
    · exact fun l hl => Or.inr hl

theorem push_pushed (w : MacroWorkload enableAttribution) (op : PendingOp) (attribution : PendingAttribution) :
    Ends (fun _ => True)
      (fun w' => Pushed w (op, attribution) w' ∧
        ∃ pending pendingAttribution, w' = { w with pending, pendingAttribution })
      (w.push op attribution) := by
  rw [push]
  split
  · next hroom => exact ⟨⟨hroom, rfl, fun he => if_pos he, rfl, rfl⟩, _, _, rfl⟩
  · exact True.intro

theorem call_answered {op : Op} (h : Booked capacity w.book A) (hfew : A.live.length ≤ n) (hlive : op.Live A) :
    Ends (fun _ => True)
      (fun r => ∃ reply b' A', r = (reply, w.called op reply b') ∧ A.exec op = some (reply, A'))
      (w.call op) := by
  apply (call_ends h hfew hlive (False.elim : False → op.Indexed)).mono (fun _ _ => True.intro)
  rintro r ⟨reply, b', A', hr, -, hA, -⟩
  exact ⟨reply, b', A', hr, hA⟩

theorem cancelled_noted (w : MacroWorkload enableAttribution) {target : UInt64} {handle : OrderHandle}
    {m : RestingMeta} (hm : w.restingOrders.find? target = some m) :
    (w.cancelled target handle).1.1.scenario = .cancelOrder ∧
      (enableAttribution = true →
        (w.cancelled target handle).1.2.levelReuseDistanceOps = w.toAttribution.reuse (m.side, m.price) ∧
        ∃ a, Touches w.toAttribution {(m.side, m.price)} {(m.side, m.price)} a ∧
          (w.cancelled target handle).2.toAttribution = { a with attributionOpIndex := a.attributionOpIndex + 1 }) := by
  have hfind : (w.withTables (·.eraseHandle target)).restingOrders.find? target = some m := hm
  unfold cancelled
  dsimp only
  rw [hfind]
  cases enableAttribution with
  | false => exact ⟨rfl, fun h => absurd h Bool.false_ne_true⟩
  | true =>
    exact ⟨rfl, fun _ => ⟨rfl, _, w.toAttribution.touchLevel_touches m.side m.price, rfl⟩⟩

end MacroWorkload

structure Grows (w : MacroWorkload enableAttribution) (x : PendingOp × PendingAttribution)
    (xs : List (PendingOp × PendingAttribution)) (w' : MacroWorkload enableAttribution) : Prop where
  logs : Extends w (x :: xs) w'
  pending : w'.pending = w.pending ++ [x.1]
  pendingAttribution : enableAttribution = true → w'.pendingAttribution = w.pendingAttribution ++ [x.2]
  pregenQueue : w'.pregenQueue = (xs.map Prod.fst).reverse
  pregenAttributionQueue : enableAttribution = true → w'.pregenAttributionQueue = (xs.map Prod.snd).reverse

theorem Grows.of_pushed (hlogs : Extends w [x] w') (hpush : Pushed w x w') (hqueue : w.pregenQueue = [])
    (hattributions : enableAttribution = true → w.pregenAttributionQueue = []) : Grows w x [] w' :=
  ⟨hlogs, hpush.pending, hpush.pendingAttribution, hpush.pregenQueue.trans hqueue,
    fun he => hpush.pregenAttributionQueue.trans (hattributions he)⟩

namespace Kept

theorem pendingLimitAdd_noted (h : Kept capacity n w) :
    Ends (fun _ => True) (fun w' => ∃ x, Extends w [x] w' ∧ Pushed w x w') w.pendingLimitAdd := by
  obtain ⟨A, hbook, hacc, -⟩ := h
  have hq := w.toDraws.limit_qty_ne_zero w.bestAsk
  have hlevel := hacc.follows.toLists.hasPriceLevel_eq hbook.rep
  rw [MacroWorkload.pendingLimitAdd]
  generalize w.toDraws.limit w.bestAsk = draw at hq ⊢
  obtain ⟨draw, d⟩ := draw
  dsimp only [MacroWorkload.nextId]
  apply Ends.bind (MacroWorkload.annotateAdd_reuse _ _ _)
  intro attribution hreuse
  refine Ends.bind (MacroWorkload.call_answered hbook hacc.few True.intro) ?_
  rintro _ ⟨res, b', A', rfl, hA⟩
  have hadded := added_of_exec_limit hq hA
  dsimp only
  simp only [hadded.code, true_and]
  apply MacroWorkload.follow_touches
  intro t a ha
  refine Ends.bind (MacroWorkload.push_pushed _ _ _) ?_
  rintro _ ⟨hpush, pending, pendingAttribution, rfl⟩
  refine ⟨_, Extends.one rfl ⟨rfl, ?_, Or.inl hadded.code⟩ ?_, hpush.room, hpush.pending,
    hpush.pendingAttribution, hpush.pregenQueue, hpush.pregenAttributionQueue⟩
  · simp only [Call.scenario, hadded.code, true_and]
    rw [← hlevel]
  · intro he
    apply Noted.of_touches
    · rw [Call.moved_limit]
      apply (ha he).imp subset_rfl
      rintro l (hl | hl)
      · exact Or.inl hl
      · exact Or.inr (congrArg some hl.symm)
    · rintro _ ⟨⟩
      exact hreuse he

theorem pendingMarket_noted (h : Kept capacity n w) :
    Ends (fun _ => True) (fun w' => ∃ x, Extends w [x] w' ∧ Pushed w x w') w.pendingMarket := by
  rw [MacroWorkload.pendingMarket]
  dsimp only
  split
  · exact h.pendingLimitAdd_noted
  · obtain ⟨A, hbook, hacc, -⟩ := h
    have hq := w.toDraws.market_qty_ne_zero (UInt64.ofNat w.restingOrders.size)
    generalize w.toDraws.market (UInt64.ofNat w.restingOrders.size) = draw at hq ⊢
    obtain ⟨⟨side, qty⟩, d⟩ := draw
    dsimp only [MacroWorkload.nextId]
    refine Ends.bind (MacroWorkload.call_answered hbook hacc.few True.intro) ?_
    rintro _ ⟨res, b', A', rfl, hA⟩
    obtain ⟨hcode, -, -⟩ := marketed_of_exec hq hA
    apply Ends.bind (MacroWorkload.applyMatchingAttribution_touches _ side none res.trades)
    rintro _ ⟨a, rfl, ha⟩
    refine Ends.bind (MacroWorkload.push_pushed _ _ _) ?_
    rintro _ ⟨hpush, pending, pendingAttribution, rfl⟩
    refine ⟨_, Extends.one rfl ⟨rfl, rfl, hcode.imp_right (And.intro rfl)⟩ ?_, hpush.room, hpush.pending,
      hpush.pendingAttribution, hpush.pregenQueue, hpush.pregenAttributionQueue⟩
    intro he
    apply Noted.of_touches
    · rw [Call.moved_market]
      apply (ha he).imp subset_rfl
      exact fun l hl => Or.inr (congrArg some (Eq.symm hl))
    · rintro _ ⟨⟩

theorem pendingModify_noted (h : Kept capacity n w) :
    Ends (fun _ => True) (fun w' => ∃ x, Extends w [x] w' ∧ Pushed w x w') w.pendingModify := by
  rw [MacroWorkload.pendingModify]
  split
  · exact h.pendingLimitAdd_noted
  · next hne =>
    obtain ⟨A, hbook, hacc, -⟩ := h
    rw [hacc.follows.toLists.isEmpty_iff] at hne
    apply Ends.bind ((MacroWorkload.selectCancelTarget_ends hacc hne).of_never)
    rintro _ ⟨y, hy, restingIds, d, hlisted, -, rfl⟩
    have hacc₁ := hacc.withIds hlisted
    dsimp only
    rw [if_neg (hacc.id_ne_zero hy), hacc.follows.toLists.find?_of_mem hy]
    have hq := d.modify_qty_ne_zero y.2.price
    dsimp only
    generalize d.modify y.2.price = draw at hq ⊢
    obtain ⟨draw, d'⟩ := draw
    dsimp only [MacroWorkload.nextId]
    rw [hacc.follows.handle_of_mem hy]
    refine Ends.bind (MacroWorkload.call_answered hbook hacc₁.few (hbook.modify_live hy _ _ _ _)) ?_
    rintro _ ⟨res, b', A', rfl, hA⟩
    have hadded := added_of_exec_modify (hbook.locate hy) hq hA
    dsimp only
    simp only [hadded.code, ne_eq, not_true_eq_false, if_false]
    obtain ⟨a₀, heq, ha₀⟩ := MacroWorkload.touchLevel_touches (({ w with
      restingIds, toDraws := d', idCounter := w.idCounter + 1 } : MacroWorkload enableAttribution).called
        (.modify (UInt32.ofNat y.2.slot) draw.side draw.price draw.qty w.idCounter) res b') y.1 y.2.price
    rw [heq]
    apply MacroWorkload.follow_touches
    intro t a ha
    refine Ends.bind (MacroWorkload.push_pushed _ _ _) ?_
    rintro _ ⟨hpush, pending, pendingAttribution, rfl⟩
    refine ⟨_, Extends.one rfl ⟨rfl, rfl, Or.inl hadded.code⟩ ?_, hpush.room, hpush.pending,
      hpush.pendingAttribution, hpush.pregenQueue, hpush.pregenAttributionQueue⟩
    intro he
    apply Noted.of_touches
    · rw [Call.moved_modify]
      apply ((ha₀ he).trans (ha he)).imp
      · rintro l (hl | hl)
        · exact Or.inl (Option.some.inj ((hbook.levelOf hy).symm.trans hl)).symm
        · exact Or.inr hl
      · rintro l (rfl | hl | hl)
        · exact Or.inl (Or.inl (hbook.levelOf hy))
        · exact Or.inl (Or.inr hl)
        · exact Or.inr (congrArg some (Eq.symm hl))
    · rintro _ ⟨⟩

theorem cancelled_extends (hbook : Booked capacity w.book A) (hacc : Accounts n w.toTracking w.idCounter A)
    {y : Side × Entry} (hy : y ∈ A.live) {b' : ArrayBook}
    (heq : (w.called (.cancel (UInt32.ofNat y.2.slot)) (.cancelled .success) b').cancelled y.2.id
      (UInt32.ofNat y.2.slot) = (x, w')) : Extends w [x] w' := by
  have hm : (w.called (.cancel (UInt32.ofNat y.2.slot)) (.cancelled .success) b').restingOrders.find? y.2.id =
      some ⟨y.1, y.2.price, y.2.quantity⟩ := hacc.follows.toLists.find?_of_mem hy
  obtain ⟨x', a', heq', -, hop, htype, -⟩ := (w.called (.cancel (UInt32.ofNat y.2.slot)) (.cancelled .success)
    b').cancelled_eq y.2.id (UInt32.ofNat y.2.slot)
  obtain ⟨rfl, rfl⟩ := Prod.mk.inj (heq.symm.trans heq')
  obtain ⟨hscenario, hnoted⟩ := MacroWorkload.cancelled_noted _ hm
  rw [heq] at hscenario hnoted
  refine Extends.one rfl ⟨hop.symm, hscenario, Or.inl rfl⟩ (fun he => ?_)
  obtain ⟨hreuse, a, ha, hattr⟩ := hnoted he
  rw [hattr]
  apply Noted.of_touches
  · rw [Call.moved_cancel]
    apply ha.imp
    · exact fun l hl => (Option.some.inj ((hbook.levelOf hy).symm.trans hl)).symm
    · rintro l rfl
      exact Or.inl (hbook.levelOf hy)
  · intro l hl
    obtain rfl := Option.some.inj ((hbook.levelOf hy).symm.trans hl)
    exact hreuse

theorem clusterAttempt_noted (h : Kept capacity n w) (hne : w.restingOrders.isEmpty = false) (best : Int)
    (attempts : ℕ) :
    Ends (fun _ => True) (fun r => Extends w r.1.toList r.2) (w.clusterAttempt best attempts) := by
  induction attempts generalizing w with
  | zero => exact Extends.same rfl rfl
  | succ attempts ih =>
    obtain ⟨A, hbook, hacc, hpriced⟩ := h
    have hids := hacc.follows.toLists.restingIds_ne_nil (hacc.follows.toLists.isEmpty_eq_false.mp hne)
    rw [MacroWorkload.clusterAttempt]
    apply Ends.bind (Ends.of_never (Draws.restingId_ends _ hids))
    rintro ⟨id, d⟩ -
    have hretry : Ends (fun _ => True) (fun r => Extends w r.1.toList r.2)
        (MacroWorkload.clusterAttempt best attempts { w with toDraws := d }) :=
      (ih (w := { w with toDraws := d }) ⟨A, hbook, hacc, hpriced⟩ hne).imp (fun _ hr => hr.of_same rfl rfl)
    dsimp only
    cases hm : w.restingOrders.find? id with
    | none => exact hretry
    | some m =>
      obtain ⟨y, hy, hrow⟩ := hacc.follows.toLists.find?_eq_some.mp hm
      obtain ⟨rfl, rfl⟩ := Prod.mk.inj hrow
      dsimp only
      split
      · rw [hacc.follows.handle_of_mem hy]
        dsimp only
        apply Ends.bind (Ends.of_never (MacroWorkload.call_cancel_ends (w := { w with toDraws := d }) hbook hy))
        rintro _ ⟨b', rfl, -, -⟩
        dsimp only
        rw [if_neg (fun h => h rfl)]
        exact (cancelled_extends (w := { w with toDraws := d }) hbook hacc hy rfl).of_same rfl rfl
      · exact hretry

theorem clusterLoop_noted (h : Kept capacity n w) (best : Int) (k : ℕ) :
    Ends (fun _ => True) (fun r => Extends w r.1 r.2) (w.clusterLoop best k) := by
  induction k generalizing w with
  | zero => exact Extends.same rfl rfl
  | succ k ih =>
    rw [MacroWorkload.clusterLoop]
    split
    · exact Extends.same rfl rfl
    · next hne =>
      have hne : w.restingOrders.isEmpty = false := by simpa using hne
      apply Ends.bind ((h.clusterAttempt hne best 50).and (h.clusterAttempt_noted hne best 50))
      rintro ⟨op, w₁⟩ ⟨⟨hkept, -⟩, hlogs⟩
      apply Ends.bind (ih hkept)
      rintro ⟨ops, w₂⟩ hlogs'
      exact hlogs.append hlogs'

theorem enqueueClusterPending_noted (h : Kept capacity n w) (hqueue : w.pregenQueue = [])
    (hattributions : enableAttribution = true → w.pregenAttributionQueue = []) :
    Ends (fun _ => True)
      (fun w' => ∃ xs, Extends w xs w' ∧ w'.pending = w.pending ∧ w'.pendingAttribution = w.pendingAttribution ∧
        w'.pregenQueue = (xs.map Prod.fst).reverse ∧
        (enableAttribution = true → w'.pregenAttributionQueue = (xs.map Prod.snd).reverse))
      w.enqueueClusterPending := by
  rw [MacroWorkload.enqueueClusterPending]
  dsimp only
  by_cases hsize : w.toDraws.clusterSize.1 ≤ 1
  · rw [if_pos hsize]
    exact ⟨[], .same rfl rfl, rfl, rfl, hqueue, hattributions⟩
  · rw [if_neg hsize]
    have hkept : Kept capacity n ({ w with toDraws := w.toDraws.clusterSize.2 } : MacroWorkload enableAttribution) := h
    apply Ends.bind ((hkept.clusterLoop _ _).and (hkept.clusterLoop_noted _ _))
    rintro ⟨ops, w₁⟩ ⟨⟨-, -, hsame, -⟩, hlogs⟩
    refine ⟨ops, (hlogs.of_same (w := w) rfl rfl).to_same rfl rfl, hsame.pending, hsame.pendingAttribution, ?_,
      fun he => ?_⟩
    · change w₁.pregenQueue ++ _ = _
      rw [hsame.pregenQueue, hqueue, List.nil_append]
    · apply (if_pos he).trans
      rw [hsame.pregenAttributionQueue, hattributions he, List.nil_append]

theorem cancelAttempts_noted (h : Kept capacity n w) (hne : w.restingOrders.isEmpty = false)
    (hqueue : w.pregenQueue = []) (hattributions : enableAttribution = true → w.pregenAttributionQueue = [])
    (attempts : ℕ) :
    Ends (fun _ => True) (fun r => r.1 = true ∧ ∃ x xs, Grows w x xs r.2) (w.cancelAttempts (attempts + 1)) := by
  obtain ⟨A, hbook, hacc, hpriced⟩ := h
  have hlive := hacc.follows.toLists.isEmpty_eq_false.mp hne
  rw [MacroWorkload.cancelAttempts]
  apply Ends.bind ((MacroWorkload.selectCancelTarget_ends hacc hlive).of_never)
  rintro _ ⟨y, hy, restingIds, d, hlisted, -, rfl⟩
  dsimp only
  rw [if_neg (hacc.id_ne_zero hy), hacc.follows.handle_of_mem hy]
  dsimp only
  apply Ends.bind ((MacroWorkload.call_cancel_ends (w := { w with restingIds, toDraws := d }) hbook hy).of_never)
  rintro _ ⟨b', rfl, hb, hbook'⟩
  obtain ⟨x, w₁, heq, -, hsame, -, hkept, -⟩ :=
    cancelled (w := { w with restingIds, toDraws := d }) hbook (hacc.withIds hlisted) hy hbook' hb
  have hlogs := cancelled_extends (w := { w with restingIds, toDraws := d }) hbook (hacc.withIds hlisted) hy heq
  have hlogs := hlogs.of_same (w := w) rfl rfl
  dsimp only
  rw [if_neg (fun h => h rfl), heq]
  apply Ends.bind (MacroWorkload.push_pushed _ _ _)
  rintro _ ⟨hpush, pending, pendingAttribution, rfl⟩
  have hpending := hpush.pending.trans (congrArg (· ++ [x.1]) hsame.pending)
  have hattr (he : enableAttribution = true) : pendingAttribution = w.pendingAttribution ++ [x.2] := by
    apply (hpush.pendingAttribution he).trans
    rw [hsame.pendingAttribution]
  have hlogs := hlogs.to_same (v := { w₁ with pending, pendingAttribution, toDraws := w₁.toDraws.nextParam.2 }) rfl rfl
  dsimp only
  split
  · apply Ends.bind (enqueueClusterPending_noted (n := n) (w := { w₁ with
      pending, pendingAttribution, toDraws := w₁.toDraws.nextParam.2 }) hkept (hsame.pregenQueue.trans hqueue)
      (fun he => hsame.pregenAttributionQueue.trans (hattributions he)))
    rintro w₂ ⟨xs, hlogs', hpending', hattr', hq, hqa⟩
    exact ⟨rfl, x, xs, hlogs.append hlogs', hpending'.trans hpending, fun he => hattr'.trans (hattr he), hq, hqa⟩
  · exact ⟨rfl, x, [], hlogs, hpending, hattr, hsame.pregenQueue.trans hqueue,
      fun he => hsame.pregenAttributionQueue.trans (hattributions he)⟩

theorem pendingCancel_noted (h : Kept capacity n w) (hqueue : w.pregenQueue = [])
    (hattributions : enableAttribution = true → w.pregenAttributionQueue = []) :
    Ends (fun _ => True) (fun w' => ∃ x xs, Grows w x xs w') w.pendingCancel := by
  rw [MacroWorkload.pendingCancel]
  split
  · apply h.pendingLimitAdd_noted.imp
    rintro w' ⟨x, hlogs, hpush⟩
    exact ⟨x, [], .of_pushed hlogs hpush hqueue hattributions⟩
  · next hne =>
    apply Ends.bind (h.cancelAttempts_noted (by simpa using hne) hqueue hattributions 3)
    rintro ⟨done, w'⟩ ⟨hdone, hgrows⟩
    cases hdone
    exact hgrows

end Kept

def Journal (start : Attribution) (w : MacroWorkload enableAttribution) : Prop :=
  ∃ xs, Logged start w xs ∧ w.pending ++ w.pregenQueue.reverse = xs.map Prod.fst ∧
    (enableAttribution = true → w.pendingAttribution ++ w.pregenAttributionQueue.reverse = xs.map Prod.snd)

theorem reverse_of_getLast? {α : Type} {l : List α} {z : α} (h : l.getLast? = some z) :
    l.reverse = z :: l.dropLast.reverse := by
  conv_lhs => rw [← List.dropLast_append_getLast? z h]
  exact List.reverse_concat

theorem Journal.popped (h : Journal start w) (hpop : Popped w w')
    (hqueues : enableAttribution = true → w.pregenAttributionQueue.length = w.pregenQueue.length) :
    Journal start w' := by
  obtain ⟨xs, hlogged, hops, hattrs⟩ := h
  obtain ⟨op, hop, -, rfl⟩ := hpop
  refine ⟨xs, ⟨hlogged.tagged, hlogged.trail⟩, ?_, fun he => ?_⟩
  · rw [reverse_of_getLast? hop, List.append_cons] at hops
    exact hops
  · have hattrs := hattrs he
    cases hz : w.pregenAttributionQueue.getLast? with
    | none =>
      have hlen := hqueues he
      rw [List.getLast?_eq_none_iff.mp hz, eq_comm, List.length_nil, List.length_eq_zero_iff] at hlen
      rw [hlen] at hop
      cases hop
    | some z =>
      rw [reverse_of_getLast? hz, List.append_cons] at hattrs
      simp only [he, if_true]
      exact hattrs

theorem Journal.grows (h : Journal start w) (hgrows : Grows w x xs w') (hqueue : w.pregenQueue = [])
    (hattributions : enableAttribution = true → w.pregenAttributionQueue = []) : Journal start w' := by
  obtain ⟨ys, hlogged, hops, hattrs⟩ := h
  rw [hqueue, List.reverse_nil, List.append_nil] at hops
  refine ⟨ys ++ x :: xs, hgrows.logs start ys hlogged, ?_, fun he => ?_⟩
  · rw [hgrows.pending, hgrows.pregenQueue, hops, List.reverse_reverse, List.map_append, List.append_assoc]
    rfl
  · have hattrs := hattrs he
    rw [hattributions he, List.reverse_nil, List.append_nil] at hattrs
    rw [hgrows.pendingAttribution he, hgrows.pregenAttributionQueue he, hattrs, List.reverse_reverse, List.map_append,
      List.append_assoc]
    rfl

theorem Journal.step (h : Journal start w) (hkept : Kept capacity n w)
    (hqueues : enableAttribution = true → w.pregenAttributionQueue.length = w.pregenQueue.length) :
    Ends (fun _ => True) (Journal start) w.generatePendingOne := by
  rw [MacroWorkload.generatePendingOne]
  split
  · next op hop =>
    rw [MacroWorkload.push]
    split
    · next hroom => exact h.popped ⟨op, hop, hroom, rfl⟩ hqueues
    · exact True.intro
  · next hop =>
    have hqueue := List.getLast?_eq_none_iff.mp hop
    have hattributions (he : enableAttribution = true) : w.pregenAttributionQueue = [] := by
      have hlen := hqueues he
      rw [hqueue] at hlen
      exact List.length_eq_zero_iff.mp hlen
    have hkept' : Kept capacity n ({ w with toDraws := w.toDraws.nextEvent.2 } : MacroWorkload enableAttribution) := hkept
    have hj : Journal start ({ w with toDraws := w.toDraws.nextEvent.2 } : MacroWorkload enableAttribution) := by
      obtain ⟨xs, hlogged, hops, hattrs⟩ := h
      exact ⟨xs, ⟨hlogged.tagged, hlogged.trail⟩, hops, hattrs⟩
    have hone (w' : MacroWorkload enableAttribution)
        (hw' : ∃ x, Extends { w with toDraws := w.toDraws.nextEvent.2 } [x] w' ∧
          Pushed { w with toDraws := w.toDraws.nextEvent.2 } x w') : Journal start w' := by
      obtain ⟨x, hlogs, hpush⟩ := hw'
      exact hj.grows (.of_pushed hlogs hpush hqueue hattributions) hqueue hattributions
    dsimp only
    split
    · exact hkept'.pendingLimitAdd_noted.imp hone
    · split
      · apply (hkept'.pendingCancel_noted hqueue hattributions).imp
        rintro w' ⟨x, xs, hgrows⟩
        exact hj.grows hgrows hqueue hattributions
      · split
        · exact hkept'.pendingModify_noted.imp hone
        · exact hkept'.pendingMarket_noted.imp hone

end Llmes.Hft
