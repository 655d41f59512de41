import Llmes.Hft.Mirror

namespace Llmes.Hft

open BookSide BookView LawfulBookSide OrderBook Outcome

variable {w w₁ w' : MacroWorkload true} {A : LiveBook} {capacity n k : ℕ} {x : PendingOp × PendingAttribution}
  {xs : List (PendingOp × PendingAttribution)}

def NoneSkips (cs : List Call) : Prop := ∀ c ∈ cs, ¬ Skips c.before c.op

theorem NoneSkips.append {cs cs' : List Call} : NoneSkips (cs ++ cs') ↔ NoneSkips cs ∧ NoneSkips cs' :=
  List.forall_mem_append

def Mirrors (w w' : MacroWorkload true) : Prop :=
  ∃ cs, w'.calls = w.calls ++ cs ∧ (Mirrored w' ↔ NoneSkips cs)

theorem noneSkips_cancels {cs : List Call} {ops : List PendingOp} (h : List.Forall₂ Records cs ops)
    (hops : ∀ op ∈ ops, op.type = .cancel) : NoneSkips cs := by
  induction h with
  | nil => exact List.forall_mem_nil _
  | cons hc _ ih =>
    obtain ⟨hop, hrest⟩ := List.forall_mem_cons.mp hops
    exact List.forall_mem_cons.mpr ⟨hc.not_skips hop, ih hrest⟩

theorem right_cancels {cs : List Call} (h : List.Forall₂ Records cs (xs.map Prod.fst))
    (hxs : ∀ y ∈ xs, y.1.type = .cancel) : List.Forall₂ Right cs (xs.map Prod.snd) := by
  induction xs generalizing cs with
  | nil =>
    cases h
    exact .nil
  | cons y xs ih =>
    obtain ⟨htype, hxs⟩ := List.forall_mem_cons.mp hxs
    obtain ⟨c, cs, hc, hrest, rfl⟩ := List.forall₂_cons_right_iff.mp h
    refine .cons ?_ (ih hrest hxs)
    intro orderId side price quantity timestamp hop
    rw [hc.1, PendingOp.op, htype] at hop
    cases hop

theorem RecordedAll.mirrored (h : RecordedAll w (x :: xs) w') (hrep : Rep w.book A) (hw : Mirrored w)
    (hxs : ∀ y ∈ xs, y.1.type = .cancel) :
    ∃ cs, w'.calls = w.calls ++ cs ∧ (Mirrored w' ↔ NoneSkips cs) ∧
      List.Forall₂ Right cs ((x :: xs).map Prod.snd) := by
  cases h with
  | @cons _ w₁ _ _ _ head tail =>
    obtain ⟨A₁, hrep₁, -⟩ := head.lists
    obtain ⟨reply, hexec, hcalls, -⟩ := head.call
    obtain ⟨cs, hcs, -, hrecords⟩ := tail.calls
    have hnone : NoneSkips cs := by
      apply noneSkips_cancels hrecords
      intro op hop
      obtain ⟨y, hy, rfl⟩ := List.mem_map.mp hop
      exact hxs y hy
    refine ⟨⟨w.book, x.1.op, reply⟩ :: cs, ?_, ?_, ?_⟩
    · rw [hcs, hcalls, List.append_assoc]
      rfl
    · rw [tail.cancels hrep₁ hxs, head.mirrored hrep hw, NoneSkips, List.forall_mem_cons]
      exact (and_iff_left hnone).symm
    · exact .cons (head.right hrep hw hexec) (right_cancels hrecords hxs)

theorem Recorded.mirrors (h : Recorded w x w') (hrep : Rep w.book A) (hw : Mirrored w) : Mirrors w w' := by
  obtain ⟨cs, hcalls, hmirrored, -⟩ := RecordedAll.mirrored (.cons h (.nil rfl rfl rfl)) hrep hw (List.forall_mem_nil _)
  exact ⟨cs, hcalls, hmirrored⟩

theorem Planned.mirrors (h : Planned w x xs w') (hrep : Rep w.book A) (hw : Mirrored w) : Mirrors w w' := by
  obtain ⟨cs, hcalls, hmirrored, -⟩ := h.recorded.mirrored hrep hw h.cluster
  exact ⟨cs, hcalls, hmirrored⟩

def RightSoFar (w : MacroWorkload true) : Prop :=
  List.Forall₂ Right w.calls (w.pendingAttribution ++ w.pregenAttributionQueue.reverse)

theorem Popped.rightSoFar (h : Popped w w') (hlen : w.pregenAttributionQueue.length = w.pregenQueue.length)
    (hw : RightSoFar w) : RightSoFar w' := by
  obtain ⟨op, hop, -, rfl⟩ := h
  have hne : w.pregenAttributionQueue ≠ [] := by
    intro hnil
    rw [hnil] at hlen
    rw [List.length_eq_zero_iff.mp hlen.symm] at hop
    cases hop
  obtain ⟨a, ha⟩ : ∃ a, w.pregenAttributionQueue.getLast? = some a := ⟨_, List.getLast?_eq_some_getLast hne⟩
  have hqueue : w.pregenAttributionQueue.reverse = a :: w.pregenAttributionQueue.dropLast.reverse := by
    conv_lhs => rw [← List.dropLast_append_getLast? a ha]
    rw [List.reverse_append]
    rfl
  unfold RightSoFar at hw ⊢
  rw [hqueue, List.append_cons] at hw
  dsimp only
  rw [if_pos rfl, if_pos rfl, ha]
  exact hw

theorem Planned.rightSoFar (h : Planned w x xs w') (hrep : Rep w.book A) (hw : Mirrored w)
    (hqueue : w.pregenAttributionQueue = []) (hright : RightSoFar w) : RightSoFar w' := by
  obtain ⟨cs, hcalls, -, hnew⟩ := h.recorded.mirrored hrep hw h.cluster
  unfold RightSoFar at hright ⊢
  rw [hqueue, List.reverse_nil, List.append_nil] at hright
  rw [hcalls, h.pendingAttribution rfl, h.pregenAttributionQueue rfl, List.reverse_reverse, ← List.append_cons]
  exact List.rel_append hright hnew

structure MirrorRun (capacity k : ℕ) (w₀ w : MacroWorkload true) : Prop where
  batch : Batch capacity k w
  run : times MacroWorkload.generatePendingOne k w₀ = .ok w
  mirrored : Through MacroWorkload.generatePendingOne Mirrored (k + 1) w₀ ↔ NoneSkips w.calls
  right : NoneSkips w.calls → RightSoFar w

theorem MirrorRun.step {w₀ : MacroWorkload true} (h : MirrorRun capacity k w₀ w) :
    Ends (Halts (PlanFits w) capacity (505000 + k)) (MirrorRun capacity (k + 1) w₀) w.generatePendingOne := by
  apply h.batch.step.eq_ok.imp
  rintro w' ⟨hstep, hbatch, hw'⟩
  have hrun : times MacroWorkload.generatePendingOne (k + 1) w₀ = .ok w' := by
    rw [times_succ, h.run]
    exact hstep
  have hmirrored := h.mirrored
  have hlast : NoneSkips w.calls → Mirrored w := fun hnone => hmirrored.mpr hnone k (Nat.lt_succ_self k) w h.run
  have hqueues := h.batch.queues rfl
  rcases hw' with hpop | ⟨hqueue, x, xs, hplanned, -⟩
  · have hsame : (Mirrored w' ↔ Mirrored w) ∧ w'.calls = w.calls := by
      obtain ⟨op, -, -, rfl⟩ := hpop
      exact ⟨Iff.rfl, rfl⟩
    refine ⟨hbatch, hrun, ?_, fun hnone => ?_⟩
    · rw [through_last hrun, hmirrored, hsame.1, hsame.2]
      exact and_iff_left_of_imp hlast
    · rw [hsame.2] at hnone
      exact hpop.rightSoFar hqueues (h.right hnone)
  · obtain ⟨A, hbook, -⟩ := h.batch.kept
    have hattributions : w.pregenAttributionQueue = [] := by
      rw [hqueue] at hqueues
      exact List.length_eq_zero_iff.mp hqueues
    have hcalls : ∃ cs, w'.calls = w.calls ++ cs := by
      obtain ⟨cs, hcs, -⟩ := hplanned.recorded.calls
      exact ⟨cs, hcs⟩
    refine ⟨hbatch, hrun, ?_, fun hnone => ?_⟩
    · rw [through_last hrun, hmirrored]
      by_cases hnone : NoneSkips w.calls
      · obtain ⟨cs, hcs, hiff⟩ := hplanned.mirrors hbook.rep (hlast hnone)
        rw [hcs, NoneSkips.append, hiff]
      · obtain ⟨cs, hcs⟩ := hcalls
        rw [hcs, NoneSkips.append]
        exact iff_of_false (fun h => hnone h.1) (fun h => hnone h.1)
    · obtain ⟨cs, hcs⟩ := hcalls
      rw [hcs, NoneSkips.append] at hnone
      exact hplanned.rightSoFar hbook.rep (hlast hnone.1) hattributions (h.right hnone.1)

theorem Kept.mirrorRun {w : MacroWorkload true} (h : Kept capacity 505000 w) :
    Ends (fun _ => False) (fun w₀ => MirrorRun capacity 0 w₀ w₀) (w.beginBatch capacity) := by
  apply h.beginBatch.imp
  rintro w₀ ⟨hkept, hpending, hqueue, hcalls, hattributions, hmarked, -⟩
  obtain ⟨hattrs, hattrQueue, hmarks⟩ := hattributions rfl
  have hmirrored : Mirrored w₀ := by
    obtain ⟨A, hbook, hacc, -⟩ := hkept
    rw [mirrored_iff]
    funext s
    ext p
    rw [hmarks, ArrayBook.mem_marks]
    refine ⟨fun hlevel => ?_, hmarked s p⟩
    obtain ⟨e, he, rfl⟩ := hacc.follows.toLists.hasPriceLevel_iff.mp hlevel
    exact hbook.rep.ref_ne_none (List.ne_nil_of_mem (hbook.rep.sound.order (LiveBook.mem_live.mp he)).1)
  have hnone : NoneSkips w₀.calls := by
    rw [hcalls]
    exact List.forall_mem_nil _
  refine ⟨⟨hkept, congrArg List.length hpending, Nat.zero_le _, fun _ => ?_⟩, rfl, ?_, fun _ => ?_⟩
  · rw [hqueue, hattrQueue]
    rfl
  · rw [through_last rfl, propext through_zero]
    exact iff_of_true ⟨trivial, hmirrored⟩ hnone
  · rw [RightSoFar, hcalls, hattrs, hattrQueue]
    exact .nil

structure Ready (capacity n : ℕ) (w : MacroWorkload true) : Prop where
  kept : Kept capacity n w
  mirrored : Mirrored w
  bestAsk : w.bestAsk < kBitCount
  counter : 1000000 + n < 2 ^ 64 - 1
  length : w.pending.length ≤ n

theorem Ready.recorded (h : Ready capacity n w) {fits : MacroWorkload true → PendingOp × PendingAttribution → Prop}
    {F : Prop} {y : Plan (MacroWorkload true)}
    (hy : Ends (Halts F capacity n) (fun w' => ∃ x, Kept capacity (n + 1) w' ∧ Recorded w x w' ∧ fits w' x) y) :
    Ends (Halts F capacity n) (Mirrors w) y := by
  obtain ⟨A, hbook, -⟩ := h.kept
  apply hy.imp
  rintro w' ⟨x, -, hrec, -⟩
  exact hrec.mirrors hbook.rep h.mirrored

theorem Ready.limitAdd (h : Ready capacity n w) :
    Ends (Halts (AddFits w) capacity n) (Mirrors w) w.pendingLimitAdd :=
  h.recorded (h.kept.pendingLimitAdd h.counter h.length h.bestAsk)

theorem Ready.modify (h : Ready capacity n w) :
    Ends (Halts (FallbackFits w ∧ (w.restingOrders.isEmpty = false → ModifyFits w)) capacity n) (Mirrors w)
      w.pendingModify :=
  h.recorded (h.kept.pendingModify h.counter h.length h.bestAsk)

theorem Ready.market (h : Ready capacity n w) :
    Ends (Halts (FallbackFits w) capacity n) (Mirrors w) w.pendingMarket :=
  h.recorded (h.kept.pendingMarket h.counter h.length h.bestAsk)

theorem Ready.cancel (h : Ready capacity n w) (hqueue : w.pregenQueue = []) (hattributions : w.pregenAttributionQueue = []) :
    Ends (Halts (FallbackFits w) capacity n) (Mirrors w) w.pendingCancel := by
  obtain ⟨A, hbook, -⟩ := h.kept
  apply (h.kept.pendingCancel h.counter h.length h.bestAsk hqueue (fun _ => hattributions)).imp
  rintro w' ⟨-, x, xs, hplanned, -⟩
  exact hplanned.mirrors hbook.rep h.mirrored

/-- The shadow trees mirror the book after every planned operation just if no call has skipped. Then what is
recorded of an add that rests is right. One operation mirrors just if none of its calls skips. -/
theorem shadow_mirrors_iff (capacity : ℕ) :
    (∀ d k,
      Ends (Halts (WarmupsFit true capacity d 500000 ∧ PlansFit true capacity d k) capacity (505000 + k))
        (fun w => ((∀ j ≤ k, ∀ w', MacroWorkload.planned true capacity d j = .ok w' → Mirrored w') ↔ NoneSkips w.calls) ∧
          (NoneSkips w.calls → RightSoFar w))
        (MacroWorkload.planned true capacity d k)) ∧
    ∀ n w, Ready capacity n w →
      Ends (Halts (AddFits w) capacity n) (Mirrors w) w.pendingLimitAdd ∧
      Ends (Halts (FallbackFits w ∧ (w.restingOrders.isEmpty = false → ModifyFits w)) capacity n) (Mirrors w)
        w.pendingModify ∧
      Ends (Halts (FallbackFits w) capacity n) (Mirrors w) w.pendingMarket ∧
      (w.pregenQueue = [] → w.pregenAttributionQueue = [] →
        Ends (Halts (FallbackFits w) capacity n) (Mirrors w) w.pendingCancel) := by
  refine ⟨fun d k => ?_, fun n w h => ⟨h.limitAdd, h.modify, h.market, h.cancel⟩⟩
  apply after_warmup (fun e he => Halts.imp And.left e (Halts.mono (Nat.le_add_right _ _) e he))
  intro w w₀ hwarmed hkept hbegin
  have hplanned (j : ℕ) : MacroWorkload.planned true capacity d j = times MacroWorkload.generatePendingOne j w₀ := by
    rw [MacroWorkload.planned, hwarmed]
    change w.beginBatch capacity >>= _ = _
    rw [hbegin]
    rfl
  have hrun := plan_times (P := fun k w => MirrorRun capacity k w₀ w) (fun k w => MirrorRun.step)
    (hkept.mirrorRun.of_ok hbegin) k
  apply hrun.mono (fun e => Halts.imp (fun hfits => (plansFit_iff hwarmed hbegin).mpr hfits.2) e)
  intro w' hw'
  refine ⟨?_, hw'.right⟩
  rw [← hw'.mirrored]
  constructor
  · exact fun h j hj t ht => h j (Nat.le_of_lt_succ hj) t ((hplanned j).trans ht)
  · exact fun h j hj t ht => h j (Nat.lt_succ_of_le hj) t ((hplanned j).symm.trans ht)

section Skipping

open MacroWorkload

/-- Sells at 1001, 1003 and 1005; the second is cancelled, and the first becomes a buy at 1002. -/
def skipping : Draws :=
  ⟨Stream'.const 0, fun i => [1, 0xFF, 0, 1, 0xFF0000, 0, 1, 0xFF00000000, 0, 0, 1, 50, 0, 0, 0, 1, 0, 0].getD i 0,
    Stream'.const ⟨id, List.Perm.refl⟩, fun total => total * 4 / 5⟩

@[irreducible] def ghosted : Plan (MacroWorkload true) := do
  let w ← (start true 8 skipping).pendingLimitAdd
  let w ← w.pendingLimitAdd
  let w ← w.pendingLimitAdd
  w.pendingCancel

def sameWords (w : MacroWorkload true) : Bool :=
  [Side.buy, Side.sell].all (fun s => (List.range 64).all (fun j =>
    (w.shadowTree s).l1 j == (w.book.book s).activeTree.levels j))

theorem mirrored_of_sameWords (h : sameWords w = true) : Mirrored w := by
  intro s i
  have hword : ∀ j < 64, (w.shadowTree s).l1 j = (w.book.book s).activeTree.levels j := by
    intro j hj
    have hside := List.all_eq_true.mp h s (by cases s <;> simp)
    exact beq_iff_eq.mp (List.all_eq_true.mp hside j (List.mem_range.mpr hj))
  rw [ShadowOccupancyTree.test, OccupancyTree.test]
  by_cases hi : i < kBitCount
  · rw [hword _ (OccupancyTree.bit_lt hi).1]
  · simp [hi]

theorem ghosted_ready : Ends (fun _ => True)
    (fun w => Kept 8 4 w ∧ w.pending.length = 4) ghosted := by
  have hadd (n : ℕ) (hn : n < 4) (w : MacroWorkload true) (h : Kept 8 n w ∧ w.bestAsk < kBitCount ∧
      w.pending.length = n ∧ w.pregenQueue = [] ∧ w.pregenAttributionQueue = []) :
      Ends (fun _ => True) (fun w' => Kept 8 (n + 1) w' ∧ w'.bestAsk < kBitCount ∧ w'.pending.length = n + 1 ∧
        w'.pregenQueue = [] ∧ w'.pregenAttributionQueue = []) w.pendingLimitAdd := by
    obtain ⟨hkept, hask, hlen, hqueue, hattributions⟩ := h
    apply (hkept.pendingLimitAdd (by omega) hlen.le hask).mono (fun _ _ => trivial)
    rintro w' ⟨x, hkept', -, hpush, -⟩
    refine ⟨hkept', hkept'.bestAsk_lt (Nat.succ_pos n), ?_, hpush.pregenQueue.trans hqueue,
      hpush.pregenAttributionQueue.trans hattributions⟩
    rw [hpush.pending, List.length_append, hlen, List.length_singleton]
  have hstart : Kept 8 0 (start true 8 skipping) ∧ (start true 8 skipping).bestAsk < kBitCount ∧
      (start true 8 skipping).pending.length = 0 ∧ (start true 8 skipping).pregenQueue = [] ∧
      (start true 8 skipping).pregenAttributionQueue = [] :=
    ⟨Kept.start skipping, show (1000 : Int) < kBitCount by decide, rfl, rfl, rfl⟩
  unfold ghosted
  generalize start true 8 skipping = w₀ at hstart ⊢
  apply Ends.bind (hadd 0 (by norm_num) w₀ hstart)
  intro w₁ h₁
  apply Ends.bind (hadd 1 (by norm_num) w₁ h₁)
  intro w₂ h₂
  apply Ends.bind (hadd 2 (by norm_num) w₂ h₂)
  rintro w₃ ⟨hkept, hask, hlen, hqueue, hattributions⟩
  apply (hkept.pendingCancel (by norm_num) hlen.le hask hqueue (fun _ => hattributions)).mono (fun _ _ => trivial)
  rintro w' ⟨hkept', x, xs, hplanned, -⟩
  refine ⟨hkept', ?_⟩
  rw [hplanned.pending, List.length_append, hlen, List.length_singleton]

def keepsGhost : Plan (MacroWorkload true) → Bool
  | .error _ => false
  | .ok w => sameWords w &&
    match w.pendingModify with
    | .error _ => false
    | .ok w' => (w'.shadowTree .sell).test 1003 && !(w'.book.book .sell).activeTree.test 1003

theorem not_mirrored_of_keepsGhost {g : Plan (MacroWorkload true)}
    (hready : Ends (fun _ => True) (fun w => Kept 8 4 w ∧ w.pending.length = 4) g) (hghost : keepsGhost g = true) :
    ∃ w w', g = .ok w ∧ Ready 8 4 w ∧ w.pendingModify = .ok w' ∧ ¬ Mirrored w' := by
  cases g with
  | error e => cases hghost
  | ok w =>
    obtain ⟨hkept, hlen⟩ := hready
    obtain ⟨hwords, hghost⟩ := Bool.and_eq_true_iff.mp hghost
    have hready : Ready 8 4 w :=
      ⟨hkept, mirrored_of_sameWords hwords, hkept.bestAsk_lt (by norm_num), by norm_num, hlen.le⟩
    cases hmodify : w.pendingModify with
    | error e =>
      rw [hmodify] at hghost
      cases hghost
    | ok w' =>
      rw [hmodify] at hghost
      obtain ⟨hshadow, hbook⟩ := Bool.and_eq_true_iff.mp hghost
      refine ⟨w, w', rfl, hready, hmodify, fun hmirrored => ?_⟩
      rw [hmirrored] at hshadow
      rw [hshadow] at hbook
      cases hbook

/-- The buy at 1002 clears the ghost at 1001 in both. The book goes on to the ghost at 1003, beyond the limit. -/
theorem modify_skips_ghost : ∃ w w', ghosted = .ok w ∧ Ready 8 4 w ∧ w.pendingModify = .ok w' ∧ ¬ Mirrored w' :=
  not_mirrored_of_keepsGhost ghosted_ready (by decide +kernel)

theorem shadow_mirrors_ghosted : ∃ w, ghosted = .ok w ∧
    Ends (Halts (FallbackFits w ∧ (w.restingOrders.isEmpty = false → ModifyFits w)) 8 4) (Mirrors w) w.pendingModify := by
  obtain ⟨w, -, hw, hready, -⟩ := not_mirrored_of_keepsGhost ghosted_ready (by decide +kernel)
  exact ⟨w, hw, ((shadow_mirrors_iff 8).2 4 w hready).2.1⟩

end Skipping

end Llmes.Hft
