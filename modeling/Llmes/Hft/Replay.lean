import Llmes.Hft.SetupRuns

namespace Llmes.Hft

open OrderBook Outcome Tracking

variable {enableAttribution : Bool} {w w' : MacroWorkload enableAttribution} {capacity k : ℕ}

structure Scripted (b : ArrayBook) (w : MacroWorkload enableAttribution) : Prop where
  ran : Ran b w.calls w.book
  records : List.Forall₂ Records w.calls (w.pending ++ w.pregenQueue.reverse)

theorem Scripted.popped {b : ArrayBook} (h : Scripted b w) (hpop : Popped w w') : Scripted b w' := by
  obtain ⟨op, hop, -, rfl⟩ := hpop
  refine ⟨h.ran, ?_⟩
  have hqueue : w.pregenQueue.reverse = op :: w.pregenQueue.dropLast.reverse := by
    conv_lhs => rw [← List.dropLast_append_getLast? op hop]
    rw [List.reverse_append]
    rfl
  have hrecords := h.records
  rw [hqueue, List.append_cons] at hrecords
  exact hrecords

theorem Scripted.planned {b : ArrayBook} {x : PendingOp × PendingAttribution}
    {xs : List (PendingOp × PendingAttribution)} (h : Scripted b w) (hqueue : w.pregenQueue = [])
    (hplanned : Planned w x xs w') : Scripted b w' := by
  obtain ⟨cs, hcalls, hran, hnew⟩ := hplanned.recorded.calls
  have hold := h.records
  rw [hqueue, List.reverse_nil, List.append_nil] at hold
  refine ⟨?_, ?_⟩
  · rw [hcalls]
    exact h.ran.append hran
  · rw [hcalls, hplanned.pending, hplanned.pregenQueue, List.reverse_reverse, ← List.append_cons]
    exact List.rel_append hold hnew

theorem Ran.take {b b' : ArrayBook} {cs : List Call} (h : Ran b cs b') (n : ℕ) : ∃ b₁, Ran b (cs.take n) b₁ := by
  induction cs generalizing b n with
  | nil => exact ⟨b', by rwa [List.take_nil]⟩
  | cons c cs ih =>
    cases n with
    | zero => exact ⟨b, rfl⟩
    | succ n =>
      obtain ⟨hbefore, b₂, hexec, hrest⟩ := h
      obtain ⟨b₁, hran⟩ := ih hrest n
      exact ⟨b₁, hbefore, b₂, hexec, hran⟩

theorem Scripted.take {b : ArrayBook} (h : Scripted b w) {n : ℕ} (hn : n ≤ w.pending.length) :
    ∃ b', Ran b (w.calls.take n) b' ∧ List.Forall₂ Records (w.calls.take n) (w.pending.take n) := by
  obtain ⟨b', hran⟩ := h.ran.take n
  have hrecords := List.forall₂_take n h.records
  rw [List.take_append_of_le_length hn] at hrecords
  exact ⟨b', hran, hrecords⟩

theorem MacroWorkload.executeFrom_eq {b' : ArrayBook} {cs : List Call} {ops left : List PendingOp} {idx : ℕ}
    (hops : w.pending.drop idx = ops ++ left) (hran : Ran w.book cs b') (hrecords : List.Forall₂ Records cs ops)
    (ok : ℕ) :
    ∃ ok' w', w.executeFrom idx ops.length ok = .ok (ok', w') ∧ w'.book = b' ∧ w'.calls = w.calls ++ cs := by
  induction hrecords generalizing w idx ok with
  | nil => exact ⟨ok, w, rfl, hran.symm, (List.append_nil _).symm⟩
  | @cons c op cs ops hrecord _ ih =>
    obtain ⟨hbefore, b₁, hexec, hrest⟩ := hran
    have hop : w.pending[idx]? = some op := by
      rw [← List.head?_drop, hops]
      rfl
    have hleft : w.pending.drop (idx + 1) = ops ++ left := by
      rw [← List.tail_drop, hops]
      rfl
    have hnext := @ih { w with book := b₁, calls := w.calls ++ [c] } (idx + 1) hleft hrest
    rw [hrecord.1] at hexec
    have hcall : w.call op.op = .ok (c.reply, { w with book := b₁, calls := w.calls ++ [c] }) := by
      rw [MacroWorkload.call, hexec, ← hrecord.1, ← hbefore]
      rfl
    rw [List.length_cons, MacroWorkload.executeFrom, MacroWorkload.executePending, hop]
    dsimp only
    rw [hcall]
    obtain ⟨ok', w', heq, hb, hc⟩ := hnext _
    exact ⟨ok', w', heq, hb, by rw [hc, List.append_assoc]; rfl⟩

theorem MacroWorkload.slotReplay_eq {s : SlotReplay} {b' : ArrayBook} {cs : List Call} {ops : List PendingOp} {i : ℕ}
    (hran : Ran s.book cs b') (hrecords : List.Forall₂ Records cs ops) :
    ∃ s', slotReplay i ops s = .ok s' ∧ s'.calls = s.calls ++ cs := by
  induction hrecords generalizing s i with
  | nil => exact ⟨s, rfl, (List.append_nil _).symm⟩
  | @cons c op cs ops hrecord _ ih =>
    obtain ⟨hbefore, b₁, hexec, hrest⟩ := hran
    have hcall : (⟨s.book, op.op, c.reply⟩ : Call) = c := by rw [← hbefore, ← hrecord.1]
    rw [hrecord.1] at hexec
    obtain ⟨s₁, hstep, hb, hc⟩ : ∃ s₁, slotReplayStep s i op = .ok s₁ ∧ s₁.book = b₁ ∧ s₁.calls = s.calls ++ [c] := by
      rw [slotReplayStep, hexec]
      simp only [Except.mapError, bind, Except.bind, hcall]
      split
      · exact ⟨_, rfl, rfl, rfl⟩
      · exact ⟨_, rfl, rfl, rfl⟩
    obtain ⟨s', heq, hcalls⟩ := ih (s := s₁) (i := i + 1) (hb ▸ hrest)
    refine ⟨s', ?_, ?_⟩
    · rw [slotReplay, hstep]
      exact heq
    · rw [hcalls, hc, List.append_assoc]
      rfl

theorem Scripted.execute {b : ArrayBook} (h : Scripted b w) (hpending : w'.pending = w.pending)
    (hbook : w'.book = b) {n : ℕ} (hn : n ≤ w.pending.length) :
    ∃ ok w₁, w'.executeFrom 0 n 0 = .ok (ok, w₁) ∧ w₁.calls = w'.calls ++ w.calls.take n := by
  obtain ⟨b', hran, hrecords⟩ := h.take hn
  have hops : w'.pending.drop 0 = w.pending.take n ++ w.pending.drop n := by
    rw [hpending, List.take_append_drop]
    rfl
  obtain ⟨ok, w₁, heq, -, hcalls⟩ := MacroWorkload.executeFrom_eq hops (hbook ▸ hran) hrecords 0
  rw [List.length_take_of_le hn] at heq
  exact ⟨ok, w₁, heq, hcalls⟩

theorem Scripted.annotateOrderSlotReuse {b : ArrayBook} (h : Scripted b w) (hpending : w'.pending = w.pending)
    (hbook : w'.book = b) :
    Ends (fun _ => False)
      (fun r => ∃ s : MacroWorkload.SlotReplay, r = (w.calls.take w.pending.length,
        { w' with book := s.book, pendingAttribution := s.attributions }))
      w'.annotateOrderSlotReuse := by
  obtain ⟨b', hran, hrecords⟩ := h.take le_rfl
  rw [List.take_length, ← hpending] at hrecords
  rw [← hpending]
  obtain ⟨s, heq, hcalls⟩ := MacroWorkload.slotReplay_eq (i := 0)
    (s := ⟨w'.book, fun _ => none, w'.pendingAttribution, []⟩) (by rw [hbook, hpending]; exact hran) hrecords
  rw [MacroWorkload.annotateOrderSlotReuse, heq]
  exact ⟨s, Prod.ext hcalls rfl⟩

structure Script (capacity k : ℕ) (b : ArrayBook) (w : MacroWorkload enableAttribution) : Prop extends
  Batch capacity k w, Scripted b w

theorem Script.step {b : ArrayBook} (h : Script capacity k b w) :
    Ends (Halts (PlanFits w) capacity (505000 + k)) (Script capacity (k + 1) b) w.generatePendingOne := by
  apply h.toBatch.step.imp
  rintro w' ⟨hbatch, hpop | ⟨hqueue, x, xs, hplanned, -⟩⟩
  · exact ⟨hbatch, h.toScripted.popped hpop⟩
  · exact ⟨hbatch, h.toScripted.planned hqueue hplanned⟩

theorem Kept.script (h : Kept capacity 505000 w) :
    Ends (fun _ => False)
      (fun w' => Script capacity 0 w'.book w' ∧ ∀ t : Tracking, t.restingOrders = w'.restingOrders →
        t.buildBookFromTracking capacity = .ok (w'.book, w'.bookHandles))
      (w.beginBatch capacity) := by
  apply h.beginBatch.imp
  rintro w' ⟨hkept, hpending, hqueue, hcalls, hattributions, -, hbuild⟩
  refine ⟨⟨⟨hkept, congrArg List.length hpending, Nat.zero_le _, fun he => ?_⟩, ⟨?_, ?_⟩⟩, hbuild⟩
  · rw [hqueue, (hattributions he).2.1]
    rfl
  · rw [hcalls]
    rfl
  · rw [hcalls, hpending, hqueue]
    exact .nil

/-- What stops the setup: an add or a modify that is drawn out of the range, or a batch so large that the pool's
capacity wraps around. -/
def SetupStops (enableAttribution : Bool) (batchSize : UInt64) (d : Draws) (e : Halt) : Prop :=
  (e = .book .priceRange ∧ ¬ (WarmupsFit enableAttribution (MacroWorkload.poolCapacity batchSize) d 500000 ∧
    PlansFit enableAttribution (MacroWorkload.poolCapacity batchSize) d batchSize.toNat)) ∨
  (2 ^ 32 ≤ 550000 + batchSize.toNat ∧ (e = .book .poolExhausted ∨ e = .lengthError))

theorem Halts.setup {batchSize : UInt64} {d : Draws} {fits : Prop} (hn : n ≤ 505000 + batchSize.toNat)
    (hfits : WarmupsFit enableAttribution (MacroWorkload.poolCapacity batchSize) d 500000 ∧
      PlansFit enableAttribution (MacroWorkload.poolCapacity batchSize) d batchSize.toNat → fits) (e : Halt)
    (h : Halts fits (MacroWorkload.poolCapacity batchSize) n e) : SetupStops enableAttribution batchSize d e := by
  obtain ⟨hstop, hrange⟩ := h
  by_cases hlarge : 2 ^ 32 ≤ 550000 + batchSize.toNat
  · exact hstop.imp (fun he => ⟨he, fun hf => hrange (hfits hf) he⟩) (fun he => ⟨hlarge, he.imp And.left And.left⟩)
  · have hcapacity : MacroWorkload.poolCapacity batchSize = 550000 + batchSize.toNat := by
      rw [MacroWorkload.poolCapacity, MacroWorkload.kWarmupEvents, UInt64.toNat_add, UInt64.toNat_add]
      simp
      omega
    rcases hstop with he | ⟨-, hfull⟩ | ⟨-, hfull⟩
    · exact Or.inl ⟨he, fun hf => hrange (hfits hf) he⟩
    · rw [hcapacity, Nat.mod_eq_of_lt (by omega)] at hfull
      omega
    · rw [kMaxSize] at hfull
      omega

theorem setup_of_plan {batchSize : UInt64} {d : Draws} {w₀ : MacroWorkload enableAttribution}
    {P : ℕ → MacroWorkload enableAttribution → Prop}
    (hw : MacroWorkload.warmed enableAttribution (MacroWorkload.poolCapacity batchSize) d
      MacroWorkload.kWarmupEvents.toNat = .ok w)
    (hw₀ : w.beginBatch (MacroWorkload.poolCapacity batchSize) = .ok w₀)
    (hstep : ∀ k w, P k w → Ends (Halts (PlanFits w) (MacroWorkload.poolCapacity batchSize) (505000 + k)) (P (k + 1))
      w.generatePendingOne) (hbatch : Batch (MacroWorkload.poolCapacity batchSize) 0 w₀) (h : P 0 w₀) :
    Ends (SetupStops enableAttribution batchSize d) (P batchSize.toNat)
      (w₀.pregenerate batchSize.toNat batchSize.toNat) := by
  have heq := hbatch.pregenerate_eq batchSize.toNat
  rw [Nat.zero_add] at heq
  rw [heq]
  exact (plan_times hstep h batchSize.toNat).weaken
    (Halts.setup le_rfl (fun hfits => (plansFit_iff hw hw₀).mpr hfits.2))

structure Replays (w : MacroWorkload enableAttribution) (dryRun : List Call) : Prop where
  ran : ∃ b, Ran w.book w.calls b
  records : List.Forall₂ Records w.calls (w.pending ++ w.pregenQueue.reverse)
  execute : ∀ n ≤ w.pending.length,
    ∃ ok w', w.executeFrom 0 n 0 = .ok (ok, w') ∧ w'.calls = w.calls ++ w.calls.take n
  dryRun : enableAttribution = true → dryRun = w.calls.take w.pending.length

theorem Scripted.replays {b : ArrayBook} (h : Scripted b w) (hbook : w'.book = b) (hpending : w'.pending = w.pending)
    (hqueue : w'.pregenQueue = w.pregenQueue) (hcalls : w'.calls = w.calls) {dryRun : List Call}
    (hdry : enableAttribution = true → dryRun = w.calls.take w.pending.length) : Replays w' dryRun := by
  refine ⟨⟨w.book, ?_⟩, ?_, fun n hn => ?_, ?_⟩
  · rw [hbook, hcalls]
    exact h.ran
  · rw [hcalls, hpending, hqueue]
    exact h.records
  · rw [hcalls]
    rw [hpending] at hn
    exact hcalls ▸ h.execute hpending hbook hn
  · rwa [hcalls, hpending]

theorem MacroWorkload.rebuild_eq {w₁ : MacroWorkload enableAttribution}
    (hbuild : ∀ t : Tracking, t.restingOrders = w₁.restingOrders →
      t.buildBookFromTracking capacity = .ok (w₁.book, w₁.bookHandles)) (hw : w.restingOrders = w₁.restingOrders) :
    w.rebuild capacity = .ok { w with book := w₁.book, bookHandles := w₁.bookHandles } := by
  rw [rebuild, hbuild _ hw]
  rfl

theorem Script.take_pending {b : ArrayBook} (h : Script capacity k b w) : w.pending.take k = w.pending := by
  rw [← h.length, List.take_length]

theorem setup_ends (enableAttribution : Bool) (batchSize : UInt64) (d : Draws) :
    Ends (SetupStops enableAttribution batchSize d) (fun r => r.2.pending.length = batchSize.toNat ∧ Replays r.2 r.1)
      (MacroWorkload.setup enableAttribution batchSize d) := by
  rw [MacroWorkload.setup]
  apply after_warmup (Halts.setup (by omega) And.left)
  intro w w₁ hw hkept hw₁
  obtain ⟨hscript, hbuild⟩ := hkept.script.of_ok hw₁
  have hrun := setup_of_plan hw hw₁ (fun k w => Script.step) hscript.toBatch hscript
  apply hrun.bind
  intro w₂ hw₂
  dsimp only
  rw [hw₂.take_pending, MacroWorkload.rebuild_eq hbuild]
  · change Ends _ _ (if enableAttribution then _ else _)
    by_cases he : enableAttribution = true
    · rw [if_pos he]
      refine Ends.bind (Ends.of_never (hw₂.toScripted.annotateOrderSlotReuse ?_ ?_)) ?_
      · rfl
      · rfl
      · rintro _ ⟨s, rfl⟩
        dsimp only
        rw [MacroWorkload.rebuild_eq hbuild]
        · refine ⟨hw₂.length, hw₂.toScripted.replays ?_ ?_ ?_ ?_ ?_⟩
          · rfl
          · rfl
          · rfl
          · rfl
          · exact fun _ => rfl
        · rfl
    · rw [if_neg he]
      refine ⟨hw₂.length, hw₂.toScripted.replays ?_ ?_ ?_ ?_ ?_⟩
      · rfl
      · rfl
      · rfl
      · rfl
      · exact fun h => absurd h he
  · rfl

theorem planned_operations_replay (enableAttribution : Bool) (d : Draws) :
    (∀ capacity k,
      Ends (Halts (WarmupsFit enableAttribution capacity d 500000 ∧ PlansFit enableAttribution capacity d k) capacity
          (505000 + k))
        (fun w => ∃ b, Scripted b w) (MacroWorkload.planned enableAttribution capacity d k)) ∧
    ∀ batchSize, Ends (SetupStops enableAttribution batchSize d)
      (fun r => r.2.pending.length = batchSize.toNat ∧ Replays r.2 r.1)
      (MacroWorkload.setup enableAttribution batchSize d) := by
  refine ⟨fun capacity k => ?_, fun batchSize => setup_ends enableAttribution batchSize d⟩
  apply after_warmup (fun e he => Halts.imp And.left e (Halts.mono (Nat.le_add_right _ _) e he))
  intro w w₁ hw hkept hw₁
  obtain ⟨hscript, -⟩ := hkept.script.of_ok hw₁
  have hrun := plan_times (P := fun k w => Script capacity k w₁.book w) (fun k w => Script.step) hscript k
  apply hrun.mono (fun e => Halts.imp (fun hfits => (plansFit_iff hw hw₁).mpr hfits.2) e)
  exact fun w₂ hw₂ => ⟨w₁.book, hw₂.toScripted⟩

end Llmes.Hft
