import Llmes.Hft.Accounting

namespace Llmes.Hft

open OrderBook Outcome MacroWorkload

def Ran : ArrayBook → List Call → ArrayBook → Prop
  | b, [], b' => b' = b
  | b, c :: cs, b' => c.before = b ∧ ∃ b₁, b.exec c.op = .ok (c.reply, b₁) ∧ Ran b₁ cs b'

def Records (c : Call) (op : PendingOp) : Prop := c.op = op.op ∧ Targets c.before op

theorem Ran.append {b b₁ b' : ArrayBook} {cs ds : List Call} (h : Ran b cs b₁) (h' : Ran b₁ ds b') :
    Ran b (cs ++ ds) b' := by
  induction cs generalizing b with
  | nil =>
    obtain rfl : b₁ = b := h
    exact h'
  | cons c cs ih =>
    obtain ⟨hbefore, b₂, hexec, hrest⟩ := h
    exact ⟨hbefore, b₂, hexec, ih hrest⟩

variable {enableAttribution : Bool} {w w₁ w' : MacroWorkload enableAttribution} {capacity n k : ℕ}

theorem RecordedAll.calls {xs : List (PendingOp × PendingAttribution)} (h : RecordedAll w xs w') :
    ∃ cs, w'.calls = w.calls ++ cs ∧ Ran w.book cs w'.book ∧ List.Forall₂ Records cs (xs.map Prod.fst) := by
  induction h with
  | nil book calls attribution => exact ⟨[], by rw [calls, List.append_nil], book, .nil⟩
  | @cons w _ _ x _ head tail ih =>
    obtain ⟨reply, hexec, hcalls, -⟩ := head.call
    obtain ⟨cs, hcs, hran, hrecords⟩ := ih
    have hrecord : Records ⟨w.book, x.1.op, reply⟩ x.1 := ⟨rfl, head.target⟩
    refine ⟨⟨w.book, x.1.op, reply⟩ :: cs, ?_, ⟨rfl, _, hexec, hran⟩, .cons hrecord hrecords⟩
    rw [hcs, hcalls, List.append_assoc]
    rfl

theorem Sent.refl (w : MacroWorkload enableAttribution) : Sent True w w :=
  ⟨[], (List.append_nil _).symm, iff_true_intro (List.forall_mem_nil _)⟩

theorem Sent.trans {fits fits' : Prop} (h : Sent fits w w₁) (h' : Sent fits' w₁ w') : Sent (fits ∧ fits') w w' := by
  obtain ⟨cs, hcalls, hiff⟩ := h
  obtain ⟨cs', hcalls', hiff'⟩ := h'
  refine ⟨cs ++ cs', ?_, ?_⟩
  · rw [hcalls', hcalls, List.append_assoc]
  · rw [List.forall_mem_append, hiff, hiff']

theorem Sent.calls {fits : Prop} (h : Sent fits w w') (hw : w.calls = []) : (∀ c ∈ w'.calls, c.op.Indexed) ↔ fits := by
  obtain ⟨cs, hcalls, hiff⟩ := h
  rw [hcalls, hw, List.nil_append]
  exact hiff

theorem indexed_of_records {cs : List Call} {ops : List PendingOp} (h : List.Forall₂ Records cs ops) :
    (∀ c ∈ cs, c.op.Indexed) ↔ ∀ op ∈ ops, op.op.Indexed := by
  induction h with
  | nil => exact iff_of_true (List.forall_mem_nil _) (List.forall_mem_nil _)
  | cons hc _ ih => rw [List.forall_mem_cons, List.forall_mem_cons, ih, hc.1]

theorem Planned.sent {x : PendingOp × PendingAttribution} {xs : List (PendingOp × PendingAttribution)}
    (h : Planned w x xs w') : Sent x.1.op.Indexed w w' := by
  obtain ⟨cs, hcalls, -, hrecords⟩ := h.recorded.calls
  refine ⟨cs, hcalls, ?_⟩
  rw [indexed_of_records hrecords, List.map_cons, List.forall_mem_cons]
  apply and_iff_left
  intro op hop
  obtain ⟨y, hy, rfl⟩ := List.mem_map.mp hop
  exact PendingOp.indexed_of_cancel (h.cluster y hy)

theorem Popped.sent (h : Popped w w') : Sent (PlanFits w) w w' := by
  obtain ⟨op, hop, -, rfl⟩ := h
  refine (Sent.refl w).congr (iff_of_true trivial (fun hqueue => ?_))
  rw [hqueue] at hop
  cases hop

theorem Batch.sent (h : Batch capacity k w) :
    Ends (Halts (PlanFits w) capacity (505000 + k)) (fun w' => Batch capacity (k + 1) w' ∧ Sent (PlanFits w) w w')
      w.generatePendingOne := by
  apply h.step.imp
  rintro w' ⟨hbatch, hpop | ⟨-, x, xs, hplanned, hfits⟩⟩
  · exact ⟨hbatch, hpop.sent⟩
  · exact ⟨hbatch, hplanned.sent.congr hfits⟩

theorem sent_times {f : MacroWorkload enableAttribution → Plan (MacroWorkload enableAttribution)}
    {P : ℕ → MacroWorkload enableAttribution → Prop} {fits : MacroWorkload enableAttribution → Prop} {m : ℕ}
    (hstep : ∀ i < n, ∀ w, P (k + i) w →
      Ends (Halts (fits w) capacity m) (fun w' => P (k + i + 1) w' ∧ Sent (fits w) w w') (f w))
    (h : P k w) :
    Ends (Halts (Through f fits n w) capacity m) (fun w' => P (k + n) w' ∧ Sent (Through f fits n w) w w')
      (Outcome.times f n w) :=
  Ends.times_through (E := fun F => Halts F capacity m) (R := Sent) (fun _ _ e hF => Halts.imp hF e) Sent.refl
    (fun _ _ _ _ _ => Sent.trans) hstep h

section Runs

variable (enableAttribution : Bool) (capacity : ℕ) (d : Draws)

def SeedsFit (k : ℕ) : Prop := Through seedOne AddFits k (start enableAttribution capacity d)

def WarmupsFit (k : ℕ) : Prop :=
  SeedsFit enableAttribution capacity d kSeeds ∧
    ∀ w, seeded enableAttribution capacity d kSeeds = .ok w → Through generateAndExecuteOne WarmupFits k w

def PlansFit (k : ℕ) : Prop :=
  ∀ w w₀, warmed enableAttribution capacity d kWarmupEvents.toNat = .ok w → w.beginBatch capacity = .ok w₀ →
    Through generatePendingOne PlanFits k w₀

theorem seeded_sent {k : ℕ} (hk : k ≤ 5000) :
    Ends (Halts (SeedsFit enableAttribution capacity d k) capacity k)
      (fun w => Kept capacity k w ∧ Sent (SeedsFit enableAttribution capacity d k) (start enableAttribution capacity d) w)
      (seeded enableAttribution capacity d k) := by
  have hstep (i : ℕ) (hi : i < k) (w : MacroWorkload enableAttribution)
      (hw : Kept capacity (0 + i) w ∧ w.bestAsk < kBitCount) :
      Ends (Halts (AddFits w) capacity k)
        (fun w' => (Kept capacity (0 + i + 1) w' ∧ w'.bestAsk < kBitCount) ∧ Sent (AddFits w) w w') (seedOne w) := by
    apply (hw.1.seedOne (by omega) hw.2).mono (Halts.mono (by omega))
    rintro w' ⟨hkept, hsent⟩
    exact ⟨⟨hkept, hkept.bestAsk_lt (Nat.succ_pos _)⟩, hsent⟩
  have hrun := sent_times (P := fun n w => Kept capacity n w ∧ w.bestAsk < kBitCount) hstep
    ⟨Kept.start d, show (1000 : Int) < kBitCount by decide⟩
  rw [Nat.zero_add] at hrun
  exact hrun.imp (fun w hw => ⟨hw.1.1, hw.2⟩)

theorem warmed_sent {k : ℕ} (hk : k ≤ 500000) :
    Ends (Halts (WarmupsFit enableAttribution capacity d k) capacity (5000 + k))
      (fun w => Kept capacity (5000 + k) w ∧
        Sent (WarmupsFit enableAttribution capacity d k) (start enableAttribution capacity d) w)
      (warmed enableAttribution capacity d k) := by
  have hstep (i : ℕ) (hi : i < k) (w : MacroWorkload enableAttribution) (hw : Kept capacity (5000 + i) w) :
      Ends (Halts (WarmupFits w) capacity (5000 + k))
        (fun w' => Kept capacity (5000 + i + 1) w' ∧ Sent (WarmupFits w) w w') w.generateAndExecuteOne :=
    (hw.generateAndExecuteOne (by omega) (hw.bestAsk_lt (by omega))).weaken (Halts.mono (by omega))
  have hseeds := (seeded_sent enableAttribution capacity d le_rfl).eq_ok.mono
    (fun e he => Halts.imp (fun hfits : WarmupsFit enableAttribution capacity d k => hfits.1) e
      (Halts.mono (show 5000 ≤ 5000 + k by omega) e he)) (fun _ h => h)
  apply hseeds.bind
  rintro w ⟨heq, hkept, hsent⟩
  have hfits : SeedsFit enableAttribution capacity d 5000 ∧ Through generateAndExecuteOne WarmupFits k w ↔
      WarmupsFit enableAttribution capacity d k := by
    refine and_congr_right (fun _ => ⟨fun h w' hw' => ?_, fun h => h w heq⟩)
    cases heq.symm.trans hw'
    exact h
  apply (sent_times hstep hkept).mono (fun e => Halts.imp (fun h => (hfits.mpr h).2) e)
  rintro w' ⟨hkept', hsent'⟩
  exact ⟨hkept', (hsent.trans hsent').congr hfits⟩

end Runs

variable {d : Draws}

theorem after_warmup {α : Type} {E : Halt → Prop} {Q : α → Prop} {F : MacroWorkload enableAttribution → Plan α}
    (hE : ∀ e, Halts (WarmupsFit enableAttribution capacity d 500000) capacity 505000 e → E e)
    (h : ∀ w w₀, warmed enableAttribution capacity d kWarmupEvents.toNat = .ok w → Kept capacity 505000 w →
      w.beginBatch capacity = .ok w₀ → Ends E Q (F w₀)) :
    Ends E Q (warmed enableAttribution capacity d kWarmupEvents.toNat >>= fun w => w.beginBatch capacity >>= F) := by
  apply ((warmed_sent enableAttribution capacity d le_rfl).eq_ok.weaken hE).bind
  rintro w ⟨heq, hkept, -⟩
  apply hkept.beginBatch.eq_ok.of_never.bind
  rintro w₀ ⟨heq₀, -⟩
  exact h w w₀ heq hkept heq₀

theorem plansFit_iff {w₀ : MacroWorkload enableAttribution}
    (hw : warmed enableAttribution capacity d kWarmupEvents.toNat = .ok w) (hw₀ : w.beginBatch capacity = .ok w₀) :
    Through generatePendingOne PlanFits k w₀ ↔ PlansFit enableAttribution capacity d k := by
  refine ⟨fun h w' w₀' hw' hw₀' => ?_, fun h => h w w₀ hw hw₀⟩
  cases hw.symm.trans hw'
  cases hw₀.symm.trans hw₀'
  exact h

theorem Kept.batch {w₀ : MacroWorkload enableAttribution} (h : Kept capacity 505000 w)
    (hw₀ : w.beginBatch capacity = .ok w₀) : Batch capacity 0 w₀ := by
  obtain ⟨hkept, hpending, hqueue, -, hattributions, -⟩ := h.beginBatch.of_ok hw₀
  refine ⟨hkept, congrArg List.length hpending, Nat.zero_le _, fun he => ?_⟩
  rw [hqueue, (hattributions he).2.1]
  rfl

theorem plan_times {P : ℕ → MacroWorkload enableAttribution → Prop}
    (hstep : ∀ k w, P k w → Ends (Halts (PlanFits w) capacity (505000 + k)) (P (k + 1)) w.generatePendingOne)
    (h : P 0 w) (k : ℕ) :
    Ends (Halts (Through generatePendingOne PlanFits k w) capacity (505000 + k)) (P k)
      (Outcome.times generatePendingOne k w) := by
  have hrun := Ends.times_each (E := fun F => Halts F capacity (505000 + k)) (P := P) (n := k) (k := 0)
    (fun _ _ e hF => Halts.imp hF e) (fun i hi w hw => (hstep (0 + i) w hw).weaken (Halts.mono (by omega))) h
  rwa [Nat.zero_add] at hrun

theorem Batch.pregenerate_eq (h : Batch capacity k w) (left : ℕ) :
    w.pregenerate (k + left) left = Outcome.times generatePendingOne left w := by
  induction left generalizing k w with
  | zero =>
    rw [pregenerate, if_neg (by rw [h.length, Nat.add_zero]; exact lt_irrefl k)]
    rfl
  | succ left ih =>
    rw [pregenerate, if_pos (by rw [h.length]; omega), Outcome.times]
    cases hw : w.generatePendingOne with
    | error e => rfl
    | ok w' =>
      -- one operation is added in each round, be it popped or planned
      rw [show k + (left + 1) = k + 1 + left by omega]
      exact ih (h.step.of_ok hw).1

theorem planned_sent (k : ℕ) :
    Ends (Halts (WarmupsFit enableAttribution capacity d 500000 ∧ PlansFit enableAttribution capacity d k) capacity
        (505000 + k))
      (fun w => Batch capacity k w ∧ ((∀ c ∈ w.calls, c.op.Indexed) ↔ PlansFit enableAttribution capacity d k))
      (planned enableAttribution capacity d k) := by
  have hstep (i : ℕ) (hi : i < k) (w : MacroWorkload enableAttribution) (hw : Batch capacity (0 + i) w) :
      Ends (Halts (PlanFits w) capacity (505000 + k))
        (fun w' => Batch capacity (0 + i + 1) w' ∧ Sent (PlanFits w) w w') w.generatePendingOne :=
    hw.sent.weaken (Halts.mono (by omega))
  apply after_warmup (fun e he => Halts.imp And.left e (Halts.mono (Nat.le_add_right _ _) e he))
  intro w w₀ hw hkept hw₀
  have hfits := plansFit_iff (k := k) hw hw₀
  obtain ⟨-, -, -, hcalls, -⟩ := hkept.beginBatch.of_ok hw₀
  apply (sent_times hstep (hkept.batch hw₀)).mono (fun e => Halts.imp (fun h => hfits.mpr h.2) e)
  rintro w' ⟨hbatch, hsent⟩
  rw [Nat.zero_add] at hbatch
  exact ⟨hbatch, (hsent.calls hcalls).trans hfits⟩

theorem tables_follow (enableAttribution : Bool) (capacity : ℕ) (d : Draws) :
    (∀ k, 0 < k → k ≤ 5000 →
      Ends (Halts (SeedsFit enableAttribution capacity d k) capacity k) (Accounted capacity)
        (seeded enableAttribution capacity d k)) ∧
    (∀ k ≤ 500000,
      Ends (Halts (WarmupsFit enableAttribution capacity d k) capacity (5000 + k)) (Accounted capacity)
        (warmed enableAttribution capacity d k)) ∧
    ∀ k,
      Ends (Halts (WarmupsFit enableAttribution capacity d 500000 ∧ PlansFit enableAttribution capacity d k) capacity
          (505000 + k))
        (fun w => Accounted capacity w ∧
          ∀ d best j, Ends (fun _ => False) (fun r => Accounted capacity r.2)
            (({ w with toDraws := d } : MacroWorkload enableAttribution).clusterLoop best j))
        (planned enableAttribution capacity d k) := by
  refine ⟨fun k hpos hk => ?_, fun k hk => ?_, fun k => ?_⟩
  · exact (seeded_sent enableAttribution capacity d hk).imp (fun _ hw => hw.1.accounted hpos)
  · exact (warmed_sent enableAttribution capacity d hk).imp (fun _ hw => hw.1.accounted (by omega))
  · apply (planned_sent k).imp
    rintro w ⟨hw, -⟩
    refine ⟨hw.kept.accounted (by omega), fun d best j => ?_⟩
    have hkept : Kept capacity (505000 + k) ({ w with toDraws := d } : MacroWorkload enableAttribution) := hw.kept
    exact (hkept.clusterLoop best j).imp (fun _ hr => hr.1.accounted (by omega))

end Llmes.Hft
