import Llmes.Hft.ReuseDistances

namespace Llmes.Hft

open OrderBook Outcome Tracking Attribution

variable {enableAttribution : Bool} {w w' : MacroWorkload enableAttribution} {capacity k n : ℕ} {b : ArrayBook}
  {start : Attribution} {cs : List Call}

theorem resetLevels_last (s : Side) (ps : List Int) (a : Attribution) :
    Ends (fun _ => True)
      (fun a' => a'.attributionOpIndex = a.attributionOpIndex ∧ ∀ l : Level,
        a'.lastLevelTouch l.1 l.2 = if l.1 = s ∧ l.2 ∈ ps then some (-1) else a.lastLevelTouch l.1 l.2)
      (ps.foldlM (Attribution.resetLevel s) a) := by
  induction ps generalizing a with
  | nil =>
    refine ⟨rfl, fun l => (if_neg ?_).symm⟩
    exact fun h => List.not_mem_nil h.2
  | cons p ps ih =>
    rw [List.foldlM_cons, Attribution.resetLevel, bind_assoc]
    apply (a.setShadowLevel_touches s p).bind
    intro a₁ h₁
    apply (ih _).imp
    rintro a₂ ⟨hindex, hlast⟩
    refine ⟨hindex.trans ((touch_index _ _ _ _).trans h₁.index), fun l => ?_⟩
    have hsame : a₁.lastLevelTouch l.1 l.2 = a.lastLevelTouch l.1 l.2 :=
      (h₁.may l).resolve_right (fun h => Set.notMem_empty _ h.1)
    rw [hlast, touch_last, hsame]
    obtain ⟨s', p'⟩ := l
    simp only [List.mem_cons, Prod.mk.injEq]
    split_ifs <;> first | rfl | tauto

theorem resetAttributionState_last (t : Tracking) :
    Ends (fun _ => True)
      (fun a => a.attributionOpIndex = 0 ∧ ∀ l : Level,
        a.lastLevelTouch l.1 l.2 = if t.hasPriceLevel l.1 l.2 = true then some (-1) else none)
      (Attribution.resetAttributionState t) := by
  have hkeys (s : Side) (p : Int) :
      p ∈ (t.levelCounts s).entries.map Prod.fst ↔ t.hasPriceLevel s p = true := by
    rw [hasPriceLevel, Option.isSome_iff_exists, List.mem_map]
    constructor
    · rintro ⟨e, he, rfl⟩
      exact ⟨e.2, OrderedMap.find?_of_mem he⟩
    · rintro ⟨n, hn⟩
      exact ⟨(p, n), OrderedMap.find?_eq_some.mp hn, rfl⟩
  apply (resetLevels_last .buy _ _).bind
  rintro a ⟨hindex, hlast⟩
  apply (resetLevels_last .sell _ a).imp
  rintro a' ⟨hindex', hlast'⟩
  refine ⟨hindex'.trans hindex, ?_⟩
  rintro ⟨s, p⟩
  rw [hlast', hlast]
  have hbuy := hkeys .buy p
  have hsell := hkeys .sell p
  cases s
  · rw [if_neg (fun h => by cases h.1)]
    exact if_congr ((and_iff_right rfl).trans hbuy) rfl rfl
  · rw [if_neg (c := _ ∧ p ∈ t.bidLevelCounts.entries.map Prod.fst) (fun h => by cases h.1)]
    exact if_congr ((and_iff_right rfl).trans hsell) rfl rfl

theorem Kept.begun (h : Kept capacity n w) :
    Ends (fun _ => True)
      (fun w' => enableAttribution = true → Begun w'.book w'.toAttribution) (w.beginBatch capacity) := by
  have hlast : Ends (fun _ => True)
      (fun w' => enableAttribution = true → w'.attributionOpIndex = 0 ∧ ∀ l : Level,
        w'.lastLevelTouch l.1 l.2 = if w'.hasPriceLevel l.1 l.2 = true then some (-1) else none)
      (w.beginBatch capacity) := by
    rw [MacroWorkload.beginBatch]
    apply (Ends.trivial _).bind
    intro w₁ _
    change Ends _ _ (if enableAttribution then _ else _)
    by_cases he : enableAttribution = true
    · rw [if_pos he]
      apply (resetAttributionState_last w₁.toTracking).bind
      exact fun a ha _ => ha
    · rw [if_neg he]
      exact fun h => absurd h he
  apply ((h.beginBatch).and hlast).imp
  rintro w' ⟨⟨⟨A, hbook, hacc, -⟩, -⟩, hlast⟩ he
  obtain ⟨hindex, hlast⟩ := hlast he
  refine ⟨hindex, fun l => ?_⟩
  rw [hlast, hacc.follows.toLists.hasPriceLevel_eq hbook.rep]

structure Noting (capacity k : ℕ) (b : ArrayBook) (start : Attribution) (w : MacroWorkload enableAttribution) :
    Prop extends Script capacity k b w where
  journal : Journal start w

theorem Kept.noting (h : Kept capacity 505000 w) :
    Ends (fun _ => False)
      (fun w' => Noting capacity 0 w'.book w'.toAttribution w' ∧ (∃ A, Rep w'.book A) ∧
        (enableAttribution = true → Begun w'.book w'.toAttribution) ∧
        ∀ t : Tracking, t.restingOrders = w'.restingOrders →
          t.buildBookFromTracking capacity = .ok (w'.book, w'.bookHandles))
      (w.beginBatch capacity) := by
  apply ((h.begun.and h.beginBatch).and h.script).imp
  rintro w' ⟨⟨hbegun, ⟨A, hbook, -⟩, hpending, hqueue, hcalls, hattributions, -⟩, hscript, hbuild⟩
  refine ⟨⟨hscript, [], ⟨?_, fun _ => ?_⟩, ?_, fun he => ?_⟩, ⟨A, hbook.rep⟩, hbegun, hbuild⟩
  · rw [hcalls]
    exact .nil
  · rw [hcalls]
    exact .nil
  · rw [hpending, hqueue]
    rfl
  · rw [(hattributions he).1, (hattributions he).2.1]
    rfl

theorem Noting.step (h : Noting capacity k b start w) :
    Ends (Halts (PlanFits w) capacity (505000 + k)) (Noting capacity (k + 1) b start) w.generatePendingOne := by
  have hjournal := h.journal.step h.kept h.queues
  have hscript := h.toScript.step
  cases hw : w.generatePendingOne with
  | error e => exact hscript.of_error hw
  | ok w' => exact ⟨hscript.of_ok hw, hjournal.of_ok hw⟩

structure Prepared (w : MacroWorkload enableAttribution) (cs : List Call) : Prop where
  rep : ∃ A, Rep w.book A
  ran : ∃ b', Ran w.book cs b'
  room : w.pending.length < 2 ^ 63
  records : List.Forall₂ Records cs w.pending
  tagged : List.Forall₂ Tagged cs w.pending
  levels : enableAttribution = true → ∃ start xs a', Begun w.book start ∧ Trail start cs xs a' ∧
    w.pendingAttribution.map (·.levelReuseDistanceOps) = xs.map (·.2.levelReuseDistanceOps)
  slots : enableAttribution = true → ∀ i c h, cs[i]? = some c → c.acquired = some h →
    ∀ x ∈ w.pendingAttribution[i]?, SlotReuse cs i h x.orderSlotReuseDistanceOps

theorem Trail.take {a a' : Attribution} {xs : List (PendingOp × PendingAttribution)} (h : Trail a cs xs a') (i : ℕ) :
    ∃ a₁, Trail a (cs.take i) (xs.take i) a₁ := by
  by_cases hi : i < cs.length
  · obtain ⟨-, a₁, -, -, htrail, -⟩ := h.at_index (List.getElem?_eq_getElem hi)
    exact ⟨a₁, htrail⟩
  · rw [List.take_of_length_le (by omega), List.take_of_length_le (by rw [← h.length]; omega)]
    exact ⟨a', h⟩

theorem Noting.tagged (h : Noting capacity k b start w) :
    List.Forall₂ Tagged (w.calls.take w.pending.length) w.pending := by
  obtain ⟨xs, hlogged, hops, -⟩ := h.journal
  have htagged := List.forall₂_map_right_iff.mpr hlogged.tagged
  rw [← hops] at htagged
  have htake := List.forall₂_take w.pending.length htagged
  rwa [List.take_left] at htake

theorem Noting.length_lt (h : Noting capacity k b start w) : w.pending.length < 2 ^ 63 := by
  have hroom := h.room
  rw [kMaxSize] at hroom
  rw [h.length]
  omega

theorem Noting.attributions_length (h : Noting capacity k b start w) (he : enableAttribution = true) :
    w.pendingAttribution.length = w.pending.length := by
  obtain ⟨xs, -, hops, hattrs⟩ := h.journal
  have hl := congrArg List.length hops
  have hl' := congrArg List.length (hattrs he)
  rw [List.length_append, List.length_reverse, List.length_map] at hl hl'
  rw [h.queues he] at hl'
  omega

theorem Noting.annotateOrderSlotReuse {v : MacroWorkload enableAttribution} (h : Noting capacity k b start w)
    (hpending : v.pending = w.pending) (hattr : v.pendingAttribution = w.pendingAttribution) (hbook : v.book = b) :
    ∃ (calls : List Call) (s : MacroWorkload.SlotReplay), v.annotateOrderSlotReuse =
        .ok (calls, { v with book := s.book, pendingAttribution := s.attributions }) ∧
      s.attributions.map (·.levelReuseDistanceOps) = w.pendingAttribution.map (·.levelReuseDistanceOps) ∧
      ∀ i c h, (w.calls.take w.pending.length)[i]? = some c → c.acquired = some h →
        ∀ x ∈ s.attributions[i]?, SlotReuse (w.calls.take w.pending.length) i h x.orderSlotReuseDistanceOps := by
  obtain ⟨b', hran⟩ := h.ran.take w.pending.length
  have hlen := h.length_lt
  have hnone (h' : OrderHandle) : LastAcquired [] h' none :=
    ⟨fun _ c hc => absurd hc List.not_mem_nil, fun m hm => absurd hm.symm (Option.some_ne_none m)⟩
  have hspec := slotReplay_spec (s := ⟨v.book, fun _ => none, v.pendingAttribution, []⟩)
    (h.tagged.imp (fun c op hc => hc.call)) [] (hbook ▸ hran) hnone
    (by rw [List.length_nil, Nat.zero_add, h.tagged.length_eq]; exact hlen)
  obtain ⟨s, hs, hlevel, -, hslots⟩ := hspec
  rw [List.length_nil] at hs
  refine ⟨s.calls, s, ?_, by rw [hlevel, hattr], fun i c h' hc hacq x hx => ?_⟩
  · rw [MacroWorkload.annotateOrderSlotReuse, hpending, hs]
    rfl
  · have hslot := hslots i c h' hc hacq x
    rw [List.length_nil, Nat.zero_add, List.nil_append] at hslot
    exact hslot hx

theorem Noting.prepared (h : Noting capacity k b start w) (hrep : ∃ A, Rep b A)
    (hbegun : enableAttribution = true → Begun b start) (hbook : w'.book = b) (hpending : w'.pending = w.pending)
    (hlevel : enableAttribution = true →
      w'.pendingAttribution.map (·.levelReuseDistanceOps) = w.pendingAttribution.map (·.levelReuseDistanceOps))
    (hslots : enableAttribution = true → ∀ i c h, (w.calls.take w.pending.length)[i]? = some c →
      c.acquired = some h → ∀ x ∈ w'.pendingAttribution[i]?,
        SlotReuse (w.calls.take w.pending.length) i h x.orderSlotReuseDistanceOps) :
    Prepared w' (w.calls.take w.pending.length) := by
  obtain ⟨b', hran, hrecords⟩ := h.toScripted.take le_rfl
  rw [List.take_length] at hrecords
  refine ⟨hbook ▸ hrep, ⟨b', hbook ▸ hran⟩, hpending ▸ h.length_lt, hpending ▸ hrecords, hpending ▸ h.tagged,
    fun he => ?_, hslots⟩
  obtain ⟨xs, hlogged, hops, hattrs⟩ := h.journal
  obtain ⟨a', htrail⟩ := (hlogged.trail he).take w.pending.length
  refine ⟨start, _, a', hbook ▸ hbegun he, htrail, ?_⟩
  have hlen := h.attributions_length he
  have hmap : w.pendingAttribution = (xs.take w.pending.length).map Prod.snd := by
    rw [List.map_take, ← hattrs he, List.take_left' hlen]
  rw [hlevel he, hmap, List.map_map]
  rfl

theorem setup_prepared (enableAttribution : Bool) (batchSize : UInt64) (d : Draws) :
    Ends (SetupStops enableAttribution batchSize d)
      (fun r => r.2.pending.length = batchSize.toNat ∧ ∃ cs, Prepared r.2 cs)
      (MacroWorkload.setup enableAttribution batchSize d) := by
  rw [MacroWorkload.setup]
  apply after_warmup (Halts.setup (by omega) And.left)
  intro w w₁ hw hkept hw₁
  obtain ⟨hnoting, hrep, hbegun, hbuild⟩ := hkept.noting.of_ok hw₁
  have hrun := setup_of_plan hw hw₁ (fun k w => Noting.step) hnoting.toBatch hnoting
  apply hrun.bind
  intro w₂ hw₂
  dsimp only
  rw [hw₂.take_pending, MacroWorkload.rebuild_eq hbuild]
  · change Ends _ _ (if enableAttribution then _ else _)
    by_cases he : enableAttribution = true
    · rw [if_pos he]
      have hattr : (if enableAttribution then w₂.pendingAttribution.take batchSize.toNat else w₂.pendingAttribution) =
          w₂.pendingAttribution := by
        rw [if_pos he, ← hw₂.length, ← hw₂.attributions_length he, List.take_length]
      rw [hattr]
      obtain ⟨calls, s, hs, hlevels, hslots⟩ := hw₂.annotateOrderSlotReuse (v := { w₂ with
        restingOrders := w₁.restingOrders, book := w₁.book, bookHandles := w₁.bookHandles }) rfl rfl rfl
      dsimp only at hs ⊢
      rw [hs]
      change Ends _ _ (MacroWorkload.rebuild _ _ >>= _)
      rw [MacroWorkload.rebuild_eq hbuild]
      · refine ⟨hw₂.length, _, hw₂.prepared hrep hbegun ?_ ?_ (fun _ => hlevels) (fun _ => hslots)⟩
        · rfl
        · rfl
      · rfl
    · rw [if_neg he]
      refine ⟨hw₂.length, _, hw₂.prepared hrep hbegun ?_ ?_ (fun h => absurd h he) (fun h => absurd h he)⟩
      · rfl
      · rfl
  · rfl

def ReadyFrom (idx : ℕ) (cs : List Call) (w : MacroWorkload enableAttribution) : Prop :=
  (∃ b', Ran w.book cs b') ∧ List.Forall₂ Tagged cs (w.pending.drop idx)

theorem ReadyFrom.executePending {idx : ℕ} {c : Call} (h : ReadyFrom idx (c :: cs) w) (ok : ℕ) :
    ∃ w', w.executePending idx ok = .ok (ok + 1, w') ∧ ReadyFrom (idx + 1) cs w' ∧ w'.pending = w.pending ∧
      w'.pendingAttribution = w.pendingAttribution ∧ w'.calls = w.calls ++ [c] := by
  obtain ⟨⟨b', hbefore, b₁, hexec, hrest⟩, htagged⟩ := h
  cases hops : w.pending.drop idx with
  | nil =>
    rw [hops] at htagged
    cases htagged
  | cons op ops =>
    rw [hops] at htagged
    obtain ⟨htag, htagged⟩ := List.forall₂_cons.mp htagged
    have hop : w.pending[idx]? = some op := by
      rw [← List.head?_drop, hops]
      rfl
    have hcall : w.call op.op = .ok (c.reply, { w with book := b₁, calls := w.calls ++ [c] }) := by
      rw [MacroWorkload.call, ← htag.call, hexec, ← hbefore]
      rfl
    refine ⟨{ w with book := b₁, calls := w.calls ++ [c] }, ?_, ⟨⟨b', hrest⟩, ?_⟩, rfl, rfl, rfl⟩
    · rw [MacroWorkload.executePending, hop]
      dsimp only
      rw [hcall]
      dsimp only [bind, Except.bind]
      rw [if_pos htag.done]
      rfl
    · rw [← List.tail_drop, hops]
      exact htagged

theorem ReadyFrom.executeFrom {idx : ℕ} (h : ReadyFrom idx cs w) (hn : n ≤ cs.length) (ok : ℕ) :
    ∃ w', w.executeFrom idx n ok = .ok (ok + n, w') ∧ w'.calls = w.calls ++ cs.take n := by
  induction n generalizing w idx cs ok with
  | zero => exact ⟨w, rfl, (List.append_nil _).symm⟩
  | succ n ih =>
    cases cs with
    | nil => cases hn
    | cons c cs =>
      obtain ⟨w₁, heq, hready, -, -, hcalls⟩ := h.executePending ok
      obtain ⟨w', heq', hcalls'⟩ := ih hready (Nat.le_of_succ_le_succ hn) (ok + 1)
      refine ⟨w', ?_, ?_⟩
      · rw [MacroWorkload.executeFrom, heq]
        change MacroWorkload.executeFrom (idx + 1) n (ok + 1) w₁ = _
        rw [heq', Nat.add_assoc, Nat.add_comm 1]
      · rw [hcalls', hcalls, List.append_assoc]
        rfl

theorem Prepared.attributions_length {w : MacroWorkload true} (h : Prepared w cs) :
    w.pendingAttribution.length = w.pending.length := by
  obtain ⟨start, xs, a', -, htrail, hlevels⟩ := h.levels rfl
  have hl := congrArg List.length hlevels
  rw [List.length_map, List.length_map, ← htrail.length] at hl
  exact hl.trans h.tagged.length_eq

theorem Prepared.ready (h : Prepared w cs) : ReadyFrom 0 cs w := ⟨h.ran, h.tagged⟩

theorem Prepared.execute (h : Prepared w cs) (hn : n ≤ w.pending.length) (ok : ℕ) :
    ∃ w', w.executeFrom 0 n ok = .ok (ok + n, w') ∧ w'.calls = w.calls ++ cs.take n :=
  h.ready.executeFrom (h.tagged.length_eq ▸ hn) ok

theorem timed_scenarios (enableAttribution : Bool) (batchSize : UInt64) (d : Draws) :
    Ends (SetupStops enableAttribution batchSize d)
      (fun r => ∀ n ≤ batchSize.toNat, ∀ ok, ∃ w' cs, r.2.executeFrom 0 n ok = .ok (ok + n, w') ∧
        w'.calls = r.2.calls ++ cs ∧ List.Forall₂ Tagged cs (r.2.pending.take n))
      (MacroWorkload.setup enableAttribution batchSize d) := by
  apply (setup_prepared enableAttribution batchSize d).imp
  rintro r ⟨hlen, cs, h⟩ n hn ok
  obtain ⟨w', heq, hcalls⟩ := h.execute (hlen ▸ hn) ok
  exact ⟨w', cs.take n, heq, hcalls, List.forall₂_take n h.tagged⟩

/-- The level distance noted beside an add or a cancel is the one that its level has in the timed run. -/
theorem timed_level_distances (batchSize : UInt64) (d : Draws) :
    Ends (SetupStops true batchSize d)
      (fun r => ∃ w' cs, r.2.executeFrom 0 batchSize.toNat 0 = .ok (batchSize.toNat, w') ∧
        w'.calls = r.2.calls ++ cs ∧ ∀ i c l, cs[i]? = some c → c.measured = some l →
          ∃ x, r.2.pendingAttribution[i]? = some x ∧ LevelReuse r.2.book cs i l x.levelReuseDistanceOps)
      (MacroWorkload.setup true batchSize d) := by
  apply (setup_prepared true batchSize d).imp
  rintro r ⟨hlen, cs, h⟩
  have hcs := h.tagged.length_eq
  obtain ⟨w', heq, hcalls⟩ := h.execute hlen.ge 0
  rw [List.take_of_length_le (by omega)] at hcalls
  rw [Nat.zero_add] at heq
  refine ⟨w', cs, heq, hcalls, fun i c l hc hl => ?_⟩
  obtain ⟨start, xs, a', hbegun, htrail, hlevels⟩ := h.levels rfl
  obtain ⟨A, hrep⟩ := h.rep
  obtain ⟨b', hran⟩ := h.ran
  obtain ⟨y, hy, hreuse⟩ := htrail.levelReuse hbegun hran h.records hrep (hcs ▸ h.room) hc hl
  have hmap := congrArg (fun ys => ys[i]?) hlevels
  rw [List.getElem?_map, List.getElem?_map, hy] at hmap
  obtain ⟨x, hx, hxy⟩ := Option.map_eq_some_iff.mp hmap
  exact ⟨x, hx, hxy ▸ hreuse⟩

theorem timed_slot_distances (batchSize : UInt64) (d : Draws) :
    Ends (SetupStops true batchSize d)
      (fun r => ∃ w' cs, r.2.executeFrom 0 batchSize.toNat 0 = .ok (batchSize.toNat, w') ∧
        w'.calls = r.2.calls ++ cs ∧ ∀ i c h, cs[i]? = some c → c.acquired = some h →
          ∃ x, r.2.pendingAttribution[i]? = some x ∧ SlotReuse cs i h x.orderSlotReuseDistanceOps)
      (MacroWorkload.setup true batchSize d) := by
  apply (setup_prepared true batchSize d).imp
  rintro r ⟨hlen, cs, h⟩
  have hcs := h.tagged.length_eq
  obtain ⟨w', heq, hcalls⟩ := h.execute hlen.ge 0
  rw [List.take_of_length_le (by omega)] at hcalls
  rw [Nat.zero_add] at heq
  refine ⟨w', cs, heq, hcalls, fun i c h' hc hacq => ?_⟩
  have hi := (List.getElem?_eq_some_iff.mp hc).1
  have hlen' := h.attributions_length
  have hx := List.getElem?_eq_getElem (show i < r.2.pendingAttribution.length by omega)
  exact ⟨_, hx, h.slots rfl i c h' hc hacq _ hx⟩

end Llmes.Hft
