import Llmes.CachedRefinement
import Llmes.Frames

namespace Llmes

open BookSide RingBuffer Outcome

theorem PriceLevelPool.acquire_capacity (p : PriceLevelPool) :
    Ends (fun _ => True) (fun l => l.2.capacity = p.capacity) p.acquire := by
  unfold acquire
  split
  · trivial
  · rfl

theorem PriceLevelPool.release_capacity (p : PriceLevelPool) (level : Option ℕ) :
    Ends (fun _ => True) (fun p' => p'.capacity = p.capacity) (p.release level) := by
  unfold release
  split
  · trivial
  · split
    · rfl
    · trivial

namespace CachedSideBook

variable {isAsk : Bool} {b : CachedSideBook isAsk} {p : Int} {n : ℕ}

def Sized (n : ℕ) (b : CachedSideBook isAsk) : Prop := b.pool.capacity = n

theorem Sized.materialize (h : b.Sized n) (idx : ℕ) (p : Int) :
    Ends (fun _ => True) (fun g => g.2.Sized n) (b.materialize idx p) := by
  apply b.pool.acquire_capacity.bind
  intro l hl
  apply (Ends.trivial _).bind
  intro hot _
  exact hl.trans h

theorem Sized.coldGetOrCreate (h : b.Sized n) (p : Int) :
    Ends (fun _ => True) (fun g => g.2.Sized n) (b.coldGetOrCreate p) := by
  unfold CachedSideBook.coldGetOrCreate
  split
  · exact h
  · apply b.pool.acquire_capacity.bind
    intro l hl
    exact hl.trans h

theorem Sized.vacate (h : b.Sized n) (i : ℕ) : Ends (fun _ => True) (Sized n) (b.vacate i) := by
  unfold CachedSideBook.vacate
  dsimp only
  split
  · exact h
  · split
    · apply (b.pool.release_capacity _).bind
      intro pool hpool
      apply (Ends.trivial _).bind
      intro hot _
      exact hpool.trans h
    · unfold emplace
      split
      · trivial
      · exact h
      · exact h

theorem Sized.reanchorTo (h : b.Sized n) (p : Int) :
    Ends (fun _ => True) (fun g => g.2.Sized n) (b.reanchorTo p) := by
  apply (Ends.trivial _).bind
  intro r _
  apply (Ends.trivial _).bind
  intro d _
  split
  · apply Ends.bind (Q := Sized n)
    · exact (Ends.foldlM (fun _ i hb => Sized.vacate hb i) _ h).bind (fun b' hb' => hb')
    · intro b' hb'
      apply (Ends.trivial _).bind
      intro hot _
      exact Sized.materialize (b := { b' with hot }) hb' _ _
  · apply (Ends.foldlM (fun _ _ hb => Sized.vacate hb _) _ h).bind
    intro b' hb'
    apply (Ends.trivial _).bind
    intro hot _
    exact Sized.materialize (b := { b' with hot }) hb' _ _

theorem Sized.getOrCreate (h : b.Sized n) (p : Int) :
    Ends (fun _ => True) (fun g => g.2.Sized n) (b.getOrCreate p) := by
  unfold CachedSideBook.getOrCreate
  split
  · apply (Ends.trivial _).bind
    intro hot _
    exact Sized.materialize (b := { b with hot }) h _ _
  · apply (Ends.trivial _).bind
    intro r _
    dsimp only
    split
    · split
      · split
        · exact h
        · trivial
      · split
        · trivial
        · exact h.materialize _ _
    · split
      · exact h.reanchorTo p
      · exact h.coldGetOrCreate p

theorem Sized.walk (fuel : ℕ) (h : b.Sized n) : Ends (fun _ => True) (Sized n) (walk fuel b) := by
  induction fuel generalizing b with
  | zero => trivial
  | succ fuel ih =>
    unfold CachedSideBook.walk
    dsimp only
    split
    · split
      · exact h
      · apply (Ends.trivial _).bind
        intro hot _
        apply (Ends.trivial _).bind
        intro hot _
        exact h
    · apply (Ends.trivial _).bind
      intro hot _
      split
      · trivial
      · split
        · apply (b.pool.release_capacity _).bind
          intro pool hpool
          apply (Ends.trivial _).bind
          intro hot _
          exact ih (b := { b with hot, pool }) (hpool.trans h)
        · exact h

theorem Sized.promoteAll (fuel : ℕ) (h : b.Sized n) : Ends (fun _ => True) (Sized n) (promoteAll fuel b) := by
  induction fuel generalizing b with
  | zero =>
    unfold CachedSideBook.promoteAll
    split
    · exact h
    · apply (Ends.trivial _).bind
      intro c _
      split
      · trivial
      · exact h
  | succ fuel ih =>
    unfold CachedSideBook.promoteAll
    split
    · exact h
    · apply (Ends.trivial _).bind
      intro c _
      split
      · apply (Ends.trivial _).bind
        intro r _
        split
        · apply Ends.bind (Q := Sized n)
          · unfold promoteCold
            split
            · trivial
            · apply (Ends.trivial _).bind
              intro r _
              dsimp only
              split
              · trivial
              · apply (Ends.trivial _).bind
                intro hot _
                exact h
          · exact fun b' => ih
        · trivial
      · exact h

theorem Sized.eraseBest (h : b.Sized n) : Ends (fun _ => True) (Sized n) b.eraseBest := by
  unfold CachedSideBook.eraseBest
  split
  · trivial
  · split
    · apply (b.pool.release_capacity _).bind
      intro pool hpool
      apply (Ends.trivial _).bind
      intro hot _
      apply (Sized.walk (b := { b with hot, pool }) _ (hpool.trans h)).bind
      exact fun b' hb' => hb'.promoteAll _
    · trivial

theorem retained_sized (n : ℕ) : Retained (fun isAsk (b : CachedSideBook isAsk) => b.Sized n) where
  setLevel _ _ _ _ h := h
  getOrCreate _ _ p h := h.getOrCreate p
  eraseBest _ _ h := h.eraseBest

abbrev Spares {α : Type} (x : Exec α) : Prop := Ends (· ≠ .levelPoolExhausted) (fun _ => True) x

theorem spares_setAnchor (hot : RingBuffer isAsk) (idx : ℕ) (p : Int) : Spares (hot.setAnchor idx p) := by
  unfold setAnchor
  split
  · exact Fault.noConfusion
  · trivial

theorem spares_acquire {pool : PriceLevelPool} (h : pool.freeHead ≠ none) : Spares pool.acquire := by
  unfold PriceLevelPool.acquire
  split
  · next hn => exact absurd hn h
  · trivial

theorem spares_materialize (h : b.pool.freeHead ≠ none) (idx : ℕ) (p : Int) : Spares (b.materialize idx p) := by
  apply (spares_acquire h).bind
  intro l _
  apply Ends.bind (Q := fun _ => True)
  · unfold RingBuffer.insert
    split
    · exact Fault.noConfusion
    · trivial
  · exact fun _ _ => True.intro

theorem Sound.freeHead_ne_none (h : b.Sound) (hlt : b.owned.length < b.pool.capacity) : b.pool.freeHead ≠ none := by
  obtain ⟨free, hfree, hperm⟩ := h.pool
  have hlen := hperm.length_eq
  rw [List.length_append, List.length_range] at hlen
  cases free with
  | nil =>
    rw [List.length_nil] at hlen
    omega
  | cons r free =>
    rw [hfree.chain.1]
    exact Option.some_ne_none r

theorem Kept.freeHead_ne_none {b' : CachedSideBook isAsk} (hk : Kept b b') (h : b'.Sound)
    (hlt : b.owned.length < b.pool.capacity) : b'.pool.freeHead ≠ none := by
  apply h.freeHead_ne_none
  have := hk.count
  have := hk.capacity
  omega

theorem Inv.spares_reanchorTo (h : b.Inv) (hc : b.Clean) (he : b.hot.empty = false) (hnear : b.Near p)
    (hneg : b.hot.offset p < 0) (hlt : b.owned.length < b.pool.capacity) : Spares (b.reanchorTo p) := by
  obtain ⟨hrank, hlo, hhi⟩ := h.rank_ok h.best he hnear
  have hd : checked (-b.hot.offset p) = .ok (-b.hot.offset p) := if_pos (by omega)
  have hsize : toSize (-b.hot.offset p) = (-b.hot.offset p).toNat := by
    rw [toSize]
    omega
  simp only [reanchorTo, hrank, ok_bind, hd, hsize]
  split
  · obtain ⟨b₁, hb₁, hsound, hkept, -⟩ := h.toSound.flushAllToCold_spec hc
    rw [hb₁, ok_bind]
    apply (spares_setAnchor _ _ _).bind
    intro hot _
    exact spares_materialize (b := { b₁ with hot }) (hkept.freeHead_ne_none hsound hlt) _ _
  · next hsmall =>
    simp only [RingBuffer.ringSize] at hsmall
    obtain ⟨b₁, hb₁, hsound, hkept, -⟩ := h.slide_spec hc
      (show b.hot.offset p = -((-b.hot.offset p).toNat : Int) by omega) (by omega) (by omega)
    rw [hb₁, ok_bind]
    apply (spares_setAnchor _ _ _).bind
    intro hot _
    exact spares_materialize (b := { b₁ with hot }) ((hkept.trans (.rebase (b₁.hot.rebased p) rfl)).freeHead_ne_none hsound hlt) _ _

theorem Inv.spares_getOrCreate (h : b.Inv) (hc : b.Clean) (hnear : b.hot.empty = false → b.Near p)
    (hlt : b.owned.length < b.pool.capacity) : Spares (b.getOrCreate p) := by
  have hfree := h.toSound.freeHead_ne_none hlt
  unfold getOrCreate
  cases he : b.hot.empty with
  | true =>
    rw [if_pos rfl]
    apply (spares_setAnchor _ _ _).bind
    intro hot _
    exact spares_materialize (b := { b with hot }) hfree _ _
  | false =>
    obtain ⟨hrank, -, -⟩ := h.rank_ok h.best he (hnear he)
    rw [if_neg (by simp), hrank, ok_bind]
    dsimp only
    split
    · split
      · split
        · trivial
        · exact Fault.noConfusion
      · split
        · exact Fault.noConfusion
        · exact spares_materialize hfree _ _
    · split
      · next hneg => exact h.spares_reanchorTo hc he (hnear he) hneg hlt
      · unfold coldGetOrCreate
        split
        · trivial
        · exact (spares_acquire hfree).bind (fun _ _ => True.intro)

theorem Sound.owned_length_le (h : b.Sound) {P : Finset Int} (hP : ∀ q, b.Held q → q ∈ P) :
    b.owned.length ≤ P.card := by
  have hex : ∀ r ∈ b.owned, ∃ q ∈ P, b.Holds q r := by
    intro r hr
    obtain ⟨q, hq⟩ := mem_owned.mp hr
    exact ⟨q, hP q ⟨r, hq⟩, hq⟩
  choose! price hmem hholds using hex
  rw [← List.toFinset_card_of_nodup (owned_nodup h)]
  apply Finset.card_le_card_of_injOn price
  · intro r hr
    exact hmem r (List.mem_toFinset.mp hr)
  · intro r hr r' hr' heq
    have h₁ := hholds r (List.mem_toFinset.mp hr)
    have h₂ := hholds r' (List.mem_toFinset.mp hr')
    rw [heq] at h₁
    exact holds_unique h h₁ h₂

theorem spares_getOrCreate_of_card (h : Inv b ∧ b.Close) (ht : Tidy b) {P : Finset Int}
    (hP : ∀ q, b.Held q → q ∈ P) (hfits : Fits (P : Set Int)) (hp : p ∈ P) (hcard : P.card ≤ b.pool.capacity) :
    Spares (b.getOrCreate p) := by
  have hnear (he : b.hot.empty = false) : b.Near p :=
    h.1.near_of_apart h.1.best he (fun q hq => hfits.apart p hp q (hP q hq))
  by_cases hheld : b.Held p
  · obtain ⟨r, hr⟩ := hheld
    rw [h.1.getOrCreate_held hr (hnear (h.1.hot_empty_of_held ⟨r, hr⟩))]
    trivial
  · apply h.1.spares_getOrCreate (h.1.toSound.clean ht) hnear
    have hlt : (P.erase p).card < P.card := Finset.card_erase_lt_of_mem hp
    have hle := h.1.toSound.owned_length_le (P := P.erase p) (fun q hq =>
      Finset.mem_erase.mpr ⟨fun heq => hheld (heq ▸ hq), hP q hq⟩)
    omega

end CachedSideBook

end Llmes
