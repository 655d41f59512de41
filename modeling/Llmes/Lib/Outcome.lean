import Mathlib

namespace Outcome

variable {α β σ ε : Type} {E E' : ε → Prop}

def Ends (E : ε → Prop) (Q : α → Prop) : Except ε α → Prop
  | .ok a => Q a
  | .error e => E e

def times (f : σ → Except ε σ) : ℕ → σ → Except ε σ
  | 0, s => .ok s
  | n + 1, s => f s >>= times f n

theorem mapM_eq_ok {f : α → Except ε β} {g : α → β} {xs : List α} (h : ∀ x ∈ xs, f x = .ok (g x)) :
    xs.mapM f = .ok (xs.map g) := by
  induction xs with
  | nil => rfl
  | cons x xs ih =>
    rw [List.mapM_cons, h x List.mem_cons_self, ih (fun y hy => h y (List.mem_cons_of_mem x hy))]
    rfl

/-- Every state in which one of so many rounds begins. -/
def Through (f : σ → Except ε σ) (P : σ → Prop) (n : ℕ) (s : σ) : Prop :=
  ∀ j < n, ∀ s', times f j s = .ok s' → P s'

theorem through_zero {f : σ → Except ε σ} {P : σ → Prop} {s : σ} : Through f P 0 s ↔ True :=
  iff_true_intro (fun j hj => absurd hj (Nat.not_lt_zero j))

theorem through_succ {f : σ → Except ε σ} {P : σ → Prop} {n : ℕ} {s s' : σ} (hs : f s = .ok s') :
    Through f P (n + 1) s ↔ P s ∧ Through f P n s' := by
  have htimes (j : ℕ) : Outcome.times f (j + 1) s = Outcome.times f j s' := by
    rw [Outcome.times, hs]
    rfl
  constructor
  · intro h
    refine ⟨h 0 (Nat.succ_pos n) s rfl, fun j hj t ht => ?_⟩
    exact h (j + 1) (Nat.succ_lt_succ hj) t ((htimes j).trans ht)
  · rintro ⟨hs, hrest⟩ j hj t ht
    cases j with
    | zero =>
      cases ht
      exact hs
    | succ j => exact hrest j (Nat.lt_of_succ_lt_succ hj) t ((htimes j).symm.trans ht)

theorem through_last {f : σ → Except ε σ} {P : σ → Prop} {n : ℕ} {s s' : σ} (hs : times f n s = .ok s') :
    Through f P (n + 1) s ↔ Through f P n s ∧ P s' := by
  constructor
  · exact fun h => ⟨fun j hj => h j (Nat.lt_succ_of_lt hj), h n (Nat.lt_succ_self n) s' hs⟩
  · rintro ⟨h, hlast⟩ j hj t ht
    rcases Nat.lt_succ_iff_lt_or_eq.mp hj with hj | rfl
    · exact h j hj t ht
    · cases hs.symm.trans ht
      exact hlast

namespace Ends

variable {Q Q' : α → Prop} {x : Except ε α}

theorem mono (h : Ends E Q x) (hE : ∀ e, E e → E' e) (hQ : ∀ a, Q a → Q' a) : Ends E' Q' x := by
  cases x with
  | ok a => exact hQ a h
  | error e => exact hE e h

theorem imp (h : Ends E Q x) (hQ : ∀ a, Q a → Q' a) : Ends E Q' x := h.mono (fun _ => id) hQ

theorem weaken (h : Ends E Q x) (hE : ∀ e, E e → E' e) : Ends E' Q x := h.mono hE (fun _ => id)

theorem of_never (h : Ends (fun _ => False) Q x) : Ends E Q x := h.weaken (fun _ => False.elim)

theorem bind {f : α → Except ε β} {P : β → Prop} (h : Ends E Q x) (hf : ∀ a, Q a → Ends E P (f a)) :
    Ends E P (x >>= f) := by
  cases x with
  | ok a => exact hf a h
  | error e => exact h

theorem and (h : Ends E Q x) (h' : Ends E' Q' x) : Ends E' (fun a => Q a ∧ Q' a) x := by
  cases x with
  | ok a => exact ⟨h, h'⟩
  | error e => exact h'

theorem of_ok {a : α} (h : Ends E Q x) (hx : x = .ok a) : Q a := by
  subst hx
  exact h

theorem of_error {e : ε} (h : Ends E Q x) (hx : x = .error e) : E e := by
  subst hx
  exact h

theorem eq_ok (h : Ends E Q x) : Ends E (fun a => x = .ok a ∧ Q a) x := by
  cases x with
  | ok a => exact ⟨rfl, h⟩
  | error e => exact h

theorem exists_ok (h : Ends (fun _ => False) Q x) : ∃ a, x = .ok a ∧ Q a := by
  cases x with
  | ok a => exact ⟨a, rfl, h⟩
  | error e => exact absurd h id

theorem mapError {δ : Type} {D : δ → Prop} {f : ε → δ} (h : Ends E Q x) (hD : ∀ e, E e → D (f e)) :
    Ends D Q (x.mapError f) := by
  cases x with
  | ok a => exact h
  | error e => exact hD e h

theorem trivial (x : Except ε α) : Ends (fun _ => True) (fun _ => True) x := by
  cases x <;> exact True.intro

theorem foldlM {f : σ → β → Except ε σ} {P : σ → Prop} (hstep : ∀ s i, P s → Ends E P (f s i)) (is : List β)
    {s : σ} (h : P s) : Ends E P (is.foldlM f s) := by
  induction is generalizing s with
  | nil => exact h
  | cons i is ih => exact (hstep s i h).bind (fun s' => ih)

theorem times {f : σ → Except ε σ} {P : ℕ → σ → Prop} {n k : ℕ} {s : σ}
    (hstep : ∀ i < n, ∀ s, P (k + i) s → Ends E (P (k + i + 1)) (f s)) (h : P k s) :
    Ends E (P (k + n)) (times f n s) := by
  induction n generalizing k s with
  | zero => exact h
  | succ n ih =>
    apply (hstep 0 (by omega) s h).bind
    intro s' hs'
    have hrest := ih (k := k + 1) (s := s') (fun i hi t ht => ?_) hs'
    · rwa [show k + (n + 1) = k + 1 + n by omega]
    · have hi' := hstep (i + 1) (by omega) t
      rw [show k + (i + 1) = k + 1 + i by omega] at hi'
      exact hi' ht

/-- Rounds that are related to a condition on the state in which each begins, one after the other. -/
theorem times_through {f : σ → Except ε σ} {P : ℕ → σ → Prop} {fits : σ → Prop} {E : Prop → ε → Prop}
    {R : Prop → σ → σ → Prop} {n k : ℕ} {s : σ} (hE : ∀ F F' e, (F' → F) → E F e → E F' e) (hrefl : ∀ s, R True s s)
    (htrans : ∀ F F' s s' s'', R F s s' → R F' s' s'' → R (F ∧ F') s s'')
    (hstep : ∀ i < n, ∀ s, P (k + i) s →
      Ends (E (fits s)) (fun s' => P (k + i + 1) s' ∧ R (fits s) s s') (f s))
    (h : P k s) :
    Ends (E (Through f fits n s)) (fun s' => P (k + n) s' ∧ R (Through f fits n s) s s') (Outcome.times f n s) := by
  induction n generalizing k s with
  | zero =>
    rw [propext through_zero]
    exact ⟨h, hrefl s⟩
  | succ n ih =>
    have hfirst := hstep 0 (Nat.succ_pos n) s h
    rw [Outcome.times]
    cases hs : f s with
    | error e =>
      rw [hs] at hfirst
      exact hE _ _ e (fun hthrough => hthrough 0 (Nat.succ_pos n) s rfl) hfirst
    | ok s' =>
      rw [hs] at hfirst
      obtain ⟨hP, hR⟩ := hfirst
      rw [propext (through_succ hs)]
      have hrest := ih (k := k + 1) (s := s') (fun i hi t ht => ?_) hP
      · apply hrest.mono (fun e => hE _ _ e And.right)
        rintro t ⟨ht, hR'⟩
        rw [show k + (n + 1) = k + 1 + n by omega]
        exact ⟨ht, htrans _ _ _ _ _ hR hR'⟩
      · have hi' := hstep (i + 1) (by omega) t
        rw [show k + (i + 1) = k + 1 + i by omega] at hi'
        exact hi' ht

theorem times_each {f : σ → Except ε σ} {P : ℕ → σ → Prop} {fits : σ → Prop} {E : Prop → ε → Prop} {n k : ℕ} {s : σ}
    (hE : ∀ F F' e, (F' → F) → E F e → E F' e)
    (hstep : ∀ i < n, ∀ s, P (k + i) s → Ends (E (fits s)) (P (k + i + 1)) (f s)) (h : P k s) :
    Ends (E (Through f fits n s)) (P (k + n)) (Outcome.times f n s) := by
  have hrun := times_through (R := fun _ _ _ => True) hE (fun _ => True.intro) (fun _ _ _ _ _ _ _ => True.intro)
    (fun i hi s hs => (hstep i hi s hs).imp (fun _ hs' => ⟨hs', True.intro⟩)) h
  exact hrun.imp (fun _ hs => hs.1)

end Ends

theorem times_succ (f : σ → Except ε σ) (n : ℕ) (s : σ) : times f (n + 1) s = times f n s >>= f := by
  induction n generalizing s with
  | zero =>
    change f s >>= Except.ok = f s
    cases f s <;> rfl
  | succ n ih =>
    rw [times]
    cases hs : f s with
    | error e =>
      rw [times, hs]
      rfl
    | ok s' =>
      rw [times, hs]
      exact ih s'

end Outcome
