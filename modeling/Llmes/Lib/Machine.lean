import Mathlib

namespace Machine

variable {σ τ ι ρ ε : Type}

abbrev Step (σ ι ρ ε : Type) := σ → ι → Except ε (ρ × σ)

def runAll (step : Step σ ι ρ ε) : σ → List ι → Except ε (List ρ × σ)
  | s, [] => .ok ([], s)
  | s, i :: is => do
    let (r, s') ← step s i
    let (rs, s'') ← runAll step s' is
    pure (r :: rs, s'')

def Allowed (step : Step σ ι ρ ε) (ok : σ → ι → Prop) : σ → List ι → Prop
  | _, [] => True
  | s, i :: is => ok s i ∧ ∀ r s', step s i = .ok (r, s') → Allowed step ok s' is

theorem Allowed.mem {step : Step σ ι ρ ε} {ok : σ → ι → Prop} {s : σ} {is : List ι}
    (h : Allowed step ok s is) : Allowed step (fun s i => ok s i ∧ i ∈ is) s is := by
  suffices hall : ∀ js ⊆ is, Allowed step ok s js → Allowed step (fun s i => ok s i ∧ i ∈ is) s js from
    hall is (List.Subset.refl _) h
  clear h
  intro js hjs h
  induction js generalizing s with
  | nil => trivial
  | cons i js ih =>
    rw [List.cons_subset] at hjs
    exact ⟨⟨h.1, hjs.1⟩, fun r s' hs => ih hjs.2 (h.2 r s' hs)⟩

inductive Run (step : Step σ ι ρ ε) (ok : σ → ι → Prop) : σ → List (ι × ρ) → σ → Prop
  | nil (s : σ) : Run step ok s [] s
  | cons {s s' s'' : σ} {i : ι} {r : ρ} {l : List (ι × ρ)} : ok s i → step s i = .ok (r, s') →
      Run step ok s' l s'' → Run step ok s ((i, r) :: l) s''

def Reach (step : Step σ ι ρ ε) (ok : σ → ι → Prop) (s₀ s : σ) : Prop :=
  ∃ l, Run step ok s₀ l s

theorem Run.invariant {step : Step σ ι ρ ε} {ok : σ → ι → Prop} {P : σ → Prop}
    (hstep : ∀ s i r s', P s → ok s i → step s i = .ok (r, s') → P s')
    {s s' : σ} {l : List (ι × ρ)} (h : Run step ok s l s') (hs : P s) : P s' := by
  induction h with
  | nil s => exact hs
  | cons hok hi _ ih => exact ih (hstep _ _ _ _ hs hok hi)

theorem Reach.invariant {step : Step σ ι ρ ε} {ok : σ → ι → Prop} {P : σ → Prop} {s₀ s : σ}
    (h : Reach step ok s₀ s) (h₀ : P s₀)
    (hstep : ∀ s i r s', P s → ok s i → step s i = .ok (r, s') → P s') : P s := by
  obtain ⟨l, hl⟩ := h
  exact hl.invariant hstep h₀

theorem Reach.imp {step : Step σ ι ρ ε} {ok ok' : σ → ι → Prop} (hok : ∀ s i, ok s i → ok' s i) {s₀ s : σ}
    (h : Reach step ok s₀ s) : Reach step ok' s₀ s := by
  obtain ⟨l, hl⟩ := h
  refine ⟨l, ?_⟩
  induction hl with
  | nil s => exact .nil s
  | cons hi hs _ ih => exact .cons (hok _ _ hi) hs ih

theorem Run.append {step : Step σ ι ρ ε} {ok : σ → ι → Prop} {s s' s'' : σ}
    {l l' : List (ι × ρ)} (h : Run step ok s l s') (h' : Run step ok s' l' s'') :
    Run step ok s (l ++ l') s'' := by
  induction h with
  | nil s => exact h'
  | cons hok hi _ ih => exact .cons hok hi (ih h')

theorem Run.split {step : Step σ ι ρ ε} {ok : σ → ι → Prop} {s s'' : σ} {l l' : List (ι × ρ)}
    (h : Run step ok s (l ++ l') s'') : ∃ s', Run step ok s l s' ∧ Run step ok s' l' s'' := by
  induction l generalizing s with
  | nil => exact ⟨s, .nil s, h⟩
  | cons x l ih =>
    cases h with
    | cons hok hi hrest =>
      obtain ⟨s', hl, hl'⟩ := ih hrest
      exact ⟨s', .cons hok hi hl, hl'⟩

theorem Reach.step {step : Step σ ι ρ ε} {ok : σ → ι → Prop} {s₀ s s' : σ} {i : ι} {r : ρ}
    (h : Reach step ok s₀ s) (hok : ok s i) (hi : step s i = .ok (r, s')) :
    Reach step ok s₀ s' := by
  obtain ⟨l, hl⟩ := h
  exact ⟨l ++ [(i, r)], hl.append (.cons hok hi (.nil _))⟩

def next (step : Step σ ι ρ ε) (s : σ) (i : ι) : σ :=
  match step s i with
  | .ok x => x.2
  | .error _ => s

theorem next_of_ok {step : Step σ ι ρ ε} {s s' : σ} {i : ι} {r : ρ} (h : step s i = .ok (r, s')) :
    next step s i = s' := by
  rw [next, h]

theorem step_next {step : Step σ ι ρ ε} {s : σ} {i : ι} {r : ρ}
    (h : (step s i).toOption.map Prod.fst = some r) : step s i = .ok (r, next step s i) := by
  cases hi : step s i with
  | error e => simp [hi, Except.toOption] at h
  | ok x =>
    simp only [hi, Except.toOption, Option.map_some, Option.some.injEq] at h
    rw [next_of_ok hi, ← h]

theorem Allowed.of_next {step : Step σ ι ρ ε} {ok : σ → ι → Prop} {s : σ} {i : ι} {is : List ι}
    (h : ok s i) (h' : Allowed step ok (next step s i) is) : Allowed step ok s (i :: is) := by
  refine ⟨h, fun r s' hs => ?_⟩
  rw [← next_of_ok hs]
  exact h'

theorem Reach.next {step : Step σ ι ρ ε} {ok : σ → ι → Prop} {s₀ s : σ} {i : ι}
    (h : Reach step ok s₀ s) (hok : ok s i) (hs : (step s i).isOk = true) :
    Reach step ok s₀ (next step s i) := by
  cases hi : step s i with
  | error e => simp [hi, Except.isOk, Except.toBool] at hs
  | ok x =>
    rw [next_of_ok hi]
    exact h.step hok hi

theorem Run.length_le {step : Step σ ι ρ ε} {ok : σ → ι → Prop} {P : σ → Prop} (measure : σ → ℕ)
    (hstep : ∀ s i r s', P s → ok s i → step s i = .ok (r, s') → P s' ∧ measure s' < measure s)
    {s s' : σ} {l : List (ι × ρ)} (h : Run step ok s l s') (hs : P s) :
    l.length + measure s' ≤ measure s := by
  induction h with
  | nil s => simp
  | cons hok hi _ ih =>
    obtain ⟨hs', hlt⟩ := hstep _ _ _ _ hs hok hi
    have := ih hs'
    rw [List.length_cons]
    omega

theorem Run.balance {step : Step σ ι ρ ε} {ok : σ → ι → Prop} {P : σ → Prop} (held : σ → ℕ)
    (gain loss : ι × ρ → ℕ)
    (hstep : ∀ s i r s', P s → ok s i → step s i = .ok (r, s') →
      P s' ∧ gain (i, r) + held s = loss (i, r) + held s')
    {s s' : σ} {l : List (ι × ρ)} (h : Run step ok s l s') (hs : P s) :
    (l.map gain).sum + held s = (l.map loss).sum + held s' := by
  induction h with
  | nil s => rfl
  | cons hok hi _ ih =>
    obtain ⟨hs', hbal⟩ := hstep _ _ _ _ hs hok hi
    have := ih hs'
    simp only [List.map_cons, List.sum_cons]
    omega

theorem Allowed.ne_error {step : Step σ ι ρ ε} {ok : σ → ι → Prop} {P : σ → Prop} {e : ε}
    (hstep : ∀ s i, P s → ok s i → step s i ≠ .error e ∧ ∀ r s', step s i = .ok (r, s') → P s')
    {s : σ} {is : List ι} (h : Allowed step ok s is) (hs : P s) : runAll step s is ≠ .error e := by
  induction is generalizing s with
  | nil => exact nofun
  | cons i is ih =>
    obtain ⟨hi, hrest⟩ := h
    obtain ⟨hne, hkeep⟩ := hstep s i hs hi
    rw [runAll]
    cases hr : step s i with
    | error e' =>
      intro he
      exact hne (hr.trans (congrArg Except.error (Except.error.inj he)))
    | ok x =>
      obtain ⟨r, s'⟩ := x
      have hne' := ih (hrest r s' hr) (hkeep r s' hr)
      intro he
      apply hne'
      cases hall : runAll step s' is with
      | error e' =>
        simp only [bind, Except.bind, hall] at he
        exact he
      | ok y => simp [bind, Except.bind, hall, pure, Except.pure] at he

def translate {ι' : Type} (step : Step σ ι ρ ε) (name : σ → ι → ι') : σ → List ι → List ι'
  | _, [] => []
  | s, i :: is => name s i ::
    match step s i with
    | .ok (_, s') => translate step name s' is
    | .error _ => []

theorem translate_eq_map {ι' : Type} (name : ι → ι') {step : Step σ ι ρ ε} {s : σ} {is : List ι} {r : List ρ × σ}
    (h : runAll step s is = .ok r) : translate step (fun _ i => name i) s is = is.map name := by
  induction is generalizing s r with
  | nil => rfl
  | cons i is ih =>
    rw [runAll] at h
    cases hs : step s i with
    | error e =>
      rw [hs] at h
      cases h
    | ok x =>
      obtain ⟨y, s'⟩ := x
      simp only [hs, bind, Except.bind] at h
      cases hrest : runAll step s' is with
      | error e =>
        rw [hrest] at h
        cases h
      | ok z => simp only [translate, hs, ih hrest, List.map_cons]

theorem translate_of_ok {step : Step σ ι ρ ε} {s : σ} {is : List ι} {r : List ρ × σ}
    (h : runAll step s is = .ok r) : translate step (fun _ i => i) s is = is := by
  rw [translate_eq_map _ h, List.map_id']

theorem runAll_simulation {ι' ρ' : Type} {step : Step σ ι ρ ε} {ok : σ → ι → Prop}
    {step' : Step τ ι' ρ' ε} {name : σ → ι → ι'} {R : σ → τ → Prop} {M : ρ → ρ' → Prop}
    (hstep : ∀ s t i, R s t → ok s i → ∃ r s' r' t', step s i = .ok (r, s') ∧
      step' t (name s i) = .ok (r', t') ∧ M r r' ∧ R s' t')
    {s : σ} {t : τ} {is : List ι} (h : R s t) (hok : Allowed step ok s is) :
    ∃ rs s' rs' t', runAll step s is = .ok (rs, s') ∧
      runAll step' t (translate step name s is) = .ok (rs', t') ∧ List.Forall₂ M rs rs' ∧ R s' t' := by
  induction is generalizing s t with
  | nil => exact ⟨[], s, [], t, rfl, rfl, .nil, h⟩
  | cons i is ih =>
    obtain ⟨hi, hrest⟩ := hok
    obtain ⟨r, s', r', t', hs, ht, hM, hR⟩ := hstep s t i h hi
    obtain ⟨rs, s'', rs', t'', hrs, hrt, hMs, hR'⟩ := ih hR (hrest r s' hs)
    refine ⟨r :: rs, s'', r' :: rs', t'', ?_, ?_, .cons hM hMs, hR'⟩
    · simp only [runAll, hs, hrs, bind, Except.bind]
      rfl
    · simp only [translate, hs, runAll, ht, hrt, bind, Except.bind]
      rfl

theorem runAll_agree {step : Step σ ι ρ ε} {ok : σ → ι → Prop} {step' : Step τ ι ρ ε} {R : σ → τ → Prop}
    (hstep : ∀ s t i, R s t → ok s i →
      ∃ r s' t', step s i = .ok (r, s') ∧ step' t i = .ok (r, t') ∧ R s' t')
    {s : σ} {t : τ} {is : List ι} (h : R s t) (hok : Allowed step ok s is) :
    ∃ rs s' t', runAll step s is = .ok (rs, s') ∧ runAll step' t is = .ok (rs, t') ∧ R s' t' := by
  have hpair : ∀ s t i, R s t → ok s i → ∃ r s' r' t', step s i = .ok (r, s') ∧
      step' t i = .ok (r', t') ∧ r = r' ∧ R s' t' := by
    intro s t i hR hi
    obtain ⟨r, s', t', hs, ht, hR'⟩ := hstep s t i hR hi
    exact ⟨r, s', r, t', hs, ht, rfl, hR'⟩
  obtain ⟨rs, s', rs', t', hs, ht, heq, hR⟩ := runAll_simulation hpair h hok
  rw [translate_of_ok hs] at ht
  rw [List.forall₂_eq_eq_eq] at heq
  exact ⟨rs, s', t', hs, heq ▸ ht, hR⟩

theorem runAll_match {step : Step σ ι ρ ε} {step' : Step τ ι ρ ε} {ok : τ → ι → Prop} {R : σ → τ → Prop}
    (hstep : ∀ s t i, R s t → ok t i → (∃ e, step s i = .error e ∧ step' t i = .error e) ∨
      ∃ r s' t', step s i = .ok (r, s') ∧ step' t i = .ok (r, t') ∧ R s' t')
    {s : σ} {t : τ} {is : List ι} (h : R s t) (hok : Allowed step' ok t is) :
    (∃ e, runAll step s is = .error e ∧ runAll step' t is = .error e) ∨
      ∃ rs s' t', runAll step s is = .ok (rs, s') ∧ runAll step' t is = .ok (rs, t') ∧ R s' t' := by
  induction is generalizing s t with
  | nil => exact Or.inr ⟨[], s, t, rfl, rfl, h⟩
  | cons i is ih =>
    obtain ⟨hi, hrest⟩ := hok
    simp only [runAll]
    rcases hstep s t i h hi with ⟨e, hs, ht⟩ | ⟨r, s', t', hs, ht, hR⟩
    · left
      refine ⟨e, ?_, ?_⟩
      · rw [hs]
        rfl
      · rw [ht]
        rfl
    · rcases ih hR (hrest r t' ht) with ⟨e, hrs, hrt⟩ | ⟨rs, s'', t'', hrs, hrt, hR'⟩
      · left
        refine ⟨e, ?_, ?_⟩
        · simp only [hs, hrs, bind, Except.bind]
        · simp only [ht, hrt, bind, Except.bind]
      · right
        refine ⟨r :: rs, s'', t'', ?_, ?_, hR'⟩
        · simp only [hs, hrs, bind, Except.bind]
          rfl
        · simp only [ht, hrt, bind, Except.bind]
          rfl

end Machine
