import Llmes.Lib.Mixing

namespace Llmes.Bench

structure SplitMix64 where
  state : UInt64
  deriving DecidableEq

namespace SplitMix64

def kGamma : UInt64 := 0x9e3779b97f4a7c15

def mix (z : UInt64) : UInt64 :=
  let z := (z ^^^ (z >>> 30)) * 0xbf58476d1ce4e5b9
  let z := (z ^^^ (z >>> 27)) * 0x94d049bb133111eb
  z ^^^ (z >>> 31)

def next (r : SplitMix64) : UInt64 × SplitMix64 :=
  let state := r.state + kGamma
  (mix state, ⟨state⟩)

def after (r : SplitMix64) : ℕ → SplitMix64
  | 0 => r
  | n + 1 => (r.after n).next.2

def stream (r : SplitMix64) : Stream' UInt64 := fun n => (r.after n).next.1

theorem xorShift_injective {k : UInt64} (hk : 0 < k.toNat % 64) : Function.Injective (fun z : UInt64 => z ^^^ (z >>> k)) := by
  intro x y h
  have h' := congrArg UInt64.toBitVec h
  simp only [UInt64.toBitVec_xor, UInt64.toBitVec_shiftRight, BitVec.ushiftRight_eq'] at h'
  exact UInt64.toBitVec_inj.mp (Mixing.xorShift_injective hk h')

theorem mul_injective {a b : UInt64} (h : a * b = 1) : Function.Injective (fun z : UInt64 => z * a) := by
  intro x y hxy
  have hxy' := congrArg UInt64.toBitVec hxy
  have h' := congrArg UInt64.toBitVec h
  simp only [UInt64.toBitVec_mul] at hxy' h'
  exact UInt64.toBitVec_inj.mp (Mixing.mul_injective h' hxy')

theorem mix_bijective : Function.Bijective mix := by
  apply Function.Injective.bijective_of_finite
  have hfirst := (mul_injective (a := 0xbf58476d1ce4e5b9) (b := 0x96de1b173f119089) (by decide)).comp
    (xorShift_injective (k := 30) (by decide))
  have hsecond := (mul_injective (a := 0x94d049bb133111eb) (b := 0x319642b2d24d8ec3) (by decide)).comp
    (xorShift_injective (k := 27) (by decide))
  exact (xorShift_injective (k := 31) (by decide)).comp (hsecond.comp hfirst)

theorem existsUnique_step (s t : UInt64) : ∃! k, k < 2 ^ 64 ∧ s + UInt64.ofNat k * kGamma = t := by
  have hunit : kGamma.toBitVec * (0xf1de83e19937733d : UInt64).toBitVec = 1#64 := by decide
  obtain ⟨k, ⟨hk, heq⟩, huniq⟩ := Mixing.existsUnique_step hunit s.toBitVec t.toBitVec
  refine ⟨k, ⟨hk, UInt64.toBitVec_inj.mp heq⟩, fun j hj => huniq j ⟨hj.1, congrArg UInt64.toBitVec hj.2⟩⟩

theorem after_state (r : SplitMix64) (n : ℕ) : (r.after n).state = r.state + UInt64.ofNat n * kGamma := by
  induction n with
  | zero => exact (by grind : r.state = r.state + 0 * kGamma)
  | succ n ih =>
    change (r.after n).state + kGamma = _
    rw [ih, UInt64.ofNat_add]
    grind

theorem stream_eq (r : SplitMix64) (n : ℕ) : r.stream n = mix (r.state + UInt64.ofNat (n + 1) * kGamma) := by
  rw [← after_state]
  rfl

theorem stream_add (r : SplitMix64) (n k : ℕ) :
    r.stream (n + k) = mix (r.state + UInt64.ofNat (n + 1) * kGamma + UInt64.ofNat k * kGamma) := by
  rw [stream_eq, Nat.add_right_comm, UInt64.ofNat_add]
  apply congrArg mix
  grind

/-- From any draw on, the next `2 ^ 64` draws are all the words, once each; then they repeat. Any two generators
draw the same sequence, from different places of it. -/
theorem stream_cycle (r : SplitMix64) :
    (∀ n, r.stream (n + 2 ^ 64) = r.stream n) ∧ (∀ n w, ∃! k, k < 2 ^ 64 ∧ r.stream (n + k) = w) ∧
      ∀ r' : SplitMix64, ∃! k, k < 2 ^ 64 ∧ ∀ n, r'.stream n = r.stream (n + k) := by
  refine ⟨fun n => ?_, fun n w => ?_, fun r' => ?_⟩
  · rw [stream_add, stream_eq]
    apply congrArg mix
    rw [show UInt64.ofNat (2 ^ 64) = 0 by decide]
    grind
  · obtain ⟨t, rfl⟩ := mix_bijective.surjective w
    obtain ⟨k, ⟨hk, heq⟩, huniq⟩ := existsUnique_step (r.state + UInt64.ofNat (n + 1) * kGamma) t
    refine ⟨k, ⟨hk, by rw [stream_add, heq]⟩, fun j hj => huniq j ⟨hj.1, mix_bijective.injective ?_⟩⟩
    rw [← stream_add]
    exact hj.2
  · obtain ⟨k, ⟨hk, heq⟩, huniq⟩ := existsUnique_step r.state r'.state
    refine ⟨k, ⟨hk, fun n => ?_⟩, fun j hj => huniq j ⟨hj.1, ?_⟩⟩
    · rw [stream_add, stream_eq, ← heq]
      apply congrArg mix
      grind
    · have hfirst := hj.2 0
      rw [stream_add, stream_eq] at hfirst
      have hstate := mix_bijective.injective hfirst
      grind

end SplitMix64

end Llmes.Bench
