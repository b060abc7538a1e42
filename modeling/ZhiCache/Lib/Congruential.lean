import Mathlib.Algebra.Field.ZMod
import Mathlib.GroupTheory.OrderOfElement
import Mathlib.Order.Interval.Finset.Nat

/-!
# `Lib.Congruential` — multiplicative congruential sequences

A generator that keeps a number below a prime `m` and replaces it by its product with a fixed multiplier
`a` modulo `m`. Nothing here knows how the product and the remainder are computed.

## Contents
- **The sequence.** `step m a`, and the `n`-th number in closed form.
- **Staying off zero.** For a prime modulus that does not divide the multiplier the numbers `1 … m - 1` are
  kept (`step_mem`).
- **Full cycle.** When the multiplier has order `m - 1` modulo `m`, the sequence from any of these numbers
  meets each of them exactly once in `m - 1` steps (`existsUnique_iterate_step`) and then starts again
  (`iterate_step_period`).
-/

namespace Lib.Congruential

variable {m a s x : ℕ}

/-- One step of the sequence. -/
def step (m a s : ℕ) : ℕ := s * a % m

theorem iterate_step (hs : s < m) (n : ℕ) : (step m a)^[n] s = s * a ^ n % m := by
  induction n with
  | zero => rw [Function.iterate_zero, id, pow_zero, mul_one, Nat.mod_eq_of_lt hs]
  | succ n ih =>
      rw [Function.iterate_succ_apply', ih, step, Nat.mod_mul_mod, pow_succ, mul_assoc]

/-! ## Staying off zero -/

theorem step_mem (hm : m.Prime) (ha : ¬ m ∣ a) (hs : s ∈ Finset.Ioo 0 m) :
    step m a s ∈ Finset.Ioo 0 m := by
  obtain ⟨hpos, hlt⟩ := Finset.mem_Ioo.mp hs
  have hs' : ¬ m ∣ s := Nat.not_dvd_of_pos_of_lt hpos hlt
  have hmul : ¬ m ∣ s * a := hm.not_dvd_mul hs' ha
  apply Finset.mem_Ioo.mpr
  exact ⟨Nat.pos_of_ne_zero fun h => hmul (Nat.dvd_of_mod_eq_zero h), Nat.mod_lt _ hm.pos⟩

theorem iterate_step_mem (hm : m.Prime) (ha : ¬ m ∣ a) (hs : s ∈ Finset.Ioo 0 m) (n : ℕ) :
    (step m a)^[n] s ∈ Finset.Ioo 0 m := by
  induction n with
  | zero => exact hs
  | succ n ih =>
      rw [Function.iterate_succ_apply']
      exact step_mem hm ha ih

/-! ## Full cycle -/

/-- A multiplier of order `m - 1` is not a multiple of the modulus. -/
theorem not_dvd_of_orderOf (hm : m.Prime) (horder : orderOf (a : ZMod m) = m - 1) : ¬ m ∣ a := by
  have : Fact m.Prime := ⟨hm⟩
  intro hdvd
  have hzero : (a : ZMod m) = 0 := (ZMod.natCast_eq_zero_iff a m).mpr hdvd
  have hone : (a : ZMod m) ^ (m - 1) = 1 := horder ▸ pow_orderOf_eq_one (a : ZMod m)
  rw [hzero, zero_pow (Nat.sub_ne_zero_of_lt hm.one_lt)] at hone
  exact zero_ne_one hone

/-- **The sequence starts again** after `m - 1` steps. -/
theorem iterate_step_period (horder : orderOf (a : ZMod m) = m - 1) (hs : s < m) :
    (step m a)^[m - 1] s = s := by
  have hone : (a : ZMod m) ^ (m - 1) = 1 := horder ▸ pow_orderOf_eq_one (a : ZMod m)
  have hcast : ((s * a ^ (m - 1) : ℕ) : ZMod m) = (s : ℕ) := by
    rw [Nat.cast_mul, Nat.cast_pow, hone, mul_one]
  rw [iterate_step hs, (ZMod.natCast_eq_natCast_iff' _ _ _).mp hcast, Nat.mod_eq_of_lt hs]

/-- Fewer than `m - 1` steps do not lead to the same number twice. -/
theorem iterate_step_injOn (hm : m.Prime) (horder : orderOf (a : ZMod m) = m - 1)
    (hs : s ∈ Finset.Ioo 0 m) : Set.InjOn (fun n => (step m a)^[n] s) (Finset.range (m - 1)) := by
  have : Fact m.Prime := ⟨hm⟩
  obtain ⟨hpos, hlt⟩ := Finset.mem_Ioo.mp hs
  intro i hi j hj heq
  have hs' : (s : ZMod m) ≠ 0 := fun h =>
    Nat.not_dvd_of_pos_of_lt hpos hlt ((ZMod.natCast_eq_zero_iff s m).mp h)
  have hmod : s * a ^ i % m = s * a ^ j % m := by
    rw [← iterate_step hlt i, ← iterate_step hlt j]
    exact heq
  have hcast : (s : ZMod m) * (a : ZMod m) ^ i = s * (a : ZMod m) ^ j := by
    have h := (ZMod.natCast_eq_natCast_iff' _ _ _).mpr hmod
    rwa [Nat.cast_mul, Nat.cast_mul, Nat.cast_pow, Nat.cast_pow] at h
  have hpow : (a : ZMod m) ^ i = (a : ZMod m) ^ j := mul_left_cancel₀ hs' hcast
  apply pow_injOn_Iio_orderOf (x := (a : ZMod m)) _ _ hpow
  · rw [Set.mem_Iio, horder]
    exact Finset.mem_range.mp hi
  · rw [Set.mem_Iio, horder]
    exact Finset.mem_range.mp hj

/-- **Every number is met exactly once** in `m - 1` steps, from any start. -/
theorem existsUnique_iterate_step (hm : m.Prime) (horder : orderOf (a : ZMod m) = m - 1)
    (hs : s ∈ Finset.Ioo 0 m) (hx : x ∈ Finset.Ioo 0 m) :
    ∃! n, n < m - 1 ∧ (step m a)^[n] s = x := by
  have hinj := iterate_step_injOn hm horder hs
  have hmaps : Set.MapsTo (fun n => (step m a)^[n] s) (Finset.range (m - 1)) (Finset.Ioo 0 m) :=
    fun n _ => iterate_step_mem hm (not_dvd_of_orderOf hm horder) hs n
  -- As many steps as there are numbers, and no number twice.
  have hcard : (Finset.Ioo 0 m).card ≤ (Finset.range (m - 1)).card := by
    rw [Nat.card_Ioo, Finset.card_range]
    omega
  obtain ⟨n, hn, hnx⟩ := Finset.surjOn_of_injOn_of_card_le _ hmaps hinj hcard hx
  refine ⟨n, ⟨Finset.mem_range.mp hn, hnx⟩, ?_⟩
  rintro k ⟨hk, hkx⟩
  exact hinj (Finset.mem_coe.mpr (Finset.mem_range.mpr hk)) hn (hkx.trans hnx.symm)

end Lib.Congruential
