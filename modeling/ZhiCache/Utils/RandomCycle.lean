import ZhiCache.Lib.Congruential
import ZhiCache.Utils.Random
import Mathlib.NumberTheory.LucasPrimality
import Mathlib.Tactic.ReduceModChar

/-!
# `Utils.RandomCycle` — the sequence of words that a generator runs through

`Random::Next` computes the remainder modulo 2^31 - 1 by one shift, one addition and at most one
subtraction, and its comments promise that this is exact and that the generator cycles through every
number from 1 to 2^31 - 2. This module shows that `next` is one step of the congruential sequence with
modulus 2^31 - 1 and multiplier 16807, that the modulus is prime and the multiplier has order 2^31 - 2,
and concludes for whole runs of the generator.
-/

namespace ZhiCache

open Lib

namespace Random

/-! ## Runs of the generator -/

/-- The generator after `n` calls of `Next`. -/
def after (r : Random) : Nat → Random
  | 0 => r
  | n + 1 => (r.after n).next.2

/-- The values of the run: first the seed, then what each call of `Next` returns. -/
def output (r : Random) : Nat → UInt32
  | 0 => r.seed
  | n + 1 => (r.after n).next.1

/-- The local variable `product` of `Next`. -/
def product (r : Random) : UInt64 := r.seed.toUInt64 * 16807

/-- The word that `Next` stores before it compares with 2^31 - 1. -/
def reduced (r : Random) : UInt32 := ((r.product >>> 31) + (r.product &&& 2147483647)).toUInt32

theorem next_eq (r : Random) :
    r.next.2 = ⟨if 2147483647 < r.reduced then r.reduced - 2147483647 else r.reduced⟩ :=
  rfl

theorem fst_next (r : Random) : r.next.1 = r.next.2.seed := rfl

theorem output_eq (r : Random) (n : Nat) : r.output n = (r.after n).seed := by
  cases n with
  | zero => rfl
  | succ n => exact fst_next (r.after n)

theorem after_add (r : Random) (k n : Nat) : r.after (k + n) = (r.after k).after n := by
  induction n with
  | zero => rfl
  | succ n ih => exact congrArg (fun r => (next r).2) ih

theorem after_next (r : Random) (n : Nat) : r.next.2.after n = r.after (n + 1) := by
  rw [Nat.add_comm, after_add]
  rfl

/-! ## The modulus and the multiplier -/

/-- The prime factors of 2^31 - 2. -/
theorem mem_of_prime_dvd {q : Nat} (hq : q.Prime) (h : q ∣ 2147483646) :
    q ∈ [2, 3, 3, 7, 11, 31, 151, 331] := by
  have hfactors : Nat.primeFactorsList 2147483646 = [2, 3, 3, 7, 11, 31, 151, 331] := by
    decide +kernel
  rw [← hfactors]
  exact (Nat.mem_primeFactorsList (by decide)).mpr ⟨hq, h⟩

theorem pow_eq_one : (16807 : ZMod 2147483647) ^ 2147483646 = 1 := by
  reduce_mod_char

/-- No proper divisor of 2^31 - 2 is an exponent that leads to 1. -/
theorem pow_div_ne_one {q : Nat} (hq : q.Prime) (h : q ∣ 2147483646) :
    (16807 : ZMod 2147483647) ^ (2147483646 / q) ≠ 1 := by
  have hmem := mem_of_prime_dvd hq h
  simp only [List.mem_cons, List.not_mem_nil, or_false] at hmem
  rcases hmem with rfl | rfl | rfl | rfl | rfl | rfl | rfl | rfl
  all_goals
    norm_num only
    reduce_mod_char
    decide

theorem prime_modulus : Nat.Prime 2147483647 :=
  lucas_primality 2147483647 16807 pow_eq_one fun _ hq h => pow_div_ne_one hq h

theorem orderOf_multiplier : orderOf ((16807 : Nat) : ZMod 2147483647) = 2147483647 - 1 :=
  orderOf_eq_of_pow_and_pow_div_prime (by decide) pow_eq_one fun _ hq h => pow_div_ne_one hq h

/-! ## One step -/

/-- The words that the comment of `Next` allows: neither 0 nor 2^31 - 1, and less than 2^31. -/
def InRange (r : Random) : Prop := r.seed.toNat ∈ Finset.Ioo 0 2147483647

theorem inRange_iff (r : Random) : r.InRange ↔ 1 ≤ r.seed.toNat ∧ r.seed.toNat ≤ 2 ^ 31 - 2 := by
  unfold InRange
  rw [Finset.mem_Ioo]
  omega

theorem inRange_new (s : UInt32) : (new s).InRange := by
  rw [inRange_iff]
  unfold new
  dsimp only
  have hand : (s &&& 0x7fffffff).toNat = s.toNat % 2 ^ 31 := by
    rw [UInt32.toNat_and]
    exact Nat.and_two_pow_sub_one_eq_mod s.toNat 31
  have hzero : s &&& 0x7fffffff = 0 ↔ s.toNat % 2 ^ 31 = 0 := by
    rw [← hand, ← UInt32.toNat_inj, UInt32.toNat_zero]
  have hmax : s &&& 0x7fffffff = 2147483647 ↔ s.toNat % 2 ^ 31 = 2147483647 := by
    rw [← hand, ← UInt32.toNat_inj]
    rfl
  split
  · exact ⟨Nat.le_refl 1, by decide⟩
  · rename_i hseed
    rw [hzero, hmax, not_or] at hseed
    show 1 ≤ (s &&& 0x7fffffff).toNat ∧ (s &&& 0x7fffffff).toNat ≤ 2 ^ 31 - 2
    rw [hand]
    omega

/-- The product does not leave 64 bits, whatever the word. -/
theorem toNat_product (r : Random) : r.product.toNat = r.seed.toNat * 16807 := by
  have hseed : r.seed.toNat < 2 ^ 32 := r.seed.toNat_lt
  unfold product
  rw [UInt64.toNat_mul, UInt32.toNat_toUInt64]
  exact Nat.mod_eq_of_lt (by change r.seed.toNat * 16807 < 2 ^ 64; omega)

theorem toNat_product_shift (r : Random) : (r.product >>> 31).toNat = r.seed.toNat * 16807 / 2 ^ 31 := by
  rw [UInt64.toNat_shiftRight, toNat_product]
  exact Nat.shiftRight_eq_div_pow _ 31

theorem toNat_product_and (r : Random) :
    (r.product &&& 2147483647).toNat = r.seed.toNat * 16807 % 2 ^ 31 := by
  rw [UInt64.toNat_and, toNat_product]
  exact Nat.and_two_pow_sub_one_eq_mod _ 31

variable {r : Random}

/-- The sum of the high and the low part fits 32 bits. -/
theorem InRange.sum_lt (h : r.InRange) :
    (r.product >>> 31).toNat + (r.product &&& 2147483647).toNat < 2 ^ 32 := by
  rw [inRange_iff] at h
  rw [toNat_product_shift, toNat_product_and]
  omega

theorem InRange.toNat_reduced (h : r.InRange) :
    r.reduced.toNat = (r.product >>> 31).toNat + (r.product &&& 2147483647).toNat := by
  have hsum := h.sum_lt
  unfold reduced
  rw [UInt64.toNat_toUInt32, UInt64.toNat_add]
  omega

/-- The remainder of the product, for the sum of its two parts. -/
theorem mod_eq (P : Nat) : P % 2147483647 = (P / 2 ^ 31 + P % 2 ^ 31) % 2147483647 := by
  omega

/-- **`mod == M` is not possible.** -/
theorem InRange.reduced_ne (h : r.InRange) : r.reduced.toNat ≠ 2147483647 := by
  have hmem := Congruential.step_mem prime_modulus (a := 16807) (by decide) h
  have hpos := (Finset.mem_Ioo.mp hmem).1
  unfold Congruential.step at hpos
  rw [mod_eq, ← toNat_product_shift, ← toNat_product_and, ← h.toNat_reduced] at hpos
  intro heq
  rw [heq] at hpos
  exact absurd hpos (by decide)

/-- **`Next` is one step of the sequence.** -/
theorem InRange.toNat_seed_next (h : r.InRange) :
    r.next.2.seed.toNat = Congruential.step 2147483647 16807 r.seed.toNat := by
  have hne := h.reduced_ne
  have hbound : r.reduced.toNat < 2 * 2147483647 := by
    rw [h.toNat_reduced, toNat_product_shift, toNat_product_and]
    rw [inRange_iff] at h
    omega
  unfold Congruential.step
  rw [mod_eq, ← toNat_product_shift, ← toNat_product_and, ← h.toNat_reduced, next_eq]
  have hlt : 2147483647 < r.reduced ↔ 2147483647 < r.reduced.toNat := UInt32.lt_iff_toNat_lt
  by_cases hover : 2147483647 < r.reduced
  · rw [if_pos hover, UInt32.toNat_sub_of_le _ _ (UInt32.le_of_lt hover)]
    rw [hlt] at hover
    change r.reduced.toNat - 2147483647 = r.reduced.toNat % 2147483647
    omega
  · rw [if_neg hover]
    rw [hlt] at hover
    change r.reduced.toNat = r.reduced.toNat % 2147483647
    omega

theorem InRange.next (h : r.InRange) : r.next.2.InRange := by
  unfold InRange
  rw [h.toNat_seed_next]
  exact Congruential.step_mem prime_modulus (by decide) h

/-! ## Whole runs -/

theorem InRange.after (h : r.InRange) (n : Nat) : (r.after n).InRange := by
  induction n with
  | zero => exact h
  | succ n ih => exact ih.next

/-- **A run of the generator is the sequence** from its word. -/
theorem InRange.toNat_seed_after (h : r.InRange) (n : Nat) :
    (r.after n).seed.toNat = (Congruential.step 2147483647 16807)^[n] r.seed.toNat := by
  induction n with
  | zero => rfl
  | succ n ih =>
      rw [Function.iterate_succ_apply', ← ih]
      exact (h.after n).toNat_seed_next

theorem InRange.after_period (h : r.InRange) : r.after (2 ^ 31 - 2) = r := by
  have hseed : (r.after (2 ^ 31 - 2)).seed.toNat = r.seed.toNat := by
    rw [h.toNat_seed_after]
    exact Congruential.iterate_step_period orderOf_multiplier (Finset.mem_Ioo.mp h).2
  cases r with
  | mk seed => exact congrArg mk (UInt32.toNat_inj.mp hseed)

theorem InRange.existsUnique_after (h : r.InRange) {x : Nat} (hlow : 1 ≤ x) (hhigh : x ≤ 2 ^ 31 - 2) :
    ∃! n, n < 2 ^ 31 - 2 ∧ (r.after n).seed.toNat = x := by
  have hx : x ∈ Finset.Ioo 0 2147483647 := by
    rw [Finset.mem_Ioo]
    omega
  simp only [h.toNat_seed_after]
  exact Congruential.existsUnique_iterate_step prime_modulus orderOf_multiplier h hx

/-- **The generator's sequence.** From every constructor argument: the `n`-th value is the adjusted seed
    times 16807^n modulo 2^31 - 1; the word stays between 1 and 2^31 - 2; in each call the product fits 64
    bits, the sum of its parts fits 32 bits and is not 2^31 - 1, and neither is the value returned; and from
    every point of the run on, each number from 1 to 2^31 - 2 is the word exactly once before the run
    repeats. -/
theorem new_output_cycle (s : UInt32) :
    (∀ n, ((new s).output n).toNat = (new s).seed.toNat * 16807 ^ n % (2 ^ 31 - 1)) ∧
    (∀ n, 1 ≤ ((new s).after n).seed.toNat ∧ ((new s).after n).seed.toNat ≤ 2 ^ 31 - 2) ∧
    (∀ n, ((new s).after n).product.toNat = ((new s).after n).seed.toNat * 16807 ∧
      (((new s).after n).product >>> 31).toNat + (((new s).after n).product &&& 2147483647).toNat < 2 ^ 32 ∧
      ((new s).after n).reduced.toNat ≠ 2 ^ 31 - 1 ∧
      ((new s).after n).next.1.toNat ≠ 2 ^ 31 - 1) ∧
    (∀ k x, 1 ≤ x → x ≤ 2 ^ 31 - 2 →
      ∃! n, n < 2 ^ 31 - 2 ∧ ((new s).after (k + n)).seed.toNat = x) ∧
    ∀ k, (new s).after (k + (2 ^ 31 - 2)) = (new s).after k := by
  have hall : ∀ n, ((new s).after n).InRange := (inRange_new s).after
  refine ⟨?_, ?_, ?_, ?_, ?_⟩
  · intro n
    rw [output_eq, (inRange_new s).toNat_seed_after]
    exact Congruential.iterate_step (Finset.mem_Ioo.mp (inRange_new s)).2 n
  · intro n
    exact (inRange_iff _).mp (hall n)
  · intro n
    have hnext := (inRange_iff _).mp (hall n).next
    refine ⟨toNat_product _, (hall n).sum_lt, (hall n).reduced_ne, ?_⟩
    rw [fst_next]
    omega
  · intro k x hlow hhigh
    simp only [after_add]
    exact (hall k).existsUnique_after hlow hhigh
  · intro k
    rw [after_add]
    exact (hall k).after_period

end Random

end ZhiCache
