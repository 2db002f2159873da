import ReplayWindow.Ring.Basic
import Mathlib.Data.Nat.Bitwise

/-!
The arithmetic of the ring, read in natural numbers. Masking a block number is
a remainder by the capacity, and a bit test is a binary digit. The capacity is
the least power of two that a window can reach into, so a window never meets
itself in the ring: a cell and the block that owns its slot determine a counter.
-/

namespace ReplayWindow.Ring

theorem succ_toNat {n : UInt64} (hn : n.toNat + 1 < 2 ^ 64) : (n + 1).toNat = n.toNat + 1 := by
  rw [UInt64.toNat_add]
  exact Nat.mod_eq_of_lt hn

theorem blockOf_toNat (c : Counter) : (blockOf c).toNat = c.toNat / 64 := by
  unfold blockOf
  rw [UInt64.toNat_shiftRight, Nat.shiftRight_eq_div_pow]
  rfl

theorem bitOf_toNat (c : Counter) : (bitOf c).toNat = 2 ^ (c.toNat % 64) := by
  have hlow : (c &&& 63).toNat = c.toNat % 64 := by
    rw [UInt64.toNat_and]
    exact Nat.and_two_pow_sub_one_eq_mod c.toNat 6
  have hbit : c.toNat % 64 < 64 := Nat.mod_lt _ (by decide)
  have hpow : 2 ^ (c.toNat % 64) < 2 ^ 64 := Nat.pow_lt_pow_right (by decide) hbit
  unfold bitOf
  rw [UInt64.toNat_shiftLeft, hlow, Nat.mod_eq_of_lt hbit, Nat.shiftLeft_eq,
    UInt64.toNat_one, Nat.one_mul, Nat.mod_eq_of_lt hpow]

/-- A bit test reads the binary digit at the counter's place in its block. -/
theorem and_bitOf (word : UInt64) (c : Counter) :
    (word &&& bitOf c != 0) = word.toNat.testBit (c.toNat % 64) := by
  have hand : (word &&& bitOf c).toNat =
      (word.toNat.testBit (c.toNat % 64)).toNat * 2 ^ (c.toNat % 64) := by
    rw [UInt64.toNat_and, bitOf_toNat, Nat.and_two_pow]
  have hzero : word &&& bitOf c = 0 ↔ (word &&& bitOf c).toNat = 0 := by
    rw [← UInt64.toNat_inj]
    rfl
  cases hbit : word.toNat.testBit (c.toNat % 64) with
  | false =>
    simp only [hbit, Bool.toNat_false, Nat.zero_mul] at hand
    simp [hzero.mpr hand]
  | true =>
    have hpos := Nat.two_pow_pos (c.toNat % 64)
    simp only [hbit, Bool.toNat_true, Nat.one_mul] at hand
    have hne : word &&& bitOf c ≠ 0 := by
      intro h
      have := hzero.mp h
      omega
    simpa using hne

theorem or_bitOf_testBit (word : UInt64) (c : Counter) (p : ℕ) :
    (word ||| bitOf c).toNat.testBit p =
      (word.toNat.testBit p || decide (c.toNat % 64 = p)) := by
  rw [UInt64.toNat_or, Nat.testBit_or, bitOf_toNat, Nat.testBit_two_pow]

theorem blocksNeeded_toNat (width : UInt64) :
    (blocksNeeded width).toNat = (width.toNat + 63) / 64 + 1 := by
  have hw := width.toNat_lt
  have hz : width % 64 = 0 ↔ width.toNat % 64 = 0 := by
    rw [← UInt64.toNat_inj, UInt64.toNat_mod]
    rfl
  unfold blocksNeeded
  rw [UInt64.toNat_add, UInt64.toNat_add, UInt64.toNat_div]
  by_cases h : width % 64 = 0
  · have hmod := hz.mp h
    simp [h]
    omega
  · have hmod := mt hz.mpr h
    simp [h]
    omega

/-- The computed power of two is the least one that is not below `n`. -/
theorem powerAtLeast_least (n : UInt64) (hpos : 1 ≤ n.toNat) (hle : n.toNat ≤ 2 ^ 63) :
    ∃ k, (powerAtLeast n).toNat = 2 ^ k ∧ n.toNat ≤ 2 ^ k ∧
      ∀ j, n.toNat ≤ 2 ^ j → k ≤ j := by
  by_cases h1 : n ≤ 1
  · refine ⟨0, by simp [powerAtLeast, h1], ?_, fun j _ => Nat.zero_le j⟩
    simpa [UInt64.le_iff_toNat_le] using h1
  · have hlt : 1 < n.toNat := by simpa [UInt64.le_iff_toNat_le] using h1
    have hsub : (n - 1).toNat = n.toNat - 1 := by
      apply UInt64.toNat_sub_of_le
      rw [UInt64.le_iff_toNat_le]
      exact hpos
    have hlog : (n.toNat - 1).log2 < 63 := (Nat.log2_lt (by omega)).mpr (by omega)
    have hexp : ((n - 1).log2 + 1).toNat = (n.toNat - 1).log2 + 1 := by
      have hlog2 : (n - 1).log2.toNat = (n.toNat - 1).log2 := by
        rw [← hsub]
        rfl
      rw [succ_toNat (by omega), hlog2]
    have hmod : ((n.toNat - 1).log2 + 1) % 64 = (n.toNat - 1).log2 + 1 :=
      Nat.mod_eq_of_lt (by omega)
    have hpow : 2 ^ ((n.toNat - 1).log2 + 1) < 2 ^ 64 :=
      Nat.pow_lt_pow_right (by decide) (by omega)
    refine ⟨(n.toNat - 1).log2 + 1, ?_, ?_, ?_⟩
    · unfold powerAtLeast
      rw [if_neg h1, UInt64.toNat_shiftLeft, hexp, hmod, Nat.shiftLeft_eq,
        UInt64.toNat_one, Nat.one_mul, Nat.mod_eq_of_lt hpow]
    · have := Nat.lt_log2_self (n := n.toNat - 1)
      omega
    · intro j hj
      have hself := Nat.log2_self_le (n := n.toNat - 1) (by omega)
      have hltj : 2 ^ (n.toNat - 1).log2 < 2 ^ j := by omega
      exact (Nat.pow_lt_pow_iff_right (by decide)).mp hltj

/-- A ring of any width has a power of two of slots, and the blocks that a
window can reach into fit in. -/
theorem capacityFor_two_pow (width : UInt64) :
    ∃ k ≤ 59, (capacityFor width).toNat = 2 ^ k ∧ (width.toNat + 63) / 64 + 1 ≤ 2 ^ k := by
  have hw := width.toNat_lt
  have hneed := blocksNeeded_toNat width
  obtain ⟨k, hk, hle, hleast⟩ :=
    powerAtLeast_least (blocksNeeded width) (by omega) (by omega)
  exact ⟨k, hleast 59 (by omega), hk, by omega⟩

theorem capacityFor_pos (width : UInt64) : 0 < (capacityFor width).toNat := by
  obtain ⟨k, _, hk, _⟩ := capacityFor_two_pow width
  have := Nat.two_pow_pos k
  omega

/-- The mask takes the remainder of a block number by the capacity. -/
theorem masked_toNat (width block : UInt64) :
    (block &&& (capacityFor width - 1)).toNat =
      block.toNat % (capacityFor width).toNat := by
  obtain ⟨k, _, hk, _⟩ := capacityFor_two_pow width
  have hpos := capacityFor_pos width
  have hsub : (capacityFor width - 1).toNat = 2 ^ k - 1 := by
    rw [UInt64.toNat_sub_of_le]
    · rw [hk]
      rfl
    · rw [UInt64.le_iff_toNat_le]
      exact hpos
  rw [UInt64.toNat_and, hsub, Nat.and_two_pow_sub_one_eq_mod, hk]

/-- The block of a counter that the window still covers is among the last
`capacity` blocks. -/
theorem block_retained (width : UInt64) (last c : ℕ) (hle : c ≤ last)
    (hin : last - c < width.toNat) : last / 64 < c / 64 + (capacityFor width).toNat := by
  obtain ⟨k, _, hk, hroom⟩ := capacityFor_two_pow width
  omega

/-- Two numbers less than `m` apart with the same remainder by `m` are equal. -/
theorem eq_of_mod_eq_of_near {a b m : ℕ} (hmod : a % m = b % m) (hab : a < b + m)
    (hba : b < a + m) : a = b := by
  rcases Nat.le_total a b with hle | hle
  · have hdvd : m ∣ b - a := Nat.dvd_of_mod_eq_zero (Nat.sub_mod_eq_zero_of_mod_eq hmod.symm)
    have := Nat.eq_zero_of_dvd_of_lt hdvd (by omega)
    omega
  · have hdvd : m ∣ a - b := Nat.dvd_of_mod_eq_zero (Nat.sub_mod_eq_zero_of_mod_eq hmod)
    have := Nat.eq_zero_of_dvd_of_lt hdvd (by omega)
    omega

end ReplayWindow.Ring
