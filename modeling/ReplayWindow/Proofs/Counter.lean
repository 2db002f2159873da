import ReplayWindow.Counter
import Mathlib.Data.Finset.Insert
import Mathlib.Order.Bounds.Defs

/-!
Distances between counters, read in natural numbers, and the front of a window.
The front is the highest counter presented, with zero for none. It moves to a
counter ahead of it, and a counter not ahead leaves it in place.
-/

namespace ReplayWindow

namespace Counter

/-- A counter not ahead of `last` lies a distance behind it that does not wrap. -/
theorem sub_toNat {last c : Counter} (hc : ¬ last < c) :
    c.toNat ≤ last.toNat ∧ (last - c).toNat = last.toNat - c.toNat := by
  have hle : c ≤ last := UInt64.not_lt.mp hc
  exact ⟨UInt64.le_iff_toNat_le.mp hle, UInt64.toNat_sub_of_le _ _ hle⟩

theorem isBehind_iff (width : UInt64) (last c : Counter) :
    isBehind width last c = true ↔
      c.toNat ≤ last.toNat ∧ width.toNat ≤ last.toNat - c.toNat := by
  unfold isBehind
  rw [Bool.and_eq_true, decide_eq_true_eq, decide_eq_true_eq, ← UInt64.not_lt]
  constructor
  · intro h
    obtain ⟨hahead, hout⟩ := h
    obtain ⟨hle, hdist⟩ := sub_toNat hahead
    rw [UInt64.le_iff_toNat_le, hdist] at hout
    exact ⟨hle, hout⟩
  · intro h
    obtain ⟨hle, hout⟩ := h
    have hahead : ¬ last < c := by
      rw [UInt64.lt_iff_toNat_lt]
      omega
    refine ⟨hahead, ?_⟩
    rw [UInt64.le_iff_toNat_le, (sub_toNat hahead).2]
    exact hout

end Counter

/-- `last` is the highest of the counters, or zero where there are none. -/
def IsFront (counters : Finset Counter) (last : Counter) : Prop :=
  IsGreatest (insert 0 (counters : Set Counter)) last

namespace IsFront

variable {counters : Finset Counter} {last c : Counter}

theorem empty : IsFront ∅ 0 := by
  constructor
  · exact Set.mem_insert _ _
  · intro c hc
    simp only [Finset.coe_empty, Set.mem_insert_iff, Set.mem_empty_iff_false, or_false] at hc
    rw [hc]
    exact UInt64.le_refl _

theorem le (h : IsFront counters last) (hc : c ∈ counters) : c.toNat ≤ last.toNat := by
  rw [← UInt64.le_iff_toNat_le]
  exact h.2 (Set.mem_insert_of_mem 0 hc)

theorem unique {other : Counter} (h : IsFront counters last) (h' : IsFront counters other) :
    last = other :=
  UInt64.le_antisymm (h'.2 h.1) (h.2 h'.1)

theorem insert_ahead (h : IsFront counters last) (hc : last < c) :
    IsFront (insert c counters) c := by
  have hlt := UInt64.lt_iff_toNat_lt.mp hc
  constructor
  · simp
  · intro d hd
    rw [UInt64.le_iff_toNat_le]
    simp only [Finset.coe_insert, Set.mem_insert_iff, Finset.mem_coe] at hd
    rcases hd with rfl | rfl | hold
    · exact Nat.zero_le _
    · exact Nat.le_refl _
    · have hdl := h.le hold
      omega

theorem insert_behind (h : IsFront counters last) (hc : c.toNat ≤ last.toNat) :
    IsFront (insert c counters) last := by
  constructor
  · rcases h.1 with hzero | hold
    · exact Or.inl hzero
    · exact Or.inr (Finset.mem_insert_of_mem hold)
  · intro d hd
    simp only [Finset.coe_insert, Set.mem_insert_iff, Finset.mem_coe] at hd
    rcases hd with hzero | rfl | hold
    · exact h.2 (Or.inl hzero)
    · exact UInt64.le_iff_toNat_le.mpr hc
    · exact h.2 (Or.inr hold)

end IsFront

end ReplayWindow
