import ReplayWindow.Proofs.Ring.Contents

/-!
The operations of a ring in terms of the recorded counters. A counter is ahead of
the front, or behind the window, or inside it, and each operation does one thing
in each of the three places. Offering never asks whether the counter is
acceptable, and yet answers just that; a refused counter leaves every bit alone.
-/

namespace ReplayWindow

namespace Ring

variable {r : Ring} {recorded : Finset Counter}

/-- The window covers the counter: it is not ahead, and less than the width behind. -/
def Covers (r : Ring) (c : Counter) : Prop :=
  c.toNat ≤ r.last.toNat ∧ r.last.toNat - c.toNat < r.width.toNat

theorem isExpired_iff (r : Ring) (c : Counter) :
    r.isExpired c = true ↔
      c.toNat ≤ r.last.toNat ∧ r.width.toNat ≤ r.last.toNat - c.toNat :=
  Counter.isBehind_iff r.width r.last c

theorem ahead_or_expired_or_covers (r : Ring) (c : Counter) :
    r.last < c ∨ r.isExpired c = true ∨ r.Covers c := by
  rw [isExpired_iff, UInt64.lt_iff_toNat_lt]
  unfold Covers
  omega

/-- Each operation asks first whether the counter is ahead and then whether it is
behind the window; these are the answers in each of the three places. -/
theorem guards_of_expired {c : Counter} (hc : r.isExpired c = true) :
    ¬ r.last < c ∧ r.width ≤ r.last - c := by
  unfold isExpired Counter.isBehind at hc
  rw [Bool.and_eq_true, decide_eq_true_eq, decide_eq_true_eq] at hc
  exact ⟨UInt64.not_lt.mpr hc.1, hc.2⟩

theorem guards_of_covers {c : Counter} (hc : r.Covers c) :
    ¬ r.last < c ∧ ¬ r.width ≤ r.last - c := by
  have hahead : ¬ r.last < c := UInt64.not_lt.mpr (UInt64.le_iff_toNat_le.mpr hc.1)
  refine ⟨hahead, ?_⟩
  rw [UInt64.le_iff_toNat_le, (Counter.sub_toNat hahead).2]
  exact Nat.not_le.mpr hc.2

section Record

theorem record_ahead {c : Counter} (hc : r.last < c) : r.record c = (r.slideTo c).mark c := by
  simp only [record, hc, ↓reduceIte]

theorem record_expired {c : Counter} (hc : r.isExpired c = true) : r.record c = r := by
  obtain ⟨hahead, hbehind⟩ := guards_of_expired hc
  simp only [record, hahead, hbehind, ↓reduceIte]

theorem record_covered {c : Counter} (hc : r.Covers c) : r.record c = r.mark c := by
  obtain ⟨hahead, hbehind⟩ := guards_of_covers hc
  simp only [record, hahead, hbehind, ↓reduceIte]

/-- Recording adds the counter to what the ring holds, unless it is behind the window. -/
theorem Holds.record (h : r.Holds recorded) (c : Counter) :
    (r.record c).Holds (if r.isExpired c = true then recorded else insert c recorded) := by
  rcases r.ahead_or_expired_or_covers c with hahead | hexpired | hcovers
  · have hnot : ¬ r.isExpired c = true := by
      intro hexpired
      exact (guards_of_expired hexpired).1 hahead
    rw [record_ahead hahead, if_neg hnot]
    exact h.mark_ahead hahead
  · rw [record_expired hexpired, if_pos hexpired]
    exact h
  · have hnot : ¬ r.isExpired c = true := by
      intro hexpired
      exact (guards_of_covers hcovers).2 (guards_of_expired hexpired).2
    rw [record_covered hcovers, if_neg hnot]
    exact h.mark_within hcovers.1 hcovers.2

theorem record_width (r : Ring) (c : Counter) : (r.record c).width = r.width := by
  unfold record
  split
  · exact slideTo_width r c
  · split <;> rfl

end Record

section Acceptance

theorem accepts_ahead {c : Counter} (hc : r.last < c) : r.accepts c = true := by
  simp only [accepts, hc, ↓reduceIte]

theorem accepts_expired {c : Counter} (hc : r.isExpired c = true) : r.accepts c = false := by
  obtain ⟨hahead, hbehind⟩ := guards_of_expired hc
  simp only [accepts, hahead, hbehind, ↓reduceIte]

theorem accepts_covered {c : Counter} (hc : r.Covers c) : r.accepts c = !r.isMarked c := by
  obtain ⟨hahead, hbehind⟩ := guards_of_covers hc
  simp only [accepts, hahead, hbehind, ↓reduceIte]

theorem Holds.isMarked_of_covers (h : r.Holds recorded) {c : Counter} (hc : r.Covers c) :
    r.isMarked c = true ↔ c ∈ recorded :=
  h.depicts.isMarked_iff h.fits.masked (fun _ hd => h.front.le hd) hc.1
    (h.fits.retains hc.1 hc.2)

/-- A counter is acceptable if it is ahead, or inside the window and not recorded. -/
theorem Holds.accepts_iff (h : r.Holds recorded) (c : Counter) :
    r.accepts c = true ↔
      r.last < c ∨ (r.last.toNat - c.toNat < r.width.toNat ∧ c ∉ recorded) := by
  rcases r.ahead_or_expired_or_covers c with hahead | hexpired | hcovers
  · simp [accepts_ahead hahead, hahead]
  · have hnot := (guards_of_expired hexpired).1
    obtain ⟨_, hout⟩ := (isExpired_iff r c).mp hexpired
    have hfar : ¬ r.last.toNat - c.toNat < r.width.toNat := by omega
    simp [accepts_expired hexpired, hnot, hfar]
  · have hnot := (guards_of_covers hcovers).1
    have hmarked := h.isMarked_of_covers hcovers
    rw [accepts_covered hcovers, Bool.not_eq_true', Bool.eq_false_iff, Ne, hmarked]
    simp [hnot, hcovers.2]

end Acceptance

section Offer

theorem offer_snd (r : Ring) (c : Counter) : (r.offer c).2 = r.record c := by
  unfold offer record
  split
  · rfl
  · split <;> rfl

/-- The bit that an offer finds tells whether the counter was acceptable. -/
theorem Holds.offer_fst (h : r.Holds recorded) (c : Counter) :
    (r.offer c).1 = r.accepts c := by
  unfold offer accepts
  split
  · next hahead =>
    simp only [claim, h.slideTo_isMarked hahead, Bool.not_false]
  · split <;> rfl

theorem mark_eq_self (hr : r.Masked) {c : Counter} (hc : r.isMarked c = true) :
    r.mark c = r := by
  have hset : r.word (r.slot c) ||| bitOf c = r.word (r.slot c) := by
    rw [isMarked_eq_cell] at hc
    rw [← UInt64.toNat_inj]
    apply Nat.eq_of_testBit_eq
    intro p
    rw [or_bitOf_testBit]
    by_cases hp : c.toNat % 64 = p
    · subst hp
      have hbit : (r.word (r.slot c)).toNat.testBit (c.toNat % 64) = true := hc
      simp [hbit]
    · simp [hp]
  have hblocks : (r.mark c).blocks = r.blocks := by
    apply eq_of_getD_eq 0 (mark_capacity r c)
    intro j
    show (r.mark c).word j = r.word j
    rw [mark_word r c (hr.slot_lt c) j]
    split
    · next hslot => rw [← hslot, hset]
    · rfl
  show { r with blocks := (r.mark c).blocks } = r
  rw [hblocks]

/-- Recording a counter that is not acceptable changes nothing in the ring. -/
theorem Holds.record_eq_self (h : r.Holds recorded) {c : Counter}
    (hc : r.accepts c = false) : r.record c = r := by
  rcases r.ahead_or_expired_or_covers c with hahead | hexpired | hcovers
  · rw [accepts_ahead hahead] at hc
    exact absurd hc.symm Bool.false_ne_true
  · exact record_expired hexpired
  · rw [accepts_covered hcovers, Bool.not_eq_false'] at hc
    rw [record_covered hcovers]
    exact mark_eq_self h.fits.masked hc

end Offer

end Ring

end ReplayWindow
