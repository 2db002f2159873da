import ReplayWindow.Proofs.Ring.History

/-!
Every bit of a ring, also those that no answer reads. A slot is owned by one block, the
latest of those kept in it that the front has come to, and its bits are just the
recorded counters of that block. A slot that no block owns yet is zero. This holds
after late records, after moves inside a block, across blocks and past the whole ring.
-/

namespace ReplayWindow.Ring

open Window (Command run step)

section Recorded

/-- The counter is ahead of the front, or less than the width behind it. -/
def InReach (r : Ring) (c : Counter) : Prop :=
  r.last < c ∨ r.last.toNat - c.toNat < r.width.toNat

instance (r : Ring) (c : Counter) : Decidable (r.InReach c) :=
  inferInstanceAs (Decidable (_ ∨ _))

/-- The recorded counters after one more command. A counter that is out of reach when it
is presented is not recorded. -/
def recordedAfter (r : Ring) (recorded : Finset Counter) : Command → Finset Counter
  | .offer c => if r.InReach c then insert c recorded else recorded
  | .record c => if r.InReach c then insert c recorded else recorded
  | .reset => ∅
  | .accepts _ => recorded
  | .last => recorded
  | .width => recorded

def recordedFrom (r : Ring) (recorded : Finset Counter) : List Command → Finset Counter
  | [] => recorded
  | command :: rest => recordedFrom (step r command).2 (r.recordedAfter recorded command) rest

/-- What a new ring of the width has recorded since its last reset. -/
def recordedBy (width : UInt64) (commands : List Command) : Finset Counter :=
  recordedFrom (ofWidth width) ∅ commands

variable {r : Ring} {recorded : Finset Counter}

theorem inReach_iff (r : Ring) (c : Counter) : r.InReach c ↔ ¬ r.isExpired c = true := by
  rw [isExpired_iff]
  unfold InReach
  rw [UInt64.lt_iff_toNat_lt]
  omega

theorem Holds.record_inReach (h : r.Holds recorded) (c : Counter) :
    (r.record c).Holds (if r.InReach c then insert c recorded else recorded) := by
  have hrecord := h.record c
  by_cases hexpired : r.isExpired c = true
  · have hout : ¬ r.InReach c := fun hin => (inReach_iff r c).mp hin hexpired
    rw [if_pos hexpired] at hrecord
    rwa [if_neg hout]
  · have hin : r.InReach c := (inReach_iff r c).mpr hexpired
    rw [if_neg hexpired] at hrecord
    rwa [if_pos hin]

theorem Holds.step (h : r.Holds recorded) (command : Command) :
    (step r command).2.Holds (r.recordedAfter recorded command) := by
  cases command with
  | accepts c => exact h
  | offer c =>
    have hoffer : (Window.step r (.offer c)).2 = r.record c := offer_snd r c
    rw [hoffer]
    exact h.record_inReach c
  | record c => exact h.record_inReach c
  | reset => exact h.reset
  | last => exact h
  | width => exact h

theorem Holds.run (h : r.Holds recorded) (commands : List Command) :
    (run r commands).2.Holds (r.recordedFrom recorded commands) := by
  induction commands generalizing r recorded with
  | nil => exact h
  | cons command rest ih => exact ih (h.step command)

end Recorded

section Slots

/-- Block `b` is the one that slot `j` is kept for: it is among the last `capacity`
blocks up to the front's block. -/
structure Owns (r : Ring) (b j : ℕ) : Prop where
  reached : b ≤ r.last.toNat / 64
  kept : r.last.toNat / 64 < b + r.capacity
  slot_eq : b % r.capacity = j

/-- The size of a ring of the width, and what each bit of each slot stands for. -/
structure Layout (width : UInt64) (r : Ring) (recorded : Finset Counter) : Prop where
  capacity_eq : r.capacity = (ofWidth width).capacity
  mask_eq : r.capacity = r.slotMask.toNat + 1
  two_pow : ∃ k, r.capacity = 2 ^ k
  room : (width.toNat + 63) / 64 + 1 ≤ r.capacity
  owned : ∀ b j p, r.Owns b j → p < 64 →
    (r.cell j p = true ↔ ∃ c ∈ recorded, c.toNat = 64 * b + p)
  unowned : ∀ j < r.capacity, (∀ b, ¬ r.Owns b j) → r.word j = 0
  not_ahead : ∀ b j p, r.Owns b j → p < 64 → r.cell j p = true → 64 * b + p ≤ r.last.toNat

variable {r : Ring} {recorded : Finset Counter}

theorem Fits.mask_toNat (h : r.Fits) : r.capacity = r.slotMask.toNat + 1 := by
  have hpos := capacityFor_pos r.width
  have hone : (1 : UInt64) ≤ capacityFor r.width := UInt64.le_iff_toNat_le.mpr hpos
  rw [h.size, h.mask, UInt64.toNat_sub_of_le _ _ hone, UInt64.toNat_one]
  omega

/-- The bit of a recorded counter that is kept lies in a slot which its block owns. -/
theorem Holds.owns_of_retains (h : r.Holds recorded) {c : Counter} (hc : c ∈ recorded)
    (hret : r.Retains c) : r.Owns (c.toNat / 64) (c.toNat / 64 % r.capacity) where
  reached := Nat.div_le_div_right (h.front.le hc)
  kept := hret
  slot_eq := rfl

theorem Owns.unique {a b j : ℕ} (ha : r.Owns a j) (hb : r.Owns b j) : a = b := by
  have hkeptA := ha.kept
  have hkeptB := hb.kept
  have hreachedA := ha.reached
  have hreachedB := hb.reached
  exact eq_of_mod_eq_of_near (ha.slot_eq.trans hb.slot_eq.symm) (by omega) (by omega)

theorem Holds.cell_iff_of_owns (h : r.Holds recorded) {b j p : ℕ} (hown : r.Owns b j)
    (hp : p < 64) : r.cell j p = true ↔ ∃ c ∈ recorded, c.toNat = 64 * b + p := by
  rw [h.depicts]
  constructor
  · intro hset
    obtain ⟨c, hc, hret, hslot, hbit⟩ := hset
    have howns := h.owns_of_retains hc hret
    rw [hslot] at howns
    have hblock : c.toNat / 64 = b := howns.unique hown
    exact ⟨c, hc, by omega⟩
  · intro hset
    obtain ⟨c, hc, hsum⟩ := hset
    have hblock : c.toNat / 64 = b := by omega
    refine ⟨c, hc, ?_, ?_, by omega⟩
    · unfold Retains
      rw [hblock]
      exact hown.kept
    · rw [hblock]
      exact hown.slot_eq

theorem Holds.word_eq_zero (h : r.Holds recorded) {j : ℕ} (hnone : ∀ b, ¬ r.Owns b j) :
    r.word j = 0 := by
  rw [← UInt64.toNat_inj]
  apply Nat.eq_of_testBit_eq
  intro p
  have hclear : r.cell j p = false := by
    rw [Bool.eq_false_iff, Ne, h.depicts]
    rintro ⟨c, hc, hret, hslot, _⟩
    have howns := h.owns_of_retains hc hret
    rw [hslot] at howns
    exact hnone _ howns
  have hword : (r.word j).toNat.testBit p = false := hclear
  rw [hword]
  exact (Nat.zero_testBit p).symm

theorem Holds.layout (h : r.Holds recorded) : Layout r.width r recorded := by
  obtain ⟨k, _, hpow, hroom⟩ := capacityFor_two_pow r.width
  constructor
  case capacity_eq =>
    rw [h.fits.size]
    exact (holds_ofWidth r.width).fits.size.symm
  case mask_eq => exact h.fits.mask_toNat
  case two_pow => exact ⟨k, h.fits.size.trans hpow⟩
  case room =>
    rw [h.fits.size, hpow]
    exact hroom
  case owned =>
    intro b j p hown hp
    exact h.cell_iff_of_owns hown hp
  case unowned =>
    intro j _ hnone
    exact h.word_eq_zero hnone
  case not_ahead =>
    intro b j p hown hp hset
    obtain ⟨c, hc, hsum⟩ := (h.cell_iff_of_owns hown hp).mp hset
    rw [← hsum]
    exact h.front.le hc

end Slots

/-- What commands of any kind have left of a new ring is laid out by the counters that
were in reach when they were presented. -/
theorem every_bit_accounted_for (width : UInt64) (commands : List Command) :
    Layout width (run (ofWidth width) commands).2 (recordedBy width commands) := by
  have hholds := (holds_ofWidth width).run commands
  have hwidth := (run_tracks width commands).2
  have hlayout := hholds.layout
  rwa [hwidth] at hlayout

/-- Counter 3 comes too late, and its bit would have been that of counter 131. After the
reset no block owns the second slot. -/
example : recordedBy 64 [.offer 130, .record 3] = {130} ∧
    (run (ofWidth 64) [.offer 130, .record 3]).2.blocks = #[4, 0] ∧
    (run (ofWidth 64) [.offer 70, .reset, .offer 5]).2.blocks = #[32, 0] := by decide

end ReplayWindow.Ring
