import ReplayWindow.Proofs.Checked.Shifted

/-!
Every flag of a shifted window. A place stands for the counter that lies so far behind the
front, or for none where this would be before counter zero, and its flag is set exactly if that
counter was presented. The spare array is cleared at all times. So a shift may lay only the kept
flags into it, and the places before them are free, as they are when a long shift clears all.
-/

namespace ReplayWindow.Shifted

open Window (Command presented run)

/-- The two arrays of a window of the width, what each flag stands for, and what a shift by any
number of places makes of them. -/
structure Flags (width : UInt64) (w : Shifted) (known : Finset Counter) : Prop where
  seen_size : w.seen.size = width.toNat
  spare_eq : w.spare = Array.replicate width.toNat false
  flag_iff : ∀ i < width, w.seen[i.toNat]? = some true ↔ i ≤ w.last ∧ w.last - i ∈ known
  shift_eq : ∀ count, w.shift count =
    { w with seen := movedBack w.seen count.toNat, spare := Array.replicate width.toNat false }
  shift_computed : ∀ count, w.checkedShift count = .ok (w.shift count)

variable {w : Shifted} {known : Finset Counter}

/-- The flag at a place is set if the front has come that far and the counter there is known. -/
theorem Holds.place_iff (h : w.Holds known) {i : UInt64} (hi : i < w.width) :
    w.seen[i.toNat]? = some true ↔ i ≤ w.last ∧ w.last - i ∈ known := by
  have hin := UInt64.lt_iff_toNat_lt.mp hi
  rw [h.width_toNat] at hin
  rw [Array.getElem?_eq_getElem hin, Option.some_inj, Array.getElem_eq_getD false, h.depicts]
  constructor
  · intro hset
    obtain ⟨_, c, hc, hsum⟩ := hset
    have hle : i ≤ w.last := UInt64.le_iff_toNat_le.mpr (by omega)
    have hcounter : w.last - i = c := by
      rw [← UInt64.toNat_inj, UInt64.toNat_sub_of_le _ _ hle]
      omega
    rw [hcounter]
    exact ⟨hle, hc⟩
  · intro hset
    obtain ⟨hle, hmem⟩ := hset
    have hcome := UInt64.le_iff_toNat_le.mp hle
    refine ⟨hin, w.last - i, hmem, ?_⟩
    rw [UInt64.toNat_sub_of_le _ _ hle]
    omega

theorem Holds.flags (h : w.Holds known) : Flags w.width w known := by
  have hspare : w.spare = Array.replicate w.width.toNat false := by
    rw [h.width_toNat]
    exact h.spare_eq
  constructor
  case seen_size => exact h.width_toNat.symm
  case spare_eq => exact hspare
  case flag_iff =>
    intro i hi
    exact h.place_iff hi
  case shift_eq =>
    intro count
    rw [h.shift_eq, ← hspare]
  case shift_computed => exact h.checkedShift_eq_ok

/-- A window is too wide to be made, or its flags tell at all times what was presented to it
since its last reset. -/
theorem every_flag_accounted_for (width : UInt64) :
    (2 ^ 63 ≤ width.toNat → create width = .error .capacityOverflow) ∧
    (width.toNat < 2 ^ 63 → create width = .ok (ofWidth width) ∧
      ∀ commands : List Command,
        Flags width (run (ofWidth width) commands).2 (presented commands)) := by
  refine ⟨create_eq_error, ?_⟩
  intro hwidth
  refine ⟨create_eq_ok hwidth, ?_⟩
  intro commands
  obtain ⟨hholds, hkept⟩ := run_holds hwidth commands
  have hflags := hholds.flags
  rwa [hkept] at hflags

/-- The places 6 and 7 lie before counter zero. A shift by 3 moves the flag at place 4 to the last
place, and a shift by 8 leaves none. -/
theorem every_flag_accounted_for_8 :
    let commands : List Command := [.offer 3, .offer 5, .record 1]
    let w := (run (ofWidth 8) commands).2
    2 ^ 63 ≤ (0x8000000000000000 : UInt64).toNat ∧
    create 0x8000000000000000 = .error .capacityOverflow ∧
    (8 : UInt64).toNat < 2 ^ 63 ∧ create 8 = .ok (ofWidth 8) ∧
    Flags 8 w (presented commands) ∧
    w.seen = #[true, false, true, false, true, false, false, false] ∧
    (w.shift 3).seen = #[false, false, false, true, false, true, false, true] ∧
    (w.shift 8).seen = Array.replicate 8 false := by
  intro commands w
  have hwide : 2 ^ 63 ≤ (0x8000000000000000 : UInt64).toNat := by decide
  have hwidth : (8 : UInt64).toNat < 2 ^ 63 := by decide
  obtain ⟨hcreate, hflags⟩ := (every_flag_accounted_for 8).2 hwidth
  exact ⟨hwide, (every_flag_accounted_for 0x8000000000000000).1 hwide, hwidth, hcreate,
    hflags commands, by decide, by decide, by decide⟩

/-- With a flag left over in the spare array, a shift would mark a counter that nobody has
presented. -/
example : ((⟨0, #[false, false], #[true, false]⟩ : Shifted).shift 1).seen = #[true, false] := by
  decide

end ReplayWindow.Shifted
