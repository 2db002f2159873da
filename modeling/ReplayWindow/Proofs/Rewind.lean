import ReplayWindow.Proofs.Gate.Verdicts
import ReplayWindow.Proofs.Shifted

/-!
A reset rewinds a window to a new one. It clears only a part of the state: a ring keeps
its mask and its number of blocks, and a shifted window keeps its spare array. The
result is a new window all the same, because no operation changes the mask or a length,
and because every shift leaves the spare array cleared. After a rewind a gate has
forgotten all that was before.
-/

namespace ReplayWindow

open Window (Command presented run)
open Gate (Call)

namespace Ring

theorem reset_run (width : UInt64) (commands : List Command) :
    (run (ofWidth width) commands).2.reset = ofWidth width := by
  obtain ⟨⟨recorded, hholds, _, _⟩, hwidth⟩ := run_tracks width commands
  rw [hholds.fits.reset_eq, hwidth]

end Ring

namespace Shifted

theorem reset_run {width : UInt64} (hwidth : width.toNat < 2 ^ 63) (commands : List Command) :
    (run (ofWidth width) commands).2.reset = ofWidth width := by
  obtain ⟨hholds, hkept⟩ := run_holds hwidth commands
  rw [hholds.reset_eq, hkept]

/-- A flag left over in the spare array would outlast a reset. -/
example : (⟨3, #[true, false], #[false, true]⟩ : Shifted).reset ≠ ofWidth 2 := by decide

end Shifted

namespace Gate

theorem rewind_performEach (width : UInt64) (calls : List Call) :
    (((ofWidth width).performEach calls).2.perform .rewind).gate = ofWidth width := by
  obtain ⟨known, htracks⟩ := (tracks_ofWidth width).performEach calls
  rw [htracks.perform_rewind, performEach_width]
  rfl

/-- What is asked of a gate after a rewind is answered as a new gate answers it. -/
theorem performEach_after_rewind (width : UInt64) (earlier later : List Call) :
    ((ofWidth width).performEach (earlier ++ .rewind :: later)).1.drop (earlier.length + 1) =
        ((ofWidth width).performEach later).1 ∧
      ((ofWidth width).performEach (earlier ++ .rewind :: later)).2 =
        ((ofWidth width).performEach later).2 := by
  have hgate := rewind_performEach width earlier
  constructor
  · rw [← List.drop_drop, performEach_drop]
    simp only [performEach, hgate, List.drop_succ_cons, List.drop_zero]
  · simp only [performEach_append, performEach, hgate]

end Gate

/-- Whatever a window or a gate has been through, a reset leaves the one that was there at
the start, to the last bit, and what follows shows nothing of the past. -/
theorem reset_rewinds_to_new (width : UInt64) :
    (∀ commands, (run (Ring.ofWidth width) commands).2.reset = Ring.ofWidth width) ∧
    (width.toNat < 2 ^ 63 → ∃ new, Shifted.create width = .ok new ∧
      ∀ commands, (run new commands).2.reset = new) ∧
    ∀ earlier later : List Call,
      let new := Gate.ofWidth width
      let whole := new.performEach (earlier ++ .rewind :: later)
      (new.performEach earlier).2.rewind.gate = new ∧
        whole.1.drop (earlier.length + 1) = (new.performEach later).1 ∧
        whole.2 = (new.performEach later).2 := by
  refine ⟨Ring.reset_run width, ?shifted, ?gate⟩
  case shifted =>
    intro hwidth
    exact ⟨_, Shifted.create_eq_ok hwidth, Shifted.reset_run hwidth⟩
  case gate =>
    intro earlier later new whole
    have hrewound : (new.performEach earlier).2.rewind.gate = new :=
      Gate.rewind_performEach width earlier
    exact ⟨hrewound, Gate.performEach_after_rewind width earlier later⟩

/-- When it is reset, the ring still holds stale marks of counters 64 and 70. -/
theorem reset_rewinds_to_new_65 :
    let commands : List Command := [.offer 70, .record 9, .offer 64, .record 266]
    (run (Ring.ofWidth 65) commands).2.blocks = #[1024, 65, 0, 0] ∧
    (run (Ring.ofWidth 65) commands).2.reset = Ring.ofWidth 65 ∧
    (65 : UInt64).toNat < 2 ^ 63 ∧
    ∃ new, Shifted.create 65 = .ok new ∧ (run new commands).2.reset = new := by
  intro commands
  have hwidth : (65 : UInt64).toNat < 2 ^ 63 := by decide
  obtain ⟨hring, hshifted, _⟩ := reset_rewinds_to_new 65
  obtain ⟨new, hcreate, hreset⟩ := hshifted hwidth
  exact ⟨by decide, hring commands, hwidth, new, hcreate, hreset commands⟩

end ReplayWindow
