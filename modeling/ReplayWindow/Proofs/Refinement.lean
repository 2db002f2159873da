import ReplayWindow.Proofs.Ring.History
import ReplayWindow.Proofs.Shifted

/-!
The ring and the shifted window cannot be told apart. One finds counters by their
absolute position and clears blocks, the other finds them by their distance from
the front and moves flags, and what both stand for is the same history.
-/

namespace ReplayWindow

open Window (Command presented run)

/-- Every sequence of commands gets the same answers from a ring and from a
shifted window, and after each command the two still agree on every counter. -/
theorem shifted_answers_as_ring (width : UInt64) (hwidth : width.toNat < 2 ^ 63) :
    ∃ shifted, Shifted.create width = .ok shifted ∧
      ∀ commands : List Command,
        (run (Ring.ofWidth width) commands).1 = (run shifted commands).1 ∧
        ∀ n, let r := (run (Ring.ofWidth width) (commands.take n)).2
          let w := (run shifted (commands.take n)).2
          r.last = w.last ∧ ∀ c, r.accepts c = w.accepts c := by
  have hcreate : Shifted.create width = .ok (Shifted.ofWidth width) := by
    have hlt : width < 0x8000000000000000 := UInt64.lt_iff_toNat_lt.mpr hwidth
    simp only [Shifted.create, hlt, ↓reduceIte]
  have hring := (Ring.holds_ofWidth width).tracks
  have hshifted := Shifted.holds_ofWidth width hwidth
  have hsame : (Ring.ofWidth width).width = (Shifted.ofWidth width).width :=
    (Shifted.ofWidth_width width).symm
  refine ⟨Shifted.ofWidth width, hcreate, fun commands => ⟨?_, fun n => ?_⟩⟩
  · exact Window.run_answers_eq (V := Ring) (W := Shifted) hring hshifted hsame commands
  · intro r w
    have hr := Window.run_tracks (W := Ring) hring (commands.take n)
    have hw := Window.run_tracks (W := Shifted) hshifted (commands.take n)
    have hwidth' : r.width = w.width := by
      have hrw := Window.run_width (W := Ring) hring (commands.take n)
      have hww := Window.run_width (W := Shifted) hshifted (commands.take n)
      exact hrw.trans (hsame.trans hww.symm)
    exact ⟨Window.last_eq_of_tracks (V := Ring) (W := Shifted) hr hw,
      Window.accepts_eq_of_tracks (V := Ring) (W := Shifted) hr hw hwidth'⟩

/-- A width that fills one block and begins a second one. -/
theorem shifted_answers_as_ring_65 :
    (65 : UInt64).toNat < 2 ^ 63 ∧
    ∃ shifted, Shifted.create 65 = .ok shifted ∧
      ∀ commands : List Command,
        (run (Ring.ofWidth 65) commands).1 = (run shifted commands).1 ∧
        ∀ n, let r := (run (Ring.ofWidth 65) (commands.take n)).2
          let w := (run shifted (commands.take n)).2
          r.last = w.last ∧ ∀ c, r.accepts c = w.accepts c :=
  ⟨by decide, shifted_answers_as_ring 65 (by decide)⟩

end ReplayWindow
