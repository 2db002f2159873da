import ReplayWindow.Proofs.Gate.Verdicts
import ReplayWindow.Proofs.Shifted

/-!
The ways to record a counter. It can be offered to a window, or recorded there after
a look, or offered to the gate around the window, and all of them leave the same
window behind. The ring offers without looking first: it moves and marks, and tells
from the bit it found there what the look would have said. This is right because no
bit of a ring lies ahead of its front.
-/

namespace ReplayWindow

open Window (Command run)

/-- An offer answers what a look would have said. What it leaves is what recording
leaves, and neither of them changes anything over a counter that is refused. -/
structure Window.PathsAgree {W : Type} [Window W] (w : W) (c : Counter) : Prop where
  answer : (Window.offer w c).1 = Window.accepts w c
  accepted : Window.accepts w c = true → (Window.offer w c).2 = Window.record w c
  refused : Window.accepts w c = false →
    (Window.offer w c).2 = w ∧ Window.record w c = w

/-- An offer at the gate ends as the window of the gate decides. -/
structure Gate.FollowsWindow (g : Gate) (c : Counter) : Prop where
  accepted : g.window.accepts c = true →
    (g.offer c).answer = .ok ∧ (g.offer c).gate = ⟨g.window.record c⟩
  refused : g.window.accepts c = false →
    (∃ why, (g.offer c).answer = .refused why) ∧ (g.offer c).gate = g

theorem Ring.Holds.pathsAgree {r : Ring} {recorded : Finset Counter} (h : r.Holds recorded)
    (c : Counter) : Window.PathsAgree r c where
  answer := h.offer_fst c
  accepted _ := Ring.offer_snd r c
  refused hc := ⟨(Ring.offer_snd r c).trans (h.record_eq_self hc), h.record_eq_self hc⟩

theorem Shifted.Holds.pathsAgree {w : Shifted} {presented : Finset Counter}
    (h : w.Holds presented) (c : Counter) : Window.PathsAgree w c where
  answer := Shifted.offer_fst w c
  accepted _ := h.offer_snd c
  refused hc := ⟨(h.offer_snd c).trans (h.record_eq_self hc), h.record_eq_self hc⟩

theorem Gate.inspect_ok_iff_accepts (g : Gate) (c : Counter) :
    g.inspect c = .ok ↔ g.window.accepts c = true := by
  unfold Gate.inspect
  cases g.window.accepts c with
  | true => simp
  | false => cases g.window.isExpired c <;> simp

theorem Gate.offer_answer (g : Gate) (c : Counter) : (g.offer c).answer = g.inspect c :=
  Gate.Answer.verdict.inj (Gate.perform_offer_answer g c)

theorem Gate.followsWindow (g : Gate) (c : Counter) : g.FollowsWindow c := by
  constructor
  case accepted =>
    intro hc
    have hok := (g.inspect_ok_iff_accepts c).mpr hc
    exact ⟨(g.offer_answer c).trans hok, Gate.perform_offer_ok hok⟩
  case refused =>
    intro hc
    have hrefused : g.inspect c ≠ .ok := by
      rw [Ne, g.inspect_ok_iff_accepts c, hc]
      exact Bool.false_ne_true
    refine ⟨?_, Gate.perform_offer_refused hrefused⟩
    rw [g.offer_answer c]
    cases hwhy : g.inspect c with
    | ok => exact absurd hwhy hrefused
    | refused why => exact ⟨why, rfl⟩

/-- In every window that a sequence of commands has left, all ways to record a counter
come to the same, to the last bit. -/
theorem recording_paths_agree (width : UInt64) (commands : List Command) (c : Counter) :
    Window.PathsAgree (run (Ring.ofWidth width) commands).2 c ∧
    Gate.FollowsWindow ⟨(run (Ring.ofWidth width) commands).2⟩ c ∧
    (width.toNat < 2 ^ 63 → ∃ new, Shifted.create width = .ok new ∧
      Window.PathsAgree (run new commands).2 c) := by
  refine ⟨?ring, Gate.followsWindow _ c, ?shifted⟩
  case ring =>
    obtain ⟨⟨recorded, hholds, _, _⟩, _⟩ := Ring.run_tracks width commands
    exact hholds.pathsAgree c
  case shifted =>
    intro hwidth
    have hholds : (run (Shifted.ofWidth width) commands).2.Holds (Window.presented commands) :=
      Window.run_tracks (W := Shifted) (Shifted.holds_ofWidth width hwidth) commands
    exact ⟨_, Shifted.create_eq_ok hwidth, hholds.pathsAgree c⟩

/-- Of two counters inside the window one is new and one is not. -/
theorem recording_paths_agree_65 :
    let commands : List Command := [.offer 70, .record 9]
    let r := (run (Ring.ofWidth 65) commands).2
    r.accepts 8 = true ∧ Window.PathsAgree r 8 ∧ r.accepts 9 = false ∧ Window.PathsAgree r 9 ∧
    (65 : UInt64).toNat < 2 ^ 63 ∧ ∃ new, Shifted.create 65 = .ok new ∧
      Window.PathsAgree (run new commands).2 9 := by
  intro commands r
  have hwidth : (65 : UInt64).toNat < 2 ^ 63 := by decide
  have hnew := recording_paths_agree 65 commands 8
  have hseen := recording_paths_agree 65 commands 9
  exact ⟨by decide, hnew.1, by decide, hseen.1, hwidth, hseen.2.2 hwidth⟩

/-- With a bit set ahead of the front, an offer would move the front to the counter and
refuse it all the same. -/
example : let r : Ring := ⟨64, 0, 1, #[4, 0]⟩
    r.accepts 2 = true ∧ r.offer 2 = (false, { r with last := 2 }) := by decide

end ReplayWindow
