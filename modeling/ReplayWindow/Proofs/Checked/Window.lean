import ReplayWindow.Proofs.Checked.Words
import ReplayWindow.Proofs.History

/-!
Windows whose operations are also given with their faults. When no operation faults on
a window that tracks some history, no sequence of commands does, and the window goes
through the same states with the checks as without them.
-/

namespace ReplayWindow

class CheckedWindow (W : Type) where
  accepts : W → Counter → Checked Bool
  record : W → Counter → Checked W
  offer : W → Counter → Checked (Bool × W)

namespace Window

variable {W : Type} [Window W] [CheckedWindow W]

/-- A reset only writes over whole arrays, and the rest only reads a field, so these have
no step that could fault. -/
def checkedStep (w : W) : Command → Checked (Answer × W)
  | .accepts counter => do
    let accepted ← CheckedWindow.accepts w counter
    pure (.flag accepted, w)
  | .offer counter => do
    let (accepted, w) ← CheckedWindow.offer w counter
    pure (.flag accepted, w)
  | .record counter => do
    let w ← CheckedWindow.record w counter
    pure (.done, w)
  | .reset => pure (.done, reset w)
  | .last => pure (.word (last w), w)
  | .width => pure (.word (width w), w)

def checkedRun (w : W) : List Command → Checked (List Answer × W)
  | [] => pure ([], w)
  | command :: rest => do
    let first ← checkedStep w command
    let later ← checkedRun first.2 rest
    pure (first.1 :: later.1, later.2)

/-- No operation faults on the window, and each gives what it gives without checks. -/
structure Faultless (w : W) : Prop where
  accepts : ∀ c, CheckedWindow.accepts w c = .ok (accepts w c)
  record : ∀ c, CheckedWindow.record w c = .ok (record w c)
  offer : ∀ c, CheckedWindow.offer w c = .ok (offer w c)

theorem Faultless.step {w : W} (h : Faultless w) (command : Command) :
    checkedStep w command = .ok (step w command) := by
  cases command with
  | accepts c =>
    rw [checkedStep, h.accepts]
    rfl
  | offer c =>
    rw [checkedStep, h.offer]
    rfl
  | record c =>
    rw [checkedStep, h.record]
    rfl
  | reset => rfl
  | last => rfl
  | width => rfl

theorem checkedRun_eq_ok [Faithful W] {w : W} {known : Finset Counter}
    (hfaultless : ∀ (w : W) (known : Finset Counter), Faithful.Tracks w known → Faultless w)
    (h : Faithful.Tracks w known) (commands : List Command) :
    checkedRun w commands = .ok (run w commands) := by
  induction commands generalizing w known with
  | nil => rfl
  | cons command rest ih =>
    have hstep := (hfaultless w known h).step command
    have hrest := ih (step_tracks h command)
    rw [checkedRun, hstep, Checked.ok_bind, hrest]
    rfl

end Window

end ReplayWindow
