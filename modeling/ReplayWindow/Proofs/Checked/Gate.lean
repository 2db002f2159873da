import ReplayWindow.Proofs.Checked.Ring
import ReplayWindow.Proofs.Checked.Shifted
import ReplayWindow.Proofs.Gate.Verdicts

/-!
The critical sections of a gate with their faults. A section that faults poisons the
lock around the gate, and a poisoned lock lets no later section in. A gate that has been
new always holds a ring with the size and the mask of its width, so no section faults,
and the lock stays as it was made.
-/

namespace ReplayWindow

namespace Gate

section Steps

def checkedInspect (g : Gate) (counter : Counter) : Checked Verdict := do
  let accepted ← g.window.checkedAccepts counter
  if accepted then pure .ok
  else do
    let expired ← g.window.checkedIsExpired counter
    if expired then pure (.refused .expired) else pure (.refused .duplicate)

def checkedOffer (g : Gate) (counter : Counter) : Checked (Reply Verdict) := do
  let verdict ← g.checkedInspect counter
  match verdict with
  | .refused why => pure ⟨.refused why, [.refused counter why], g⟩
  | .ok => do
    let moved := if g.last < counter then [Event.advanced g.last counter] else []
    let window ← g.window.checkedRecord counter
    pure ⟨.ok, moved ++ [.accepted counter], ⟨window⟩⟩

def checkedPerform (g : Gate) : Call → Checked (Reply Answer)
  | .inspect counter => do
    let verdict ← g.checkedInspect counter
    pure ⟨.verdict verdict, [], g⟩
  | .offer counter => do
    let reply ← g.checkedOffer counter
    pure (reply.map .verdict)
  | .rewind => pure (g.rewind.map fun _ => .done)

end Steps

variable {g : Gate} {known : Finset Counter}

theorem Tracks.checkedInspect_eq_ok (h : g.Tracks known) (c : Counter) :
    g.checkedInspect c = .ok (g.inspect c) := by
  have hring := Ring.Tracks.faultless h
  have haccepts : g.window.checkedAccepts c = .ok (g.window.accepts c) := hring.accepts c
  rw [checkedInspect, haccepts, Checked.ok_bind, Gate.inspect]
  split
  · rfl
  · rw [hring.isExpired, Checked.ok_bind]
    split <;> rfl

theorem Tracks.checkedOffer_eq_ok (h : g.Tracks known) (c : Counter) :
    g.checkedOffer c = .ok (g.offer c) := by
  have hrecord : g.window.checkedRecord c = .ok (g.window.record c) :=
    (Ring.Tracks.faultless h).record c
  rw [checkedOffer, h.checkedInspect_eq_ok, Checked.ok_bind, Gate.offer]
  cases g.inspect c with
  | ok =>
    simp only [hrecord]
    rfl
  | refused why => rfl

theorem Tracks.checkedPerform_eq_ok (h : g.Tracks known) (call : Call) :
    g.checkedPerform call = .ok (g.perform call) := by
  cases call with
  | inspect c =>
    rw [checkedPerform, h.checkedInspect_eq_ok]
    rfl
  | offer c =>
    rw [checkedPerform, h.checkedOffer_eq_ok]
    rfl
  | rewind => rfl

end Gate

/-- The lock around a gate. -/
structure Lock where
  gate : Gate
  poisoned : Bool
  deriving DecidableEq

namespace Lock

open Gate

def create (width : UInt64) : Checked Lock := do
  let window ← Ring.checkedOfWidth width
  pure ⟨⟨window⟩, false⟩

/-- One critical section under the lock. What a faulting section has done to the gate is
left out, since nobody sees the gate of a poisoned lock. -/
def perform (lock : Lock) (call : Call) : Checked (Reply Answer) × Lock :=
  if lock.poisoned then (.error .poisoned, lock)
  else
    match lock.gate.checkedPerform call with
    | .ok reply => (.ok reply, ⟨reply.gate, false⟩)
    | .error fault => (.error fault, { lock with poisoned := true })

def performEach (lock : Lock) : List Call → List (Checked (Reply Answer)) × Lock
  | [] => ([], lock)
  | call :: rest =>
    let first := lock.perform call
    let later := first.2.performEach rest
    (first.1 :: later.1, later.2)

theorem create_eq_ok (width : UInt64) : create width = .ok ⟨Gate.ofWidth width, false⟩ := by
  rw [create, Ring.checkedOfWidth_eq_ok]
  rfl

variable {g : Gate} {known : Finset Counter}

theorem perform_eq_ok (h : g.Tracks known) (call : Call) :
    perform ⟨g, false⟩ call = (.ok (g.perform call), ⟨(g.perform call).gate, false⟩) := by
  rw [perform, if_neg Bool.false_ne_true, h.checkedPerform_eq_ok]

/-- Every section gives its reply, and the lock is as sound as before. -/
theorem performEach_eq_ok (h : g.Tracks known) (calls : List Call) :
    performEach ⟨g, false⟩ calls =
      ((g.performEach calls).1.map .ok, ⟨(g.performEach calls).2, false⟩) := by
  induction calls generalizing g known with
  | nil => rfl
  | cons call rest ih =>
    have hrest := ih (h.perform call)
    rw [performEach, perform_eq_ok h, hrest]
    rfl

/-- Around a ring whose mask reaches past its blocks the first lookup would fault, and
the lock would refuse the next one. -/
example :
    (performEach ⟨⟨⟨64, 0, 1, #[]⟩⟩, false⟩ [.inspect 0, .inspect 9]).1 =
      [.error .index, .error .poisoned] := rfl

end Lock

section Faults

open Window

/-- Making a window or a gate does not fault, and neither does anything that is done to
it later, in any order and up to the highest width and counter. A shifted window needs
arrays of as many bytes as it is wide, so its width is below `2 ^ 63`. -/
theorem no_operation_faults (width : UInt64) :
    (Ring.checkedOfWidth width = .ok (Ring.ofWidth width) ∧
      ∀ commands, checkedRun (Ring.ofWidth width) commands =
          .ok (run (Ring.ofWidth width) commands) ∧
        (run (Ring.ofWidth width) commands).2.Faultless) ∧
    (width.toNat < 2 ^ 63 →
      Shifted.checkedOfWidth width = .ok (Shifted.ofWidth width) ∧
      ∀ commands, checkedRun (Shifted.ofWidth width) commands =
          .ok (run (Shifted.ofWidth width) commands) ∧
        (run (Shifted.ofWidth width) commands).2.Faultless) ∧
    ∃ lock, Lock.create width = .ok lock ∧
      ∀ calls,
        (lock.performEach calls).1 =
          ((Gate.ofWidth width).performEach calls).1.map .ok ∧
        (lock.performEach calls).2 =
          ⟨((Gate.ofWidth width).performEach calls).2, false⟩ := by
  refine ⟨⟨Ring.checkedOfWidth_eq_ok width, Ring.run_faultless width⟩, ?_,
    ⟨⟨Gate.ofWidth width, false⟩, Lock.create_eq_ok width, ?_⟩⟩
  · intro hwidth
    exact ⟨Shifted.checkedOfWidth_eq_ok hwidth, Shifted.run_faultless hwidth⟩
  · intro calls
    rw [Lock.performEach_eq_ok (Gate.tracks_ofWidth width) calls]
    exact ⟨rfl, rfl⟩

/-- The widest ring is run up to the highest counter and reset, and a new one moves its front
over all counters at once. The widest pair of arrays can be made and goes through the same
run. A lock around the widest gate lets four calls in and is not poisoned by them. -/
theorem no_operation_faults_at_the_widest :
    let commands : List Command :=
      [.offer 70, .offer 0xffffffffffffffff, .record 9, .accepts 3, .reset]
    let calls : List Gate.Call := [.offer 0xffffffffffffffff, .offer 9, .rewind, .inspect 9]
    checkedRun (Ring.ofWidth 0xffffffffffffffff) commands =
        .ok (run (Ring.ofWidth 0xffffffffffffffff) commands) ∧
      (Ring.ofWidth 0xffffffffffffffff).checkedSlideTo 0xffffffffffffffff =
        .ok ((Ring.ofWidth 0xffffffffffffffff).slideTo 0xffffffffffffffff) ∧
      (0x7fffffffffffffff : UInt64).toNat < 2 ^ 63 ∧
      Shifted.checkedOfWidth 0x7fffffffffffffff = .ok (Shifted.ofWidth 0x7fffffffffffffff) ∧
      checkedRun (Shifted.ofWidth 0x7fffffffffffffff) commands =
        .ok (run (Shifted.ofWidth 0x7fffffffffffffff) commands) ∧
      ∃ lock, Lock.create 0xffffffffffffffff = .ok lock ∧
        (lock.performEach calls).1 =
          ((Gate.ofWidth 0xffffffffffffffff).performEach calls).1.map .ok ∧
        (lock.performEach calls).2.poisoned = false := by
  intro commands calls
  have hhalf : (0x7fffffffffffffff : UInt64).toNat < 2 ^ 63 := by decide
  obtain ⟨⟨_, hring⟩, _, lock, hcreate, hlock⟩ := no_operation_faults 0xffffffffffffffff
  obtain ⟨_, hshifted, _⟩ := no_operation_faults 0x7fffffffffffffff
  obtain ⟨hmade, harrays⟩ := hshifted hhalf
  obtain ⟨hreplies, hleft⟩ := hlock calls
  exact ⟨(hring commands).1, (hring []).2.slideTo _ (by decide), hhalf, hmade,
    (harrays commands).1, lock, hcreate, hreplies, congrArg Lock.poisoned hleft⟩

end Faults

end ReplayWindow
