import ReplayWindow.Ring.Basic
import ReplayWindow.Shifted

/-!
What every replay window can do, and sequences of commands on one. The answers
to a sequence are all that its user sees of a window, so two windows that
answer alike to every sequence cannot be told apart.
-/

namespace ReplayWindow

class Window (W : Type) where
  width : W → UInt64
  last : W → Counter
  accepts : W → Counter → Bool
  record : W → Counter → W
  offer : W → Counter → Bool × W
  reset : W → W
  form : W → Form

instance : Window Ring where
  width := Ring.width
  last := Ring.last
  accepts := Ring.accepts
  record := Ring.record
  offer := Ring.offer
  reset := Ring.reset
  form := Ring.form

instance : Window Shifted where
  width := Shifted.width
  last := Shifted.last
  accepts := Shifted.accepts
  record := Shifted.record
  offer := Shifted.offer
  reset := Shifted.reset
  form := Shifted.form

namespace Window

inductive Command where
  | accepts (counter : Counter)
  | offer (counter : Counter)
  | record (counter : Counter)
  | reset
  | last
  | width
  deriving DecidableEq

inductive Answer where
  | flag (value : Bool)
  | word (value : UInt64)
  | done
  deriving DecidableEq

variable {W : Type} [Window W]

def step (w : W) : Command → Answer × W
  | .accepts counter => (.flag (accepts w counter), w)
  | .offer counter =>
    let (accepted, w) := offer w counter
    (.flag accepted, w)
  | .record counter => (.done, record w counter)
  | .reset => (.done, reset w)
  | .last => (.word (last w), w)
  | .width => (.word (width w), w)

/-- The answers to a sequence of commands, and the window after it. -/
def run (w : W) : List Command → List Answer × W
  | [] => ([], w)
  | command :: rest =>
    let (answer, w) := step w command
    let (answers, w) := run w rest
    (answer :: answers, w)

/-- Offers the counters in turn. -/
def offerEach (w : W) : List Counter → List Bool × W
  | [] => ([], w)
  | counter :: rest =>
    let (accepted, w) := offer w counter
    let (flags, w) := offerEach w rest
    (accepted :: flags, w)

end Window

end ReplayWindow
