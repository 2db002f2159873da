import ReplayWindow.Counter
import ReplayWindow.Form

/-!
A replay window kept as one flag for each position, position `i` being the
counter `i` behind the highest accepted one. Moving the window ahead shifts all
flags. The shifted flags are laid into a second, cleared array, and the two
arrays then change places.
-/

namespace ReplayWindow

structure Shifted where
  last : Counter
  seen : Array Bool
  spare : Array Bool
  deriving DecidableEq

/-- Why a window cannot be made. -/
inductive WidthError where
  | capacityOverflow
  deriving DecidableEq

def WidthError.message : WidthError → String
  | .capacityOverflow => "capacity overflow"

namespace Shifted

def ofWidth (width : UInt64) : Shifted where
  last := 0
  seen := Array.replicate width.toNat false
  spare := Array.replicate width.toNat false

/-- An array holds fewer than `2 ^ 63` flags. -/
def create (width : UInt64) : Except WidthError Shifted :=
  if width < 0x8000000000000000 then .ok (ofWidth width) else .error .capacityOverflow

def width (w : Shifted) : UInt64 := w.seen.size.toUInt64

/-- Would the counter be accepted now? -/
def accepts (w : Shifted) (counter : Counter) : Bool :=
  if w.last < counter then true
  else if w.width ≤ w.last - counter then false
  else !w.seen.getD (w.last - counter).toNat false

/-- Shifts every flag `count` positions back. A shift by the whole width or more
leaves nothing, and then the spare array is not needed. -/
def shift (w : Shifted) (count : UInt64) : Shifted :=
  if w.width ≤ count then { w with seen := Array.replicate w.seen.size false }
  else
    let size := w.seen.size
    { w with
      seen := w.spare.take count.toNat ++ w.seen.shrink (size - count.toNat)
      spare := Array.replicate size false }

def markBehind (w : Shifted) (distance : UInt64) : Shifted :=
  if distance < w.width then { w with seen := w.seen.setIfInBounds distance.toNat true } else w

/-- Marks the counter as seen. Counters behind the window are ignored. -/
def record (w : Shifted) (counter : Counter) : Shifted :=
  if w.last < counter then { w.shift (counter - w.last) with last := counter }.markBehind 0
  else w.markBehind (w.last - counter)

/-- Accepts the counter and marks it, or refuses it. -/
def offer (w : Shifted) (counter : Counter) : Bool × Shifted :=
  if w.accepts counter then (true, w.record counter) else (false, w)

/-- Forgets every counter and rewinds the front to zero. -/
def reset (w : Shifted) : Shifted :=
  { w with last := 0, seen := Array.replicate w.seen.size false }

def form (w : Shifted) : Form :=
  .record "ReferenceFilter"
    [.field "last" (.ofWord w.last),
      .field "bits" (.list (w.seen.toList.map .ofBool)),
      .field "temp" (.list (w.spare.toList.map .ofBool))] false

end Shifted

end ReplayWindow
