import ReplayWindow.Form
import ReplayWindow.Ring.Geometry

/-!
A replay window kept as a ring of bit blocks. Counters are found by their
absolute position, so nothing is copied when the window moves: only the blocks
that it moves into are cleared. Bits of counters behind the window may stay set,
and no answer reads them before their block is cleared.
-/

namespace ReplayWindow

/-- `slotMask` is one less than the number of blocks, which is a power of two. -/
structure Ring where
  width : UInt64
  last : Counter
  slotMask : UInt64
  blocks : Array UInt64
  deriving DecidableEq

namespace Ring

def ofWidth (width : UInt64) : Ring where
  width := width
  last := 0
  slotMask := capacityFor width - 1
  blocks := Array.replicate (capacityFor width).toNat 0

def capacity (r : Ring) : Nat := r.blocks.size

def slot (r : Ring) (counter : Counter) : Nat := (blockOf counter &&& r.slotMask).toNat

def isMarked (r : Ring) (counter : Counter) : Bool :=
  r.blocks.getD (r.slot counter) 0 &&& bitOf counter != 0

def mark (r : Ring) (counter : Counter) : Ring :=
  { r with blocks := r.blocks.modify (r.slot counter) (· ||| bitOf counter) }

/-- Marks the counter and says whether its bit was free before. -/
def claim (r : Ring) (counter : Counter) : Bool × Ring :=
  (!r.isMarked counter, r.mark counter)

/-- Clears `count` blocks, beginning with block number `first`. -/
def clearBlocks (slotMask first : UInt64) : Nat → Array UInt64 → Array UInt64
  | 0, blocks => blocks
  | count + 1, blocks =>
    clearBlocks slotMask (first + 1) count (blocks.setIfInBounds (first &&& slotMask).toNat 0)

/-- Moves the front of the window ahead to `counter` and clears every block that
the window moves into. A move by the whole capacity or more enters every slot. -/
def slideTo (r : Ring) (counter : Counter) : Ring :=
  let entered := (blockOf counter - blockOf r.last).toNat
  if r.capacity ≤ entered then
    { r with last := counter, blocks := Array.replicate r.capacity 0 }
  else
    { r with
      last := counter
      blocks := clearBlocks r.slotMask (blockOf r.last + 1) entered r.blocks }

/-- The counter lies behind the window and can never be accepted again. -/
def isExpired (r : Ring) (counter : Counter) : Bool := Counter.isBehind r.width r.last counter

/-- Would the counter be accepted now? -/
def accepts (r : Ring) (counter : Counter) : Bool :=
  if r.last < counter then true
  else if r.width ≤ r.last - counter then false
  else !r.isMarked counter

/-- Marks the counter as seen without asking whether it was acceptable. A counter
behind the window has no position left and is ignored. -/
def record (r : Ring) (counter : Counter) : Ring :=
  if r.last < counter then (r.slideTo counter).mark counter
  else if r.width ≤ r.last - counter then r
  else r.mark counter

/-- Accepts the counter and marks it, or refuses it. -/
def offer (r : Ring) (counter : Counter) : Bool × Ring :=
  if r.last < counter then (r.slideTo counter).claim counter
  else if r.width ≤ r.last - counter then (false, r)
  else r.claim counter

/-- Forgets every counter and rewinds the front to zero. -/
def reset (r : Ring) : Ring :=
  { r with last := 0, blocks := Array.replicate r.capacity 0 }

def form (r : Ring) : Form :=
  .record "SlidingWindowFilter"
    [.field "size" (.ofWord r.width), .field "last" (.ofWord r.last),
      .field "ring_capacity" (.atom (toString r.capacity))] false

end Ring

end ReplayWindow
