import ReplayWindow.Clock
import ReplayWindow.Decimal
import ReplayWindow.Traffic.Link
import ReplayWindow.Window

/-!
The speed of the two kinds of window side by side. Both take the same batches,
each under the clock, until the time measured for the two together reaches a
limit. In every batch they have to accept equally many counters.
-/

namespace ReplayWindow.Throughput

/-- Why a measurement ends without a result. A clock that measures nothing for a
whole round of its ticks would keep it going for ever. -/
inductive Failure where
  | disagreement (ring shifted : Nat)
  | stalled
  deriving DecidableEq

/-- A window and the time that its passes have taken. -/
structure Timed (W : Type) where
  window : W
  elapsed : Nat := 0
  deriving DecidableEq

/-- Offers a batch between two readings of the clock and counts what was accepted. -/
def Timed.pass {W : Type} [Window W] (t : Timed W) (batch : List Counter) (clock : Clock) :
    Nat × Timed W × Clock :=
  let (start, clock) := clock.read
  let (flags, window) := Window.offerEach t.window batch
  let (stop, clock) := clock.read
  (flags.count true, ⟨window, t.elapsed + (stop - start)⟩, clock)

/-- A measurement under way. `accepted` holds for every batch what the ring and
the shifted window accepted of it. -/
structure Trial where
  ring : Timed Ring
  shifted : Timed Shifted
  next : Counter
  checked : UInt64
  accepted : List (Nat × Nat)
  source : WordSource
  clock : Clock
  deriving DecidableEq

namespace Trial

def start (width : UInt64) (source : WordSource) (clock : Clock) : Trial where
  ring := ⟨Ring.ofWidth width, 0⟩
  shifted := ⟨Shifted.ofWidth width, 0⟩
  next := 0
  checked := 0
  accepted := []
  source := source
  clock := clock

def elapsed (t : Trial) : Nat := t.ring.elapsed + t.shifted.elapsed

/-- Sends one batch through both windows. -/
def step (t : Trial) : Except Failure Trial :=
  let delivery := Link.batch t.source t.next
  let (byRing, ring, clock) := t.ring.pass delivery.counters t.clock
  let (byShifted, shifted, clock) := t.shifted.pass delivery.counters clock
  if byRing = byShifted then
    .ok {
      ring := ring
      shifted := shifted
      next := delivery.next
      checked := t.checked + delivery.counters.length.toUInt64
      accepted := t.accepted ++ [(byRing, byShifted)]
      source := delivery.source
      clock := clock }
  else .error (.disagreement byRing byShifted)

def runFor (limit : Nat) (t : Trial) : Nat → Except Failure Trial
  | 0 => if limit ≤ t.elapsed then .ok t else .error .stalled
  | batches + 1 =>
    if limit ≤ t.elapsed then .ok t
    else
      match t.step with
      | .ok t => t.runFor limit batches
      | .error failure => .error failure

/-- Runs until the limit is reached. As many batches as the clock has ticks go
whole times round the ticks. They measure a nanosecond or more, unless the clock
measures nothing ever again, so `limit` times as many batches are enough. -/
def run (limit : Nat) (t : Trial) : Except Failure Trial :=
  t.runFor limit (limit * t.clock.cycle.length)

end Trial

/-- The result for one width. -/
structure Row where
  width : UInt64
  checked : UInt64
  ringTime : Nat
  shiftedTime : Nat
  accepted : List (Nat × Nat)
  deriving DecidableEq

def Row.line (row : Row) : String :=
  let speed (time : Nat) :=
    Decimal.padLeft 8 ' ' (Decimal.fixed 2 (Clock.megaPerSecond row.checked time))
  "[raw] size " ++ Decimal.padLeft 6 ' ' (toString row.width) ++
    ": ring " ++ speed row.ringTime ++ " Mcounters/sec, reference " ++
    speed row.shiftedTime ++ " Mcounters/sec"

def widths : List UInt64 := [64, 256, 1024, 8192, 65536]

/-- Measures the widths in turn. Every width begins with fresh windows, while the
source of words and the clock go on. -/
def measureEach (limit : Nat) (source : WordSource) (clock : Clock) :
    List UInt64 → Except Failure (List Row)
  | [] => .ok []
  | width :: rest =>
    match (Trial.start width source clock).run limit with
    | .error failure => .error failure
    | .ok t =>
      match measureEach limit t.source t.clock rest with
      | .error failure => .error failure
      | .ok rows =>
        .ok (⟨width, t.checked, t.ring.elapsed, t.shifted.elapsed, t.accepted⟩ :: rows)

def measure (limit : Nat) (source : WordSource) (clock : Clock) : Except Failure (List Row) :=
  measureEach limit source clock widths

end ReplayWindow.Throughput
