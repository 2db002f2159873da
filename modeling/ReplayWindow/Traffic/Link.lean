import ReplayWindow.Counter
import ReplayWindow.Traffic.WordSource

/-!
A link that loses, repeats and delays packets. Each random word decides the fate
of one packet, and the counters that come out are gathered in batches. A late
counter is at most 2047 positions behind the next one in order.
-/

namespace ReplayWindow.Link

/-- What one word lets out of the link, and the next counter in order. -/
def deliver (word : UInt32) (next : Counter) : Option Counter × Counter :=
  match (word % 32).toNat with
  | 0 => (none, next + 1)
  | 1 => (some (next.back 1), next)
  | 2 => (some (next.back ((word >>> 5).toUInt64 % 2048)), next)
  | _ => (some next, next + 1)

/-- What a link has let out, and how it goes on. -/
structure Delivery where
  counters : List Counter
  next : Counter
  source : WordSource
  deriving DecidableEq

/-- The counters that come out for a number of words. -/
def deliverEach (source : WordSource) (next : Counter) : Nat → Delivery
  | 0 => ⟨[], next, source⟩
  | count + 1 =>
    let (word, source) := source.draw
    let (out, next) := deliver word next
    let rest := deliverEach source next count
    { rest with counters := out.toList ++ rest.counters }

/-- The number of words that make a batch. -/
def batchWords : Nat := 4096

def batch (source : WordSource) (next : Counter) : Delivery := deliverEach source next batchWords

/-- Successive batches, each going on where the one before has ended. -/
def batches (source : WordSource) (next : Counter) : Nat → List Delivery
  | 0 => []
  | count + 1 =>
    let first := batch source next
    first :: batches first.source first.next count

/-- The batches of a sender that starts at counter zero, until its other end has
taken `count` of them and closes. A sender that is not running sends nothing. -/
def sent (running : Bool) (source : WordSource) (count : Nat) : List (List Counter) :=
  if running then (batches source 0 count).map (·.counters) else []

end ReplayWindow.Link
