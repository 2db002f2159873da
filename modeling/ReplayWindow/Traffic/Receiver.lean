import ReplayWindow.Clock
import ReplayWindow.Decimal
import ReplayWindow.Gate.Application

/-!
A receiver that takes batches of counters through a gate and counts what became
of them. Each counter is inspected first, as it would be before decryption, and
offered to the gate afterwards. After a batch the receiver reports its speed, if
a second or more has gone by since its last report.
-/

namespace ReplayWindow

/-- What became of the counters. -/
structure Tally where
  accepted : UInt64
  duplicates : UInt64
  expired : UInt64
  deriving DecidableEq

def Tally.count (tally : Tally) : Verdict → Tally
  | .ok => { tally with accepted := tally.accepted + 1 }
  | .refused .duplicate => { tally with duplicates := tally.duplicates + 1 }
  | .refused .expired => { tally with expired := tally.expired + 1 }

namespace Receiver

/-- The receiver has a window of 1024 positions and takes no notice of events. -/
def application : Application Tally where
  settings := ⟨1024⟩
  hook _ s := s

/-- The counters that passed the inspection in a span of nanoseconds, and the
highest counter accepted so far. -/
structure Report where
  received : UInt64
  span : Nat
  last : Counter
  deriving DecidableEq

def Report.line (report : Report) : String :=
  "[receiver] " ++ Decimal.fixed 2 (Clock.megaPerSecond report.received report.span) ++
    " Mcounters/sec, last " ++ toString report.last

/-- How far a receiver has come: `received` counters since its last report, which
it made at the time `reported` after its start. -/
structure Progress where
  gate : Gate
  tally : Tally
  received : UInt64 := 0
  reported : Nat := 0
  reports : List Report := []
  deriving DecidableEq

namespace Progress

/-- A counter that fails the inspection counts as a duplicate, whatever the cause. -/
def take (p : Progress) (counter : Counter) : Progress :=
  match p.gate.inspect counter with
  | .refused _ => { p with tally := p.tally.count (.refused .duplicate) }
  | .ok =>
    let (verdict, gate, tally) := application.offer (p.gate, p.tally) counter
    { p with gate := gate, tally := tally.count verdict, received := p.received + 1 }

def takeBatch (p : Progress) (batch : List Counter) : Progress := batch.foldl take p

/-- Reports if a second or more has gone by since the last report. -/
def report (p : Progress) (elapsed : Nat) : Progress :=
  let span := elapsed - p.reported
  if span < Clock.second then p
  else
    { p with
      received := 0
      reported := elapsed
      reports := p.reports ++ [⟨p.received, span, p.gate.last⟩] }

/-- Takes the batches in turn, with a reading of the clock after each of them. -/
def takeEach (p : Progress) (start : Nat) (clock : Clock) : List (List Counter) → Progress
  | [] => p
  | batch :: rest =>
    let (now, clock) := clock.read
    ((p.takeBatch batch).report (now - start)).takeEach start clock rest

end Progress

/-- One run of a receiver. A receiver that is not running takes nothing. -/
structure Session where
  running : Bool
  batches : List (List Counter)
  clock : Clock
  deriving DecidableEq

def listen (gate : Gate) (tally : Tally) (session : Session) : Progress :=
  let (start, clock) := session.clock.read
  let p : Progress := { gate := gate, tally := tally }
  if session.running then p.takeEach start clock session.batches else p

/-- Sessions one after another, with one gate and one tally for all of them. -/
def listenEach (gate : Gate) (tally : Tally) : List Session → List Progress
  | [] => []
  | session :: rest =>
    let p := listen gate tally session
    p :: listenEach p.gate p.tally rest

end Receiver

end ReplayWindow
