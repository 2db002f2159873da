/-!
A clock in nanoseconds whose course is given in advance. Each reading moves it
by the next tick, and the ticks come round again when they are used up. A clock
without ticks stands still.
-/

namespace ReplayWindow

structure Clock where
  now : Nat
  cycle : List Nat
  ahead : List Nat
  deriving DecidableEq

namespace Clock

def ofTicks (ticks : List Nat) : Clock := ⟨0, ticks, ticks⟩

/-- The time after the next tick. -/
def read (clock : Clock) : Nat × Clock :=
  match clock.ahead, clock.cycle with
  | tick :: rest, _ => (clock.now + tick, { clock with now := clock.now + tick, ahead := rest })
  | [], tick :: rest => (clock.now + tick, { clock with now := clock.now + tick, ahead := rest })
  | [], [] => (clock.now, clock)

/-- One second in nanoseconds. -/
def second : Nat := 1000000000

/-- A span in seconds: the whole seconds, and to them the nanoseconds that remain. -/
def seconds (span : Nat) : Float := (span / second).toFloat + (span % second).toFloat / 1e9

/-- Counters per second, in millions. -/
def megaPerSecond (count : UInt64) (span : Nat) : Float := count.toFloat / seconds span / 1e6

end Clock

end ReplayWindow
