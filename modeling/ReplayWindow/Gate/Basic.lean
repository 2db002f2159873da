import ReplayWindow.Event
import ReplayWindow.Ring.Basic
import ReplayWindow.Settings

/-!
The gate of one receive path: a ring window behind a lock. A counter is looked
at twice, first as soon as its packet arrives and again, with a record of it,
when the packet has proved authentic. Every call is one critical section. The
events it owes are fixed inside the section and handed over after it, when the
lock is free again.
-/

namespace ReplayWindow

structure Gate where
  window : Ring
  deriving DecidableEq

namespace Gate

/-- What a critical section leaves behind: the answer to its caller, the events
that are still to be handed over, in their order, and the gate. -/
structure Reply (α : Type) where
  answer : α
  events : List Event
  gate : Gate
  deriving DecidableEq

def Reply.map {α β : Type} (f : α → β) (reply : Reply α) : Reply β :=
  { reply with answer := f reply.answer }

def ofWidth (width : UInt64) : Gate := ⟨Ring.ofWidth width⟩

def ofSettings (settings : Settings) : Gate := ofWidth settings.windowWidth

instance : Inhabited Gate := ⟨ofSettings default⟩

def width (g : Gate) : UInt64 := g.window.width

/-- The highest counter accepted so far, or zero. -/
def last (g : Gate) : Counter := g.window.last

/-- Would the counter be accepted now, and if not, why? -/
def inspect (g : Gate) (counter : Counter) : Verdict :=
  if g.window.accepts counter then .ok
  else if g.window.isExpired counter then .refused .expired
  else .refused .duplicate

/-- Looks at the counter again and records it if it is acceptable. A move of the
window is reported before the acceptance that caused it. -/
def offer (g : Gate) (counter : Counter) : Reply Verdict :=
  match g.inspect counter with
  | .refused why => ⟨.refused why, [.refused counter why], g⟩
  | .ok =>
    let moved := if g.last < counter then [Event.advanced g.last counter] else []
    ⟨.ok, moved ++ [.accepted counter], ⟨g.window.record counter⟩⟩

/-- Forgets every counter, as when the session changes to a new key. -/
def rewind (g : Gate) : Reply Unit := ⟨(), [.rewound g.last], ⟨g.window.reset⟩⟩

/-- What a thread can ask of a gate that it shares with others. -/
inductive Call where
  | inspect (counter : Counter)
  | offer (counter : Counter)
  | rewind
  deriving DecidableEq

inductive Answer where
  | verdict (verdict : Verdict)
  | done
  deriving DecidableEq

/-- One critical section. -/
def perform (g : Gate) : Call → Reply Answer
  | .inspect counter => ⟨.verdict (g.inspect counter), [], g⟩
  | .offer counter => (g.offer counter).map .verdict
  | .rewind => g.rewind.map fun _ => .done

/-- Critical sections one after another, each on the gate that the one before
has left. Calls of several threads in any interleaving are such a sequence. -/
def performEach (g : Gate) : List Call → List (Reply Answer) × Gate
  | [] => ([], g)
  | call :: rest =>
    let reply := g.perform call
    let (replies, g) := reply.gate.performEach rest
    (reply :: replies, g)

def form (g : Gate) : Form :=
  .tuple "ReplayGuard"
    [.record "Mutex" [.field "data" g.window.form, .field "poisoned" (.ofBool false)] true]

end Gate

end ReplayWindow
