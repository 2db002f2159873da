import ReplayWindow.Counter
import ReplayWindow.Refusal

/-!
What a gate reports about its counters, for logs and metrics.
-/

namespace ReplayWindow

/-- `advanced` tells the highest accepted counter before and after a move of the
window, and `rewound` the highest one before a rewind. -/
inductive Event where
  | accepted (counter : Counter)
  | advanced (before after : Counter)
  | duplicate (counter : Counter)
  | expired (counter : Counter)
  | rewound (last : Counter)
  deriving DecidableEq

namespace Event

def refused (counter : Counter) : Refusal → Event
  | .duplicate => .duplicate counter
  | .expired => .expired counter

def form : Event → Form
  | .accepted counter => .tuple "Accepted" [.ofWord counter]
  | .advanced before after =>
    .record "WindowAdvanced" [.field "from" (.ofWord before), .field "to" (.ofWord after)] false
  | .duplicate counter => .tuple "RejectedDuplicate" [.ofWord counter]
  | .expired counter => .tuple "RejectedExpired" [.ofWord counter]
  | .rewound last => .record "Reset" [.field "last" (.ofWord last)] false

end Event

end ReplayWindow
