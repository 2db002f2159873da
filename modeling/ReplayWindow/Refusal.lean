import ReplayWindow.Form

/-!
Why a counter is refused. A remote sender can cause either refusal at will, by
replaying packets, so both are ordinary outcomes.
-/

namespace ReplayWindow

inductive Refusal where
  | duplicate
  | expired
  deriving DecidableEq

namespace Refusal

def name : Refusal → String
  | .duplicate => "DuplicateCounter"
  | .expired => "ExpiredCounter"

def message : Refusal → String
  | .duplicate => "counter was already accepted"
  | .expired => "counter is behind the replay window"

def form (why : Refusal) : Form :=
  .record "ByzantineFault" [.field "error" (.atom why.name)] false

end Refusal

/-- The outcome for one counter. -/
inductive Verdict where
  | ok
  | refused (why : Refusal)
  deriving DecidableEq

end ReplayWindow
