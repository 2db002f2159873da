/-!
Packet counters. A sender numbers its packets with 64-bit words, and a window
over these numbers is measured by how far a counter lies behind the highest one.
-/

namespace ReplayWindow

abbrev Counter := UInt64

namespace Counter

/-- The counter lies `width` positions or more behind `last`. A counter ahead of
`last` does not lie behind it. -/
def isBehind (width : UInt64) (last counter : Counter) : Bool :=
  counter ≤ last && width ≤ last - counter

/-- The counter `distance` positions behind, or zero where there is none. -/
def back (counter : Counter) (distance : UInt64) : Counter :=
  if distance ≤ counter then counter - distance else 0

end Counter

end ReplayWindow
