import ReplayWindow.Form

/-!
Settings of a replay gate. The window width is fixed when the gate is made, so
changed settings only reach gates that are made afterwards.
-/

namespace ReplayWindow

/-- The number of counter positions that are remembered one by one. A width of
zero only lets strictly increasing counters through. -/
structure Settings where
  windowWidth : UInt64
  deriving DecidableEq

namespace Settings

/-- Four blocks of 64 positions. -/
def defaultWidth : UInt64 := 4 * 64

instance : Inhabited Settings := ⟨⟨defaultWidth⟩⟩

def form (s : Settings) : Form :=
  .record "Settings" [.field "window_size" (.ofWord s.windowWidth)] false

end Settings

end ReplayWindow
