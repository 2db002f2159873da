import ReplayWindow.Gate.Recorder
import ReplayWindow.Traffic.Receiver
import ReplayWindow.Traffic.Throughput
import ReplayWindow.Proofs.Ring.Geometry
import ReplayWindow.Proofs.Ring.Contents
import ReplayWindow.Proofs.Ring.Operations
import ReplayWindow.Proofs.Shifted
import ReplayWindow.Proofs.Shifted.Flags
import ReplayWindow.Proofs.History
import ReplayWindow.Proofs.Refinement
import ReplayWindow.Proofs.RecordingPaths
import ReplayWindow.Proofs.Rewind
import ReplayWindow.Proofs.Ring.Widths
import ReplayWindow.Proofs.Ring.Layout
import ReplayWindow.Proofs.Gate.Threads
import ReplayWindow.Proofs.Gate.OneWinner
import ReplayWindow.Proofs.Gate.Replay
import ReplayWindow.Proofs.Gate.TwoLooks
import ReplayWindow.Proofs.Gate.AnyOrder
import ReplayWindow.Proofs.Gate.Journal
import ReplayWindow.Proofs.Gate.Reentry
import ReplayWindow.Proofs.Gate.Tiling
import ReplayWindow.Proofs.Traffic.Link
import ReplayWindow.Proofs.Traffic.Receiver
import ReplayWindow.Proofs.Checked.Ring
import ReplayWindow.Proofs.Checked.Shifted
import ReplayWindow.Proofs.Checked.Gate
import ReplayWindow.Proofs.Ring.Moves
import ReplayWindow.Proofs.Clock
import ReplayWindow.Proofs.Ring.Positions
import ReplayWindow.Proofs.Traffic.Reports
import ReplayWindow.Proofs.Traffic.Throughput
