import NicRecorder.Lib.Runs
import NicRecorder.Theorems.RoundTrip
import NicRecorder.Capture
import NicRecorder.Lemmas.Invariant
import NicRecorder.Lemmas.AllocSteps
import NicRecorder.Lemmas.CaptureRuns
import NicRecorder.Lemmas.Progress
import NicRecorder.Theorems.Boundaries
import NicRecorder.Theorems.Phantom
import NicRecorder.Theorems.Completeness
import NicRecorder.Theorems.PublishedOnce
import NicRecorder.Lemmas.Moves
import NicRecorder.Lemmas.Shape
import NicRecorder.Lemmas.Detect
import NicRecorder.Theorems.StallDetection
import NicRecorder.Lemmas.Safe
import NicRecorder.Theorems.Intact
import NicRecorder.Lemmas.Drain
import NicRecorder.Theorems.NoneDropped
import NicRecorder.Theorems.EndMarker
import NicRecorder.Lib.Decimal
import NicRecorder.Numbering
import NicRecorder.Theorems.Numbering
import NicRecorder.Recorder
import NicRecorder.Lemmas.Handover
import NicRecorder.Theorems.Refinement
import NicRecorder.Lib.Loop
import NicRecorder.Lib.Pcap
import NicRecorder.Lib.Scan
import NicRecorder.Lib.AddrSpace
import NicRecorder.Tools
import NicRecorder.Lemmas.Files
import NicRecorder.Lemmas.Tools
import NicRecorder.Lemmas.Walk
import NicRecorder.Theorems.Extraction
import NicRecorder.Placement
import NicRecorder.Theorems.Placement
import NicRecorder.Theorems.PastEnd
import NicRecorder.Theorems.Descriptors
import NicRecorder.DiskTable
import NicRecorder.Theorems.DiskTable
import NicRecorder.Theorems.PathFit
import NicRecorder.Theorems.Window
import NicRecorder.Theorems.Stop
import NicRecorder.Lemmas.Machine
import NicRecorder.Theorems.Geometry
import NicRecorder.Mapping
import NicRecorder.Lemmas.Mapping
import NicRecorder.Theorems.Mapping
import NicRecorder.Theorems.Pointers
import NicRecorder.Lemmas.Contents
import NicRecorder.Lemmas.Saving
import NicRecorder.Counting
import NicRecorder.Lemmas.Finishing
import NicRecorder.Theorems.Counting
import NicRecorder.Theorems.Tally
import NicRecorder.Handshake
import NicRecorder.Theorems.Handshake
import NicRecorder.Statistics
import NicRecorder.Theorems.Liveness
import NicRecorder.Theorems.Statistics
import NicRecorder.Readers
import NicRecorder.Theorems.Readers
