import ApuScore.Main
import ApuScore.CommandLine.FileStore
import ApuScore.Audio
import ApuScore.RoundTrip
import ApuScore.Proofs.Bytes
import ApuScore.Proofs.Timeline
import ApuScore.Proofs.Waits
import ApuScore.Proofs.Codec
import ApuScore.Proofs.BitFields
import ApuScore.Proofs.Bounds
import ApuScore.Proofs.Disassembly
import ApuScore.Proofs.Reachable
import ApuScore.Proofs.Reassembly
import ApuScore.Proofs.Scribing
import ApuScore.Proofs.Grammar
import ApuScore.Proofs.Acceptance
import ApuScore.Proofs.Runs
import ApuScore.Proofs.FrameRuns
import ApuScore.Proofs.Settling
import ApuScore.Proofs.Hearing
import ApuScore.Proofs.Mirroring
import ApuScore.Proofs.FirstRun
import ApuScore.Proofs.Cycling
import ApuScore.Proofs.Pruning
import ApuScore.Proofs.Repeats
import ApuScore.Proofs.Compaction
import ApuScore.Proofs.Cleaning
import ApuScore.Proofs.Trails
import ApuScore.Proofs.Regrouping
import ApuScore.Proofs.Cores
import ApuScore.Proofs.Acting
import ApuScore.Proofs.Lengths
import ApuScore.Proofs.Tones
import ApuScore.Proofs.Sheets
import ApuScore.Proofs.Rates
import ApuScore.Proofs.Totality
import ApuScore.Proofs.Isolation
import ApuScore.Proofs.Gating
import ApuScore.Proofs.Transcription
import ApuScore.Proofs.Canonical
import ApuScore.Proofs.Targets
import ApuScore.Proofs.Atoms
import ApuScore.Proofs.Upkeep
import ApuScore.Proofs.Refusals
import ApuScore.Proofs.Stability
import ApuScore.Proofs.Meaning
import ApuScore.Proofs.Holding
import ApuScore.Proofs.FrameEnds
import ApuScore.Proofs.Excerpts
import ApuScore.Proofs.Recleaning
import ApuScore.Proofs.Sequencing
import ApuScore.Proofs.Gliding
import ApuScore.Proofs.Cuts
import ApuScore.Proofs.Tags
import ApuScore.Proofs.Decaying
import ApuScore.Proofs.Windows
import ApuScore.Proofs.Blending
import ApuScore.Proofs.Inflating
