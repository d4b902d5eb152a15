import TapeTorus.Process
import TapeTorus.Proofs.Attempts
import TapeTorus.Proofs.StepRange
import TapeTorus.Proofs.TickRange
import TapeTorus.Proofs.Seeding
import TapeTorus.Proofs.Interleaving
import TapeTorus.Proofs.Reachable
import TapeTorus.Proofs.Loops.Code
import TapeTorus.Proofs.Loops.Structured
import TapeTorus.Proofs.Footprint
import TapeTorus.Proofs.Isolation
import TapeTorus.Proofs.OrderIndependence
import TapeTorus.Proofs.PersistentRun
import TapeTorus.Proofs.Writes
import TapeTorus.Proofs.Contents
import TapeTorus.Proofs.Shift
import TapeTorus.Proofs.Symmetry
import TapeTorus.Proofs.Buffers
import TapeTorus.Proofs.Building
import TapeTorus.Proofs.Checkpoint
import TapeTorus.Proofs.Reseeding
import TapeTorus.Proofs.SquareTapes
import TapeTorus.Proofs.Layout
import TapeTorus.Proofs.CodeCounts
import TapeTorus.Proofs.Encoders
import TapeTorus.Proofs.StoredImages
import TapeTorus.Proofs.FrameFiles
import TapeTorus.Proofs.Lines
import TapeTorus.Proofs.Observation
import TapeTorus.Proofs.Observers
import TapeTorus.Proofs.SessionOutcome
import TapeTorus.Proofs.BracketCounts
import TapeTorus.Proofs.BracketPairs
import TapeTorus.Proofs.InstructionTable
import TapeTorus.Proofs.Faults
import TapeTorus.Proofs.Attribution
import TapeTorus.Proofs.HaltedPrograms
import TapeTorus.Proofs.RunLog
import TapeTorus.Proofs.BackJumps
import TapeTorus.Proofs.IterationBound
import TapeTorus.Proofs.Coordinates
import TapeTorus.Proofs.Paths
import TapeTorus.Proofs.Duality
import TapeTorus.Proofs.TickAccounts
import TapeTorus.Proofs.Rendering
import TapeTorus.Proofs.ImageSides
import TapeTorus.Proofs.DroppedSymbols
import TapeTorus.Proofs.GridSizes
import TapeTorus.Proofs.PopulationCounts
import TapeTorus.Proofs.HostEdits
import TapeTorus.Proofs.Slots
import TapeTorus.Proofs.TapeTable
