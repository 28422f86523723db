import DiscPatch.Main
import DiscPatch.Patch.Move
import DiscPatch.Proofs.Command.Lossless
import DiscPatch.Proofs.Command.SetLayout
import DiscPatch.Proofs.Command.SetRoundTrip
import DiscPatch.Proofs.Command.SetOffsets
import DiscPatch.Proofs.Command.SetSafety
import DiscPatch.Proofs.Assembly.References
import DiscPatch.Proofs.Relocation
import DiscPatch.Proofs.Patch.Relocation
import DiscPatch.Proofs.Patch.Derivation
import DiscPatch.Proofs.Patch.MergedEdits
import DiscPatch.Proofs.Patch.LabelReference
import DiscPatch.Proofs.Description.RoundTrip
import DiscPatch.Proofs.Command.EventRoundTrip
import DiscPatch.Proofs.Patch.SectorMoves
import DiscPatch.Proofs.Description.Chaining
import DiscPatch.Proofs.Patch.Calls
import DiscPatch.Proofs.Patch.VariableNames
import DiscPatch.Proofs.Patch.Invariant
import DiscPatch.Proofs.Description.Reading
import DiscPatch.Proofs.Description.Addresses
import DiscPatch.Proofs.Description.Lifecycle
import DiscPatch.Proofs.Assembly.Literal
import DiscPatch.Proofs.Patch.History
import DiscPatch.Proofs.Patch.Batches
import DiscPatch.Proofs.Description.Updates
import DiscPatch.Proofs.Description.Headers
import DiscPatch.Proofs.Command.MaximalRun
import DiscPatch.Proofs.Edit.SectorFile
import DiscPatch.Proofs.CommandLine.Apply
import DiscPatch.Proofs.Assembly.Size
import DiscPatch.Proofs.Assembly.AlignedWords
import DiscPatch.Proofs.Patch.RepeatedUpdate
import DiscPatch.Proofs.Description.LabelledHex
import DiscPatch.Proofs.Assembly.Sums
import DiscPatch.Proofs.Description.Directory
import DiscPatch.Proofs.Description.HexLayout
import DiscPatch.Proofs.Description.Streams
import DiscPatch.Proofs.Bytes.HexText
import DiscPatch.Proofs.Command.Display
