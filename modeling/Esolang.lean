import Esolang.Main
import Esolang.Proofs.Control.Block
import Esolang.Proofs.Control.Layout
import Esolang.Proofs.Text.Brackets
import Esolang.Proofs.Text.Lines
import Esolang.Proofs.Tape.Pairing
import Esolang.Proofs.Queue.Contents
import Esolang.Proofs.Queue.Decoding
import Esolang.Proofs.Queue.Structured
import Esolang.Proofs.Tape.Structured
import Esolang.Proofs.Ledger.Alignment
import Esolang.Proofs.Troop.Layout
import Esolang.Proofs.Troop.Reachable
import Esolang.Proofs.Troop.Steps
import Esolang.Proofs.Ledger.Circle
import Esolang.Proofs.Tape.Matching
import Esolang.Proofs.Tape.Jumping
import Esolang.Proofs.Protocol
import Esolang.Proofs.Invariant
import Esolang.Proofs.Grid.Instructions
import Esolang.Proofs.Grid.Bounds
import Esolang.Proofs.Grid.Division
import Esolang.Proofs.Ledger.Atomicity
import Esolang.Proofs.Ledger.Reading
import Esolang.Proofs.Ledger.Comments
import Esolang.Proofs.Ledger.Blanks
import Esolang.Proofs.Ledger.Rotation
import Esolang.Proofs.Ledger.Printing
import Esolang.Proofs.Stream.Decoding
import Esolang.Proofs.Stream.Forward
import Esolang.Proofs.Stream.Pending
import Esolang.Proofs.Grid.Failure
import Esolang.Proofs.Queue.Failure
import Esolang.Proofs.Tape.Failure
import Esolang.Proofs.Troop.Failure
import Esolang.Proofs.Language.Loading
import Esolang.Proofs.Ledger.Emission
import Esolang.Proofs.Language.History
import Esolang.Proofs.Language.Failing
import Esolang.Proofs.Course
import Esolang.Proofs.Language.Halting
import Esolang.Proofs.Grid.Underflow
import Esolang.Proofs.Queue.Conservation
import Esolang.Proofs.Ledger.Ports
import Esolang.Proofs.Ledger.Requests
import Esolang.Proofs.Ledger.Turns
import Esolang.Proofs.Ledger.Handover
import Esolang.Proofs.Ledger.OutputDraw
import Esolang.Proofs.Troop.Bananas
import Esolang.Proofs.Troop.Symmetry
import Esolang.Proofs.Troop.Sleepers
import Esolang.Proofs.Troop.Marks
import Esolang.Proofs.Troop.Display
import Esolang.Proofs.Text.Numeral
import Esolang.Proofs.Troop.Grammar
import Esolang.Proofs.Ledger.Lone
import Esolang.Proofs.Queue.Linking
import Esolang.Proofs.Tape.Unmatched
import Esolang.Proofs.Tape.Steps
import Esolang.Proofs.Tape.Writes
import Esolang.Proofs.Tape.Cells
import Esolang.Proofs.Tape.Snapshot
import Esolang.Proofs.Tape.Widths
import Esolang.Proofs.Grid.Strings
import Esolang.Proofs.Grid.Rounding
import Esolang.Proofs.Grid.Layout
import Esolang.Proofs.Grid.Memory
import Esolang.Proofs.Grid.Printer
import Esolang.Proofs.Queue.Numerals
import Esolang.Proofs.Queue.Echo
import Esolang.Proofs.Troop.Gifts
import Esolang.Proofs.Troop.Influence
import Esolang.Proofs.Ledger.Unobserved
import Esolang.Proofs.Language.Selection
import Esolang.Proofs.Tame
import Esolang.Proofs.Stream.Rest
import Esolang.Proofs.Language.Tame
import Esolang.Proofs.Language.Streams
import Esolang.Proofs.CommandLine.Jobs
import Esolang.Proofs.CommandLine.InTurn
import Esolang.Proofs.CommandLine.SharedInput
import Esolang.Proofs.Troop.Listing
import Esolang.Proofs.Ledger.StartValues
import Esolang.Proofs.Stream.Progress
