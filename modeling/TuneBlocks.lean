import TuneBlocks.Keyed
import TuneBlocks.Marks
import TuneBlocks.Text.Blank
import TuneBlocks.Text.Unprintable
import TuneBlocks.Text.Quoted
import TuneBlocks.Decimal.Shortest
import TuneBlocks.Decimal.Format
import TuneBlocks.Decimal.Read
import TuneBlocks.Json.Basic
import TuneBlocks.Json.Writer
import TuneBlocks.Json.Reader
import TuneBlocks.Value
import TuneBlocks.Operand
import TuneBlocks.Program.Instruction
import TuneBlocks.Program.Basic
import TuneBlocks.Program.Check
import TuneBlocks.Program.Reachable
import TuneBlocks.Graph.Basic
import TuneBlocks.Graph.Document
import TuneBlocks.Thread.Memory
import TuneBlocks.Thread.Context
import TuneBlocks.Lowering.Draft
import TuneBlocks.Lowering.Chain
import TuneBlocks.Lowering.Loop
import TuneBlocks.Lowering.Compile
import TuneBlocks.Blocks.Registry
import TuneBlocks.Sink
import TuneBlocks.Blocks.Core
import TuneBlocks.Blocks.Music
import TuneBlocks.Blocks.Standard
import TuneBlocks.Thread.Slice
import TuneBlocks.Scheduler
import TuneBlocks.Session
import TuneBlocks.Command.Arguments
import TuneBlocks.Command.Files
import TuneBlocks.Command.Perform
import TuneBlocks.Main
import TuneBlocks.Proofs.Draft
import TuneBlocks.Proofs.Outline
import TuneBlocks.Proofs.Code
import TuneBlocks.Proofs.WellFormed
import TuneBlocks.Proofs.Compiled
import TuneBlocks.Proofs.Slices
import TuneBlocks.Proofs.Effects
import TuneBlocks.Proofs.Steps
import TuneBlocks.Proofs.Walk
import TuneBlocks.Proofs.Meaning
import TuneBlocks.Proofs.Pass
import TuneBlocks.Proofs.Soundness
import TuneBlocks.Proofs.Isolation
import TuneBlocks.Proofs.Breakpoints
import TuneBlocks.Proofs.Roster
import TuneBlocks.Proofs.Conservation
import TuneBlocks.Proofs.FloatOrder
import TuneBlocks.Proofs.Waking
import TuneBlocks.Proofs.Following
import TuneBlocks.Proofs.Heard
import TuneBlocks.Proofs.Performance
import TuneBlocks.Proofs.Journal
import TuneBlocks.Proofs.Lifecycle
import TuneBlocks.Proofs.SharedSink
import TuneBlocks.Proofs.Reading
import TuneBlocks.Proofs.Documents
import TuneBlocks.Proofs.Modularity
import TuneBlocks.Proofs.Cycles
import TuneBlocks.Proofs.Cuts
import TuneBlocks.Proofs.Mirrors
import TuneBlocks.Proofs.Pulses
import TuneBlocks.Proofs.SingleStep
import TuneBlocks.Proofs.Dispatches
import TuneBlocks.Proofs.Arrivals
import TuneBlocks.Proofs.RunCommand
import TuneBlocks.Proofs.Agreement
import TuneBlocks.Proofs.Debugging
import TuneBlocks.Proofs.NoteLoop
import TuneBlocks.Proofs.NoteTiming
import TuneBlocks.Proofs.Reachability
import TuneBlocks.Proofs.WholeDoubles
import TuneBlocks.Proofs.LoopCode
import TuneBlocks.Proofs.Trails
import TuneBlocks.Proofs.CountedLoop
import TuneBlocks.Proofs.ControlFlow
import TuneBlocks.Proofs.Roots
import TuneBlocks.Proofs.EndlessLoop
import TuneBlocks.Proofs.Splicing
import TuneBlocks.Proofs.Brackets
import TuneBlocks.Proofs.Origins
import TuneBlocks.Proofs.Violations
import TuneBlocks.Proofs.Trees
import TuneBlocks.Proofs.Chronology
import TuneBlocks.Proofs.Nesting
import TuneBlocks.Proofs.Registration
import TuneBlocks.Proofs.Truncation
import TuneBlocks.Proofs.Labels
import TuneBlocks.Proofs.BranchEquality
import TuneBlocks.Proofs.Quotation
import TuneBlocks.Proofs.ShortestDecimals
import TuneBlocks.Proofs.NumberTexts
import TuneBlocks.Proofs.Listings
import TuneBlocks.Proofs.Recording
