import ConsHeap.Cell
import ConsHeap.Console.Arguments
import ConsHeap.Console.Command
import ConsHeap.Console.Program
import ConsHeap.Console.Session
import ConsHeap.Console.Trouble
import ConsHeap.Failure
import ConsHeap.Handle
import ConsHeap.Heap.Audit
import ConsHeap.Heap.Basic
import ConsHeap.Heap.Cycle
import ConsHeap.Heap.Listed
import ConsHeap.Heap.Rooting
import ConsHeap.Heap.Shading
import ConsHeap.Kinds
import ConsHeap.Ledger
import ConsHeap.Main
import ConsHeap.Memory.Basic
import ConsHeap.Memory.Operation
import ConsHeap.Names
import ConsHeap.Operand
import ConsHeap.Paging.Block
import ConsHeap.Paging.Page
import ConsHeap.Paging.Pool
import ConsHeap.Proofs.Alike.Growth
import ConsHeap.Proofs.Alike.Heaps
import ConsHeap.Proofs.Alike.Hosts
import ConsHeap.Proofs.Alike.Ledgers
import ConsHeap.Proofs.Alike.Memories
import ConsHeap.Proofs.Alike.Moves
import ConsHeap.Proofs.Alike.Outcomes
import ConsHeap.Proofs.Alike.Printing
import ConsHeap.Proofs.Alike.Rooting
import ConsHeap.Proofs.Alike.Tables
import ConsHeap.Proofs.Alike.Values
import ConsHeap.Proofs.Auditing
import ConsHeap.Proofs.Boundaries
import ConsHeap.Proofs.Census
import ConsHeap.Proofs.Colors
import ConsHeap.Proofs.Contents
import ConsHeap.Proofs.Counts
import ConsHeap.Proofs.Ends
import ConsHeap.Proofs.Exactness
import ConsHeap.Proofs.Faults
import ConsHeap.Proofs.Heap.Cycle
import ConsHeap.Proofs.Heap.Refusals
import ConsHeap.Proofs.Heap.Rooting
import ConsHeap.Proofs.Heap.Shading
import ConsHeap.Proofs.Increments
import ConsHeap.Proofs.Integrity
import ConsHeap.Proofs.Ledger
import ConsHeap.Proofs.Ledger.Balance
import ConsHeap.Proofs.Ledger.Deaths
import ConsHeap.Proofs.Ledger.Exact
import ConsHeap.Proofs.Memory.Counts
import ConsHeap.Proofs.Memory.Effects
import ConsHeap.Proofs.Memory.Runs
import ConsHeap.Proofs.Names
import ConsHeap.Proofs.Numbering
import ConsHeap.Proofs.Operands
import ConsHeap.Proofs.Outcome
import ConsHeap.Proofs.Outline
import ConsHeap.Proofs.Pages
import ConsHeap.Proofs.Paging.Charges
import ConsHeap.Proofs.Printing
import ConsHeap.Proofs.Queries
import ConsHeap.Proofs.Refinement
import ConsHeap.Proofs.Refusal
import ConsHeap.Proofs.Reuse
import ConsHeap.Proofs.RoundTrip
import ConsHeap.Proofs.Safety
import ConsHeap.Proofs.Scanning
import ConsHeap.Proofs.Script.Heaps
import ConsHeap.Proofs.Script.Hosts
import ConsHeap.Proofs.Script.Refinement
import ConsHeap.Proofs.Script.Runs
import ConsHeap.Proofs.Seen
import ConsHeap.Proofs.Session.Bindings
import ConsHeap.Proofs.Session.Drivers
import ConsHeap.Proofs.Session.Freshness
import ConsHeap.Proofs.Session.Holdings
import ConsHeap.Proofs.Session.Sound
import ConsHeap.Proofs.Sizes
import ConsHeap.Proofs.Staleness
import ConsHeap.Proofs.Storage
import ConsHeap.Proofs.Tables.Cells
import ConsHeap.Proofs.Tables.ConsTable
import ConsHeap.Proofs.Tables.Enrolment
import ConsHeap.Proofs.Tables.Growth
import ConsHeap.Proofs.Tables.Relocations
import ConsHeap.Proofs.Tables.Returns
import ConsHeap.Proofs.Tables.Sound
import ConsHeap.Proofs.Tables.Transfer
import ConsHeap.Proofs.Tables.Zones
import ConsHeap.Proofs.View.Ages
import ConsHeap.Proofs.View.Basic
import ConsHeap.Proofs.View.Coloring
import ConsHeap.Proofs.View.Directory
import ConsHeap.Proofs.View.Holders
import ConsHeap.Proofs.View.Marking
import ConsHeap.Proofs.View.Population
import ConsHeap.Proofs.View.Safe
import ConsHeap.Proofs.Work
import ConsHeap.Script.Command
import ConsHeap.Script.Host
import ConsHeap.Sizing
import ConsHeap.Storage
import ConsHeap.Tables.Basic
import ConsHeap.Tables.Bench
import ConsHeap.Tables.Exchange
import ConsHeap.Tables.Moves
import ConsHeap.Tag
import ConsHeap.Text.Blank
import ConsHeap.Text.Escaped
import ConsHeap.Text.Lines
import ConsHeap.Text.Numeral
import ConsHeap.Text.Quoted
import ConsHeap.Value
