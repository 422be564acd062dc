import ScriptMachine.Code.Assembly
import ScriptMachine.Code.Builder
import ScriptMachine.Code.Fusion
import ScriptMachine.Code.Instruction
import ScriptMachine.Code.Opcode
import ScriptMachine.Code.Pattern
import ScriptMachine.Code.Target
import ScriptMachine.Code.Unit
import ScriptMachine.Document.Basic
import ScriptMachine.Document.Json
import ScriptMachine.Document.Toml
import ScriptMachine.Document.Toml.Table
import ScriptMachine.Document.Toml.Word
import ScriptMachine.Document.Unquoted
import ScriptMachine.Document.Yaml
import ScriptMachine.Document.Yaml.Cursor
import ScriptMachine.Document.Yaml.Layout
import ScriptMachine.Document.Yaml.Scalar
import ScriptMachine.Document.Yaml.Token
import ScriptMachine.Effect
import ScriptMachine.Exec.Action
import ScriptMachine.Exec.Context
import ScriptMachine.Exec.Instruction
import ScriptMachine.Globals
import ScriptMachine.Heap.Basic
import ScriptMachine.Heap.Children
import ScriptMachine.Heap.Copy
import ScriptMachine.Heap.Dispose
import ScriptMachine.Heap.Frame
import ScriptMachine.Heap.Iteration
import ScriptMachine.Heap.Object
import ScriptMachine.Heap.Render
import ScriptMachine.Host
import ScriptMachine.Machine.Basic
import ScriptMachine.Machine.Journal
import ScriptMachine.Machine.Load
import ScriptMachine.Machine.Routing
import ScriptMachine.Machine.Run
import ScriptMachine.Machine.Schedule
import ScriptMachine.Machine.Transfer
import ScriptMachine.Main
import ScriptMachine.Number.Arithmetic
import ScriptMachine.Number.Decimal
import ScriptMachine.Number.Double
import ScriptMachine.Number.Reading
import ScriptMachine.Number.Rounding
import ScriptMachine.Number.Word
import ScriptMachine.Order.SortedMap
import ScriptMachine.Pool
import ScriptMachine.Program.Basic
import ScriptMachine.Program.Decode
import ScriptMachine.Program.Encode
import ScriptMachine.Program.File
import ScriptMachine.Proofs.Code.Folding
import ScriptMachine.Proofs.Code.Jumps
import ScriptMachine.Proofs.Code.Selection
import ScriptMachine.Proofs.Code.Steps
import ScriptMachine.Proofs.Document.Json
import ScriptMachine.Proofs.Effect
import ScriptMachine.Proofs.Exec.Arithmetic
import ScriptMachine.Proofs.Exec.Arity
import ScriptMachine.Proofs.Exec.Calm
import ScriptMachine.Proofs.Exec.Conservation
import ScriptMachine.Proofs.Exec.Deferred
import ScriptMachine.Proofs.Exec.Flows
import ScriptMachine.Proofs.Exec.Folding
import ScriptMachine.Proofs.Exec.Ownership
import ScriptMachine.Proofs.Exec.Reading
import ScriptMachine.Proofs.Exec.Recompiled
import ScriptMachine.Proofs.Exec.References
import ScriptMachine.Proofs.Exec.Shadowing
import ScriptMachine.Proofs.Exec.Underflow
import ScriptMachine.Proofs.Globals
import ScriptMachine.Proofs.Heap.Appending
import ScriptMachine.Proofs.Heap.Conservation
import ScriptMachine.Proofs.Heap.Copies
import ScriptMachine.Proofs.Heap.CopyTrees
import ScriptMachine.Proofs.Heap.DeepCopy
import ScriptMachine.Proofs.Heap.Disposal
import ScriptMachine.Proofs.Heap.Edits
import ScriptMachine.Proofs.Heap.Equality
import ScriptMachine.Proofs.Heap.Evolution
import ScriptMachine.Proofs.Heap.Freed
import ScriptMachine.Proofs.Heap.Generations
import ScriptMachine.Proofs.Heap.Generators
import ScriptMachine.Proofs.Heap.Histories
import ScriptMachine.Proofs.Heap.Operations
import ScriptMachine.Proofs.Heap.Orderly
import ScriptMachine.Proofs.Heap.Ownership
import ScriptMachine.Proofs.Heap.Packing
import ScriptMachine.Proofs.Heap.Recompiled
import ScriptMachine.Proofs.Heap.Sound
import ScriptMachine.Proofs.Heap.WalkLog
import ScriptMachine.Proofs.Heap.Walks
import ScriptMachine.Proofs.Heap.Writes
import ScriptMachine.Proofs.Ledger
import ScriptMachine.Proofs.Machine.Arguments
import ScriptMachine.Proofs.Machine.Bindings
import ScriptMachine.Proofs.Machine.Calls
import ScriptMachine.Proofs.Machine.Channel
import ScriptMachine.Proofs.Machine.Cursors
import ScriptMachine.Proofs.Machine.Deals
import ScriptMachine.Proofs.Machine.Deferred
import ScriptMachine.Proofs.Machine.Departures
import ScriptMachine.Proofs.Machine.Driving
import ScriptMachine.Proofs.Machine.Fuel
import ScriptMachine.Proofs.Machine.Fusion
import ScriptMachine.Proofs.Machine.Generators
import ScriptMachine.Proofs.Machine.Guarded
import ScriptMachine.Proofs.Machine.Holdings
import ScriptMachine.Proofs.Machine.Leaks
import ScriptMachine.Proofs.Machine.Linked
import ScriptMachine.Proofs.Machine.Literals
import ScriptMachine.Proofs.Machine.Lives
import ScriptMachine.Proofs.Machine.Loading
import ScriptMachine.Proofs.Machine.Modes
import ScriptMachine.Proofs.Machine.Moves
import ScriptMachine.Proofs.Machine.Ownership
import ScriptMachine.Proofs.Machine.Panics
import ScriptMachine.Proofs.Machine.Recompiled
import ScriptMachine.Proofs.Machine.References
import ScriptMachine.Proofs.Machine.Returns
import ScriptMachine.Proofs.Machine.Routing
import ScriptMachine.Proofs.Machine.Schedule
import ScriptMachine.Proofs.Machine.Settings
import ScriptMachine.Proofs.Machine.Shifts
import ScriptMachine.Proofs.Machine.Slices
import ScriptMachine.Proofs.Machine.System
import ScriptMachine.Proofs.Machine.Teardown
import ScriptMachine.Proofs.Machine.Transfers
import ScriptMachine.Proofs.Machine.Turns
import ScriptMachine.Proofs.Machine.Upkeep
import ScriptMachine.Proofs.Number.Reading
import ScriptMachine.Proofs.Number.Rounding
import ScriptMachine.Proofs.Order.SortedMap
import ScriptMachine.Proofs.Pool
import ScriptMachine.Proofs.Pool.Buckets
import ScriptMachine.Proofs.Program.Instructions
import ScriptMachine.Proofs.Runner.Bindings
import ScriptMachine.Proofs.Runner.Slices
import ScriptMachine.Proofs.Structure.Appending
import ScriptMachine.Proofs.Structure.Cells
import ScriptMachine.Proofs.Structure.Dense
import ScriptMachine.Proofs.Structure.Insertion
import ScriptMachine.Proofs.Structure.Layouts
import ScriptMachine.Proofs.Structure.Likeness
import ScriptMachine.Proofs.Structure.Limits
import ScriptMachine.Proofs.Structure.Navigation
import ScriptMachine.Proofs.Structure.Neighbours
import ScriptMachine.Proofs.Structure.Operations
import ScriptMachine.Proofs.Structure.Owners
import ScriptMachine.Proofs.Structure.Pooling
import ScriptMachine.Proofs.Structure.Refinement
import ScriptMachine.Proofs.Structure.Ring
import ScriptMachine.Proofs.Structure.Room
import ScriptMachine.Proofs.Structure.Sound
import ScriptMachine.Proofs.Structure.Storage
import ScriptMachine.Proofs.Structure.Table
import ScriptMachine.Proofs.Structure.Workshop
import ScriptMachine.Proofs.Value.Comparison
import ScriptMachine.Proofs.Value.KeyOrder
import ScriptMachine.Proofs.Value.Light
import ScriptMachine.Proofs.Value.Order
import ScriptMachine.Proofs.Value.Owners
import ScriptMachine.Runner.Bindings
import ScriptMachine.Runner.Command
import ScriptMachine.Runner.Execute
import ScriptMachine.Runner.LogFilter
import ScriptMachine.Runner.Report
import ScriptMachine.Structure.Basic
import ScriptMachine.Structure.Cells
import ScriptMachine.Structure.Dense
import ScriptMachine.Structure.Navigation
import ScriptMachine.Structure.Ring
import ScriptMachine.Structure.Store
import ScriptMachine.Structure.Table
import ScriptMachine.Text.Blank
import ScriptMachine.Text.Digits
import ScriptMachine.Text.Path
import ScriptMachine.Text.Quoted
import ScriptMachine.Text.Split
import ScriptMachine.Text.Visible
import ScriptMachine.Value.Arith
import ScriptMachine.Value.Basic
import ScriptMachine.Value.Compare
import ScriptMachine.Value.Convert
import ScriptMachine.Value.Error
import ScriptMachine.Value.Key
