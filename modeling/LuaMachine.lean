import LuaMachine.Arithmetic
import LuaMachine.Assembler
import LuaMachine.Call
import LuaMachine.Chunk.Layout
import LuaMachine.Chunk.Reader
import LuaMachine.Chunk.Writer
import LuaMachine.ChunkName
import LuaMachine.CodeCache
import LuaMachine.Comparison
import LuaMachine.Concatenation
import LuaMachine.Coroutines
import LuaMachine.Engine
import LuaMachine.Execution
import LuaMachine.Fault
import LuaMachine.Frames
import LuaMachine.Heap
import LuaMachine.HostCall
import LuaMachine.Index
import LuaMachine.Instruction
import LuaMachine.Invoke
import LuaMachine.Library.Basic
import LuaMachine.Library.Registry
import LuaMachine.Library.Threads
import LuaMachine.Listing
import LuaMachine.Lowering
import LuaMachine.Machine
import LuaMachine.Main
import LuaMachine.Metamethod
import LuaMachine.NativeCode
import LuaMachine.Number.Decimal
import LuaMachine.Number.Integer
import LuaMachine.Number.Numeral
import LuaMachine.Opcode
import LuaMachine.Operation
import LuaMachine.Options
import LuaMachine.Proofs.Action
import LuaMachine.Proofs.Arguments
import LuaMachine.Proofs.Balance
import LuaMachine.Proofs.BelowRegisters
import LuaMachine.Proofs.Bounds
import LuaMachine.Proofs.Bystanders
import LuaMachine.Proofs.CacheHistory
import LuaMachine.Proofs.CacheRequests
import LuaMachine.Proofs.CallChain
import LuaMachine.Proofs.CallFloor
import LuaMachine.Proofs.Calling
import LuaMachine.Proofs.Chain
import LuaMachine.Proofs.ChainRun
import LuaMachine.Proofs.ChunkBounds
import LuaMachine.Proofs.ChunkFields
import LuaMachine.Proofs.ChunkPrefixes
import LuaMachine.Proofs.ChunkRoundTrip
import LuaMachine.Proofs.Closing
import LuaMachine.Proofs.Compilation
import LuaMachine.Proofs.ConstantPool
import LuaMachine.Proofs.ControlFlow
import LuaMachine.Proofs.CoroutineRun
import LuaMachine.Proofs.Delivery
import LuaMachine.Proofs.Dialogue
import LuaMachine.Proofs.Drift
import LuaMachine.Proofs.Erasure
import LuaMachine.Proofs.ExactIntegers
import LuaMachine.Proofs.FieldChain
import LuaMachine.Proofs.FrameRun
import LuaMachine.Proofs.FrameShift
import LuaMachine.Proofs.FrameStep
import LuaMachine.Proofs.FunctionCall
import LuaMachine.Proofs.HostOperations
import LuaMachine.Proofs.HostResults
import LuaMachine.Proofs.IntegerArithmetic
import LuaMachine.Proofs.Interludes
import LuaMachine.Proofs.KeptArguments
import LuaMachine.Proofs.LibraryScript
import LuaMachine.Proofs.LimitedCalls
import LuaMachine.Proofs.LimitedRun
import LuaMachine.Proofs.LimitedSteps
import LuaMachine.Proofs.Limits
import LuaMachine.Proofs.ListedCode
import LuaMachine.Proofs.Lockstep
import LuaMachine.Proofs.LoweredCode
import LuaMachine.Proofs.NativeCall
import LuaMachine.Proofs.NativeRun
import LuaMachine.Proofs.Nesting
import LuaMachine.Proofs.NumberText
import LuaMachine.Proofs.NumeralValues
import LuaMachine.Proofs.Numerals
import LuaMachine.Proofs.NumericLoops
import LuaMachine.Proofs.OpenCounts
import LuaMachine.Proofs.OpenOperands
import LuaMachine.Proofs.OperandWords
import LuaMachine.Proofs.OperationScript
import LuaMachine.Proofs.PairwiseConcat
import LuaMachine.Proofs.RawKeys
import LuaMachine.Proofs.Reachable
import LuaMachine.Proofs.Reentry
import LuaMachine.Proofs.Results
import LuaMachine.Proofs.Resuming
import LuaMachine.Proofs.Resumption
import LuaMachine.Proofs.Rousing
import LuaMachine.Proofs.Routine
import LuaMachine.Proofs.Script
import LuaMachine.Proofs.ScriptRun
import LuaMachine.Proofs.Sealing
import LuaMachine.Proofs.Sleeping
import LuaMachine.Proofs.Soundness
import LuaMachine.Proofs.StackContents
import LuaMachine.Proofs.StackTop
import LuaMachine.Proofs.Stages
import LuaMachine.Proofs.StepFrames
import LuaMachine.Proofs.Stepping
import LuaMachine.Proofs.SurplusArguments
import LuaMachine.Proofs.Suspension
import LuaMachine.Proofs.Switching
import LuaMachine.Proofs.TableBorder
import LuaMachine.Proofs.TableMap
import LuaMachine.Proofs.TableNodes
import LuaMachine.Proofs.TailCalls
import LuaMachine.Proofs.Transparency
import LuaMachine.Proofs.Traversal
import LuaMachine.Proofs.Unpacking
import LuaMachine.Proofs.VerifiedCode
import LuaMachine.Proofs.Watch
import LuaMachine.Proofs.WellFormedCode
import LuaMachine.Proofs.Yields
import LuaMachine.Prototype
import LuaMachine.Release
import LuaMachine.Session
import LuaMachine.Table
import LuaMachine.Text.Blank
import LuaMachine.Text.Quoted
import LuaMachine.Text.Unprintable
import LuaMachine.Text.Utf8
import LuaMachine.Tool.FileTree
import LuaMachine.Tool.Lister
import LuaMachine.Tool.Report
import LuaMachine.Tool.Runner
import LuaMachine.Upvalue
import LuaMachine.Value
import LuaMachine.Verifier
