import Argennon.Lib.ForwardGraph
import Argennon.Lib.VersionStack
import Argennon.Lib.LockStack
import Argennon.Lib.LevelCode
import Argennon.Lib.Holdings
import Argennon.Core.Primitives
import Argennon.Core.Numerals
import Argennon.Core.Info
import Argennon.Util.OrderedStaticMap
import Argennon.Util.MergeInsert
import Argennon.Validator.RunAll
import Argennon.Validator.VerifierCluster
import Argennon.Validator.FindCollisions
import Argennon.Validator.CliqueRun
import Argennon.Validator.CliqueSoundness
import Argennon.Validator.CliqueCompleteness
import Argennon.Validator.VerifierClusterSpec
import Argennon.Heap.Chunk
import Argennon.Heap.AccessBlock
import Argennon.Heap.RestrictedModifier
import Argennon.Heap.ModifierSimulation
import Argennon.Heap.Rollback
import Argennon.Storage.Admission
import Argennon.Heap.WriteFrame
import Argennon.Storage.BuiltModifier
import Argennon.Storage.Construction
import Argennon.Storage.ReadConfinement
import Argennon.Util.MergeMaps
import Argennon.Validator.SortAccessBlocks
import Argennon.Executor.Session
import Argennon.Executor.Library
import Argennon.Executor.Calls
import Argennon.Executor.ExecuteOne
import Argennon.Executor.LibraryFrame
import Argennon.Executor.RunRule
import Argennon.Executor.GasBound
import Argennon.Executor.SessionRestore
import Argennon.Executor.ErrorResponse
import Argennon.Executor.LibraryErrors
import Argennon.Executor.Containment
import Argennon.Storage.WriteConfinement
import Argennon.Lib.DagTraversal
import Argennon.Validator.ExecDag
import Argennon.Validator.ExecDagTraversal
import Argennon.Validator.ExecDagRuns
import Argennon.Validator.ExecDagProgress
import Argennon.Validator.ExecDagStart
import Argennon.Validator.ExecDagCorrect
import Argennon.Validator.ExecDagStuck
import Argennon.Validator.FeePayment
import Argennon.Executor.VirtualSignatures
import Argennon.Executor.MessageSeparation
import Argennon.Executor.CallStack
import Argennon.Executor.CallStackRefinement
import Argennon.Executor.AreaLocks
import Argennon.Executor.CallDepth
import Argennon.Executor.DeferredCalls
import Argennon.Util.PrefixTrie
import Argennon.Util.PrefixTrieCodec
import Argennon.Util.PrefixTrieReaders
import Argennon.Util.PrefixTrieText
import Argennon.Heap.ChunkDelta
import Argennon.Heap.ChunkDeltaFormat
import Argennon.Storage.Page
import Argennon.Storage.PageDelta
import Argennon.Storage.DeltaSafety
import Argennon.Storage.PageCache
import Argennon.Storage.Migrations
import Argennon.Storage.VarLenFullID
import Argennon.Heap.AdditiveUpdates
import Argennon.Heap.ZeroTail
import Argennon.Validator.BlockValidator
import Argennon.Validator.BlockDefects
import Argennon.Validator.CliqueTermination
import Argennon.Lib.BinaryFloat
import Argennon.Executor.Floats
import Argennon.Heap.ChunkView
import Argennon.Heap.ChunkMemory
import Argennon.Storage.ModifierView
import Argennon.Executor.AppCode
import Argennon.Executor.SessionView
import Argennon.Apps.ArgApp
import Argennon.Apps.Account
import Argennon.Apps.Transfer
import Argennon.Apps.Requests
import Argennon.Apps.Ledger
import Argennon.Apps.Payment
import Argennon.Apps.EmptiedAccounts
import Argennon.Apps.Conservation
import Argennon.Lib.Interleaving
import Argennon.Lib.CommutingActions
import Argennon.Storage.RecordedSize
import Argennon.Heap.WriteCommute
import Argennon.Validator.IndependentBlocks
import Argennon.Executor.RequestProgram
import Argennon.Executor.RunProgram
import Argennon.Validator.RequestTurns
import Argennon.Validator.SerialExecution
import Argennon.Validator.SharedRun
import Argennon.Validator.Serializability
import Argennon.Validator.VerifiedOrder
import Argennon.Validator.AcceptedBlock
