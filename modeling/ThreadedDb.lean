import ThreadedDb.SeparatorChain
import ThreadedDb.LabelledBPlusTree
import ThreadedDb.CheckedArray
import ThreadedDb.ByteText
import ThreadedDb.BPTreeHeap
import ThreadedDb.BPTreeOwnership
import ThreadedDb.BPTreeInsertion
import ThreadedDb.BPTreeMap
import ThreadedDb.BPTreeValidation
import ThreadedDb.BPTreeFailures
import ThreadedDb.BPTreeSoundness
import ThreadedDb.BPlusOccupancy
import ThreadedDb.BPTreeBalance
import ThreadedDb.LineFraming
import ThreadedDb.SchemaModel
import ThreadedDb.StorageModel
import ThreadedDb.StorageRoundTrip
import ThreadedDb.RowCodec
import ThreadedDb.SqlFrontEnd
import ThreadedDb.RuntimeModel
import ThreadedDb.ExecutorModel
import ThreadedDb.IdText
import ThreadedDb.KeyedStore
import ThreadedDb.TableCache
import ThreadedDb.IndexBuild
import ThreadedDb.InsertSpec
import ThreadedDb.StatementRuns
import ThreadedDb.IndexCoherence
import ThreadedDb.InsertRows
import ThreadedDb.SelectSpec
import ThreadedDb.RestartEquivalence
import ThreadedDb.InsertEffects
import ThreadedDb.DbApiModel
import ThreadedDb.ParserBounds
import ThreadedDb.ApiResponses
import ThreadedDb.LockedSections
import ThreadedDb.TableSections
import ThreadedDb.Movers
import ThreadedDb.ConcurrentCalls
import ThreadedDb.ApiLinearizability
import ThreadedDb.IdAllocation
import ThreadedDb.ReadSections
import ThreadedDb.TableIsolation
import ThreadedDb.SqlGrammar
import ThreadedDb.ScriptLoop
import ThreadedDb.Scanning
import ThreadedDb.LexerRoundTrip
import ThreadedDb.GateAgreement
import ThreadedDb.EventLog
import ThreadedDb.TableNames
import ThreadedDb.FileAccess
import ThreadedDb.JsonModel
import ThreadedDb.JsonGrammar
import ThreadedDb.JsonReadBack
import ThreadedDb.Rfc8259
import ThreadedDb.ResponseTexts
import ThreadedDb.Monitors
import ThreadedDb.BoundedFifo
import ThreadedDb.RingBuffer
import ThreadedDb.TaskQueueModel
import ThreadedDb.QueueRefinement
import ThreadedDb.ThreadPool
import ThreadedDb.Custody
import ThreadedDb.HttpModel
import ThreadedDb.Occurrences
import ThreadedDb.HttpReading
import ThreadedDb.ServerModel
import ThreadedDb.ServerRuns
import ThreadedDb.PointReads
import ThreadedDb.IdRoundTrip
import ThreadedDb.SchemaLoading
import ThreadedDb.ParserAccess
import ThreadedDb.JsonDiagnosis
import ThreadedDb.ContentLength
import ThreadedDb.BodyValidation
import ThreadedDb.ForwardSimulation
import ThreadedDb.RelationalModel
import ThreadedDb.RelationalRefinement
import ThreadedDb.RelationalService
import ThreadedDb.HttpSending
import ThreadedDb.ClientExchanges
import ThreadedDb.BPTreeDestruction
import ThreadedDb.ContextTeardown
import ThreadedDb.GrowableText
import ThreadedDb.JsonWriting
import ThreadedDb.ServerLifecycle
import ThreadedDb.ResultTable
import ThreadedDb.CommandLine
import ThreadedDb.FrontEnds
import ThreadedDb.BenchmarkRuns
import ThreadedDb.OwnedMemory
import ThreadedDb.RowMemory
import ThreadedDb.TableMemory
import ThreadedDb.LexerMemory
