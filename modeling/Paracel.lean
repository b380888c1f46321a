import Paracel.Misc.Run
import Paracel.Misc.Index
import Paracel.Misc.Segments
import Paracel.Misc.Tally
import Paracel.Misc.SplitWord
import Paracel.Misc.MergeFold
import Paracel.Misc.CyclicSucc
import Paracel.Misc.Confluence
import Paracel.Misc.Network
import Paracel.Misc.Spmd
import Paracel.Misc.Lines
import Paracel.Misc.Slots
import Paracel.Misc.SplitSet
import Paracel.Misc.FirstError
import Paracel.Misc.TopK
import Paracel.Misc.Numbering
import Paracel.Misc.Recoding
import Paracel.Misc.Search
import Paracel.Misc.Lloyd
import Paracel.Types
import Paracel.Doubles
import Paracel.Wire
import Paracel.Kv
import Paracel.Kv.Cas
import Paracel.Ring.Bsearch
import Paracel.Ring.HashRing
import Paracel.Ring.Membership
import Paracel.Ring.Consistent
import Paracel.Comm.Alltoall
import Paracel.Comm.Treereduce
import Paracel.Comm.TripleList
import Paracel.Comm.StringList
import Paracel.Comm.DictTransport
import Paracel.Graph.Adjacency
import Paracel.Graph.Undirected
import Paracel.Graph.Digraph
import Paracel.Graph.Bigraph
import Paracel.Graph.Bfs
import Paracel.Graph.Components
import Paracel.Graph.Queries
import Paracel.Load.Schedule
import Paracel.Load.Steps
import Paracel.Load.Balance
import Paracel.Load.OneFile
import Paracel.Load.Organize
import Paracel.Load.StrSplit
import Paracel.Load.LinesOrganize
import Paracel.Load.ItemGrammar
import Paracel.Load.Parser
import Paracel.Load.IndexMapping
import Paracel.Load.IndexMappingCompact
import Paracel.Load.Partition
import Paracel.Load.ProcessGrid
import Paracel.Load.ExchangeCompact
import Paracel.Load.CreateGraph
import Paracel.Mesos.Scheduler
import Paracel.Mesos.Reservations
import Paracel.Mesos.Start
import Paracel.Server.Exec
import Paracel.Server.ExecSsp
import Paracel.Server.Updater
import Paracel.Server.OneReply
import Paracel.Server.Server
import Paracel.Server.NoLostUpdate
import Paracel.Server.Packed
import Paracel.Server.Messages
import Paracel.Ps.Kvclt
import Paracel.Ps.Paralg
import Paracel.Ps.Calls
import Paracel.Ps.Shared
import Paracel.Ps.ReadMulti
import Paracel.Ps.ReadTopk
import Paracel.Ps.DumpDict
import Paracel.Ps.DumpBarriers
import Paracel.Pregel.Loop
import Paracel.Pregel.RunSupersteps
import Paracel.Alg.TinyUrl
import Paracel.Alg.CosSimSparse
import Paracel.Alg.DecisionTree
import Paracel.Alg.WordCount
import Paracel.Alg.MaxVertexValue
import Paracel.Alg.MaxVertexHalt
import Paracel.Alg.LogisticRegression
import Paracel.Alg.KMeans
import Paracel.Alg.PageRank
import Paracel.Alg.Similarity
import Paracel.Alg.Cbr
import Paracel.Ps.Refinement
import Paracel.Ps.CacheAgreement
import Paracel.Ssp.Worker
import Paracel.Ssp.Invariant
import Paracel.Ssp.Commits
import Paracel.Ssp.Safety
import Paracel.Ssp.Slots
import Paracel.Ssp.Deadlock
import Paracel.Ssp.Cache
import Paracel.Ssp.Reads
import Paracel.Alg.DecisionTreeParallel
