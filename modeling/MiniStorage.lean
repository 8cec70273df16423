import MiniStorage.Raft.MatchIndex
import MiniStorage.Raft.GapFree
import MiniStorage.Raft.Propose
import MiniStorage.Raft.Rebuild
import MiniStorage.Raft.Compaction
import MiniStorage.Raft.Handlers
import MiniStorage.Raft.Durable
import MiniStorage.Raft.Interleaving
import MiniStorage.Raft.Repair
import MiniStorage.Engine.Durability
import MiniStorage.Engine.CrashSafety
import MiniStorage.Engine.Maintenance
import MiniStorage.Engine.FileOrder
import MiniStorage.Engine.TornLog
import MiniStorage.Engine.Corruption
import MiniStorage.Engine.BatchReplay
import MiniStorage.Engine.SkipList
import MiniStorage.Engine.RecencyCache
import MiniStorage.Engine.FilterFile
import MiniStorage.Engine.BlockCache
import MiniStorage.Engine.TableCursor
import MiniStorage.Engine.LogCursor
import MiniStorage.Namenode.Equivalence
import MiniStorage.Namenode.BlockIds
import MiniStorage.Namenode.Replicas
import MiniStorage.Namenode.Reopen
import MiniStorage.Namenode.Allocations
import MiniStorage.Namenode.OwnBlocks
import MiniStorage.Namenode.BlockTable
import MiniStorage.Datanode.Pipeline
import MiniStorage.Datanode.BlockListing
import MiniStorage.Namenode.EditSessions
import MiniStorage.Namenode.Placement
import MiniStorage.Namenode.Health
import MiniStorage.Namenode.BlockReports
import MiniStorage.Net.Link
import MiniStorage.Net.Registration
import MiniStorage.Namenode.RequestFlow
import MiniStorage.Net.Exchange
import MiniStorage.Net.Call
import MiniStorage.Namenode.FaultDetector
import MiniStorage.Namenode.DataNodeClient
import MiniStorage.Namenode.HaCluster
import MiniStorage.Raft.Rpc
import MiniStorage.Net.TcpServer
