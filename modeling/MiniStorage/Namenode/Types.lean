import MiniStorage.ByteOrder
import MiniStorage.SortedMap

namespace MiniStorage.Namenode

abbrev BlockId := UInt64

abbrev FilePath := Bytes

abbrev DataNodeId := Bytes

def kBlockSize : Int := 4 * 1024 * 1024

def kReplicationFactor : Nat := 3

def kHeartbeatTimeoutSec : Int := 30

structure BlockInfo where
  blockId : BlockId := 0
  size : Int := 0
  locations : List DataNodeId := []
deriving DecidableEq, Repr

structure FileInfo where
  path : FilePath := []
  size : Int := 0
  createTime : Int := 0
  modifyTime : Int := 0
  blocks : List BlockId := []
deriving DecidableEq, Repr

inductive DataNodeStatus where
  | alive
  | suspect
  | dead
deriving DecidableEq, Repr

structure DataNodeInfo where
  id : DataNodeId := []
  host : Bytes := []
  port : Int := 0
  status : DataNodeStatus := .alive
  lastHeartbeat : Int := 0
  freeSpace : Int := 0
  blockCount : Int32 := 0
deriving DecidableEq, Repr

/-- The order in which one pass over a std::unordered_map goes. -/
structure Iteration where
  run : {α : Type} → List α → List α
  perm : ∀ {α : Type} (xs : List α), (run xs).Perm xs

/-- The order of the keys. -/
def Iteration.sorted : Iteration := ⟨fun xs => xs, fun xs => .refl xs⟩

theorem Iteration.mem_run (it : Iteration) {α : Type} {xs : List α} {x : α} : x ∈ it.run xs ↔ x ∈ xs :=
  (it.perm xs).mem_iff

/-- An ASCII literal. -/
def text (s : String) : Bytes := s.toList.map (fun c => UInt8.ofNat c.toNat)

/-! The messages of namenode.proto. A field that is not set reads as its default. -/

structure CreateFileRequest where
  path : FilePath := []
deriving DecidableEq, Repr

structure AllocateBlockRequest where
  filePath : FilePath := []
deriving DecidableEq, Repr

structure AllocateBlockResponse where
  success : Bool := false
  blockId : BlockId := 0
  datanodeAddresses : List DataNodeId := []
  error : Bytes := []
deriving DecidableEq, Repr

structure GetFileBlocksRequest where
  path : FilePath := []
deriving DecidableEq, Repr

structure BlockLocation where
  blockId : BlockId := 0
  size : Int := 0
  datanodes : List DataNodeId := []
deriving DecidableEq, Repr

structure GetFileBlocksResponse where
  success : Bool := false
  path : FilePath := []
  size : Int := 0
  blocks : List BlockLocation := []
  error : Bytes := []
deriving DecidableEq, Repr

structure DeleteFileRequest where
  path : FilePath := []
deriving DecidableEq, Repr

structure ListFilesRequest where
  dir : Bytes := []
deriving DecidableEq, Repr

structure FileSummary where
  path : FilePath := []
  size : Int := 0
  createTime : Int := 0
  blockCount : Int32 := 0
deriving DecidableEq, Repr

structure ListFilesResponse where
  success : Bool := false
  files : List FileSummary := []
deriving DecidableEq, Repr

structure RegisterDataNodeRequest where
  datanodeId : DataNodeId := []
  host : Bytes := []
  port : Int := 0
  freeSpace : Int := 0
deriving DecidableEq, Repr

structure HeartbeatRequest where
  datanodeId : DataNodeId := []
  freeSpace : Int := 0
  blockCount : Int := 0
deriving DecidableEq, Repr

structure BlockReportItem where
  blockId : BlockId := 0
  size : Int := 0
deriving DecidableEq, Repr

structure BlockReportRequest where
  datanodeId : DataNodeId := []
  blocks : List BlockReportItem := []
deriving DecidableEq, Repr

inductive OpType where
  | createFile
  | allocateBlock
  | getFileBlocks
  | deleteFile
  | listFiles
  | registerDn
  | heartbeat
  | blockReport
  | unknown (value : Int)
deriving DecidableEq, Repr

structure NameNodeRequest where
  op : OpType := .createFile
  requestId : UInt64 := 0
  createFile : Option CreateFileRequest := none
  allocateBlock : Option AllocateBlockRequest := none
  getFileBlocks : Option GetFileBlocksRequest := none
  deleteFile : Option DeleteFileRequest := none
  listFiles : Option ListFilesRequest := none
  registerDn : Option RegisterDataNodeRequest := none
  heartbeat : Option HeartbeatRequest := none
  blockReport : Option BlockReportRequest := none
deriving DecidableEq, Repr

structure NameNodeResponse where
  requestId : UInt64 := 0
  success : Bool := false
  error : Bytes := []
  allocateBlock : Option AllocateBlockResponse := none
  getFileBlocks : Option GetFileBlocksResponse := none
  listFiles : Option ListFilesResponse := none
deriving DecidableEq, Repr

/-- SerializeToString and ParseFromString of one protobuf message type. -/
structure Wire (M : Type) where
  serialize : M → Option Bytes
  parse : Bytes → Option M

/-- The message survives the way through its bytes. -/
def Wire.RoundTrips {M : Type} (w : Wire M) (m : M) : Prop := ∃ data, w.serialize m = some data ∧ w.parse data = some m

/-- A format that knows the messages of a table and their bytes. -/
def Wire.table {M : Type} [DecidableEq M] (rows : List (M × Bytes)) : Wire M where
  serialize m := (rows.find? fun row => row.1 = m).map Prod.snd
  parse data := (rows.find? fun row => row.2 = data).map Prod.fst

theorem Wire.roundTrips_table {M : Type} [DecidableEq M] (m : M) (data : Bytes) :
    (Wire.table [(m, data)]).RoundTrips m :=
  ⟨data, by simp [table], by simp [table]⟩

end MiniStorage.Namenode
