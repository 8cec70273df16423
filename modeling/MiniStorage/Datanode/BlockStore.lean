import MiniStorage.Decimal
import MiniStorage.Engine.Stream
import MiniStorage.Namenode.Types
import MiniStorage.NumberText

namespace MiniStorage.Datanode

open Engine Namenode NumberText

structure BlockMeta where
  blockId : BlockId := 0
  size : Int := 0
  crc32 : UInt32 := 0
  createTime : Int := 0
deriving DecidableEq, Repr

/-- The files under data_dir_, by their paths from there. -/
structure BlockStore where
  files : SortedMap FilePath Bytes := .empty

/-- What the disk and the clock do while a block is written. A room of n bytes is full after n. -/
structure Disk where
  tmpOpens : Bool := true
  tmpRoom : Option Nat := none
  metaOpens : Bool := true
  metaRoom : Option Nat := none
  renames : Bool := true
  now : Int := 0

def blockDataPath (id : BlockId) : FilePath := text "blocks/block_" ++ Decimal.encodePadded 6 id.toNat ++ text ".dat"

def blockMetaPath (id : BlockId) : FilePath := text "blocks/block_" ++ Decimal.encodePadded 6 id.toNat ++ text ".meta"

def blockTmpPath (id : BlockId) : FilePath := text "tmp/block_" ++ Decimal.encodePadded 6 id.toNat ++ text ".dat.tmp"

/-- A signed number as `<<` prints it. -/
def showInt (i : Int) : Bytes := if i < 0 then text "-" ++ Decimal.encode i.natAbs else Decimal.encode i.natAbs

/-- The one line of a .meta file. -/
def BlockMeta.line (m : BlockMeta) : Bytes :=
  Decimal.encode m.blockId.toNat ++ text " " ++ showInt m.size ++ text " " ++ Decimal.encode m.crc32.toNat ++ text " " ++
    showInt m.createTime ++ text "\n"

namespace BlockStore

def remove (s : BlockStore) (path : FilePath) : BlockStore := ⟨s.files.erase path⟩

/-- What becomes of the stream of the data file is not looked at. -/
def writeTmp (s : BlockStore) (blockId : BlockId) (data : Bytes) (disk : Disk) : Bool × BlockStore :=
  if !disk.tmpOpens then (false, s)
  else
    let f := (({ room := disk.tmpRoom } : OFStream).write data).flush
    (true, ⟨s.files.insert (blockTmpPath blockId) f.bytes⟩)

def writeMeta (s : BlockStore) (id : BlockId) (m : BlockMeta) (disk : Disk) : Bool × BlockStore :=
  if !disk.metaOpens then (false, s)
  else
    let f := ({ room := disk.metaRoom } : OFStream).write m.line
    (true, ⟨s.files.insert (blockMetaPath id) f.bytes⟩)

/-- std::rename of the temporary data file. -/
def renameTmp (s : BlockStore) (blockId : BlockId) (disk : Disk) : Bool × BlockStore :=
  match s.files.find (blockTmpPath blockId) with
  | none => (false, s)
  | some data =>
      if disk.renames then
        (true, ⟨(s.files.erase (blockTmpPath blockId)).insert (blockDataPath blockId) data⟩)
      else (false, s)

/-- `crc32` is the function of zlib. -/
def writeBlock (crc32 : Bytes → UInt32) (s : BlockStore) (blockId : BlockId) (data : Bytes) (disk : Disk) :
    Bool × BlockStore :=
  let (ok, s) := s.writeTmp blockId data disk
  if !ok then (false, s)
  else
    let (ok, s) := s.writeMeta blockId ⟨blockId, data.length, crc32 data, disk.now⟩ disk
    if !ok then (false, s.remove (blockTmpPath blockId))
    else
      let (ok, s) := s.renameTmp blockId disk
      if !ok then (false, s.remove (blockTmpPath blockId)) else (true, s)

/-- The four fields of a .meta file. -/
def parseMeta (s : Bytes) : Option BlockMeta := do
  let (blockId, s) ← readUnsigned 64 s
  let (size, s) ← readSigned 64 s
  let (crc32, s) ← readUnsigned 32 s
  let (createTime, _) ← readSigned 64 s
  return ⟨.ofNat blockId, size, .ofNat crc32, createTime⟩

def readMeta (s : BlockStore) (id : BlockId) : Option BlockMeta := (s.files.find (blockMetaPath id)).bind parseMeta

/-- The length of a read that starts inside of the file; nothing where the sum leaves int64_t. -/
def readLength (fileSize offset length : Int) : Option Int :=
  if length ≤ 0 then some (fileSize - offset)
  else if 2 ^ 63 ≤ offset + length then none
  else if fileSize < offset + length then some (fileSize - offset)
  else some length

/-- std::string::resize. -/
def resize (s : Bytes) (n : Nat) : Bytes := s.take n ++ List.replicate (n - s.length) 0

/-- What is returned and what data_out then holds; nothing where the signed sum overflows. -/
def readBlock (crc32 : Bytes → UInt32) (s : BlockStore) (blockId : BlockId) (offset length : Int) (dataOut : Bytes) :
    Option (Bool × Bytes) :=
  match s.readMeta blockId with
  | none => some (false, dataOut)
  | some m =>
      match s.files.find (blockDataPath blockId) with
      | none => some (false, dataOut)
      | some bytes =>
          if offset < 0 ∨ m.size < offset then some (false, dataOut)
          else
            match readLength m.size offset length with
            | none => none
            | some n =>
                if n = 0 then some (true, [])
                else
                  let got := ((({ bytes := bytes } : IFStream).seekg offset.toNat).read n.toNat).1
                  let dataOut := got ++ (resize dataOut n.toNat).drop got.length
                  if got.length ≠ n then some (false, dataOut)
                  -- the checksum is looked at where the whole block was asked for
                  else if offset = 0 ∧ n = m.size ∧ crc32 dataOut ≠ m.crc32 then some (false, dataOut)
                  else some (true, dataOut)

def getBlockMeta (s : BlockStore) (blockId : BlockId) : Option BlockMeta := s.readMeta blockId

/-- fs::remove of a file that exists; where `removes` is false it throws. -/
def removeExisting (s : BlockStore) (path : FilePath) (removes : Bool) : Option BlockStore :=
  if (s.files.find path).isSome then if removes then some (s.remove path) else none else some s

/-- Returns nothing where an exception leaves the function. -/
def deleteBlock (s : BlockStore) (blockId : BlockId) (dataRemoves metaRemoves : Bool) : Option Bool × BlockStore :=
  match s.removeExisting (blockDataPath blockId) dataRemoves with
  | none => (none, s)
  | some s =>
      match s.removeExisting (blockMetaPath blockId) metaRemoves with
      | none => (none, s)
      | some s => (some true, s)

/-- The file that a path names right inside of a directory. -/
def filename (dir path : FilePath) : Option Bytes :=
  if dir.isPrefixOf path ∧ 47 ∉ path.drop dir.length then some (path.drop dir.length) else none

/-- The id that ListAllBlocks takes from a file name. -/
def listedId (name : Bytes) : Option BlockId :=
  if 5 < name.length ∧ name.drop (name.length - 5) = text ".meta" then
    if name.length < 12 then none
    -- std::stoull of substr(6, size - 11)
    else (readUnsigned 64 ((name.drop 6).take (name.length - 11))).map fun (n, _) => .ofNat n
  else none

/-- `it` is the order in which the directory is gone through. -/
def listAllBlocks (it : Iteration) (s : BlockStore) : List BlockMeta :=
  (it.run (s.files.entries.filterMap fun p => filename (text "blocks/") p.1)).filterMap fun name =>
    (listedId name).bind s.readMeta

def cleanTempFiles (s : BlockStore) : BlockStore :=
  ((s.files.entries.map Prod.fst).filter fun path => (filename (text "tmp/") path).isSome).foldl remove s

end BlockStore

/-- The disk lets WriteBlock through. -/
def Disk.lets (disk : Disk) : Bool := disk.tmpOpens && disk.metaOpens && disk.renames

theorem blockMetaPath_ne_blockTmpPath (id id' : BlockId) : blockMetaPath id ≠ blockTmpPath id' := by
  intro h
  have hhead := congrArg List.head? h
  simp [blockMetaPath, blockTmpPath, text] at hhead

/-- WriteBlock says true as soon as both files could be opened and the rename went well. -/
theorem BlockStore.writeBlock_fst (crc32 : Bytes → UInt32) (s : BlockStore) (blockId : BlockId) (data : Bytes)
    (disk : Disk) :
    (s.writeBlock crc32 blockId data disk).1 = disk.lets := by
  rw [writeBlock, writeTmp, Disk.lets]
  cases htmp : disk.tmpOpens with
  | false => rfl
  | true =>
      simp only [Bool.not_true, Bool.false_eq_true, if_false, writeMeta]
      cases hmeta : disk.metaOpens with
      | false => rfl
      | true =>
          simp only [Bool.not_true, Bool.false_eq_true, if_false, renameTmp]
          rw [SortedMap.find_insert, if_neg (blockMetaPath_ne_blockTmpPath _ _).symm, SortedMap.find_insert, if_pos rfl]
          cases hrename : disk.renames <;> rfl

end MiniStorage.Datanode
