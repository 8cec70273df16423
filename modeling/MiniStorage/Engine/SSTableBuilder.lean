import MiniStorage.Engine.Coding
import MiniStorage.Engine.Stream
import MiniStorage.Engine.BloomFilter

namespace MiniStorage.Engine

structure SSTableBuilder where
  file : OFStream
  keys : List Bytes
  buffer : Bytes
  offset : Nat
  indexBlock : Bytes
  lastKey : Bytes
deriving DecidableEq, Repr

namespace SSTableBuilder

variable (codec : VarintCodec)

def create (opened : Bool) (room : Option Nat) : SSTableBuilder where
  file := { good := opened, room := room }
  keys := []
  buffer := []
  offset := 0
  indexBlock := []
  lastKey := []

/-- The positions are 64 bits wide and cut to 32 on their way into the index. -/
def flushDataBlock (b : SSTableBuilder) : Option SSTableBuilder :=
  if b.buffer.isEmpty then some b
  else do
    let crc := valueCRC32 0xffffffff b.buffer
    let indexBlock ← putLengthPrefixedString codec b.indexBlock b.lastKey
    let indexBlock ← putVarint32 codec indexBlock (UInt32.ofNat b.offset)
    let indexBlock ← putVarint32 codec indexBlock (UInt32.ofNat (b.buffer.length + 4))
    return { b with
      indexBlock := indexBlock
      file := (b.file.write b.buffer).write (encodeFixed32 crc)
      offset := b.offset + (b.buffer.length + 4)
      buffer := [] }

def add (b : SSTableBuilder) (key value : Bytes) : Option SSTableBuilder := do
  let buffer ← putLengthPrefixedString codec b.buffer key
  let buffer ← putLengthPrefixedString codec buffer value
  let b := { b with buffer := buffer, lastKey := key }
  let b ← if b.buffer.length ≥ 4096 then b.flushDataBlock codec else some b
  return { b with keys := b.keys ++ [key] }

/-- A size_t as an int. -/
def toInt (n : Nat) : Int := (n : Int).bmod (2 ^ 32)

/-- Always true. The builder's file is closed behind it. -/
def finish (b : SSTableBuilder) : Option (Bool × SSTableBuilder) := do
  let b ← if !b.buffer.isEmpty then b.flushDataBlock codec else some b
  let bf ← BloomFilter.ofEntries (toInt b.keys.length)
  let bf := b.keys.foldl BloomFilter.add bf
  let filterOffset := b.offset
  let file := (b.file.write [UInt8.ofNat bf.numHashes]).write bf.data
  let filterSize := 1 + UInt32.ofNat bf.data.length
  let indexOffset := b.offset + filterSize.toNat
  let indexCrc := valueCRC32 0xffffffff b.indexBlock
  let file := (file.write b.indexBlock).write (encodeFixed32 indexCrc)
  let indexBlockSize := UInt32.ofNat (b.indexBlock.length + 4)
  let file := file.write (encodeFixed64 (UInt64.ofNat indexOffset) ++ encodeFixed32 indexBlockSize ++
    encodeFixed64 (UInt64.ofNat filterOffset) ++ encodeFixed32 filterSize)
  return (true, { b with file := file.flush, offset := indexOffset + indexBlockSize.toNat + 24, keys := [] })

/-- Add the pairs of a list one by one. -/
def addAll (b : SSTableBuilder) (kvs : List (Bytes × Bytes)) : Option SSTableBuilder :=
  kvs.foldlM (fun b p => b.add codec p.1 p.2) b

end SSTableBuilder

end MiniStorage.Engine
