import MiniStorage.Decimal
import MiniStorage.Engine.Coding
import MiniStorage.Engine.Stream
import MiniStorage.Engine.BloomFilter
import MiniStorage.Engine.LruCache

namespace MiniStorage.Engine

/-- The ':' between the file name and the offset. -/
def cacheKeySeparator : UInt8 := 58

def makeCacheKey (filename : Bytes) (offset : Nat) : Bytes := filename ++ cacheKeySeparator :: Decimal.encode offset

structure BlockHandle where
  offset : UInt64
  size : UInt32
deriving DecidableEq, Repr

structure SSTableReader where
  filename : Bytes
  file : IFStream
  filter : Option BloomFilter := none
  index : SortedMap Bytes BlockHandle := .empty

/-- SSTableReader::Iterator: it holds all entries itself. -/
structure SSTableIterator where
  entries : BolckData
  pos : Nat := 0
deriving DecidableEq, Repr

/-- A buffer resized to `n` zero bytes and then read into. -/
def readInto (f : IFStream) (n : Nat) : Bytes × IFStream :=
  let (got, f) := f.read n
  (got ++ List.replicate (n - got.length) 0, f)

/-- The bytes of `buf` that lie before `size`, and the rest with the terminator of a std::string. -/
def cursorOn (buf : Bytes) (size : Nat) : Cursor := ⟨buf.take size, buf.drop size ++ [0]⟩

/-- The loop over the index entries. Every turn that goes round consumes at least one byte. -/
def parseIndex : Nat → Cursor → SortedMap Bytes BlockHandle → Option (SortedMap Bytes BlockHandle)
  | 0, p, index => if p.ahead = [] then some index else none
  | fuel + 1, p, index =>
      if p.ahead = [] then some index
      else do
        match ← decodeString p with
        | none => return index
        | some (maxString, p) =>
            let (n1, offset) ← decodeVarint32 p.bytes
            if n1 ≤ 0 then return index
            let p := p.advance n1.toNat
            let (n2, size) ← decodeVarint32 p.bytes
            if n2 ≤ 0 then return index
            parseIndex fuel (p.advance n2.toNat) (index.insert maxString ⟨offset.toUInt64, size⟩)

/-- The loop over the pairs of a block. -/
def parseBlock : Nat → Cursor → BolckData → Option BolckData
  | 0, p, out => if p.ahead = [] then some out else none
  | fuel + 1, p, out =>
      if p.ahead = [] then some out
      else do
        match ← decodeString p with
        | none => return out
        | some (k, p) =>
            match ← decodeString p with
            | none => return out
            | some (v, p) => parseBlock fuel p (out ++ [(k, v)])

def cacheGet : Option LRUCache → Bytes → Option (Option BolckData × Option LRUCache)
  | none, _ => some (none, none)
  | some c, key => (c.get key).map fun (hit, c) => (hit, some c)

def cacheInsert : Option LRUCache → Bytes → BolckData → Option (Option LRUCache)
  | none, _, _ => some none
  | some c, key, data => (c.insert key data).map some

namespace SSTableReader

/-- Open, on the bytes of the file if there is one. -/
def openFile (filename : Bytes) : Option Bytes → Option (Bool × SSTableReader)
  | none => some (false, { filename := filename, file := { bytes := [], failed := true } })
  | some bytes => do
      let file : IFStream := { bytes := bytes }
      let fileSize := bytes.length
      if fileSize < 24 then return (false, { filename := filename, file := file })
      let (footer, file) := readInto (file.seekg (fileSize - 24)) 24
      let indexOffset ← decodeFixed64 footer
      let totalIndexSize ← decodeFixed32 (footer.drop 8)
      let filterOffset ← decodeFixed64 (footer.drop 12)
      let filterSize ← decodeFixed32 (footer.drop 20)
      let (filter, file) :=
        if filterSize > 0 then
          let (filterData, file) := readInto (file.seekg filterOffset.toNat) filterSize.toNat
          (some (BloomFilter.ofRawData filterData), file)
        else (none, file)
      let (fullIndexData, file) := readInto (file.seekg indexOffset.toNat) totalIndexSize.toNat
      -- the subtraction is one of uint32_t, and the size_t takes its result over
      let indexDataSize := (totalIndexSize - 4).toNat
      let savedCrc ← decodeFixed32 (fullIndexData.drop indexDataSize)
      let actualCrc := valueCRC32 0xffffffff (fullIndexData.take indexDataSize)
      let reader := { filename := filename, file := file, filter := filter }
      if savedCrc ≠ actualCrc then return (false, reader)
      let index ← parseIndex indexDataSize (cursorOn fullIndexData indexDataSize) .empty
      return (true, { reader with index := index })

/-- `out` comes in empty. The inner `none` is the answer false. -/
def readDataBlock (r : SSTableReader) (cache : Option LRUCache) (offset : UInt64) (size : UInt32) :
    Option (Option BolckData × SSTableReader × Option LRUCache) := do
  let cacheKey := makeCacheKey r.filename offset.toNat
  let (hit, cache) ← cacheGet cache cacheKey
  match hit with
  | some data => return (some data, r, cache)
  | none =>
      let (fullBlockData, file) := readInto (r.file.seekg offset.toNat) size.toNat
      let r := { r with file := file }
      let blockDataSize := (size - 4).toNat
      let savedCrc ← decodeFixed32 (fullBlockData.drop blockDataSize)
      let actualCrc := valueCRC32 0xffffffff (fullBlockData.take blockDataSize)
      if savedCrc ≠ actualCrc then return (none, r, cache)
      let out ← parseBlock blockDataSize (cursorOn fullBlockData blockDataSize) []
      let cache ← cacheInsert cache cacheKey out
      return (some out, r, cache)

/-- The value, on the answer true. -/
def get (r : SSTableReader) (cache : Option LRUCache) (key : Bytes) :
    Option (Option Bytes × SSTableReader × Option LRUCache) :=
  if r.filter.any (fun f => !f.mayContain key) then some (none, r, cache)
  else
    match r.index.lowerBound key with
    | none => some (none, r, cache)
    | some (_, handle) => do
        let (entries, r, cache) ← r.readDataBlock cache handle.offset handle.size
        match entries with
        | none => return (none, r, cache)
        | some entries => return ((entries.find? (fun kv => key = kv.1)).map Prod.snd, r, cache)

/-- A Get that the filter lets pass answers from the block that it comes to. -/
theorem get_of_lowerBound (r : SSTableReader) (cache : Option LRUCache) {key k : Bytes} {handle : BlockHandle}
    (hno : r.filter.any (fun f => !f.mayContain key) = false) (hfound : r.index.lowerBound key = some (k, handle)) :
    r.get cache key = (r.readDataBlock cache handle.offset handle.size).map fun x =>
      (x.1.bind fun entries => (entries.find? (fun kv => key = kv.1)).map Prod.snd, x.2) := by
  simp only [get, hno, Bool.false_eq_true, if_false, hfound, Option.bind_eq_bind]
  cases r.readDataBlock cache handle.offset handle.size with
  | none => rfl
  | some x =>
      obtain ⟨entries, r', cache'⟩ := x
      cases entries with
      | none => rfl
      | some entries => rfl

/-- Every other Get reads nothing. -/
theorem get_cases (r : SSTableReader) (key : Bytes) :
    (∀ cache, r.get cache key = some (none, r, cache)) ∨ ∃ p ∈ r.index.entries, ∀ cache,
      r.get cache key = (r.readDataBlock cache p.2.offset p.2.size).map fun x =>
        (x.1.bind fun entries => (entries.find? (fun kv => key = kv.1)).map Prod.snd, x.2) := by
  cases hno : r.filter.any (fun f => !f.mayContain key) with
  | true => exact .inl fun cache => by rw [get, hno, if_pos rfl]
  | false =>
      cases hfound : r.index.lowerBound key with
      | none => exact .inl fun cache => by simp only [get, hno, Bool.false_eq_true, if_false, hfound]
      | some p => exact .inr ⟨p, List.mem_of_find?_eq_some hfound, fun cache => r.get_of_lowerBound cache hno hfound⟩

def iteratorLoop (cache : Option LRUCache) :
    List (Bytes × BlockHandle) → SSTableReader → BolckData → Option (BolckData × SSTableReader × Option LRUCache)
  | [], r, acc => some (acc, r, cache)
  | (_, handle) :: rest, r, acc => do
      let (entries, r, cache) ← r.readDataBlock cache handle.offset handle.size
      match entries with
      | some entries => iteratorLoop cache rest r (acc ++ entries)
      | none => iteratorLoop cache rest r acc

def newIterator (r : SSTableReader) (cache : Option LRUCache) :
    Option (SSTableIterator × SSTableReader × Option LRUCache) := do
  let (entries, r, cache) ← iteratorLoop cache r.index.entries r []
  return ({ entries := entries }, r, cache)

end SSTableReader

namespace SSTableIterator

def seekToFirst (it : SSTableIterator) : SSTableIterator := { it with pos := 0 }

/-- The loop of Seek, with the positions from `lo` up to `hi` left. -/
def seekLoop (entries : BolckData) (target : Bytes) : Nat → Nat → Nat → Option Nat
  | 0, lo, hi => if lo < hi then none else some lo
  | fuel + 1, lo, hi =>
      if lo < hi then do
        let mid := (lo + hi) / 2
        let entry ← entries[mid]?
        if entry.1 < target then seekLoop entries target fuel (mid + 1) hi
        else seekLoop entries target fuel lo mid
      else some lo

def seek (it : SSTableIterator) (target : Bytes) : Option SSTableIterator := do
  let lo ← seekLoop it.entries target it.entries.length 0 it.entries.length
  return { it with pos := lo }

def valid (it : SSTableIterator) : Bool := decide (it.pos < it.entries.length)

def next (it : SSTableIterator) : SSTableIterator := if it.valid then { it with pos := it.pos + 1 } else it

/-- Key and Value of an iterator that is valid. -/
def current (it : SSTableIterator) : Option (Bytes × Bytes) := it.entries[it.pos]?

/-- `for (; iter->Valid(); iter->Next())` with a body that takes Key and Value. -/
def forEachLoop {B : Type} (body : B → Bytes → Bytes → B) : Nat → SSTableIterator → B → Option B
  | 0, it, b => if it.valid then none else some b
  | fuel + 1, it, b =>
      if it.valid then do
        let (k, v) ← it.current
        forEachLoop body fuel it.next (body b k v)
      else some b

def forEach {B : Type} (it : SSTableIterator) (body : B → Bytes → Bytes → B) (b : B) : Option B :=
  forEachLoop body it.entries.length it.seekToFirst b

end SSTableIterator

end MiniStorage.Engine
