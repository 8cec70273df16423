import MiniStorage.Engine.SSTableBuilder
import MiniStorage.Engine.SSTableReader

namespace MiniStorage.Engine

section Format

/-! The format of an SSTable file, as Finish leaves it. -/

variable (codec : VarintCodec)

def blockBytes (block : BolckData) : Bytes :=
  block.flatMap (fun p => lengthPrefixed codec p.1 ++ lengthPrefixed codec p.2)

def withCrc (bs : Bytes) : Bytes := bs ++ encodeFixed32 (valueCRC32 0xffffffff bs)

def dataBytes (blocks : List BolckData) : Bytes := blocks.flatMap (fun block => withCrc (blockBytes codec block))

def lastKeyOf (block : BolckData) : Bytes := (block.getLast?.map Prod.fst).getD []

/-- Position and size of a block in the file. -/
structure Extent where
  key : Bytes
  offset : Nat
  size : Nat

/-- The blocks as they lie one behind the other from `base` on. -/
def extents : Nat → List BolckData → List Extent
  | _, [] => []
  | base, block :: blocks =>
      let size := (withCrc (blockBytes codec block)).length
      ⟨lastKeyOf block, base, size⟩ :: extents (base + size) blocks

def indexBytes (es : List Extent) : Bytes :=
  es.flatMap (fun e => lengthPrefixed codec e.key ++ (codec.bytes e.offset ++ codec.bytes e.size))

/-- How Add cuts the pairs: the blocks that are full, and the pairs behind them. -/
def addPair (cut : List BolckData × BolckData) (p : Bytes × Bytes) : List BolckData × BolckData :=
  if 4096 ≤ (blockBytes codec (cut.2 ++ [p])).length then (cut.1 ++ [cut.2 ++ [p]], []) else (cut.1, cut.2 ++ [p])

/-- What Finish leaves of the pairs behind the last full block is a block too. -/
def closeBlocks (cut : List BolckData × BolckData) : List BolckData :=
  if cut.2.isEmpty then cut.1 else cut.1 ++ [cut.2]

def cutBlocks (kvs : List (Bytes × Bytes)) : List BolckData := closeBlocks (kvs.foldl (addPair codec) ([], []))

def filterBytes (f : BloomFilter) : Bytes := UInt8.ofNat f.numHashes :: f.data

def footerBytes (indexOffset indexSize filterOffset filterSize : Nat) : Bytes :=
  encodeFixed64 (UInt64.ofNat indexOffset) ++ (encodeFixed32 (UInt32.ofNat indexSize) ++
    (encodeFixed64 (UInt64.ofNat filterOffset) ++ encodeFixed32 (UInt32.ofNat filterSize)))

def tableBytes (blocks : List BolckData) (f : BloomFilter) : Bytes :=
  let data := dataBytes codec blocks
  let index := withCrc (indexBytes codec (extents codec 0 blocks))
  data ++ (filterBytes f ++ (index ++
    footerBytes (data.length + (filterBytes f).length) index.length data.length (filterBytes f).length))

end Format

variable {codec : VarintCodec}

theorem extents_append (base : Nat) (xs ys : List BolckData) :
    extents codec base (xs ++ ys) = extents codec base xs ++ extents codec (base + (dataBytes codec xs).length) ys := by
  induction xs generalizing base with
  | nil => simp [extents, dataBytes]
  | cons x xs ih =>
      simp only [List.cons_append, extents, ih, dataBytes, List.flatMap_cons, List.length_append, Nat.add_assoc]

theorem dataBytes_append (xs ys : List BolckData) :
    dataBytes codec (xs ++ ys) = dataBytes codec xs ++ dataBytes codec ys := List.flatMap_append

theorem indexBytes_append (xs ys : List Extent) :
    indexBytes codec (xs ++ ys) = indexBytes codec xs ++ indexBytes codec ys := List.flatMap_append

theorem blockBytes_append (xs ys : BolckData) :
    blockBytes codec (xs ++ ys) = blockBytes codec xs ++ blockBytes codec ys := List.flatMap_append

theorem flatten_addPair (cut : List BolckData × BolckData) (p : Bytes × Bytes) :
    (addPair codec cut p).1.flatten ++ (addPair codec cut p).2 = cut.1.flatten ++ cut.2 ++ [p] := by
  rw [addPair]
  split <;> simp

theorem flatten_foldl_addPair (cut : List BolckData × BolckData) (kvs : List (Bytes × Bytes)) :
    (kvs.foldl (addPair codec) cut).1.flatten ++ (kvs.foldl (addPair codec) cut).2 = cut.1.flatten ++ cut.2 ++ kvs := by
  induction kvs generalizing cut with
  | nil => simp
  | cons p kvs ih => rw [List.foldl_cons, ih, flatten_addPair, List.append_assoc, List.singleton_append]

theorem flatten_closeBlocks (cut : List BolckData × BolckData) :
    (closeBlocks cut).flatten = cut.1.flatten ++ cut.2 := by
  obtain ⟨blocks, cur⟩ := cut
  cases cur with
  | nil => simp [closeBlocks]
  | cons p cur => simp [closeBlocks]

theorem flatten_cutBlocks (kvs : List (Bytes × Bytes)) : (cutBlocks codec kvs).flatten = kvs := by
  rw [cutBlocks, flatten_closeBlocks, flatten_foldl_addPair]
  rfl

namespace SSTableBuilder

/-- A builder after some of its calls: the blocks it has written and the pairs in its buffer. -/
structure Built (codec : VarintCodec) (b : SSTableBuilder) (blocks : List BolckData) (cur : BolckData) : Prop where
  good : b.file.good = true ∧ b.file.room = none
  nonempty : ∀ block ∈ blocks, block ≠ []
  buffer : b.buffer = blockBytes codec cur
  data : b.file.bytes = dataBytes codec blocks
  offset : b.offset = (dataBytes codec blocks).length
  index : b.indexBlock = indexBytes codec (extents codec 0 blocks)
  last : cur ≠ [] → b.lastKey = lastKeyOf cur
  encodes : ∀ p ∈ blocks.flatten ++ cur, codec.Encodes p.1.length ∧ codec.Encodes p.2.length
  indexEncodes : ∀ e ∈ extents codec 0 blocks, codec.Encodes e.key.length ∧ codec.Encodes e.offset ∧
    codec.Encodes e.size

variable {b b' : SSTableBuilder} {blocks : List BolckData} {cur : BolckData}

theorem Built.create : (create true none).Built codec [] [] where
  good := ⟨rfl, rfl⟩
  nonempty := by simp
  buffer := rfl
  data := rfl
  offset := rfl
  index := rfl
  last := by simp
  encodes := by simp
  indexEncodes := by simp [extents]

theorem Built.isEmpty (h : b.Built codec blocks cur) : b.buffer.isEmpty = cur.isEmpty := by
  rw [h.buffer]
  cases cur with
  | nil => rfl
  | cons p cur =>
      have hlen := length_bytes_pos (h.encodes p (by simp)).1
      have hne : codec.bytes p.1.length ≠ [] := List.ne_nil_of_length_pos hlen
      simp [blockBytes, lengthPrefixed, hne]

theorem Built.flushDataBlock (h : b.Built codec blocks cur) (hcur : cur ≠ []) (hb : b.flushDataBlock codec = some b') :
    b'.Built codec (blocks ++ [cur]) [] ∧ b'.keys = b.keys := by
  have hne : b.buffer.isEmpty = false := by
    rw [h.isEmpty]
    simpa using hcur
  simp only [SSTableBuilder.flushDataBlock, hne, Bool.false_eq_true, if_false, Option.bind_eq_bind,
    Option.bind_eq_some_iff, Option.pure_def, Option.some.injEq] at hb
  obtain ⟨i₁, h₁, i₂, h₂, i₃, h₃, rfl⟩ := hb
  obtain ⟨e₁, rfl⟩ := putLengthPrefixedString_some h₁
  obtain ⟨e₂, rfl⟩ := putVarint32_some h₂
  obtain ⟨e₃, rfl⟩ := putVarint32_some h₃
  have hw₁ := OFStream.good_write b.buffer h.good.1 h.good.2
  have hw₂ := OFStream.good_write (encodeFixed32 (valueCRC32 0xffffffff b.buffer)) hw₁.1 hw₁.2
  have hb₁ := (OFStream.bytes_write hw₁.1).2
  have hb₂ := (OFStream.bytes_write hw₂.1).2
  have hsize : b.buffer.length + 4 = (withCrc (blockBytes codec cur)).length := by
    rw [h.buffer]
    simp [withCrc]
  have hext : extents codec 0 (blocks ++ [cur]) =
      extents codec 0 blocks ++ [⟨lastKeyOf cur, b.offset, b.buffer.length + 4⟩] := by
    rw [extents_append, h.offset, hsize]
    simp [extents]
  refine ⟨⟨hw₂, ?_, rfl, ?_, ?_, ?_, by simp, ?_, ?_⟩, rfl⟩
  · intro block hblock
    rcases List.mem_append.mp hblock with hm | hm
    · exact h.nonempty block hm
    · rw [List.mem_singleton.mp hm]
      exact hcur
  · rw [hb₂, hb₁, h.data, dataBytes_append, h.buffer]
    simp [dataBytes, withCrc]
  · show b.offset + (b.buffer.length + 4) = _
    rw [hsize, h.offset, dataBytes_append]
    simp [dataBytes]
  · rw [hext, indexBytes_append, h.index, h.last hcur]
    simp [indexBytes]
  · simpa using h.encodes
  · rw [hext]
    intro e he
    rcases List.mem_append.mp he with hm | hm
    · exact h.indexEncodes e hm
    · rw [List.mem_singleton.mp hm]
      rw [h.last hcur] at e₁
      exact ⟨e₁, e₂, e₃⟩

theorem Built.add {key value : Bytes} (h : b.Built codec blocks cur) (hb : b.add codec key value = some b') :
    b'.Built codec (addPair codec (blocks, cur) (key, value)).1 (addPair codec (blocks, cur) (key, value)).2 ∧
      b'.keys = b.keys ++ [key] := by
  simp only [SSTableBuilder.add, Option.bind_eq_bind, Option.bind_eq_some_iff, Option.pure_def] at hb
  obtain ⟨i₁, h₁, i₂, h₂, hb⟩ := hb
  obtain ⟨e₁, rfl⟩ := putLengthPrefixedString_some h₁
  obtain ⟨e₂, rfl⟩ := putLengthPrefixedString_some h₂
  have hmid : Built codec { b with buffer := b.buffer ++ lengthPrefixed codec key ++ lengthPrefixed codec value, lastKey := key }
      blocks (cur ++ [(key, value)]) := by
    refine ⟨h.good, h.nonempty, ?_, h.data, h.offset, h.index, ?_, ?_, h.indexEncodes⟩
    · rw [blockBytes_append, ← h.buffer]
      simp [blockBytes]
    · simp [lastKeyOf]
    · intro p hp
      rw [← List.append_assoc] at hp
      rcases List.mem_append.mp hp with hp | hp
      · exact h.encodes p hp
      · rw [List.mem_singleton.mp hp]
        exact ⟨e₁, e₂⟩
  have hbuffer := hmid.buffer
  dsimp only at hbuffer
  simp only [ge_iff_le, hbuffer] at hb
  rw [addPair]
  split at hb
  next hfull =>
    obtain ⟨b₁, h₃, hb⟩ := Option.bind_eq_some_iff.mp hb
    obtain rfl := Option.some.inj hb
    rw [← hbuffer] at h₃
    obtain ⟨hb', hk⟩ := hmid.flushDataBlock (by simp) h₃
    rw [if_pos hfull]
    exact ⟨⟨hb'.good, hb'.nonempty, hb'.buffer, hb'.data, hb'.offset, hb'.index, hb'.last, hb'.encodes,
      hb'.indexEncodes⟩, by rw [hk]⟩
  next hroom =>
    obtain rfl := Option.some.inj hb
    rw [if_neg hroom]
    exact ⟨⟨hmid.good, hmid.nonempty, rfl, hmid.data, hmid.offset, hmid.index, hmid.last, hmid.encodes,
      hmid.indexEncodes⟩, rfl⟩

theorem Built.addAll {kvs : List (Bytes × Bytes)} (h : b.Built codec blocks cur) (hb : b.addAll codec kvs = some b') :
    b'.Built codec (kvs.foldl (addPair codec) (blocks, cur)).1 (kvs.foldl (addPair codec) (blocks, cur)).2 ∧
      b'.keys = b.keys ++ kvs.map Prod.fst := by
  induction kvs generalizing b blocks cur with
  | nil =>
      obtain rfl := Option.some.inj hb
      exact ⟨h, by simp⟩
  | cons p kvs ih =>
      rw [SSTableBuilder.addAll, List.foldlM_cons] at hb
      obtain ⟨b₁, h₁, hb⟩ := Option.bind_eq_some_iff.mp hb
      obtain ⟨hb₁, hk₁⟩ := h.add h₁
      obtain ⟨hb₂, hk₂⟩ := ih hb₁ hb
      refine ⟨hb₂, ?_⟩
      rw [hk₂, hk₁]
      simp

end SSTableBuilder

/-- A complete SSTable file with these blocks and this filter. -/
structure IsTable (codec : VarintCodec) (file : Bytes) (blocks : List BolckData) (f : BloomFilter) : Prop where
  bytes_eq : file = tableBytes codec blocks f
  nonempty : ∀ block ∈ blocks, block ≠ []
  encodes : ∀ p ∈ blocks.flatten, codec.Encodes p.1.length ∧ codec.Encodes p.2.length
  indexEncodes : ∀ e ∈ extents codec 0 blocks, codec.Encodes e.key.length ∧ codec.Encodes e.offset ∧
    codec.Encodes e.size
  fits : f.Fits
  numHashes_lt : f.numHashes < 256
  mayContain : ∀ p ∈ blocks.flatten, f.mayContain p.1 = true

namespace SSTableBuilder

variable {b b' : SSTableBuilder} {blocks : List BolckData} {cur : BolckData}

theorem Built.flushRest (h : b.Built codec blocks cur)
    (hb : (if !b.buffer.isEmpty then b.flushDataBlock codec else some b) = some b') :
    b'.Built codec (closeBlocks (blocks, cur)) [] ∧ b'.keys = b.keys := by
  rw [h.isEmpty] at hb
  cases cur with
  | nil =>
      obtain rfl : b = b' := by simpa using hb
      exact ⟨h, rfl⟩
  | cons p cur => exact h.flushDataBlock (by simp) (by simpa using hb)

theorem ofEntries_length {entries : Int} {f : BloomFilter} (h : BloomFilter.ofEntries entries = some f) :
    f.data.length ≤ 2 ^ 28 := by
  simp only [BloomFilter.ofEntries] at h
  split at h
  · cases h
  · next hc =>
    obtain rfl := Option.some.inj h
    rw [not_or] at hc
    simp only [List.length_replicate]
    split <;> omega

theorem foldl_add_keeps (f : BloomFilter) (keys : List Bytes) :
    (keys.foldl BloomFilter.add f).numHashes = f.numHashes ∧
      (keys.foldl BloomFilter.add f).data.length = f.data.length := by
  induction keys generalizing f with
  | nil => exact ⟨rfl, rfl⟩
  | cons k keys ih =>
      obtain ⟨h₁, h₂⟩ := ih (f.add k)
      exact ⟨h₁, by simpa [BloomFilter.add] using h₂⟩

theorem finish_eq (b : SSTableBuilder) :
    b.finish codec = (if !b.buffer.isEmpty then b.flushDataBlock codec else some b).bind fun b =>
      (BloomFilter.ofEntries (toInt b.keys.length)).bind fun bf =>
        let bf := b.keys.foldl BloomFilter.add bf
        let filterSize := 1 + UInt32.ofNat bf.data.length
        let indexOffset := b.offset + filterSize.toNat
        let indexBlockSize := UInt32.ofNat (b.indexBlock.length + 4)
        let file := (b.file.write [UInt8.ofNat bf.numHashes]).write bf.data
        let file := (file.write b.indexBlock).write (encodeFixed32 (valueCRC32 0xffffffff b.indexBlock))
        let file := file.write (encodeFixed64 (UInt64.ofNat indexOffset) ++ encodeFixed32 indexBlockSize ++
          encodeFixed64 (UInt64.ofNat b.offset) ++ encodeFixed32 filterSize)
        some (true, { b with file := file.flush, offset := indexOffset + indexBlockSize.toNat + 24, keys := [] }) := by
  unfold finish
  simp only [Option.bind_eq_bind, Option.pure_def]
  cases b.buffer.isEmpty <;> rfl

theorem Built.finish {ok : Bool} (h : b.Built codec blocks cur) (hk : b.keys = (blocks.flatten ++ cur).map Prod.fst)
    (hb : b.finish codec = some (ok, b')) :
    ok = true ∧ b'.file.good = true ∧ b'.indexBlock = indexBytes codec (extents codec 0 (closeBlocks (blocks, cur))) ∧
      ∃ f, IsTable codec b'.file.durable (closeBlocks (blocks, cur)) f ∧ f.data.length ≤ 2 ^ 28 := by
  rw [finish_eq] at hb
  obtain ⟨b₁, h₁, hb⟩ := Option.bind_eq_some_iff.mp hb
  obtain ⟨bf, hbf, hb⟩ := Option.bind_eq_some_iff.mp hb
  obtain ⟨hb₁, hk₁⟩ := h.flushRest h₁
  simp only [Option.some.injEq, Prod.mk.injEq] at hb
  obtain ⟨rfl, rfl⟩ := hb
  obtain ⟨hfits, hmay⟩ := (BloomFilter.Fits.ofEntries hbf).mayContain_foldl b₁.keys
  obtain ⟨hhash, hlen⟩ := foldl_add_keeps bf b₁.keys
  have hsmall := ofEntries_length hbf
  generalize hf : b₁.keys.foldl BloomFilter.add bf = f at *
  have hw₁ := OFStream.good_write [UInt8.ofNat f.numHashes] hb₁.good.1 hb₁.good.2
  have hw₂ := OFStream.good_write f.data hw₁.1 hw₁.2
  have hw₃ := OFStream.good_write b₁.indexBlock hw₂.1 hw₂.2
  have hw₄ := OFStream.good_write (encodeFixed32 (valueCRC32 0xffffffff b₁.indexBlock)) hw₃.1 hw₃.2
  have hsize : (1 + UInt32.ofNat f.data.length).toNat = (filterBytes f).length := by
    rw [UInt32.toNat_add, UInt32.toNat_ofNat']
    simp only [filterBytes, List.length_cons, UInt32.reduceToNat]
    omega
  have hsize' : 1 + UInt32.ofNat f.data.length = UInt32.ofNat (filterBytes f).length := by
    rw [← hsize, UInt32.ofNat_toNat]
  have hw₅ := OFStream.good_write (encodeFixed64 (UInt64.ofNat (b₁.offset + (1 + UInt32.ofNat f.data.length).toNat)) ++
    encodeFixed32 (UInt32.ofNat (b₁.indexBlock.length + 4)) ++ encodeFixed64 (UInt64.ofNat b₁.offset) ++
    encodeFixed32 (1 + UInt32.ofNat f.data.length)) hw₄.1 hw₄.2
  refine ⟨rfl, by rw [OFStream.good_flush]; exact hw₅.1, hb₁.index, f, ⟨?_, hb₁.nonempty, by simpa using hb₁.encodes,
    hb₁.indexEncodes, hfits, ?_, ?_⟩, by omega⟩
  · show OFStream.durable (OFStream.flush _) = _
    rw [OFStream.durable_flush hw₅.1, (OFStream.bytes_write hw₅.1).2, (OFStream.bytes_write hw₄.1).2,
      (OFStream.bytes_write hw₃.1).2, (OFStream.bytes_write hw₂.1).2, (OFStream.bytes_write hw₁.1).2, hb₁.data,
      hsize, hsize', hb₁.offset, hb₁.index]
    simp [tableBytes, footerBytes, filterBytes, withCrc]
  · rw [hhash, BloomFilter.ofEntries_numHashes hbf]
    decide
  · intro p hp
    apply hmay
    rw [flatten_closeBlocks] at hp
    rw [hk₁, hk]
    exact .inl (List.mem_map_of_mem hp)

end SSTableBuilder

end MiniStorage.Engine
