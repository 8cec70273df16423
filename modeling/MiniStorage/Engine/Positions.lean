import MiniStorage.Engine.SSTableRoundTrip

namespace MiniStorage.Engine

/-- One entry of index_block_, with the numbers that PutVarint32 is given. -/
structure IndexRecord where
  key : Bytes
  offset : UInt32
  size : UInt32

namespace IndexRecord

def bytes (codec : VarintCodec) (r : IndexRecord) : Bytes :=
  lengthPrefixed codec r.key ++ ((codec.encode r.offset).getD [] ++ (codec.encode r.size).getD [])

def extent (r : IndexRecord) : Extent := ⟨r.key, r.offset.toNat, r.size.toNat⟩

end IndexRecord

/-- The index block says where these blocks are, and the footer how long index and filter are. -/
structure RecordsPositions (codec : VarintCodec) (index file : Bytes) (blocks : List BolckData) : Prop where
  entries : ∃ rs : List IndexRecord, index = rs.flatMap (IndexRecord.bytes codec) ∧
    rs.map IndexRecord.extent = extents codec 0 blocks
  indexSize : (decodeFixed32 (file.drop (file.length - 16))).map UInt32.toNat = some (index.length + 4)
  -- the filter lies between the blocks and the index
  filterSize : (decodeFixed32 (file.drop (file.length - 4))).map UInt32.toNat =
    some (file.length - ((dataBytes codec blocks).length + (index.length + 4) + 24))

/-- The blocks in front of the last one, every single block and the index, with their checksums, are below 2^32 bytes. -/
structure PositionsFit (codec : VarintCodec) (blocks : List BolckData) : Prop where
  front : (dataBytes codec blocks.dropLast).length < 2 ^ 32
  sizes : ∀ block ∈ blocks, (blockBytes codec block).length + 4 < 2 ^ 32
  index : (indexBytes codec (extents codec 0 blocks)).length + 4 < 2 ^ 32

variable {codec : VarintCodec}

/-- An extent is where its block lies. -/
theorem extents_lie (base : Bytes) (blocks : List BolckData) (rest : Bytes) :
    List.Forall₂ (fun block e => ((base ++ (dataBytes codec blocks ++ rest)).drop e.offset).take e.size =
      withCrc (blockBytes codec block)) blocks (extents codec base.length blocks) := by
  induction blocks generalizing base with
  | nil => exact .nil
  | cons block blocks ih =>
      have hrest := ih (base ++ withCrc (blockBytes codec block))
      have hcons : dataBytes codec (block :: blocks) = withCrc (blockBytes codec block) ++ dataBytes codec blocks := by
        rw [dataBytes, dataBytes, List.flatMap_cons]
      rw [List.append_assoc, ← List.append_assoc (withCrc _), ← hcons, List.length_append] at hrest
      refine .cons ?_ hrest
      rw [hcons, List.drop_left, List.append_assoc, List.take_left]

theorem extents_offset_le {base : Nat} {blocks : List BolckData} {e : Extent} (he : e ∈ extents codec base blocks) :
    e.offset ≤ base + (dataBytes codec blocks.dropLast).length := by
  induction blocks generalizing base with
  | nil => cases he
  | cons block blocks ih =>
      rcases List.mem_cons.mp he with rfl | he
      · exact Nat.le_add_right _ _
      · cases blocks with
        | nil => cases he
        | cons next blocks =>
            have hle := ih he
            rw [List.dropLast_cons_cons, dataBytes, List.flatMap_cons, List.length_append]
            exact hle.trans_eq (Nat.add_assoc _ _ _)

theorem le_offset_extents {base : Nat} {blocks : List BolckData} {e : Extent} (he : e ∈ extents codec base blocks) :
    base ≤ e.offset := by
  induction blocks generalizing base with
  | nil => cases he
  | cons block blocks ih =>
      rcases List.mem_cons.mp he with rfl | he
      · exact le_rfl
      · exact (Nat.le_add_right _ _).trans (ih he)

theorem nodup_offsets (base : Nat) (blocks : List BolckData) :
    ((extents codec base blocks).map Extent.offset).Nodup := by
  induction blocks generalizing base with
  | nil => exact .nil
  | cons block blocks ih =>
      rw [extents, List.map_cons, List.nodup_cons]
      refine ⟨?_, ih _⟩
      intro hmem
      obtain ⟨e, he, hoff⟩ := List.mem_map.mp hmem
      have hle := le_offset_extents he
      rw [length_withCrc] at hle
      dsimp only at hoff
      omega

theorem exists_extent_last (codec : VarintCodec) {blocks : List BolckData} (h : blocks ≠ []) :
    ∃ e ∈ extents codec 0 blocks, e.offset = (dataBytes codec blocks.dropLast).length := by
  obtain ⟨front, block, rfl⟩ := (List.eq_nil_or_concat' blocks).resolve_left h
  rw [List.dropLast_concat, extents_append]
  exact ⟨_, List.mem_append_right _ List.mem_cons_self, Nat.zero_add _⟩

theorem size_mem_extents {base : Nat} {blocks : List BolckData} {e : Extent} (he : e ∈ extents codec base blocks) :
    ∃ block ∈ blocks, e.size = (blockBytes codec block).length + 4 := by
  induction blocks generalizing base with
  | nil => cases he
  | cons block blocks ih =>
      rcases List.mem_cons.mp he with rfl | he
      · exact ⟨block, List.mem_cons_self, length_withCrc _⟩
      · obtain ⟨b, hb, hsize⟩ := ih he
        exact ⟨b, List.mem_cons_of_mem _ hb, hsize⟩

theorem exists_extent_size (codec : VarintCodec) (base : Nat) {blocks : List BolckData} {block : BolckData}
    (h : block ∈ blocks) :
    ∃ e ∈ extents codec base blocks, e.size = (blockBytes codec block).length + 4 := by
  induction blocks generalizing base with
  | nil => cases h
  | cons b blocks ih =>
      rcases List.mem_cons.mp h with rfl | h
      · exact ⟨_, List.mem_cons_self, length_withCrc _⟩
      · obtain ⟨e, he, hsize⟩ := ih _ h
        exact ⟨e, List.mem_cons_of_mem _ he, hsize⟩

/-- What 32 bits can hold of every position and size is all of it. -/
theorem records_of_fit {es : List Extent} (h : ∀ e ∈ es, e.offset < 2 ^ 32 ∧ e.size < 2 ^ 32) :
    ∃ rs : List IndexRecord, indexBytes codec es = rs.flatMap (IndexRecord.bytes codec) ∧
      rs.map IndexRecord.extent = es := by
  refine ⟨es.map fun e => ⟨e.key, UInt32.ofNat e.offset, UInt32.ofNat e.size⟩, ?_, ?_⟩
  · rw [List.flatMap_map]
    rfl
  · have hsame (e : Extent) (he : e ∈ es) :
        IndexRecord.extent ⟨e.key, UInt32.ofNat e.offset, UInt32.ofNat e.size⟩ = id e := by
      rw [IndexRecord.extent, toNat_ofNat32 (h e he).1, toNat_ofNat32 (h e he).2]
      rfl
    rw [List.map_map]
    exact (List.map_congr_left hsame).trans (List.map_id es)

/-- The footer of a table. -/
theorem decode_tail {file front : Bytes} {a b c d : Nat} (h : file = front ++ footerBytes a b c d) :
    decodeFixed32 (file.drop (file.length - 16)) = some (UInt32.ofNat b) ∧
      decodeFixed32 (file.drop (file.length - 4)) = some (UInt32.ofNat d) := by
  obtain ⟨hlen, -, h₁, -, h₂⟩ := decode_footer a b c d
  have hcut (n : Nat) (hn : n ≤ 24) : file.drop (file.length - (24 - n)) = (footerBytes a b c d).drop n := by
    have hat : file.length - (24 - n) = front.length + n := by
      rw [h, List.length_append, hlen]
      omega
    rw [hat, h, List.drop_append]
    simp
  rw [← hcut 8 (by decide)] at h₁
  rw [← hcut 20 (by decide)] at h₂
  exact ⟨h₁, h₂⟩

section Table

variable {file : Bytes} {blocks : List BolckData} {f : BloomFilter}

theorem IsTable.lie (h : IsTable codec file blocks f) :
    List.Forall₂ (fun block e => (file.drop e.offset).take e.size = withCrc (blockBytes codec block)) blocks
      (extents codec 0 blocks) := by
  rw [h.bytes_eq]
  exact extents_lie [] blocks _

/-- The sizes in the footer, and how they add up. -/
theorem IsTable.footer (h : IsTable codec file blocks f) :
    decodeFixed32 (file.drop (file.length - 16)) =
      some (UInt32.ofNat ((indexBytes codec (extents codec 0 blocks)).length + 4)) ∧
      decodeFixed32 (file.drop (file.length - 4)) = some (UInt32.ofNat (filterBytes f).length) ∧
      file.length = (dataBytes codec blocks).length + (filterBytes f).length +
        ((indexBytes codec (extents codec 0 blocks)).length + 4) + 24 := by
  let index := indexBytes codec (extents codec 0 blocks)
  have hfile : file = (dataBytes codec blocks ++ (filterBytes f ++ withCrc index)) ++
      footerBytes ((dataBytes codec blocks).length + (filterBytes f).length) (withCrc index).length
        (dataBytes codec blocks).length (filterBytes f).length := by
    rw [h.bytes_eq, tableBytes, List.append_assoc, List.append_assoc]
  obtain ⟨hisize, hfsize⟩ := decode_tail hfile
  rw [length_withCrc] at hisize
  refine ⟨hisize, hfsize, ?_⟩
  rw [hfile, List.length_append, (decode_footer _ _ _ _).1, List.length_append, List.length_append, length_withCrc]
  show _ = _ + _ + (index.length + 4) + 24
  omega

theorem IsTable.positionsFit (h : IsTable codec file blocks f)
    (hrec : RecordsPositions codec (indexBytes codec (extents codec 0 blocks)) file blocks) :
    PositionsFit codec blocks := by
  obtain ⟨rs, -, hrs⟩ := hrec.entries
  have hsmall : ∀ e ∈ extents codec 0 blocks, e.offset < 2 ^ 32 ∧ e.size < 2 ^ 32 := by
    intro e he
    rw [← hrs] at he
    obtain ⟨r, -, rfl⟩ := List.mem_map.mp he
    exact ⟨r.offset.toNat_lt, r.size.toNat_lt⟩
  constructor
  · by_cases hnil : blocks = []
    · rw [hnil]
      exact Nat.two_pow_pos 32
    · obtain ⟨e, he, hoff⟩ := exists_extent_last codec hnil
      rw [← hoff]
      exact (hsmall e he).1
  · intro block hblock
    obtain ⟨e, he, hsize⟩ := exists_extent_size codec 0 hblock
    rw [← hsize]
    exact (hsmall e he).2
  · have hi := hrec.indexSize
    rw [h.footer.1, Option.map_some] at hi
    rw [← Option.some.inj hi]
    exact UInt32.toNat_lt _

theorem IsTable.recordsPositions (h : IsTable codec file blocks f) (hflen : f.data.length ≤ 2 ^ 28)
    (hfit : PositionsFit codec blocks) :
    RecordsPositions codec (indexBytes codec (extents codec 0 blocks)) file blocks := by
  obtain ⟨hisize, hfsize, hlen⟩ := h.footer
  have hfilter : (filterBytes f).length < 2 ^ 32 := by
    rw [filterBytes, List.length_cons]
    omega
  constructor
  · apply records_of_fit
    intro e he
    obtain ⟨block, hblock, hsize⟩ := size_mem_extents he
    have hoff := extents_offset_le he
    rw [Nat.zero_add] at hoff
    exact ⟨lt_of_le_of_lt hoff hfit.front, hsize ▸ hfit.sizes block hblock⟩
  · rw [hisize, Option.map_some, toNat_ofNat32 hfit.index]
  · rw [hfsize, Option.map_some, toNat_ofNat32 hfilter, hlen]
    congr 1
    omega

end Table

theorem positions_recorded_iff {kvs : List (Bytes × Bytes)} {b b' : SSTableBuilder} {ok : Bool}
    (hadd : (SSTableBuilder.create true none).addAll codec kvs = some b) (hfin : b.finish codec = some (ok, b')) :
    List.Forall₂ (fun block e => (b'.file.durable.drop e.offset).take e.size = withCrc (blockBytes codec block))
      (cutBlocks codec kvs) (extents codec 0 (cutBlocks codec kvs)) ∧
    (RecordsPositions codec b'.indexBlock b'.file.durable (cutBlocks codec kvs) ↔
      PositionsFit codec (cutBlocks codec kvs)) := by
  obtain ⟨-, hindex, f, htable, hflen⟩ := SSTableBuilder.isTable_of_finish hadd hfin
  rw [hindex]
  exact ⟨htable.lie, htable.positionsFit, htable.recordsPositions hflen⟩

theorem positions_recorded_one : ∃ b b', (SSTableBuilder.create true none).addAll .base128 [([1], [2])] = some b ∧
    b.finish .base128 = some (true, b') ∧
    RecordsPositions .base128 b'.indexBlock b'.file.durable (cutBlocks .base128 [([1], [2])]) := by
  obtain ⟨b, hadd⟩ := Option.isSome_iff_exists.mp
    (SSTableBuilder.addAll_isSome VarintCodec.base128_encodes (.create true none) [([1], [2])])
  obtain ⟨-, hkeys⟩ := SSTableBuilder.Built.create.addAll hadd
  obtain ⟨⟨ok, b'⟩, hfin⟩ := Option.isSome_iff_exists.mp
    (SSTableBuilder.finish_isSome VarintCodec.base128_encodes b (by rw [hkeys]; decide))
  obtain ⟨rfl, -⟩ := SSTableBuilder.isTable_of_finish hadd hfin
  have hcut : cutBlocks .base128 [([1], [2])] = [[([1], [2])]] := by decide
  refine ⟨b, b', hadd, hfin, (positions_recorded_iff hadd hfin).2.mpr ?_⟩
  rw [hcut]
  exact ⟨by decide, by decide, by decide⟩

theorem length_blockBytes_singleton (codec : VarintCodec) (key value : Bytes) :
    (blockBytes codec [(key, value)]).length =
    (codec.bytes key.length).length + key.length + ((codec.bytes value.length).length + value.length) := by
  simp only [blockBytes, List.flatMap_cons, List.flatMap_nil, List.append_nil, lengthPrefixed, List.length_append]

/-- Two pairs that fill a block each, and one that does not. -/
theorem cutBlocks_three {p q r : Bytes × Bytes} (hp : 4096 ≤ (blockBytes codec [p]).length)
    (hq : 4096 ≤ (blockBytes codec [q]).length) (hr : ¬ 4096 ≤ (blockBytes codec [r]).length) :
    cutBlocks codec [p, q, r] = [[p], [q], [r]] := by
  have hfull (blocks : List BolckData) {p : Bytes × Bytes} (hp : 4096 ≤ (blockBytes codec [p]).length) :
      addPair codec (blocks, []) p = (blocks ++ [[p]], []) := by
    rw [addPair, List.nil_append, if_pos hp]
  have hlast (blocks : List BolckData) : addPair codec (blocks, []) r = (blocks, [r]) := by
    rw [addPair, List.nil_append, if_neg hr]
  rw [cutBlocks, List.foldl_cons, List.foldl_cons, List.foldl_cons, hfull _ hp, hfull _ hq, hlast]
  rfl

/-- Two values of 2^31 bytes put a third block behind what 32 bits can say. -/
theorem positions_truncated : ¬ ∀ (kvs : List (Bytes × Bytes)) (b b' : SSTableBuilder) (ok : Bool),
    (SSTableBuilder.create true none).addAll .base128 kvs = some b → b.finish .base128 = some (ok, b') →
      RecordsPositions .base128 b'.indexBlock b'.file.durable (cutBlocks .base128 kvs) := by
  intro h
  obtain ⟨v, hv⟩ : ∃ v : Bytes, v.length = 2 ^ 31 := ⟨List.replicate (2 ^ 31) 0, List.length_replicate⟩
  obtain ⟨b, hadd⟩ := Option.isSome_iff_exists.mp
    (SSTableBuilder.addAll_isSome VarintCodec.base128_encodes (.create true none) [([1], v), ([2], v), ([3], [])])
  obtain ⟨-, hkeys⟩ := SSTableBuilder.Built.create.addAll hadd
  obtain ⟨⟨ok, b'⟩, hfin⟩ := Option.isSome_iff_exists.mp
    (SSTableBuilder.finish_isSome VarintCodec.base128_encodes b (by rw [hkeys]; simp [SSTableBuilder.create]))
  obtain ⟨-, hindex, f, htable, -⟩ := SSTableBuilder.isTable_of_finish hadd hfin
  have hfit := htable.positionsFit (hindex ▸ h _ b b' ok hadd hfin)
  have hlong (key : Bytes) : 2 ^ 31 ≤ (blockBytes .base128 [(key, v)]).length := by
    rw [length_blockBytes_singleton]
    omega
  have hcut : cutBlocks .base128 [([1], v), ([2], v), ([3], [])] = [[([1], v)], [([2], v)], [([3], [])]] :=
    cutBlocks_three (le_trans (by decide) (hlong [1])) (le_trans (by decide) (hlong [2])) (by decide)
  have hfront := hfit.front
  have hone := hlong [1]
  have htwo := hlong [2]
  rw [hcut] at hfront
  simp only [List.dropLast_cons_cons, List.dropLast_singleton, dataBytes, List.flatMap_cons, List.flatMap_nil,
    List.length_append, length_withCrc, List.length_nil] at hfront
  omega

end MiniStorage.Engine
