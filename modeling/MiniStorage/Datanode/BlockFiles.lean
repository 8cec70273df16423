import MiniStorage.Datanode.BlockStore

namespace MiniStorage.Datanode

open Engine Namenode NumberText

/-- The fields of the source's types. -/
structure BlockMeta.Fits (m : BlockMeta) : Prop where
  size : -2 ^ 63 ≤ m.size ∧ m.size < 2 ^ 63
  createTime : -2 ^ 63 ≤ m.createTime ∧ m.createTime < 2 ^ 63

/-- The line of a .meta file up to the first digit of its last number. -/
def BlockMeta.front (m : BlockMeta) : Bytes :=
  Decimal.encode m.blockId.toNat ++ text " " ++ showInt m.size ++ text " " ++ Decimal.encode m.crc32.toNat ++ text " " ++
    if m.createTime < 0 then text "-" else []

/-- The same block, written at any time. -/
def BlockMeta.Describes (m m' : BlockMeta) : Prop := m.blockId = m'.blockId ∧ m.size = m'.size ∧ m.crc32 = m'.crc32

theorem showInt_eq (i : Int) : showInt i = showSigned i := by
  by_cases hneg : i < 0
  · simp [showInt, showSigned, sign, hneg, text]
  · simp [showInt, showSigned, sign, hneg]

theorem line_eq (m : BlockMeta) : m.line =
    Decimal.encode m.blockId.toNat ++ 32 :: (showSigned m.size ++ 32 :: (Decimal.encode m.crc32.toNat ++
      32 :: (showSigned m.createTime ++ [10]))) := by
  have hblank : text " " = [32] := rfl
  have hend : text "\n" = [10] := rfl
  simp only [BlockMeta.line, showInt_eq, hblank, hend, List.append_assoc, List.cons_append, List.nil_append]

theorem length_front (m : BlockMeta) : m.front.length =
    (Decimal.encode m.blockId.toNat).length + (showSigned m.size).length + (Decimal.encode m.crc32.toNat).length + 3 +
      (sign (m.createTime < 0)).length := by
  have hsign : (if m.createTime < 0 then text "-" else []) = sign (m.createTime < 0) := by
    by_cases hneg : m.createTime < 0 <;> simp [sign, hneg, text]
  simp only [BlockMeta.front, hsign, showInt_eq, List.length_append]
  change _ + 1 + _ + 1 + _ + 1 + _ = _
  omega

open BlockStore

/-- What is left of the line of a .meta file is read as the line of the same block once its last number has begun. -/
theorem parseMeta_torn {m : BlockMeta} {s : Bytes} (hm : m.Fits) (h : s <+: m.line) :
    (parseMeta s).isSome = decide (m.front.length < s.length) ∧ ∀ m', parseMeta s = some m' → m'.Describes m := by
  have hnone (s : Bytes) (hp : parseMeta s = none) (hl : s.length ≤ m.front.length) :
      (parseMeta s).isSome = decide (m.front.length < s.length) ∧ ∀ m', parseMeta s = some m' → m'.Describes m := by
    rw [hp, eq_comm]
    exact ⟨decide_eq_false (Nat.not_lt.mpr hl), nofun⟩
  have hfront := length_front m
  rw [line_eq] at h
  rcases prefix_blank_cases h with hs | ⟨s₁, rfl, h₁⟩
  · refine hnone s ?_ (hs.length_le.trans (by omega))
    rcases readUnsigned_torn (w := 64) hs with hread | ⟨k, hread⟩ <;> simp [parseMeta, hread]
  have hid := readUnsigned_encode (w := 64) m.blockId.toNat_lt (@not_isDigit_head 32 rfl s₁)
  rcases prefix_blank_cases h₁ with hs | ⟨s₂, rfl, h₂⟩
  · refine hnone _ ?_ ?_
    · rcases readSigned_torn (w := 64) hs with hread | ⟨k, hread⟩ <;> simp [parseMeta, hid, hread]
    · have hlen := hs.length_le
      simp only [List.length_append, List.length_cons]
      omega
  have hsize := readSigned_showSigned (w := 64) hm.size (@not_isDigit_head 32 rfl s₂)
  rcases prefix_blank_cases h₂ with hs | ⟨s₃, rfl, h₃⟩
  · refine hnone _ ?_ ?_
    · rcases readUnsigned_torn (w := 32) hs with hread | ⟨k, hread⟩ <;> simp [parseMeta, hid, hsize, hread]
    · have hlen := hs.length_le
      simp only [List.length_append, List.length_cons]
      omega
  have hcrc := readUnsigned_encode (w := 32) m.crc32.toNat_lt (@not_isDigit_head 32 rfl s₃)
  have htime := @readSigned_cut 64 [10] s₃ m.createTime hm.createTime (not_isDigit_head rfl []) h₃
  cases hread : readSigned 64 s₃ with
  | none =>
      rw [hread] at htime
      refine hnone _ (by simp [parseMeta, hid, hsize, hcrc, hread]) ?_
      have hlen : s₃.length ≤ (sign (m.createTime < 0)).length := by simpa using htime.symm
      simp only [List.length_append, List.length_cons]
      omega
  | some p =>
      rw [hread] at htime
      have hp : parseMeta (Decimal.encode m.blockId.toNat ++ 32 :: (showSigned m.size ++
          32 :: (Decimal.encode m.crc32.toNat ++ 32 :: s₃))) = some ⟨m.blockId, m.size, m.crc32, p.1⟩ := by
        simp [parseMeta, hid, hsize, hcrc, hread]
      have hlen : (sign (m.createTime < 0)).length < s₃.length := by simpa using htime.symm
      refine ⟨?_, ?_⟩
      · rw [hp, eq_comm]
        simp only [List.length_append, List.length_cons]
        exact decide_eq_true (by omega)
      · intro m' hm'
        obtain rfl := Option.some.inj (hp.symm.trans hm')
        exact ⟨rfl, rfl, rfl⟩

/-! The file names. -/

theorem blockName_inj {dir ending : Bytes} {id id' : BlockId}
    (h : dir ++ Decimal.encodePadded 6 id.toNat ++ ending = dir ++ Decimal.encodePadded 6 id'.toNat ++ ending) :
    id = id' :=
  UInt64.toNat_inj.mp (Decimal.encodePadded_inj (List.append_cancel_left (List.append_cancel_right h)))

theorem blockDataPath_inj {id id' : BlockId} (h : blockDataPath id = blockDataPath id') : id = id' := blockName_inj h

theorem blockMetaPath_inj {id id' : BlockId} (h : blockMetaPath id = blockMetaPath id') : id = id' := blockName_inj h

theorem getLast?_dat : (text ".dat").getLast? = some 116 := by decide

theorem getLast?_meta : (text ".meta").getLast? = some 97 := by decide

theorem blockDataPath_ne_blockMetaPath (id id' : BlockId) : blockDataPath id ≠ blockMetaPath id' := by
  intro h
  have hlast := congrArg List.getLast? h
  simp only [blockDataPath, blockMetaPath, List.getLast?_append, getLast?_dat, getLast?_meta, Option.some_or] at hlast
  exact absurd (Option.some.inj hlast) (by decide)

theorem filename_append {dir name : Bytes} (hname : 47 ∉ name) : filename dir (dir ++ name) = some name := by
  simp [filename, hname]

theorem slash_not_mem (id : BlockId) (ending : Bytes) (hending : 47 ∉ ending) :
    47 ∉ text "block_" ++ Decimal.encodePadded 6 id.toNat ++ ending := by
  simp only [List.mem_append, not_or]
  refine ⟨⟨by decide, ?_⟩, hending⟩
  intro hmem
  exact absurd (Decimal.mem_encodePadded hmem).1 (by decide)

theorem length_name (id : BlockId) {ending : Bytes} :
    (text "block_" ++ Decimal.encodePadded 6 id.toNat ++ ending).length =
      6 + (Decimal.encodePadded 6 id.toNat).length + ending.length := by
  rw [List.length_append, List.length_append]
  rfl

/-- The name of a .meta file is found in blocks/ and parses back to the id. -/
theorem listedId_metaPath (id : BlockId) :
    ∃ name, filename (text "blocks/") (blockMetaPath id) = some name ∧ listedId name = some id := by
  refine ⟨text "block_" ++ Decimal.encodePadded 6 id.toNat ++ text ".meta",
    filename_append (slash_not_mem id (text ".meta") (by decide)), ?_⟩
  have hsix := Decimal.le_length_encodePadded 6 id.toNat
  have hlen : (text "block_" ++ Decimal.encodePadded 6 id.toNat ++ text ".meta").length =
      6 + (Decimal.encodePadded 6 id.toNat).length + 5 := length_name id
  have hending : (text "block_" ++ Decimal.encodePadded 6 id.toNat ++ text ".meta").drop
      (6 + (Decimal.encodePadded 6 id.toNat).length + 5 - 5) = text ".meta" :=
    List.drop_left' (List.length_append ..)
  have hnumber : ((text "block_" ++ Decimal.encodePadded 6 id.toNat ++ text ".meta").drop 6).take
      (6 + (Decimal.encodePadded 6 id.toNat).length + 5 - 11) = Decimal.encodePadded 6 id.toNat := by
    have hfront : (text "block_").length = 6 := rfl
    rw [List.append_assoc, List.drop_left' hfront]
    exact List.take_left' (by omega)
  have hread : readUnsigned 64 (Decimal.encodePadded 6 id.toNat) = some (id.toNat, []) := by
    have hne : Decimal.encodePadded 6 id.toNat ≠ [] := List.ne_nil_of_length_pos (by omega)
    have hdigits := @readUnsigned_digits 64 _ [] isDigit_of_mem_encodePadded hne (by simp)
    rw [Decimal.decode_encodePadded, List.append_nil] at hdigits
    exact hdigits id.toNat_lt
  rw [listedId, hlen, if_pos ⟨by omega, hending⟩, if_neg (by omega), hnumber, hread, Option.map_some]
  exact congrArg some UInt64.ofNat_toNat

theorem filename_dataPath (id : BlockId) :
    ∃ name, filename (text "blocks/") (blockDataPath id) = some name ∧ listedId name = none := by
  refine ⟨text "block_" ++ Decimal.encodePadded 6 id.toNat ++ text ".dat",
    filename_append (slash_not_mem id (text ".dat") (by decide)), ?_⟩
  rw [listedId, if_neg]
  rintro ⟨hlen, hending⟩
  have hlast := congrArg List.getLast? hending
  rw [List.getLast?_drop, if_neg (by omega), List.getLast?_append, getLast?_dat, getLast?_meta] at hlast
  exact absurd (Option.some.inj hlast) (by decide)

theorem filename_tmp_dataPath (id : BlockId) : filename (text "tmp/") (blockDataPath id) = none := rfl

theorem filename_tmp_metaPath (id : BlockId) : filename (text "tmp/") (blockMetaPath id) = none := rfl

/-! What a write leaves in the files. -/

/-- What a device takes of some bytes. -/
def taken (room : Option Nat) (bytes : Bytes) : Bytes :=
  match room with
  | none => bytes
  | some n => bytes.take n

/-- The room is enough for n bytes. -/
def hasRoom (room : Option Nat) (n : Nat) : Bool := room.all fun r => n ≤ r

/-- The description that WriteBlock stores with the data. -/
def BlockMeta.ofData (crc32 : Bytes → UInt32) (blockId : BlockId) (data : Bytes) (disk : Disk) : BlockMeta :=
  ⟨blockId, data.length, crc32 data, disk.now⟩

variable {crc32 : Bytes → UInt32} {s : BlockStore} {blockId : BlockId} {data : Bytes} {disk : Disk} {room : Option Nat}
  {bytes : Bytes} {m : BlockMeta} {n : Nat}

theorem taken_isPrefix (room : Option Nat) (bytes : Bytes) : taken room bytes <+: bytes := by
  cases room with
  | none => exact List.prefix_refl bytes
  | some n => exact List.take_prefix n bytes

theorem le_length_taken (hn : n ≤ bytes.length) : n ≤ (taken room bytes).length ↔ hasRoom room n = true := by
  cases room with
  | none => exact iff_of_true hn rfl
  | some r =>
      simp only [taken, hasRoom, Option.all_some, List.length_take, decide_eq_true_eq]
      omega

theorem bytes_write_taken (room : Option Nat) (bytes : Bytes) :
    (({ room := room } : OFStream).write bytes).bytes = taken room bytes := by
  cases room with
  | none => rfl
  | some n =>
      simp only [OFStream.write, if_true, taken]
      split
      next hle => rw [List.take_of_length_le hle, List.nil_append]
      next => rw [List.nil_append]

theorem length_front_lt (m : BlockMeta) : m.front.length < m.line.length := by
  have hline := congrArg List.length (line_eq m)
  have hdigit : 0 < (Decimal.encode m.createTime.natAbs).length := List.length_pos_of_ne_nil (Decimal.encode_ne_nil _)
  simp only [List.length_append, List.length_cons] at hline
  have hsigned : (showSigned m.createTime).length =
      (sign (m.createTime < 0)).length + (Decimal.encode m.createTime.natAbs).length := List.length_append ..
  rw [length_front]
  omega

/-- What is read back of the .meta file that a device took. -/
theorem parseMeta_taken (room : Option Nat) (hm : m.Fits) :
    (parseMeta (taken room m.line)).isSome = hasRoom room (m.front.length + 1) ∧
      ∀ m', parseMeta (taken room m.line) = some m' → m'.Describes m := by
  obtain ⟨hsome, hdescribes⟩ := parseMeta_torn hm (taken_isPrefix room m.line)
  refine ⟨?_, hdescribes⟩
  rw [hsome, Bool.eq_iff_iff, decide_eq_true_eq, ← le_length_taken (length_front_lt m)]
  rfl

theorem find_writeBlock (s : BlockStore) (blockId : BlockId) (data : Bytes) (h : disk.lets = true) (path : FilePath) :
    (s.writeBlock crc32 blockId data disk).2.files.find path =
    if path = blockDataPath blockId then some (taken disk.tmpRoom data)
    else if path = blockTmpPath blockId then none
    else if path = blockMetaPath blockId then some (taken disk.metaRoom (BlockMeta.ofData crc32 blockId data disk).line)
    else s.files.find path := by
  simp only [Disk.lets, Bool.and_eq_true] at h
  obtain ⟨⟨htmp, hmeta⟩, hrename⟩ := h
  have hne := (blockMetaPath_ne_blockTmpPath blockId blockId).symm
  simp only [writeBlock, writeTmp, writeMeta, renameTmp, htmp, hmeta, hrename, Bool.not_true, Bool.false_eq_true,
    if_false, if_true, SortedMap.find_insert, hne, OFStream.bytes_flush, bytes_write_taken, SortedMap.find_erase,
    BlockMeta.ofData]
  by_cases hpath : path = blockTmpPath blockId
  · simp only [hpath, if_true]
  · simp only [hpath, if_false]

theorem find_metaPath_writeBlock (s : BlockStore) (blockId : BlockId) (data : Bytes) (h : disk.lets = true) (id : BlockId) :
    (s.writeBlock crc32 blockId data disk).2.files.find (blockMetaPath id) =
    if id = blockId then some (taken disk.metaRoom (BlockMeta.ofData crc32 blockId data disk).line)
    else s.files.find (blockMetaPath id) := by
  rw [find_writeBlock s blockId data h, if_neg (blockDataPath_ne_blockMetaPath _ _).symm,
    if_neg (blockMetaPath_ne_blockTmpPath _ _)]
  by_cases hid : id = blockId
  · rw [hid, if_pos rfl, if_pos rfl]
  · rw [if_neg hid, if_neg (fun he => hid (blockMetaPath_inj he))]

theorem readMeta_writeBlock (s : BlockStore) (blockId : BlockId) (data : Bytes) (h : disk.lets = true) (id : BlockId) :
    (s.writeBlock crc32 blockId data disk).2.readMeta id =
    if id = blockId then parseMeta (taken disk.metaRoom (BlockMeta.ofData crc32 blockId data disk).line)
    else s.readMeta id := by
  rw [readMeta, find_metaPath_writeBlock s blockId data h]
  split
  next => rfl
  next => rfl

/-- A .meta file that can be read is listed, and nothing else is. -/
theorem mem_listAllBlocks {it : Iteration} : m ∈ s.listAllBlocks it ↔ ∃ id, s.readMeta id = some m := by
  simp only [listAllBlocks, List.mem_filterMap, it.mem_run, Option.bind_eq_some_iff]
  constructor
  · rintro ⟨name, -, id, -, hm⟩
    exact ⟨id, hm⟩
  · rintro ⟨id, hm⟩
    obtain ⟨bytes, hfile, -⟩ := Option.bind_eq_some_iff.mp hm
    obtain ⟨name, hname, hlisted⟩ := listedId_metaPath id
    exact ⟨name, ⟨(blockMetaPath id, bytes), SortedMap.find_eq_some.mp hfile, hname⟩, id, hlisted, hm⟩

end MiniStorage.Datanode
