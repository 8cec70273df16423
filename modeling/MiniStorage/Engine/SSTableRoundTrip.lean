import MiniStorage.Engine.SSTable
namespace MiniStorage.Engine

variable {codec : VarintCodec}

theorem readInto_append {f : IFStream} {xs ys zs : Bytes} {n : Nat} (hf : f.failed = false)
    (hb : f.bytes = xs ++ (ys ++ zs)) (hx : xs.length < 2 ^ 63) (hn : ys.length = n) :
    ∃ f', readInto (f.seekg xs.length) n = (ys, f') ∧ f'.failed = false ∧ f'.bytes = f.bytes := by
  have hs : f.seekg xs.length = { f with pos := xs.length } := by
    simp only [IFStream.seekg, hf, Bool.false_eq_true, if_false, hx, if_true]
  have hr : IFStream.rest { f with pos := xs.length } = ys ++ zs := by
    simp [IFStream.rest, hb]
  obtain ⟨f', h', hf', -, hb'⟩ := IFStream.read_append (f := { f with pos := xs.length }) hf hr hn
  refine ⟨f', ?_, hf', hb'⟩
  simp [readInto, hs, h', hn]

theorem parseBlock_blockBytes {block : BolckData}
    (he : ∀ p ∈ block, codec.Encodes p.1.length ∧ codec.Encodes p.2.length)
    (hl : ∀ p ∈ block, p.1.length < 2 ^ 32 ∧ p.2.length < 2 ^ 32) {fuel : Nat}
    (hf : (blockBytes codec block).length ≤ fuel) (beyond : Bytes) (out : BolckData) :
    parseBlock fuel ⟨blockBytes codec block, beyond⟩ out = some (out ++ block) := by
  induction block generalizing fuel out with
  | nil => cases fuel <;> simp [parseBlock, blockBytes]
  | cons p block ih =>
      obtain ⟨k, v⟩ := p
      obtain ⟨hk, hv⟩ := he (k, v) List.mem_cons_self
      obtain ⟨lk, lv⟩ := hl (k, v) List.mem_cons_self
      have hcons : blockBytes codec ((k, v) :: block) =
          lengthPrefixed codec k ++ (lengthPrefixed codec v ++ blockBytes codec block) := by
        simp [blockBytes]
      have hne : lengthPrefixed codec k ++ (lengthPrefixed codec v ++ blockBytes codec block) ≠ [] :=
        fun h => lengthPrefixed_ne_nil hk (List.append_eq_nil_iff.mp h).1
      have hpos : 0 < (lengthPrefixed codec k).length := List.length_pos_of_ne_nil (lengthPrefixed_ne_nil hk)
      rw [hcons] at hf ⊢
      simp only [List.length_append] at hf
      obtain ⟨fuel, rfl⟩ := Nat.exists_eq_succ_of_ne_zero (by omega : fuel ≠ 0)
      simp only [parseBlock, hne, if_false, decodeString_lengthPrefixed hk lk, decodeString_lengthPrefixed hv lv,
        Option.bind_eq_bind, Option.bind_some]
      rw [ih (fun p hp => he p (List.mem_cons_of_mem _ hp)) (fun p hp => hl p (List.mem_cons_of_mem _ hp)) (by omega)]
      simp

/-- An extent as the index of a reader holds it. -/
def Extent.entry (e : Extent) : Bytes × BlockHandle := (e.key, ⟨(UInt32.ofNat e.offset).toUInt64, UInt32.ofNat e.size⟩)

theorem parseIndex_indexBytes {es : List Extent}
    (he : ∀ e ∈ es, codec.Encodes e.key.length ∧ codec.Encodes e.offset ∧ codec.Encodes e.size)
    (hl : ∀ e ∈ es, e.key.length < 2 ^ 32) (hasc : es.Pairwise (fun a b => a.key < b.key))
    {m : SortedMap Bytes BlockHandle} (hm : ∀ q ∈ m.entries, ∀ e ∈ es, q.1 < e.key) {fuel : Nat}
    (hf : (indexBytes codec es).length ≤ fuel) (beyond : Bytes) :
    ∃ m', parseIndex fuel ⟨indexBytes codec es, beyond⟩ m = some m' ∧
      m'.entries = m.entries ++ es.map Extent.entry := by
  induction es generalizing fuel m with
  | nil => exact ⟨m, by cases fuel <;> simp [parseIndex, indexBytes], by simp⟩
  | cons e es ih =>
      obtain ⟨hk, ho, hs⟩ := he e List.mem_cons_self
      have lk := hl e List.mem_cons_self
      obtain ⟨hlt, hasc'⟩ := List.pairwise_cons.mp hasc
      have hcons : indexBytes codec (e :: es) = lengthPrefixed codec e.key ++
          (codec.bytes e.offset ++ (codec.bytes e.size ++ indexBytes codec es)) := by
        simp [indexBytes]
      have hne : lengthPrefixed codec e.key ++
          (codec.bytes e.offset ++ (codec.bytes e.size ++ indexBytes codec es)) ≠ [] :=
        fun h => lengthPrefixed_ne_nil hk (List.append_eq_nil_iff.mp h).1
      have hpos := List.length_pos_of_ne_nil (lengthPrefixed_ne_nil hk)
      have hpo := length_bytes_pos ho
      have hps := length_bytes_pos hs
      rw [hcons] at hf ⊢
      simp only [List.length_append] at hf
      obtain ⟨fuel, rfl⟩ := Nat.exists_eq_succ_of_ne_zero (by omega : fuel ≠ 0)
      have hins := SortedMap.entries_insert_of_forall_lt (m := m) (k := e.key)
        (v := ⟨(UInt32.ofNat e.offset).toUInt64, UInt32.ofNat e.size⟩) (fun q hq => hm q hq e List.mem_cons_self)
      have hno : ¬ ((codec.bytes e.offset).length : Int) ≤ 0 := by omega
      have hns : ¬ ((codec.bytes e.size).length : Int) ≤ 0 := by omega
      have hf' : (indexBytes codec es).length ≤ fuel := by omega
      obtain ⟨m', h', hm'⟩ := ih (m := m.insert e.key ⟨(UInt32.ofNat e.offset).toUInt64, UInt32.ofNat e.size⟩)
        (fun a ha => he a (List.mem_cons_of_mem _ ha)) (fun a ha => hl a (List.mem_cons_of_mem _ ha)) hasc'
        (by
          intro q hq a ha
          rw [hins] at hq
          rcases List.mem_append.mp hq with hq | hq
          · exact hm q hq a (List.mem_cons_of_mem _ ha)
          · rw [List.mem_singleton.mp hq]
            exact hlt a ha)
        hf'
      refine ⟨m', ?_, ?_⟩
      · simp only [parseIndex, hne, if_false, decodeString_lengthPrefixed hk lk, Option.bind_eq_bind, Option.bind_some,
          Cursor.bytes, List.append_assoc, ho.decode, hs.decode, hno, hns, Int.toNat_natCast, advance_append]
        exact h'
      · rw [hm', hins, List.map_cons, List.append_assoc]
        rfl

/-- The keys go up through the blocks. -/
def Ascending (blocks : List BolckData) : Prop := blocks.flatten.Pairwise (fun p q => p.1 < q.1)

theorem lastKeyOf_mem {block : BolckData} (h : block ≠ []) : ∃ p ∈ block, lastKeyOf block = p.1 :=
  ⟨block.getLast h, List.getLast_mem h, by simp [lastKeyOf, List.getLast?_eq_getLast_of_ne_nil h]⟩

theorem key_mem_of_mem_extents {base : Nat} {blocks : List BolckData} (hne : ∀ block ∈ blocks, block ≠ []) {e : Extent}
    (he : e ∈ extents codec base blocks) : ∃ p ∈ blocks.flatten, e.key = p.1 := by
  induction blocks generalizing base with
  | nil => simp [extents] at he
  | cons block blocks ih =>
      rcases List.mem_cons.mp he with rfl | he
      · obtain ⟨p, hp, hk⟩ := lastKeyOf_mem (hne block List.mem_cons_self)
        exact ⟨p, by simp [hp], hk⟩
      · obtain ⟨p, hp, hk⟩ := ih (fun b hb => hne b (List.mem_cons_of_mem _ hb)) he
        exact ⟨p, by rw [List.flatten_cons]; exact List.mem_append_right _ hp, hk⟩

theorem extents_ascending {base : Nat} {blocks : List BolckData} (hne : ∀ block ∈ blocks, block ≠ [])
    (hasc : Ascending blocks) : (extents codec base blocks).Pairwise (fun a b => a.key < b.key) := by
  induction blocks generalizing base with
  | nil => exact .nil
  | cons block blocks ih =>
      have hne' : ∀ b ∈ blocks, b ≠ [] := fun b hb => hne b (List.mem_cons_of_mem _ hb)
      rw [Ascending, List.flatten_cons, List.pairwise_append] at hasc
      refine List.pairwise_cons.mpr ⟨?_, ih hne' hasc.2.1⟩
      intro e he
      obtain ⟨p, hp, hk⟩ := lastKeyOf_mem (hne block List.mem_cons_self)
      obtain ⟨q, hq, hq'⟩ := key_mem_of_mem_extents hne' he
      show lastKeyOf block < e.key
      rw [hk, hq']
      exact hasc.2.2 p hp q hq

theorem length_le_of_mem_blockBytes (codec : VarintCodec) {block : BolckData} {p : Bytes × Bytes} (h : p ∈ block) :
    p.1.length ≤ (blockBytes codec block).length ∧ p.2.length ≤ (blockBytes codec block).length := by
  induction block with
  | nil => cases h
  | cons q block ih =>
      have hcons : (blockBytes codec (q :: block)).length =
          (lengthPrefixed codec q.1).length + (lengthPrefixed codec q.2).length + (blockBytes codec block).length := by
        simp only [blockBytes, List.flatMap_cons, List.length_append]
      have h₁ : q.1.length ≤ (lengthPrefixed codec q.1).length := by simp [lengthPrefixed]
      have h₂ : q.2.length ≤ (lengthPrefixed codec q.2).length := by simp [lengthPrefixed]
      rcases List.mem_cons.mp h with rfl | h
      · omega
      · have := ih h
        omega

theorem length_le_of_mem_dataBytes (codec : VarintCodec) {blocks : List BolckData} {block : BolckData}
    (h : block ∈ blocks) :
    (withCrc (blockBytes codec block)).length ≤ (dataBytes codec blocks).length := by
  obtain ⟨xs, ys, rfl⟩ := List.append_of_mem h
  simp only [dataBytes, List.flatMap_append, List.flatMap_cons, List.length_append]
  omega

theorem length_withCrc (bs : Bytes) : (withCrc bs).length = bs.length + 4 := by
  simp [withCrc]

theorem length_le_of_mem_flatten (codec : VarintCodec) {blocks : List BolckData} {p : Bytes × Bytes}
    (h : p ∈ blocks.flatten) :
    p.1.length ≤ (dataBytes codec blocks).length ∧ p.2.length ≤ (dataBytes codec blocks).length := by
  obtain ⟨block, hb, hp⟩ := List.mem_flatten.mp h
  have h₁ := length_le_of_mem_blockBytes codec hp
  have h₂ := length_le_of_mem_dataBytes codec hb
  rw [length_withCrc] at h₂
  omega

/-- A file by its path, and the blocks in it, whose keys go up. -/
structure Table where
  name : Bytes
  blocks : List BolckData
  ascending : Ascending blocks

/-- The pairs of a file as a map. -/
def Table.kvs (t : Table) : SortedMap Bytes Bytes := ⟨t.blocks.flatten, t.ascending⟩

theorem Table.find_kvs (t : Table) (key : Bytes) : t.kvs.find key = SortedMap.findEntry key t.blocks.flatten := rfl

/-- A reader whose Open has succeeded on a file. -/
structure Serves (codec : VarintCodec) (r : SSTableReader) (t : Table) : Prop where
  filename : r.filename = t.name
  failed : r.file.failed = false
  bytes : ∃ rest, r.file.bytes = dataBytes codec t.blocks ++ rest
  short : (dataBytes codec t.blocks).length < 2 ^ 32
  index : r.index.entries = (extents codec 0 t.blocks).map Extent.entry
  nonempty : ∀ block ∈ t.blocks, block ≠ []
  encodes : ∀ p ∈ t.blocks.flatten, codec.Encodes p.1.length ∧ codec.Encodes p.2.length
  mayContain : ∃ f, r.filter = some f ∧ ∀ p ∈ t.blocks.flatten, f.mayContain p.1 = true

theorem toNat_ofNat32 {n : Nat} (h : n < 2 ^ 32) : (UInt32.ofNat n).toNat = n := by
  rw [UInt32.toNat_ofNat', Nat.mod_eq_of_lt h]

theorem toNat_ofNat64 {n : Nat} (h : n < 2 ^ 64) : (UInt64.ofNat n).toNat = n := by
  rw [UInt64.toNat_ofNat', Nat.mod_eq_of_lt h]

theorem decode_footer (indexOffset indexSize filterOffset filterSize : Nat) :
    let footer := footerBytes indexOffset indexSize filterOffset filterSize
    footer.length = 24 ∧ decodeFixed64 footer = some (UInt64.ofNat indexOffset) ∧
      decodeFixed32 (footer.drop 8) = some (UInt32.ofNat indexSize) ∧
      decodeFixed64 (footer.drop 12) = some (UInt64.ofNat filterOffset) ∧
      decodeFixed32 (footer.drop 20) = some (UInt32.ofNat filterSize) := by
  have hdrop8 (a b : UInt64) (c d : UInt32) :
      (encodeFixed64 a ++ (encodeFixed32 c ++ (encodeFixed64 b ++ encodeFixed32 d))).drop 8 =
        encodeFixed32 c ++ (encodeFixed64 b ++ encodeFixed32 d) := List.drop_left' (by simp)
  have hdrop12 (a b : UInt64) (c d : UInt32) :
      (encodeFixed64 a ++ (encodeFixed32 c ++ (encodeFixed64 b ++ encodeFixed32 d))).drop 12 =
        encodeFixed64 b ++ encodeFixed32 d := by
    rw [← List.append_assoc]
    exact List.drop_left' (by simp)
  have hdrop20 (a b : UInt64) (c d : UInt32) :
      (encodeFixed64 a ++ (encodeFixed32 c ++ (encodeFixed64 b ++ encodeFixed32 d))).drop 20 =
        encodeFixed32 d ++ [] := by
    rw [← List.append_assoc, ← List.append_assoc, List.append_nil]
    exact List.drop_left' (by simp)
  refine ⟨by simp [footerBytes], ?_, ?_, ?_, ?_⟩
  · exact decodeFixed64_append ..
  · rw [footerBytes, hdrop8]
    exact decodeFixed32_append ..
  · rw [footerBytes, hdrop12]
    exact decodeFixed64_append ..
  · rw [footerBytes, hdrop20]
    exact decodeFixed32_append ..

theorem check_withCrc (bs : Bytes) :
    decodeFixed32 ((withCrc bs).drop bs.length) = some (valueCRC32 0xffffffff bs) ∧
      (withCrc bs).take bs.length = bs := by
  have hd : (withCrc bs).drop bs.length = encodeFixed32 (valueCRC32 0xffffffff bs) ++ [] := by
    rw [withCrc, List.drop_left, List.append_nil]
  rw [hd]
  exact ⟨decodeFixed32_append .., by rw [withCrc, List.take_left]⟩

theorem toNat_size_sub {bs : Bytes} (h : (withCrc bs).length < 2 ^ 32) :
    (UInt32.ofNat (withCrc bs).length - 4).toNat = bs.length := by
  have hl := length_withCrc bs
  have ht := toNat_ofNat32 h
  rw [UInt32.toNat_sub_of_le _ _ (by rw [UInt32.le_iff_toNat_le, ht]; simp; omega), ht, hl]
  rfl

/-- Open takes a table of any size whose index and filter it can say the sizes of. -/
theorem openFile_isTable {file : Bytes} {blocks : List BolckData} {f : BloomFilter} (h : IsTable codec file blocks f)
    (hasc : Ascending blocks) (hkeys : ∀ p ∈ blocks.flatten, p.1.length < 2 ^ 32) (hfar : file.length < 2 ^ 63)
    (hindex : (indexBytes codec (extents codec 0 blocks)).length + 4 < 2 ^ 32)
    (hfilter : (filterBytes f).length < 2 ^ 32) (filename : Bytes) :
    ∃ r, SSTableReader.openFile filename (some file) = some (true, r) ∧ r.filename = filename ∧ r.file.failed = false ∧
      r.file.bytes = file ∧ r.index.entries = (extents codec 0 blocks).map Extent.entry ∧ r.filter = some f := by
  let data := dataBytes codec blocks
  let ib := indexBytes codec (extents codec 0 blocks)
  let footer := footerBytes (data.length + (filterBytes f).length) (withCrc ib).length data.length
    (filterBytes f).length
  have hfile : file = data ++ (filterBytes f ++ (withCrc ib ++ footer)) := h.bytes_eq
  obtain ⟨hfl, hd₁, hd₂, hd₃, hd₄⟩ := decode_footer (data.length + (filterBytes f).length) (withCrc ib).length
    data.length (filterBytes f).length
  have hlens : file.length = data.length + (filterBytes f).length + (withCrc ib).length + 24 := by
    rw [hfile]
    simp only [List.length_append]
    have hfooter : footer.length = 24 := hfl
    omega
  have hib : (withCrc ib).length < 2 ^ 32 := by
    rw [length_withCrc]
    exact hindex
  have hfpos : 1 ≤ (filterBytes f).length := by simp [filterBytes]
  have hge : ¬ file.length < 24 := by omega
  -- the three reads
  have hcut₁ : file = (data ++ (filterBytes f ++ withCrc ib)) ++ (footer ++ []) := by
    rw [hfile]
    simp
  obtain ⟨s₁, hr₁, hs₁, hb₁⟩ := readInto_append (f := { bytes := file }) (n := 24) rfl hcut₁
    (by simp only [List.length_append]; omega) hfl
  have hseek : file.length - 24 = (data ++ (filterBytes f ++ withCrc ib)).length := by
    simp only [List.length_append]
    omega
  have hcut₂ : s₁.bytes = data ++ (filterBytes f ++ (withCrc ib ++ footer)) := by
    rw [hb₁, hfile]
  obtain ⟨s₂, hr₂, hs₂, hb₂⟩ := readInto_append hs₁ hcut₂ (by omega) rfl
  have hcut₃ : s₂.bytes = (data ++ filterBytes f) ++ (withCrc ib ++ footer) := by
    rw [hb₂, hcut₂, List.append_assoc]
  obtain ⟨s₃, hr₃, hs₃, hb₃⟩ := readInto_append hs₂ hcut₃ (by simp only [List.length_append]; omega) rfl
  rw [List.length_append] at hr₃
  have hn₁ : (UInt64.ofNat data.length).toNat = data.length := toNat_ofNat64 (by omega)
  have hn₂ : (UInt32.ofNat (filterBytes f).length).toNat = (filterBytes f).length := toNat_ofNat32 hfilter
  have hn₃ : (UInt64.ofNat (data.length + (filterBytes f).length)).toNat = data.length + (filterBytes f).length :=
    toNat_ofNat64 (by omega)
  have hn₄ : (UInt32.ofNat (withCrc ib).length).toNat = (withCrc ib).length := toNat_ofNat32 hib
  have hn₅ : (UInt32.ofNat (withCrc ib).length - 4).toNat = ib.length := toNat_size_sub hib
  have hpos : UInt32.ofNat (filterBytes f).length > 0 := by
    rw [gt_iff_lt, UInt32.lt_iff_toNat_lt, hn₂]
    exact hfpos
  obtain ⟨hc₁, hc₂⟩ := check_withCrc ib
  obtain ⟨m, hm, hentries⟩ := parseIndex_indexBytes (m := .empty) h.indexEncodes
    (by
      intro e he
      obtain ⟨p, hp, hk⟩ := key_mem_of_mem_extents h.nonempty he
      rw [hk]
      exact hkeys p hp)
    (extents_ascending h.nonempty hasc) (by simp [SortedMap.empty]) le_rfl
      (encodeFixed32 (valueCRC32 0xffffffff ib) ++ [0])
  have hcursor : cursorOn (withCrc ib) ib.length = ⟨ib, encodeFixed32 (valueCRC32 0xffffffff ib) ++ [0]⟩ := by
    rw [cursorOn, hc₂, withCrc, List.drop_left]
  refine ⟨{ filename := filename, file := s₃, filter := some (BloomFilter.ofRawData (filterBytes f)), index := m }, ?_,
    rfl, hs₃, by rw [hb₃, hb₂, hb₁], hentries, congrArg some (h.fits.ofRawData h.numHashes_lt)⟩
  simp only [SSTableReader.openFile, hge, if_false, hseek, hr₁, footer, hd₁, hd₂, hd₃, hd₄, Option.bind_eq_bind,
    Option.bind_some, hpos, if_true, hn₁, hn₂, hn₃, hn₄, hr₂, hr₃, hn₅, hc₁, hc₂, ne_eq, not_true_eq_false, hcursor]
  rw [hm]
  rfl

theorem openFile_table {file : Bytes} {t : Table} {f : BloomFilter} (h : IsTable codec file t.blocks f)
    (hlen : file.length < 2 ^ 32) :
    ∃ r, SSTableReader.openFile t.name (some file) = some (true, r) ∧ Serves codec r t := by
  have hlens := congrArg List.length h.bytes_eq
  simp only [tableBytes, List.length_append, length_withCrc] at hlens
  have hkeys : ∀ p ∈ t.blocks.flatten, p.1.length < 2 ^ 32 := by
    intro p hp
    have hle := (length_le_of_mem_flatten codec hp).1
    omega
  obtain ⟨r, hopen, hname, hfailed, hbytes, hindex, hfilter⟩ :=
    openFile_isTable h t.ascending hkeys (by omega) (by omega) (by omega)
    t.name
  exact ⟨r, hopen, hname, hfailed, ⟨_, by rw [hbytes]; exact h.bytes_eq⟩, by omega, hindex, h.nonempty, h.encodes, f,
    hfilter, h.mayContain⟩

/-- `block` is the one that starts at this byte of the file. -/
def BlockAt (codec : VarintCodec) (blocks : List BolckData) (off : Nat) (block : BolckData) : Prop :=
  ∃ xs ys, blocks = xs ++ block :: ys ∧ off = (dataBytes codec xs).length

theorem BlockAt.unique {blocks : List BolckData} {off : Nat} {b c : BolckData} (hb : BlockAt codec blocks off b)
    (hc : BlockAt codec blocks off c) : b = c := by
  have hpos (xs as : List BolckData) (a : BolckData) :
      (dataBytes codec xs).length < (dataBytes codec (xs ++ a :: as)).length := by
    have ha := length_withCrc (blockBytes codec a)
    simp only [dataBytes, List.flatMap_append, List.flatMap_cons, List.length_append]
    omega
  obtain ⟨xs, ys, rfl, rfl⟩ := hb
  obtain ⟨xs', ys', he, hoff⟩ := hc
  rcases List.append_eq_append_iff.mp he with ⟨as, rfl, he'⟩ | ⟨as, rfl, he'⟩
  · cases as with
    | nil => exact (List.cons.inj he').1
    | cons a as => exact absurd hoff (ne_of_lt (hpos xs as a))
  · cases as with
    | nil => exact (List.cons.inj he').1.symm
    | cons a as => exact absurd hoff (ne_of_gt (hpos xs' as a))

/-- A cache, if there is one, whose entries all have this property. -/
def Stores (P : Bytes → BolckData → Prop) : Option LRUCache → Prop
  | none => True
  | some c => ∃ slots, c.Holds slots ∧ ∀ s ∈ slots, P s.key s.data

/-- A cache, if there is one, that holds only blocks of these tables under their keys. -/
def Cached (codec : VarintCodec) (tables : List Table) : Option LRUCache → Prop
  | none => True
  | some c => ∃ slots, c.Holds slots ∧
      ∀ s ∈ slots, ∃ t ∈ tables, ∃ off, s.key = makeCacheKey t.name off ∧ BlockAt codec t.blocks off s.data

/-- No two files have the same name. -/
def Distinct (tables : List Table) : Prop := ∀ s ∈ tables, ∀ t ∈ tables, s.name = t.name → s = t

variable {tables : List Table} {cache : Option LRUCache}

theorem makeCacheKey_inj {name name' : Bytes} {off off' : Nat} (h : makeCacheKey name off = makeCacheKey name' off') :
    name = name' ∧ off = off' :=
  Decimal.append_encode_inj (by decide) h

theorem Stores.get {P : Bytes → BolckData → Prop} (h : Stores P cache) (key : Bytes) :
    ∃ hit cache', cacheGet cache key = some (hit, cache') ∧ Stores P cache' ∧ ∀ d, hit = some d → P key d := by
  cases cache with
  | none => exact ⟨none, none, rfl, trivial, by simp⟩
  | some c =>
      obtain ⟨slots, hs, hall⟩ := h
      by_cases hk : ∃ s ∈ slots, s.key = key
      · obtain ⟨s, hmem, rfl⟩ := hk
        obtain ⟨xs, ys, rfl⟩ := List.append_of_mem hmem
        obtain ⟨c', hget, hs'⟩ := hs.get_hit
        refine ⟨some s.data, some c', by simp [cacheGet, hget], ⟨_, hs', ?_⟩, ?_⟩
        · intro a ha
          apply hall
          simp only [List.mem_cons, List.mem_append] at ha ⊢
          tauto
        · intro d hd
          obtain rfl := Option.some.inj hd
          exact hall s hmem
      · have hmiss : ∀ s ∈ slots, s.key ≠ key := fun s hs he => hk ⟨s, hs, he⟩
        obtain ⟨hget, hs'⟩ := hs.get_miss hmiss
        refine ⟨none, some { c with misses := c.misses + 1 }, ?_, ⟨slots, hs', hall⟩, by simp⟩
        rw [cacheGet, hget]
        rfl

theorem Stores.insert {P : Bytes → BolckData → Prop} (h : Stores P cache) (key : Bytes) (data : BolckData)
    (hd : P key data) :
    ∃ cache', cacheInsert cache key data = some cache' ∧ Stores P cache' := by
  cases cache with
  | none => exact ⟨none, rfl, trivial⟩
  | some c =>
      obtain ⟨slots, hs, hall⟩ := h
      by_cases hk : ∃ s ∈ slots, s.key = key
      · obtain ⟨s, hmem, rfl⟩ := hk
        obtain ⟨xs, ys, rfl⟩ := List.append_of_mem hmem
        obtain ⟨c', hins, hs'⟩ := hs.insert_hit data
        refine ⟨some c', by simp [cacheInsert, hins], _, hs', ?_⟩
        intro a ha
        rcases List.mem_cons.mp ha with rfl | ha
        · exact hd
        · apply hall
          simp only [List.mem_cons, List.mem_append] at ha ⊢
          tauto
      · have hmiss : ∀ s ∈ slots, s.key ≠ key := fun s hs he => hk ⟨s, hs, he⟩
        obtain ⟨c', a, hins, hs'⟩ := hs.insert_miss hmiss data
        refine ⟨some c', by simp [cacheInsert, hins], _, hs', ?_⟩
        intro s hmem
        rcases List.mem_cons.mp hmem with rfl | hmem
        · exact hd
        · apply hall
          split at hmem
          · exact List.dropLast_subset _ hmem
          · exact hmem

theorem Stores.mono {P Q : Bytes → BolckData → Prop} (h : Stores P cache) (hPQ : ∀ key data, P key data → Q key data) :
    Stores Q cache := by
  cases cache with
  | none => trivial
  | some c =>
      obtain ⟨slots, hs, hall⟩ := h
      exact ⟨slots, hs, fun s hmem => hPQ s.key s.data (hall s hmem)⟩

/-- What was put into a cache is found there. -/
theorem Stores.get_insert {P : Bytes → BolckData → Prop} {c : LRUCache} (h : Stores P (some c)) (key : Bytes)
    (data : BolckData) :
    ∃ cache' cache'', cacheInsert (some c) key data = some cache' ∧
      cacheGet cache' key = some (some data, cache'') := by
  obtain ⟨slots, hs, -⟩ := h
  obtain ⟨c', s, rest, hins, hs', rfl, rfl⟩ : ∃ c' s rest, c.insert key data = some c' ∧ c'.Holds (s :: rest) ∧
      s.key = key ∧ s.data = data := by
    by_cases hk : ∃ s ∈ slots, s.key = key
    · obtain ⟨s, hmem, rfl⟩ := hk
      obtain ⟨xs, ys, rfl⟩ := List.append_of_mem hmem
      obtain ⟨c', hins, hs'⟩ := hs.insert_hit data
      exact ⟨c', _, _, hins, hs', rfl, rfl⟩
    · obtain ⟨c', a, hins, hs'⟩ := hs.insert_miss (fun s hs he => hk ⟨s, hs, he⟩) data
      exact ⟨c', _, _, hins, hs', rfl, rfl⟩
  obtain ⟨c'', hget, -⟩ := LRUCache.Holds.get_hit (show c'.Holds ([] ++ _ :: _) from hs')
  exact ⟨some c', some c'', by simp [cacheInsert, hins], by simp [cacheGet, hget]⟩

theorem cached_iff : Cached codec tables cache ↔
    Stores (fun key data => ∃ t ∈ tables, ∃ off, key = makeCacheKey t.name off ∧ BlockAt codec t.blocks off data)
      cache := by
  cases cache <;> rfl

theorem Serves.of_file {r : SSTableReader} {t : Table} (h : Serves codec r t) {f : IFStream}
    (hf : f.failed = false) (hb : f.bytes = r.file.bytes) : Serves codec { r with file := f } t :=
  ⟨h.filename, hf, by rw [hb]; exact h.bytes, h.short, h.index, h.nonempty, h.encodes, h.mayContain⟩

/-- A read is a hit, or it is the read without a cache and leaves its block in the cache. -/
theorem SSTableReader.readDataBlock_cases {P : Bytes → BolckData → Prop} (r : SSTableReader) (hc : Stores P cache)
    (offset : UInt64) (size : UInt32) :
    (∃ data cache', P (makeCacheKey r.filename offset.toNat) data ∧ Stores P cache' ∧
      r.readDataBlock cache offset size = some (some data, r, cache')) ∨
    (r.readDataBlock cache offset size = none ∧ r.readDataBlock none offset size = none) ∨
    ∃ out r' cache', r.readDataBlock cache offset size = some (out, r', cache') ∧
      r.readDataBlock none offset size = some (out, r', none) ∧
      ((∀ data, out = some data → P (makeCacheKey r.filename offset.toNat) data) → Stores P cache') ∧
      (∀ data, out = some data → cache.isSome →
        ∃ cache'', cacheGet cache' (makeCacheKey r.filename offset.toNat) = some (some data, cache'')) := by
  obtain ⟨hit, cache₁, hget, hc₁, hhit⟩ := hc.get (makeCacheKey r.filename offset.toNat)
  cases hit with
  | some data =>
      refine .inl ⟨data, cache₁, hhit data rfl, hc₁, ?_⟩
      simp only [readDataBlock, hget, Option.bind_eq_bind, Option.bind_some]
      rfl
  | none =>
      obtain ⟨buf, s, hread⟩ : ∃ buf s, readInto (r.file.seekg offset.toNat) size.toNat = (buf, s) := ⟨_, _, rfl⟩
      have hmiss (key : Bytes) : cacheGet none key = some (none, none) := rfl
      have hkeep (key : Bytes) (data : BolckData) : cacheInsert none key data = some none := rfl
      right
      simp only [readDataBlock, hget, hmiss, hread, Option.bind_eq_bind, Option.bind_some]
      cases decodeFixed32 (buf.drop (size - 4).toNat) with
      | none => exact .inl ⟨rfl, rfl⟩
      | some savedCrc =>
          simp only [Option.bind_some]
          by_cases hcrc : savedCrc ≠ valueCRC32 0xffffffff (buf.take (size - 4).toNat)
          · rw [if_pos hcrc, if_pos hcrc]
            exact .inr ⟨_, _, _, rfl, rfl, fun _ => hc₁, by simp⟩
          · rw [if_neg hcrc, if_neg hcrc]
            cases parseBlock (size - 4).toNat (cursorOn buf (size - 4).toNat) [] with
            | none => exact .inl ⟨rfl, rfl⟩
            | some out =>
                have hany : Stores (fun _ _ => True) cache₁ := hc₁.mono fun _ _ _ => trivial
                obtain ⟨cache₂, hins, -⟩ := hany.insert (makeCacheKey r.filename offset.toNat) out trivial
                simp only [hins, hkeep, Option.bind_some]
                refine .inr ⟨_, _, _, rfl, rfl, fun hout => ?_, fun data hout hsome => ?_⟩
                · obtain ⟨cache₃, hins', hc₃⟩ := hc₁.insert _ _ (hout out rfl)
                  rw [hins] at hins'
                  rw [Option.some.inj hins']
                  exact hc₃
                · obtain ⟨c, rfl⟩ := Option.isSome_iff_exists.mp hsome
                  obtain ⟨⟨hit, c₁⟩, -, he⟩ := Option.map_eq_some_iff.mp hget
                  obtain ⟨-, rfl⟩ := Prod.mk.inj he
                  obtain ⟨cache₃, cache₄, hins', hagain⟩ := hc₁.get_insert (makeCacheKey r.filename offset.toNat) out
                  rw [hins] at hins'
                  rw [← Option.some.inj hout, Option.some.inj hins']
                  exact ⟨cache₄, hagain⟩

/-- What is read where such bytes lie. -/
theorem SSTableReader.readDataBlock_withCrc {r : SSTableReader} {front bs rest : Bytes} (hf : r.file.failed = false)
    (hbytes : r.file.bytes = front ++ (withCrc bs ++ rest)) (hfront : front.length < 2 ^ 32)
    (hlen : (withCrc bs).length < 2 ^ 32) :
    ∃ f : IFStream, f.failed = false ∧ f.bytes = r.file.bytes ∧
      r.readDataBlock none (UInt32.ofNat front.length).toUInt64 (UInt32.ofNat (withCrc bs).length) =
        (parseBlock bs.length ⟨bs, encodeFixed32 (valueCRC32 0xffffffff bs) ++ [0]⟩ []).map
          fun out => (some out, { r with file := f }, none) := by
  obtain ⟨f, hread, hf', hb'⟩ := readInto_append hf hbytes (by omega) rfl
  have hoff : (UInt32.ofNat front.length).toUInt64.toNat = front.length := by
    rw [UInt32.toNat_toUInt64, toNat_ofNat32 hfront]
  have hsize : (UInt32.ofNat (withCrc bs).length).toNat = (withCrc bs).length := toNat_ofNat32 hlen
  have hsub : (UInt32.ofNat (withCrc bs).length - 4).toNat = bs.length := toNat_size_sub hlen
  have hmiss (key : Bytes) : cacheGet none key = some (none, none) := rfl
  obtain ⟨hcrc, htake⟩ := check_withCrc bs
  have hcursor : cursorOn (withCrc bs) bs.length = ⟨bs, encodeFixed32 (valueCRC32 0xffffffff bs) ++ [0]⟩ := by
    rw [cursorOn, htake, withCrc, List.drop_left]
  refine ⟨f, hf', hb', ?_⟩
  simp only [SSTableReader.readDataBlock, hmiss, hoff, hsize, hread, hsub, hcrc, htake, hcursor, ne_eq,
    not_true_eq_false, if_false, Option.bind_eq_bind, Option.bind_some]
  cases parseBlock bs.length ⟨bs, encodeFixed32 (valueCRC32 0xffffffff bs) ++ [0]⟩ [] with
  | none => rfl
  | some out => rfl

theorem Serves.readDataBlock {r : SSTableReader} {t : Table} (h : Serves codec r t)
    (ht : t ∈ tables) (hu : Distinct tables) (hc : Cached codec tables cache) {off : Nat}
    {block : BolckData} (hb : BlockAt codec t.blocks off block) :
    ∃ r' cache', r.readDataBlock cache (UInt32.ofNat off).toUInt64
        (UInt32.ofNat (withCrc (blockBytes codec block)).length) = some (some block, r', cache') ∧
      Serves codec r' t ∧ Cached codec tables cache' := by
  have hb' := hb
  obtain ⟨xs, ys, hblocks, rfl⟩ := hb'
  obtain ⟨rest, hrest⟩ := h.bytes
  have hshort := h.short
  have hcons : dataBytes codec (block :: ys) = withCrc (blockBytes codec block) ++ dataBytes codec ys := by
    simp [dataBytes]
  rw [hblocks, dataBytes_append, hcons, List.append_assoc, List.append_assoc] at hrest
  rw [hblocks, dataBytes_append, hcons, List.length_append, List.length_append] at hshort
  have hmem : ∀ p ∈ block, p ∈ t.blocks.flatten := by
    intro p hp
    rw [hblocks]
    simp [hp]
  have hparse := parseBlock_blockBytes (fun p hp => h.encodes p (hmem p hp))
    (fun p hp => by
      have hl := length_le_of_mem_flatten codec (hmem p hp)
      have hs := h.short
      omega)
    le_rfl (encodeFixed32 (valueCRC32 0xffffffff (blockBytes codec block)) ++ [0]) []
  obtain ⟨f, hf, hbytes, hread⟩ := SSTableReader.readDataBlock_withCrc h.failed hrest (by omega) (by omega)
  rw [hparse, List.nil_append, Option.map_some] at hread
  have hoff : (UInt32.ofNat (dataBytes codec xs).length).toUInt64.toNat = (dataBytes codec xs).length := by
    rw [UInt32.toNat_toUInt64, toNat_ofNat32 (by omega)]
  rcases r.readDataBlock_cases (cached_iff.mp hc) (UInt32.ofNat (dataBytes codec xs).length).toUInt64
      (UInt32.ofNat (withCrc (blockBytes codec block)).length) with
    ⟨data, cache', hdata, hc', hhit⟩ | ⟨-, hfault⟩ | ⟨out, r', cache', hmiss, hnone, hc', -⟩
  · -- the key belongs to one table and one place in it
    obtain ⟨t', ht', off', hkey, hd⟩ := hdata
    rw [h.filename, hoff] at hkey
    obtain ⟨hname, rfl⟩ := makeCacheKey_inj hkey
    obtain rfl := hu _ ht _ ht' hname
    obtain rfl := hb.unique hd
    exact ⟨r, cache', hhit, h, cached_iff.mpr hc'⟩
  · rw [hread] at hfault
    cases hfault
  · rw [hread] at hnone
    obtain ⟨rfl, he⟩ := Prod.mk.inj (Option.some.inj hnone)
    obtain ⟨rfl, -⟩ := Prod.mk.inj he
    refine ⟨_, cache', hmiss, h.of_file hf hbytes, cached_iff.mpr (hc' ?_)⟩
    intro data hd
    rw [h.filename, hoff, ← Option.some.inj hd]
    exact ⟨t, ht, _, rfl, hb⟩

theorem le_lastKeyOf {block : BolckData} (h : block.Pairwise (fun p q => p.1 < q.1)) {p : Bytes × Bytes}
    (hp : p ∈ block) :
    p.1 ≤ lastKeyOf block := by
  have hne : block ≠ [] := List.ne_nil_of_mem hp
  have hlast : lastKeyOf block = (block.getLast hne).1 := by simp [lastKeyOf, List.getLast?_eq_getLast_of_ne_nil hne]
  rw [← List.dropLast_append_getLast hne] at h hp
  rw [hlast]
  rcases List.mem_append.mp hp with hp | hp
  · exact le_of_lt ((List.pairwise_append.mp h).2.2 p hp _ (List.mem_singleton_self _))
  · rw [List.mem_singleton.mp hp]

/-- Only the first block whose last key is not below the key can hold it. -/
theorem exists_block {blocks : List BolckData} (hne : ∀ block ∈ blocks, block ≠ []) (hasc : Ascending blocks)
    (key : Bytes) :
    ((∀ block ∈ blocks, lastKeyOf block < key) ∧ SortedMap.findEntry key blocks.flatten = none) ∨
      ∃ xs block ys, blocks = xs ++ block :: ys ∧ (∀ b ∈ xs, lastKeyOf b < key) ∧ ¬ lastKeyOf block < key ∧
        SortedMap.findEntry key blocks.flatten = SortedMap.findEntry key block := by
  induction blocks with
  | nil => exact .inl ⟨by simp, rfl⟩
  | cons block blocks ih =>
      have hne' : ∀ b ∈ blocks, b ≠ [] := fun b hb => hne b (List.mem_cons_of_mem _ hb)
      rw [Ascending, List.flatten_cons, List.pairwise_append] at hasc
      obtain ⟨hblock, hrest, hcross⟩ := hasc
      rw [List.flatten_cons]
      by_cases hlt : lastKeyOf block < key
      · have hnot : ∀ p ∈ block, p.1 ≠ key := fun p hp => ne_of_lt (lt_of_le_of_lt (le_lastKeyOf hblock hp) hlt)
        rw [SortedMap.findEntry_append _ hnot]
        rcases ih hne' hrest with ⟨hall, hk⟩ | ⟨xs, b, ys, rfl, hxs, hb, hk⟩
        · exact .inl ⟨List.forall_mem_cons.mpr ⟨hlt, hall⟩, hk⟩
        · exact .inr ⟨block :: xs, b, ys, rfl, List.forall_mem_cons.mpr ⟨hlt, hxs⟩, hb, hk⟩
      · refine .inr ⟨[], block, blocks, rfl, by simp, hlt, ?_⟩
        apply SortedMap.findEntry_append_left
        intro q hq
        obtain ⟨p, hp, hk⟩ := lastKeyOf_mem (hne block List.mem_cons_self)
        have hpq : p.1 < q.1 := hcross p hp q hq
        rw [hk] at hlt
        exact ne_of_gt (lt_of_le_of_lt (not_lt.mp hlt) hpq)

theorem key_extents {base : Nat} {blocks : List BolckData} {key : Bytes} (h : ∀ block ∈ blocks, lastKeyOf block < key) :
    ∀ q ∈ (extents codec base blocks).map Extent.entry, q.1 < key := by
  induction blocks generalizing base with
  | nil => simp [extents]
  | cons block blocks ih =>
      obtain ⟨hb, hrest⟩ := List.forall_mem_cons.mp h
      rw [extents, List.map_cons]
      exact List.forall_mem_cons.mpr ⟨hb, ih hrest⟩

theorem find?_eq_findEntry (key : Bytes) (block : BolckData) :
    (block.find? (fun kv => key = kv.1)).map Prod.snd = SortedMap.findEntry key block := by
  rw [SortedMap.findEntry]
  congr 2
  funext kv
  exact decide_eq_decide.mpr eq_comm

theorem findEntry_isSome_mem {key : Bytes} {block : BolckData} (h : SortedMap.findEntry key block ≠ none) :
    ∃ p ∈ block, p.1 = key := by
  by_contra hno
  exact h (SortedMap.findEntry_eq_none (fun p hp he => hno ⟨p, hp, he⟩))

/-- Get finds what is in the file, whatever the cache has. -/
theorem Serves.get {r : SSTableReader} {t : Table} (h : Serves codec r t)
    (ht : t ∈ tables) (hu : Distinct tables) (hc : Cached codec tables cache) (key : Bytes) :
    ∃ r' cache', r.get cache key = some (t.kvs.find key, r', cache') ∧
      Serves codec r' t ∧ Cached codec tables cache' := by
  obtain ⟨f, hf, hmay⟩ := h.mayContain
  rw [Table.find_kvs]
  by_cases hno : f.mayContain key = true
  · have hfilter : r.filter.any (fun f => !f.mayContain key) = false := by simp [hf, hno]
    rcases exists_block h.nonempty t.ascending key with ⟨hall, hk⟩ | ⟨xs, block, ys, hb, hxs, hge, hk⟩
    · refine ⟨r, cache, ?_, h, hc⟩
      have hbelow := SortedMap.lowerBound_eq_none (by rw [h.index]; exact key_extents hall)
      simp only [SSTableReader.get, hfilter, Bool.false_eq_true, if_false, hbelow, hk]
    · have hat : BlockAt codec t.blocks (0 + (dataBytes codec xs).length) block := ⟨xs, ys, hb, Nat.zero_add _⟩
      obtain ⟨r', cache', hread, h', hc'⟩ := h.readDataBlock ht hu hc hat
      have hindex := h.index
      rw [hb, extents_append, List.map_append, extents, List.map_cons] at hindex
      refine ⟨r', cache', ?_, h', hc'⟩
      rw [r.get_of_lowerBound cache hfilter (SortedMap.lowerBound_eq_some hindex (key_extents hxs) hge), hread, hk]
      simp only [Option.map_some, Option.bind_some, find?_eq_findEntry]
  · have hfilter : r.filter.any (fun f => !f.mayContain key) = true := by simp [hf, hno]
    have hnone : SortedMap.findEntry key t.blocks.flatten = none := by
      by_contra hsome
      obtain ⟨p, hp, rfl⟩ := findEntry_isSome_mem hsome
      exact hno (hmay p hp)
    refine ⟨r, cache, ?_, h, hc⟩
    rw [SSTableReader.get, hfilter, hnone]
    rfl

theorem Serves.iteratorLoop {r : SSTableReader} {t : Table} (h : Serves codec r t)
    (ht : t ∈ tables) (hu : Distinct tables) (hc : Cached codec tables cache) {xs ys : List BolckData}
    (hb : t.blocks = xs ++ ys) (acc : BolckData) :
    ∃ r' cache', SSTableReader.iteratorLoop cache
        ((extents codec (dataBytes codec xs).length ys).map Extent.entry) r acc =
        some (acc ++ ys.flatten, r', cache') ∧
      Serves codec r' t ∧ Cached codec tables cache' := by
  induction ys generalizing r cache xs acc with
  | nil => exact ⟨r, cache, by simp [extents, SSTableReader.iteratorLoop], h, hc⟩
  | cons block ys ih =>
      have hat : BlockAt codec t.blocks (dataBytes codec xs).length block := ⟨xs, ys, hb, rfl⟩
      obtain ⟨r₁, cache₁, hread, h₁, hc₁⟩ := h.readDataBlock ht hu hc hat
      have hnext : (dataBytes codec xs).length + (withCrc (blockBytes codec block)).length =
          (dataBytes codec (xs ++ [block])).length := by
        simp [dataBytes]
      have hb' : t.blocks = (xs ++ [block]) ++ ys := by
        rw [hb, List.append_assoc, List.singleton_append]
      obtain ⟨r₂, cache₂, hloop, h₂, hc₂⟩ := ih h₁ hc₁ hb' (acc ++ block)
      refine ⟨r₂, cache₂, ?_, h₂, hc₂⟩
      rw [extents, List.map_cons, SSTableReader.iteratorLoop]
      simp only [Extent.entry, hread, Option.bind_eq_bind, Option.bind_some]
      rw [hnext, hloop]
      simp

theorem Serves.newIterator {r : SSTableReader} {t : Table} (h : Serves codec r t)
    (ht : t ∈ tables) (hu : Distinct tables) (hc : Cached codec tables cache) :
    ∃ r' cache', r.newIterator cache = some ({ entries := t.kvs.entries }, r', cache') ∧
      Serves codec r' t ∧ Cached codec tables cache' := by
  have hall : t.blocks = [] ++ t.blocks := rfl
  obtain ⟨r', cache', hloop, h', hc'⟩ := h.iteratorLoop ht hu hc hall []
  refine ⟨r', cache', ?_, h', hc'⟩
  simp only [SSTableReader.newIterator, h.index]
  rw [show (dataBytes codec []).length = 0 from rfl] at hloop
  rw [hloop]
  rfl

namespace SSTableIterator

theorem forEachLoop_eq {B : Type} (body : B → Bytes → Bytes → B) {it : SSTableIterator} {fuel : Nat}
    (hf : it.entries.length - it.pos ≤ fuel) (b : B) :
    forEachLoop body fuel it b = some ((it.entries.drop it.pos).foldl (fun b p => body b p.1 p.2) b) := by
  induction fuel generalizing it b with
  | zero =>
      have hv : it.valid = false := decide_eq_false (by omega)
      have hd : it.entries.drop it.pos = [] := List.drop_eq_nil_of_le (by omega)
      simp [forEachLoop, hv, hd]
  | succ fuel ih =>
      by_cases hlt : it.pos < it.entries.length
      · have hv : it.valid = true := decide_eq_true hlt
        have hget : it.current = some it.entries[it.pos] := List.getElem?_eq_getElem hlt
        have hnext : it.next = { it with pos := it.pos + 1 } := by rw [SSTableIterator.next, hv, if_pos rfl]
        rw [forEachLoop, hv, hget, if_pos rfl, hnext]
        simp only [Option.bind_eq_bind, Option.bind_some]
        rw [ih (by simp only; omega), List.drop_eq_getElem_cons hlt, List.foldl_cons]
      · have hv : it.valid = false := decide_eq_false hlt
        have hd : it.entries.drop it.pos = [] := List.drop_eq_nil_of_le (by omega)
        simp [forEachLoop, hv, hd]

theorem forEach_eq {B : Type} (it : SSTableIterator) (body : B → Bytes → Bytes → B) (b : B) :
    it.forEach body b = some (it.entries.foldl (fun b p => body b p.1 p.2) b) := by
  have hfuel : it.seekToFirst.entries.length - it.seekToFirst.pos ≤ it.entries.length := Nat.sub_le _ _
  have h := forEachLoop_eq body hfuel b
  simpa [SSTableIterator.forEach, SSTableIterator.seekToFirst] using h

end SSTableIterator

theorem bmod_of_lt {m n : Nat} (h : 2 * n < m) : (n : Int).bmod m = n := by
  rw [Int.bmod_def, Int.emod_eq_of_lt (by omega) (by omega), if_pos (by omega)]

theorem SSTableBuilder.toInt_of_lt {n : Nat} (h : n < 2 ^ 31) : toInt n = n := bmod_of_lt (by omega)

section Total

variable (htotal : ∀ n, codec.Encodes n)

include htotal

theorem SSTableBuilder.flushDataBlock_isSome (b : SSTableBuilder) : (b.flushDataBlock codec).isSome := by
  unfold SSTableBuilder.flushDataBlock
  split
  next => rfl
  next =>
    obtain ⟨i₁, h₁⟩ := Option.isSome_iff_exists.mp
      (putLengthPrefixedString_isSome b.indexBlock (htotal b.lastKey.length))
    obtain ⟨i₂, h₂⟩ := Option.isSome_iff_exists.mp (putVarint32_isSome i₁ (htotal b.offset))
    obtain ⟨i₃, h₃⟩ := Option.isSome_iff_exists.mp (putVarint32_isSome i₂ (htotal (b.buffer.length + 4)))
    simp only [h₁, h₂, h₃, Option.bind_eq_bind, Option.bind_some]
    rfl

theorem SSTableBuilder.add_isSome (b : SSTableBuilder) (key value : Bytes) : (b.add codec key value).isSome := by
  obtain ⟨i₁, h₁⟩ := Option.isSome_iff_exists.mp (putLengthPrefixedString_isSome b.buffer (htotal key.length))
  obtain ⟨i₂, h₂⟩ := Option.isSome_iff_exists.mp (putLengthPrefixedString_isSome i₁ (htotal value.length))
  obtain ⟨b', h₃⟩ := Option.isSome_iff_exists.mp
    (flushDataBlock_isSome htotal { b with buffer := i₂, lastKey := key })
  simp only [SSTableBuilder.add, h₁, h₂, Option.bind_eq_bind, Option.bind_some]
  split
  · rw [h₃]
    rfl
  · rfl

theorem SSTableBuilder.addAll_isSome (b : SSTableBuilder) (kvs : List (Bytes × Bytes)) :
    (b.addAll codec kvs).isSome := by
  induction kvs generalizing b with
  | nil => rfl
  | cons p kvs ih =>
      obtain ⟨b', h⟩ := Option.isSome_iff_exists.mp (add_isSome htotal b p.1 p.2)
      have hrest := ih b'
      rw [SSTableBuilder.addAll] at hrest ⊢
      rw [List.foldlM_cons, h]
      exact hrest

theorem SSTableBuilder.finish_isSome (b : SSTableBuilder) (hk : b.keys.length * 10 < 2 ^ 31) :
    (b.finish codec).isSome := by
  obtain ⟨b', h⟩ := Option.isSome_iff_exists.mp (flushDataBlock_isSome htotal b)
  have hkeys : b'.keys = b.keys := by
    unfold SSTableBuilder.flushDataBlock at h
    split at h
    · rw [← Option.some.inj h]
    · simp only [Option.bind_eq_bind, Option.bind_eq_some_iff, Option.pure_def, Option.some.injEq] at h
      obtain ⟨_, -, _, -, _, -, rfl⟩ := h
      rfl
  have hint : SSTableBuilder.toInt b.keys.length = b.keys.length := toInt_of_lt (by omega)
  obtain ⟨f, hf⟩ := BloomFilter.ofEntries_isSome hk
  rw [SSTableBuilder.finish_eq]
  split
  · rw [h, Option.bind_some, hkeys, hint, hf]
    rfl
  · rw [Option.bind_some, hint, hf]
    rfl

end Total

theorem SSTableBuilder.isTable_of_finish {kvs : List (Bytes × Bytes)} {b b' : SSTableBuilder} {ok : Bool}
    (hadd : (SSTableBuilder.create true none).addAll codec kvs = some b) (hfin : b.finish codec = some (ok, b')) :
    ok = true ∧ b'.indexBlock = indexBytes codec (extents codec 0 (cutBlocks codec kvs)) ∧
      ∃ f, IsTable codec b'.file.durable (cutBlocks codec kvs) f ∧ f.data.length ≤ 2 ^ 28 := by
  obtain ⟨hbuilt, hkeys⟩ := SSTableBuilder.Built.create.addAll hadd
  obtain ⟨hok, -, hindex, f, htable, hlen⟩ := hbuilt.finish (by rw [hkeys, flatten_foldl_addPair]; rfl) hfin
  exact ⟨hok, hindex, f, htable, hlen⟩

inductive ReaderCall where
  | get (key : Bytes)
  | enumerate
deriving DecidableEq, Repr

inductive ReaderAnswer where
  | value (value : Option Bytes)
  | entries (entries : List (Bytes × Bytes))
deriving DecidableEq, Repr

namespace SSTableReader

def answer (r : SSTableReader) (cache : Option LRUCache) :
    ReaderCall → Option (ReaderAnswer × SSTableReader × Option LRUCache)
  | .get key => do
      let (value, r, cache) ← r.get cache key
      return (.value value, r, cache)
  | .enumerate => do
      let (it, r, cache) ← r.newIterator cache
      let entries ← it.forEach (fun acc key value => acc ++ [(key, value)]) []
      return (.entries entries, r, cache)

/-- Calls on one reader, one after the other, with one cache. -/
def answers : SSTableReader → Option LRUCache → List ReaderCall → Option (List ReaderAnswer)
  | _, _, [] => some []
  | r, cache, call :: calls => do
      let (a, r, cache) ← r.answer cache call
      let rest ← answers r cache calls
      return a :: rest

end SSTableReader

/-- The answers of the map itself. -/
def ReaderCall.expected (kvs : SortedMap Bytes Bytes) : ReaderCall → ReaderAnswer
  | .get key => .value (kvs.find key)
  | .enumerate => .entries kvs.entries

theorem Serves.answer {r : SSTableReader} {t : Table} (h : Serves codec r t) (ht : t ∈ tables) (hu : Distinct tables)
    (hc : Cached codec tables cache) (call : ReaderCall) :
    ∃ r' cache', r.answer cache call = some (call.expected t.kvs, r', cache') ∧
      Serves codec r' t ∧ Cached codec tables cache' := by
  cases call with
  | get key =>
      obtain ⟨r', cache', hget, hrest⟩ := h.get ht hu hc key
      refine ⟨r', cache', ?_, hrest⟩
      rw [SSTableReader.answer, hget]
      rfl
  | enumerate =>
      obtain ⟨r', cache', hiter, hrest⟩ := h.newIterator ht hu hc
      refine ⟨r', cache', ?_, hrest⟩
      have hfold (xs acc : List (Bytes × Bytes)) : xs.foldl (fun acc p => acc ++ [(p.1, p.2)]) acc = acc ++ xs := by
        induction xs generalizing acc with
        | nil => simp
        | cons x xs ih => simp [ih]
      rw [SSTableReader.answer, hiter]
      simp only [Option.bind_eq_bind, Option.bind_some, SSTableIterator.forEach_eq, hfold, List.nil_append]
      rfl

theorem Serves.answers {r : SSTableReader} {t : Table} (h : Serves codec r t) (ht : t ∈ tables) (hu : Distinct tables)
    (hc : Cached codec tables cache) (calls : List ReaderCall) :
    r.answers cache calls = some (calls.map (ReaderCall.expected t.kvs)) := by
  induction calls generalizing r cache with
  | nil => rfl
  | cons call calls ih =>
      obtain ⟨r', cache', ha, h', hc'⟩ := h.answer ht hu hc call
      rw [SSTableReader.answers, ha]
      simp only [Option.bind_eq_bind, Option.bind_some]
      rw [ih h' hc']
      rfl

theorem sstable_round_trip (kvs : SortedMap Bytes Bytes) :
    ∃ b, (SSTableBuilder.create true none).addAll .base128 kvs.entries = some b ∧
      (kvs.entries.length * 10 < 2 ^ 31 → ∃ b', b.finish .base128 = some (true, b')) ∧
      ∀ ok b', b.finish .base128 = some (ok, b') → b'.file.durable.length < 2 ^ 32 →
        ∀ (filename : Bytes) (cache : Option LRUCache), (cache = none ∨ ∃ capacity, cache = some (.create capacity)) →
          ∃ r, SSTableReader.openFile filename (some b'.file.durable) = some (true, r) ∧
            ∀ calls, r.answers cache calls = some (calls.map (ReaderCall.expected kvs)) := by
  obtain ⟨b, hadd⟩ := Option.isSome_iff_exists.mp
    (SSTableBuilder.addAll_isSome VarintCodec.base128_encodes (.create true none) kvs.entries)
  refine ⟨b, hadd, ?_, ?_⟩
  · intro hn
    obtain ⟨-, hkeys⟩ := SSTableBuilder.Built.create.addAll hadd
    have hlen : b.keys.length = kvs.entries.length := by
      rw [hkeys]
      simp [SSTableBuilder.create]
    obtain ⟨⟨ok, b'⟩, hfin⟩ := Option.isSome_iff_exists.mp
      (SSTableBuilder.finish_isSome VarintCodec.base128_encodes b (by rw [hlen]; exact hn))
    obtain ⟨rfl, -⟩ := SSTableBuilder.isTable_of_finish hadd hfin
    exact ⟨b', hfin⟩
  · intro ok b' hfin hlen filename cache hcache
    obtain ⟨-, -, f, htable, -⟩ := SSTableBuilder.isTable_of_finish hadd hfin
    have hflat : (cutBlocks .base128 kvs.entries).flatten = kvs.entries := flatten_cutBlocks kvs.entries
    have hasc : Ascending (cutBlocks .base128 kvs.entries) := by
      rw [Ascending, hflat]
      exact kvs.ascending
    let t : Table := ⟨filename, cutBlocks .base128 kvs.entries, hasc⟩
    have hkvs : t.kvs = kvs := SortedMap.ext hflat
    obtain ⟨r, hopen, hserves⟩ := openFile_table (t := t) htable hlen
    have hcached : Cached .base128 [t] cache := by
      rcases hcache with rfl | ⟨capacity, rfl⟩
      · trivial
      · exact ⟨[], LRUCache.Holds.create capacity, by simp⟩
    refine ⟨r, hopen, ?_⟩
    intro calls
    rw [hserves.answers (List.mem_singleton_self _) (by simp [Distinct]) hcached calls, hkvs]

theorem sstable_round_trip_two :
    ∃ b b', (SSTableBuilder.create true none).addAll .base128 [([], []), ([1], [2])] = some b ∧
      b.finish .base128 = some (true, b') ∧ ∃ r, SSTableReader.openFile [] (some b'.file.durable) = some (true, r) ∧
        r.answers none [.get [1], .enumerate, .get [0]] =
          some [.value (some [2]), .entries [([], []), ([1], [2])], .value none] := by
  let kvs : SortedMap Bytes Bytes := ⟨[([], []), ([1], [2])], by decide⟩
  obtain ⟨b, hadd, hfin, hread⟩ := sstable_round_trip kvs
  obtain ⟨b', hb'⟩ := hfin (by decide)
  have hlen : ((SSTableBuilder.create true none).addAll .base128 kvs.entries >>= fun b => b.finish .base128).all
      (fun p => decide (p.2.file.durable.length < 100)) = true := by decide +kernel
  have hshort : b'.file.durable.length < 100 := by
    rw [hadd] at hlen
    simpa [hb'] using hlen
  obtain ⟨r, hopen, hcalls⟩ := hread true b' hb' (by omega) [] none (.inl rfl)
  refine ⟨b, b', hadd, hb', r, hopen, ?_⟩
  rw [hcalls]
  decide

end MiniStorage.Engine
