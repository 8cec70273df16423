import MiniStorage.Datanode.BlockFiles

namespace MiniStorage.Datanode

open Engine Namenode BlockStore

/-- The part of a block that a request asks for. -/
def ranged (data : Bytes) (offset length : Int) : Bytes :=
  let rest := data.drop offset.toNat
  if length ≤ 0 ∨ data.length < offset + length then rest else rest.take length.toNat

/-- The answer that a request for a part of the stored data is to get. data_out never grows beyond the block. -/
def ReadsRange (data : Bytes) (offset length : Int) (dataOut : Bytes) (r : Option (Bool × Bytes)) : Prop :=
  ∃ ok got, r = some (ok, got) ∧ (ok = false ↔ offset < 0 ∨ data.length < offset) ∧
    (ok = true → got = ranged data offset length) ∧ got.length ≤ max dataOut.length data.length

/-- The end of the part that a request asks for. -/
def rangeEnd (size offset length : Int) : Int := if length ≤ 0 ∨ size < offset + length then size else offset + length

variable {crc32 : Bytes → UInt32} {s : BlockStore} {blockId : BlockId} {data bytes dataOut : Bytes} {disk : Disk}
  {m : BlockMeta} {offset length size n : Int}

@[simp] theorem length_resize (s : Bytes) (n : Nat) : (resize s n).length = n := by
  simp only [resize, List.length_append, List.length_take, List.length_replicate]
  omega

theorem readLength_eq : readLength size offset length =
    if length ≤ 0 ∨ offset + length < 2 ^ 63 then some (rangeEnd size offset length - offset) else none := by
  rw [readLength, rangeEnd]
  by_cases hlength : length ≤ 0
  · simp only [hlength, if_true, true_or]
  · simp only [hlength, if_false, false_or]
    by_cases hover : 2 ^ 63 ≤ offset + length
    · rw [if_pos hover, if_neg (Int.not_lt.mpr hover)]
    · rw [if_neg hover, if_pos (Int.not_le.mp hover)]
      split
      next => rfl
      next => exact congrArg some (by omega)

theorem ranged_eq (hoffset : 0 ≤ offset ∧ offset ≤ data.length) :
    ranged data offset length = (data.drop offset.toNat).take (rangeEnd data.length offset length - offset).toNat := by
  simp only [ranged, rangeEnd]
  split
  next =>
    rw [List.take_of_length_le]
    rw [List.length_drop]
    omega
  next => exact congrArg (List.take · _) (by omega)

/-- ReadBlock behind the check of the offset, where there is something to read. -/
theorem readBlock_got (crc32 : Bytes → UInt32) (dataOut : Bytes) (hmeta : s.readMeta blockId = some m)
    (hdata : s.files.find (blockDataPath blockId) = some bytes) (hoffset : 0 ≤ offset ∧ offset ≤ m.size)
    (hsmall : offset < 2 ^ 63) (hn : readLength m.size offset length = some n) (hpos : 0 < n) {got : Bytes}
    (hgot : (bytes.drop offset.toNat).take n.toNat = got) :
    (got.length = n.toNat → s.readBlock crc32 blockId offset length dataOut =
        some (decide (offset = 0 → n = m.size → crc32 got = m.crc32), got)) ∧
      (got.length ≠ n.toNat → ∃ out, s.readBlock crc32 blockId offset length dataOut = some (false, out)) := by
  have hread : ((({ bytes := bytes } : IFStream).seekg offset.toNat).read n.toNat).1 = got := by
    rw [IFStream.read_fst, IFStream.unread_seekg, if_neg, hgot]
    rintro (hfail | hbig)
    · cases hfail
    · omega
  simp only [readBlock, hmeta, hdata, hn, hread]
  rw [if_neg (by omega), if_neg (by omega)]
  constructor
  · intro hlen
    have hrest : (resize dataOut n.toNat).drop got.length = [] := List.drop_eq_nil_of_le (by rw [length_resize]; omega)
    rw [if_neg (not_not.mpr (by omega)), hrest, List.append_nil]
    by_cases hcrc : offset = 0 ∧ n = m.size ∧ crc32 got ≠ m.crc32
    · rw [if_pos hcrc, decide_eq_false]
      exact fun h => hcrc.2.2 (h hcrc.1 hcrc.2.1)
    · rw [if_neg hcrc, decide_eq_true]
      exact fun h₀ hn' => by_contra fun hne => hcrc ⟨h₀, hn', hne⟩
  · intro hlen
    rw [if_pos (by omega)]
    exact ⟨_, rfl⟩

/-- Where the part that a read is about is all there, it is read, whatever the file lacks behind it. -/
theorem take_drop_of_isPrefix {bytes data : Bytes} (hbytes : bytes <+: data) {o n : Nat} (hn : o + n ≤ bytes.length) :
    (bytes.drop o).take n = (data.drop o).take n := by
  obtain ⟨rest, rfl⟩ := hbytes
  rw [List.drop_append_of_le_length (by omega), List.take_append_of_le_length]
  rw [List.length_drop]
  omega

theorem rangeEnd_le (length : Int) (hoffset : 0 ≤ offset ∧ offset ≤ size) :
    rangeEnd size offset length ≤ size ∧ offset ≤ rangeEnd size offset length ∧
      (rangeEnd size offset length = offset ↔ offset = size) := by
  rw [rangeEnd]
  split <;> omega

theorem readsRange_some {ok : Bool} {got : Bytes} : ReadsRange data offset length dataOut (some (ok, got)) ↔
    (ok = false ↔ offset < 0 ∨ data.length < offset) ∧ (ok = true → got = ranged data offset length) ∧
      got.length ≤ max dataOut.length data.length := by
  constructor
  · rintro ⟨ok', got', he, h⟩
    cases he
    exact h
  · exact fun h => ⟨ok, got, rfl, h⟩

theorem readsRange_false : ReadsRange data offset length dataOut (some (false, dataOut)) ↔
    offset < 0 ∨ data.length < offset := by
  rw [readsRange_some]
  simp

/-- A read of some bytes of the block, from what a device took of its data. -/
theorem readsRange_nonempty (hmeta : s.readMeta blockId = some m)
    (hdata : s.files.find (blockDataPath blockId) = some bytes) (hsize : m.size = data.length)
    (hcrc : m.crc32 = crc32 data) (hbytes : bytes <+: data) (hsmall : data.length < 2 ^ 63)
    (hoffset : 0 ≤ offset ∧ offset < data.length)
    (hn : readLength m.size offset length = some (rangeEnd data.length offset length - offset)) :
    ReadsRange data offset length dataOut (s.readBlock crc32 blockId offset length dataOut) ↔
      (rangeEnd data.length offset length).toNat ≤ bytes.length := by
  have hin : 0 ≤ offset ∧ offset ≤ data.length := ⟨hoffset.1, Int.le_of_lt hoffset.2⟩
  obtain ⟨hend, hstart, hempty⟩ := rangeEnd_le length hin
  have hpos : 0 < rangeEnd data.length offset length - offset := by omega
  obtain ⟨hwhole, hshort⟩ := readBlock_got crc32 dataOut hmeta hdata (by omega) (by omega) hn hpos rfl
  by_cases hfull : (rangeEnd data.length offset length).toNat ≤ bytes.length
  · have hgot : (bytes.drop offset.toNat).take (rangeEnd data.length offset length - offset).toNat =
        ranged data offset length := by
      rw [ranged_eq hin]
      exact take_drop_of_isPrefix hbytes (by omega)
    have hlen : (ranged data offset length).length = (rangeEnd data.length offset length - offset).toNat := by
      rw [ranged_eq hin, List.length_take, List.length_drop]
      omega
    have hsum (h₀ : offset = 0) (hall : rangeEnd data.length offset length - offset = m.size) :
        crc32 (ranged data offset length) = m.crc32 := by
      rw [ranged_eq hin, hall, hsize, h₀, hcrc]
      exact congrArg crc32 (List.take_length ..)
    rw [hgot] at hwhole
    rw [hwhole hlen, readsRange_some, decide_eq_true hsum]
    refine iff_of_true ⟨iff_of_false Bool.noConfusion (by omega), fun _ => rfl, ?_⟩ hfull
    rw [hlen]
    omega
  · obtain ⟨out, hout⟩ := hshort (by rw [List.length_take, List.length_drop]; omega)
    rw [hout, readsRange_some]
    refine iff_of_false (fun h => ?_) hfull
    have hoff := h.1.mp rfl
    omega

/-- A read of a part that lies inside of the block, which may be the empty one at its end. -/
theorem readsRange_inside (hmeta : s.readMeta blockId = some m)
    (hdata : s.files.find (blockDataPath blockId) = some bytes) (hsize : m.size = data.length)
    (hcrc : m.crc32 = crc32 data) (hbytes : bytes <+: data) (hsmall : data.length < 2 ^ 63)
    (hoffset : 0 ≤ offset ∧ offset ≤ data.length) :
    ReadsRange data offset length dataOut (s.readBlock crc32 blockId offset length dataOut) ↔
      (length ≤ 0 ∨ offset + length < 2 ^ 63) ∧
        (offset = data.length ∨ (rangeEnd data.length offset length).toNat ≤ bytes.length) := by
  have hin : ¬ (offset < 0 ∨ m.size < offset) := by omega
  by_cases hover : length ≤ 0 ∨ offset + length < 2 ^ 63
  · have hn : readLength m.size offset length = some (rangeEnd data.length offset length - offset) := by
      rw [readLength_eq, if_pos hover, hsize]
    by_cases hzero : offset = data.length
    · have hend : rangeEnd data.length offset length = offset := (rangeEnd_le length hoffset).2.2.mpr hzero
      have hread : s.readBlock crc32 blockId offset length dataOut = some (true, []) := by
        simp only [readBlock, hmeta, hdata, hn]
        rw [if_neg hin, if_pos (by omega)]
      have hranged : ranged data offset length = [] := by
        rw [ranged_eq hoffset, hend, Int.sub_self]
        rfl
      rw [hread, readsRange_some, hranged]
      exact iff_of_true ⟨iff_of_false Bool.noConfusion (by omega), fun _ => rfl, Nat.zero_le _⟩ ⟨hover, .inl hzero⟩
    · rw [readsRange_nonempty hmeta hdata hsize hcrc hbytes hsmall (by omega) hn]
      exact ⟨fun h => ⟨hover, .inr h⟩, fun h => h.2.resolve_left hzero⟩
  · have hread : s.readBlock crc32 blockId offset length dataOut = none := by
      simp only [readBlock, hmeta, hdata, readLength_eq, if_neg hover, if_neg hin]
    rw [hread]
    exact iff_of_false (fun ⟨_, _, he, _⟩ => by cases he) (fun h => hover h.1)

theorem BlockMeta.fits_ofData (crc32 : Bytes → UInt32) (blockId : BlockId) (hdata : data.length < 2 ^ 63)
    (hnow : -2 ^ 63 ≤ disk.now ∧ disk.now < 2 ^ 63) : (BlockMeta.ofData crc32 blockId data disk).Fits :=
  ⟨⟨by simp only [ofData]; omega, by simp only [ofData]; omega⟩, hnow⟩

/-- A block that WriteBlock has stored is read as asked for, whatever the request: exactly where the part asked for and the
description of the block got on disk, and the end of the request is an int64_t. -/
theorem read_range_iff (crc32 : Bytes → UInt32) (s : BlockStore) (blockId : BlockId) (data dataOut : Bytes) (disk : Disk)
    (offset length : Int) (hdata : data.length < 2 ^ 63) (hnow : -2 ^ 63 ≤ disk.now ∧ disk.now < 2 ^ 63)
    (hwritten : (s.writeBlock crc32 blockId data disk).1 = true) :
    ReadsRange data offset length dataOut
        ((s.writeBlock crc32 blockId data disk).2.readBlock crc32 blockId offset length dataOut) ↔
      offset < 0 ∨ data.length < offset ∨
        (length ≤ 0 ∨ offset + length < 2 ^ 63) ∧
          hasRoom disk.metaRoom ((BlockMeta.ofData crc32 blockId data disk).front.length + 1) = true ∧
          (offset = data.length ∨ hasRoom disk.tmpRoom (rangeEnd data.length offset length).toNat = true) := by
  have hlets : disk.lets = true := BlockStore.writeBlock_fst crc32 s blockId data disk ▸ hwritten
  generalize hs' : (s.writeBlock crc32 blockId data disk).2 = s'
  have hfile : s'.files.find (blockDataPath blockId) = some (taken disk.tmpRoom data) := by
    rw [← hs', find_writeBlock s blockId data hlets, if_pos rfl]
  have hline : s'.readMeta blockId = parseMeta (taken disk.metaRoom (BlockMeta.ofData crc32 blockId data disk).line) := by
    rw [← hs', readMeta_writeBlock s blockId data hlets, if_pos rfl]
  obtain ⟨hroom, hdescribes⟩ := parseMeta_taken disk.metaRoom (BlockMeta.fits_ofData crc32 blockId hdata hnow)
  rw [← hline] at hroom hdescribes
  cases hmeta : s'.readMeta blockId with
  | none =>
      have hread : s'.readBlock crc32 blockId offset length dataOut = some (false, dataOut) := by
        rw [readBlock, hmeta]
      rw [hmeta] at hroom
      rw [hread, readsRange_false, ← hroom]
      simp
  | some m =>
      obtain ⟨-, hsize, hcrc⟩ := hdescribes m hmeta
      rw [hmeta] at hroom
      by_cases hout : offset < 0 ∨ data.length < offset
      · have hread : s'.readBlock crc32 blockId offset length dataOut = some (false, dataOut) := by
          simp only [readBlock, hmeta, hfile]
          rw [if_pos]
          rwa [hsize]
        rw [hread, readsRange_false, ← or_assoc]
        exact iff_of_true hout (.inl hout)
      · have hoffset : 0 ≤ offset ∧ offset ≤ data.length := by omega
        obtain ⟨hend, hstart, -⟩ := rangeEnd_le length hoffset
        rw [readsRange_inside hmeta hfile hsize hcrc (taken_isPrefix _ _) hdata hoffset, ← hroom,
          le_length_taken (by omega), ← or_assoc, or_iff_right hout, Option.isSome_some, eq_self, true_and]

theorem read_range_iff_tail : ReadsRange [1, 2] 1 5 []
    (((BlockStore.mk .empty).writeBlock (fun _ => 3066839698) 1 [1, 2] {}).2.readBlock (fun _ => 3066839698) 1 1 5 []) :=
  (read_range_iff (fun _ => 3066839698) (BlockStore.mk .empty) 1 [1, 2] [] {} 1 5 (by decide) (by decide) rfl).mpr
    (.inr (.inr ⟨.inr (by decide), rfl, .inr rfl⟩))

/-- The sum of an offset inside of the block and a length leaves int64_t. -/
theorem read_range_overflows :
    let r := (BlockStore.mk .empty).writeBlock (fun _ => 3066839698) 1 [1, 2] {}
    r.1 = true ∧ r.2.readBlock (fun _ => 3066839698) 1 1 (2 ^ 63 - 1) [] = none ∧
      ¬ ReadsRange [1, 2] 1 (2 ^ 63 - 1) [] (r.2.readBlock (fun _ => 3066839698) 1 1 (2 ^ 63 - 1) []) := by
  intro r
  have hread : r.2.readBlock (fun _ => 3066839698) 1 1 (2 ^ 63 - 1) [] = none := by decide +kernel
  refine ⟨rfl, hread, ?_⟩
  rw [hread]
  rintro ⟨_, _, he, -⟩
  cases he

/-- A read of the whole block. -/
theorem readBlock_whole (hmeta : s.readMeta blockId = some m)
    (hdata : s.files.find (blockDataPath blockId) = some bytes) {content : Bytes} :
    s.readBlock crc32 blockId 0 0 dataOut = some (true, content) ↔
      0 ≤ m.size ∧ m.size ≤ bytes.length ∧ content = bytes.take m.size.toNat ∧ (m.size = 0 ∨ crc32 content = m.crc32) := by
  have hn : readLength m.size 0 0 = some m.size := by rw [readLength, if_pos (Int.le_refl 0), Int.sub_zero]
  rcases Int.lt_trichotomy m.size 0 with hneg | hzero | hpos
  · have hread : s.readBlock crc32 blockId 0 0 dataOut = some (false, dataOut) := by
      simp only [readBlock, hmeta, hdata]
      rw [if_pos (.inr hneg)]
    rw [hread]
    exact iff_of_false (fun h => by cases h) (fun h => Int.not_lt.mpr h.1 hneg)
  · have hread : s.readBlock crc32 blockId 0 0 dataOut = some (true, []) := by
      simp only [readBlock, hmeta, hdata, hn]
      rw [if_neg (by omega), if_pos hzero]
    rw [hread, hzero]
    simp [eq_comm]
  · obtain ⟨hwhole, hshort⟩ := readBlock_got crc32 dataOut hmeta hdata
      ⟨Int.le_refl 0, Int.le_of_lt hpos⟩ (by decide) hn hpos rfl
    simp only [Int.toNat_zero, List.drop_zero, List.length_take] at hwhole hshort
    by_cases hlen : m.size ≤ bytes.length
    · rw [hwhole (by omega)]
      simp only [Option.some.injEq, Prod.mk.injEq, decide_eq_true_eq, forall_const]
      constructor
      · rintro ⟨hsum, rfl⟩
        exact ⟨Int.le_of_lt hpos, hlen, rfl, .inr hsum⟩
      · rintro ⟨-, -, rfl, hsum⟩
        exact ⟨hsum.resolve_left (by omega), rfl⟩
    · obtain ⟨out, hout⟩ := hshort (by omega)
      rw [hout]
      exact iff_of_false (fun h => by cases h) (fun h => hlen h.2.1)

end MiniStorage.Datanode
