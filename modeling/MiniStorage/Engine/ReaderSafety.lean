import MiniStorage.Engine.Decoding
import MiniStorage.Engine.Positions
import Mathlib.Data.List.Induction

namespace MiniStorage.Engine

/-- Open comes back, and so does every Get and NewIterator after it. -/
def ReaderSafe (filename file : Bytes) : Prop :=
  ∃ ok r, SSTableReader.openFile filename (some file) = some (ok, r) ∧
    ∀ cache, Stores (fun _ _ => True) cache → ∀ calls, (r.answers cache calls).isSome

/-- The four fields behind everything else. -/
structure Footer where
  indexOffset : UInt64
  totalIndexSize : UInt32
  filterOffset : UInt64
  filterSize : UInt32

def footerOf (file : Bytes) : Option Footer := do
  let footer := file.drop (file.length - 24)
  let indexOffset ← decodeFixed64 footer
  let totalIndexSize ← decodeFixed32 (footer.drop 8)
  let filterOffset ← decodeFixed64 (footer.drop 12)
  let filterSize ← decodeFixed32 (footer.drop 20)
  return ⟨indexOffset, totalIndexSize, filterOffset, filterSize⟩

/-- A buffer of `n` bytes that starts with these. -/
def padded (n : Nat) (bs : Bytes) : Bytes := bs ++ List.replicate (n - bs.length) 0

/-- The footer names a filter that is not in the file, and the stream has failed before the index is read. -/
def FilterMissing (file : Bytes) (t : Footer) : Prop :=
  0 < t.filterSize.toNat ∧ (2 ^ 63 ≤ t.filterOffset.toNat ∨ file.length < t.filterOffset.toNat + t.filterSize.toNat)

instance (file : Bytes) (t : Footer) : Decidable (FilterMissing file t) := by unfold FilterMissing; infer_instance

/-- What is read for the index. Where the file has nothing there are zeros. -/
def indexBuffer (file : Bytes) (t : Footer) : Bytes :=
  padded t.totalIndexSize.toNat (if FilterMissing file t ∨ 2 ^ 63 ≤ t.indexOffset.toNat then []
    else (file.drop t.indexOffset.toNat).take t.totalIndexSize.toNat)

def indexData (file : Bytes) (t : Footer) : Bytes := (indexBuffer file t).take (t.totalIndexSize.toNat - 4)

def indexCrc (file : Bytes) (t : Footer) : Bytes := (indexBuffer file t).drop (t.totalIndexSize.toNat - 4)

section Text

/-! The text of an index whose checksum is right. -/

variable (crc : Bytes)

/-- `d` starts with an entry. Only its key has to lie in `d`: the two numbers may go on
in the checksum, and in the terminator behind it. -/
def StartsEntry (d : Bytes) (e : IndexRecord) (rest : Bytes) : Prop :=
  ∃ len offset size tail, VarintAs len (UInt32.ofNat e.key.length) ∧ e.key.length < 2 ^ 32 ∧ VarintAs offset e.offset ∧
    VarintAs size e.size ∧ len.length + e.key.length ≤ d.length ∧
    d ++ (crc ++ [0]) = len ++ e.key ++ (offset ++ (size ++ tail)) ∧
    rest = d.drop (len.length + e.key.length + (offset.length + size.length))

/-- The entries of an index, one behind the other, up to where none starts. That is not
right behind a key when the checksum consists of four bytes that all say that another one follows. -/
inductive IndexText : Bytes → List IndexRecord → Prop where
  | stop {d : Bytes} : (∀ e rest, ¬ StartsEntry crc d e rest) →
      (∀ len key : Bytes, d = len ++ key → VarintAs len (UInt32.ofNat key.length) → key.length < 2 ^ 32 →
        ∃ b ∈ crc, b.toNat < 128) → IndexText d []
  | entry {d rest : Bytes} {e : IndexRecord} {es : List IndexRecord} : StartsEntry crc d e rest → IndexText rest es →
      IndexText d (e :: es)

end Text

/-- The entry stays in index_: no later one has its key. -/
def Kept (es : List IndexRecord) (e : IndexRecord) : Prop :=
  ∃ front back, es = front ++ e :: back ∧ ∀ e' ∈ back, e'.key ≠ e.key

/-- No entry that stays has a size below the four bytes of a checksum. -/
def SizesFit (es : List IndexRecord) : Prop := ∀ e, Kept es e → 4 ≤ e.size.toNat

/-- The files that a reader can take. -/
def Readable (file : Bytes) : Prop :=
  file.length < 24 ∨ file.length - 24 < 2 ^ 63 ∧ ∃ t, footerOf file = some t ∧ 4 ≤ t.totalIndexSize.toNat ∧
    (decodeFixed32 (indexCrc file t) ≠ some (valueCRC32 0xffffffff (indexData file t)) ∨
      ∃ es, IndexText (indexCrc file t) (indexData file t) es ∧ SizesFit es)

section Reads

/-! What a read leaves in the buffer, wherever it is. -/

variable (f : IFStream)

theorem length_padded {n : Nat} {bs : Bytes} (h : bs.length ≤ n) : (padded n bs).length = n := by
  rw [padded, List.length_append, List.length_replicate, Nat.add_sub_cancel' h]

theorem readInto_eq (n : Nat) : readInto f n = (padded n (f.unread.take n), (f.read n).2) := by
  rw [readInto, ← IFStream.read_fst]
  rfl

theorem length_readInto (n : Nat) : (readInto f n).1.length = n := by
  rw [readInto_eq]
  exact length_padded (List.length_take_le n _)

end Reads

namespace SSTableReader

/-- Where the stream is after the filter, if there is one. -/
theorem filter_read {s : IFStream} (hs : s.failed = false) (t : Footer) :
    ∃ filter s', (if t.filterSize > 0 then
        let (filterData, file) := readInto (s.seekg t.filterOffset.toNat) t.filterSize.toNat
        (some (BloomFilter.ofRawData filterData), file)
      else (none, s)) = (filter, s') ∧ s'.bytes = s.bytes ∧ (s'.failed = true ↔ FilterMissing s.bytes t) := by
  have hzero : (0 : UInt32).toNat = 0 := rfl
  by_cases hsize : t.filterSize > 0
  · rw [if_pos hsize, readInto_eq]
    rw [gt_iff_lt, UInt32.lt_iff_toNat_lt, hzero] at hsize
    obtain ⟨hseekBytes, hseekFailed⟩ := s.seekg_snd t.filterOffset.toNat
    obtain ⟨hbytes, hfailed⟩ := (s.seekg t.filterOffset.toNat).read_snd t.filterSize.toNat
    refine ⟨_, ((s.seekg t.filterOffset.toNat).read t.filterSize.toNat).2, rfl, hbytes.trans hseekBytes, ?_⟩
    rw [hfailed, Bool.or_eq_true, decide_eq_true_eq, hseekFailed, hs, IFStream.unread_seekg, FilterMissing]
    split
    next hfar =>
      have hle : 2 ^ 63 ≤ t.filterOffset.toNat := by simpa [hs] using hfar
      simp only [Bool.false_eq_true, false_or]
      exact iff_of_true (.inl hle) ⟨hsize, .inl hle⟩
    next hnear =>
      have hlt : ¬ 2 ^ 63 ≤ t.filterOffset.toNat := (not_or.mp hnear).2
      simp only [Bool.false_eq_true, false_or, hlt, hsize, true_and, List.length_drop]
      omega
  · rw [if_neg hsize]
    rw [gt_iff_lt, UInt32.lt_iff_toNat_lt, hzero] at hsize
    exact ⟨none, s, rfl, rfl, by simp [hs, FilterMissing, hsize]⟩

theorem openFile_footer (filename : Bytes) {file : Bytes} {t : Footer} (hlen : 24 ≤ file.length)
    (hfar : file.length - 24 < 2 ^ 63) (ht : footerOf file = some t) :
    ∃ r : SSTableReader, r.index = .empty ∧ openFile filename (some file) =
      (decodeFixed32 ((indexBuffer file t).drop (t.totalIndexSize - 4).toNat)).bind fun savedCrc =>
        if savedCrc ≠ valueCRC32 0xffffffff ((indexBuffer file t).take (t.totalIndexSize - 4).toNat) then
          some (false, r)
        else
          (parseIndex (t.totalIndexSize - 4).toNat
            (cursorOn (indexBuffer file t) (t.totalIndexSize - 4).toNat) .empty).bind
            fun index => some (true, { r with index := index }) := by
  simp only [footerOf, Option.bind_eq_bind, Option.bind_eq_some_iff, Option.pure_def, Option.some.injEq] at ht
  obtain ⟨io, hio, is, his, fo, hfo, fs, hfs, rfl⟩ := ht
  let s : IFStream := { bytes := file }
  have hunread : (s.seekg (file.length - 24)).unread = file.drop (file.length - 24) := by
    rw [IFStream.unread_seekg, if_neg (not_or.mpr ⟨Bool.false_ne_true, Nat.not_le.mpr hfar⟩)]
  have hcount : (file.drop (file.length - 24)).length = 24 := by
    rw [List.length_drop]
    omega
  obtain ⟨s₁, hread, hbytes, hfailed⟩ :
      ∃ s₁, readInto (s.seekg (file.length - 24)) 24 = (file.drop (file.length - 24), s₁) ∧
      s₁.bytes = file ∧ s₁.failed = false := by
    obtain ⟨hb, hf⟩ := (s.seekg (file.length - 24)).read_snd 24
    refine ⟨_, ?_, hb.trans (s.seekg_snd _).1, ?_⟩
    · rw [readInto_eq, hunread, List.take_of_length_le (le_of_eq hcount), padded, hcount, Nat.sub_self,
        List.replicate_zero, List.append_nil]
    · rw [hf, hunread, hcount, IFStream.seekg_eq, if_neg (not_or.mpr ⟨Bool.false_ne_true, Nat.not_le.mpr hfar⟩)]
      rfl
  obtain ⟨filter, s₂, hfilter, hbytes₂, hfailed₂⟩ := filter_read hfailed ⟨io, is, fo, fs⟩
  rw [hbytes] at hbytes₂ hfailed₂
  have hindex : (readInto (s₂.seekg io.toNat) is.toNat).1 = indexBuffer file ⟨io, is, fo, fs⟩ := by
    rw [readInto_eq, IFStream.unread_seekg, hbytes₂, indexBuffer]
    simp only [hfailed₂]
    split
    · rw [List.take_nil]
    · rfl
  refine ⟨{ filename := filename, file := (readInto (s₂.seekg io.toNat) is.toNat).2, filter := filter }, rfl, ?_⟩
  simp only [openFile, Nat.not_lt.mpr hlen, if_false, s, hread, hio, his, hfo, hfs, hfilter, hindex,
    Option.bind_eq_bind, Option.bind_some, Option.pure_def]

end SSTableReader

theorem Cursor.bytes_advance (p : Cursor) (n : Nat) : (p.advance n).bytes = p.bytes.drop n := by
  rw [Cursor.bytes, Cursor.bytes, Cursor.advance, List.drop_append]

theorem EncodedAs.varint {bs s : Bytes} (h : EncodedAs bs s) :
    ∃ len, bs = len ++ s ∧ VarintAs len (UInt32.ofNat s.length) ∧ s.length < 2 ^ 32 := by
  obtain ⟨len, rfl, hlen, hs⟩ := h
  obtain ⟨front, tail, hcut, hvarint, hcount⟩ := decodeVarint32_eq_some hlen (Int.natCast_nonneg _)
  have htail : tail = [] := by
    rw [← List.length_eq_zero_iff]
    have hlens := congrArg List.length hcut
    rw [List.length_append] at hlens
    omega
  rw [htail, List.append_nil] at hcut
  exact ⟨len, rfl, hcut ▸ hvarint, hs⟩

theorem VarintAs.encodedAs {len s : Bytes} (h : VarintAs len (UInt32.ofNat s.length)) (hs : s.length < 2 ^ 32) :
    EncodedAs (len ++ s) s := by
  refine ⟨len, rfl, ?_, hs⟩
  simpa using h.decode []

/-- An entry of index_, as the loop of Open puts it there. -/
def IndexRecord.put (m : SortedMap Bytes BlockHandle) (e : IndexRecord) : SortedMap Bytes BlockHandle :=
  m.insert e.key ⟨e.offset.toUInt64, e.size⟩

theorem not_unfinished {d crc : Bytes} (hcrc : crc.length = 4) : ¬ Unfinished (d ++ (crc ++ [0])) := by
  rintro ⟨hlen, -⟩
  simp only [List.length_append, List.length_singleton] at hlen
  omega

theorem parseIndex_nil (fuel : Nat) (beyond : Bytes) (m : SortedMap Bytes BlockHandle) :
    parseIndex fuel ⟨[], beyond⟩ m = some m := by
  cases fuel with
  | zero => rfl
  | succ fuel => rfl

section Entries

variable {crc d rest : Bytes} {e : IndexRecord} {m m' : SortedMap Bytes BlockHandle} {fuel : Nat}

theorem StartsEntry.length_lt (h : StartsEntry crc d e rest) : rest.length < d.length := by
  obtain ⟨len, offset, size, tail, hlen, -, -, -, hfit, -, rfl⟩ := h
  have hpos := List.length_pos_of_ne_nil hlen.ne_nil
  rw [List.length_drop]
  omega

/-- One turn of the loop of Open. Numbers that go on in the checksum leave nothing in front of it. -/
theorem StartsEntry.parse (h : StartsEntry crc d e rest) :
    parseIndex (fuel + 1) ⟨d, crc ++ [0]⟩ m = parseIndex fuel ⟨rest, crc ++ [0]⟩ (e.put m) := by
  obtain ⟨len, offset, size, tail, hlen, hkey, hoffset, hsize, hfit, htext, rfl⟩ := h
  let n := offset.length + size.length
  -- what is left of `d` behind the key
  have hcut : d = (len ++ e.key) ++ d.drop (len ++ e.key).length := by
    have htake : d.take (len ++ e.key).length = len ++ e.key := by
      have h := congrArg (List.take (len ++ e.key).length) htext
      rwa [List.take_append_of_le_length (by rw [List.length_append]; exact hfit), List.take_left] at h
    rw [← htake, List.length_take_of_le (by rw [List.length_append]; exact hfit), List.take_append_drop]
  generalize hleft : d.drop (len ++ e.key).length = left at hcut
  have hbehind : left ++ (crc ++ [0]) = offset ++ (size ++ tail) := by
    rw [hcut, List.append_assoc] at htext
    exact List.append_cancel_left htext
  have hne : d ≠ [] := by
    rw [hcut]
    simp [hlen.ne_nil]
  have hstring := decodeString_encodedAs (hlen.encodedAs hkey) left (crc ++ [0])
  have hpos := List.length_pos_of_ne_nil hoffset.ne_nil
  have hpos' := List.length_pos_of_ne_nil hsize.ne_nil
  have hrest : d.drop (len.length + e.key.length + n) = (left.drop offset.length).drop size.length := by
    rw [← hleft, List.length_append, List.drop_drop, List.drop_drop, Nat.add_assoc]
  have hbytes : Cursor.bytes ⟨left, crc ++ [0]⟩ = offset ++ (size ++ tail) := hbehind
  have hbytes' : (Cursor.advance ⟨left, crc ++ [0]⟩ offset.length).bytes = size ++ tail := by
    rw [Cursor.bytes_advance, hbytes, List.drop_left]
  have hno : ¬ (offset.length : Int) ≤ 0 := by omega
  have hns : ¬ (size.length : Int) ≤ 0 := by omega
  have hturn : parseIndex (fuel + 1) ⟨d, crc ++ [0]⟩ m =
      parseIndex fuel ((Cursor.advance ⟨left, crc ++ [0]⟩ offset.length).advance size.length) (e.put m) := by
    rw [parseIndex, if_neg hne, hcut]
    simp only [hstring, hbytes, hbytes', hoffset.decode, hsize.decode, hno, hns, if_false, Int.toNat_natCast,
      Option.bind_eq_bind, Option.bind_some]
    rfl
  rw [hturn, hrest]
  rcases Nat.lt_or_ge n left.length with hlt | hge
  · have hzero : offset.length - left.length = 0 := by omega
    have hzero' : size.length - (left.drop offset.length).length = 0 := by
      rw [List.length_drop]
      omega
    rw [Cursor.advance, Cursor.advance, hzero, List.drop_zero, hzero', List.drop_zero]
  · have hnil : (left.drop offset.length).drop size.length = [] := by
      rw [List.drop_drop]
      exact List.drop_eq_nil_of_le hge
    rw [Cursor.advance, Cursor.advance, hnil, parseIndex_nil, parseIndex_nil]

/-- Only an offset that takes checksum and terminator has a size behind the terminator. -/
theorem behind_terminator {left offset tail : Bytes} {value : UInt32} (hcrc : crc.length = 4)
    (hcut : left ++ (crc ++ [0]) = offset ++ tail) (hoffset : VarintAs offset value) (htail : Unfinished tail) :
    left = [] ∧ ∀ b ∈ crc, 128 ≤ b.toNat := by
  obtain ⟨-, hmore⟩ := htail
  rw [← List.append_assoc] at hcut
  rcases List.eq_nil_or_concat' tail with rfl | ⟨tail, last, rfl⟩
  · obtain ⟨front, last, rfl, hfive, hfront, -⟩ := hoffset
    rw [List.append_nil] at hcut
    have hsame := (List.append_inj' hcut rfl).1
    have hlens := congrArg List.length hsame
    rw [List.length_append] at hlens
    have hleft : left = [] := List.length_eq_zero_iff.mp (by omega)
    rw [hleft, List.nil_append] at hsame
    rw [hsame]
    exact ⟨hleft, hfront⟩
  · rw [← List.append_assoc] at hcut
    have hlast := (List.append_inj' hcut rfl).2
    have hbig := hmore last (by simp)
    rw [← (List.cons.inj hlast).1] at hbig
    exact absurd hbig (by decide)

/-- Where no entry starts the loop ends, unless it runs behind the terminator. -/
theorem parseIndex_stop (hcrc : crc.length = 4) (hf : d.length ≤ fuel) (hno : ∀ e rest, ¬ StartsEntry crc d e rest)
    (hkey : ∀ len key : Bytes, d = len ++ key → VarintAs len (UInt32.ofNat key.length) → key.length < 2 ^ 32 →
      ∃ b ∈ crc, b.toNat < 128) : parseIndex fuel ⟨d, crc ++ [0]⟩ m = some m := by
  by_cases hne : d = []
  · rw [hne, parseIndex_nil]
  obtain ⟨fuel, rfl⟩ := Nat.exists_eq_succ_of_ne_zero (Nat.ne_zero_of_lt (Nat.lt_of_lt_of_le (List.length_pos_of_ne_nil hne) hf))
  rw [parseIndex, if_neg hne]
  cases hs : decodeString ⟨d, crc ++ [0]⟩ with
  | none => exact absurd ((decodeString_eq_none_iff _).mp hs) (not_unfinished hcrc)
  | some found =>
      cases found with
      | none => rfl
      | some found =>
          obtain ⟨key, q⟩ := found
          obtain ⟨kb, hkb, hd, hbeyond⟩ := decodeString_some hs
          obtain ⟨len, rfl, hlen, hshort⟩ := hkb.varint
          dsimp only at hd hbeyond
          have hbytes : q.bytes = q.ahead ++ (crc ++ [0]) := by rw [Cursor.bytes, hbeyond]
          simp only [Option.bind_eq_bind, Option.bind_some]
          cases ho : decodeVarint32 q.bytes with
          | none =>
              rw [decodeVarint32_none_iff, hbytes] at ho
              exact absurd ho (not_unfinished hcrc)
          | some found =>
              obtain ⟨n₁, offset⟩ := found
              simp only [Option.bind_some]
              by_cases hn₁ : n₁ ≤ 0
              · rw [if_pos hn₁]
                rfl
              obtain ⟨ob, tail, hob, hoffset, rfl⟩ := decodeVarint32_eq_some ho (by omega)
              rw [if_neg hn₁, Int.toNat_natCast]
              have htail : (q.advance ob.length).bytes = tail := by rw [Cursor.bytes_advance, hob, List.drop_left]
              rw [htail]
              cases hz : decodeVarint32 tail with
              | none =>
                  obtain ⟨hahead, hmore⟩ :=
                    behind_terminator hcrc (hbytes.symm.trans hob) hoffset ((decodeVarint32_none_iff tail).mp hz)
                  rw [hahead, List.append_nil] at hd
                  obtain ⟨b, hb, hsmall⟩ := hkey len key hd hlen hshort
                  exact absurd (hmore b hb) (Nat.not_le.mpr hsmall)
              | some found =>
                  obtain ⟨n₂, size⟩ := found
                  simp only [Option.bind_some]
                  by_cases hn₂ : n₂ ≤ 0
                  · rw [if_pos hn₂]
                    rfl
                  obtain ⟨sb, tail', rfl, hsize, -⟩ := decodeVarint32_eq_some hz (by omega)
                  refine (hno ⟨key, offset, size⟩ _
                    ⟨len, ob, sb, tail', hlen, hshort, hoffset, hsize, ?_, ?_, rfl⟩).elim
                  · rw [hd]
                    simp
                  · rw [hd, List.append_assoc, ← hbytes, hob]

/-- Behind a key and five bytes that are all taken for the offset, the size lies outside the buffer. -/
theorem parseIndex_overruns {len key : Bytes} (hcrc : crc.length = 4) (hlen : VarintAs len (UInt32.ofNat key.length))
    (hkey : key.length < 2 ^ 32) (hmore : ∀ b ∈ crc, 128 ≤ b.toNat) :
    parseIndex (fuel + 1) ⟨len ++ key, crc ++ [0]⟩ m = none := by
  have hne : len ++ key ≠ [] := by simp [hlen.ne_nil]
  have hstring := decodeString_encodedAs (hlen.encodedAs hkey) [] (crc ++ [0])
  rw [List.append_nil] at hstring
  have hoffset : VarintAs (crc ++ [0]) (groups (crc ++ [0])) := ⟨crc, 0, rfl, by omega, hmore, by decide, rfl⟩
  have hdecode := hoffset.decode []
  rw [List.append_nil] at hdecode
  have hbytes : Cursor.bytes ⟨[], crc ++ [0]⟩ = crc ++ [0] := rfl
  have hrest : (Cursor.advance ⟨[], crc ++ [0]⟩ (crc ++ [0]).length).bytes = [] := by
    rw [Cursor.bytes_advance, hbytes, List.drop_length]
  have hno : ¬ ((crc ++ [0]).length : Int) ≤ 0 := by
    rw [List.length_append, hcrc]
    decide
  have hend : decodeVarint32 [] = none := rfl
  rw [parseIndex, if_neg hne]
  simp only [hstring, hbytes, hdecode, hno, hrest, hend, if_false, Int.toNat_natCast, Option.bind_eq_bind,
    Option.bind_some, Option.bind_none]

theorem parseIndex_of_indexText {es : List IndexRecord} (hcrc : crc.length = 4) (h : IndexText crc d es)
    (hf : d.length ≤ fuel) :
    parseIndex fuel ⟨d, crc ++ [0]⟩ m = some (es.foldl IndexRecord.put m) := by
  induction h generalizing fuel m with
  | stop hno hkey => exact parseIndex_stop hcrc hf hno hkey
  | entry h htext ih =>
      have hlt := h.length_lt
      obtain ⟨fuel, rfl⟩ := Nat.exists_eq_succ_of_ne_zero (by omega : fuel ≠ 0)
      rw [h.parse, List.foldl_cons, ih (by omega)]

theorem IndexText.foldl_put_eq {es es' : List IndexRecord} (hcrc : crc.length = 4) (h : IndexText crc d es)
    (h' : IndexText crc d es') :
    es.foldl IndexRecord.put .empty = es'.foldl IndexRecord.put .empty :=
  Option.some.inj ((parseIndex_of_indexText hcrc h le_rfl).symm.trans (parseIndex_of_indexText hcrc h' le_rfl))

/-- Where the loop ends, it has gone over the text of an index. -/
theorem indexText_of_parseIndex (hcrc : crc.length = 4) (hf : d.length ≤ fuel)
    (h : parseIndex fuel ⟨d, crc ++ [0]⟩ m = some m') : ∃ es, IndexText crc d es := by
  induction fuel generalizing d m with
  | zero =>
      obtain rfl : d = [] := List.length_eq_zero_iff.mp (Nat.le_zero.mp hf)
      refine ⟨[], .stop (fun e rest hstart => absurd hstart.length_lt (Nat.not_lt_zero _)) ?_⟩
      intro len key hcut hlen
      exact absurd (List.append_eq_nil_iff.mp hcut.symm).1 hlen.ne_nil
  | succ fuel ih =>
      by_cases hstart : ∃ e rest, StartsEntry crc d e rest
      · obtain ⟨e, rest, hstart⟩ := hstart
        have hlt := hstart.length_lt
        rw [hstart.parse] at h
        obtain ⟨es, htext⟩ := ih (by omega) h
        exact ⟨e :: es, .entry hstart htext⟩
      · refine ⟨[], .stop (fun e rest hs => hstart ⟨e, rest, hs⟩) ?_⟩
        rintro len key rfl hlen hkey
        by_contra hbig
        have hmore : ∀ b ∈ crc, 128 ≤ b.toNat := fun b hb => Nat.not_lt.mp fun hlt => hbig ⟨b, hb, hlt⟩
        rw [parseIndex_overruns hcrc hlen hkey hmore] at h
        cases h

end Entries

theorem kept_append_singleton {es : List IndexRecord} {e a : IndexRecord} :
    Kept (es ++ [e]) a ↔ a = e ∨ Kept es a ∧ e.key ≠ a.key := by
  constructor
  · rintro ⟨front, back, hcut, hback⟩
    rcases List.eq_nil_or_concat' back with rfl | ⟨back, last, rfl⟩
    · obtain ⟨-, hlast⟩ := List.append_inj' hcut rfl
      exact .inl (List.cons.inj hlast).1.symm
    · rw [← List.cons_append, ← List.append_assoc] at hcut
      obtain ⟨rfl, hlast⟩ := List.append_inj' hcut rfl
      obtain rfl := (List.cons.inj hlast).1
      exact .inr ⟨⟨front, back, rfl, fun e' he' => hback e' (by simp [he'])⟩, hback e (by simp)⟩
  · rintro (rfl | ⟨⟨front, back, rfl, hback⟩, hne⟩)
    · exact ⟨es, [], rfl, by simp⟩
    · refine ⟨front, back ++ [e], by simp, ?_⟩
      intro e' he'
      rcases List.mem_append.mp he' with he' | he'
      · exact hback e' he'
      · rw [List.mem_singleton.mp he']
        exact hne

theorem mem_foldl_put {es : List IndexRecord} {k : Bytes} {handle : BlockHandle} :
    (k, handle) ∈ (es.foldl IndexRecord.put .empty).entries ↔
      ∃ e, Kept es e ∧ e.key = k ∧ ⟨e.offset.toUInt64, e.size⟩ = handle := by
  rw [← SortedMap.find_eq_some]
  induction es using List.reverseRecOn with
  | nil => simp [Kept]
  | append_singleton es e ih =>
      rw [List.foldl_append, List.foldl_cons, List.foldl_nil, IndexRecord.put, SortedMap.find_insert]
      simp only [kept_append_singleton]
      constructor
      · intro h
        split at h
        next hk => exact ⟨e, .inl rfl, hk.symm, Option.some.inj h⟩
        next hk =>
          obtain ⟨a, hkept, rfl, hhandle⟩ := ih.mp h
          exact ⟨a, .inr ⟨hkept, Ne.symm hk⟩, rfl, hhandle⟩
      · rintro ⟨a, rfl | ⟨hkept, hne⟩, rfl, rfl⟩
        · rw [if_pos rfl]
        · rw [if_neg (Ne.symm hne)]
          exact ih.mpr ⟨a, hkept, rfl, rfl⟩

theorem sizesFit_iff {es : List IndexRecord} :
    SizesFit es ↔ ∀ p ∈ (es.foldl IndexRecord.put .empty).entries, 4 ≤ p.2.size.toNat := by
  constructor
  · rintro h ⟨k, handle⟩ hp
    obtain ⟨e, hkept, rfl, rfl⟩ := mem_foldl_put.mp hp
    exact h e hkept
  · intro h e hkept
    exact h (e.key, ⟨e.offset.toUInt64, e.size⟩) (mem_foldl_put.mpr ⟨e, hkept, rfl, rfl⟩)

/-- The five bytes behind the data end every length that starts in it. -/
theorem parseBlock_isSome {fuel : Nat} {p : Cursor} (hf : p.ahead.length ≤ fuel) (hb : 5 ≤ p.beyond.length)
    (out : BolckData) :
    (parseBlock fuel p out).isSome := by
  induction fuel generalizing p out with
  | zero => rw [parseBlock, if_pos (List.length_eq_zero_iff.mp (Nat.le_zero.mp hf)), Option.isSome_some]
  | succ fuel ih =>
      have hends {q : Cursor} (hq : 5 ≤ q.beyond.length) : decodeString q ≠ none := by
        rw [Ne, decodeString_eq_none_iff]
        rintro ⟨hlen, -⟩
        rw [Cursor.bytes, List.length_append] at hlen
        omega
      rw [parseBlock]
      split
      next => rfl
      next =>
        obtain ⟨found, hk⟩ := Option.ne_none_iff_exists'.mp (hends hb)
        simp only [hk, Option.bind_eq_bind, Option.bind_some]
        cases found with
        | none => rfl
        | some found =>
            obtain ⟨k, q⟩ := found
            obtain ⟨kb, hkb, hahead, hbeyond⟩ := decodeString_some hk
            have hpos := List.length_pos_of_ne_nil hkb.ne_nil
            obtain ⟨found, hv⟩ := Option.ne_none_iff_exists'.mp (hends (q := q) (by rw [hbeyond]; exact hb))
            simp only [hv, Option.bind_some]
            cases found with
            | none => rfl
            | some found =>
                obtain ⟨v, q'⟩ := found
                obtain ⟨vb, -, hahead', hbeyond'⟩ := decodeString_some hv
                apply ih
                · rw [hahead, hahead', List.length_append, List.length_append] at hf
                  omega
                · rw [hbeyond', hbeyond]
                  exact hb

theorem toNat_sub_four {size : UInt32} (h : 4 ≤ size.toNat) : (size - 4).toNat = size.toNat - 4 :=
  UInt32.toNat_sub_of_le size 4 (UInt32.le_iff_toNat_le.mpr h)

/-- Below four the subtraction goes round. -/
theorem le_toNat_sub_four {size : UInt32} (h : size.toNat < 4) : size.toNat ≤ (size - 4).toNat := by
  have hfour : (4 : UInt32).toNat = 4 := rfl
  rw [UInt32.toNat_sub, hfour]
  omega

theorem decodeFixed32_drop_eq_none {buf : Bytes} {n : Nat} (h : buf.length ≤ n) :
    decodeFixed32 (buf.drop n) = none := by
  rw [List.drop_eq_nil_of_le h]
  rfl

theorem decodeFixed32_drop_isSome (buf : Bytes) {n : Nat} (h : n + 4 ≤ buf.length) :
    (decodeFixed32 (buf.drop n)).isSome := by
  apply decodeFixed32_isSome
  rw [List.length_drop]
  omega

namespace SSTableReader

variable {cache : Option LRUCache}

theorem readDataBlock_isSome (r : SSTableReader) (offset : UInt64) {size : UInt32} (hsize : 4 ≤ size.toNat)
    (hc : Stores (fun _ _ => True) cache) :
    ∃ entries r' cache', r.readDataBlock cache offset size = some (entries, r', cache') ∧ r'.index = r.index ∧
      Stores (fun _ _ => True) cache' ∧ (cache = none → cache' = none) := by
  obtain ⟨hit, cache₁, hget, hc₁, -⟩ := hc.get (makeCacheKey r.filename offset.toNat)
  have hnone₁ : cache = none → cache₁ = none ∧ hit = none := by
    rintro rfl
    obtain ⟨rfl, rfl⟩ := Prod.mk.inj (Option.some.inj hget)
    exact ⟨rfl, rfl⟩
  simp only [readDataBlock, hget, Option.bind_eq_bind, Option.bind_some]
  cases hit with
  | some data => exact ⟨_, _, _, rfl, rfl, hc₁, fun h => (hnone₁ h).1⟩
  | none =>
      obtain ⟨buf, s, hread⟩ : ∃ buf s, readInto (r.file.seekg offset.toNat) size.toNat = (buf, s) := ⟨_, _, rfl⟩
      have hlen : buf.length = size.toNat := by
        have h := length_readInto (r.file.seekg offset.toNat) size.toNat
        rwa [hread] at h
      obtain ⟨savedCrc, hcrc⟩ := Option.isSome_iff_exists.mp
        (decodeFixed32_drop_isSome buf (n := size.toNat - 4) (by omega))
      simp only [hread, toNat_sub_four hsize, hcrc, Option.bind_some, Option.pure_def]
      split
      next => exact ⟨_, _, _, rfl, rfl, hc₁, fun h => (hnone₁ h).1⟩
      next =>
        obtain ⟨out, hout⟩ := Option.isSome_iff_exists.mp (parseBlock_isSome
          (p := cursorOn buf (size.toNat - 4)) (List.length_take_le _ _)
          (by rw [cursorOn, List.length_append, List.length_drop]; simp only [List.length_singleton]; omega) [])
        obtain ⟨cache₂, hins, hc₂⟩ :=
          hc₁.insert (P := fun _ _ => True) (makeCacheKey r.filename offset.toNat) out trivial
        simp only [hout, hins, Option.bind_some]
        refine ⟨_, _, _, rfl, rfl, hc₂, ?_⟩
        intro h
        rw [(hnone₁ h).1] at hins
        exact (Option.some.inj hins).symm

theorem readDataBlock_eq_none (r : SSTableReader) (offset : UInt64) {size : UInt32} (hsize : size.toNat < 4) :
    r.readDataBlock none offset size = none := by
  obtain ⟨buf, s, hread⟩ : ∃ buf s, readInto (r.file.seekg offset.toNat) size.toNat = (buf, s) := ⟨_, _, rfl⟩
  have hlen : buf.length = size.toNat := by
    have h := length_readInto (r.file.seekg offset.toNat) size.toNat
    rwa [hread] at h
  have hcrc : decodeFixed32 (buf.drop (size - 4).toNat) = none :=
    decodeFixed32_drop_eq_none (hlen.trans_le (le_toNat_sub_four hsize))
  simp only [readDataBlock, cacheGet, hread, hcrc, Option.bind_eq_bind, Option.bind_some, Option.bind_none]

theorem iteratorLoop_isSome {entries : List (Bytes × BlockHandle)} (hsizes : ∀ p ∈ entries, 4 ≤ p.2.size.toNat)
    (r : SSTableReader) (hc : Stores (fun _ _ => True) cache) (acc : BolckData) :
    ∃ out r' cache', iteratorLoop cache entries r acc = some (out, r', cache') ∧ r'.index = r.index ∧
      Stores (fun _ _ => True) cache' := by
  induction entries generalizing r cache acc with
  | nil => exact ⟨acc, r, cache, rfl, rfl, hc⟩
  | cons p entries ih =>
      obtain ⟨hp, hrest⟩ := List.forall_mem_cons.mp hsizes
      obtain ⟨block, r₁, cache₁, hread, hindex, hc₁, -⟩ := r.readDataBlock_isSome p.2.offset hp hc
      simp only [iteratorLoop, hread, Option.bind_eq_bind, Option.bind_some]
      cases block with
      | none =>
          obtain ⟨out, r', cache', hloop, hindex', hc'⟩ := ih hrest r₁ hc₁ acc
          exact ⟨out, r', cache', hloop, hindex'.trans hindex, hc'⟩
      | some block =>
          obtain ⟨out, r', cache', hloop, hindex', hc'⟩ := ih hrest r₁ hc₁ (acc ++ block)
          exact ⟨out, r', cache', hloop, hindex'.trans hindex, hc'⟩

theorem iteratorLoop_eq_none {entries : List (Bytes × BlockHandle)} {p : Bytes × BlockHandle} (hp : p ∈ entries)
    (hsize : p.2.size.toNat < 4) (r : SSTableReader) (acc : BolckData) : iteratorLoop none entries r acc = none := by
  induction entries generalizing r acc with
  | nil => cases hp
  | cons q entries ih =>
      rw [iteratorLoop]
      rcases Nat.lt_or_ge q.2.size.toNat 4 with hlt | hge
      · rw [readDataBlock_eq_none r _ hlt]
        rfl
      · obtain ⟨block, r₁, cache₁, hread, -, -, hnone⟩ := r.readDataBlock_isSome q.2.offset hge
          (show Stores (fun _ _ => True) none from trivial)
        have hmem : p ∈ entries := by
          rcases List.mem_cons.mp hp with rfl | hp
          · omega
          · exact hp
        rw [hread, hnone rfl]
        simp only [Option.bind_eq_bind, Option.bind_some]
        cases block with
        | none => exact ih hmem r₁ acc
        | some block => exact ih hmem r₁ (acc ++ block)

theorem answer_isSome (r : SSTableReader) (hsizes : ∀ p ∈ r.index.entries, 4 ≤ p.2.size.toNat)
    (hc : Stores (fun _ _ => True) cache) (call : ReaderCall) :
    ∃ a r' cache', r.answer cache call = some (a, r', cache') ∧ r'.index = r.index ∧
      Stores (fun _ _ => True) cache' := by
  cases call with
  | get key =>
      rcases r.get_cases key with hnone | ⟨p, hp, hget⟩
      · simp only [answer, hnone]
        exact ⟨_, _, _, rfl, rfl, hc⟩
      · obtain ⟨block, r₁, cache₁, hread, hindex, hc₁, -⟩ := r.readDataBlock_isSome p.2.offset (hsizes p hp) hc
        simp only [answer, hget, hread]
        exact ⟨_, _, _, rfl, hindex, hc₁⟩
  | enumerate =>
      obtain ⟨out, r', cache', hloop, hindex, hc'⟩ := iteratorLoop_isSome hsizes r hc []
      simp only [answer, newIterator, hloop, SSTableIterator.forEach_eq, Option.bind_eq_bind, Option.bind_some]
      exact ⟨_, _, _, rfl, hindex, hc'⟩

theorem answers_isSome (r : SSTableReader) (hsizes : ∀ p ∈ r.index.entries, 4 ≤ p.2.size.toNat)
    (hc : Stores (fun _ _ => True) cache) (calls : List ReaderCall) : (r.answers cache calls).isSome := by
  induction calls generalizing r cache with
  | nil => rfl
  | cons call calls ih =>
      obtain ⟨a, r', cache', ha, hindex, hc'⟩ := r.answer_isSome hsizes hc call
      obtain ⟨rest, hrest⟩ := Option.isSome_iff_exists.mp (ih r' (by rw [hindex]; exact hsizes) hc')
      simp only [answers, ha, hrest, Option.bind_eq_bind, Option.bind_some]
      rfl

/-- Without a cache NewIterator reads every block of the index. -/
theorem sizes_of_answers {r : SSTableReader} (h : (r.answers none [.enumerate]).isSome) :
    ∀ p ∈ r.index.entries, 4 ≤ p.2.size.toNat := by
  intro p hp
  by_contra hsize
  have hloop := iteratorLoop_eq_none hp (Nat.not_le.mp hsize) r []
  simp only [answers, answer, newIterator, hloop, Option.bind_eq_bind, Option.bind_none] at h
  cases h

end SSTableReader

theorem footerOf_isSome {file : Bytes} (hlen : 24 ≤ file.length) : (footerOf file).isSome := by
  have hcount : (file.drop (file.length - 24)).length = 24 := by
    rw [List.length_drop]
    omega
  have h64 {n : Nat} (hn : n + 8 ≤ 24) : (decodeFixed64 ((file.drop (file.length - 24)).drop n)).isSome := by
    obtain ⟨lo, hlo⟩ := Option.isSome_iff_exists.mp
      (decodeFixed32_drop_isSome (file.drop (file.length - 24)) (n := n) (by omega))
    obtain ⟨hi, hhi⟩ := Option.isSome_iff_exists.mp
      (decodeFixed32_drop_isSome (file.drop (file.length - 24)) (n := n + 4) (by omega))
    rw [← List.drop_drop] at hhi
    simp only [decodeFixed64, hlo, hhi, Option.bind_eq_bind, Option.bind_some]
    rfl
  obtain ⟨io, hio⟩ := Option.isSome_iff_exists.mp (h64 (n := 0) (by decide))
  obtain ⟨is, his⟩ := Option.isSome_iff_exists.mp
    (decodeFixed32_drop_isSome (file.drop (file.length - 24)) (n := 8) (by omega))
  obtain ⟨fo, hfo⟩ := Option.isSome_iff_exists.mp (h64 (n := 12) (by decide))
  obtain ⟨fs, hfs⟩ := Option.isSome_iff_exists.mp
    (decodeFixed32_drop_isSome (file.drop (file.length - 24)) (n := 20) (by omega))
  rw [List.drop_zero] at hio
  simp only [footerOf, hio, his, hfo, hfs, Option.bind_eq_bind, Option.bind_some]
  rfl

theorem length_indexBuffer (file : Bytes) (t : Footer) : (indexBuffer file t).length = t.totalIndexSize.toNat := by
  rw [indexBuffer]
  apply length_padded
  split
  · exact Nat.zero_le _
  · exact List.length_take_le _ _

/-- The index is read in no other way once its size reaches the checksum. -/
theorem SSTableReader.openFile_eq (filename : Bytes) {file : Bytes} {t : Footer} (hlen : 24 ≤ file.length)
    (hfar : file.length - 24 < 2 ^ 63) (ht : footerOf file = some t) (hsize : 4 ≤ t.totalIndexSize.toNat) :
    ∃ r : SSTableReader, r.index = .empty ∧ openFile filename (some file) =
      if decodeFixed32 (indexCrc file t) ≠ some (valueCRC32 0xffffffff (indexData file t)) then some (false, r)
      else (parseIndex (t.totalIndexSize.toNat - 4) ⟨indexData file t, indexCrc file t ++ [0]⟩ .empty).bind
        fun index => some (true, { r with index := index }) := by
  obtain ⟨r, hempty, hopen⟩ := openFile_footer filename hlen hfar ht
  obtain ⟨savedCrc, hcrc⟩ := Option.isSome_iff_exists.mp (decodeFixed32_drop_isSome (indexBuffer file t)
    (n := t.totalIndexSize.toNat - 4) (by rw [length_indexBuffer]; omega))
  refine ⟨r, hempty, ?_⟩
  rw [hopen, toNat_sub_four hsize, hcrc, Option.bind_some, indexCrc, hcrc, indexData, cursorOn]
  simp only [ne_eq, Option.some.injEq]

theorem length_indexCrc (file : Bytes) {t : Footer} (h : 4 ≤ t.totalIndexSize.toNat) :
    (indexCrc file t).length = 4 := by
  rw [indexCrc, List.length_drop, length_indexBuffer]
  omega

theorem SSTableReader.openFile_eq_none {filename file : Bytes} {t : Footer} (hlen : 24 ≤ file.length)
    (hfar : file.length - 24 < 2 ^ 63) (ht : footerOf file = some t) (hsize : t.totalIndexSize.toNat < 4) :
    openFile filename (some file) = none := by
  obtain ⟨r, -, hopen⟩ := openFile_footer filename hlen hfar ht
  have hcrc : decodeFixed32 ((indexBuffer file t).drop (t.totalIndexSize - 4).toNat) = none :=
    decodeFixed32_drop_eq_none ((length_indexBuffer file t).trans_le (le_toNat_sub_four hsize))
  rw [hopen, hcrc, Option.bind_none]

/-- A position that streamoff does not have leaves the footer as it was. -/
theorem SSTableReader.openFile_far {filename file : Bytes} (hlen : 24 ≤ file.length)
    (hfar : 2 ^ 63 ≤ file.length - 24) :
    openFile filename (some file) = none := by
  have hread : (readInto (IFStream.seekg { bytes := file } (file.length - 24)) 24).1 = List.replicate 24 0 := by
    rw [readInto_eq, IFStream.unread_seekg, if_pos (.inr hfar), List.take_nil]
    rfl
  have hcrc (s : IFStream) : decodeFixed32 ((readInto s (0 : UInt32).toNat).1.drop ((0 : UInt32) - 4).toNat) = none := by
    apply decodeFixed32_drop_eq_none
    rw [length_readInto]
    exact Nat.zero_le _
  have hfooter : decodeFixed64 (List.replicate 24 0) = some 0 ∧ decodeFixed32 ((List.replicate 24 0).drop 8) = some 0 ∧
      decodeFixed64 ((List.replicate 24 0).drop 12) = some 0 ∧
      decodeFixed32 ((List.replicate 24 0).drop 20) = some 0 := by decide
  obtain ⟨h₁, h₂, h₃, h₄⟩ := hfooter
  have hnone : ¬ (0 : UInt32) > 0 := by decide
  simp only [openFile, Nat.not_lt.mpr hlen, if_false, hread, h₁, h₂, h₃, h₄, hnone, hcrc, Option.bind_eq_bind,
    Option.bind_some, Option.bind_none]

theorem reader_safe_iff (filename file : Bytes) : ReaderSafe filename file ↔ Readable file := by
  rcases Nat.lt_or_ge file.length 24 with hshort | hlen
  · refine iff_of_true ⟨false, { filename := filename, file := { bytes := file } }, ?_, fun cache hc calls => ?_⟩ (.inl hshort)
    · simp only [SSTableReader.openFile, hshort, if_true]
      rfl
    · exact SSTableReader.answers_isSome _ (by simp [SortedMap.empty]) hc calls
  have hnot : ¬ file.length < 24 := Nat.not_lt.mpr hlen
  rcases Nat.lt_or_ge (file.length - 24) (2 ^ 63) with hnear | hfar
  · obtain ⟨t, ht⟩ := Option.isSome_iff_exists.mp (footerOf_isSome hlen)
    simp only [ReaderSafe, Readable, hnot, hnear, ht, false_or, true_and, Option.some.injEq, exists_eq_left']
    rcases Nat.lt_or_ge t.totalIndexSize.toNat 4 with hsmall | hsize
    · rw [SSTableReader.openFile_eq_none hlen hnear ht hsmall]
      exact iff_of_false (by simp) (fun h => absurd h.1 (Nat.not_le.mpr hsmall))
    obtain ⟨r, hempty, hopen⟩ := SSTableReader.openFile_eq filename hlen hnear ht hsize
    rw [hopen]
    split
    next hcrc =>
      refine iff_of_true ⟨false, r, rfl, fun cache hc calls => ?_⟩ ⟨hsize, .inl hcrc⟩
      exact r.answers_isSome (by simp [hempty, SortedMap.empty]) hc calls
    next hcrc =>
      have hdata : (indexData file t).length ≤ t.totalIndexSize.toNat - 4 := List.length_take_le _ _
      have hfour := length_indexCrc file hsize
      constructor
      · rintro ⟨ok, r', hr, hsafe⟩
        obtain ⟨m, hm, hr⟩ := Option.bind_eq_some_iff.mp hr
        obtain ⟨-, rfl⟩ := Prod.mk.inj (Option.some.inj hr)
        obtain ⟨es, htext⟩ := indexText_of_parseIndex hfour hdata hm
        obtain rfl := Option.some.inj ((parseIndex_of_indexText hfour htext hdata).symm.trans hm)
        exact ⟨hsize, .inr ⟨es, htext,
          sizesFit_iff.mpr (SSTableReader.sizes_of_answers (hsafe none trivial [.enumerate]))⟩⟩
      · rintro ⟨-, hwrong | ⟨es, htext, hsizes⟩⟩
        · exact absurd hwrong hcrc
        · rw [parseIndex_of_indexText hfour htext hdata, Option.bind_some]
          exact ⟨true, _, rfl, fun cache hc calls => SSTableReader.answers_isSome _ (sizesFit_iff.mp hsizes) hc calls⟩
  · refine iff_of_false ?_ ?_
    · rintro ⟨ok, r, hopen, -⟩
      rw [SSTableReader.openFile_far hlen hfar] at hopen
      cases hopen
    · rintro (hshort | ⟨hnear, -⟩)
      · exact hnot hshort
      · exact absurd hnear (Nat.not_lt.mpr hfar)

theorem reader_unsafe_on_zeros : ¬ ∀ filename file : Bytes, ReaderSafe filename file := by
  intro h
  obtain ⟨ok, r, hopen, -⟩ := h [] (List.replicate 24 0)
  have hfooter : footerOf (List.replicate 24 0) = some ⟨0, 0, 0, 0⟩ := by rfl
  rw [SSTableReader.openFile_eq_none (by decide) (by decide) hfooter (by decide)] at hopen
  cases hopen

end MiniStorage.Engine
