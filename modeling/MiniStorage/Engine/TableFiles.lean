import MiniStorage.Engine.Db
import MiniStorage.Engine.SSTableRoundTrip

namespace MiniStorage.Engine

/-- What is in a new file once this was written to it and it was closed. -/
def Outcome.taken (io : Outcome) (data : Bytes) : Bytes :=
  (OFStream.write { good := io.opened, room := io.room } data).bytes

/-- The file holds all of it. -/
def Outcome.Complete (io : Outcome) (data : Bytes) : Prop := io.opened = true ∧ ∀ n, io.room = some n → data.length ≤ n

theorem Outcome.Complete.taken {io : Outcome} {data : Bytes} (h : io.Complete data) : io.taken data = data := by
  obtain ⟨hopened, hroom⟩ := h
  cases hr : io.room with
  | none => simp [Outcome.taken, OFStream.write, hopened, hr]
  | some n => simp [Outcome.taken, OFStream.write, hopened, hr, hroom n hr]

namespace SSTableBuilder

variable {codec : VarintCodec} {b b' : SSTableBuilder}

/-- The same builder when its file is another one. -/
def on (f : OFStream) (b : SSTableBuilder) : SSTableBuilder := { b with file := f.write b.file.bytes }

/-- Its own file takes everything. -/
def Unlimited (b : SSTableBuilder) : Prop := b.file.good = true ∧ b.file.room = none

theorem Unlimited.write (h : b.Unlimited) (data : Bytes) :
    (b.file.write data).bytes = b.file.bytes ++ data ∧ (b.file.write data).good = true ∧
      (b.file.write data).room = none := by
  obtain ⟨hgood, hroom⟩ := OFStream.good_write data h.1 h.2
  exact ⟨(OFStream.bytes_write hgood).2, hgood, hroom⟩

/-- What one builder does, the other does on its file. -/
structure Follows (f : OFStream) (r r' : Option SSTableBuilder) : Prop where
  eq : r' = r.map (on f)
  unlimited : ∀ b, r = some b → b.Unlimited

theorem Follows.of_none (f : OFStream) : Follows f none none := ⟨rfl, by simp⟩

theorem Unlimited.follows (h : b.Unlimited) (f : OFStream) : Follows f (some b) (some (b.on f)) where
  eq := rfl
  unlimited b' hb := by
    rw [← Option.some.inj hb]
    exact h

theorem Follows.bind {f : OFStream} {r r' : Option SSTableBuilder} (h : Follows f r r')
    {k : SSTableBuilder → Option SSTableBuilder} (hk : ∀ b, b.Unlimited → Follows f (k b) (k (b.on f))) :
    Follows f (r.bind k) (r'.bind k) := by
  obtain ⟨rfl, hall⟩ := h
  cases r with
  | none => exact .of_none f
  | some b => exact hk b (hall b rfl)

theorem Unlimited.flushDataBlock (h : b.Unlimited) (f : OFStream) :
    Follows f (b.flushDataBlock codec) ((b.on f).flushDataBlock codec) := by
  obtain ⟨hbytes, hgood⟩ := h.write (b.buffer ++ encodeFixed32 (valueCRC32 0xffffffff b.buffer))
  simp only [SSTableBuilder.flushDataBlock, on, OFStream.write_append, List.append_assoc]
  by_cases hempty : b.buffer.isEmpty = true
  · simp only [hempty, if_true]
    exact h.follows f
  · simp only [hempty]
    cases putLengthPrefixedString codec b.indexBlock b.lastKey with
    | none => exact .of_none f
    | some i₁ =>
        simp only [Option.bind_eq_bind, Option.bind_some]
        cases putVarint32 codec i₁ (UInt32.ofNat b.offset) with
        | none => exact .of_none f
        | some i₂ =>
            simp only [Option.bind_some]
            cases putVarint32 codec i₂ (UInt32.ofNat (b.buffer.length + 4)) with
            | none => exact .of_none f
            | some i₃ =>
                refine ⟨?_, ?_⟩
                · simp [on, hbytes]
                · intro b' hb'
                  obtain rfl := Option.some.inj hb'
                  exact hgood

theorem Unlimited.add (h : b.Unlimited) (f : OFStream) (key value : Bytes) :
    Follows f (b.add codec key value) ((b.on f).add codec key value) := by
  simp only [SSTableBuilder.add, Option.bind_eq_bind, Option.pure_def]
  show Follows f _ ((putLengthPrefixedString codec b.buffer key).bind _)
  cases putLengthPrefixedString codec b.buffer key with
  | none => exact .of_none f
  | some i₁ =>
      simp only [Option.bind_some]
      cases putLengthPrefixedString codec i₁ value with
      | none => exact .of_none f
      | some i₂ =>
          have hmid : Unlimited { b with buffer := i₂, lastKey := key } := h
          simp only [Option.bind_some]
          split
          · exact (hmid.flushDataBlock f).bind fun b hb =>
              (show Unlimited { b with keys := b.keys ++ [key] } from hb).follows f
          · exact (show Unlimited { b with buffer := i₂, lastKey := key, keys := b.keys ++ [key] } from h).follows f

theorem Unlimited.addAll (h : b.Unlimited) (f : OFStream) (kvs : List (Bytes × Bytes)) :
    Follows f (b.addAll codec kvs) ((b.on f).addAll codec kvs) := by
  induction kvs generalizing b with
  | nil => exact h.follows f
  | cons p kvs ih => exact (h.add f p.1 p.2).bind (fun b hb => ih hb)

/-- What Finish writes behind the data blocks. -/
def trailer (b : SSTableBuilder) : Option Bytes :=
  (BloomFilter.ofEntries (toInt b.keys.length)).map fun bf =>
    let bf := b.keys.foldl BloomFilter.add bf
    let filterSize := 1 + UInt32.ofNat bf.data.length
    [UInt8.ofNat bf.numHashes] ++ (bf.data ++ (b.indexBlock ++ (encodeFixed32 (valueCRC32 0xffffffff b.indexBlock) ++
      (encodeFixed64 (UInt64.ofNat (b.offset + filterSize.toNat)) ++
        encodeFixed32 (UInt32.ofNat (b.indexBlock.length + 4)) ++
        encodeFixed64 (UInt64.ofNat b.offset) ++ encodeFixed32 filterSize))))

theorem trailer_on (f : OFStream) (b : SSTableBuilder) : (b.on f).trailer = b.trailer := rfl

theorem finish_file (b : SSTableBuilder) :
    (b.finish codec).map (fun r => r.2.file) =
      (if !b.buffer.isEmpty then b.flushDataBlock codec else some b).bind fun b =>
        b.trailer.map fun data => (b.file.write data).flush := by
  rw [finish_eq, Option.map_bind]
  refine congrArg (Option.bind _) (funext fun b₁ => ?_)
  rw [Function.comp_apply, Option.map_bind, trailer, Option.map_map, Option.map_eq_bind]
  refine congrArg (Option.bind _) (funext fun bf => ?_)
  simp only [Function.comp_apply, Option.map_some, OFStream.write_append, List.append_assoc]

/-- Finish leaves a file that takes everything with all that was written, and another one
with what it takes of that. -/
theorem Unlimited.finish (h : b.Unlimited) (f : OFStream) :
    ((b.on f).finish codec).map (fun r => r.2.file.bytes) =
        (b.finish codec).map (fun r => (f.write r.2.file.bytes).bytes) ∧
      ∀ r, b.finish codec = some r → r.2.file.durable = r.2.file.bytes := by
  have hflush : Follows f (if !b.buffer.isEmpty then b.flushDataBlock codec else some b)
      (if !(b.on f).buffer.isEmpty then (b.on f).flushDataBlock codec else some (b.on f)) := by
    show Follows f _ (if !b.buffer.isEmpty then (b.on f).flushDataBlock codec else some (b.on f))
    split
    · exact h.flushDataBlock f
    · exact h.follows f
  obtain ⟨heq, hall⟩ := hflush
  have hmap {A : Type} (g : OFStream → A) (r : Option (Bool × SSTableBuilder)) :
      r.map (fun r => g r.2.file) = (r.map fun r => r.2.file).map g := by
    rw [Option.map_map]
    rfl
  have hdurable : ∀ r, b.finish codec = some r → (b.finish codec).map (fun r => r.2.file) = some r.2.file := by
    intro r hr
    rw [hr]
    rfl
  rw [finish_file] at hdurable
  rw [hmap OFStream.bytes, hmap (fun g => (f.write g.bytes).bytes), finish_file, finish_file, heq]
  generalize (if !b.buffer.isEmpty then b.flushDataBlock codec else some b) = flushed at hall hdurable
  cases flushed with
  | none => exact ⟨rfl, fun r hr => by cases hdurable r hr⟩
  | some b₁ =>
      rw [Option.map_some, Option.bind_some, Option.bind_some, trailer_on]
      rw [Option.bind_some] at hdurable
      generalize b₁.trailer = t at hdurable
      cases t with
      | none => exact ⟨rfl, fun r hr => by cases hdurable r hr⟩
      | some data =>
          obtain ⟨hbytes, hgood, -⟩ := (hall b₁ rfl).write data
          refine ⟨?_, fun r hr => ?_⟩
          · simp only [on, Option.map_some, OFStream.bytes_flush, OFStream.write_append, hbytes]
          · rw [← Option.some.inj (hdurable r hr), OFStream.durable_flush hgood, OFStream.bytes_flush]

/-- All the calls on a builder whose file takes every byte, and the file they leave. -/
def build (codec : VarintCodec) (kvs : List (Bytes × Bytes)) : Option Bytes := do
  let b ← (create true none).addAll codec kvs
  let (_, b) ← b.finish codec
  return b.file.durable

theorem isTable_of_build {kvs : List (Bytes × Bytes)} {file : Bytes} (h : build codec kvs = some file) :
    ∃ f, IsTable codec file (cutBlocks codec kvs) f ∧ f.data.length ≤ 2 ^ 28 := by
  obtain ⟨b, hadd, h⟩ := Option.bind_eq_some_iff.mp h
  obtain ⟨⟨ok, b'⟩, hfin, h⟩ := Option.bind_eq_some_iff.mp h
  obtain rfl := Option.some.inj h
  exact (isTable_of_finish hadd hfin).2.2

theorem build_some {kvs : List (Bytes × Bytes)} {file : Bytes} (h : build codec kvs = some file) :
    ∃ blocks f, IsTable codec file blocks f ∧ blocks.flatten = kvs := by
  obtain ⟨f, htable, -⟩ := isTable_of_build h
  exact ⟨_, f, htable, flatten_cutBlocks kvs⟩

theorem build_isSome (htotal : ∀ n, codec.Encodes n) {kvs : List (Bytes × Bytes)} (h : kvs.length * 10 < 2 ^ 31) :
    (build codec kvs).isSome := by
  obtain ⟨b, hadd⟩ := Option.isSome_iff_exists.mp (addAll_isSome htotal (create true none) kvs)
  obtain ⟨-, hkeys⟩ := Built.create.addAll hadd
  have hlen : b.keys.length = kvs.length := by
    rw [hkeys]
    simp [create]
  obtain ⟨⟨ok, b'⟩, hfin⟩ := Option.isSome_iff_exists.mp (finish_isSome htotal b (by rw [hlen]; exact h))
  simp only [build, hadd, hfin, Option.bind_eq_bind, Option.bind_some]
  rfl

theorem build_eq_none {kvs : List (Bytes × Bytes)} (h : 2 ^ 31 ≤ kvs.length * 10) (hlt : kvs.length < 2 ^ 31) :
    build codec kvs = none := by
  rw [Option.eq_none_iff_forall_ne_some]
  intro file hfile
  obtain ⟨b, hadd, hfile⟩ := Option.bind_eq_some_iff.mp hfile
  obtain ⟨⟨ok, b'⟩, hfin, -⟩ := Option.bind_eq_some_iff.mp hfile
  obtain ⟨hbuilt, hkeys⟩ := Built.create.addAll hadd
  have hlen : b.keys.length = kvs.length := by
    rw [hkeys]
    simp [create]
  rw [finish_eq] at hfin
  obtain ⟨b₁, hflush, hfin⟩ := Option.bind_eq_some_iff.mp hfin
  obtain ⟨f, hf, -⟩ := Option.bind_eq_some_iff.mp hfin
  obtain ⟨-, hk⟩ := hbuilt.flushRest hflush
  rw [hk, hlen, toInt_of_lt hlt] at hf
  have hover : (kvs.length : Int) * bitsPerKey < 0 ∨ 2 ^ 31 ≤ (kvs.length : Int) * bitsPerKey := by
    simp only [bitsPerKey]
    omega
  simp only [BloomFilter.ofEntries, hover, if_true] at hf
  cases hf

theorem build_bind {C : Type} (io : Outcome) (kvs : List (Bytes × Bytes)) (k : Bytes → Option C) :
    (((create io.opened io.room).addAll codec kvs).bind fun b => (b.finish codec).bind fun r => k r.2.file.bytes) =
      (build codec kvs).bind fun file => k (io.taken file) := by
  have hfresh : (create true none).Unlimited := ⟨rfl, rfl⟩
  have hempty : (create true none).on { good := io.opened, room := io.room } = create io.opened io.room := by
    simp [on, create, OFStream.write_nil]
  obtain ⟨heq, hall⟩ : Follows _ _ (((create true none).on _).addAll codec kvs) :=
    hfresh.addAll { good := io.opened, room := io.room } kvs
  rw [hempty] at heq
  rw [heq, build]
  cases hadd : (create true none).addAll codec kvs with
  | none => rfl
  | some b =>
      obtain ⟨hfinish, hdurable⟩ := @Unlimited.finish codec b (hall b hadd) { good := io.opened, room := io.room }
      have hk (r : Option (Bool × SSTableBuilder)) :
        (r.bind fun r => k r.2.file.bytes) = (r.map fun r => r.2.file.bytes).bind k := by
        rw [Option.bind_map]
        rfl
      rw [Option.map_some, Option.bind_some, hk, hfinish]
      cases hfin : b.finish codec with
      | none => simp [hfin]
      | some r => simp [hfin, hdurable r hfin, Outcome.taken]

end SSTableBuilder

/-- A file that is written from this map has fewer than 2^32 bytes. -/
def Short (codec : VarintCodec) (kvs : SortedMap Bytes Bytes) : Prop :=
  ∀ file, SSTableBuilder.build codec kvs.entries = some file → file.length < 2 ^ 32

end MiniStorage.Engine
