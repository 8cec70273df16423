import MiniStorage.Datanode.BlockListing
import MiniStorage.Footprints

namespace MiniStorage.Datanode

open Engine Namenode BlockStore Footprints

/-- The call that the thread of a connection makes. -/
inductive BlockCall
  | write (blockId : BlockId) (data : Bytes) (disk : Disk)
  | read (blockId : BlockId) (offset length : Int)
  | delete (blockId : BlockId)

/-- What the call returns; for a read as `readBlock` does. -/
inductive Answer
  | wrote (ok : Bool)
  | got (r : Option (Bool × Bytes))
  | deleted (ok : Bool)
deriving DecidableEq, Repr

/-- How far a call has come, between two of its files. -/
inductive Place
  | entered
  | tmpWritten
  | metaWritten
  | undoing
  | metaRead (m : BlockMeta)
  | dataRemoved
  | returned (answer : Answer)
deriving DecidableEq, Repr

/-- ReadBlock behind ReadMeta. -/
def BlockStore.readData (crc32 : Bytes → UInt32) (s : BlockStore) (blockId : BlockId) (m : BlockMeta)
    (offset length : Int)
    (dataOut : Bytes) : Option (Bool × Bytes) :=
  match s.files.find (blockDataPath blockId) with
  | none => some (false, dataOut)
  | some bytes =>
      if offset < 0 ∨ m.size < offset then some (false, dataOut)
      else
        match readLength m.size offset length with
        | none => none
        | some n =>
            if n = 0 then some (true, [])
            else
              let got := ((({ bytes := bytes } : IFStream).seekg offset.toNat).read n.toNat).1
              let dataOut := got ++ (resize dataOut n.toNat).drop got.length
              if got.length ≠ n then some (false, dataOut)
              else if offset = 0 ∧ n = m.size ∧ crc32 dataOut ≠ m.crc32 then some (false, dataOut)
              else some (true, dataOut)

namespace BlockCall

def blockId : BlockCall → BlockId
  | .write blockId _ _ | .read blockId _ _ | .delete blockId => blockId

/-- The next operation on a file. No lock is held between two of them. -/
def step (crc32 : Bytes → UInt32) : BlockCall → Place → BlockStore → Place × BlockStore
  | .write blockId data disk, .entered, s =>
      let (ok, s) := s.writeTmp blockId data disk
      (if ok then .tmpWritten else .returned (.wrote false), s)
  | .write blockId data disk, .tmpWritten, s =>
      let (ok, s) := s.writeMeta blockId ⟨blockId, data.length, crc32 data, disk.now⟩ disk
      (if ok then .metaWritten else .undoing, s)
  | .write blockId _ disk, .metaWritten, s =>
      let (ok, s) := s.renameTmp blockId disk
      (if ok then .returned (.wrote true) else .undoing, s)
  | .write blockId _ _, .undoing, s => (.returned (.wrote false), s.remove (blockTmpPath blockId))
  | .read blockId _ _, .entered, s =>
      match s.readMeta blockId with
      | none => (.returned (.got (some (false, []))), s)
      | some m => (.metaRead m, s)
  | .read blockId offset length, .metaRead m, s => (.returned (.got (s.readData crc32 blockId m offset length [])), s)
  | .delete blockId, .entered, s => (.dataRemoved, (s.removeExisting (blockDataPath blockId) true).getD s)
  | .delete blockId, .dataRemoved, s =>
      (.returned (.deleted true), (s.removeExisting (blockMetaPath blockId) true).getD s)
  | _, place, s => (place, s)

/-- The whole call, with nobody else about. -/
def handle (crc32 : Bytes → UInt32) (s : BlockStore) : BlockCall → Answer × BlockStore
  | .write blockId data disk =>
      let (ok, s) := s.writeBlock crc32 blockId data disk
      (.wrote ok, s)
  | .read blockId offset length => (.got (s.readBlock crc32 blockId offset length []), s)
  | .delete blockId =>
      let (ok, s) := s.deleteBlock blockId true true
      (.deleted (ok.getD false), s)

/-- The files of a call. -/
def files (c : BlockCall) : Set FilePath := {path | path ∈ blockPaths c.blockId}

end BlockCall

variable {crc32 : Bytes → UInt32} {s t : BlockStore} {c : BlockCall} {blockId : BlockId} {data : Bytes} {disk : Disk}
  {path : FilePath} {place : Place} {m : BlockMeta}

theorem readBlock_eq (crc32 : Bytes → UInt32) (s : BlockStore) (blockId : BlockId) (offset length : Int)
    (dataOut : Bytes) :
    s.readBlock crc32 blockId offset length dataOut =
      match s.readMeta blockId with
      | none => some (false, dataOut)
      | some m => s.readData crc32 blockId m offset length dataOut := by
  rw [readBlock]
  rfl

theorem find_writeTmp (s : BlockStore) (blockId : BlockId) (data : Bytes) (disk : Disk) (path : FilePath) :
    (s.writeTmp blockId data disk).2.files.find path =
      if disk.tmpOpens = true ∧ path = blockTmpPath blockId then some (taken disk.tmpRoom data)
      else s.files.find path := by
  cases htmp : disk.tmpOpens with
  | false => simp [writeTmp, htmp]
  | true => simp [writeTmp, htmp, SortedMap.find_insert, OFStream.bytes_flush, bytes_write_taken]

theorem find_writeMeta (s : BlockStore) (blockId : BlockId) (m : BlockMeta) (disk : Disk) (path : FilePath) :
    (s.writeMeta blockId m disk).2.files.find path =
      if disk.metaOpens = true ∧ path = blockMetaPath blockId then some (taken disk.metaRoom m.line)
      else s.files.find path := by
  cases hmeta : disk.metaOpens with
  | false => simp [writeMeta, hmeta]
  | true => simp [writeMeta, hmeta, SortedMap.find_insert, bytes_write_taken]

theorem writeTmp_fst (s : BlockStore) (blockId : BlockId) (data : Bytes) (disk : Disk) :
    (s.writeTmp blockId data disk).1 = disk.tmpOpens := by
  cases htmp : disk.tmpOpens <;> simp [writeTmp, htmp]

theorem writeMeta_fst (s : BlockStore) (blockId : BlockId) (m : BlockMeta) (disk : Disk) :
    (s.writeMeta blockId m disk).1 = disk.metaOpens := by
  cases hmeta : disk.metaOpens <;> simp [writeMeta, hmeta]

theorem renameTmp_fst (s : BlockStore) (blockId : BlockId) (disk : Disk) :
    (s.renameTmp blockId disk).1 = (disk.renames && (s.files.find (blockTmpPath blockId)).isSome) := by
  rw [renameTmp]
  cases s.files.find (blockTmpPath blockId) with
  | none => simp
  | some data => cases disk.renames <;> rfl

theorem find_renameTmp (s : BlockStore) (blockId : BlockId) (disk : Disk) (path : FilePath) :
    (s.renameTmp blockId disk).2.files.find path =
      if (s.renameTmp blockId disk).1 = true then
        if path = blockDataPath blockId then s.files.find (blockTmpPath blockId)
        else if path = blockTmpPath blockId then none
        else s.files.find path
      else s.files.find path := by
  rw [renameTmp]
  cases hfile : s.files.find (blockTmpPath blockId) with
  | none => rfl
  | some data =>
      cases disk.renames with
      | false => rfl
      | true => simp only [if_true, SortedMap.find_insert, SortedMap.find_erase]

theorem exists_removeExisting (s : BlockStore) (path : FilePath) :
    ∃ s', s.removeExisting path true = some s' ∧
      ∀ path', s'.files.find path' = if path' = path then none else s.files.find path' := by
  cases hs : s.removeExisting path true with
  | none =>
      rw [removeExisting] at hs
      split at hs <;> cases hs
  | some s' => exact ⟨s', rfl, find_removeExisting hs⟩

namespace BlockCall

theorem returned_halted (crc32 : Bytes → UInt32) (c : BlockCall) (answer : Answer) :
    Halted (c.step crc32) (.returned answer) := by
  intro s
  cases c <;> rfl

/-- Four steps are enough for every call. -/
theorem alone_handle (crc32 : Bytes → UInt32) (c : BlockCall) (s : BlockStore) :
    alone (c.step crc32) 4 (.entered, s) = (.returned (c.handle crc32 s).1, (c.handle crc32 s).2) := by
  simp only [alone_succ, alone_zero]
  cases c with
  | write blockId data disk =>
      rw [handle, writeBlock]
      rcases htmp : s.writeTmp blockId data disk with ⟨_ | _, s₁⟩
      · simp [step, htmp]
      · rcases hmeta : s₁.writeMeta blockId ⟨blockId, data.length, crc32 data, disk.now⟩ disk with ⟨_ | _, s₂⟩
        · simp [step, htmp, hmeta]
        · rcases hrename : s₂.renameTmp blockId disk with ⟨_ | _, s₃⟩
          · simp [step, htmp, hmeta, hrename]
          · simp [step, htmp, hmeta, hrename]
  | read blockId offset length =>
      rw [handle, readBlock_eq]
      cases hmeta : s.readMeta blockId with
      | none => simp [step, hmeta]
      | some m => simp [step, hmeta]
  | delete blockId =>
      obtain ⟨s₁, hdata, -⟩ := exists_removeExisting s (blockDataPath blockId)
      obtain ⟨s₂, hmeta, -⟩ := exists_removeExisting s₁ (blockMetaPath blockId)
      simp [step, handle, deleteBlock, hdata, hmeta]

theorem not_mem_files : path ∉ c.files ↔
    path ≠ blockDataPath c.blockId ∧ path ≠ blockMetaPath c.blockId ∧ path ≠ blockTmpPath c.blockId := by
  simp [files, blockPaths]

theorem frame (crc32 : Bytes → UInt32) (c : BlockCall) (place : Place) (s : BlockStore) (hpath : path ∉ c.files) :
    (c.step crc32 place s).2.files.find path = s.files.find path := by
  obtain ⟨hdata, hmeta, htmp⟩ := not_mem_files.mp hpath
  cases c with
  | write blockId data disk =>
      simp only [BlockCall.blockId] at hdata hmeta htmp
      cases place with
      | entered => exact (find_writeTmp ..).trans (if_neg fun h => htmp h.2)
      | tmpWritten => exact (find_writeMeta ..).trans (if_neg fun h => hmeta h.2)
      | metaWritten =>
          refine (find_renameTmp ..).trans ?_
          rw [if_neg hdata, if_neg htmp, ite_self]
      | undoing => exact (SortedMap.find_erase ..).trans (if_neg htmp)
      | metaRead m | dataRemoved | returned answer => rfl
  | read blockId offset length =>
      cases place with
      | entered =>
          rw [step]
          split <;> rfl
      | tmpWritten | metaWritten | undoing | metaRead m | dataRemoved | returned answer => rfl
  | delete blockId =>
      simp only [BlockCall.blockId] at hdata hmeta
      cases place with
      | entered =>
          obtain ⟨s', hs', hfind⟩ := exists_removeExisting s (blockDataPath blockId)
          rw [step, hs', Option.getD_some, hfind, if_neg hdata]
      | dataRemoved =>
          obtain ⟨s', hs', hfind⟩ := exists_removeExisting s (blockMetaPath blockId)
          rw [step, hs', Option.getD_some, hfind, if_neg hmeta]
      | tmpWritten | metaWritten | undoing | metaRead m | returned answer => rfl

theorem sees (crc32 : Bytes → UInt32) (c : BlockCall) (place : Place)
    (hst : ∀ path ∈ c.files, s.files.find path = t.files.find path) :
    (c.step crc32 place s).1 = (c.step crc32 place t).1 ∧
      ∀ path ∈ c.files, (c.step crc32 place s).2.files.find path = (c.step crc32 place t).2.files.find path := by
  have hdata := hst (blockDataPath c.blockId) (by simp [files, blockPaths])
  have hmeta := hst (blockMetaPath c.blockId) (by simp [files, blockPaths])
  have htmp := hst (blockTmpPath c.blockId) (by simp [files, blockPaths])
  cases c with
  | write blockId data disk =>
      simp only [BlockCall.blockId] at hdata hmeta htmp
      cases place with
      | entered =>
          refine ⟨?_, fun path hpath => ?_⟩
          · simp only [step, writeTmp_fst]
          · simp only [step, find_writeTmp, hst path hpath]
      | tmpWritten =>
          refine ⟨?_, fun path hpath => ?_⟩
          · simp only [step, writeMeta_fst]
          · simp only [step, find_writeMeta, hst path hpath]
      | metaWritten =>
          have hfst : (s.renameTmp blockId disk).1 = (t.renameTmp blockId disk).1 := by
            rw [renameTmp_fst, renameTmp_fst]
            exact congrArg (fun file : Option Bytes => disk.renames && file.isSome) htmp
          refine ⟨?_, fun path hpath => ?_⟩
          · simp only [step, hfst]
          · simp only [step, find_renameTmp, hfst, htmp, hst path hpath]
      | undoing =>
          refine ⟨rfl, fun path hpath => ?_⟩
          simp only [step, remove, SortedMap.find_erase, hst path hpath]
      | metaRead m | dataRemoved | returned answer => exact ⟨rfl, hst⟩
  | read blockId offset length =>
      simp only [BlockCall.blockId] at hdata hmeta
      cases place with
      | entered =>
          have hread : s.readMeta blockId = t.readMeta blockId := congrArg (Option.bind · parseMeta) hmeta
          simp only [step, hread]
          cases t.readMeta blockId <;> exact ⟨rfl, hst⟩
      | metaRead m =>
          refine ⟨?_, hst⟩
          simp only [step, readData, hdata]
      | tmpWritten | metaWritten | undoing | dataRemoved | returned answer => exact ⟨rfl, hst⟩
  | delete blockId =>
      cases place with
      | entered =>
          obtain ⟨s', hs', hfind⟩ := exists_removeExisting s (blockDataPath blockId)
          obtain ⟨t', ht', hfind'⟩ := exists_removeExisting t (blockDataPath blockId)
          refine ⟨rfl, fun path hpath => ?_⟩
          simp only [step, hs', ht', Option.getD_some, hfind, hfind', hst path hpath]
      | dataRemoved =>
          obtain ⟨s', hs', hfind⟩ := exists_removeExisting s (blockMetaPath blockId)
          obtain ⟨t', ht', hfind'⟩ := exists_removeExisting t (blockMetaPath blockId)
          refine ⟨rfl, fun path hpath => ?_⟩
          simp only [step, hs', ht', Option.getD_some, hfind, hfind', hst path hpath]
      | tmpWritten | metaWritten | undoing | metaRead m | returned answer => exact ⟨rfl, hst⟩

/-- A call works on the three files of its block. -/
theorem confined (crc32 : Bytes → UInt32) (c : BlockCall) :
    Confined (fun s path => s.files.find path) (c.step crc32) c.files where
  frame := fun place s _ hpath => c.frame crc32 place s hpath
  sees := fun place _ _ hst => c.sees crc32 place hst

theorem pairwise_disjoint_files {I : Type*} {call : I → BlockCall}
    (hids : Function.Injective fun i => (call i).blockId) :
    Pairwise fun i j => Disjoint (call i).files (call j).files := fun _ _ hij =>
  Set.disjoint_left.mpr fun _ hpath hpath' => disjoint_blockPaths (fun he => hij (hids he)) hpath hpath'

end BlockCall

/-- Calls on different blocks, each in the thread of its connection: every one returns after four steps of its own, and
once all have, the answers and the files are those of the calls made one after the other, in any order. -/
theorem concurrent_serial {I : Type*} [DecidableEq I] (crc32 : Bytes → UInt32) (call : I → BlockCall)
    (hids : Function.Injective fun i => (call i).blockId) (s : BlockStore) (schedule : List I) :
    let c := interleave (fun i => (call i).step crc32) (fun _ => .entered, s) schedule
    (∀ i, 4 ≤ schedule.count i → c.1 i = .returned ((call i).handle crc32 s).1) ∧
      ∀ order : List I, order.Nodup → (∀ i, i ∈ order) → (∀ i, ∃ answer, c.1 i = .returned answer) →
        (∀ i, c.1 i = .returned ((call i).handle crc32 s).1) ∧
          c.2 = order.foldl (fun s i => ((call i).handle crc32 s).2) s := by
  intro c
  have hconfined (i : I) := (call i).confined crc32
  have hdisjoint := BlockCall.pairwise_disjoint_files hids
  have hwhole (i : I) (s : BlockStore) := (call i).alone_handle crc32 s
  refine ⟨fun i hcount => ?_, fun order hnodup hall hdone => ?_⟩
  · have hhalted : Halted ((call i).step crc32) (alone ((call i).step crc32) 4 (.entered, s)).1 := by
      rw [hwhole]
      exact (call i).returned_halted crc32 _
    rw [((interleave_alone hconfined hdisjoint (fun _ => .entered, s) schedule).1 i).1, alone_halted hhalted hcount,
      hwhole]
  · have hhalted : ∀ i, Halted ((call i).step crc32) (c.1 i) := fun i => by
      obtain ⟨answer, hanswer⟩ := hdone i
      rw [hanswer]
      exact (call i).returned_halted crc32 answer
    let big (i : I) (s : BlockStore) : Place × BlockStore :=
      (.returned ((call i).handle crc32 s).1, ((call i).handle crc32 s).2)
    have hbig : ∀ i s, ∃ n, alone ((call i).step crc32) n (.entered, s) = big i s := fun i s => ⟨4, hwhole i s⟩
    obtain ⟨hanswers, hfiles⟩ := serializable hconfined hdisjoint hbig
      (fun i s => (call i).returned_halted crc32 _) hhalted hnodup hall
    exact ⟨hanswers, congrArg BlockStore.mk (SortedMap.ext_find hfiles)⟩

def threeCalls : Fin 3 → BlockCall
  | 0 => .write 1 [1] {}
  | 1 => .write 2 [2] {}
  | 2 => .read 3 0 0

/-- Two writes and a read whose operations alternate. -/
theorem concurrent_serial_three :
    let c := interleave (fun i => (threeCalls i).step fun _ => 7) (fun _ => .entered, ⟨.empty⟩)
      [0, 1, 1, 2, 0, 1, 0, 2, 1, 0, 2, 2]
    c.1 0 = .returned (.wrote true) ∧
      c.2 = [2, 1, 0].foldl (fun s i => ((threeCalls i).handle (fun _ => 7) s).2) ⟨.empty⟩ := by
  intro c
  have hids : ∀ i j, (threeCalls i).blockId = (threeCalls j).blockId → i = j := by decide
  obtain ⟨halone, hserial⟩ := concurrent_serial (fun _ => 7) threeCalls (fun i j => hids i j) ⟨.empty⟩
    [0, 1, 1, 2, 0, 1, 0, 2, 1, 0, 2, 2]
  have hcount : ∀ i : Fin 3, 4 ≤ [0, 1, 1, 2, 0, 1, 0, 2, 1, 0, 2, 2].count i := by decide
  exact ⟨halone 0 (hcount 0),
    (hserial [2, 1, 0] (by decide) (by decide) fun i => ⟨_, halone i (hcount i)⟩).2⟩

end MiniStorage.Datanode
