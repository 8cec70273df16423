import MiniStorage.Namenode.Types

namespace MiniStorage.Namenode

/-- The two tables of a NameNode. The hash tables of the source are maps here, and every
pass over one of them takes the order in which it goes. -/
@[ext] structure MetadataStore where
  files : SortedMap FilePath FileInfo := .empty
  blocks : SortedMap BlockId BlockInfo := .empty

namespace MetadataStore

/-- `now` is what NowMs returns. -/
def createFile (m : MetadataStore) (path : FilePath) (now : Int) : Bool × MetadataStore :=
  if (m.files.find path).isSome then (false, m)
  else (true, { m with files := m.files.insert path { path := path, createTime := now, modifyTime := now } })

def getFile (m : MetadataStore) (path : FilePath) : Option FileInfo := m.files.find path

def updateFile (m : MetadataStore) (path : FilePath) (info : FileInfo) (now : Int) : Bool × MetadataStore :=
  if (m.files.find path).isNone then (false, m)
  else (true, { m with files := m.files.insert path { info with modifyTime := now } })

def deleteFile (m : MetadataStore) (path : FilePath) : Bool × MetadataStore :=
  ((m.files.find path).isSome, { m with files := m.files.erase path })

def listFiles (it : Iteration) (m : MetadataStore) (dirPrefix : Bytes) : List FileInfo :=
  ((it.run m.files.entries).filter fun p => dirPrefix.isPrefixOf p.1).map Prod.snd

def addBlock (m : MetadataStore) (block : BlockInfo) : MetadataStore :=
  { m with blocks := m.blocks.insert block.blockId block }

def getBlock (m : MetadataStore) (blockId : BlockId) : Option BlockInfo := m.blocks.find blockId

def updateBlock (m : MetadataStore) (block : BlockInfo) : Bool × MetadataStore :=
  if (m.blocks.find block.blockId).isNone then (false, m)
  else (true, { m with blocks := m.blocks.insert block.blockId block })

def deleteBlock (m : MetadataStore) (blockId : BlockId) : Bool × MetadataStore :=
  ((m.blocks.find blockId).isSome, { m with blocks := m.blocks.erase blockId })

/-- A block that is not known yet gets an entry. -/
def updateBlockLocation (m : MetadataStore) (blockId : BlockId) (dnId : DataNodeId) : MetadataStore :=
  let block := { (m.blocks.find blockId).getD {} with blockId := blockId }
  let block := if dnId ∈ block.locations then block else { block with locations := block.locations ++ [dnId] }
  { m with blocks := m.blocks.insert blockId block }

/-- Some file lists the block. -/
def Lists (s : MetadataStore) (b : BlockId) : Prop := ∃ p f, s.files.find p = some f ∧ b ∈ f.blocks

variable (m : MetadataStore)

/-! Each call writes one table only, at one key. -/

@[simp] theorem blocks_createFile (path : FilePath) (now : Int) : (m.createFile path now).2.blocks = m.blocks := by
  rw [createFile]
  split <;> rfl

@[simp] theorem blocks_updateFile (path : FilePath) (info : FileInfo) (now : Int) :
    (m.updateFile path info now).2.blocks = m.blocks := by
  rw [updateFile]
  split <;> rfl

@[simp] theorem blocks_deleteFile (path : FilePath) : (m.deleteFile path).2.blocks = m.blocks := rfl

@[simp] theorem files_addBlock (block : BlockInfo) : (m.addBlock block).files = m.files := rfl

@[simp] theorem files_updateBlock (block : BlockInfo) : (m.updateBlock block).2.files = m.files := by
  rw [updateBlock]
  split <;> rfl

@[simp] theorem files_deleteBlock (blockId : BlockId) : (m.deleteBlock blockId).2.files = m.files := rfl

@[simp] theorem files_updateBlockLocation (blockId : BlockId) (dnId : DataNodeId) :
    (m.updateBlockLocation blockId dnId).files = m.files := rfl

theorem find_createFile (path p : FilePath) (now : Int) :
    (m.createFile path now).2.files.find p =
      if p = path ∧ m.files.find path = none then some { path := path, createTime := now, modifyTime := now }
      else m.files.find p := by
  rw [createFile]
  cases h : m.files.find path with
  | some f => simp
  | none => simp [SortedMap.find_insert]

theorem find_updateFile (path p : FilePath) (info : FileInfo) (now : Int) :
    (m.updateFile path info now).2.files.find p =
      if p = path ∧ m.files.find path ≠ none then some { info with modifyTime := now } else m.files.find p := by
  rw [updateFile]
  cases h : m.files.find path with
  | some f => simp [SortedMap.find_insert]
  | none => simp

theorem find_deleteFile (path p : FilePath) :
    (m.deleteFile path).2.files.find p = if p = path then none else m.files.find p := SortedMap.find_erase ..

theorem find_addBlock (block : BlockInfo) (b : BlockId) :
    (m.addBlock block).blocks.find b = if b = block.blockId then some block else m.blocks.find b :=
  SortedMap.find_insert ..

theorem find_deleteBlock (blockId b : BlockId) :
    (m.deleteBlock blockId).2.blocks.find b = if b = blockId then none else m.blocks.find b := SortedMap.find_erase ..

theorem find_updateBlock (block : BlockInfo) (b : BlockId) :
    (m.updateBlock block).2.blocks.find b =
      if b = block.blockId ∧ m.blocks.find block.blockId ≠ none then some block else m.blocks.find b := by
  rw [updateBlock]
  cases h : m.blocks.find block.blockId with
  | some f => simp [SortedMap.find_insert]
  | none => simp

theorem find_updateBlockLocation (blockId b : BlockId) (dnId : DataNodeId) :
    ∃ locations, (m.updateBlockLocation blockId dnId).blocks.find b =
      if b = blockId then some ⟨blockId, ((m.blocks.find blockId).getD {}).size, locations⟩ else m.blocks.find b := by
  by_cases hin : dnId ∈ ((m.blocks.find blockId).getD {}).locations
  · exact ⟨_, by rw [updateBlockLocation, SortedMap.find_insert, if_pos hin]⟩
  · exact ⟨_, by rw [updateBlockLocation, SortedMap.find_insert, if_neg hin]⟩

theorem mem_listFiles {it : Iteration} {f : FileInfo} :
    f ∈ m.listFiles it [] ↔ ∃ path, m.files.find path = some f := by
  rw [listFiles, List.mem_map]
  constructor
  · rintro ⟨⟨path, g⟩, hp, rfl⟩
    exact ⟨path, SortedMap.find_eq_some.mpr (it.mem_run.mp (List.mem_filter.mp hp).1)⟩
  · rintro ⟨path, hf⟩
    exact ⟨(path, f), List.mem_filter.mpr ⟨it.mem_run.mpr (SortedMap.find_eq_some.mp hf), rfl⟩, rfl⟩

/-- Each entry carries the key it is stored under, which the calls rely on and keep. -/
structure Keyed (m : MetadataStore) : Prop where
  files : ∀ p f, m.files.find p = some f → f.path = p
  blocks : ∀ b info, m.blocks.find b = some info → info.blockId = b

variable {m}

theorem keyed_empty : Keyed {} := by
  constructor
  · intro p f h
    cases h
  · intro b info h
    cases h

theorem Keyed.nodup_listFiles (h : m.Keyed) (it : Iteration) (dirPrefix : Bytes) :
    ((m.listFiles it dirPrefix).map FileInfo.path).Nodup := by
  have hkeys : ((it.run m.files.entries).map Prod.fst).Nodup :=
    ((it.perm _).map Prod.fst).nodup_iff.mpr m.files.nodup_keys
  have hpath : ∀ p ∈ (it.run m.files.entries).filter (fun p => dirPrefix.isPrefixOf p.1),
      (FileInfo.path ∘ Prod.snd) p = p.1 := by
    intro p hp
    exact h.files p.1 p.2 (SortedMap.find_eq_some.mpr (it.mem_run.mp (List.mem_filter.mp hp).1))
  rw [listFiles, List.map_map, List.map_congr_left hpath]
  exact hkeys.sublist (List.filter_sublist.map Prod.fst)

theorem Keyed.createFile (h : m.Keyed) (path : FilePath) (now : Int) : (m.createFile path now).2.Keyed := by
  constructor
  · intro p f hf
    rw [find_createFile] at hf
    split at hf
    next hp =>
      cases hf
      exact hp.1.symm
    next => exact h.files p f hf
  · intro b info hb
    rw [blocks_createFile] at hb
    exact h.blocks b info hb

theorem Keyed.updateFile (h : m.Keyed) {path : FilePath} {info : FileInfo} (hi : info.path = path) (now : Int) :
    (m.updateFile path info now).2.Keyed := by
  constructor
  · intro p f hf
    rw [find_updateFile] at hf
    split at hf
    next hp =>
      cases hf
      exact hi.trans hp.1.symm
    next => exact h.files p f hf
  · intro b block hb
    rw [blocks_updateFile] at hb
    exact h.blocks b block hb

theorem Keyed.deleteFile (h : m.Keyed) (path : FilePath) : (m.deleteFile path).2.Keyed := by
  constructor
  · intro p f hf
    rw [find_deleteFile] at hf
    split at hf
    · cases hf
    · exact h.files p f hf
  · exact h.blocks

theorem Keyed.addBlock (h : m.Keyed) (block : BlockInfo) : (m.addBlock block).Keyed := by
  constructor
  · exact h.files
  · intro b info hb
    rw [find_addBlock] at hb
    split at hb
    next he =>
      cases hb
      exact he.symm
    next => exact h.blocks b info hb

theorem Keyed.deleteBlock (h : m.Keyed) (blockId : BlockId) : (m.deleteBlock blockId).2.Keyed := by
  constructor
  · exact h.files
  · intro b info hb
    rw [find_deleteBlock] at hb
    split at hb
    · cases hb
    · exact h.blocks b info hb

theorem Keyed.updateBlock (h : m.Keyed) (block : BlockInfo) : (m.updateBlock block).2.Keyed := by
  constructor
  · rw [files_updateBlock]
    exact h.files
  · intro b info hb
    rw [find_updateBlock] at hb
    split at hb
    next he =>
      cases hb
      exact he.1.symm
    next => exact h.blocks b info hb

theorem Keyed.updateBlockLocation (h : m.Keyed) (blockId : BlockId) (dnId : DataNodeId) :
    (m.updateBlockLocation blockId dnId).Keyed := by
  constructor
  · exact h.files
  · intro b info hb
    obtain ⟨locations, hl⟩ := m.find_updateBlockLocation blockId b dnId
    rw [hl] at hb
    split at hb
    next he =>
      cases hb
      exact he.symm
    next => exact h.blocks b info hb

end MetadataStore

end MiniStorage.Namenode
