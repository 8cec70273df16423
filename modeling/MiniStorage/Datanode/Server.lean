import MiniStorage.Datanode.Concurrency
import MiniStorage.Datanode.Pipeline
import MiniStorage.Holdings

namespace MiniStorage.Datanode

open Engine Namenode BlockStore

structure WriteBlockRequest where
  blockId : BlockId := 0
  data : Bytes := []
  pipeline : List Bytes := []
deriving DecidableEq, Repr

structure ReadBlockRequest where
  blockId : BlockId := 0
  offset : Int := 0
  length : Int := 0
deriving DecidableEq, Repr

structure DeleteBlockRequest where
  blockId : BlockId := 0
deriving DecidableEq, Repr

/-- The values of the enumeration, and the numbers without a name. -/
inductive OpType
  | writeBlock
  | readBlock
  | deleteBlock
  | other (n : Int)
deriving DecidableEq, Repr

structure DataNodeRequest where
  op : OpType := .writeBlock
  requestId : UInt64 := 0
  writeBlock : WriteBlockRequest := {}
  readBlock : ReadBlockRequest := {}
  deleteBlock : DeleteBlockRequest := {}
deriving DecidableEq, Repr

structure ReadBlockResponse where
  success : Bool := false
  data : Bytes := []
deriving DecidableEq, Repr

/-- The whole response. Its delete_block is never set. -/
structure Response extends DataNodeResponse where
  requestId : UInt64 := 0
  readBlock : Option ReadBlockResponse := none
deriving DecidableEq, Repr

/-- What is around a request: disks and connections, and whether fs::remove of the data and of the .meta file works. -/
structure Around (N : Type*) where
  net : Network N
  dataRemoves : Bool := true
  metaRemoves : Bool := true

section

variable {N : Type*} [DecidableEq N] (crc32 : Bytes → UInt32) (around : Around N)

/-- Returns nothing where a sum overflows. -/
def handleReadBlock (s : BlockStore) (req : ReadBlockRequest) : Option Response :=
  (s.readBlock crc32 req.blockId req.offset req.length []).map fun (ok, data) =>
    if ok then { success := ok, readBlock := some { success := true, data } }
    else { success := ok, errorMessage := text "Block not found or read error" }

/-- Returns nothing where an exception ends the thread. -/
def handleDeleteBlock (s : BlockStore) (req : DeleteBlockRequest) : Option Response × BlockStore :=
  let (ok, s) := s.deleteBlock req.blockId around.dataRemoves around.metaRemoves
  (ok.map fun ok => { success := ok }, s)

/-- HandleConnection at a node between RecvRequest and SendResponse. -/
def handleConnection (node : N) (req : DataNodeRequest) (w : World N) : Option Response × World N :=
  let (resp, w) : Option Response × World N :=
    match req.op with
    | .writeBlock =>
        let wb := req.writeBlock
        let (resp, w) := handleWriteBlock (handlerWrite crc32 around.net wb.blockId wb.data wb.pipeline 0 node w)
        (resp.map fun resp => { toDataNodeResponse := resp }, w)
    | .readBlock => (handleReadBlock crc32 (w.stores node) req.readBlock, w)
    | .deleteBlock =>
        let (resp, store) := handleDeleteBlock around (w.stores node) req.deleteBlock
        (resp, { w with stores := Function.update w.stores node store })
    | .other _ => (some { success := false, errorMessage := text "Unknown op" }, w)
  (resp.map fun resp => { resp with requestId := req.requestId }, w)

end

/-! What the nodes are for: each keeps the bytes of its blocks. -/

/-- The bytes of each block on each node. -/
abbrev Blocks (N : Type*) := Holdings N BlockId Bytes

namespace Blocks

variable {N : Type*} [DecidableEq N]

/-- The part of a block that is asked for, if it starts inside of the block. -/
def part (b : Blocks N) (node : N) (req : ReadBlockRequest) : Option Bytes :=
  (b node req.blockId).bind fun data =>
    if req.offset < 0 ∨ data.length < req.offset then none else some (ranged data req.offset req.length)

/-- A write is answered with a failure, whatever else its pipeline names. -/
def serve (b : Blocks N) (node : N) (req : DataNodeRequest) : Response × Blocks N :=
  match req.op with
  | .writeBlock =>
      let failure : WriteBlockResponse := { errorMessage := text "Failed to write block to disk" }
      ({ requestId := req.requestId, errorMessage := failure.errorMessage, writeBlock := some failure },
        b.set node req.writeBlock.blockId (some req.writeBlock.data))
  | .readBlock =>
      match b.part node req.readBlock with
      | some data => ({ requestId := req.requestId, success := true, readBlock := some { success := true, data } }, b)
      | none => ({ requestId := req.requestId, errorMessage := text "Block not found or read error" }, b)
  | .deleteBlock => ({ requestId := req.requestId, success := true }, b.set node req.deleteBlock.blockId none)
  | .other _ => ({ requestId := req.requestId, errorMessage := text "Unknown op" }, b)

end Blocks

/-- A disk that takes everything. -/
structure Disk.Sound (disk : Disk) : Prop where
  lets : disk.lets = true
  tmpRoom : disk.tmpRoom = none
  metaRoom : disk.metaRoom = none
  now : -2 ^ 63 ≤ disk.now ∧ disk.now < 2 ^ 63

/-- Blocks are shorter than 2^63 bytes, the end of a read is an int64_t, and the disk of the node is sound. -/
structure Serviceable {N : Type*} (around : Around N) (req : DataNodeRequest) : Prop where
  disk : req.op = .writeBlock → (around.net.disk 0).Sound ∧ req.writeBlock.data.length < 2 ^ 63
  read : req.op = .readBlock → req.readBlock.length ≤ 0 ∨ req.readBlock.offset + req.readBlock.length < 2 ^ 63
  removes : req.op = .deleteBlock → around.dataRemoves = true ∧ around.metaRemoves = true

/-- The files of a store are those of its blocks. -/
structure Mirrors (crc32 : Bytes → UInt32) (blocks : BlockId → Option Bytes) (s : BlockStore) : Prop where
  data : ∀ id data, blocks id = some data → s.files.find (blockDataPath id) = some data ∧ data.length < 2 ^ 63 ∧
    ∃ m, s.readMeta id = some m ∧ m.size = data.length ∧ m.crc32 = crc32 data
  absent : ∀ id, blocks id = none → s.readMeta id = none

variable {crc32 : Bytes → UInt32} {blocks : BlockId → Option Bytes} {s : BlockStore} {id : BlockId} {data : Bytes}
  {disk : Disk} {offset length : Int}

namespace Mirrors

theorem empty (crc32 : Bytes → UInt32) : Mirrors crc32 (fun _ => none) ⟨.empty⟩ := ⟨nofun, fun _ _ => rfl⟩

theorem write (h : Mirrors crc32 blocks s) (hdisk : disk.Sound) (hdata : data.length < 2 ^ 63) (id : BlockId) :
    Mirrors crc32 (Function.update blocks id (some data)) (s.writeBlock crc32 id data disk).2 := by
  have hmeta (id' : BlockId) := @readMeta_writeBlock crc32 disk s id data hdisk.lets id'
  refine ⟨fun id' data' hid' => ?_, fun id' hid' => ?_⟩
  · by_cases hsame : id' = id
    · subst hsame
      rw [Function.update_self] at hid'
      obtain rfl := Option.some.inj hid'
      have hfits := BlockMeta.fits_ofData crc32 id' hdata hdisk.now
      obtain ⟨hsome, hdescribes⟩ := parseMeta_taken disk.metaRoom hfits
      rw [hdisk.metaRoom] at hsome hdescribes
      obtain ⟨m, hm⟩ := Option.isSome_iff_exists.mp (hsome.trans rfl)
      refine ⟨?_, hdata, m, ?_, (hdescribes m hm).2⟩
      · rw [find_writeBlock s id' data hdisk.lets, if_pos rfl, hdisk.tmpRoom]
        rfl
      · rw [hmeta, if_pos rfl, hdisk.metaRoom, hm]
    · rw [Function.update_of_ne hsame] at hid'
      obtain ⟨hfile, hlen, hread⟩ := h.data id' data' hid'
      refine ⟨?_, hlen, ?_⟩
      · rw [find_writeBlock s id data hdisk.lets, if_neg (fun he => hsame (blockDataPath_inj he)),
          if_neg (blockDataPath_ne_blockTmpPath _ _), if_neg (blockDataPath_ne_blockMetaPath _ _), hfile]
      · rwa [hmeta, if_neg hsame]
  · by_cases hsame : id' = id
    · rw [hsame, Function.update_self] at hid'
      cases hid'
    · rw [Function.update_of_ne hsame] at hid'
      rw [hmeta, if_neg hsame, h.absent id' hid']

theorem delete (h : Mirrors crc32 blocks s) (id : BlockId) :
    (s.deleteBlock id true true).1 = some true ∧
      Mirrors crc32 (Function.update blocks id none) (s.deleteBlock id true true).2 := by
  have hok : (s.deleteBlock id true true).1 = some true := by
    obtain ⟨s₁, hdata, -⟩ := exists_removeExisting s (blockDataPath id)
    obtain ⟨s₂, hmeta, -⟩ := exists_removeExisting s₁ (blockMetaPath id)
    simp [deleteBlock, hdata, hmeta]
  have hfind := find_deleteBlock hok
  have hother {id' : BlockId} (hne : id' ≠ id) :
      (s.deleteBlock id true true).2.readMeta id' = s.readMeta id' := by
    rw [readMeta, hfind, if_neg (not_or.mpr ⟨fun he => hne (blockMetaPath_inj he),
      (blockDataPath_ne_blockMetaPath _ _).symm⟩)]
    rfl
  refine ⟨hok, fun id' data' hid' => ?_, fun id' hid' => ?_⟩
  · by_cases hsame : id' = id
    · rw [hsame, Function.update_self] at hid'
      cases hid'
    · rw [Function.update_of_ne hsame] at hid'
      obtain ⟨hfile, hlen, hread⟩ := h.data id' data' hid'
      refine ⟨?_, hlen, by rwa [hother hsame]⟩
      rw [hfind, if_neg (not_or.mpr ⟨blockDataPath_ne_blockMetaPath _ _, fun he => hsame (blockDataPath_inj he)⟩),
        hfile]
  · by_cases hsame : id' = id
    · rw [hsame, readMeta, hfind, if_pos (.inl rfl)]
      rfl
    · rw [Function.update_of_ne hsame] at hid'
      rw [hother hsame, h.absent id' hid']

/-- A read returns the part that is asked for, or fails where there is none. -/
theorem read (h : Mirrors crc32 blocks s) (id : BlockId) (hend : length ≤ 0 ∨ offset + length < 2 ^ 63) :
    ∃ ok got, s.readBlock crc32 id offset length [] = some (ok, got) ∧
      (blocks id).bind (fun data =>
        if offset < 0 ∨ data.length < offset then none else some (ranged data offset length)) =
        if ok then some got else none := by
  cases hid : blocks id with
  | none => exact ⟨false, [], by rw [readBlock, h.absent id hid], rfl⟩
  | some data =>
      obtain ⟨hfile, hlen, m, hmeta, hsize, hcrc⟩ := h.data id data hid
      rw [Option.bind_some]
      by_cases hout : offset < 0 ∨ data.length < offset
      · refine ⟨false, [], ?_, by rw [if_pos hout]; rfl⟩
        rw [← hsize] at hout
        simp only [readBlock, hmeta, hfile]
        rw [if_pos hout]
      · have hin : 0 ≤ offset ∧ offset ≤ data.length := by omega
        have hrange : (rangeEnd data.length offset length).toNat ≤ data.length := by
          have hle := (rangeEnd_le length hin).1
          omega
        have hreads : ReadsRange data offset length [] (s.readBlock crc32 id offset length []) :=
          (readsRange_inside hmeta hfile hsize hcrc (List.prefix_refl data) hlen hin).mpr ⟨hend, .inr hrange⟩
        obtain ⟨ok, got, hread, hok, hgot, -⟩ := hreads
        cases ok with
        | false => exact absurd (hok.mp rfl) hout
        | true => exact ⟨true, got, hread, by rw [if_neg hout, hgot rfl]; rfl⟩

end Mirrors

variable {N : Type*} [DecidableEq N] {around : Around N} {node : N} {req : DataNodeRequest} {w : World N} {b : Blocks N}

theorem forall_mirrors_update (h : ∀ n, Mirrors crc32 (b n) (w.stores n)) {store : BlockStore} {bytes : Option Bytes}
    (hnode : Mirrors crc32 (Function.update (b node) id bytes) store) (n : N) :
    Mirrors crc32 (b.set node id bytes n) (Function.update w.stores node store n) := by
  by_cases hn : n = node
  · subst hn
    rw [Holdings.set, Function.update_self, Function.update_self]
    exact hnode
  · rw [Holdings.set, Function.update_of_ne hn, Function.update_of_ne hn]
    exact h n

/-- A node that stores the block hands it on to nobody. -/
theorem stores_handlerWrite {net : Network N} {pipeline : List Bytes} {k : Nat} (h : (net.disk k).lets = true) :
    (handlerWrite crc32 net id data pipeline k node w).2.stores =
      Function.update w.stores node ((w.stores node).writeBlock crc32 id data (net.disk k)).2 := by
  have hok : (w.writeBlock crc32 net k node id data).1 = true := writeBlock_fst.trans h
  cases pipeline <;> simp only [handlerWrite, hok, if_true] <;> rfl

/-- One request. -/
theorem handleConnection_serve (h : ∀ n, Mirrors crc32 (b n) (w.stores n)) (hreq : Serviceable around req) (node : N) :
    (handleConnection crc32 around node req w).1 = some (b.serve node req).1 ∧
      ∀ n, Mirrors crc32 ((b.serve node req).2 n) ((handleConnection crc32 around node req w).2.stores n) := by
  rw [handleConnection, Blocks.serve]
  cases hop : req.op with
  | writeBlock =>
      obtain ⟨hdisk, hdata⟩ := hreq.disk hop
      have hfail : (handlerWrite crc32 around.net req.writeBlock.blockId req.writeBlock.data req.writeBlock.pipeline 0
          node w).1 = some { errorMessage := text "Failed to write block to disk" } :=
            (handlerWrite_of_lets hdisk.lets).1
      simp only [handleWriteBlock, hfail, stores_handlerWrite hdisk.lets, Option.map_some]
      exact ⟨trivial, forall_mirrors_update h ((h node).write hdisk hdata req.writeBlock.blockId)⟩
  | readBlock =>
      obtain ⟨ok, got, hread, hpart⟩ := (h node).read req.readBlock.blockId (hreq.read hop)
      simp only [handleReadBlock, hread, Option.map_some, Blocks.part, hpart]
      cases ok with
      | false => exact ⟨rfl, h⟩
      | true => exact ⟨rfl, h⟩
  | deleteBlock =>
      obtain ⟨hdata, hmeta⟩ := hreq.removes hop
      obtain ⟨hok, hmirrors⟩ := (h node).delete req.deleteBlock.blockId
      simp only [handleDeleteBlock, hdata, hmeta, hok, Option.map_some]
      exact ⟨trivial, forall_mirrors_update h hmirrors⟩
  | other n => exact ⟨rfl, h⟩

/-- Requests one after the other, each to a node, with the responses. -/
def handleAll (crc32 : Bytes → UInt32) :
    World N → List (N × DataNodeRequest × Around N) → List (Option Response) × World N
  | w, [] => ([], w)
  | w, (node, req, around) :: reqs =>
      let (resp, w) := handleConnection crc32 around node req w
      let (resps, w) := handleAll crc32 w reqs
      (resp :: resps, w)

def Blocks.serveAll : Blocks N → List (N × DataNodeRequest) → List Response × Blocks N
  | b, [] => ([], b)
  | b, (node, req) :: reqs =>
      let (resp, b) := b.serve node req
      let (resps, b) := b.serveAll reqs
      (resp :: resps, b)

theorem handleAll_serveAll (h : ∀ n, Mirrors crc32 (b n) (w.stores n)) {reqs : List (N × DataNodeRequest × Around N)}
    (hreqs : ∀ r ∈ reqs, Serviceable r.2.2 r.2.1) :
    (handleAll crc32 w reqs).1 = (b.serveAll (reqs.map fun r => (r.1, r.2.1))).1.map some ∧
      ∀ n, Mirrors crc32 ((b.serveAll (reqs.map fun r => (r.1, r.2.1))).2 n) ((handleAll crc32 w reqs).2.stores n) := by
  induction reqs generalizing b w with
  | nil => exact ⟨rfl, h⟩
  | cons r reqs ih =>
      obtain ⟨hr, hrest⟩ := List.forall_mem_cons.mp hreqs
      obtain ⟨node, req, around⟩ := r
      obtain ⟨hresp, hnext⟩ := handleConnection_serve h hr node
      obtain ⟨hresps, hlast⟩ := ih hnext hrest
      refine ⟨?_, hlast⟩
      simp only [handleAll, Blocks.serveAll, List.map_cons, hresp, hresps]

end MiniStorage.Datanode
