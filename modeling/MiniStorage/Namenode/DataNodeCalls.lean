import MiniStorage.Datanode.Server
import MiniStorage.Namenode.BlockReplicator

namespace MiniStorage.Namenode

open Datanode

/-- What the connection and the disk at its other end do during one request. -/
structure Trip where
  hop : Hop := .answered
  disk : Disk := {}

/-- `peer` is the DataNode that listens at a host and a port. -/
def Trip.around {N : Type*} (trip : Trip) (peer : Bytes → Int → N) : Around N where
  net := ⟨peer, fun _ => trip.disk, fun _ => trip.hop⟩

section

variable {N : Type*} [DecidableEq N] (crc32 : Bytes → UInt32) (peer : Bytes → Int → N)

/-- The DataNode at an address; nothing where the address cannot be read. -/
def nodeAt (address : DataNodeId) : Option N :=
  match splitAddress address with
  | none => none
  | some (host, portText) => (stoi portText).map (peer host)

/-- ConnectToDN, SendMsg and RecvMsg: the response if one comes back. Returns nothing where stoi throws. -/
def ask (trip : Trip) (address : DataNodeId) (req : DataNodeRequest) (w : World N) : Option (Option Response) × World N :=
  match splitAddress address with
  | none => (some none, w)
  | some (host, portText) =>
      match stoi portText with
      | none => (none, w)
      | some port =>
          match trip.hop with
          | .refused | .lost => (some none, w)
          | .unanswered => (some none, (handleConnection crc32 (trip.around peer) (peer host port) req w).2)
          | .answered =>
              let (resp, w) := handleConnection crc32 (trip.around peer) (peer host port) req w
              (some resp, w)

/-- The whole block, if the request succeeds. -/
def fetchBlock (trip : Trip) (source : DataNodeId) (blockId : BlockId) (w : World N) : Option (Option Bytes) × World N :=
  let (resp, w) := ask crc32 peer trip source { op := .readBlock, requestId := blockId, readBlock := { blockId } } w
  (resp.map fun resp =>
    resp.bind fun resp => if resp.success then some ((resp.readBlock.map ReadBlockResponse.data).getD []) else none, w)

def pushBlock (trip : Trip) (target : DataNodeId) (blockId : BlockId) (data : Bytes) (w : World N) :
    Option Bool × World N :=
  let (resp, w) :=
    ask crc32 peer trip target { op := .writeBlock, requestId := blockId, writeBlock := { blockId, data } } w
  (resp.map fun resp => resp.any (·.success), w)

/-- What a full read of a block at an address gives. -/
def contentAt (w : World N) (address : DataNodeId) (blockId : BlockId) : Option Bytes :=
  (nodeAt peer address).bind fun node =>
    match (w.stores node).readBlock crc32 blockId 0 0 [] with
    | some (true, data) => some data
    | _ => none

/-- The request gets to the DataNode. -/
def Trip.arrives (trip : Trip) : Bool := trip.hop = .unanswered ∨ trip.hop = .answered

variable {crc32 peer} {trip : Trip} {address : DataNodeId} {blockId : BlockId} {data : Bytes} {w : World N}
  {req : DataNodeRequest} {node : N}

omit [DecidableEq N] in
theorem contentAt_eq_some : contentAt crc32 peer w address blockId = some data ↔
    ∃ node, nodeAt peer address = some node ∧ (w.stores node).readBlock crc32 blockId 0 0 [] = some (true, data) := by
  rw [contentAt, Option.bind_eq_some_iff]
  refine exists_congr fun node => and_congr_right fun _ => ?_
  rcases (w.stores node).readBlock crc32 blockId 0 0 [] with _ | ⟨_ | _, got⟩ <;> simp

theorem ask_of_nodeAt (trip : Trip) (req : DataNodeRequest) (w : World N) (h : nodeAt peer address = some node) :
    (ask crc32 peer trip address req w).1 =
        some (if trip.hop = .answered then (handleConnection crc32 (trip.around peer) node req w).1 else none) ∧
      (ask crc32 peer trip address req w).2 =
        if trip.arrives then (handleConnection crc32 (trip.around peer) node req w).2 else w := by
  rw [nodeAt] at h
  split at h
  next => cases h
  next host portText hsplit =>
    obtain ⟨port, hport, rfl⟩ := Option.map_eq_some_iff.mp h
    cases trip with
    | mk hop disk =>
        simp only [ask, hsplit, hport, Trip.arrives]
        cases hop <;> exact ⟨rfl, rfl⟩

theorem ask_of_none (trip : Trip) (req : DataNodeRequest) (w : World N) (h : nodeAt peer address = none) :
    (∀ resp, (ask crc32 peer trip address req w).1 ≠ some (some resp)) ∧ (ask crc32 peer trip address req w).2 = w := by
  rw [nodeAt] at h
  split at h
  next hsplit =>
    rw [ask, hsplit]
    exact ⟨nofun, rfl⟩
  next host portText hsplit =>
    rw [Option.map_eq_none_iff] at h
    simp only [ask, hsplit, h]
    exact ⟨nofun, trivial⟩

theorem handleConnection_read (around : Around N) (node : N) (blockId : BlockId) (w : World N) :
    let req : DataNodeRequest := { op := .readBlock, requestId := blockId, readBlock := { blockId } }
    (handleConnection crc32 around node req w).2 = w ∧
      ((handleConnection crc32 around node req w).1.bind fun resp =>
        if resp.success then some ((resp.readBlock.map ReadBlockResponse.data).getD []) else none) =
      match (w.stores node).readBlock crc32 blockId 0 0 [] with
      | some (true, data) => some data
      | _ => none := by
  intro req
  refine ⟨rfl, ?_⟩
  simp only [req, handleConnection, handleReadBlock]
  rcases (w.stores node).readBlock crc32 blockId 0 0 [] with _ | ⟨_ | _, data⟩ <;> rfl

theorem handleConnection_write (around : Around N) (node : N) (blockId : BlockId) (data : Bytes) (w : World N) :
    let req : DataNodeRequest := { op := .writeBlock, requestId := blockId, writeBlock := { blockId, data } }
    ((handleConnection crc32 around node req w).1.any (·.success) = true ↔ (around.net.disk 0).lets = false) ∧
      (handleConnection crc32 around node req w).2 = (w.writeBlock crc32 around.net 0 node blockId data).2 := by
  intro req
  have hwritten : (w.writeBlock crc32 around.net 0 node blockId data).1 = (around.net.disk 0).lets := writeBlock_fst
  simp only [req, handleConnection, handleWriteBlock, handlerWrite, hwritten]
  cases (around.net.disk 0).lets <;> simp

/-- A read changes nothing, and gets the block where it is answered and the block can be read. -/
theorem fetchBlock_eq (trip : Trip) (address : DataNodeId) (blockId : BlockId) (w : World N) :
    (fetchBlock crc32 peer trip address blockId w).2 = w ∧
      ∀ got, (fetchBlock crc32 peer trip address blockId w).1 = some got →
        got = if trip.hop = .answered then contentAt crc32 peer w address blockId else none := by
  let req : DataNodeRequest := { op := .readBlock, requestId := blockId, readBlock := { blockId } }
  simp only [fetchBlock, contentAt]
  cases hnode : nodeAt peer address with
  | none =>
      obtain ⟨hresp, hworld⟩ := @ask_of_none _ _ crc32 peer address trip req w hnode
      refine ⟨hworld, fun got hgot => ?_⟩
      obtain ⟨resp, hsome, rfl⟩ := Option.map_eq_some_iff.mp hgot
      cases resp with
      | none => simp
      | some resp => exact absurd hsome (hresp resp)
  | some node =>
      obtain ⟨hresp, hworld⟩ := @ask_of_nodeAt _ _ crc32 peer address node trip req w hnode
      obtain ⟨hsame, hread⟩ := @handleConnection_read _ _ crc32 (trip.around peer) node blockId w
      refine ⟨?_, fun got hgot => ?_⟩
      · rw [hworld, hsame, ite_self]
      · rw [hresp, Option.map_some, Option.some.injEq] at hgot
        rw [← hgot]
        split
        next => exact hread
        next => rfl

/-- A write is answered with success exactly where the disk of the node did not let the block through. -/
theorem pushBlock_eq (trip : Trip) (address : DataNodeId) (blockId : BlockId) (data : Bytes) (w : World N) :
    ((pushBlock crc32 peer trip address blockId data w).1 = some true ↔
        trip.hop = .answered ∧ trip.disk.lets = false ∧ nodeAt peer address ≠ none) ∧
      (pushBlock crc32 peer trip address blockId data w).2 =
        match nodeAt peer address with
        | none => w
        | some node => if trip.arrives then (w.writeBlock crc32 (trip.around peer).net 0 node blockId data).2 else w := by
  let req : DataNodeRequest := { op := .writeBlock, requestId := blockId, writeBlock := { blockId, data } }
  simp only [pushBlock]
  cases hnode : nodeAt peer address with
  | none =>
      obtain ⟨hresp, hworld⟩ := @ask_of_none _ _ crc32 peer address trip req w hnode
      refine ⟨?_, hworld⟩
      simp only [ne_eq, not_true_eq_false, and_false, iff_false]
      intro hok
      obtain ⟨resp, hsome, htrue⟩ := Option.map_eq_some_iff.mp hok
      cases resp with
      | none => cases htrue
      | some resp => exact absurd hsome (hresp resp)
  | some node =>
      obtain ⟨hresp, hworld⟩ := @ask_of_nodeAt _ _ crc32 peer address node trip req w hnode
      obtain ⟨hok, hwritten⟩ := @handleConnection_write _ _ crc32 (trip.around peer) node blockId data w
      refine ⟨?_, by rw [hworld, hwritten]⟩
      rw [hresp, Option.map_some, Option.some.injEq]
      by_cases hhop : trip.hop = .answered
      · simp only [hhop, if_true, ne_eq, reduceCtorEq, not_false_eq_true, and_true, true_and]
        exact hok
      · simp [hhop]

end

end MiniStorage.Namenode
