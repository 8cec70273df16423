import MiniStorage.Namenode.DataNodeCalls

namespace MiniStorage.Namenode

open Datanode BlockStore FirstVisits

structure BlockCheckResult where
  blockId : BlockId
  datanodeId : DataNodeId
  reachable : Bool := false
  crcOk : Bool := false
  actualCrc : UInt32 := 0
  actualSize : Int := 0
  error : Bytes := []
deriving DecidableEq, Repr

/-- What ScanAllBlocks keeps of the results. -/
def isBad (r : BlockCheckResult) : Bool := !r.crcOk || !r.reachable

/-- What happens to the request for a replica, and what ComputeCRC32 makes of the block. It reads so many bytes of the
string object and of what lies behind it in memory, not those of the string; nothing where the process dies of that. -/
structure Probe where
  trip : Trip := {}
  computeCRC32 : Bytes → Option UInt32

abbrev Probes := BlockId → DataNodeId → Probe

namespace MetadataStore

section

variable {N : Type*} [DecidableEq N] (crc32 : Bytes → UInt32) (peer : Bytes → Int → N) (w : World N) (probes : Probes)
  (m : MetadataStore) (dn : DataNodeManager)

/-- With the request of FetchBlock, which leaves the DataNodes as they are. Returns nothing where the process dies. -/
def fetchAndVerify (dnId : DataNodeId) (blockId : BlockId) : Option (Option (Bytes × UInt32)) :=
  match (fetchBlock crc32 peer (probes blockId dnId).trip dnId blockId w).1 with
  | none => none
  | some none => some none
  | some (some data) => ((probes blockId dnId).computeCRC32 data).map fun crc => some (data, crc)

def checkBlockOnDN (blockId : BlockId) (dnId : DataNodeId) : Option BlockCheckResult :=
  match fetchAndVerify crc32 peer w probes dnId blockId with
  | none => none
  | some none => some { blockId, datanodeId := dnId, error := text "Cannot fetch block from " ++ dnId }
  | some (some (data, crc)) =>
      let result : BlockCheckResult :=
        { blockId, datanodeId := dnId, reachable := true, actualCrc := crc, actualSize := data.length }
      match m.getBlock blockId with
      | some block =>
          if 0 < block.size then
            if block.size = result.actualSize then some { result with crcOk := true }
            else some { result with
              error := text "Size mismatch: expected=" ++ showInt block.size ++ text " actual=" ++
                showInt result.actualSize }
          else some { result with crcOk := decide (0 < result.actualSize) }
      | none => some { result with crcOk := decide (0 < result.actualSize) }

/-- One turn of the loop over the locations of a block. -/
def checkReplica (it : Iteration) (blockId : BlockId) (dnId : DataNodeId) : Option BlockCheckResult :=
  if dnId ∉ dn.aliveSet it then some { blockId, datanodeId := dnId, error := text "DataNode is dead" }
  else m.checkBlockOnDN crc32 peer w probes blockId dnId

def checkBlockAllReplicas (it : Iteration) (blockId : BlockId) : Option (List BlockCheckResult) :=
  match m.getBlock blockId with
  | none => some []
  | some block => block.locations.mapM (m.checkReplica crc32 peer w probes dn it blockId)

/-- One turn of the loop over the blocks. -/
def scanReplicas (it : Iteration) (bad : Option (List BlockCheckResult)) (bid : BlockId) :
    Option (List BlockCheckResult) :=
  match bad, m.checkBlockAllReplicas crc32 peer w probes dn it bid with
  | some bad, some results => some (bad ++ results.filter isBad)
  | _, _ => none

/-- `its bid` is the pass over the DataNodes for the block and `files` the one over the files. -/
def scanAllBlocks (its : BlockId → Iteration) (files : Iteration) : Option (List BlockCheckResult) :=
  forBlocks (m.listFiles files []) (fun bad bid => m.scanReplicas crc32 peer w probes dn (its bid) bad bid) (some [])

end

variable {N : Type*} [DecidableEq N] {crc32 : Bytes → UInt32} {peer : Bytes → Int → N} {w : World N} {probes : Probes}
  {m : MetadataStore} {dn : DataNodeManager} {it : Iteration} {blockId b : BlockId} {dnId d : DataNodeId}
  {its : BlockId → Iteration} {files : Iteration} {r : BlockCheckResult} {results bad : List BlockCheckResult}

/-- The size the metadata has of a block, where it has one. -/
def expectedSize (m : MetadataStore) (blockId : BlockId) : Int := ((m.getBlock blockId).map BlockInfo.size).getD 0

/-- A block of so many bytes passes. -/
def SizeOk (m : MetadataStore) (blockId : BlockId) (n : Nat) : Prop :=
  0 < n ∧ (m.expectedSize blockId ≤ 0 ∨ m.expectedSize blockId = n)

/-- The files of a block hold all of it, with its checksum and of the size that is expected. -/
def Intact (crc32 : Bytes → UInt32) (s : BlockStore) (expected : Int) (blockId : BlockId) : Prop :=
  ∃ got bytes, s.readMeta blockId = some got ∧ s.files.find (blockDataPath blockId) = some bytes ∧
    0 < got.size ∧ got.size ≤ bytes.length ∧ crc32 (bytes.take got.size.toNat) = got.crc32 ∧
      (expected ≤ 0 ∨ expected = got.size)

/-- The DataNode is ALIVE, answers, and has the block intact. -/
def Passes (crc32 : Bytes → UInt32) (peer : Bytes → Int → N) (w : World N) (probes : Probes) (m : MetadataStore)
    (dn : DataNodeManager) (blockId : BlockId) (dnId : DataNodeId) : Prop :=
  dnId ∈ dn.aliveSet .sorted ∧ (probes blockId dnId).trip.hop = .answered ∧
    ∃ node, nodeAt peer dnId = some node ∧ Intact crc32 (w.stores node) (m.expectedSize blockId) blockId

theorem fetchAndVerify_eq {got : Option (Bytes × UInt32)}
    (h : fetchAndVerify crc32 peer w probes dnId blockId = some got) :
    got.map Prod.fst =
      if (probes blockId dnId).trip.hop = .answered then contentAt crc32 peer w dnId blockId else none := by
  have hfetch := (@fetchBlock_eq _ _ crc32 peer (probes blockId dnId).trip dnId blockId w).2
  rw [fetchAndVerify] at h
  split at h
  next => cases h
  next hgot =>
    cases h
    exact hfetch none hgot
  next data hgot =>
    obtain ⟨crc, -, rfl⟩ := Option.map_eq_some_iff.mp h
    exact hfetch (some data) hgot

theorem checkBlockOnDN_eq (h : m.checkBlockOnDN crc32 peer w probes blockId dnId = some r) :
    r.blockId = blockId ∧ r.datanodeId = dnId ∧
      (isBad r = false ↔ (probes blockId dnId).trip.hop = .answered ∧
        ∃ data, contentAt crc32 peer w dnId blockId = some data ∧ m.SizeOk blockId data.length) := by
  have hiff (data : Option Bytes) (hdata : data = if (probes blockId dnId).trip.hop = .answered then
      contentAt crc32 peer w dnId blockId else none) :
      ((probes blockId dnId).trip.hop = .answered ∧
        ∃ data, contentAt crc32 peer w dnId blockId = some data ∧ m.SizeOk blockId data.length) ↔
      ∃ got, data = some got ∧ m.SizeOk blockId got.length := by
    rw [hdata]
    split
    next hans => simp only [hans, true_and]
    next hans => simp [hans]
  rw [checkBlockOnDN] at h
  split at h
  next => cases h
  next hfetch =>
    rw [hiff none (fetchAndVerify_eq hfetch)]
    cases h
    exact ⟨rfl, rfl, by simp [isBad]⟩
  next data crc hfetch =>
    rw [hiff (some data) (fetchAndVerify_eq hfetch)]
    simp only [Option.some.injEq, exists_eq_left', SizeOk, expectedSize]
    split at h
    next block hblock =>
      simp only [hblock, Option.map_some, Option.getD_some]
      dsimp only at h
      split at h
      next hpos =>
        split at h
        next hsame =>
          cases h
          exact ⟨rfl, rfl, by simp [isBad]; omega⟩
        next hother =>
          cases h
          exact ⟨rfl, rfl, by simp [isBad]; omega⟩
      next hpos =>
        cases h
        exact ⟨rfl, rfl, by simp [isBad]; omega⟩
    next hblock =>
      simp only [hblock, Option.map_none, Option.getD_none]
      cases h
      exact ⟨rfl, rfl, by simp [isBad]⟩

omit [DecidableEq N] in
theorem exists_contentAt :
    (∃ data, contentAt crc32 peer w dnId blockId = some data ∧ m.SizeOk blockId data.length) ↔
      ∃ node, nodeAt peer dnId = some node ∧ Intact crc32 (w.stores node) (m.expectedSize blockId) blockId := by
  simp only [contentAt_eq_some]
  constructor
  · rintro ⟨data, ⟨node, hnode, hread⟩, hpos, hsize⟩
    refine ⟨node, hnode, ?_⟩
    cases hmeta : (w.stores node).readMeta blockId with
    | none =>
        rw [readBlock, hmeta] at hread
        cases hread
    | some got =>
        cases hfile : (w.stores node).files.find (blockDataPath blockId) with
        | none =>
            simp only [readBlock, hmeta, hfile] at hread
            cases hread
        | some bytes =>
            obtain ⟨hnonneg, hle, rfl, hsum⟩ := (readBlock_whole hmeta hfile).mp hread
            rw [List.length_take] at hpos hsize
            exact ⟨got, bytes, hmeta, hfile, by omega, hle, hsum.resolve_left (by omega), by omega⟩
  · rintro ⟨node, hnode, got, bytes, hmeta, hfile, hpos, hle, hsum, hsize⟩
    refine ⟨bytes.take got.size.toNat,
      ⟨node, hnode, (readBlock_whole hmeta hfile).mpr ⟨by omega, hle, rfl, .inr hsum⟩⟩, ?_⟩
    rw [SizeOk, List.length_take]
    omega

theorem checkReplica_eq (h : m.checkReplica crc32 peer w probes dn it blockId dnId = some r) :
    r.blockId = blockId ∧ r.datanodeId = dnId ∧ (isBad r = false ↔ Passes crc32 peer w probes m dn blockId dnId) := by
  simp only [checkReplica, @DataNodeManager.mem_aliveSet it] at h
  split at h
  next hdead =>
    cases h
    exact ⟨rfl, rfl, by simp [isBad, Passes, hdead]⟩
  next halive =>
    obtain ⟨hblock, hnode, hbad⟩ := checkBlockOnDN_eq h
    exact ⟨hblock, hnode, hbad.trans (by rw [Passes, and_iff_right (not_not.mp halive), exists_contentAt])⟩

/-- Which replica a result is about. -/
def replicaOf (r : BlockCheckResult) : BlockId × DataNodeId := (r.blockId, r.datanodeId)

open Classical in
/-- The replicas of a block that do not pass, in the order of its locations. -/
noncomputable def failing (crc32 : Bytes → UInt32) (peer : Bytes → Int → N) (w : World N) (probes : Probes)
    (m : MetadataStore) (dn : DataNodeManager) (blockId : BlockId) : List (BlockId × DataNodeId) :=
  ((m.getBlockLocations blockId).filter fun dnId => ¬ Passes crc32 peer w probes m dn blockId dnId).map (blockId, ·)

theorem checkBlockAllReplicas_eq (h : m.checkBlockAllReplicas crc32 peer w probes dn it blockId = some results) :
    (results.filter isBad).map replicaOf = failing crc32 peer w probes m dn blockId := by
  rw [checkBlockAllReplicas] at h
  rw [failing]
  split at h
  next hblock =>
    cases h
    have hnone : m.getBlockLocations blockId = [] := by
      rw [getBlock] at hblock
      rw [getBlockLocations, hblock]
      rfl
    rw [hnone]
    rfl
  next block hblock =>
    rw [getBlockLocations_of_some hblock]
    generalize block.locations = locations at h
    induction locations generalizing results with
    | nil =>
        cases h
        rfl
    | cons dnId locations ih =>
        simp only [List.mapM_cons, Option.bind_eq_bind, Option.bind_eq_some_iff] at h
        obtain ⟨r, hr, rest, hrest, hresults⟩ := h
        obtain rfl := Option.some.inj hresults
        obtain ⟨hb, hd, hbad⟩ := checkReplica_eq hr
        by_cases hpass : Passes crc32 peer w probes m dn blockId dnId
        · rw [List.filter_cons_of_neg (by rw [hbad.mpr hpass]; exact Bool.false_ne_true),
            List.filter_cons_of_neg (by simpa using hpass), ih hrest]
        · have htrue : isBad r = true := by
            rw [← Bool.not_eq_false]
            exact fun hgood => hpass (hbad.mp hgood)
          rw [List.filter_cons_of_pos htrue, List.filter_cons_of_pos (by simpa using hpass), List.map_cons,
            List.map_cons,
            ih hrest, replicaOf, hb, hd]

theorem scanReplicas_some (start : List BlockCheckResult) (bid : BlockId) :
    m.scanReplicas crc32 peer w probes dn it (some start) bid =
      (m.checkBlockAllReplicas crc32 peer w probes dn it bid).map fun results => start ++ results.filter isBad := by
  cases hcheck : m.checkBlockAllReplicas crc32 peer w probes dn it bid with
  | none => simp only [scanReplicas, hcheck, Option.map_none]
  | some results => simp only [scanReplicas, hcheck, Option.map_some]

theorem foldl_scanReplicas_none (bids : List BlockId) :
    bids.foldl (fun bad bid => m.scanReplicas crc32 peer w probes dn (its bid) bad bid) none = none := by
  induction bids with
  | nil => rfl
  | cons bid bids ih => exact ih

theorem foldl_scanReplicas {bids : List BlockId} {start : List BlockCheckResult}
    (h : bids.foldl (fun bad bid => m.scanReplicas crc32 peer w probes dn (its bid) bad bid) (some start) = some bad) :
    bad.map replicaOf = start.map replicaOf ++ bids.flatMap (failing crc32 peer w probes m dn) := by
  induction bids generalizing start with
  | nil =>
      cases h
      exact (List.append_nil _).symm
  | cons bid bids ih =>
      rw [List.foldl_cons, scanReplicas_some] at h
      cases hcheck : m.checkBlockAllReplicas crc32 peer w probes dn (its bid) bid with
      | none =>
          rw [hcheck, Option.map_none, foldl_scanReplicas_none] at h
          cases h
      | some results =>
          rw [hcheck, Option.map_some] at h
          rw [ih h, List.map_append, checkBlockAllReplicas_eq hcheck, List.flatMap_cons, List.append_assoc]

/-- A scan that gets to its end reports the replicas that do not pass, each replica that the metadata lists once. -/
theorem scan_reports (h : m.scanAllBlocks crc32 peer w probes dn its files = some bad) :
    bad.map replicaOf = (m.visited files).flatMap (failing crc32 peer w probes m dn) := by
  rw [scanAllBlocks, forBlocks_eq] at h
  exact foldl_scanReplicas h

/-- A file with one block of three bytes at two DataNodes, of which the second was sent two bytes. -/
def atTwoPorts : MetadataStore where
  files := SortedMap.empty.insert (text "/f") { path := text "/f", blocks := [1] }
  blocks := SortedMap.empty.insert 1 { blockId := 1, size := 3, locations := [text "a:1", text "a:2"] }

def nodesTwoPorts : DataNodeManager :=
  (DataNodeManager.registerDataNode {} { id := text "a:1" } 0).registerDataNode { id := text "a:2" } 0

def writesTwoPorts : List (Int × DataNodeRequest × Around Int) :=
  let around : Around Int := { net := ⟨fun _ port => port, fun _ => {}, fun _ => .answered⟩ }
  [(1, { op := .writeBlock, requestId := 1, writeBlock := { blockId := 1, data := [1, 2, 3] } }, around),
    (2, { op := .writeBlock, requestId := 2, writeBlock := { blockId := 1, data := [1, 2] } }, around)]

theorem scan_reports_short :
    (atTwoPorts.visited .sorted).flatMap (failing (fun _ => 7) (fun _ port => port)
      (handleAll (fun _ => 7) { stores := fun _ => {} } writesTwoPorts).2 (fun _ _ => ⟨{}, fun _ => some 0⟩) atTwoPorts
      nodesTwoPorts) = [(1, text "a:2")] := by
  let short : BlockCheckResult :=
    { blockId := 1, datanodeId := text "a:2", reachable := true, actualSize := 2,
      error := text "Size mismatch: expected=3 actual=2" }
  have hscan : atTwoPorts.scanAllBlocks (fun _ => 7) (fun _ port => port)
      (handleAll (fun _ => 7) { stores := fun _ => {} } writesTwoPorts).2 (fun _ _ => ⟨{}, fun _ => some 0⟩)
        nodesTwoPorts
      (fun _ => .sorted) .sorted = some [short] := by decide
  exact (scan_reports hscan).symm

omit [DecidableEq N] in
theorem intact_of_mirrors {blocks : BlockId → Option Bytes} {s : BlockStore} (h : Mirrors crc32 blocks s)
    (expected : Int) :
    Intact crc32 s expected blockId ↔
      ∃ data, blocks blockId = some data ∧ data ≠ [] ∧ (expected ≤ 0 ∨ expected = data.length) := by
  constructor
  · rintro ⟨got, bytes, hmeta, hfile, hpos, -, -, hsize⟩
    cases hdata : blocks blockId with
    | none =>
        rw [h.absent blockId hdata] at hmeta
        cases hmeta
    | some data =>
        obtain ⟨-, -, got', hmeta', hlen, -⟩ := h.data blockId data hdata
        obtain rfl : got = got' := Option.some.inj (hmeta.symm.trans hmeta')
        refine ⟨data, rfl, ?_, by omega⟩
        rintro rfl
        rw [hlen] at hpos
        exact absurd hpos (by decide)
  · rintro ⟨data, hdata, hne, hsize⟩
    obtain ⟨hfile, -, got, hmeta, hlen, hsum⟩ := h.data blockId data hdata
    have hpos := List.length_pos_iff.mpr hne
    refine ⟨got, data, hmeta, hfile, by omega, by omega, ?_, by omega⟩
    rw [hlen, Int.toNat_natCast, List.take_length, hsum]

/-- DataNodes with sound disks have served requests. A replica is reported but where its DataNode is ALIVE, answers,
and was last sent a write of the block, of some bytes and as many as the metadata has, and no delete after it. -/
theorem scan_after_requests (reqs : List (N × DataNodeRequest × Around N)) (hreqs : ∀ r ∈ reqs, Serviceable r.2.2 r.2.1)
    (h : m.scanAllBlocks crc32 peer (handleAll crc32 { stores := fun _ => {} } reqs).2 probes dn its files = some bad) :
    let kept := (Blocks.serveAll (fun (_ : N) _ => none) (reqs.map fun r => (r.1, r.2.1))).2
    ∀ blockId dnId, (blockId, dnId) ∈ bad.map replicaOf ↔
      m.Lists blockId ∧ dnId ∈ m.getBlockLocations blockId ∧
        ¬ (dnId ∈ dn.aliveSet .sorted ∧ (probes blockId dnId).trip.hop = .answered ∧
          ∃ node data, nodeAt peer dnId = some node ∧ kept node blockId = some data ∧ data ≠ [] ∧
            (m.expectedSize blockId ≤ 0 ∨ m.expectedSize blockId = data.length)) := by
  intro kept blockId dnId
  have hempty (n : N) : Mirrors crc32 (fun _ => none) (({ stores := fun _ => {} } : World N).stores n) :=
    Mirrors.empty crc32
  have hmirrors : ∀ n, Mirrors crc32 (kept n) ((handleAll crc32 { stores := fun _ => {} } reqs).2.stores n) :=
    (handleAll_serveAll hempty hreqs).2
  have hpass : Passes crc32 peer (handleAll crc32 { stores := fun _ => {} } reqs).2 probes m dn blockId dnId ↔
      dnId ∈ dn.aliveSet .sorted ∧ (probes blockId dnId).trip.hop = .answered ∧
        ∃ node data, nodeAt peer dnId = some node ∧ kept node blockId = some data ∧ data ≠ [] ∧
          (m.expectedSize blockId ≤ 0 ∨ m.expectedSize blockId = data.length) := by
    refine and_congr_right fun _ => and_congr_right fun _ => exists_congr fun node => ?_
    rw [intact_of_mirrors (hmirrors node), exists_and_left]
  rw [scan_reports h, List.mem_flatMap, ← hpass]
  constructor
  · rintro ⟨b, hb, hmem⟩
    obtain ⟨d, hd, hpair⟩ := List.mem_map.mp hmem
    obtain ⟨rfl, rfl⟩ := Prod.mk.inj hpair
    obtain ⟨hd, hfail⟩ := List.mem_filter.mp hd
    exact ⟨mem_visited.mp hb, hd, by simpa using hfail⟩
  · rintro ⟨hlists, hd, hfail⟩
    exact ⟨blockId, mem_visited.mpr hlists,
      List.mem_map.mpr ⟨dnId, List.mem_filter.mpr ⟨hd, by simpa using hfail⟩, rfl⟩⟩

theorem scan_after_requests_short :
    let probes : Probes := fun _ _ => ⟨{}, fun _ => some 0⟩
    let kept := (Blocks.serveAll (fun (_ : Int) _ => none) (writesTwoPorts.map fun r => (r.1, r.2.1))).2
    kept 2 1 = some [1, 2] ∧ text "a:2" ∈ atTwoPorts.getBlockLocations 1 ∧
      ¬ (text "a:2" ∈ nodesTwoPorts.aliveSet .sorted ∧ (probes 1 (text "a:2")).trip.hop = .answered ∧
        ∃ node data, nodeAt (fun _ port => port) (text "a:2") = some node ∧ kept node 1 = some data ∧ data ≠ [] ∧
          (atTwoPorts.expectedSize 1 ≤ 0 ∨ atTwoPorts.expectedSize 1 = data.length)) := by
  intro probes kept
  let short : BlockCheckResult :=
    { blockId := 1, datanodeId := text "a:2", reachable := true, actualSize := 2,
      error := text "Size mismatch: expected=3 actual=2" }
  have hreqs : ∀ r ∈ writesTwoPorts, Serviceable r.2.2 r.2.1 := by
    have hsound : ({} : Disk).Sound := ⟨rfl, rfl, rfl, by decide⟩
    simp only [writesTwoPorts, List.forall_mem_cons]
    exact ⟨⟨fun _ => ⟨hsound, by decide⟩, nofun, nofun⟩, ⟨fun _ => ⟨hsound, by decide⟩, nofun, nofun⟩, nofun⟩
  have hscan : atTwoPorts.scanAllBlocks (fun _ => 7) (fun _ port => port)
      (handleAll (fun _ => 7) { stores := fun _ => {} } writesTwoPorts).2 probes nodesTwoPorts (fun _ => .sorted)
        .sorted =
        some [short] := by decide
  have hreported : (1, text "a:2") ∈ [short].map replicaOf := List.mem_cons_self
  exact ⟨rfl, ((scan_after_requests writesTwoPorts hreqs hscan 1 (text "a:2")).mp hreported).2⟩

end MetadataStore

end MiniStorage.Namenode
