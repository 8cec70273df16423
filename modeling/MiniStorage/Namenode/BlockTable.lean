import MiniStorage.Namenode.BlockIds

namespace MiniStorage.Namenode

structure ReplicationTask where
  blockId : BlockId
  sourceDn : DataNodeId
  targetDn : DataNodeId
deriving DecidableEq, Repr

structure ReplicationResult where
  blockId : BlockId
  success : Bool := false
  error : Bytes := []
deriving DecidableEq, Repr

namespace MetadataStore

/-- BlockReplicator::Replicate. `fetched` and `pushed` are how FetchBlock and PushBlock went. -/
def replicate (m : MetadataStore) (task : ReplicationTask) (fetched pushed : Bool) :
    ReplicationResult × MetadataStore :=
  if !fetched then ({ blockId := task.blockId, error := text "FetchBlock failed from " ++ task.sourceDn }, m)
  else if !pushed then ({ blockId := task.blockId, error := text "PushBlock failed to " ++ task.targetDn }, m)
  else ({ blockId := task.blockId, success := true }, m.updateBlockLocation task.blockId task.targetDn)

end MetadataStore

/-- What reaches the tables of a NameNode of either kind while it runs, one after the other. -/
inductive TableEvent
  | request (req : NameNodeRequest) (t : Moment)
  | applied (req : NameNodeRequest) (t : Moment)
  | checkHealth (now : Int)
  | replicate (task : ReplicationTask) (fetched pushed : Bool)

namespace NameNode

variable {n : NameNode}

def tableStep (n : NameNode) : TableEvent → Option NameNode
  | .request req t => some (n.processRequest req t).2
  | .applied req t => some (n.apply req t).2
  | .checkHealth now => some { n with dnManager := n.dnManager.checkDataNodeHealth now }
  | .replicate task fetched pushed => some { n with metadata := (n.metadata.replicate task fetched pushed).2 }

/-- Reports and repairs name blocks of the table, and the counter does not wrap. -/
def NamesKnown (n : NameNode) : TableEvent → Prop
  | .request req _ =>
      (req.op = .allocateBlock → n.blockManager.nextBlockId + 1 ≠ 0) ∧
        (req.op = .blockReport → ∀ item ∈ (req.blockReport.getD {}).blocks, n.metadata.blocks.find item.blockId ≠ none)
  | .applied req _ => req.op = .allocateBlock → n.blockManager.nextBlockId + 1 ≠ 0
  | .checkHealth _ => True
  | .replicate task fetched pushed => fetched = true → pushed = true → n.metadata.blocks.find task.blockId ≠ none

instance (n : NameNode) (e : TableEvent) : Decidable (n.NamesKnown e) :=
  match e with
  | .request _ _ => inferInstanceAs (Decidable (_ ∧ _))
  | .applied _ _ => inferInstanceAs (Decidable (_ → _))
  | .checkHealth _ => isTrue trivial
  | .replicate _ _ _ => inferInstanceAs (Decidable (_ → _))

/-- The keys of the block table are the ids that some file lists. -/
def Matches (n : NameNode) : Prop := ∀ b, n.metadata.blocks.find b ≠ none ↔ n.metadata.Lists b

theorem Matches.of_tables {m : NameNode} (h : n.Matches) (hfiles : m.metadata.files = n.metadata.files)
    (hblocks : ∀ b, m.metadata.blocks.find b ≠ none ↔ n.metadata.blocks.find b ≠ none) : m.Matches := by
  intro b
  rw [hblocks, h b, MetadataStore.Lists, MetadataStore.Lists, hfiles]

theorem Matches.createFile (h : n.Matches) (path : FilePath) (now : Int) :
    Matches { n with metadata := (n.metadata.createFile path now).2 } := by
  intro b
  rw [MetadataStore.blocks_createFile, h b]
  constructor
  · rintro ⟨p, f, hf, hb⟩
    refine ⟨p, f, ?_, hb⟩
    rw [MetadataStore.find_createFile, if_neg, hf]
    rintro ⟨rfl, hnone⟩
    exact Option.some_ne_none f (hf.symm.trans hnone)
  · rintro ⟨p, f, hf, hb⟩
    rw [MetadataStore.find_createFile] at hf
    split at hf
    · cases hf
      cases hb
    · exact ⟨p, f, hf, hb⟩

theorem Matches.commitBlock (h : n.Matches) {path : FilePath} {f : FileInfo} (hf : n.metadata.files.find path = some f)
    (block : BlockInfo) (manager : BlockManager) (t : Moment) :
    Matches { n with metadata := n.commitBlock path block t, blockManager := manager } := by
  intro b
  have hiff : n.metadata.Lists b ∨ b = block.blockId ↔ (n.commitBlock path block t).Lists b := by
    constructor
    · rintro (⟨p, g, hg, hb⟩ | rfl)
      · by_cases hp : p = path
        · subst hp
          obtain rfl := Option.some.inj (hf.symm.trans hg)
          exact ⟨p, _, by rw [files_commitBlock, if_pos rfl, hf]; rfl, List.mem_append_left _ hb⟩
        · exact ⟨p, g, by rw [files_commitBlock, if_neg hp, hg], hb⟩
      · exact ⟨path, _, by rw [files_commitBlock, if_pos rfl, hf]; rfl,
          List.mem_append_right _ (List.mem_singleton_self _)⟩
    · rintro ⟨p, g, hg, hb⟩
      rw [files_commitBlock] at hg
      split at hg
      · obtain ⟨g', hg', rfl⟩ := Option.map_eq_some_iff.mp hg
        rcases List.mem_append.mp hb with hb | hb
        · exact .inl ⟨path, g', hg', hb⟩
        · exact .inr (List.mem_singleton.mp hb)
      · exact .inl ⟨p, g, hg, hb⟩
  rw [← hiff, ← h b, blocks_commitBlock]
  by_cases hb : b = block.blockId
  · rw [if_pos hb]
    exact iff_of_true (Option.some_ne_none _) (.inr hb)
  · rw [if_neg hb, or_iff_left hb]

/-- The blocks of a removed file are in no other list. -/
theorem Matches.removeFile (h : n.Matches) (hfresh : n.Fresh) {path : FilePath} {f : FileInfo}
    (hf : n.metadata.files.find path = some f) : Matches { n with metadata := n.removeFile path f } := by
  intro b
  have hlists : (n.removeFile path f).Lists b ↔ n.metadata.Lists b ∧ b ∉ f.blocks := by
    constructor
    · rintro ⟨p, g, hg, hb⟩
      rw [files_removeFile] at hg
      split at hg
      · cases hg
      · next hp => exact ⟨⟨p, g, hg, hb⟩, hfresh.apart p path g f hp hg hf b hb⟩
    · rintro ⟨⟨p, g, hg, hb⟩, hnot⟩
      refine ⟨p, g, ?_, hb⟩
      rw [files_removeFile, if_neg, hg]
      rintro rfl
      obtain rfl := Option.some.inj (hf.symm.trans hg)
      exact hnot hb
  rw [hlists, ← h b, blocks_removeFile]
  by_cases hb : b ∈ f.blocks
  · simp [hb]
  · simp [hb]

theorem Matches.reportBlocks (h : n.Matches) (id : DataNodeId) {items : List BlockReportItem}
    (hitems : ∀ item ∈ items, n.metadata.blocks.find item.blockId ≠ none) :
    Matches { n with metadata := items.foldl (reportBlock id) n.metadata } := by
  refine h.of_tables (files_reportBlocks id items n.metadata) fun b => ?_
  rw [Option.ne_none_iff_isSome, blocks_reportBlocks, ← Option.ne_none_iff_isSome]
  refine or_iff_left_of_imp ?_
  rintro ⟨item, hmem, rfl⟩
  exact hitems item hmem

theorem find_replicate {task : ReplicationTask} {fetched pushed : Bool} (b : BlockId)
    (hknown : fetched = true → pushed = true → n.metadata.blocks.find task.blockId ≠ none) :
    (n.metadata.replicate task fetched pushed).2.blocks.find b ≠ none ↔ n.metadata.blocks.find b ≠ none := by
  cases fetched with
  | false => exact Iff.rfl
  | true =>
      cases pushed with
      | false => exact Iff.rfl
      | true =>
          obtain ⟨locations, hl⟩ := n.metadata.find_updateBlockLocation task.blockId b task.targetDn
          change (n.metadata.updateBlockLocation task.blockId task.targetDn).blocks.find b ≠ none ↔ _
          rw [hl]
          split
          · next hb => exact iff_of_true (Option.some_ne_none _) (hb ▸ hknown rfl rfl)
          · exact Iff.rfl

theorem files_replicate (m : MetadataStore) (task : ReplicationTask) (fetched pushed : Bool) :
    (m.replicate task fetched pushed).2.files = m.files := by
  cases fetched with
  | false => rfl
  | true => cases pushed <;> rfl

theorem matches_restarted (paths : List FilePath) (now : Int) : Matches (restarted paths now) := by
  have hfold (n : NameNode) (h : n.Matches) :
      Matches { n with metadata := paths.foldl (fun m path => (m.createFile path now).2) n.metadata } := by
    induction paths generalizing n with
    | nil => exact h
    | cons path paths ih => exact ih _ (h.createFile path now)
  apply hfold {}
  intro b
  refine iff_of_false (fun h => h rfl) ?_
  rintro ⟨p, f, hf, -⟩
  cases hf

/-- The ids of a matching table are below the counter. -/
structure Consistent (n : NameNode) : Prop where
  fresh : n.Fresh
  tables : n.Matches

namespace Consistent

theorem change {n' : NameNode} {req : NameNodeRequest} {t : Moment} (h : n.Consistent) (hc : n.Change req t n')
    (hwrap : req.op = .allocateBlock → n.blockManager.nextBlockId + 1 ≠ 0)
    (hreport : req.op = .blockReport → ∀ item ∈ (req.blockReport.getD {}).blocks,
      n.metadata.blocks.find item.blockId ≠ none) : n'.Consistent := by
  refine ⟨h.fresh.change hc hwrap fun hop item hitem => h.fresh.stored _ (hreport hop item hitem), ?_⟩
  cases hc with
  | same hmetadata => exact h.tables.of_tables (by rw [hmetadata]) fun b => by rw [hmetadata]
  | create path => exact h.tables.createFile path t.now
  | allocate hop hf hb => exact h.tables.commitBlock hf _ _ t
  | delete hf => exact h.tables.removeFile h.fresh hf
  | report hop => exact h.tables.reportBlocks _ (hreport hop)

theorem replicate (h : n.Consistent) {task : ReplicationTask} {fetched pushed : Bool}
    (hknown : n.NamesKnown (.replicate task fetched pushed)) :
    Consistent { n with metadata := (n.metadata.replicate task fetched pushed).2 } := by
  have hfiles := files_replicate n.metadata task fetched pushed
  refine ⟨⟨fun b hb => h.fresh.stored b ((find_replicate b hknown).mp hb), ?_, ?_⟩,
    h.tables.of_tables hfiles fun b => find_replicate b hknown⟩
  · intro p f hf
    rw [hfiles] at hf
    exact h.fresh.listed p f hf
  · intro p q f g hpq hf hg
    rw [hfiles] at hf hg
    exact h.fresh.apart p q f g hpq hf hg

theorem step {n' : NameNode} {e : TableEvent} (h : n.Consistent) (hknown : n.NamesKnown e)
    (hs : n.tableStep e = some n') :
    n'.Consistent := by
  cases e with
  | request req t =>
      obtain rfl := Option.some.inj hs
      exact h.change (n.handle_change req t) hknown.1 hknown.2
  | applied req t =>
      obtain rfl := Option.some.inj hs
      by_cases hop : req.op = .blockReport
      · rw [apply_blockReport hop]
        exact h
      · exact h.change (n.apply_change req t) hknown fun hop' => absurd hop' hop
  | checkHealth now =>
      obtain rfl := Option.some.inj hs
      exact ⟨⟨h.fresh.stored, h.fresh.listed, h.fresh.apart⟩, h.tables⟩
  | replicate task fetched pushed =>
      obtain rfl := Option.some.inj hs
      exact h.replicate hknown

end Consistent

/-- The tables match along every run in which reports and repairs name blocks of the table only. -/
theorem block_table_matches (paths : List FilePath) (now : Int) (events : List TableEvent) (n : NameNode)
    (h : Runs.Run tableStep NamesKnown (restarted paths now) events n) : n.Matches :=
  (Runs.Run.invariant (fun _ _ _ hn hk hs => Consistent.step hn hk hs)
    ⟨fresh_restarted paths now, matches_restarted paths now⟩ h).tables

/-- A report of the first block. -/
def reportFirst : NameNodeRequest := { op := .blockReport, blockReport := some ⟨text "d", [⟨1, 10⟩]⟩ }

def deleteA : NameNodeRequest := { op := .deleteFile, deleteFile := some ⟨text "/a"⟩ }

theorem block_table_matches_reported : ∃ n, Runs.Run tableStep NamesKnown (restarted [text "/a"] 1)
    [.request registerD ⟨2, .sorted⟩, .request allocateA ⟨3, .sorted⟩, .request reportFirst ⟨4, .sorted⟩,
      .replicate ⟨1, text "d", text "e"⟩ true true] n ∧ n.Matches := by
  obtain ⟨n, hrun, -⟩ := Runs.exists_run_of_exec tableStep NamesKnown (restarted [text "/a"] 1)
    [.request registerD ⟨2, .sorted⟩, .request allocateA ⟨3, .sorted⟩, .request reportFirst ⟨4, .sorted⟩,
      .replicate ⟨1, text "d", text "e"⟩ true true] (fun _ => true) (by decide)
  exact ⟨n, hrun, block_table_matches _ _ _ _ hrun⟩

/-- The report of a block comes after its file was deleted. -/
theorem block_table_keeps_deleted :
    ∃ events n, Runs.Run tableStep (fun _ _ => True) (restarted [] 0) events n ∧ ¬ n.Matches := by
  obtain ⟨n, hrun, hn⟩ := Runs.exists_run_of_exec tableStep (fun _ _ => True) (restarted [] 0)
    [.request registerD ⟨1, .sorted⟩, .request createA ⟨2, .sorted⟩, .request allocateA ⟨3, .sorted⟩,
      .request deleteA ⟨4, .sorted⟩, .request reportFirst ⟨5, .sorted⟩]
    (fun n => n.metadata.files.entries = [] ∧ (n.metadata.blocks.find 1).isSome) (by decide)
  obtain ⟨hfiles, hsome⟩ := of_decide_eq_true hn
  refine ⟨_, n, hrun, fun h => ?_⟩
  obtain ⟨p, f, hf, -⟩ := (h 1).mp (Option.ne_none_iff_isSome.mpr hsome)
  have hmem := SortedMap.find_eq_some.mp hf
  rw [hfiles] at hmem
  cases hmem

end NameNode

end MiniStorage.Namenode
