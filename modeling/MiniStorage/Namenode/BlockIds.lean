import MiniStorage.Namenode.HaServer
import MiniStorage.Runs

namespace MiniStorage.Namenode

/-- What happens to a NameNode of either kind. A restarted NameNodeServer creates the files of its edit log
anew, a restarted HANameNodeServer starts without files and restores a snapshot then. -/
inductive Event
  | request (req : NameNodeRequest) (t : Moment)
  | applied (req : NameNodeRequest) (t : Moment)
  | checkHealth (now : Int)
  | restore (snap : MetadataStoreSnapshot) (clock : Nat → Int)
  | restart (paths : List FilePath) (now : Int)

namespace NameNode

def step (n : NameNode) : Event → Option NameNode
  | .request req t => some (n.processRequest req t).2
  | .applied req t => some (n.apply req t).2
  | .checkHealth now => some { n with dnManager := n.dnManager.checkDataNodeHealth now }
  | .restore snap clock => some { n with metadata := n.metadata.restore clock snap }
  | .restart paths now => some (restarted paths now)

/-- The three ways for an id to enter the tables all stay below the counter, and the counter does not wrap. -/
def KeepsIds (n : NameNode) : Event → Prop
  | .request req _ =>
      (req.op = .allocateBlock → n.blockManager.nextBlockId + 1 ≠ 0) ∧
        (req.op = .blockReport → ∀ item ∈ (req.blockReport.getD {}).blocks, item.blockId < n.blockManager.nextBlockId)
  | .applied req _ => req.op = .allocateBlock → n.blockManager.nextBlockId + 1 ≠ 0
  | .checkHealth _ => True
  | .restore snap _ =>
      (∀ be ∈ snap.blocks, be.blockId < n.blockManager.nextBlockId) ∧
        ∀ fe ∈ snap.files, ∀ b ∈ fe.blocks, b < n.blockManager.nextBlockId ∧
          (∀ fe' ∈ snap.files, fe'.path ≠ fe.path → b ∉ fe'.blocks) ∧
          ∀ p f, n.metadata.files.find p = some f → (∀ fe' ∈ snap.files, fe'.path ≠ p) → b ∉ f.blocks
  | .restart _ _ => True

/-- Every id in the tables was handed out, and belongs to one file at most. -/
structure Fresh (n : NameNode) : Prop where
  stored : ∀ b, n.metadata.blocks.find b ≠ none → b < n.blockManager.nextBlockId
  listed : ∀ p f, n.metadata.files.find p = some f → ∀ b ∈ f.blocks, b < n.blockManager.nextBlockId
  apart : ∀ p q f g, p ≠ q → n.metadata.files.find p = some f → n.metadata.files.find q = some g →
    ∀ b ∈ f.blocks, b ∉ g.blocks

variable {n : NameNode}

theorem Fresh.createFile (h : n.Fresh) (path : FilePath) (now : Int) :
    Fresh { n with metadata := (n.metadata.createFile path now).2 } := by
  have hfind (p : FilePath) (f : FileInfo) (hf : (n.metadata.createFile path now).2.files.find p = some f) :
      f.blocks = [] ∨ n.metadata.files.find p = some f := by
    rw [MetadataStore.find_createFile] at hf
    split at hf
    · cases hf
      exact .inl rfl
    · exact .inr hf
  refine ⟨?_, ?_, ?_⟩
  · intro b hb
    rw [MetadataStore.blocks_createFile] at hb
    exact h.stored b hb
  · intro p f hf b hb
    rcases hfind p f hf with hnil | hf
    · rw [hnil] at hb
      cases hb
    · exact h.listed p f hf b hb
  · intro p q f g hpq hf hg b hb
    rcases hfind p f hf with hnil | hf
    · rw [hnil] at hb
      cases hb
    · rcases hfind q g hg with hnil | hg
      · rw [hnil]
        exact List.not_mem_nil
      · exact h.apart p q f g hpq hf hg b hb

theorem Fresh.commitBlock (h : n.Fresh) (path : FilePath) (t : Moment) {block : BlockInfo} {manager : BlockManager}
    (hid : block.blockId = n.blockManager.nextBlockId) (hnext : manager.nextBlockId = n.blockManager.nextBlockId + 1)
    (hwrap : n.blockManager.nextBlockId + 1 ≠ 0) :
    Fresh { n with metadata := n.commitBlock path block t, blockManager := manager } := by
  have hlt {b : BlockId} (hb : b < n.blockManager.nextBlockId) : b < manager.nextBlockId := by
    rw [hnext]
    exact lt_add_one_of_no_wrap hwrap (UInt64.le_of_lt hb)
  have hnew : block.blockId < manager.nextBlockId := by
    rw [hid, hnext]
    exact lt_add_one_of_no_wrap hwrap (UInt64.le_refl _)
  have hfind (p : FilePath) (f : FileInfo) (hf : (n.commitBlock path block t).files.find p = some f) :
      ∃ g, n.metadata.files.find p = some g ∧ ∀ b ∈ f.blocks, b ∈ g.blocks ∨ b = block.blockId ∧ p = path := by
    rw [files_commitBlock] at hf
    split at hf
    next hp =>
      obtain ⟨g, hg, rfl⟩ := Option.map_eq_some_iff.mp hf
      refine ⟨g, hp ▸ hg, ?_⟩
      intro b hb
      rcases List.mem_append.mp hb with hb | hb
      · exact .inl hb
      · exact .inr ⟨List.mem_singleton.mp hb, hp⟩
    next => exact ⟨f, hf, fun b hb => .inl hb⟩
  have hold {p : FilePath} {f : FileInfo} (hf : n.metadata.files.find p = some f) : block.blockId ∉ f.blocks := by
    intro hb
    have := h.listed p f hf _ hb
    rw [hid] at this
    exact UInt64.lt_irrefl _ this
  refine ⟨?_, ?_, ?_⟩
  · intro b hb
    rw [blocks_commitBlock] at hb
    split at hb
    next he => exact he ▸ hnew
    next => exact hlt (h.stored b hb)
  · intro p f hf b hb
    obtain ⟨g, hg, hmem⟩ := hfind p f hf
    rcases hmem b hb with hb | ⟨rfl, -⟩
    · exact hlt (h.listed p g hg b hb)
    · exact hnew
  · intro p q f f' hpq hf hf' b hb hb'
    obtain ⟨g, hg, hmem⟩ := hfind p f hf
    obtain ⟨g', hg', hmem'⟩ := hfind q f' hf'
    rcases hmem b hb with hb | ⟨rfl, hp⟩
    · rcases hmem' b hb' with hb' | ⟨rfl, -⟩
      · exact h.apart p q g g' hpq hg hg' b hb hb'
      · exact hold hg hb
    · rcases hmem' _ hb' with hb' | ⟨-, hq⟩
      · exact hold hg' hb'
      · exact hpq (hp.trans hq.symm)

theorem Fresh.removeFile (h : n.Fresh) (path : FilePath) (f : FileInfo) :
    Fresh { n with metadata := n.removeFile path f } := by
  have hfind (p : FilePath) (g : FileInfo) (hg : (n.removeFile path f).files.find p = some g) :
      n.metadata.files.find p = some g := by
    rw [files_removeFile] at hg
    split at hg
    · cases hg
    · exact hg
  refine ⟨?_, fun p g hg => h.listed p g (hfind p g hg),
    fun p q g g' hpq hg hg' => h.apart p q g g' hpq (hfind p g hg) (hfind q g' hg')⟩
  intro b hb
  rw [blocks_removeFile] at hb
  split at hb
  · exact absurd rfl hb
  · exact h.stored b hb

theorem Fresh.reportBlocks (h : n.Fresh) (id : DataNodeId) {items : List BlockReportItem}
    (hitems : ∀ item ∈ items, item.blockId < n.blockManager.nextBlockId) :
    Fresh { n with metadata := items.foldl (reportBlock id) n.metadata } := by
  have hfiles : (items.foldl (reportBlock id) n.metadata).files = n.metadata.files :=
    files_reportBlocks id items n.metadata
  refine ⟨?_, ?_, ?_⟩
  · intro b hb
    rw [Option.ne_none_iff_isSome, blocks_reportBlocks, ← Option.ne_none_iff_isSome] at hb
    rcases hb with hb | ⟨item, hmem, rfl⟩
    · exact h.stored b hb
    · exact hitems item hmem
  · intro p f hf
    rw [hfiles] at hf
    exact h.listed p f hf
  · intro p q f g hpq hf hg
    rw [hfiles] at hf hg
    exact h.apart p q f g hpq hf hg

theorem Fresh.restore (h : n.Fresh) {snap : MetadataStoreSnapshot} {clock : Nat → Int}
    (hkeeps : n.KeepsIds (.restore snap clock)) : Fresh { n with metadata := n.metadata.restore clock snap } := by
  obtain ⟨hstored, hlisted⟩ := hkeeps
  have hfind (p : FilePath) (f : FileInfo) (hf : (n.metadata.restore clock snap).files.find p = some f) :
      (∃ fe ∈ snap.files, fe.path = p ∧ f.blocks = fe.blocks) ∨
        (∀ fe ∈ snap.files, fe.path ≠ p) ∧ n.metadata.files.find p = some f := by
    rw [MetadataStore.restore] at hf
    rcases MetadataStore.find_restoreFiles clock 0 snap.files (n.metadata.restoreBlocks snap.blocks) p with
      ⟨j, fe, hj, hp, he⟩ | ⟨hnone, he⟩
    · rw [he] at hf
      cases hf
      exact .inl ⟨fe, List.mem_of_getElem? hj, hp, rfl⟩
    · rw [he, MetadataStore.files_restoreBlocks] at hf
      exact .inr ⟨hnone, hf⟩
  refine ⟨?_, ?_, ?_⟩
  · intro b hb
    rw [MetadataStore.restore, MetadataStore.blocks_restoreFiles] at hb
    rcases MetadataStore.find_restoreBlocks snap.blocks n.metadata b with ⟨be, hmem, rfl, -⟩ | ⟨-, he⟩
    · exact hstored be hmem
    · rw [he] at hb
      exact h.stored b hb
  · intro p f hf b hb
    rcases hfind p f hf with ⟨fe, hmem, -, hblocks⟩ | ⟨-, hf⟩
    · exact (hlisted fe hmem b (hblocks ▸ hb)).1
    · exact h.listed p f hf b hb
  · intro p q f g hpq hf hg b hb hb'
    rcases hfind p f hf with ⟨fe, hmem, hp, hblocks⟩ | ⟨hp, hf⟩
    · rw [hblocks] at hb
      obtain ⟨-, hothers, hstay⟩ := hlisted fe hmem b hb
      rcases hfind q g hg with ⟨fe', hmem', hq, hblocks'⟩ | ⟨hq, hg⟩
      · exact hothers fe' hmem' (by rw [hp, hq]; exact hpq.symm) (hblocks' ▸ hb')
      · exact hstay q g hg hq hb'
    · rcases hfind q g hg with ⟨fe', hmem', -, hblocks'⟩ | ⟨-, hg⟩
      · rw [hblocks'] at hb'
        exact (hlisted fe' hmem' b hb').2.2 p f hf hp hb
      · exact h.apart p q f g hpq hf hg b hb hb'

theorem fresh_restarted (paths : List FilePath) (now : Int) : Fresh (restarted paths now) := by
  have hfold (n : NameNode) (h : n.Fresh) :
      Fresh { n with metadata := paths.foldl (fun m path => (m.createFile path now).2) n.metadata } := by
    induction paths generalizing n with
    | nil => exact h
    | cons path paths ih => exact ih _ (h.createFile path now)
  apply hfold {}
  constructor
  · intro b hb
    exact absurd rfl hb
  · intro p f hf
    cases hf
  · intro p q f g hpq hf
    cases hf

theorem Fresh.chosenBlock (h : n.Fresh) (path : FilePath) {t : Moment} {block : BlockInfo} {manager : BlockManager}
    (hb : n.chosenBlock t = some (block, manager)) (hwrap : n.blockManager.nextBlockId + 1 ≠ 0) :
    Fresh { n with metadata := n.commitBlock path block t, blockManager := manager } := by
  obtain ⟨-, hid, -, hnext, -⟩ := BlockManager.allocateBlock_some hb
  exact h.commitBlock path t hid hnext hwrap

theorem Fresh.change {n' : NameNode} {req : NameNodeRequest} {t : Moment} (h : n.Fresh) (hc : n.Change req t n')
    (hwrap : req.op = .allocateBlock → n.blockManager.nextBlockId + 1 ≠ 0)
    (hreport : req.op = .blockReport → ∀ item ∈ (req.blockReport.getD {}).blocks,
      item.blockId < n.blockManager.nextBlockId) : n'.Fresh := by
  cases hc with
  | same hmetadata hmanager =>
      constructor
      · rw [hmetadata, hmanager]; exact h.stored
      · rw [hmetadata, hmanager]; exact h.listed
      · rw [hmetadata]; exact h.apart
  | create path => exact h.createFile path t.now
  | allocate hop hf hb => exact h.chosenBlock _ hb (hwrap hop)
  | delete => exact h.removeFile _ _
  | report hop => exact h.reportBlocks _ (hreport hop)

theorem Fresh.step {n' : NameNode} {e : Event} (h : n.Fresh) (hkeeps : n.KeepsIds e) (hs : n.step e = some n') :
    n'.Fresh := by
  cases e with
  | request req t =>
      obtain rfl := Option.some.inj hs
      exact h.change (n.handle_change req t) hkeeps.1 hkeeps.2
  | applied req t =>
      obtain rfl := Option.some.inj hs
      by_cases hop : req.op = .blockReport
      · rw [apply_blockReport hop]
        exact h
      · exact h.change (n.apply_change req t) hkeeps fun hop' => absurd hop' hop
  | checkHealth now =>
      obtain rfl := Option.some.inj hs
      exact ⟨h.stored, h.listed, h.apart⟩
  | restore snap clock =>
      obtain rfl := Option.some.inj hs
      exact h.restore hkeeps
  | restart paths now =>
      obtain rfl := Option.some.inj hs
      exact fresh_restarted paths now

/-- What AllocateBlock hands out is nowhere in the tables, and no two files share a block. -/
structure UniqueIds (n : NameNode) : Prop where
  unused : ∀ nodes block manager, n.blockManager.allocateBlock nodes = some (block, manager) →
    n.metadata.blocks.find block.blockId = none ∧ ∀ p f, n.metadata.files.find p = some f → block.blockId ∉ f.blocks
  apart : ∀ p q f g, p ≠ q → n.metadata.files.find p = some f → n.metadata.files.find q = some g →
    ∀ b ∈ f.blocks, b ∉ g.blocks

theorem Fresh.uniqueIds (h : n.Fresh) : n.UniqueIds := by
  refine ⟨?_, h.apart⟩
  intro nodes block manager hb
  obtain ⟨-, hid, -, -, -⟩ := BlockManager.allocateBlock_some hb
  rw [hid]
  constructor
  · by_contra hne
    exact UInt64.lt_irrefl _ (h.stored _ hne)
  · intro p f hf hmem
    exact UInt64.lt_irrefl _ (h.listed p f hf _ hmem)

/-- Ids are unique along every run in which reports and snapshots name only ids below the counter. -/
theorem block_ids_unique (events : List Event) (n : NameNode) (h : Runs.Run step KeepsIds {} events n) : n.UniqueIds :=
  (Runs.Run.invariant (fun _ _ _ hn hk hs => hn.step hk hs) (fresh_restarted [] 0) h).uniqueIds

theorem block_ids_unique_over_restart : ∃ n, Runs.Run step KeepsIds {}
    [.request registerD ⟨1, .sorted⟩, .request createA ⟨2, .sorted⟩, .request allocateA ⟨3, .sorted⟩,
      .restart [text "/a"] 4] n ∧ n.UniqueIds := by
  have hrun : Runs.Run step KeepsIds {}
      [.request registerD ⟨1, .sorted⟩, .request createA ⟨2, .sorted⟩, .request allocateA ⟨3, .sorted⟩,
        .restart [text "/a"] 4] (restarted [text "/a"] 4) := by
    refine .snoc (.snoc (.snoc (.snoc .nil ⟨?_, ?_⟩ rfl) ⟨?_, ?_⟩ rfl) ⟨?_, ?_⟩ rfl) trivial rfl <;> decide
  exact ⟨_, hrun, block_ids_unique _ _ hrun⟩

/-- A DataNode reports the block it got before the NameNode was restarted, and its id is handed out again. -/
theorem block_id_reused_after_restart : ∃ events n, Runs.Run step (fun _ _ => True) {} events n ∧ ¬ n.UniqueIds := by
  obtain ⟨n, hrun, hn⟩ := Runs.exists_run_of_exec step (fun _ _ => True) {}
    [.request registerD ⟨1, .sorted⟩, .request createA ⟨2, .sorted⟩, .request allocateA ⟨3, .sorted⟩,
      .restart [text "/a"] 4, .request registerD ⟨5, .sorted⟩,
      .request { op := .blockReport, blockReport := some ⟨text "d", [⟨1, 10⟩]⟩ } ⟨6, .sorted⟩]
    (fun n => n.blockManager = {} ∧ (n.metadata.blocks.find 1).isSome) (by decide)
  refine ⟨_, n, hrun, ?_⟩
  intro h
  obtain ⟨hmanager, hsome⟩ := of_decide_eq_true hn
  have hunused := (h.unused [{ freeSpace := kBlockSize }] _ _ (by rw [hmanager]; rfl)).1
  rw [hunused] at hsome
  cases hsome

end NameNode

end MiniStorage.Namenode
