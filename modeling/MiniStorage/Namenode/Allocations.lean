import MiniStorage.Namenode.Server
import Mathlib.Logic.Function.Basic

namespace MiniStorage.Namenode

namespace Stage

/-- The block that a worker has been given and has not put into a list yet. -/
def pending : Stage → Option BlockId
  | .addBlock _ block | .readFile _ block | .writeFile _ block _ => some block.blockId
  | _ => none

/-- The list of block ids that a worker has read and will act on. -/
def seen : Stage → List BlockId
  | .writeFile _ _ f | .deleteBlocks _ f _ => f.blocks
  | _ => []

def reports : Stage → Bool
  | .reportLocation _ _ | .reportRead _ _ _ | .reportSize _ _ _ => true
  | _ => false

end Stage

/-- Worker number `i` alone knows the id. -/
structure Owns (m : MetadataStore) (next : BlockId) (stages : Nat → Option Stage) (i : Nat) (b : BlockId) : Prop where
  below : b < next
  unlisted : ∀ p f, m.files.find p = some f → b ∉ f.blocks
  apart : ∀ j st, j ≠ i → stages j = some st → st.pending ≠ some b ∧ b ∉ st.seen

/-- Where the ids are while workers run: `old` is the store they started from. -/
structure Tidy (old m : MetadataStore) (next : BlockId) (stages : Nat → Option Stage) : Prop where
  stored : ∀ b, m.blocks.find b ≠ none → b < next
  listed : ∀ p f, m.files.find p = some f → ∀ b ∈ f.blocks, b < next
  owns : ∀ i st b, stages i = some st → st.pending = some b → Owns m next stages i b
  seen : ∀ i st, stages i = some st → ∀ b ∈ st.seen, b < next
  fresh : ∀ i req block, stages i = some (.addBlock req block) → m.blocks.find block.blockId = none
  written : ∀ i req block f, stages i = some (.writeFile req block f) → block.blockId ∈ f.blocks
  emptied : ∀ i req f rest, stages i = some (.deleteBlocks req f rest) →
    ∀ b ∈ f.blocks, b ∈ rest ∨ m.blocks.find b = none
  accounted : ∀ b, old.blocks.find b = none → m.blocks.find b ≠ none →
    (∃ i st, stages i = some st ∧ st.pending = some b) ∨ m.Lists b
  quiet : ∀ i st, stages i = some st → st.reports = false

namespace Tidy

variable {old m : MetadataStore} {next : BlockId} {stages : Nat → Option Stage} {i : Nat} {st st' : Stage}

theorem update_cases {j : Nat} {x : Stage} (h : Function.update stages i (some st') j = some x) :
    (j = i ∧ x = st') ∨ j ≠ i ∧ stages j = some x := by
  by_cases hj : j = i
  · subst hj
    rw [Function.update_self] at h
    exact .inl ⟨rfl, (Option.some.inj h).symm⟩
  · rw [Function.update_of_ne hj] at h
    exact .inr ⟨hj, h⟩

theorem goTo (h : Tidy old m next stages) (hpending : ∀ b, st'.pending = some b → Owns m next stages i b)
    (hkeeps : ∀ st b, stages i = some st → st.pending = some b → st'.pending = some b)
    (hseen : ∀ b ∈ st'.seen, b < next ∧ ∀ j st, j ≠ i → stages j = some st → st.pending ≠ some b)
    (hfresh : ∀ req block, st' = .addBlock req block → m.blocks.find block.blockId = none)
    (hwritten : ∀ req block f, st' = .writeFile req block f → block.blockId ∈ f.blocks)
    (hemptied : ∀ req f rest, st' = .deleteBlocks req f rest → ∀ b ∈ f.blocks, b ∈ rest ∨ m.blocks.find b = none)
    (hreports : st'.reports = false) : Tidy old m next (Function.update stages i (some st')) := by
  refine ⟨h.stored, h.listed, ?_, ?_, ?_, ?_, ?_, ?_, ?_⟩
  · intro j x b hj hb
    rcases update_cases hj with ⟨rfl, rfl⟩ | ⟨hne, hx⟩
    · obtain ⟨hbelow, hunlisted, hapart⟩ := hpending b hb
      refine ⟨hbelow, hunlisted, ?_⟩
      intro k y hk hy
      rw [Function.update_of_ne hk] at hy
      exact hapart k y hk hy
    · obtain ⟨hbelow, hunlisted, hapart⟩ := h.owns j x b hx hb
      refine ⟨hbelow, hunlisted, ?_⟩
      intro k y hk hy
      rcases update_cases hy with ⟨-, rfl⟩ | ⟨-, hy⟩
      · exact ⟨fun hp => ((hpending b hp).apart j x hne hx).1 hb, fun hs => (hseen b hs).2 j x hne hx hb⟩
      · exact hapart k y hk hy
  · intro j x hj b hb
    rcases update_cases hj with ⟨-, rfl⟩ | ⟨-, hj⟩
    · exact (hseen b hb).1
    · exact h.seen j x hj b hb
  · intro j req block hj
    rcases update_cases hj with ⟨-, he⟩ | ⟨-, hj⟩
    · exact hfresh req block he.symm
    · exact h.fresh j req block hj
  · intro j req block f hj
    rcases update_cases hj with ⟨-, he⟩ | ⟨-, hj⟩
    · exact hwritten req block f he.symm
    · exact h.written j req block f hj
  · intro j req f rest hj
    rcases update_cases hj with ⟨-, he⟩ | ⟨-, hj⟩
    · exact hemptied req f rest he.symm
    · exact h.emptied j req f rest hj
  · intro b hold hb
    rcases h.accounted b hold hb with ⟨j, x, hj, hx⟩ | hl
    · by_cases hne : j = i
      · subst hne
        exact .inl ⟨j, st', Function.update_self .., hkeeps x b hj hx⟩
      · exact .inl ⟨j, x, by rw [Function.update_of_ne hne, hj], hx⟩
    · exact .inr hl
  · intro j x hj
    rcases update_cases hj with ⟨-, rfl⟩ | ⟨-, hj⟩
    · exact hreports
    · exact h.quiet j x hj

theorem rest (h : Tidy old m next stages) (hst : ∀ st, stages i = some st → st.pending = none)
    (hpending : st'.pending = none) (hseen : st'.seen = []) (hreports : st'.reports = false) :
    Tidy old m next (Function.update stages i (some st')) := by
  refine h.goTo ?_ ?_ ?_ ?_ ?_ ?_ hreports
  · intro b hb
    rw [hpending] at hb
    cases hb
  · intro st b hi hb
    rw [hst st hi] at hb
    cases hb
  · rw [hseen]
    exact fun b hb => absurd hb List.not_mem_nil
  · rintro req block rfl
    cases hpending
  · rintro req block f rfl
    cases hpending
  · rintro req f rest rfl b hb
    rw [Stage.seen] at hseen
    rw [hseen] at hb
    cases hb

theorem pickBlock (h : Tidy old m next stages) (hst : ∀ st, stages i = some st → st.pending = none)
    (hwrap : next + 1 ≠ 0) (req : AllocateBlockRequest) {block : BlockInfo} (hid : block.blockId = next) :
    Tidy old m (next + 1) (Function.update stages i (some (.addBlock req block))) := by
  have hlt {b : BlockId} (hb : b < next) : b < next + 1 := lt_add_one_of_no_wrap hwrap (UInt64.le_of_lt hb)
  have hbump : Tidy old m (next + 1) stages :=
    ⟨fun b hb => hlt (h.stored b hb), fun p f hf b hb => hlt (h.listed p f hf b hb),
      fun j x b hj hb => ⟨hlt (h.owns j x b hj hb).below, (h.owns j x b hj hb).unlisted, (h.owns j x b hj hb).apart⟩,
      fun j x hj b hb => hlt (h.seen j x hj b hb), h.fresh, h.written, h.emptied, h.accounted, h.quiet⟩
  refine hbump.goTo ?_ ?_ ?_ ?_ ?_ ?_ rfl
  · intro b hb
    obtain rfl : b = next := by rw [← hid]; exact (Option.some.inj hb).symm
    refine ⟨lt_add_one_of_no_wrap hwrap (UInt64.le_refl _), ?_, ?_⟩
    · exact fun p f hf hmem => UInt64.lt_irrefl _ (h.listed p f hf _ hmem)
    · exact fun j x _ hj =>
        ⟨fun hp => UInt64.lt_irrefl _ (h.owns j x _ hj hp).below, fun hs => UInt64.lt_irrefl _ (h.seen j x hj _ hs)⟩
  · intro st b hi hb
    rw [hst st hi] at hb
    cases hb
  · exact fun b hb => absurd hb List.not_mem_nil
  · intro req' block' he
    cases he
    by_contra hne
    have hb := h.stored _ hne
    rw [hid] at hb
    exact UInt64.lt_irrefl _ hb
  · intro req' block' f he
    cases he
  · intro req' f rest he
    cases he

theorem readFile (h : Tidy old m next stages) {req : AllocateBlockRequest} {block : BlockInfo} {f : FileInfo}
    (hi : stages i = some (.readFile req block)) (hf : m.files.find req.filePath = some f) :
    Tidy old m next
      (Function.update stages i (some (.writeFile req block { f with blocks := f.blocks ++ [block.blockId] }))) := by
  have howns := h.owns i _ block.blockId hi rfl
  refine h.goTo ?_ ?_ ?_ ?_ ?_ ?_ rfl
  · intro b hb
    obtain rfl := Option.some.inj hb
    exact howns
  · intro st b hst hb
    obtain rfl := Option.some.inj (hi.symm.trans hst)
    exact hb
  · intro b hb
    rcases List.mem_append.mp hb with hb | hb
    · exact ⟨h.listed _ f hf b hb, fun j x _ hj hp => (h.owns j x b hj hp).unlisted _ f hf hb⟩
    · rw [List.mem_singleton.mp hb]
      exact ⟨howns.below, fun j x hne hj => (howns.apart j x hne hj).1⟩
  · intro req' block' he
    cases he
  · intro req' block' f' he
    cases he
    exact List.mem_append_right _ List.mem_cons_self
  · intro req' f' rest he
    cases he

theorem findDoomed (h : Tidy old m next stages) {req : DeleteFileRequest} {f : FileInfo}
    (hi : stages i = some (.findDoomed req)) (hf : m.files.find req.path = some f) :
    Tidy old m next (Function.update stages i (some (.deleteBlocks req f f.blocks))) := by
  refine h.goTo ?_ ?_ ?_ ?_ ?_ ?_ rfl
  · intro b hb
    cases hb
  · intro st b hst hb
    obtain rfl := Option.some.inj (hi.symm.trans hst)
    cases hb
  · exact fun b hb => ⟨h.listed _ f hf b hb, fun j x _ hj hp => (h.owns j x b hj hp).unlisted _ f hf hb⟩
  · intro req' block he
    cases he
  · intro req' block f' he
    cases he
  · intro req' f' rest he b hb
    cases he
    exact .inl hb

theorem createFile (h : Tidy old m next stages) (path : FilePath) (now : Int) :
    Tidy old (m.createFile path now).2 next stages := by
  have hfind (p : FilePath) (f : FileInfo) (hf : (m.createFile path now).2.files.find p = some f) :
      f.blocks = [] ∨ m.files.find p = some f := by
    rw [MetadataStore.find_createFile] at hf
    split at hf
    · cases hf
      exact .inl rfl
    · exact .inr hf
  have hkeep {p : FilePath} {f : FileInfo} (hf : m.files.find p = some f) :
      (m.createFile path now).2.files.find p = some f := by
    rw [MetadataStore.find_createFile, if_neg, hf]
    rintro ⟨rfl, hnone⟩
    rw [hf] at hnone
    cases hnone
  have hblocks := m.blocks_createFile path now
  refine ⟨?_, ?_, ?_, h.seen, ?_, h.written, ?_, ?_, h.quiet⟩
  · rw [hblocks]
    exact h.stored
  · intro p f hf b hb
    rcases hfind p f hf with hnil | hf
    · rw [hnil] at hb
      cases hb
    · exact h.listed p f hf b hb
  · intro j x b hj hb
    obtain ⟨hbelow, hunlisted, hapart⟩ := h.owns j x b hj hb
    refine ⟨hbelow, ?_, hapart⟩
    intro p f hf
    rcases hfind p f hf with hnil | hf
    · rw [hnil]
      exact List.not_mem_nil
    · exact hunlisted p f hf
  · rw [hblocks]
    exact h.fresh
  · rw [hblocks]
    exact h.emptied
  · rw [hblocks]
    intro b hold hb
    exact (h.accounted b hold hb).imp_right fun ⟨p, f, hf, hmem⟩ => ⟨p, f, hkeep hf, hmem⟩

theorem addBlock (h : Tidy old m next stages) {req : AllocateBlockRequest} {block : BlockInfo}
    (hi : stages i = some (.addBlock req block)) :
    Tidy old (m.addBlock block) next (Function.update stages i (some (.readFile req block))) := by
  have howns := h.owns i _ block.blockId hi rfl
  have hstage : Tidy old m next (Function.update stages i (some (.readFile req block))) := by
    refine h.goTo ?_ ?_ ?_ ?_ ?_ ?_ rfl
    · intro b hb
      obtain rfl := Option.some.inj hb
      exact howns
    · intro st b hst hb
      obtain rfl := Option.some.inj (hi.symm.trans hst)
      exact hb
    · exact fun b hb => absurd hb List.not_mem_nil
    · intro req' block' he
      cases he
    · intro req' block' f he
      cases he
    · intro req' f rest he
      cases he
  refine ⟨?_, hstage.listed, fun j x b hj hb => ⟨(hstage.owns j x b hj hb).below, (hstage.owns j x b hj hb).unlisted,
    (hstage.owns j x b hj hb).apart⟩, hstage.seen, ?_, hstage.written, ?_, ?_, hstage.quiet⟩
  · intro b hb
    rw [MetadataStore.find_addBlock] at hb
    split at hb
    next he => exact he ▸ howns.below
    next => exact h.stored b hb
  · intro j req' block' hj
    rcases update_cases hj with ⟨-, he⟩ | ⟨hne, hj⟩
    · cases he
    · rw [MetadataStore.find_addBlock, if_neg, h.fresh j req' block' hj]
      intro he
      exact (howns.apart j _ hne hj).1 (congrArg some he)
  · intro j req' f rest hj b hb
    rcases update_cases hj with ⟨-, he⟩ | ⟨hne, hj⟩
    · cases he
    · refine (h.emptied j req' f rest hj b hb).imp_right fun hnone => ?_
      rw [MetadataStore.find_addBlock, if_neg, hnone]
      rintro rfl
      exact (howns.apart j _ hne hj).2 hb
  · intro b hold hb
    rw [MetadataStore.find_addBlock] at hb
    by_cases he : b = block.blockId
    · exact .inl ⟨i, _, Function.update_self .., congrArg some he.symm⟩
    · rw [if_neg he] at hb
      exact hstage.accounted b hold hb

/-- A worker writes a list that holds all that the file lists, and its own block. -/
theorem writeFile (h : Tidy old m next stages) {req : AllocateBlockRequest} {block : BlockInfo} {f g : FileInfo}
    (hi : stages i = some (.writeFile req block f)) (hg : m.files.find req.filePath = some g)
    (hsub : g.blocks ⊆ f.blocks) (now : Int) (resp : NameNodeResponse) :
    Tidy old (m.updateFile req.filePath f now).2 next (Function.update stages i (some (.done resp))) := by
  have hblocks := m.blocks_updateFile req.filePath f now
  have hfind (p : FilePath) : (m.updateFile req.filePath f now).2.files.find p =
      if p = req.filePath then some { f with modifyTime := now } else m.files.find p := by
    rw [MetadataStore.find_updateFile, hg]
    simp
  refine ⟨?_, ?_, ?_, ?_, ?_, ?_, ?_, ?_, ?_⟩
  · rw [hblocks]
    exact h.stored
  · intro p f' hf' b hb
    rw [hfind] at hf'
    split at hf'
    · cases hf'
      exact h.seen i _ hi b hb
    · exact h.listed p f' hf' b hb
  · intro j x b hj hb
    rcases update_cases hj with ⟨-, rfl⟩ | ⟨hne, hj⟩
    · cases hb
    · obtain ⟨hbelow, hunlisted, hapart⟩ := h.owns j x b hj hb
      refine ⟨hbelow, ?_, ?_⟩
      · intro p f' hf'
        rw [hfind] at hf'
        split at hf'
        · cases hf'
          exact (hapart i _ hne.symm hi).2
        · exact hunlisted p f' hf'
      · intro k y hk hy
        rcases update_cases hy with ⟨-, rfl⟩ | ⟨-, hy⟩
        · exact ⟨Option.some_ne_none b ∘ Eq.symm, List.not_mem_nil⟩
        · exact hapart k y hk hy
  · intro j x hj b hb
    rcases update_cases hj with ⟨-, rfl⟩ | ⟨-, hj⟩
    · cases hb
    · exact h.seen j x hj b hb
  · rw [hblocks]
    intro j req' block' hj
    rcases update_cases hj with ⟨-, he⟩ | ⟨-, hj⟩
    · cases he
    · exact h.fresh j req' block' hj
  · intro j req' block' f' hj
    rcases update_cases hj with ⟨-, he⟩ | ⟨-, hj⟩
    · cases he
    · exact h.written j req' block' f' hj
  · rw [hblocks]
    intro j req' f' rest hj
    rcases update_cases hj with ⟨-, he⟩ | ⟨-, hj⟩
    · cases he
    · exact h.emptied j req' f' rest hj
  · rw [hblocks]
    intro b hold hb
    rcases h.accounted b hold hb with ⟨j, x, hj, hx⟩ | ⟨p, f', hf', hmem⟩
    · by_cases hne : j = i
      · subst hne
        obtain rfl := Option.some.inj (hi.symm.trans hj)
        obtain rfl := Option.some.inj hx
        exact .inr ⟨req.filePath, { f with modifyTime := now }, by rw [hfind, if_pos rfl], h.written j req block f hi⟩
      · exact .inl ⟨j, x, by rw [Function.update_of_ne hne, hj], hx⟩
    · by_cases hp : p = req.filePath
      · subst hp
        obtain rfl := Option.some.inj (hg.symm.trans hf')
        exact .inr ⟨req.filePath, { f with modifyTime := now }, by rw [hfind, if_pos rfl], hsub hmem⟩
      · exact .inr ⟨p, f', by rw [hfind, if_neg hp, hf'], hmem⟩
  · intro j x hj
    rcases update_cases hj with ⟨-, rfl⟩ | ⟨-, hj⟩
    · rfl
    · exact h.quiet j x hj

/-- An entry goes, and its id from what the worker still has to delete. -/
theorem deleteBlock (h : Tidy old m next stages) {req : DeleteFileRequest} {f : FileInfo} {b : BlockId}
    {rest : List BlockId} (hi : stages i = some (.deleteBlocks req f (b :: rest))) :
    Tidy old (m.deleteBlock b).2 next (Function.update stages i (some (.deleteBlocks req f rest))) := by
  have hmono {c : BlockId} (hc : (m.deleteBlock b).2.blocks.find c ≠ none) : m.blocks.find c ≠ none := by
    rw [MetadataStore.find_deleteBlock] at hc
    split at hc
    · exact absurd rfl hc
    · exact hc
  have hnone {c : BlockId} (hc : m.blocks.find c = none) : (m.deleteBlock b).2.blocks.find c = none := by
    by_contra hne
    exact hmono hne hc
  have herased : Tidy old (m.deleteBlock b).2 next stages :=
    ⟨fun c hc => h.stored c (hmono hc), h.listed,
      fun j x c hj hc => ⟨(h.owns j x c hj hc).below, (h.owns j x c hj hc).unlisted, (h.owns j x c hj hc).apart⟩,
        h.seen,
      fun j req' block hj => hnone (h.fresh j req' block hj), h.written,
      fun j req' f' rest' hj c hc => (h.emptied j req' f' rest' hj c hc).imp_right hnone,
      fun c hold hc => h.accounted c hold (hmono hc), h.quiet⟩
  refine herased.goTo ?_ ?_ ?_ ?_ ?_ ?_ rfl
  · intro c hc
    cases hc
  · intro st c hst hc
    obtain rfl := Option.some.inj (hi.symm.trans hst)
    cases hc
  · exact fun c hc => ⟨h.seen i _ hi c hc, fun j x hne hj hp => ((h.owns j x c hj hp).apart i _ hne.symm hi).2 hc⟩
  · intro req' block he
    cases he
  · intro req' block f' he
    cases he
  · intro req' f' rest' he c hc
    cases he
    rcases h.emptied i req f (b :: rest) hi c hc with hmem | hgone
    · rcases List.mem_cons.mp hmem with rfl | hmem
      · exact .inr (by rw [MetadataStore.find_deleteBlock, if_pos rfl])
      · exact .inl hmem
    · exact .inr (hnone hgone)

theorem deleteFile (h : Tidy old m next stages) {req : DeleteFileRequest} {f : FileInfo}
    (hi : stages i = some (.deleteBlocks req f [])) (hsub : ∀ g, m.files.find req.path = some g → g.blocks ⊆ f.blocks) :
    Tidy old (m.deleteFile req.path).2 next stages := by
  have hmono {p : FilePath} {g : FileInfo} (hg : (m.deleteFile req.path).2.files.find p = some g) :
      m.files.find p = some g := by
    rw [MetadataStore.find_deleteFile] at hg
    split at hg
    · cases hg
    · exact hg
  refine ⟨h.stored, fun p g hg => h.listed p g (hmono hg), ?_, h.seen, h.fresh, h.written, h.emptied, ?_, h.quiet⟩
  · intro j x b hj hb
    obtain ⟨hbelow, hunlisted, hapart⟩ := h.owns j x b hj hb
    exact ⟨hbelow, fun p g hg => hunlisted p g (hmono hg), hapart⟩
  · intro b hold hb
    rcases h.accounted b hold hb with hp | ⟨p, g, hg, hmem⟩
    · exact .inl hp
    · by_cases hp : p = req.path
      · subst hp
        rcases h.emptied i req f [] hi b (hsub g hg hmem) with hrest | hgone
        · cases hrest
        · exact absurd hgone hb
      · exact .inr ⟨p, g, by rw [MetadataStore.find_deleteFile, if_neg hp, hg], hmem⟩

end Tidy

namespace Stage

/-- The condition on a worker's next call, by the state before it. -/
def Careful (n : NameNode) : Stage → Prop
  | .pickBlock _ _ => n.blockManager.nextBlockId + 1 ≠ 0
  | .readFile req _ => n.metadata.files.find req.filePath ≠ none
  | .writeFile req _ f => ∃ g, n.metadata.files.find req.filePath = some g ∧ g.blocks ⊆ f.blocks
  | .deleteBlocks req f [] => ∀ g, n.metadata.files.find req.path = some g → g.blocks ⊆ f.blocks
  | _ => True

/-- The request of a worker that allocates a block. -/
def request : Stage → Option AllocateBlockRequest
  | .checkFile req | .aliveNodes req | .pickBlock req _ | .addBlock req _ | .readFile req _ | .writeFile req _ _ =>
    some req
  | _ => none

theorem request_entry {req : NameNodeRequest} {r : AllocateBlockRequest} (h : (entry req).request = some r) :
    r = req.allocateBlock.getD {} := by
  rw [entry] at h
  cases hop : req.op with
  | allocateBlock =>
      rw [hop] at h
      exact (Option.some.inj h).symm
  | _ =>
      rw [hop] at h
      cases h

theorem request_advance {stage : Stage} {n : NameNode} {t : Moment} {r : AllocateBlockRequest}
    (h : (stage.advance n t).1.request = some r) : stage.request = some r := by
  cases stage with
  | checkFile req | aliveNodes req | pickBlock req alive | readFile req block =>
      simp only [advance] at h
      repeat' split at h
      all_goals first
        | exact h
        | cases h
  | addBlock req block => exact h
  | locateFile req | findDoomed req | reportRead id item items =>
      simp only [advance] at h
      repeat' split at h
      all_goals cases h
  | locateBlocks f found rest | deleteBlocks req f rest | reportLocation id rest => cases rest <;> cases h
  | createFile | writeFile | listFiles | registerDn | heartbeat | reportSize | append | done => cases h

/-- A response that carries a block is made where the block goes to the file, or where the file is not found again. -/
theorem done_advance {stage : Stage} {n : NameNode} {t : Moment} {resp : NameNodeResponse} {a : AllocateBlockResponse}
    (h : (stage.advance n t).1 = .done resp) (ha : resp.allocateBlock = some a) :
    stage = .done resp ∨ stage = .append resp ∨
      (∃ req block f, stage = .writeFile req block f ∧ a.blockId = block.blockId) ∨
      ∃ req block, stage = .readFile req block ∧ n.metadata.files.find req.filePath = none := by
  cases stage with
  | done resp' => exact .inl h
  | append resp' =>
      cases h
      exact .inr (.inl rfl)
  | writeFile req block f =>
      cases h
      cases ha
      exact .inr (.inr (.inl ⟨req, block, f, rfl, rfl⟩))
  | readFile req block =>
      simp only [advance] at h
      split at h
      next => cases h
      next hf => exact .inr (.inr (.inr ⟨req, block, rfl, hf⟩))
  | heartbeat req =>
      simp only [advance, NameNode.handleHeartbeat_eq] at h
      cases h
      split at ha <;> cases ha
  | checkFile req | aliveNodes req | pickBlock req alive | locateFile req | findDoomed req | reportRead id item items =>
      simp only [advance] at h
      repeat' split at h
      all_goals first
        | (cases h; cases ha)
        | cases h
  | locateBlocks f found rest | deleteBlocks req f rest | reportLocation id rest =>
      cases rest with
      | nil => first
          | (cases h; cases ha)
          | cases h
      | cons b rest => cases h
  | listFiles | registerDn =>
      cases h
      cases ha
  | createFile | addBlock | reportSize => cases h

theorem append_advance {stage : Stage} {n : NameNode} {t : Moment} {resp : NameNodeResponse}
    (h : (stage.advance n t).1 = .append resp) : resp.allocateBlock = none := by
  cases stage with
  | createFile req =>
      simp only [advance, NameNode.handleCreateFile_eq] at h
      cases h
      split <;> rfl
  | checkFile req | aliveNodes req | pickBlock req alive | readFile req block | locateFile req | findDoomed req
  | reportRead id item items =>
      simp only [advance] at h
      repeat' split at h
      all_goals first
        | (cases h; rfl)
        | cases h
  | locateBlocks f found rest | deleteBlocks req f rest | reportLocation id rest =>
      cases rest with
      | nil => first
          | (cases h; rfl)
          | cases h
      | cons b rest => cases h
  | addBlock | writeFile | listFiles | registerDn | heartbeat | reportSize | append | done => cases h

theorem Careful.listed {stage : Stage} {n : NameNode} (h : stage.Careful n) (t : Moment) {p : FilePath} {f : FileInfo}
    {b : BlockId} (hf : n.metadata.files.find p = some f) (hb : b ∈ f.blocks) :
    (∃ g, (stage.advance n t).2.metadata.files.find p = some g ∧ b ∈ g.blocks) ∨ stage.deletes n = some p := by
  cases stage with
  | createFile req =>
      refine .inl ⟨f, ?_, hb⟩
      simp only [advance, NameNode.handleCreateFile_eq, MetadataStore.find_createFile]
      rw [if_neg, hf]
      rintro ⟨rfl, hnone⟩
      rw [hf] at hnone
      cases hnone
  | writeFile req block f' =>
      obtain ⟨g, hg, hsub⟩ := h
      by_cases hp : p = req.filePath
      · subst hp
        obtain rfl := Option.some.inj (hf.symm.trans hg)
        refine .inl ⟨{ f' with modifyTime := t.now }, ?_, hsub hb⟩
        simp [advance, MetadataStore.find_updateFile, hf]
      · refine .inl ⟨f, ?_, hb⟩
        simp only [advance, MetadataStore.find_updateFile]
        rw [if_neg (fun hc => hp hc.1), hf]
  | deleteBlocks req f' rest =>
      cases rest with
      | cons b' rest => exact .inl ⟨f, hf, hb⟩
      | nil =>
          by_cases hp : p = req.path
          · subst hp
            exact .inr (by rw [deletes, hf]; rfl)
          · refine .inl ⟨f, ?_, hb⟩
            simp only [advance, MetadataStore.find_deleteFile]
            rw [if_neg hp, hf]
  | reportSize id block items =>
      refine .inl ⟨f, ?_, hb⟩
      simp only [advance, MetadataStore.files_updateBlock]
      exact hf
  | heartbeat req =>
      refine .inl ⟨f, ?_, hb⟩
      simp only [advance, NameNode.handleHeartbeat_eq]
      exact hf
  | checkFile req | aliveNodes req | pickBlock req alive | readFile req block | locateFile req | findDoomed req
  | reportRead id item items =>
      refine .inl ⟨f, ?_, hb⟩
      simp only [advance]
      repeat' split
      all_goals exact hf
  | locateBlocks f' found rest | reportLocation id rest => cases rest <;> exact .inl ⟨f, hf, hb⟩
  | addBlock | listFiles | registerDn | append | done => exact .inl ⟨f, hf, hb⟩

end Stage

namespace NameNodeServer

variable {w : Wire NameNodeRequest} {s s' : NameNodeServer} {old : MetadataStore}

/-- The condition on a step. Block reports are not part of these runs. -/
def Careful (s : NameNodeServer) : ServerAction → Prop
  | .accept req => req.op ≠ .blockReport
  | .work i _ => ∀ worker, s.workers[i]? = some worker → worker.stage.Careful s.node
  | .checkHealth _ => True

def stages (s : NameNodeServer) (i : Nat) : Option Stage := s.workers[i]?.map Worker.stage

theorem stages_turn {i : Nat} {worker : Worker} (hi : s.workers[i]? = some worker) (t : Moment) :
    (s.turn w i worker t).stages = Function.update s.stages i (some (worker.stage.advance s.node t).1) := by
  funext j
  rw [stages, getElem?_turn hi]
  by_cases hj : j = i
  · subst hj
    rw [if_pos rfl, Function.update_self, Option.map_some, Option.map_some, Worker.stage_mark]
  · rw [if_neg (Ne.symm hj), Function.update_of_ne hj, stages, Option.map_map]
    congr 1
    funext x
    exact Worker.stage_mark _ _

theorem stages_accept (req : NameNodeRequest) :
    stages { s with workers := s.workers ++ [{ req := req, stage := .entry req }] } =
      Function.update s.stages s.workers.length (some (.entry req)) := by
  funext j
  rw [stages]
  by_cases hj : j = s.workers.length
  · subst hj
    simp
  · rw [Function.update_of_ne hj, stages, List.getElem?_append]
    split
    next => rfl
    next hlt =>
      have hle : s.workers.length + 1 ≤ j := by omega
      rw [List.getElem?_eq_none (by simp; omega), List.getElem?_eq_none (by omega)]

abbrev Neat (old : MetadataStore) (s : NameNodeServer) : Prop :=
  Tidy old s.node.metadata s.node.blockManager.nextBlockId s.stages

theorem Neat.turn (h : Neat old s) {i : Nat} {worker : Worker} (hi : s.workers[i]? = some worker) (t : Moment)
    (hcareful : worker.stage.Careful s.node) : Neat old (s.turn w i worker t) := by
  have hst : s.stages i = some worker.stage := by rw [stages, hi]; rfl
  have hnone (hp : worker.stage.pending = none) : ∀ st, s.stages i = some st → st.pending = none := by
    intro st hs
    rw [← Option.some.inj (hst.symm.trans hs)]
    exact hp
  have hquiet := h.quiet i _ hst
  rw [Neat, stages_turn hi, NameNodeServer.turn]
  cases hstage : worker.stage with
  | createFile req =>
      simp only [Stage.advance, NameNode.handleCreateFile_eq]
      exact (h.createFile _ _).rest (hnone (by rw [hstage]; rfl)) rfl rfl rfl
  | checkFile req | aliveNodes req | locateFile req =>
      simp only [Stage.advance]
      split <;> exact h.rest (hnone (by rw [hstage]; rfl)) rfl rfl rfl
  | pickBlock req alive =>
      simp only [Stage.advance]
      cases hb : s.node.blockManager.allocateBlock alive with
      | none => exact h.rest (hnone (by rw [hstage]; rfl)) rfl rfl rfl
      | some chosen =>
          obtain ⟨-, hid, -, hnext, -⟩ := BlockManager.allocateBlock_some hb
          rw [hstage] at hcareful
          simp only [hnext]
          exact h.pickBlock (hnone (by rw [hstage]; rfl)) hcareful req hid
  | addBlock req block => exact h.addBlock (hstage ▸ hst)
  | readFile req block =>
      rw [hstage] at hcareful
      obtain ⟨f, hf⟩ := Option.ne_none_iff_exists'.mp hcareful
      simp only [Stage.advance, MetadataStore.getFile, hf]
      exact h.readFile (hstage ▸ hst) hf
  | writeFile req block f =>
      rw [hstage] at hcareful
      obtain ⟨g, hg, hsub⟩ := hcareful
      exact h.writeFile (hstage ▸ hst) hg hsub t.now _
  | locateBlocks f found rest =>
      cases rest <;> exact h.rest (hnone (by rw [hstage]; rfl)) rfl rfl rfl
  | findDoomed req =>
      simp only [Stage.advance, MetadataStore.getFile]
      cases hf : s.node.metadata.files.find req.path with
      | none => exact h.rest (hnone (by rw [hstage]; rfl)) rfl rfl rfl
      | some f => exact h.findDoomed (hstage ▸ hst) hf
  | deleteBlocks req f rest =>
      cases rest with
      | nil =>
          rw [hstage] at hcareful
          exact (h.deleteFile (hstage ▸ hst) hcareful).rest (hnone (by rw [hstage]; rfl)) rfl rfl rfl
      | cons b rest => exact h.deleteBlock (hstage ▸ hst)
  | heartbeat req =>
      simp only [Stage.advance, NameNode.handleHeartbeat_eq]
      exact h.rest (hnone (by rw [hstage]; rfl)) rfl rfl rfl
  | listFiles req | registerDn req | append resp | done resp =>
      exact h.rest (hnone (by rw [hstage]; rfl)) rfl rfl rfl
  | reportLocation id items | reportRead id item items | reportSize id block items =>
      rw [hstage] at hquiet
      cases hquiet

theorem Neat.step {a : ServerAction} (h : Neat old s) (hcareful : s.Careful a) (hs : step w s a = some s') :
    Neat old s' := by
  rcases step_cases hs with ⟨req, rfl, rfl⟩ | ⟨i, t, worker, rfl, hi, -, rfl⟩ | ⟨now, rfl, rfl⟩
  · rw [Neat, stages_accept]
    have hlen : s.stages s.workers.length = none := by rw [stages, List.getElem?_eq_none (Nat.le_refl _)]; rfl
    have hst : ∀ st, s.stages s.workers.length = some st → st.pending = none := by
      intro st hs
      rw [hlen] at hs
      cases hs
    have hreport : req.op ≠ .blockReport := hcareful
    rw [Stage.entry]
    cases hop : req.op with
    | blockReport => exact absurd hop hreport
    | _ => exact h.rest hst rfl rfl rfl
  · exact h.turn hi t (hcareful worker hi)
  · exact h

/-- What the workers that are done have told their clients. -/
structure Told (s : NameNodeServer) : Prop where
  requests : ∀ x ∈ s.workers, ∀ r, x.stage.request = some r → r = x.req.allocateBlock.getD {}
  plain : ∀ x ∈ s.workers, ∀ resp, x.stage = .append resp → resp.allocateBlock = none
  kept : ∀ x ∈ s.workers, ∀ resp a, x.stage = .done resp → resp.allocateBlock = some a →
    x.fileGone = true ∨ ∃ f, s.node.metadata.files.find (x.req.allocateBlock.getD {}).filePath = some f ∧
      a.blockId ∈ f.blocks

theorem Told.turn (h : Told s) (hneat : Neat old s) {i : Nat} {worker : Worker} (hi : s.workers[i]? = some worker)
    (t : Moment) (hdone : worker.stage.isDone = false) (hcareful : worker.stage.Careful s.node) :
    Told (s.turn w i worker t) := by
  have hworker : worker ∈ s.workers := List.mem_of_getElem? hi
  have hst : s.stages i = some worker.stage := by rw [stages, hi]; rfl
  refine ⟨?_, ?_, ?_⟩
  · intro x hx r hr
    rcases mem_turn hi hx with ⟨hreq, hs⟩ | ⟨y, hy, hreq, hs⟩
    · rw [hreq]
      exact h.requests worker hworker r (Stage.request_advance (hs ▸ hr))
    · rw [hreq]
      exact h.requests y hy r (hs ▸ hr)
  · intro x hx resp hr
    rcases mem_turn hi hx with ⟨-, hs⟩ | ⟨y, hy, -, hs⟩
    · exact Stage.append_advance (hs.symm.trans hr)
    · exact h.plain y hy resp (hs.symm.trans hr)
  · intro x hx resp a hr ha
    obtain ⟨j, hj⟩ := List.mem_iff_getElem?.mp hx
    rw [getElem?_turn hi] at hj
    split at hj
    next =>
      cases hj
      rw [Worker.stage_mark] at hr
      rcases Stage.done_advance hr ha with he | he | ⟨req, block, f, he, hid⟩ | ⟨req, block, he, hnone⟩
      · rw [he] at hdone
        cases hdone
      · rw [h.plain worker hworker resp he] at ha
        cases ha
      · rw [he] at hcareful
        obtain ⟨g, hg, hsub⟩ := hcareful
        have hreq := h.requests worker hworker req (by rw [he]; rfl)
        refine .inr ⟨{ f with modifyTime := t.now }, ?_, ?_⟩
        · rw [Worker.req_mark, ← hreq]
          simp [NameNodeServer.turn, he, Stage.advance, MetadataStore.find_updateFile, hg]
        · rw [hid]
          exact hneat.written i req block f (he ▸ hst)
      · rw [he] at hcareful
        exact absurd hnone hcareful
    next hij =>
      obtain ⟨y, hy, rfl⟩ := Option.map_eq_some_iff.mp hj
      rw [Worker.stage_mark] at hr
      rw [Worker.req_mark]
      have hgone (hg : y.fileGone = true) : (y.mark (worker.stage.deletes s.node)).fileGone = true := by
        rw [Worker.mark]
        split
        · rfl
        · exact hg
      rcases h.kept y (List.mem_of_getElem? hy) resp a hr ha with hg | ⟨f, hf, hmem⟩
      · exact .inl (hgone hg)
      · rcases hcareful.listed t hf hmem with hl | hd
        · exact .inr hl
        · refine .inl ?_
          rw [Worker.mark, if_pos hd]

theorem Told.step {a : ServerAction} (h : Told s) (hneat : Neat old s) (hcareful : s.Careful a)
    (hs : NameNodeServer.step w s a = some s') : Told s' := by
  rcases step_cases hs with ⟨req, rfl, rfl⟩ | ⟨i, t, worker, rfl, hi, hdone, rfl⟩ | ⟨now, rfl, rfl⟩
  · refine ⟨?_, ?_, ?_⟩
    · intro x hx r hr
      rcases List.mem_append.mp hx with hx | hx
      · exact h.requests x hx r hr
      · rw [List.mem_singleton.mp hx] at hr ⊢
        exact Stage.request_entry hr
    · intro x hx resp hr
      rcases List.mem_append.mp hx with hx | hx
      · exact h.plain x hx resp hr
      · rw [List.mem_singleton.mp hx, Stage.entry] at hr
        split at hr <;> cases hr
    · intro x hx resp a hr ha
      rcases List.mem_append.mp hx with hx | hx
      · exact h.kept x hx resp a hr ha
      · rw [List.mem_singleton.mp hx, Stage.entry] at hr
        split at hr
        all_goals first
          | (cases hr; cases ha)
          | cases hr
  · exact h.turn hneat hi t hdone (hcareful worker hi)
  · exact ⟨h.requests, h.plain, h.kept⟩

/-- Along a careful run no allocation is lost: a block that a client was told of is in the list of its file, unless
that file was deleted since, and no entry is left that no file lists. -/
theorem no_lost_allocation (w : Wire NameNodeRequest) (n : NameNode) (acts : List ServerAction) (s : NameNodeServer)
    (hstored : ∀ b, n.metadata.blocks.find b ≠ none → b < n.blockManager.nextBlockId)
    (hlisted : ∀ b, n.metadata.Lists b → b < n.blockManager.nextBlockId)
    (hrun : Runs.Run (NameNodeServer.step w) Careful { node := n } acts s)
    (hquiet : ∀ x ∈ s.workers, x.stage.isDone = true) :
    (∀ x ∈ s.workers, ∀ resp a, x.stage = .done resp → resp.allocateBlock = some a →
      x.fileGone = true ∨
        ∃ f, s.node.metadata.files.find (x.req.allocateBlock.getD {}).filePath = some f ∧ a.blockId ∈ f.blocks) ∧
      ∀ b, n.metadata.blocks.find b = none → s.node.metadata.blocks.find b ≠ none → s.node.metadata.Lists b := by
  have hstart : Neat n.metadata { node := n } ∧ Told { node := n } := by
    refine ⟨⟨hstored, fun p f hf b hb => hlisted b ⟨p, f, hf, hb⟩, ?_, ?_, ?_, ?_, ?_, ?_, ?_⟩, ?_, ?_, ?_⟩
    · exact fun j x b hj => absurd hj (by simp [stages])
    · exact fun j x hj => absurd hj (by simp [stages])
    · exact fun j req block hj => absurd hj (by simp [stages])
    · exact fun j req block f hj => absurd hj (by simp [stages])
    · exact fun j req f rest hj => absurd hj (by simp [stages])
    · exact fun b hold hb => absurd hold hb
    · exact fun j x hj => absurd hj (by simp [stages])
    · exact fun x hx => absurd hx List.not_mem_nil
    · exact fun x hx => absurd hx List.not_mem_nil
    · exact fun x hx => absurd hx List.not_mem_nil
  obtain ⟨hneat, htold⟩ : Neat n.metadata s ∧ Told s := by
    refine Runs.Run.invariant (I := fun s => Neat n.metadata s ∧ Told s) ?_ hstart hrun
    rintro s a s' ⟨hneat, htold⟩ hcareful hs
    exact ⟨hneat.step hcareful hs, htold.step hneat hcareful hs⟩
  refine ⟨htold.kept, ?_⟩
  intro b hold hb
  rcases hneat.accounted b hold hb with ⟨j, st, hj, hpending⟩ | hl
  · obtain ⟨x, hx, rfl⟩ := Option.map_eq_some_iff.mp hj
    have hd := hquiet x (List.mem_of_getElem? hx)
    cases hstage : x.stage with
    | done resp =>
        rw [hstage] at hpending
        cases hpending
    | _ =>
        rw [hstage] at hd
        cases hd
  · exact hl

theorem all_mem_iff {xs ys : List BlockId} : (xs.all fun b => decide (b ∈ ys)) = true ↔ xs ⊆ ys := by
  rw [List.all_eq_true]
  exact forall₂_congr fun b _ => decide_eq_true_iff

instance decidableCarefulCall (n : NameNode) (stage : Stage) : Decidable (stage.Careful n) :=
  match stage with
  | .pickBlock _ _ => inferInstanceAs (Decidable (n.blockManager.nextBlockId + 1 ≠ 0))
  | .readFile req _ => inferInstanceAs (Decidable (n.metadata.files.find req.filePath ≠ none))
  | .writeFile req _ f =>
      match hg : n.metadata.files.find req.filePath with
      | none => .isFalse fun ⟨g, h, _⟩ => Option.some_ne_none g (h.symm.trans hg)
      | some g => decidable_of_iff ((g.blocks.all fun b => decide (b ∈ f.blocks)) = true)
          ⟨fun h => ⟨g, hg, all_mem_iff.mp h⟩,
            fun ⟨_, h, hsub⟩ => all_mem_iff.mpr (Option.some.inj (h.symm.trans hg) ▸ hsub)⟩
  | .deleteBlocks req f [] =>
      match hg : n.metadata.files.find req.path with
      | none => .isTrue fun g h => absurd (h.symm.trans hg) (Option.some_ne_none g)
      | some g => decidable_of_iff ((g.blocks.all fun b => decide (b ∈ f.blocks)) = true)
          ⟨fun h _ h' => Option.some.inj (hg.symm.trans h') ▸ all_mem_iff.mp h, fun h => all_mem_iff.mpr (h g hg)⟩
  | .deleteBlocks _ _ (_ :: _) | .createFile _ | .checkFile _ | .aliveNodes _ | .addBlock _ _ | .locateFile _
  | .locateBlocks _ _ _ | .findDoomed _ | .listFiles _ | .registerDn _ | .heartbeat _ | .reportLocation _ _
  | .reportRead _ _ _ | .reportSize _ _ _ | .append _ | .done _ => .isTrue trivial

instance decidableCareful (s : NameNodeServer) (a : ServerAction) : Decidable (s.Careful a) :=
  match a with
  | .accept req => inferInstanceAs (Decidable (req.op ≠ .blockReport))
  | .work i _ =>
      match hi : s.workers[i]? with
      | none => .isTrue fun worker h => absurd (h.symm.trans hi) (Option.some_ne_none worker)
      | some worker => decidable_of_iff (worker.stage.Careful s.node)
          ⟨fun h _ h' => Option.some.inj (hi.symm.trans h') ▸ h, fun h => h worker hi⟩
  | .checkHealth _ => .isTrue trivial

/-- Block 1 goes to /a, and the client is told so. -/
theorem no_lost_allocation_alone :
    ∃ s : NameNodeServer, s.node.metadata.blocks.find 1 ≠ none ∧ s.node.metadata.Lists 1 := by
  obtain ⟨s, hrun, hs⟩ := Runs.exists_run_of_exec (NameNodeServer.step (.table [])) Careful {}
    [.accept registerD, .work 0 ⟨1, .sorted⟩, .accept createA, .work 1 ⟨2, .sorted⟩, .work 1 ⟨2, .sorted⟩,
      .accept allocateA, .work 2 ⟨3, .sorted⟩, .work 2 ⟨3, .sorted⟩, .work 2 ⟨3, .sorted⟩, .work 2 ⟨3, .sorted⟩,
      .work 2 ⟨3, .sorted⟩, .work 2 ⟨3, .sorted⟩]
    (fun s => s.workers.all (fun x => x.stage.isDone) && (s.node.metadata.blocks.find 1).isSome) (by decide)
  simp only [Bool.and_eq_true, List.all_eq_true] at hs
  have hsome := Option.isSome_iff_ne_none.mp hs.2
  refine ⟨s, hsome, (no_lost_allocation (.table []) {} _ s ?_ ?_ hrun hs.1).2 1 rfl hsome⟩
  · exact fun b hb => absurd rfl hb
  · rintro b ⟨p, f, hf, -⟩
    cases hf

def allocated (x : Worker) : Option AllocateBlockResponse :=
  match x.stage with
  | .done resp => resp.allocateBlock
  | _ => none

theorem stage_of_allocated {x : Worker} {a : AllocateBlockResponse} (h : allocated x = some a) :
    ∃ resp, x.stage = .done resp ∧ resp.allocateBlock = some a := by
  rw [allocated] at h
  split at h
  next resp hstage => exact ⟨resp, hstage, h⟩
  next => cases h

/-- Two allocations for one file read its list before either has written it, and block 1 is lost. -/
theorem overlapping_allocations_lose_block : ∃ acts, ∃ s : NameNodeServer,
    Runs.Run (NameNodeServer.step (.table [])) (fun _ _ => True) {} acts s ∧
      s.workers.all (fun x => x.stage.isDone) = true ∧ s.workers.all (fun x => !x.fileGone) = true ∧
      (∃ x ∈ s.workers, ∃ resp a, x.stage = .done resp ∧ resp.allocateBlock = some a ∧
        a.success = true ∧ a.blockId = 1) ∧
      s.node.metadata.blocks.find 1 ≠ none ∧ ¬ s.node.metadata.Lists 1 := by
  obtain ⟨s, hrun, hs⟩ := Runs.exists_run_of_exec (NameNodeServer.step (.table [])) (fun _ _ => True) {}
    [.accept registerD, .work 0 ⟨1, .sorted⟩, .accept createA, .work 1 ⟨2, .sorted⟩, .work 1 ⟨2, .sorted⟩,
      .accept allocateA, .accept allocateA,
      .work 2 ⟨3, .sorted⟩, .work 2 ⟨3, .sorted⟩, .work 2 ⟨3, .sorted⟩, .work 2 ⟨3, .sorted⟩, .work 2 ⟨3, .sorted⟩,
      .work 3 ⟨3, .sorted⟩, .work 3 ⟨3, .sorted⟩, .work 3 ⟨3, .sorted⟩, .work 3 ⟨3, .sorted⟩, .work 3 ⟨3, .sorted⟩,
      .work 2 ⟨3, .sorted⟩, .work 3 ⟨3, .sorted⟩]
    (fun s => s.workers.all (fun x => x.stage.isDone) && s.workers.all (fun x => !x.fileGone) &&
      s.workers.any (fun x => (allocated x).any fun a => a.success && a.blockId == 1) &&
      (s.node.metadata.blocks.find 1).isSome &&
      s.node.metadata.files.entries.all fun p => !p.2.blocks.contains 1) (by decide)
  simp only [Bool.and_eq_true] at hs
  obtain ⟨⟨⟨⟨hdone, hgone⟩, htold⟩, hsome⟩, hlists⟩ := hs
  refine ⟨_, s, hrun, hdone, hgone, ?_, Option.isSome_iff_ne_none.mp hsome, ?_⟩
  · obtain ⟨x, hx, hx'⟩ := List.any_eq_true.mp htold
    obtain ⟨a, ha, hok⟩ := (Option.any_eq_true ..).mp hx'
    obtain ⟨resp, hstage, hblock⟩ := stage_of_allocated ha
    simp only [Bool.and_eq_true, beq_iff_eq] at hok
    exact ⟨x, hx, resp, a, hstage, hblock, hok⟩
  · rintro ⟨p, f, hf, hmem⟩
    have hnot := List.all_eq_true.mp hlists _ ((SortedMap.find_eq_some.mp hf))
    simp [hmem] at hnot

end NameNodeServer

end MiniStorage.Namenode
