import MiniStorage.Namenode.Server

namespace MiniStorage.Namenode

open Engine EditLog

theorem createdPath_eq_some {req : NameNodeRequest} {p : FilePath} :
    createdPath req = some p ↔ Stage.entry req = .createFile ⟨p⟩ := by
  rw [createdPath, Stage.entry]
  cases req.op with
  | createFile =>
      obtain ⟨path⟩ := req.createFile.getD {}
      simp
  | _ => simp

namespace NameNodeServer

variable {w : Wire NameNodeRequest} {past ops : List NameNodeRequest} {acts : List ServerAction} {s s' : NameNodeServer}

/-- How the edit log, with the operations `ops`, stands to what the clients have asked for. -/
structure Logs (w : Wire NameNodeRequest) (past : List NameNodeRequest) (acts : List ServerAction)
    (ops : List NameNodeRequest) (s : NameNodeServer) : Prop where
  bytes : s.editLog.bytes = ops.flatMap (record w)
  good : s.editLog.good = true
  room : s.editLog.room = none
  known : ∀ op ∈ ops, op ∈ past ∨ .accept op ∈ acts
  kept : ∀ op ∈ past, op ∈ ops
  accepted : ∀ x ∈ s.workers, .accept x.req ∈ acts
  creators : ∀ x ∈ s.workers, ∀ p, createdPath x.req = some p →
    x.stage = .createFile ⟨p⟩ ∨ (∃ resp, x.stage = .append resp) ∨ x.stage.isDone = true ∧ x.req ∈ ops
  others : ∀ x ∈ s.workers, ∀ p, x.stage = .createFile ⟨p⟩ → createdPath x.req = some p
  owed : ∀ req, .accept req ∈ acts → (createdPath req).isSome →
    req ∈ ops ∨ ∃ x ∈ s.workers, x.req = req ∧ x.stage.isDone = false
  files : ∀ p, s.node.metadata.files.find p ≠ none →
    (∃ op ∈ ops, createdPath op = some p) ∨ ∃ x ∈ s.workers, createdPath x.req = some p ∧ ∃ resp, x.stage = .append resp

theorem logs_start (hpast : ∀ op ∈ past, Loggable w op) (now : Int) :
    Logs w past [] past (start w (past.flatMap (record w)) now) where
  bytes := rfl
  good := rfl
  room := rfl
  known op h := .inl h
  kept op h := h
  accepted x h := absurd h List.not_mem_nil
  creators x h := absurd h List.not_mem_nil
  others x h := absurd h List.not_mem_nil
  owed req h := absurd h List.not_mem_nil
  files p h := by
    rw [start, replay_records hpast, NameNode.find_restarted] at h
    split at h
    next hp =>
      obtain ⟨op, hop, hpath⟩ := List.mem_filterMap.mp hp
      exact .inl ⟨op, hop, hpath⟩
    next => exact absurd rfl h

theorem Logs.accept (h : Logs w past acts ops s) (req : NameNodeRequest) :
    Logs w past (acts ++ [.accept req]) ops { s with workers := s.workers ++ [{ req := req, stage := .entry req }] }
      where
  bytes := h.bytes
  good := h.good
  room := h.room
  known op hop := (h.known op hop).imp_right (List.mem_append_left _)
  kept := h.kept
  accepted x hx := by
    rcases List.mem_append.mp hx with hx | hx
    · exact List.mem_append_left _ (h.accepted x hx)
    · rw [List.mem_singleton.mp hx]
      exact List.mem_append_right _ List.mem_cons_self
  creators x hx p hp := by
    rcases List.mem_append.mp hx with hx | hx
    · exact h.creators x hx p hp
    · rw [List.mem_singleton.mp hx] at hp ⊢
      exact .inl (createdPath_eq_some.mp hp)
  others x hx p hp := by
    rcases List.mem_append.mp hx with hx | hx
    · exact h.others x hx p hp
    · rw [List.mem_singleton.mp hx] at hp ⊢
      exact createdPath_eq_some.mpr hp
  owed req' hreq hsome := by
    rcases List.mem_append.mp hreq with hreq | hreq
    · rcases h.owed req' hreq hsome with hop | ⟨x, hx, hxr⟩
      · exact .inl hop
      · exact .inr ⟨x, List.mem_append_left _ hx, hxr⟩
    · obtain rfl : req' = req := by simpa using hreq
      obtain ⟨p, hp⟩ := Option.isSome_iff_exists.mp hsome
      refine .inr ⟨_, List.mem_append_right _ List.mem_cons_self, rfl, ?_⟩
      simp only [createdPath_eq_some.mp hp]
      rfl
  files p hp := by
    rcases h.files p hp with hop | ⟨x, hx, hxr⟩
    · exact .inl hop
    · exact .inr ⟨x, List.mem_append_left _ hx, hxr⟩

/-- What a call of this worker adds to the operations of the log. -/
def logged (x : Worker) : List NameNodeRequest :=
  match x.stage with
  | .append _ => [x.req]
  | _ => []

theorem editLog_turn {i : Nat} {worker : Worker} (t : Moment) (hbytes : s.editLog.bytes = ops.flatMap (record w))
    (hgood : s.editLog.good = true) (hroom : s.editLog.room = none) :
    (s.turn w i worker t).editLog.bytes = (ops ++ logged worker).flatMap (record w) ∧
      (s.turn w i worker t).editLog.good = true ∧ (s.turn w i worker t).editLog.room = none := by
  simp only [turn, logged]
  cases worker.stage with
  | append resp =>
      obtain ⟨hb, hg, hr⟩ := append_bytes (w := w) worker.req hgood hroom
      refine ⟨?_, hg, hr⟩
      rw [hb, hbytes, List.flatMap_append]
      simp
  | _ => exact ⟨by rw [List.append_nil, hbytes], hgood, hroom⟩

theorem Logs.turn (h : Logs w past acts ops s) {i : Nat} {worker : Worker} (t : Moment)
    (hi : s.workers[i]? = some worker) (hdone : worker.stage.isDone = false) :
    Logs w past (acts ++ [.work i t]) (ops ++ logged worker) (s.turn w i worker t) := by
  have hworker : worker ∈ s.workers := List.mem_of_getElem? hi
  have hacts {req : NameNodeRequest} : ServerAction.accept req ∈ acts ++ [.work i t] ↔ .accept req ∈ acts := by simp
  obtain ⟨hbytes, hgood, hroom⟩ := @editLog_turn w ops s i worker t h.bytes h.good h.room
  obtain ⟨self, hself, hreq, hstage⟩ := turn_self (w := w) t hi
  -- a worker that creates a file is followed through its two calls
  have hcreator {p : FilePath} (hp : createdPath worker.req = some p) :
      (worker.stage = .createFile ⟨p⟩ ∧ ∃ resp, self.stage = .append resp) ∨
        (∃ resp, worker.stage = .append resp) ∧ self.stage.isDone = true ∧ worker.req ∈ ops ++ logged worker := by
    rcases h.creators worker hworker p hp with hs | ⟨resp, hs⟩ | ⟨hs, -⟩
    · exact .inl ⟨hs, _, by rw [hstage, hs]; rfl⟩
    · refine .inr ⟨⟨resp, hs⟩, by rw [hstage, hs]; rfl, List.mem_append_right _ ?_⟩
      rw [logged, hs]
      exact List.mem_cons_self
    · rw [hdone] at hs
      cases hs
  constructor
  · exact hbytes
  · exact hgood
  · exact hroom
  · intro op hop
    rw [hacts]
    rcases List.mem_append.mp hop with hop | hop
    · exact h.known op hop
    · rw [logged] at hop
      split at hop
      · rw [List.mem_singleton.mp hop]
        exact .inr (h.accepted worker hworker)
      · cases hop
  · intro op hop
    exact List.mem_append_left _ (h.kept op hop)
  · intro x hx
    rw [hacts]
    rcases mem_turn hi hx with ⟨hr, -⟩ | ⟨y, hy, hr, -⟩
    · exact hr ▸ h.accepted worker hworker
    · exact hr ▸ h.accepted y hy
  · intro x hx p hp
    rcases mem_turn hi hx with ⟨hr, hs⟩ | ⟨y, hy, hr, hs⟩
    · rw [hr] at hp ⊢
      rw [hs, ← hstage]
      rcases hcreator hp with ⟨-, happ⟩ | ⟨-, hd, hlog⟩
      · exact .inr (.inl happ)
      · exact .inr (.inr ⟨hd, hlog⟩)
    · rw [hr] at hp ⊢
      rw [hs]
      rcases h.creators y hy p hp with hc | happ | ⟨hd, hlog⟩
      · exact .inl hc
      · exact .inr (.inl happ)
      · exact .inr (.inr ⟨hd, List.mem_append_left _ hlog⟩)
  · intro x hx p hp
    rcases mem_turn hi hx with ⟨-, hs⟩ | ⟨y, hy, hr, hs⟩
    · exact (Stage.advance_ne_createFile _ _ _ _ (hs.symm.trans hp)).elim
    · rw [hr]
      exact h.others y hy p (hs.symm.trans hp)
  · intro req hacc hsome
    rw [hacts] at hacc
    rcases h.owed req hacc hsome with hop | ⟨y, hy, rfl, hd⟩
    · exact .inl (List.mem_append_left _ hop)
    · rcases turn_mem (w := w) t hi hy with rfl | ⟨x, hx, hr, hs⟩
      · obtain ⟨p, hp⟩ := Option.isSome_iff_exists.mp hsome
        rcases hcreator hp with ⟨-, resp, happ⟩ | ⟨-, -, hlog⟩
        · exact .inr ⟨self, hself, hreq, by rw [happ]; rfl⟩
        · exact .inl hlog
      · exact .inr ⟨x, hx, hr, hs ▸ hd⟩
  · intro p hp
    rcases Stage.find_advance worker.stage s.node t p hp with hp | hc
    · rcases h.files p hp with ⟨op, hop, hpath⟩ | ⟨y, hy, hpath, resp, hs⟩
      · exact .inl ⟨op, List.mem_append_left _ hop, hpath⟩
      · rcases turn_mem (w := w) t hi hy with rfl | ⟨x, hx, hr, hs'⟩
        · refine .inl ⟨y.req, List.mem_append_right _ ?_, hpath⟩
          rw [logged, hs]
          exact List.mem_cons_self
        · exact .inr ⟨x, hx, hr ▸ hpath, resp, hs'.trans hs⟩
    · have hpath := h.others worker hworker p hc
      rcases hcreator hpath with ⟨-, happ⟩ | ⟨⟨resp, hs⟩, -⟩
      · exact .inr ⟨self, hself, hreq ▸ hpath, happ⟩
      · rw [hs] at hc
        cases hc

theorem Logs.step {a : ServerAction} (h : Logs w past acts ops s) (hs : step w s a = some s') :
    ∃ ops', Logs w past (acts ++ [a]) ops' s' := by
  rcases step_cases hs with ⟨req, rfl, rfl⟩ | ⟨i, t, worker, rfl, hi, hdone, rfl⟩ | ⟨now, rfl, rfl⟩
  · exact ⟨ops, h.accept req⟩
  · exact ⟨_, h.turn t hi hdone⟩
  · refine ⟨ops, h.bytes, h.good, h.room, ?_, h.kept, ?_, h.creators, h.others, ?_, h.files⟩
    · exact fun op hop => (h.known op hop).imp_right (List.mem_append_left _)
    · exact fun x hx => List.mem_append_left _ (h.accepted x hx)
    · intro req hacc hsome
      exact h.owed req (by simpa using hacc) hsome

theorem exists_logs (hpast : ∀ op ∈ past, Loggable w op) {now : Int}
    (hrun : Runs.Run (NameNodeServer.step w) (fun _ _ => True) (start w (past.flatMap (record w)) now) acts s) :
    ∃ ops, Logs w past acts ops s := by
  induction hrun with
  | nil => exact ⟨past, logs_start hpast now⟩
  | snoc _ _ hs ih =>
      obtain ⟨ops, hops⟩ := ih
      exact hops.step hs

/-- Once all workers are done, a server that is constructed on the same edit.log has the same files with the
same lists exactly when every path that a CREATE_FILE request ever named is still a file, and no file has a block. -/
theorem edit_log_restores_iff (w : Wire NameNodeRequest) (past : List NameNodeRequest) (now now' : Int)
    (acts : List ServerAction) (s : NameNodeServer) (hpast : ∀ op ∈ past, Loggable w op)
    (hacts : ∀ req, .accept req ∈ acts → Loggable w req)
    (hrun : Runs.Run (NameNodeServer.step w) (fun _ _ => True) (start w (past.flatMap (record w)) now) acts s)
    (hquiet : ∀ x ∈ s.workers, x.stage.isDone = true) :
    (start w s.editLog.bytes now').node.SameLists s.node ↔
      (∀ req p, (req ∈ past ∨ .accept req ∈ acts) → createdPath req = some p → s.node.metadata.files.find p ≠ none) ∧
        ∀ p f, s.node.metadata.files.find p = some f → f.blocks = [] := by
  obtain ⟨ops, h⟩ := exists_logs hpast hrun
  have hops : ∀ op ∈ ops, Loggable w op := by
    intro op hop
    rcases h.known op hop with hp | ha
    · exact hpast op hp
    · exact hacts op ha
  have hlogged (req : NameNodeRequest) (p : FilePath) (hreq : req ∈ past ∨ .accept req ∈ acts)
      (hp : createdPath req = some p) : p ∈ ops.filterMap createdPath := by
    have hop : req ∈ ops := by
      rcases hreq with hreq | hreq
      · exact h.kept req hreq
      · rcases h.owed req hreq (by simp [hp]) with hop | ⟨x, hx, -, hd⟩
        · exact hop
        · rw [hquiet x hx] at hd
          cases hd
    exact List.mem_filterMap.mpr ⟨req, hop, hp⟩
  have hcreated (p : FilePath) (hp : s.node.metadata.files.find p ≠ none) : p ∈ ops.filterMap createdPath := by
    rcases h.files p hp with ⟨op, hop, hpath⟩ | ⟨x, hx, -, resp, hs⟩
    · exact List.mem_filterMap.mpr ⟨op, hop, hpath⟩
    · have hd := hquiet x hx
      rw [hs] at hd
      cases hd
  have hfind (p : FilePath) : ((start w s.editLog.bytes now').node.metadata.files.find p).map FileInfo.blocks =
      if p ∈ ops.filterMap createdPath then some [] else none := by
    rw [start, h.bytes, replay_records hops, NameNode.find_restarted]
    split <;> rfl
  constructor
  · intro hsame
    constructor
    · intro req p hreq hp hnone
      have hpf := hsame p
      rw [hfind, if_pos (hlogged req p hreq hp), hnone] at hpf
      cases hpf
    · intro p f hf
      have hpf := hsame p
      rw [hfind, if_pos (hcreated p (by simp [hf])), hf] at hpf
      exact (Option.some.inj hpf).symm
  · rintro ⟨hstill, hempty⟩ p
    rw [hfind]
    split
    next hp =>
      obtain ⟨op, hop, hpath⟩ := List.mem_filterMap.mp hp
      obtain ⟨f, hf⟩ := Option.ne_none_iff_exists'.mp (hstill op p (h.known op hop) hpath)
      rw [hf, Option.map_some, hempty p f hf]
    next hp =>
      have hnone : s.node.metadata.files.find p = none := by
        by_contra hne
        exact hp (hcreated p hne)
      rw [hnone]
      rfl

def deleteA : NameNodeRequest := { op := .deleteFile, deleteFile := some ⟨text "/a"⟩ }

/-- The bytes of a creation and a deletion. -/
def createDeleteWire : Wire NameNodeRequest := .table [
  (createA, [0x52, 0x04, 0x0a, 0x02, 0x2f, 0x61]), (deleteA, [0x08, 0x03, 0x6a, 0x04, 0x0a, 0x02, 0x2f, 0x61])]

theorem createA_loggable : Loggable createDeleteWire createA := ⟨_, rfl, by decide, rfl⟩

theorem edit_log_restores_created_file : ∃ s : NameNodeServer,
    Runs.Run (NameNodeServer.step createDeleteWire) (fun _ _ => True) (start createDeleteWire [] 1)
      [.accept createA, .work 0 ⟨2, .sorted⟩, .work 0 ⟨3, .sorted⟩] s ∧
      (start createDeleteWire s.editLog.bytes 4).node.SameLists s.node := by
  have hrun : Runs.Run (NameNodeServer.step createDeleteWire) (fun _ _ => True) (start createDeleteWire [] 1)
      [.accept createA, .work 0 ⟨2, .sorted⟩, .work 0 ⟨3, .sorted⟩] _ :=
    .snoc (.snoc (.snoc .nil trivial rfl) trivial rfl) trivial rfl
  refine ⟨_, hrun, (edit_log_restores_iff createDeleteWire [] 1 4 _ _ (by simp) ?_ hrun (by decide)).mpr ⟨?_, ?_⟩⟩
  · intro req hreq
    obtain rfl : req = createA := by simpa using hreq
    exact createA_loggable
  · intro req p hreq hp
    obtain rfl : req = createA := by simpa using hreq
    cases hp
    decide
  · intro p f hf
    have hnew : (MetadataStore.createFile {} (text "/a") 2).2.files.find p = some f := hf
    rw [MetadataStore.find_createFile] at hnew
    split at hnew
    · cases hnew
      rfl
    · cases hnew

/-- The DELETE_FILE entry is in the log, but the constructor passes over it. -/
theorem edit_log_brings_deleted_file_back : ∃ acts, ∃ s : NameNodeServer,
    Runs.Run (NameNodeServer.step createDeleteWire) (fun _ _ => True) (start createDeleteWire [] 1) acts s ∧
      s.workers.all (fun x => x.stage.isDone) = true ∧
      ¬ (start createDeleteWire s.editLog.bytes 4).node.SameLists s.node := by
  obtain ⟨s, hrun, hs⟩ := Runs.exists_run_of_exec (NameNodeServer.step createDeleteWire) (fun _ _ => True)
    (start createDeleteWire [] 1)
    [.accept createA, .work 0 ⟨2, .sorted⟩, .work 0 ⟨2, .sorted⟩,
      .accept deleteA, .work 1 ⟨3, .sorted⟩, .work 1 ⟨3, .sorted⟩, .work 1 ⟨3, .sorted⟩]
    (fun s => s.workers.all (fun x => x.stage.isDone) &&
      (s.node.metadata.files.find (text "/a")).isNone &&
      ((start createDeleteWire s.editLog.bytes 4).node.metadata.files.find (text "/a")).isSome) (by decide)
  simp only [Bool.and_eq_true] at hs
  obtain ⟨⟨hdone, hnone⟩, hsome⟩ := hs
  refine ⟨_, s, hrun, hdone, ?_⟩
  intro h
  have ha := congrArg Option.isSome (h (text "/a"))
  rw [Option.isSome_map, Option.isSome_map, hsome, Option.isNone_iff_eq_none.mp hnone] at ha
  cases ha

end NameNodeServer

end MiniStorage.Namenode
