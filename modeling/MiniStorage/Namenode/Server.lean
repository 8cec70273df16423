import MiniStorage.Namenode.EditLog
import MiniStorage.Namenode.Workers
import MiniStorage.Runs

namespace MiniStorage.Namenode

open Engine

structure Worker where
  req : NameNodeRequest
  stage : Stage
  /-- The file that it allocates a block for was deleted since it began. -/
  fileGone : Bool := false

structure NameNodeServer where
  node : NameNode := {}
  editLog : OFStream := {}
  workers : List Worker := []

inductive ServerAction
  | accept (req : NameNodeRequest)
  | work (i : Nat) (t : Moment)
  | checkHealth (now : Int)

def Stage.isDone : Stage → Bool
  | .done _ => true
  | _ => false

/-- The path of the file that the next call deletes. -/
def Stage.deletes (n : NameNode) : Stage → Option FilePath
  | .deleteBlocks req _ [] => if (n.metadata.files.find req.path).isSome then some req.path else none
  | _ => none

def Worker.mark (deleted : Option FilePath) (worker : Worker) : Worker :=
  if deleted = some (worker.req.allocateBlock.getD {}).filePath then { worker with fileGone := true } else worker

@[simp] theorem Worker.req_mark (deleted : Option FilePath) (worker : Worker) :
    (worker.mark deleted).req = worker.req := by
  rw [mark]
  split <;> rfl

@[simp] theorem Worker.stage_mark (deleted : Option FilePath) (worker : Worker) :
    (worker.mark deleted).stage = worker.stage := by
  rw [mark]
  split <;> rfl

def createdPath (req : NameNodeRequest) : Option FilePath :=
  if req.op = .createFile then some (req.createFile.getD {}).path else none

namespace NameNodeServer

variable (w : Wire NameNodeRequest)

/-- The constructor, on a data_dir whose edit.log has these bytes. -/
def start (log : Bytes) (now : Int) : NameNodeServer :=
  { node := NameNode.restarted ((EditLog.replay w log).filterMap createdPath) now
    editLog := { bytes := log } }

/-- One call that a worker makes. -/
def turn (s : NameNodeServer) (i : Nat) (worker : Worker) (t : Moment) : NameNodeServer :=
  { node := (worker.stage.advance s.node t).2
    editLog := match worker.stage with
      | .append _ => (EditLog.append w s.editLog worker.req).2
      | _ => s.editLog
    workers := (s.workers.set i { worker with stage := (worker.stage.advance s.node t).1 }).map
      (Worker.mark (worker.stage.deletes s.node)) }

def step (s : NameNodeServer) : ServerAction → Option NameNodeServer
  | .accept req => some { s with workers := s.workers ++ [{ req := req, stage := .entry req }] }
  | .work i t =>
      match s.workers[i]? with
      | none => none
      | some worker => if worker.stage.isDone then none else some (s.turn w i worker t)
  | .checkHealth now => some { s with node := { s.node with dnManager := s.node.dnManager.checkDataNodeHealth now } }

variable {w} {s s' : NameNodeServer}

theorem step_cases {a : ServerAction} (h : step w s a = some s') :
    (∃ req, a = .accept req ∧ s' = { s with workers := s.workers ++ [{ req := req, stage := .entry req }] }) ∨
      (∃ i t worker, a = .work i t ∧ s.workers[i]? = some worker ∧ worker.stage.isDone = false ∧
        s' = s.turn w i worker t) ∨
      ∃ now, a = .checkHealth now ∧
        s' = { s with node := { s.node with dnManager := s.node.dnManager.checkDataNodeHealth now } } := by
  cases a with
  | accept req => exact .inl ⟨req, rfl, (Option.some.inj h).symm⟩
  | checkHealth now => exact .inr (.inr ⟨now, rfl, (Option.some.inj h).symm⟩)
  | work i t =>
      rw [step] at h
      cases hi : s.workers[i]? with
      | none =>
          rw [hi] at h
          cases h
      | some worker =>
          simp only [hi, Option.ite_none_left_eq_some] at h
          exact .inr (.inl ⟨i, t, worker, rfl, hi, Bool.eq_false_iff.mpr h.1, (Option.some.inj h.2).symm⟩)

theorem getElem?_turn {i : Nat} {worker : Worker} (hi : s.workers[i]? = some worker) (t : Moment) (j : Nat) :
    (s.turn w i worker t).workers[j]? =
      (if i = j then some { worker with stage := (worker.stage.advance s.node t).1 } else s.workers[j]?).map
        (Worker.mark (worker.stage.deletes s.node)) := by
  have hlt := (List.getElem?_eq_some_iff.mp hi).1
  rw [turn, List.getElem?_map, List.getElem?_set, if_pos hlt]

theorem mem_turn {i : Nat} {worker x : Worker} {t : Moment} (hi : s.workers[i]? = some worker)
    (hx : x ∈ (s.turn w i worker t).workers) :
    (x.req = worker.req ∧ x.stage = (worker.stage.advance s.node t).1) ∨
      ∃ y ∈ s.workers, x.req = y.req ∧ x.stage = y.stage := by
  obtain ⟨j, hj⟩ := List.mem_iff_getElem?.mp hx
  rw [getElem?_turn hi] at hj
  split at hj
  · cases hj
    exact .inl ⟨Worker.req_mark _ _, Worker.stage_mark _ _⟩
  · obtain ⟨y, hy, rfl⟩ := Option.map_eq_some_iff.mp hj
    exact .inr ⟨y, List.mem_of_getElem? hy, Worker.req_mark _ _, Worker.stage_mark _ _⟩

theorem turn_mem {i : Nat} {worker y : Worker} (t : Moment) (hi : s.workers[i]? = some worker) (hy : y ∈ s.workers) :
    y = worker ∨ ∃ x ∈ (s.turn w i worker t).workers, x.req = y.req ∧ x.stage = y.stage := by
  obtain ⟨j, hj⟩ := List.mem_iff_getElem?.mp hy
  by_cases hij : i = j
  · subst hij
    exact .inl (Option.some.inj (hj.symm.trans hi))
  · refine .inr ⟨y.mark (worker.stage.deletes s.node), ?_, Worker.req_mark _ _, Worker.stage_mark _ _⟩
    apply List.mem_of_getElem? (i := j)
    rw [getElem?_turn hi, if_neg hij, hj]
    rfl

theorem turn_self {i : Nat} {worker : Worker} (t : Moment) (hi : s.workers[i]? = some worker) :
    ∃ x ∈ (s.turn w i worker t).workers, x.req = worker.req ∧ x.stage = (worker.stage.advance s.node t).1 := by
  refine ⟨Worker.mark (worker.stage.deletes s.node) { worker with stage := (worker.stage.advance s.node t).1 }, ?_,
    Worker.req_mark _ _, Worker.stage_mark _ _⟩
  apply List.mem_of_getElem? (i := i)
  rw [getElem?_turn hi, if_pos rfl]
  rfl

end NameNodeServer

end MiniStorage.Namenode
