import MiniStorage.Raft.Elections
import MiniStorage.Raft.Restart

namespace MiniStorage.Raft

open RaftNode

variable {peers : List Bytes} {id : Bytes} {cfg : RaftConfig} {p p' q : Process} {net net' : List Packet} {act : Action}
  {acts : List Action} {n : RaftNode} {guard : Process → Action → Prop}

/-- The message that an action is about. -/
def Action.packets : Action → List Packet
  | .deliver packet | .crashHandling packet => [packet]
  | _ => []

/-- One step of a single node about whose peers nothing is known: any message may come, from anyone. -/
def loneStep (peers : List Bytes) (id : Bytes) (p : Process) (act : Action) : Option Process :=
  if act.actor = id then (step peers ⟨fun _ => p, act.packets⟩ act).map (·.procs id) else none

/-- A node as it is first started. -/
def fresh : Process := { node := RaftNode.start none none }

theorem ProcStep.actor (hp : ProcStep peers id p net act p' net') :
    act.actor = id ∨ ∃ packet ∈ net, act = .lose packet := by
  cases hp with
  | lose packet hmem => exact .inr ⟨packet, hmem, rfl⟩
  | crashHandling packet hmem hdst => exact .inl hdst
  | _ => exact .inl rfl

theorem loneStep_cases (h : loneStep peers id p act = some p') :
    ∃ net', ProcStep peers id p act.packets act p' net' := by
  rw [loneStep, Option.ite_none_right_eq_some, Option.map_eq_some_iff] at h
  obtain ⟨hid, c, hc, rfl⟩ := h
  obtain ⟨w, q, net', rfl, hp⟩ := step_cases hc
  rcases hp.actor with hact | ⟨packet, hmem, rfl⟩
  · obtain rfl : id = w := hid.symm.trans hact
    rw [put_procs]
    exact ⟨net', hp⟩
  · cases hmem

/-- What holds of a node whatever its peers send. -/
structure Standing (cfg : RaftConfig) (p : Process) : Prop where
  intact : p.node.Intact
  stocked : p.node.Stocked cfg
  sorted : Sorted p.node.log
  counted : Counted p

theorem Standing.restart (hi : n.Intact) (hs : Sorted n.log) : Standing cfg (Process.restart n) where
  intact := hi.restarted
  stocked := .restart n
  sorted := by rw [hi.restart.2.2.1]; exact hs
  counted := .restart n

theorem Standing.fresh : Standing cfg fresh where
  intact := .start
  stocked := ⟨fun hl _ _ => (by cases hl), fun q (hq : q ∈ []) => (by cases hq)⟩
  sorted := List.pairwise_singleton _ _
  counted := ⟨rfl, le_rfl, fun _ h => (by cases h)⟩

theorem Standing.step (h : Standing ⟨id, peers⟩ p) (hp : ProcStep peers id p net act p' net') :
    Standing ⟨id, peers⟩ p' := by
  cases hcrash : noCrash act with
  | false =>
      cases hp with
      | restart => exact .restart h.intact h.sorted
      | crashHandling => exact .restart (.persistState h.intact.sentinel) h.sorted
      | _ => cases hcrash
  | true => exact ⟨hp.intact h.intact, hp.stocked h.stocked, hp.sorted h.intact h.sorted hcrash, h.counted.step hp⟩

theorem Standing.run (h : Standing ⟨id, peers⟩ p) (hr : Runs.Run (loneStep peers id) guard p acts q) :
    Standing ⟨id, peers⟩ q := by
  refine hr.invariant (fun s a t hs _ hst => ?_) h
  obtain ⟨net', hp⟩ := loneStep_cases hst
  exact hs.step hp

/-- A cluster of one elects itself. -/
def election (id : Bytes) : List Action := [.timer id, .timer id, .timer id, .timer id, .timer id]

end MiniStorage.Raft
