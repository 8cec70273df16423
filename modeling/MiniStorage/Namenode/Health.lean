import MiniStorage.Namenode.Managers
import MiniStorage.Runs

namespace MiniStorage.Namenode

open Runs

inductive HealthCall
  | registerDataNode (info : DataNodeInfo)
  | handleHeartbeat (id : DataNodeId) (freeSpace : Int) (blockCount : Int32)
  | checkDataNodeHealth
deriving DecidableEq, Repr

structure HealthEvent where
  call : HealthCall
  now : Int
deriving DecidableEq, Repr

namespace HealthEvent

/-- The event is a sign of life of that node. -/
def beats (e : HealthEvent) (id : DataNodeId) : Bool :=
  match e.call with
  | .registerDataNode info => info.id = id
  | .handleHeartbeat id' _ _ => id' = id
  | .checkDataNodeHealth => false

def apply (e : HealthEvent) (m : DataNodeManager) : DataNodeManager :=
  match e.call with
  | .registerDataNode info => m.registerDataNode info e.now
  | .handleHeartbeat id freeSpace blockCount => (m.handleHeartbeat id freeSpace blockCount e.now).2
  | .checkDataNodeHealth => m.checkDataNodeHealth e.now

end HealthEvent

/-- The time of the last registration or heartbeat of a node. -/
def lastBeat (es : List HealthEvent) (id : DataNodeId) : Option Int :=
  (es.reverse.find? fun e => e.beats id).map HealthEvent.now

/-- What a silence of so many milliseconds makes of a node. -/
def healthOf (silence : Int) : DataNodeStatus :=
  if silence ≤ 10 * 1000 then .alive else if silence ≤ 30 * 1000 then .suspect else .dead

/-- The table and the time of the last event. -/
structure HealthState where
  manager : DataNodeManager := {}
  clock : Int

namespace HealthState

def step (s : HealthState) (e : HealthEvent) : Option HealthState := some ⟨e.apply s.manager, e.now⟩

/-- Time does not go back. -/
def Forward (s : HealthState) (e : HealthEvent) : Prop := s.clock ≤ e.now

instance (s : HealthState) (e : HealthEvent) : Decidable (Forward s e) := inferInstanceAs (Decidable (_ ≤ _))

/-- A status no better than what the silence has made of the node, and no worse. -/
def Fair (clock : Int) (info : DataNodeInfo) : Prop :=
  info.lastHeartbeat ≤ clock ∧
    match info.status with
    | .alive => True
    | .suspect => 10 * 1000 < clock - info.lastHeartbeat
    | .dead => 30 * 1000 < clock - info.lastHeartbeat

variable {s t : HealthState} {e : HealthEvent} {es : List HealthEvent} {id : DataNodeId} {info : DataNodeInfo}
  {clock now : Int}

theorem Fair.later (h : Fair clock info) (hle : clock ≤ now) : Fair now info := by
  obtain ⟨hbeat, hstatus⟩ := h
  refine ⟨Int.le_trans hbeat hle, ?_⟩
  cases hs : info.status with
  | alive => trivial
  | suspect | dead =>
      simp only [hs] at hstatus ⊢
      omega

/-- A check leaves a node in the status of its silence. -/
theorem checkHealth_status (h : Fair clock info) (hle : clock ≤ now) :
    (DataNodeManager.checkHealth now info).status = healthOf (now - info.lastHeartbeat) ∧
      (DataNodeManager.checkHealth now info).lastHeartbeat = info.lastHeartbeat := by
  have hthird : kHeartbeatTimeoutSec / 3 * 1000 = 10 * 1000 := rfl
  have hwhole : kHeartbeatTimeoutSec * 1000 = 30 * 1000 := rfl
  obtain ⟨-, hstatus⟩ := h.later hle
  rw [DataNodeManager.checkHealth, healthOf, hthird, hwhole]
  cases hs : info.status with
  | alive =>
      simp only [reduceCtorEq, if_false, and_true]
      split
      · refine ⟨?_, rfl⟩
        rw [if_neg (by omega), if_neg (by omega)]
      · split
        · refine ⟨?_, rfl⟩
          rw [if_neg (by omega), if_pos (by omega)]
        · exact ⟨by rw [if_pos (by omega), hs], rfl⟩
  | suspect =>
      simp only [hs] at hstatus
      simp only [reduceCtorEq, if_false, and_false]
      split
      · refine ⟨?_, rfl⟩
        rw [if_neg (by omega), if_neg (by omega)]
      · exact ⟨by rw [if_neg (by omega), if_pos (by omega), hs], rfl⟩
  | dead =>
      simp only [hs] at hstatus
      simp only [if_true]
      exact ⟨by rw [if_neg (by omega), if_neg (by omega), hs], trivial⟩

theorem lastBeat_snoc (es : List HealthEvent) (e : HealthEvent) (id : DataNodeId) :
    lastBeat (es ++ [e]) id = if e.beats id then some e.now else lastBeat es id := by
  rw [lastBeat, List.reverse_append, List.reverse_singleton, List.singleton_append, List.find?_cons]
  cases e.beats id <;> rfl

/-- An event that is no sign of life of a node changes its entry only as a check does. -/
theorem find_apply_of_not_beats (m : DataNodeManager) (h : e.beats id = false) :
    (e.apply m).nodes.find id =
      if e.call = .checkDataNodeHealth then (m.nodes.find id).map (DataNodeManager.checkHealth e.now)
      else m.nodes.find id := by
  obtain ⟨call, now⟩ := e
  cases call with
  | registerDataNode reg =>
      have hne : id ≠ reg.id := fun heq => by simp [HealthEvent.beats, heq] at h
      rw [if_neg HealthCall.noConfusion]
      simp only [HealthEvent.apply, DataNodeManager.registerDataNode, SortedMap.find_insert, if_neg hne]
  | handleHeartbeat id' freeSpace blockCount =>
      have hne : id ≠ id' := fun heq => by simp [HealthEvent.beats, heq] at h
      rw [if_neg HealthCall.noConfusion]
      simp only [HealthEvent.apply, DataNodeManager.handleHeartbeat]
      cases m.nodes.find id' with
      | none => rfl
      | some old => simp only [SortedMap.find_insert, if_neg hne]
  | checkDataNodeHealth => rw [if_pos rfl, HealthEvent.apply, DataNodeManager.checkDataNodeHealth, SortedMap.find_mapVal]

theorem find_apply_of_beats (m : DataNodeManager) (h : e.beats id = true)
    (hinfo : (e.apply m).nodes.find id = some info) : info.status = .alive ∧ info.lastHeartbeat = e.now := by
  obtain ⟨call, now⟩ := e
  cases call with
  | registerDataNode reg =>
      obtain rfl : reg.id = id := by simpa [HealthEvent.beats] using h
      simp only [HealthEvent.apply, DataNodeManager.registerDataNode, SortedMap.find_insert, if_true,
        Option.some.injEq] at hinfo
      cases hinfo
      exact ⟨rfl, rfl⟩
  | handleHeartbeat id' freeSpace blockCount =>
      obtain rfl : id' = id := by simpa [HealthEvent.beats] using h
      simp only [HealthEvent.apply, DataNodeManager.handleHeartbeat] at hinfo
      cases hold : m.nodes.find id' with
      | none =>
          simp only [hold] at hinfo
          cases hinfo
      | some old =>
          simp only [hold, SortedMap.find_insert, if_true, Option.some.injEq] at hinfo
          cases hinfo
          exact ⟨rfl, rfl⟩
  | checkDataNodeHealth => cases h

/-- Every entry knows the last sign of life of its node. -/
structure Tracked (es : List HealthEvent) (s : HealthState) : Prop where
  beat : ∀ id info, s.manager.nodes.find id = some info → lastBeat es id = some info.lastHeartbeat
  fair : ∀ id info, s.manager.nodes.find id = some info → Fair s.clock info

theorem fair_healthOf (hbeat : info.lastHeartbeat ≤ clock)
    (h : info.status = healthOf (clock - info.lastHeartbeat)) : Fair clock info := by
  refine ⟨hbeat, ?_⟩
  rw [healthOf] at h
  split at h
  next => rw [h]; trivial
  next hten =>
    split at h
    next => rw [h]; exact Int.not_le.mp hten
    next hthirty => rw [h]; exact Int.not_le.mp hthirty

theorem Tracked.find_apply (h : Tracked es s) (he : Forward s e) (hinfo : (e.apply s.manager).nodes.find id = some info) :
    lastBeat (es ++ [e]) id = some info.lastHeartbeat ∧ Fair e.now info := by
  rw [lastBeat_snoc]
  cases hbeats : e.beats id with
  | true =>
      obtain ⟨halive, hlast⟩ := find_apply_of_beats s.manager hbeats hinfo
      refine ⟨by rw [if_pos rfl, hlast], Int.le_of_eq hlast, ?_⟩
      rw [halive]
      trivial
  | false =>
      rw [find_apply_of_not_beats s.manager hbeats] at hinfo
      rw [if_neg Bool.false_ne_true]
      split at hinfo
      next =>
        obtain ⟨old, hold, rfl⟩ := Option.map_eq_some_iff.mp hinfo
        have hfair := h.fair id old hold
        obtain ⟨hstatus, hlast⟩ := checkHealth_status hfair he
        refine ⟨by rw [h.beat id old hold, hlast], fair_healthOf ?_ (hlast.symm ▸ hstatus)⟩
        rw [hlast]
        exact Int.le_trans hfair.1 he
      next => exact ⟨h.beat id info hinfo, (h.fair id info hinfo).later he⟩

theorem Tracked.step (h : Tracked es s) (he : Forward s e) (hs : s.step e = some t) : Tracked (es ++ [e]) t := by
  cases hs
  exact ⟨fun _ _ hinfo => (h.find_apply he hinfo).1, fun _ _ hinfo => (h.find_apply he hinfo).2⟩

/-- Whatever the calls, the table stays keyed by the ids. -/
theorem keyed_of_run {start : Int} (h : Run step Forward ⟨{}, start⟩ es s) : s.manager.Keyed := by
  refine h.invariant (I := fun s => s.manager.Keyed) ?_ DataNodeManager.keyed_empty
  intro s e t hkeyed _ hs
  cases hs
  obtain ⟨call, now⟩ := e
  cases call with
  | registerDataNode info => exact hkeyed.registerDataNode info now
  | handleHeartbeat id freeSpace blockCount => exact hkeyed.handleHeartbeat id freeSpace blockCount now
  | checkDataNodeHealth => exact hkeyed.checkDataNodeHealth now

end HealthState

end MiniStorage.Namenode
