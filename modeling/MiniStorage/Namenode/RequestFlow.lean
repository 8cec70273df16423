import MiniStorage.Namenode.Types
import MiniStorage.Net.PendingTasks

namespace MiniStorage.Namenode

open Net Runs

/-- A message of a client, with the connection it came on. -/
structure Incoming where
  conn : Nat
  data : Bytes
deriving DecidableEq, Repr

/-- A response that the loop is to send. -/
structure Outgoing where
  conn : Nat
  response : NameNodeResponse
deriving DecidableEq, Repr

/-- The threads between the connections and the tables: OnMessage hands a message to the pool, and ProcessRequest hands
its response to the loop. ProcessRequest and ProcessClientRequest are the same here. -/
structure RequestFlow where
  pool : Pool Incoming
  loop : TaskLoop Outgoing := {}
deriving DecidableEq, Repr

inductive FlowAction
  | onMessage (message : Incoming)
  | pool (action : PoolAction Incoming)
  /-- the end of ProcessRequest, where the switch has made that body -/
  | processed (worker : Nat) (body : NameNodeResponse)
  | loop (action : LoopAction Outgoing)
deriving DecidableEq, Repr

/-- What ProcessRequest makes of a message and the response of the switch; nothing where the message is no request. -/
def respond (w : Wire NameNodeRequest) (message : Incoming) (body : NameNodeResponse) : Option Outgoing :=
  (w.parse message.data).map fun req => ⟨message.conn, { body with requestId := req.requestId }⟩

/-- The connection and the request_id. -/
abbrev Tag := Nat × UInt64

def Incoming.tag? (w : Wire NameNodeRequest) (message : Incoming) : Option Tag :=
  (w.parse message.data).map fun req => (message.conn, req.requestId)

def Outgoing.tag (o : Outgoing) : Tag := (o.conn, o.response.requestId)

namespace RequestFlow

variable (w : Wire NameNodeRequest)

def start (numThreads : Nat) : RequestFlow := { pool := .start numThreads }

def step (s : RequestFlow) : FlowAction → Option RequestFlow
  | .onMessage message => (s.pool.step (.push message)).map fun pool => { s with pool }
  | .pool action =>
      match action with
      | .push _ | .finish _ => none
      | action => (s.pool.step action).map fun pool => { s with pool }
  | .processed i body =>
      match s.pool.workers[i]? with
      | some (.running message) =>
          (s.pool.step (.finish i)).bind fun pool =>
            match respond w message body with
            | none => some { s with pool }
            | some o => (s.loop.step (.post o)).map fun loop => { pool, loop }
      | _ => none
  | .loop action =>
      match action with
      | .post _ => none
      | action => (s.loop.step action).map fun loop => { s with loop }

variable {w} {s t : RequestFlow} {a : FlowAction} {as : List FlowAction} {message : Incoming} {body : NameNodeResponse}

/-- What a thread hands to the loop goes with the message that it is done with. -/
structure Sound (w : Wire NameNodeRequest) (s : RequestFlow) : Prop where
  pool : s.pool.Sound
  loop : s.loop.Sound
  answered : s.loop.submitted.map Outgoing.tag = s.pool.finished.filterMap (Incoming.tag? w)

theorem tag_respond (w : Wire NameNodeRequest) (message : Incoming) (body : NameNodeResponse) :
    (respond w message body).map Outgoing.tag = message.tag? w := by
  rw [respond, Incoming.tag?, Option.map_map]
  rfl

namespace Sound

theorem pool_step (h : Sound w s) {action : PoolAction Incoming} {pool : Pool Incoming}
    (ha : ∀ i, action ≠ .finish i) (hs : s.pool.step action = some pool) : Sound w { s with pool } :=
  ⟨h.pool.step hs, h.loop, by rw [Pool.finished_step ha hs]; exact h.answered⟩

theorem loop_step (h : Sound w s) {action : LoopAction Outgoing} {loop : TaskLoop Outgoing}
    (ha : ∀ o, action ≠ .post o) (hs : s.loop.step action = some loop) : Sound w { s with loop } :=
  ⟨h.pool, h.loop.step hs, by rw [TaskLoop.submitted_eq ha hs]; exact h.answered⟩

theorem processed (h : Sound w s) {i : Nat} (hs : s.step w (.processed i body) = some t) : Sound w t := by
  rw [RequestFlow.step] at hs
  split at hs
  next message hi =>
    obtain ⟨pool, hpool, hs⟩ := Option.bind_eq_some_iff.mp hs
    have hsound := h.pool.step hpool
    have htag := tag_respond w message body
    have hfinished : pool.finished = s.pool.finished ++ [message] := by
      obtain ⟨task, htask, rfl⟩ := Pool.step_cases hpool
      obtain rfl : message = task := by rw [hi] at htask; simpa using htask
      rfl
    cases hrespond : respond w message body with
    | none =>
        rw [hrespond] at hs htag
        obtain rfl := Option.some.inj hs
        refine ⟨hsound, h.loop, ?_⟩
        rw [hfinished, List.filterMap_append, ← h.answered, List.filterMap_cons_none htag.symm, List.filterMap_nil,
          List.append_nil]
    | some o =>
        rw [hrespond] at hs htag
        obtain ⟨loop, hloop, rfl⟩ := Option.map_eq_some_iff.mp hs
        have hsubmitted : loop.submitted = s.loop.submitted ++ [o] := by
          rw [show loop = _ from TaskLoop.step_cases hloop]
        refine ⟨hsound, h.loop.step hloop, ?_⟩
        rw [hfinished, hsubmitted, List.filterMap_append, List.map_append, h.answered,
          List.filterMap_cons_some htag.symm]
        rfl
  next => cases hs

theorem step (h : Sound w s) (hs : s.step w a = some t) : Sound w t := by
  cases a with
  | onMessage message =>
      obtain ⟨pool, hpool, rfl⟩ := Option.map_eq_some_iff.mp hs
      exact h.pool_step (by simp) hpool
  | pool action =>
      cases action with
      | push | finish => cases hs
      | notifyOne | take | sleep | wake | setStop | notifyAll =>
          simp only [RequestFlow.step, Option.map_eq_some_iff] at hs
          obtain ⟨pool, hpool, rfl⟩ := hs
          exact h.pool_step (by simp) hpool
  | processed i body => exact h.processed hs
  | loop action =>
      cases action with
      | post => cases hs
      | setQuit | write | test | poll | swap | runTask =>
          simp only [RequestFlow.step, Option.map_eq_some_iff] at hs
          obtain ⟨loop, hloop, rfl⟩ := hs
          exact h.loop_step (by simp) hloop

theorem of_run {n : Nat} (h : Run (RequestFlow.step w) (fun _ _ => True) (start n) as s) : Sound w s :=
  h.invariant (fun _ _ _ hi _ hs => hi.step hs) ⟨Pool.sound_start n, TaskLoop.sound_start, rfl⟩

end Sound

/-- The pool sees a run of its own. -/
theorem exists_pool_run {n : Nat} (h : Run (step w) (fun _ _ => True) (start n) as s) :
    ∃ bs, Run Pool.step (fun _ _ => True) (.start n) bs s.pool := by
  induction h with
  | nil => exact ⟨[], .nil⟩
  | @snoc as t u a _ _ hs ih =>
      obtain ⟨bs, hrun⟩ := ih
      suffices hstep : u.pool = t.pool ∨ ∃ b, t.pool.step b = some u.pool by
        rcases hstep with he | ⟨b, hb⟩
        · exact ⟨bs, he ▸ hrun⟩
        · exact ⟨_, hrun.snoc trivial hb⟩
      cases a with
      | onMessage message =>
          simp only [step, Option.map_eq_some_iff] at hs
          obtain ⟨pool, hpool, rfl⟩ := hs
          exact .inr ⟨_, hpool⟩
      | pool action =>
          cases action with
          | push | finish => cases hs
          | notifyOne | take | sleep | wake | setStop | notifyAll =>
              simp only [step, Option.map_eq_some_iff] at hs
              obtain ⟨pool, hpool, rfl⟩ := hs
              exact .inr ⟨_, hpool⟩
      | processed i body =>
          rw [step] at hs
          split at hs
          next message hi =>
            obtain ⟨pool, hpool, hs⟩ := Option.bind_eq_some_iff.mp hs
            refine .inr ⟨.finish i, ?_⟩
            split at hs
            next =>
              obtain rfl := Option.some.inj hs
              exact hpool
            next =>
              obtain ⟨loop, -, rfl⟩ := Option.map_eq_some_iff.mp hs
              exact hpool
          next => cases hs
      | loop action =>
          cases action with
          | post => cases hs
          | setQuit | write | test | poll | swap | runTask =>
              simp only [step, Option.map_eq_some_iff] at hs
              obtain ⟨loop, -, rfl⟩ := hs
              exact .inl rfl

/-- No request gets lost on its way through the threads, and none is answered twice: every message that is a request is
in the queue, or with a thread, or its one response, with its request_id and on its connection, is on its way to the
loop or has been sent. Once pool and loop have nothing to do any more, all have been answered; with one thread, in
their order. -/
theorem answered_once {n : Nat} (h : Run (step w) (fun _ _ => True) (start n) as s) :
    (s.pool.submitted.filterMap (Incoming.tag? w)).Perm
        ((s.loop.ran ++ s.loop.inHand ++ s.loop.pendingTasks).map Outgoing.tag ++
          (s.pool.inTasks ++ s.pool.taskQueue).filterMap (Incoming.tag? w)) ∧
      (s.pool.Stuck → (∃ v ∈ s.pool.workers, v ≠ .returned) → s.loop.inHand ++ s.loop.pendingTasks = [] →
        (s.loop.ran.map Outgoing.tag).Perm (s.pool.submitted.filterMap (Incoming.tag? w))) ∧
      (n = 1 → s.loop.ran.map Outgoing.tag <+: s.pool.submitted.filterMap (Incoming.tag? w)) := by
  have hsound := Sound.of_run h
  have hconserved : (s.pool.submitted.filterMap (Incoming.tag? w)).Perm
      ((s.loop.ran ++ s.loop.inHand ++ s.loop.pendingTasks).map Outgoing.tag ++
        (s.pool.inTasks ++ s.pool.taskQueue).filterMap (Incoming.tag? w)) := by
    have hall : s.pool.submitted.Perm (s.pool.finished ++ (s.pool.inTasks ++ s.pool.taskQueue)) := by
      rw [hsound.pool.order, ← List.append_assoc]
      exact hsound.pool.tasks.append_right _
    rw [← hsound.loop.order, hsound.answered, ← List.filterMap_append]
    exact hall.filterMap _
  refine ⟨hconserved, fun hstuck hthread hidle => ?_, fun hone => ?_⟩
  · obtain ⟨hasleep, -, hqueue⟩ := hsound.pool.of_stuck hstuck
    obtain ⟨v, hv, hne⟩ := hthread
    have hempty := hqueue.resolve_right fun hreturned => hne (hreturned v hv)
    rw [List.append_assoc, hidle, List.append_nil, Pool.inTasks_of_stuck hasleep, hempty, List.append_nil,
      List.filterMap_nil, List.append_nil] at hconserved
    exact hconserved.symm
  · subst hone
    obtain ⟨bs, hrun⟩ := exists_pool_run h
    have horder := (Pool.finished_of_one hrun).2
    rw [hsound.pool.order, horder, List.append_assoc, List.filterMap_append, ← hsound.answered, hsound.loop.order,
      List.append_assoc, List.map_append, List.append_assoc]
    exact List.prefix_append _ _

/-- Two requests in the bytes protobuf gives them. -/
def twoRequests : Wire NameNodeRequest := .table [
  ({ op := .listFiles, requestId := 7 }, [0x08, 0x04, 0x10, 0x07]),
  ({ requestId := 9, createFile := some { path := text "/a" } }, [0x10, 0x09, 0x52, 0x04, 0x0a, 0x02, 0x2f, 0x61])]

/-- Two requests and a message that is none, with two threads. The second request is answered first. -/
theorem answered_once_two :
    ∃ s as, Run (step twoRequests) (fun _ _ => True) (start 2) as s ∧ s.pool.Stuck ∧
      s.loop.ran.map Outgoing.tag = [(5, 9), (4, 7)] ∧
      (s.loop.ran.map Outgoing.tag).Perm (s.pool.submitted.filterMap (Incoming.tag? twoRequests)) := by
  let as : List FlowAction := [
    .onMessage ⟨4, [0x08, 0x04, 0x10, 0x07]⟩, .onMessage ⟨5, [0x10, 0x09, 0x52, 0x04, 0x0a, 0x02, 0x2f, 0x61]⟩,
    .onMessage ⟨5, [0xff]⟩, .pool (.notifyOne none), .pool (.notifyOne none), .pool (.notifyOne none),
    .pool (.take 0), .pool (.take 1), .processed 1 { success := true }, .pool (.take 1), .processed 1 {},
    .processed 0 { success := true }, .pool (.take 0), .pool (.sleep 0), .pool (.take 1), .pool (.sleep 1),
    .loop .write, .loop .write, .loop .test, .loop (.poll true), .loop .swap, .loop .runTask, .loop .runTask,
    .loop .runTask]
  obtain ⟨s, hrun, hs⟩ := exists_run_of_exec (step twoRequests) (fun _ _ => True) (start 2) as
    (fun s => s.pool.workers = [.sleeping, .sleeping] ∧ s.pool.submitting = 0 ∧ s.pool.stopping = 0 ∧
      s.loop.inHand ++ s.loop.pendingTasks = [] ∧ s.loop.ran.map Outgoing.tag = [(5, 9), (4, 7)]) (by decide)
  obtain ⟨hworkers, hsubmitting, hstopping, hidle, hran⟩ := of_decide_eq_true hs
  have hstuck : s.pool.Stuck := Pool.stuck_of_idle (by simp [hworkers]) hsubmitting hstopping
  exact ⟨s, as, hrun, hstuck, hran, (answered_once hrun).2.1 hstuck ⟨.sleeping, by simp [hworkers], by simp⟩ hidle⟩

end RequestFlow

end MiniStorage.Namenode
