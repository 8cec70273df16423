import MiniStorage.Runs
import Mathlib.Algebra.Ring.Nat
import Mathlib.Data.List.Perm.Basic

namespace MiniStorage.Net

open Runs

variable {T : Type*}

/-- Where a thread is in WorkerLoop: before it has queue_mutex_; with the mutex and a predicate that was false, so that
it goes to sleep next; asleep in cv_; in a task; out of the loop. -/
inductive Worker (T : Type*)
  | entering
  | deciding
  | sleeping
  | running (task : T)
  | returned
deriving DecidableEq, Repr

structure ThreadPool (T : Type*) where
  workers : List (Worker T)
  taskQueue : List T := []
  stop : Bool := false
deriving DecidableEq, Repr

/-- A pool, the calls of Submit and Stop that are about to notify, and what became of the tasks. -/
structure Pool (T : Type*) extends ThreadPool T where
  submitting : Nat := 0
  stopping : Nat := 0
  submitted : List T := []
  started : List T := []
  finished : List T := []
deriving DecidableEq, Repr

/-- Submit is `push` and `notifyOne`, Stop is `setStop` and `notifyAll` before it joins. -/
inductive PoolAction (T : Type*)
  | push (task : T)
  | notifyOne (woken : Option Nat)
  | take (worker : Nat)
  | sleep (worker : Nat)
  | wake (worker : Nat)
  | finish (worker : Nat)
  | setStop
  | notifyAll
deriving DecidableEq, Repr

namespace Worker

/-- What notify_all does to a thread. -/
def awake : Worker T → Worker T
  | .sleeping => .entering
  | w => w

def isSleeping : Worker T → Bool
  | .sleeping => true
  | _ => false

def isDeciding : Worker T → Bool
  | .deciding => true
  | _ => false

def task? : Worker T → Option T
  | .running task => some task
  | _ => none

/-- A thread that looks at the queue before it sleeps the next time. -/
def Active : Worker T → Prop
  | .entering | .running _ => True
  | _ => False

theorem task?_awake (w : Worker T) : w.awake.task? = w.task? := by
  cases w <;> rfl

theorem isDeciding_awake (w : Worker T) : w.awake.isDeciding = w.isDeciding := by
  cases w <;> rfl

end Worker

namespace Pool

def start (numThreads : Nat) : Pool T := { workers := .replicate numThreads .entering }

/-- queue_mutex_ is held over a step. Every other critical section is one step. -/
def locked (s : Pool T) : Bool := s.workers.any Worker.isDeciding

/-- The tasks that run. -/
def inTasks (s : Pool T) : List T := s.workers.filterMap Worker.task?

/-- The predicate and what follows it up to the task or to the sleep. -/
def decide (s : Pool T) (i : Nat) : Pool T :=
  match s.taskQueue with
  | task :: rest =>
      { s with workers := s.workers.set i (.running task), taskQueue := rest, started := s.started ++ [task] }
  | [] => { s with workers := s.workers.set i (if s.stop then .returned else .deciding) }

def step (s : Pool T) : PoolAction T → Option (Pool T)
  | .push task =>
      if s.locked then none
      else some { s with
        taskQueue := s.taskQueue ++ [task]
        submitting := s.submitting + 1
        submitted := s.submitted ++ [task] }
  -- notify_one where no thread sleeps
  | .notifyOne none =>
      if s.submitting = 0 ∨ s.workers.any Worker.isSleeping then none
      else some { s with submitting := s.submitting - 1 }
  | .notifyOne (some i) =>
      match s.workers[i]? with
      | some .sleeping =>
          if s.submitting = 0 then none
          else some { s with workers := s.workers.set i .entering, submitting := s.submitting - 1 }
      | _ => none
  | .take i =>
      match s.workers[i]? with
      | some .entering => if s.locked then none else some (s.decide i)
      | _ => none
  | .sleep i =>
      match s.workers[i]? with
      | some .deciding => some { s with workers := s.workers.set i .sleeping }
      | _ => none
  -- without a cause
  | .wake i =>
      match s.workers[i]? with
      | some .sleeping => some { s with workers := s.workers.set i .entering }
      | _ => none
  | .finish i =>
      match s.workers[i]? with
      | some (.running task) =>
          some { s with workers := s.workers.set i .entering, finished := s.finished ++ [task] }
      | _ => none
  | .setStop => some { s with stop := true, stopping := s.stopping + 1 }
  | .notifyAll =>
      if s.stopping = 0 then none
      else some { s with workers := s.workers.map Worker.awake, stopping := s.stopping - 1 }

/-- What the threads of the pool and the calls that have begun do, each step with a cause. -/
def Own (_ : Pool T) : PoolAction T → Prop
  | .push _ | .wake _ | .setStop => False
  | _ => True

instance (s : Pool T) (a : PoolAction T) : Decidable (s.Own a) := by
  cases a <;> unfold Own <;> infer_instance

/-- Nothing happens any more unless something comes from outside. -/
def Stuck (s : Pool T) : Prop := ∀ a, s.Own a → s.step a = none

variable {s t u : Pool T} {a : PoolAction T} {as bs : List (PoolAction T)} {i : Nat} {w : Worker T}

theorem step_cases (hs : s.step a = some t) :
    match a with
    | .push task => s.locked = false ∧ t = { s with
        taskQueue := s.taskQueue ++ [task]
        submitting := s.submitting + 1
        submitted := s.submitted ++ [task] }
    | .notifyOne none => s.submitting ≠ 0 ∧ s.workers.any Worker.isSleeping = false ∧
        t = { s with submitting := s.submitting - 1 }
    | .notifyOne (some i) => s.workers[i]? = some .sleeping ∧ s.submitting ≠ 0 ∧
        t = { s with workers := s.workers.set i .entering, submitting := s.submitting - 1 }
    | .take i => s.workers[i]? = some .entering ∧ s.locked = false ∧ t = s.decide i
    | .sleep i => s.workers[i]? = some .deciding ∧ t = { s with workers := s.workers.set i .sleeping }
    | .wake i => s.workers[i]? = some .sleeping ∧ t = { s with workers := s.workers.set i .entering }
    | .finish i => ∃ task, s.workers[i]? = some (.running task) ∧
        t = { s with workers := s.workers.set i .entering, finished := s.finished ++ [task] }
    | .setStop => t = { s with stop := true, stopping := s.stopping + 1 }
    | .notifyAll => s.stopping ≠ 0 ∧
        t = { s with workers := s.workers.map Worker.awake, stopping := s.stopping - 1 } := by
  cases a with
  | push task =>
      rw [step, Option.ite_none_left_eq_some] at hs
      exact ⟨Bool.eq_false_iff.mpr hs.1, (Option.some.inj hs.2).symm⟩
  | notifyOne woken =>
      cases woken with
      | none =>
          rw [step, Option.ite_none_left_eq_some, not_or] at hs
          exact ⟨hs.1.1, Bool.eq_false_iff.mpr hs.1.2, (Option.some.inj hs.2).symm⟩
      | some i =>
          rw [step] at hs
          split at hs
          next hi =>
            rw [Option.ite_none_left_eq_some] at hs
            exact ⟨hi, hs.1, (Option.some.inj hs.2).symm⟩
          next => cases hs
  | take i =>
      rw [step] at hs
      split at hs
      next hi =>
        rw [Option.ite_none_left_eq_some] at hs
        exact ⟨hi, Bool.eq_false_iff.mpr hs.1, (Option.some.inj hs.2).symm⟩
      next => cases hs
  | sleep i | wake i =>
      rw [step] at hs
      split at hs
      next hi => exact ⟨hi, (Option.some.inj hs).symm⟩
      next => cases hs
  | finish i =>
      rw [step] at hs
      split at hs
      next task hi => exact ⟨task, hi, (Option.some.inj hs).symm⟩
      next => cases hs
  | setStop => exact (Option.some.inj hs).symm
  | notifyAll =>
      rw [step, Option.ite_none_left_eq_some] at hs
      exact ⟨hs.1, (Option.some.inj hs.2).symm⟩

theorem decide_cases (s : Pool T) (i : Nat) :
    (∃ task rest, s.taskQueue = task :: rest ∧ s.decide i =
      { s with workers := s.workers.set i (.running task), taskQueue := rest, started := s.started ++ [task] }) ∨
    (s.taskQueue = [] ∧ s.decide i =
      { s with workers := s.workers.set i (if s.stop then .returned else .deciding) }) := by
  rw [decide]
  cases hqueue : s.taskQueue with
  | cons task rest => exact .inl ⟨task, rest, rfl, rfl⟩
  | nil => exact .inr ⟨rfl, rfl⟩

/-- A thread and the others. -/
theorem exists_split (h : s.workers[i]? = some w) :
    ∃ l r, s.workers = l ++ w :: r ∧ ∀ w', s.workers.set i w' = l ++ w' :: r := by
  obtain ⟨hi, hw⟩ := List.getElem?_eq_some_iff.mp h
  refine ⟨s.workers.take i, s.workers.drop (i + 1), ?_, fun w' => ?_⟩
  · rw [← hw, ← List.drop_eq_getElem_cons hi, List.take_append_drop]
  · rw [List.set_eq_take_append_cons_drop, if_pos hi]

theorem mem_set (h : s.workers[i]? = some w) (w' : Worker T) : w' ∈ s.workers.set i w' :=
  List.mem_set (List.getElem?_eq_some_iff.mp h).1 w'

/-- What runs changes with the one thread. -/
theorem filterMap_set (h : s.workers[i]? = some w) (w' : Worker T) :
    ((s.workers.set i w').filterMap Worker.task? ++ w.task?.toList).Perm (s.inTasks ++ w'.task?.toList) := by
  obtain ⟨l, r, hworkers, hset⟩ := exists_split h
  have hcons (v : Worker T) : (v :: r).filterMap Worker.task? = v.task?.toList ++ r.filterMap Worker.task? := by
    cases v <;> rfl
  rw [inTasks, hset, hworkers, List.filterMap_append, List.filterMap_append, hcons, hcons]
  classical
  rw [List.perm_iff_count]
  intro task
  simp only [List.count_append]
  omega

theorem locked_of_set {w' : Worker T} (h : (s.workers.set i w').any Worker.isDeciding = true)
    (hw : w'.isDeciding = false) : s.locked = true := by
  obtain ⟨v, hv, hdeciding⟩ := List.any_eq_true.mp h
  rcases List.mem_or_eq_of_mem_set hv with hmem | rfl
  · exact List.any_eq_true.mpr ⟨v, hmem, hdeciding⟩
  · exact absurd hdeciding (Bool.eq_false_iff.mp hw)

/-- Every task that was submitted is in the queue, or it was taken from there in its turn by one thread. A queue with
tasks has somebody who looks after it: a call that is about to notify, or a thread that comes by before it sleeps. -/
structure Sound (s : Pool T) : Prop where
  order : s.submitted = s.started ++ s.taskQueue
  tasks : s.started.Perm (s.finished ++ s.inTasks)
  quiet : s.locked = true → s.taskQueue = []
  attended : s.taskQueue ≠ [] → s.submitting ≠ 0 ∨ (∃ w ∈ s.workers, w.Active) ∨ ∀ w ∈ s.workers, w = .returned

theorem sound_start (n : Nat) : Sound (start n : Pool T) where
  order := rfl
  tasks := by
    have hnone : (start n : Pool T).inTasks = [] := by
      rw [inTasks, List.filterMap_eq_nil_iff]
      intro w hw
      rw [List.eq_of_mem_replicate hw]
      rfl
    rw [hnone]
    exact .refl _
  quiet := fun _ => rfl
  attended := fun h => absurd rfl h

namespace Sound

theorem unlocked (h : Sound s) (hqueue : s.taskQueue ≠ []) : s.locked = false :=
  Bool.eq_false_iff.mpr fun hlocked => hqueue (h.quiet hlocked)

/-- A thread that comes back to the mutex, from its sleep or from a task. -/
theorem enter (h : Sound s) (hi : s.workers[i]? = some w) (n : Nat) :
    Sound { s with
      workers := s.workers.set i .entering
      submitting := n
      finished := s.finished ++ w.task?.toList } := by
  refine ⟨h.order, ?_, fun hlocked => h.quiet (locked_of_set hlocked rfl), fun _ => ?_⟩
  · have hset := filterMap_set hi .entering
    rw [show (Worker.entering : Worker T).task?.toList = [] from rfl, List.append_nil] at hset
    rw [List.append_assoc]
    exact h.tasks.trans ((List.perm_append_comm.trans hset).symm.append_left _)
  · exact .inr (.inl ⟨.entering, mem_set hi _, trivial⟩)

/-- A thread that finds no task. -/
theorem rest (h : Sound s) (hi : s.workers[i]? = some w) (hw : w.task? = none) (hqueue : s.taskQueue = [])
    {w' : Worker T} (hw' : w'.task? = none) : Sound { s with workers := s.workers.set i w' } := by
  refine ⟨h.order, ?_, fun _ => hqueue, fun hne => absurd hqueue hne⟩
  have hset := filterMap_set hi w'
  rw [hw, hw', Option.toList_none, List.append_nil, List.append_nil] at hset
  exact h.tasks.trans (hset.symm.append_left _)

theorem take (h : Sound s) (hi : s.workers[i]? = some .entering) (hfree : s.locked = false) : Sound (s.decide i) := by
  rcases s.decide_cases i with ⟨task, rest, hqueue, he⟩ | ⟨hqueue, he⟩
  · rw [he]
    refine ⟨?_, ?_, fun hlocked => ?_, fun _ => .inr (.inl ⟨.running task, mem_set hi _, trivial⟩)⟩
    · simp only [h.order, hqueue, List.append_assoc, List.singleton_append]
    · have hset := filterMap_set hi (.running task)
      rw [show (Worker.entering : Worker T).task?.toList = [] from rfl, List.append_nil] at hset
      refine (h.tasks.append_right [task]).trans ?_
      rw [List.append_assoc]
      exact hset.symm.append_left _
    · exact absurd (hfree.symm.trans (locked_of_set hlocked rfl)) Bool.false_ne_true
  · rw [he]
    refine h.rest hi rfl hqueue ?_
    split <;> rfl

/-- notify_one where nobody sleeps. -/
theorem notifyOne (h : Sound s) (hnone : s.workers.any Worker.isSleeping = false) (n : Nat) :
    Sound { s with submitting := n } := by
  refine ⟨h.order, h.tasks, h.quiet, fun hqueue => .inr ?_⟩
  by_cases hactive : ∃ w ∈ s.workers, w.Active
  · exact .inl hactive
  · refine .inr fun w hw => ?_
    have hdeciding := List.any_eq_false.mp (h.unlocked hqueue) w hw
    have hsleeping := List.any_eq_false.mp hnone w hw
    cases w with
    | entering | running => exact absurd ⟨_, hw, trivial⟩ hactive
    | deciding => exact absurd rfl hdeciding
    | sleeping => exact absurd rfl hsleeping
    | returned => rfl

theorem notifyAll (h : Sound s) (n : Nat) : Sound { s with workers := s.workers.map Worker.awake, stopping := n } := by
  refine ⟨h.order, ?_, fun hlocked => h.quiet ?_, fun hqueue => .inr ?_⟩
  · have hsame : Worker.task? ∘ Worker.awake = (Worker.task? : Worker T → Option T) := funext Worker.task?_awake
    rw [inTasks, List.filterMap_map, hsame]
    exact h.tasks
  · have hsame : Worker.isDeciding ∘ Worker.awake = (Worker.isDeciding : Worker T → Bool) :=
      funext Worker.isDeciding_awake
    rwa [locked, List.any_map, hsame] at hlocked
  · by_cases hreturned : ∀ w ∈ s.workers, w = .returned
    · refine .inr fun w hw => ?_
      obtain ⟨v, hv, rfl⟩ := List.mem_map.mp hw
      rw [hreturned v hv]
      rfl
    · push Not at hreturned
      obtain ⟨w, hw, hne⟩ := hreturned
      have hdeciding := List.any_eq_false.mp (h.unlocked hqueue) w hw
      refine .inl ⟨w.awake, List.mem_map_of_mem hw, ?_⟩
      cases w with
      | entering | sleeping | running => trivial
      | deciding => exact absurd rfl hdeciding
      | returned => exact absurd rfl hne

theorem step (h : Sound s) (hs : s.step a = some t) : Sound t := by
  have hcases := step_cases hs
  cases a with
  | push task =>
      obtain ⟨hfree, rfl⟩ := hcases
      refine ⟨?_, h.tasks, fun hlocked => ?_, fun _ => .inl (Nat.succ_ne_zero _)⟩
      · simp only [h.order, List.append_assoc]
      · exact absurd (hfree.symm.trans hlocked) Bool.false_ne_true
  | notifyOne woken =>
      cases woken with
      | none =>
          obtain ⟨-, hnone, rfl⟩ := hcases
          exact h.notifyOne hnone _
      | some i =>
          obtain ⟨hi, -, rfl⟩ := hcases
          have henter := h.enter hi (s.submitting - 1)
          rwa [show (Worker.sleeping : Worker T).task?.toList = [] from rfl, List.append_nil] at henter
  | take i =>
      obtain ⟨hi, hfree, rfl⟩ := hcases
      exact h.take hi hfree
  | sleep i =>
      obtain ⟨hi, rfl⟩ := hcases
      exact h.rest hi rfl (h.quiet (List.any_eq_true.mpr ⟨_, List.mem_of_getElem? hi, rfl⟩)) rfl
  | wake i =>
      obtain ⟨hi, rfl⟩ := hcases
      have henter := h.enter hi s.submitting
      rwa [show (Worker.sleeping : Worker T).task?.toList = [] from rfl, List.append_nil] at henter
  | finish i =>
      obtain ⟨task, hi, rfl⟩ := hcases
      exact h.enter hi s.submitting
  | setStop =>
      rw [show t = { s with stop := true, stopping := s.stopping + 1 } from hcases]
      exact ⟨h.order, h.tasks, h.quiet, h.attended⟩
  | notifyAll =>
      obtain ⟨-, rfl⟩ := hcases
      exact h.notifyAll _

theorem of_run (h : Sound s) {guard : Pool T → PoolAction T → Prop} (hrun : Run Pool.step guard s as t) : Sound t :=
  hrun.invariant (fun _ _ _ hsound _ hs => hsound.step hs) h

/-- Where nothing happens any more, the queue has been emptied or there is no thread left. -/
theorem of_stuck (h : Sound s) (hstuck : s.Stuck) :
    (∀ w ∈ s.workers, w = .sleeping ∨ w = .returned) ∧ s.stopping = 0 ∧
      (s.taskQueue = [] ∨ ∀ w ∈ s.workers, w = .returned) := by
  have hfree : s.locked = false := by
    refine List.any_eq_false.mpr fun w hw hdeciding => ?_
    obtain ⟨i, hi⟩ := List.getElem?_of_mem hw
    cases w with
    | deciding =>
        have hnone := hstuck (.sleep i) trivial
        simp [Pool.step, hi] at hnone
    | entering | sleeping | running | returned => cases hdeciding
  have hidle (w : Worker T) (hw : w ∈ s.workers) : w = .sleeping ∨ w = .returned := by
    obtain ⟨i, hi⟩ := List.getElem?_of_mem hw
    cases w with
    | entering =>
        have hnone := hstuck (.take i) trivial
        simp [Pool.step, hi, hfree] at hnone
    | deciding => exact absurd rfl (List.any_eq_false.mp hfree _ hw)
    | sleeping => exact .inl rfl
    | running task =>
        have hnone := hstuck (.finish i) trivial
        simp [Pool.step, hi] at hnone
    | returned => exact .inr rfl
  have hstopping : s.stopping = 0 := by
    by_contra hne
    have hnone := hstuck .notifyAll trivial
    rw [Pool.step, if_neg hne] at hnone
    cases hnone
  have hsubmitting : s.submitting = 0 := by
    by_contra hne
    cases hsleeping : s.workers.any Worker.isSleeping with
    | false =>
        have hnone := hstuck (.notifyOne none) trivial
        simp [Pool.step, hne, hsleeping] at hnone
    | true =>
        obtain ⟨w, hw, hasleep⟩ := List.any_eq_true.mp hsleeping
        obtain ⟨i, hi⟩ := List.getElem?_of_mem hw
        cases w with
        | sleeping =>
            have hnone := hstuck (.notifyOne (some i)) trivial
            simp [Pool.step, hi, hne] at hnone
        | entering | deciding | running | returned => cases hasleep
  refine ⟨hidle, hstopping, ?_⟩
  by_cases hqueue : s.taskQueue = []
  · exact .inl hqueue
  · rcases h.attended hqueue with hne | ⟨w, hw, hactive⟩ | hreturned
    · exact absurd hsubmitting hne
    · rcases hidle w hw with rfl | rfl <;> exact absurd hactive id
    · exact .inr hreturned

end Sound

theorem stuck_of_idle (hidle : ∀ w ∈ s.workers, w = .sleeping ∨ w = .returned) (hsubmitting : s.submitting = 0)
    (hstopping : s.stopping = 0) : s.Stuck := by
  intro a ha
  have hget {i : Nat} {w : Worker T} (hi : s.workers[i]? = some w) : w = .sleeping ∨ w = .returned :=
    hidle w (List.mem_of_getElem? hi)
  cases hs : s.step a with
  | none => rfl
  | some t =>
      have hcases := step_cases hs
      cases a with
      | push | wake | setStop => exact absurd ha id
      | notifyOne woken =>
          cases woken with
          | none => exact absurd hsubmitting hcases.1
          | some i => exact absurd hsubmitting hcases.2.1
      | take i | sleep i => rcases hget hcases.1 with he | he <;> cases he
      | finish i =>
          obtain ⟨task, hi, -⟩ := hcases
          rcases hget hi with he | he <;> cases he
      | notifyAll => exact absurd hstopping hcases.1

/-! What is left to do. -/

/-- How many steps a thread has before it, from where it is to its sleep. -/
def weight : Worker T → Nat
  | .sleeping | .returned => 0
  | .deciding => 1
  | .entering => 2
  | .running _ => 3

/-- A bound for the steps that the pool can take on its own. -/
def left (s : Pool T) : Nat :=
  2 * s.taskQueue.length + 3 * s.submitting + (2 * s.workers.length + 1) * s.stopping + (s.workers.map weight).sum

theorem sum_weight_set (h : s.workers[i]? = some w) (w' : Worker T) :
    ((s.workers.set i w').map weight).sum + weight w = (s.workers.map weight).sum + weight w' := by
  obtain ⟨l, r, hworkers, hset⟩ := exists_split h
  rw [hset, hworkers]
  simp only [List.map_append, List.map_cons, List.sum_append, List.sum_cons]
  omega

theorem sum_weight_awake (ws : List (Worker T)) :
    ((ws.map Worker.awake).map weight).sum ≤ (ws.map weight).sum + 2 * ws.length := by
  induction ws with
  | nil => exact Nat.le_refl 0
  | cons w ws ih =>
      have hw : weight w.awake ≤ weight w + 2 := by cases w <;> simp [Worker.awake, weight]
      simp only [List.map_cons, List.sum_cons, List.length_cons]
      omega

theorem left_step (ha : s.Own a) (hs : s.step a = some t) : t.left < s.left := by
  have hcases := step_cases hs
  cases a with
  | push | wake | setStop => exact absurd ha id
  | notifyOne woken =>
      cases woken with
      | none =>
          obtain ⟨hne, -, rfl⟩ := hcases
          simp only [left]
          omega
      | some i =>
          obtain ⟨hi, hne, rfl⟩ := hcases
          have hsum := sum_weight_set hi .entering
          simp only [left, List.length_set, weight] at hsum ⊢
          omega
  | take i =>
      obtain ⟨hi, -, rfl⟩ := hcases
      rcases s.decide_cases i with ⟨task, rest, hqueue, he⟩ | ⟨hqueue, he⟩
      · have hsum := sum_weight_set hi (.running task)
        simp only [he, left, List.length_set, weight, hqueue, List.length_cons] at hsum ⊢
        omega
      · have hsum := sum_weight_set hi (if s.stop then .returned else .deciding)
        have hlight : weight (if s.stop then (.returned : Worker T) else .deciding) ≤ 1 := by
          split
          next => exact Nat.zero_le 1
          next => exact Nat.le_refl 1
        simp only [he, left, List.length_set]
        have hentering : weight (.entering : Worker T) = 2 := rfl
        omega
  | sleep i =>
      obtain ⟨hi, rfl⟩ := hcases
      have hsum := sum_weight_set hi .sleeping
      simp only [left, List.length_set, weight] at hsum ⊢
      omega
  | finish i =>
      obtain ⟨task, hi, rfl⟩ := hcases
      have hsum := sum_weight_set hi .entering
      simp only [left, List.length_set, weight] at hsum ⊢
      omega
  | notifyAll =>
      obtain ⟨hne, rfl⟩ := hcases
      have hsum := sum_weight_awake s.workers
      obtain ⟨n, hn⟩ := Nat.exists_eq_succ_of_ne_zero hne
      simp only [left, List.length_map, hn, Nat.succ_sub_one, Nat.mul_succ]
      omega

/-- Where a thread that had not returned is left, the queue was empty when the last one returned. -/
theorem drained_step (h : (∃ w ∈ s.workers, w ≠ .returned) ∨ s.taskQueue = []) (ha : s.Own a) (hs : s.step a = some t) :
    (∃ w ∈ t.workers, w ≠ .returned) ∨ t.taskQueue = [] := by
  have hcases := step_cases hs
  cases a with
  | push | wake | setStop => exact absurd ha id
  | notifyOne woken =>
      cases woken with
      | none =>
          obtain ⟨-, -, rfl⟩ := hcases
          exact h
      | some i =>
          obtain ⟨hi, -, rfl⟩ := hcases
          exact .inl ⟨_, mem_set hi _, by simp⟩
  | take i =>
      obtain ⟨hi, -, rfl⟩ := hcases
      rcases s.decide_cases i with ⟨task, rest, hqueue, he⟩ | ⟨hqueue, he⟩
      · rw [he]
        exact .inl ⟨_, mem_set hi _, by simp⟩
      · rw [he]
        exact .inr hqueue
  | sleep i =>
      obtain ⟨hi, rfl⟩ := hcases
      exact .inl ⟨_, mem_set hi _, by simp⟩
  | finish i =>
      obtain ⟨task, hi, rfl⟩ := hcases
      exact .inl ⟨_, mem_set hi _, by simp⟩
  | notifyAll =>
      obtain ⟨-, rfl⟩ := hcases
      rcases h with ⟨w, hw, hne⟩ | hqueue
      · refine .inl ⟨w.awake, List.mem_map_of_mem hw, ?_⟩
        cases w with
        | returned => exact absurd rfl hne
        | entering | deciding | sleeping | running => simp [Worker.awake]
      · exact .inr hqueue

theorem submitted_step (ha : s.Own a) (hs : s.step a = some t) : t.submitted = s.submitted := by
  have hcases := step_cases hs
  cases a with
  | push | wake | setStop => exact absurd ha id
  | notifyOne woken =>
      cases woken with
      | none => rw [hcases.2.2]
      | some i => rw [hcases.2.2]
  | take i =>
      rw [hcases.2.2]
      rcases s.decide_cases i with ⟨task, rest, -, he⟩ | ⟨-, he⟩ <;> rw [he]
  | sleep i | notifyAll => rw [hcases.2]
  | finish i =>
      obtain ⟨task, -, rfl⟩ := hcases
      rfl

/-- Only the end of a task adds to what is finished. -/
theorem finished_step (ha : ∀ i, a ≠ .finish i) (hs : s.step a = some t) : t.finished = s.finished := by
  have hcases := step_cases hs
  cases a with
  | push | sleep | wake | notifyAll => rw [hcases.2]
  | notifyOne woken =>
      cases woken with
      | none => rw [hcases.2.2]
      | some i => rw [hcases.2.2]
  | take i =>
      rw [hcases.2.2]
      rcases s.decide_cases i with ⟨task, rest, -, he⟩ | ⟨-, he⟩ <;> rw [he]
  | finish i => exact absurd rfl (ha i)
  | setStop => rw [show t = { s with stop := true, stopping := s.stopping + 1 } from hcases]

theorem inTasks_of_stuck (hidle : ∀ w ∈ s.workers, w = .sleeping ∨ w = .returned) : s.inTasks = [] := by
  rw [inTasks, List.filterMap_eq_nil_iff]
  intro w hw
  rcases hidle w hw with rfl | rfl <;> rfl

/-- In every order of the steps, the tasks that were submitted are taken from the queue in their order, each by one
thread. Left to itself the pool comes to rest, and then every task has been run, unless all threads were gone before. -/
theorem tasks_run_once {n : Nat} (h : Run step (fun _ _ => True) (start n) as s) :
    s.submitted = s.started ++ s.taskQueue ∧ s.started.Perm (s.finished ++ s.inTasks) ∧
      ∀ bs t, Run step Own s bs t → bs.length + t.left ≤ s.left ∧
        (t.Stuck → (∃ w ∈ s.workers, w ≠ .returned) → t.finished.Perm s.submitted) := by
  have hsound := (sound_start n).of_run h
  refine ⟨hsound.order, hsound.tasks, fun bs t hrun => ⟨?_, fun hstuck hthread => ?_⟩⟩
  · exact hrun.length_le left fun _ _ _ ha hs => left_step ha hs
  · have hsound' := hsound.of_run hrun
    obtain ⟨hidle, -, hqueue⟩ := hsound'.of_stuck hstuck
    have hdrained : (∃ w ∈ t.workers, w ≠ .returned) ∨ t.taskQueue = [] :=
      hrun.invariant (I := fun s => (∃ w ∈ s.workers, w ≠ .returned) ∨ s.taskQueue = [])
        (fun _ _ _ hi ha hs => drained_step hi ha hs) (.inl hthread)
    have hsubmitted : t.submitted = s.submitted :=
      hrun.invariant (I := fun t => t.submitted = s.submitted)
        (fun _ _ _ hi ha hs => (submitted_step ha hs).trans hi) rfl
    have hempty : t.taskQueue = [] := by
      rcases hdrained with ⟨w, hw, hne⟩ | hempty
      · exact hqueue.resolve_right fun hreturned => hne (hreturned w hw)
      · exact hempty
    have htasks := hsound'.tasks
    rw [inTasks_of_stuck hidle, List.append_nil] at htasks
    rw [← hsubmitted, hsound'.order, hempty, List.append_nil]
    exact htasks.symm

/-- The thread that took the second task is done first. -/
theorem tasks_run_once_two :
    ∃ s t : Pool Nat, Run step (fun _ _ => True) (start 2) [.push 7, .push 8, .take 0] s ∧
      Run step Own s
          [.notifyOne none, .take 1, .finish 1, .notifyOne none, .finish 0, .take 0, .sleep 0, .take 1, .sleep 1] t ∧
      t.Stuck ∧ t.finished = [8, 7] ∧ s.submitted = [7, 8] ∧ t.finished.Perm s.submitted := by
  obtain ⟨s, hrun, hs⟩ := exists_run_of_exec step (fun _ _ => True) (start 2) [.push 7, .push 8, .take 0]
    (fun s : Pool Nat => s = ⟨⟨[.running 7, .entering], [8], false⟩, 2, 0, [7, 8], [7], []⟩) (by decide)
  obtain rfl := of_decide_eq_true hs
  obtain ⟨t, hown, ht⟩ := exists_run_of_exec step Own ⟨⟨[.running 7, .entering], [8], false⟩, 2, 0, [7, 8], [7], []⟩
    [.notifyOne none, .take 1, .finish 1, .notifyOne none, .finish 0, .take 0, .sleep 0, .take 1, .sleep 1]
    (fun t : Pool Nat => t = ⟨⟨[.sleeping, .sleeping], [], false⟩, 0, 0, [7, 8], [7, 8], [8, 7]⟩) (by decide)
  obtain rfl := of_decide_eq_true ht
  have hstuck : (⟨⟨[.sleeping, .sleeping], [], false⟩, 0, 0, [7, 8], [7, 8], [8, 7]⟩ : Pool Nat).Stuck :=
    stuck_of_idle (by simp) rfl rfl
  have hfinished := ((tasks_run_once hrun).2.2 _ _ hown).2 hstuck ⟨.entering, by simp, by simp⟩
  exact ⟨_, _, hrun, hown, hstuck, rfl, rfl, hfinished⟩

theorem workers_one (hone : s.workers.length = 1) (hi : s.workers[i]? = some w) :
    s.workers = [w] ∧ ∀ w', s.workers.set i w' = [w'] := by
  obtain ⟨l, r, hworkers, hset⟩ := exists_split hi
  rw [hworkers, List.length_append, List.length_cons] at hone
  obtain rfl : l = [] := List.length_eq_zero_iff.mp (by omega)
  obtain rfl : r = [] := List.length_eq_zero_iff.mp (by omega)
  exact ⟨hworkers, hset⟩

/-- A pool of one thread runs the tasks one after the other. -/
theorem finished_of_one {guard : Pool T → PoolAction T → Prop} (h : Run step guard (start 1) as s) :
    s.workers.length = 1 ∧ s.started = s.finished ++ s.inTasks := by
  refine h.invariant (I := fun s => s.workers.length = 1 ∧ s.started = s.finished ++ s.inTasks) ?_ ⟨rfl, rfl⟩
  rintro s a t ⟨hone, horder⟩ - hs
  have hcases := step_cases hs
  cases a with
  | push task =>
      obtain ⟨-, rfl⟩ := hcases
      exact ⟨hone, horder⟩
  | notifyOne woken =>
      cases woken with
      | none =>
          obtain ⟨-, -, rfl⟩ := hcases
          exact ⟨hone, horder⟩
      | some i =>
          obtain ⟨hi, -, rfl⟩ := hcases
          obtain ⟨hworkers, hset⟩ := workers_one hone hi
          rw [inTasks, hworkers] at horder
          simp only [inTasks, hset]
          exact ⟨rfl, horder⟩
  | take i =>
      obtain ⟨hi, -, rfl⟩ := hcases
      obtain ⟨hworkers, hset⟩ := workers_one hone hi
      rw [inTasks, hworkers] at horder
      rcases s.decide_cases i with ⟨task, rest, -, he⟩ | ⟨-, he⟩
      · simp only [he, inTasks, hset]
        rw [horder]
        exact ⟨rfl, by simp [Worker.task?]⟩
      · simp only [he, inTasks, hset]
        rw [horder]
        refine ⟨rfl, ?_⟩
        cases s.stop <;> rfl
  | sleep i | wake i =>
      obtain ⟨hi, rfl⟩ := hcases
      obtain ⟨hworkers, hset⟩ := workers_one hone hi
      rw [inTasks, hworkers] at horder
      simp only [inTasks, hset]
      exact ⟨rfl, horder⟩
  | finish i =>
      obtain ⟨task, hi, rfl⟩ := hcases
      obtain ⟨hworkers, hset⟩ := workers_one hone hi
      rw [inTasks, hworkers] at horder
      simp only [inTasks, hset]
      rw [horder]
      exact ⟨rfl, by simp [Worker.task?]⟩
  | setStop =>
      rw [show t = { s with stop := true, stopping := s.stopping + 1 } from hcases]
      exact ⟨hone, horder⟩
  | notifyAll =>
      obtain ⟨-, rfl⟩ := hcases
      have hsame : Worker.task? ∘ Worker.awake = (Worker.task? : Worker T → Option T) := funext Worker.task?_awake
      refine ⟨(List.length_map _).trans hone, ?_⟩
      rw [horder, inTasks, inTasks, List.filterMap_map, hsame]

/-! What Stop leaves behind. -/

theorem countP_set (p : Worker T → Bool) (h : s.workers[i]? = some w) (w' : Worker T) :
    (s.workers.set i w').countP p + (if p w then 1 else 0) = s.workers.countP p + if p w' then 1 else 0 := by
  obtain ⟨l, r, hworkers, hset⟩ := exists_split h
  rw [hset, hworkers]
  simp only [List.countP_append, List.countP_cons]
  omega

/-- Asleep, or on the way to sleep. -/
def isIdle (w : Worker T) : Bool := w.isSleeping || w.isDeciding

/-- stop_ is set and has been announced. At most so many threads are idle, and exactly so many where no call of Submit
was about to wake one of them. -/
structure Stopped (n : Nat) (quiet : Prop) (s : Pool T) : Prop where
  stop : s.stop = true
  stopping : s.stopping = 0
  idle : s.workers.countP isIdle ≤ n
  exact : quiet → s.submitting = 0 ∧ s.workers.countP isIdle = n

namespace Stopped

variable {n : Nat} {quiet : Prop}

theorem move (h : Stopped n quiet s) (hi : s.workers[i]? = some w) {w' : Worker T}
    (he : t.workers = s.workers.set i w') (hidle : isIdle w' = isIdle w) (hstop : t.stop = s.stop)
    (hstopping : t.stopping = s.stopping) (hsubmitting : t.submitting = s.submitting) : Stopped n quiet t := by
  have hcount := countP_set isIdle hi w'
  rw [hidle, Nat.add_right_cancel_iff, ← he] at hcount
  exact ⟨hstop.trans h.stop, hstopping.trans h.stopping, hcount ▸ h.idle,
    fun hquiet => ⟨hsubmitting.trans (h.exact hquiet).1, hcount.trans (h.exact hquiet).2⟩⟩

/-- No thread goes to sleep any more that had not made up its mind before. -/
theorem step (h : Stopped n quiet s) (ha : s.Own a) (hs : s.step a = some t) : Stopped n quiet t := by
  have hcases := step_cases hs
  cases a with
  | push | wake | setStop => exact absurd ha id
  | notifyOne woken =>
      cases woken with
      | none =>
          obtain ⟨hne, -, rfl⟩ := hcases
          exact ⟨h.stop, h.stopping, h.idle, fun hquiet => absurd (h.exact hquiet).1 hne⟩
      | some i =>
          obtain ⟨hi, hne, rfl⟩ := hcases
          have hcount : (s.workers.set i .entering).countP isIdle + 1 = s.workers.countP isIdle + 0 :=
            countP_set isIdle hi .entering
          have hidle := h.idle
          refine ⟨h.stop, h.stopping, ?_, fun hquiet => absurd (h.exact hquiet).1 hne⟩
          change (s.workers.set i .entering).countP isIdle ≤ n
          omega
  | take i =>
      obtain ⟨hi, -, rfl⟩ := hcases
      rcases s.decide_cases i with ⟨task, rest, -, he⟩ | ⟨-, he⟩
      · rw [he]
        exact h.move hi rfl rfl rfl rfl rfl
      · rw [he]
        exact h.move hi rfl (by rw [h.stop]; rfl) rfl rfl rfl
  | sleep i =>
      obtain ⟨hi, rfl⟩ := hcases
      exact h.move hi rfl rfl rfl rfl rfl
  | finish i =>
      obtain ⟨task, hi, rfl⟩ := hcases
      exact h.move hi rfl rfl rfl rfl rfl
  | notifyAll => exact absurd h.stopping hcases.1

end Stopped

end Pool

end MiniStorage.Net
