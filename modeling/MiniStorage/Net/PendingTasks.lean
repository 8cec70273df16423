import MiniStorage.Net.ThreadPool

namespace MiniStorage.Net

open Runs

variable {T : Type*}

/-- Where the thread of the loop is: at the test of quit_, in epoll_wait, behind the events and before
HandlePendingTasks, with the tasks that it took, out of Loop. -/
inductive LoopPhase (T : Type*)
  | testing
  | polling
  | dispatched
  | running (tasks : List T)
  | returned
deriving DecidableEq, Repr

def LoopPhase.hand : LoopPhase T → List T
  | .running tasks => tasks
  | _ => []

/-- pending_tasks_, quit_, the counter of the eventfd and the thread; the calls of RunInLoop and Quit that are about to
write to the eventfd, and what became of the tasks. -/
structure TaskLoop (T : Type*) where
  pendingTasks : List T := []
  quit : Bool := false
  counter : Nat := 0
  phase : LoopPhase T := .testing
  waking : Nat := 0
  submitted : List T := []
  ran : List T := []
deriving DecidableEq, Repr

/-- RunInLoop is `post` and `write`, Quit is `setQuit` and `write`. -/
inductive LoopAction (T : Type*)
  | post (task : T)
  | setQuit
  | write
  | test
  | poll (heard : Bool)
  | swap
  | runTask
deriving DecidableEq, Repr

namespace TaskLoop

def step (s : TaskLoop T) : LoopAction T → Option (TaskLoop T)
  | .post task =>
      some { s with
        pendingTasks := s.pendingTasks ++ [task]
        waking := s.waking + 1
        submitted := s.submitted ++ [task] }
  | .setQuit => some { s with quit := true, waking := s.waking + 1 }
  | .write => if s.waking = 0 then none else some { s with waking := s.waking - 1, counter := s.counter + 1 }
  | .test =>
      match s.phase with
      | .testing => some { s with phase := if s.quit then .returned else .polling }
      | _ => none
  | .poll heard =>
      match s.phase with
      | .polling =>
          -- HandleWakeUp reads the whole counter
          if heard then if s.counter = 0 then none else some { s with phase := .dispatched, counter := 0 }
          -- the 10 ms are over, or other events came
          else some { s with phase := .dispatched }
      | _ => none
  | .swap =>
      match s.phase with
      | .dispatched => some { s with phase := .running s.pendingTasks, pendingTasks := [] }
      | _ => none
  | .runTask =>
      match s.phase with
      | .running [] => some { s with phase := .testing }
      | .running (task :: tasks) => some { s with phase := .running tasks, ran := s.ran ++ [task] }
      | _ => none

/-- The tasks that were taken and not run yet. -/
def inHand (s : TaskLoop T) : List T := s.phase.hand

/-- The thread of the loop and the calls that have begun. -/
def Own (_ : TaskLoop T) : LoopAction T → Prop
  | .post _ | .setQuit => False
  | _ => True

instance (s : TaskLoop T) (a : LoopAction T) : Decidable (s.Own a) := by
  cases a <;> unfold Own <;> infer_instance

variable {s t u : TaskLoop T} {a : LoopAction T} {as bs : List (LoopAction T)}

theorem step_cases (hs : s.step a = some t) :
    match a with
    | .post task => t = { s with
        pendingTasks := s.pendingTasks ++ [task]
        waking := s.waking + 1
        submitted := s.submitted ++ [task] }
    | .setQuit => t = { s with quit := true, waking := s.waking + 1 }
    | .write => s.waking ≠ 0 ∧ t = { s with waking := s.waking - 1, counter := s.counter + 1 }
    | .test => s.phase = .testing ∧ t = { s with phase := if s.quit then .returned else .polling }
    | .poll _ => s.phase = .polling ∧ ∃ n, t = { s with phase := .dispatched, counter := n }
    | .swap => s.phase = .dispatched ∧ t = { s with phase := .running s.pendingTasks, pendingTasks := [] }
    | .runTask => (s.phase = .running [] ∧ t = { s with phase := .testing }) ∨
        ∃ task tasks, s.phase = .running (task :: tasks) ∧
          t = { s with phase := .running tasks, ran := s.ran ++ [task] } := by
  cases a with
  | post task => exact (Option.some.inj hs).symm
  | setQuit => exact (Option.some.inj hs).symm
  | write =>
      rw [step, Option.ite_none_left_eq_some] at hs
      exact ⟨hs.1, (Option.some.inj hs.2).symm⟩
  | test | swap =>
      rw [step] at hs
      split at hs
      next hphase => exact ⟨hphase, (Option.some.inj hs).symm⟩
      next => cases hs
  | poll heard =>
      rw [step] at hs
      split at hs
      next hphase =>
        refine ⟨hphase, ?_⟩
        cases heard with
        | false => exact ⟨s.counter, (Option.some.inj hs).symm⟩
        | true =>
            rw [if_pos rfl, Option.ite_none_left_eq_some] at hs
            exact ⟨0, (Option.some.inj hs.2).symm⟩
      next => cases hs
  | runTask =>
      rw [step] at hs
      split at hs
      next hphase => exact .inl ⟨hphase, (Option.some.inj hs).symm⟩
      next task tasks hphase => exact .inr ⟨task, tasks, hphase, (Option.some.inj hs).symm⟩
      next => cases hs

/-- Tasks are taken in their order. While some are pending, the eventfd has been written or is about to be, unless the
thread is on the way to take them. -/
structure Sound (s : TaskLoop T) : Prop where
  order : s.submitted = s.ran ++ s.inHand ++ s.pendingTasks
  heard : s.pendingTasks ≠ [] → s.counter ≠ 0 ∨ s.waking ≠ 0 ∨ s.phase = .dispatched

theorem sound_start : Sound ({} : TaskLoop T) := ⟨rfl, fun h => absurd rfl h⟩

theorem submitted_eq (ha : ∀ task, a ≠ .post task) (hs : s.step a = some t) : t.submitted = s.submitted := by
  have hcases := step_cases hs
  cases a with
  | post task => exact absurd rfl (ha task)
  | setQuit => rw [show t = { s with quit := true, waking := s.waking + 1 } from hcases]
  | write | test | swap => rw [hcases.2]
  | poll heard =>
      obtain ⟨-, n, rfl⟩ := hcases
      rfl
  | runTask => rcases hcases with ⟨-, rfl⟩ | ⟨task, tasks, -, rfl⟩ <;> rfl

theorem submitted_step (hs : s.step a = some t) : s.submitted <+: t.submitted := by
  cases a with
  | post task =>
      rw [show t = _ from step_cases hs]
      exact List.prefix_append _ _
  | setQuit | write | test | poll | swap | runTask =>
      have hsame : t.submitted = s.submitted := submitted_eq (by simp) hs
      exact hsame ▸ List.prefix_refl _

namespace Sound

theorem announced (h : Sound s) (hphase : s.phase ≠ .dispatched) (hpending : s.pendingTasks ≠ []) :
    s.counter ≠ 0 ∨ s.waking ≠ 0 := by
  rcases h.heard hpending with hcounter | hwaking | hdispatched
  · exact .inl hcounter
  · exact .inr hwaking
  · exact absurd hdispatched hphase

theorem step (h : Sound s) (hs : s.step a = some t) : Sound t := by
  have hcases := step_cases hs
  have horder := h.order
  cases a with
  | post task =>
      rw [show t = _ from hcases]
      refine ⟨?_, fun _ => .inr (.inl (Nat.succ_ne_zero _))⟩
      change s.submitted ++ [task] = s.ran ++ s.inHand ++ (s.pendingTasks ++ [task])
      rw [horder, List.append_assoc _ s.pendingTasks]
  | setQuit =>
      rw [show t = _ from hcases]
      exact ⟨horder, fun _ => .inr (.inl (Nat.succ_ne_zero _))⟩
  | write =>
      obtain ⟨-, rfl⟩ := hcases
      exact ⟨horder, fun _ => .inl (Nat.succ_ne_zero _)⟩
  | test =>
      obtain ⟨hphase, rfl⟩ := hcases
      rw [inHand, hphase] at horder
      refine ⟨?_, fun hpending => ?_⟩
      · rw [inHand]
        cases s.quit <;> exact horder
      · rw [← or_assoc]
        exact .inl (h.announced (by simp [hphase]) hpending)
  | poll heard =>
      obtain ⟨hphase, n, rfl⟩ := hcases
      rw [inHand, hphase] at horder
      exact ⟨horder, fun _ => .inr (.inr rfl)⟩
  | swap =>
      obtain ⟨hphase, rfl⟩ := hcases
      rw [inHand, hphase] at horder
      refine ⟨?_, fun hpending => absurd rfl hpending⟩
      rw [horder]
      simp [inHand, LoopPhase.hand]
  | runTask =>
      rcases hcases with ⟨hphase, rfl⟩ | ⟨task, tasks, hphase, rfl⟩
      · rw [inHand, hphase] at horder
        refine ⟨horder, fun hpending => ?_⟩
        rw [← or_assoc]
        exact .inl (h.announced (by simp [hphase]) hpending)
      · rw [inHand, hphase] at horder
        refine ⟨?_, fun hpending => ?_⟩
        · rw [horder]
          simp [inHand, LoopPhase.hand]
        · rw [← or_assoc]
          exact .inl (h.announced (by simp [hphase]) hpending)

theorem of_run (h : Sound s) {guard : TaskLoop T → LoopAction T → Prop} (hrun : Run TaskLoop.step guard s as t) :
    Sound t :=
  hrun.invariant (fun _ _ _ hsound _ hs => hsound.step hs) h

end Sound

/-- A step of the thread of the loop. -/
def isLoop : LoopAction T → Bool
  | .test | .poll _ | .swap | .runTask => true
  | _ => false

/-- The steps of the thread before it takes what is pending. -/
def phaseSteps : LoopPhase T → Nat
  | .dispatched => 1
  | .polling => 2
  | .testing => 3
  | .running _ | .returned => 4

/-- The steps to the first `k` tasks, with `ran` of them run and `hand` in hand. -/
def remaining (k ran hand steps : Nat) : Nat := if k ≤ ran + hand then k - ran else k - ran + steps

/-- How many steps of the thread there are before the first `k` tasks have been run. -/
def ahead (k : Nat) (s : TaskLoop T) : Nat := remaining k s.ran.length s.inHand.length (phaseSteps s.phase)

theorem ahead_eq {p : LoopPhase T} (hphase : s.phase = p) (k : Nat) :
    ahead k s = remaining k s.ran.length p.hand.length (phaseSteps p) := by
  rw [ahead, inHand, hphase]

theorem remaining_phase {k ran p q : Nat} (h : q < p) : remaining k ran 0 q ≤ remaining k ran 0 p - 1 := by
  rw [remaining, remaining]
  split <;> omega

theorem remaining_swap {k ran hand p : Nat} (h : k ≤ ran + hand) :
    remaining k ran hand p ≤ remaining k ran 0 1 - 1 := by
  rw [remaining, remaining, if_pos h]
  split <;> omega

theorem remaining_run (k ran hand p : Nat) : remaining k (ran + 1) hand p ≤ remaining k ran (hand + 1) p - 1 := by
  rw [remaining, remaining]
  split <;> split <;> omega

/-- The loop goes on, with the first `k` tasks submitted. -/
structure Going (k : Nat) (s : TaskLoop T) : Prop where
  sound : Sound s
  submitted : k ≤ s.submitted.length
  quit : s.quit = false
  phase : s.phase ≠ .returned

theorem Going.step {k : Nat} (h : Going k s) (ha : a ≠ .setQuit) (hs : s.step a = some t) :
    Going k t ∧ ahead k t ≤ ahead k s - if isLoop a then 1 else 0 := by
  have hcases := step_cases hs
  have hsound := h.sound.step hs
  have hk := h.submitted
  have hlength := congrArg List.length h.sound.order
  simp only [List.length_append] at hlength
  cases a with
  | post task =>
      rw [show t = _ from hcases] at hsound ⊢
      refine ⟨⟨hsound, ?_, h.quit, h.phase⟩, Nat.le_refl _⟩
      rw [List.length_append]
      omega
  | setQuit => exact absurd rfl ha
  | write =>
      obtain ⟨-, rfl⟩ := hcases
      exact ⟨⟨hsound, hk, h.quit, h.phase⟩, Nat.le_refl _⟩
  | test =>
      obtain ⟨hphase, rfl⟩ := hcases
      refine ⟨⟨hsound, hk, h.quit, by simp [h.quit]⟩, ?_⟩
      have hpolling : (if s.quit then .returned else .polling) = (.polling : LoopPhase T) := by rw [h.quit]; rfl
      rw [ahead_eq hphase, hpolling, ahead_eq rfl]
      exact remaining_phase (Nat.lt_succ_self 2)
  | poll heard =>
      obtain ⟨hphase, n, rfl⟩ := hcases
      refine ⟨⟨hsound, hk, h.quit, by simp⟩, ?_⟩
      rw [ahead_eq hphase, ahead_eq rfl]
      exact remaining_phase (Nat.lt_succ_self 1)
  | swap =>
      obtain ⟨hphase, rfl⟩ := hcases
      refine ⟨⟨hsound, hk, h.quit, by simp⟩, ?_⟩
      rw [inHand, hphase] at hlength
      rw [ahead_eq hphase, ahead_eq rfl]
      exact remaining_swap (Nat.le_trans hk (Nat.le_of_eq hlength))
  | runTask =>
      rcases hcases with ⟨hphase, rfl⟩ | ⟨task, tasks, hphase, rfl⟩
      · refine ⟨⟨hsound, hk, h.quit, by simp⟩, ?_⟩
        rw [ahead_eq hphase, ahead_eq rfl]
        exact remaining_phase (Nat.lt_succ_self 3)
      · refine ⟨⟨hsound, hk, h.quit, by simp⟩, ?_⟩
        rw [ahead_eq hphase, ahead_eq rfl, List.length_append]
        exact remaining_run k s.ran.length tasks.length 4

theorem Going.of_run {k : Nat} (h : Going k s) (hrun : Run TaskLoop.step (fun _ a => a ≠ .setQuit) s bs t) :
    Going k t ∧ ahead k t ≤ ahead k s - bs.countP isLoop := by
  induction hrun with
  | nil => exact ⟨h, Nat.le_refl _⟩
  | snoc _ ha hs ih =>
      obtain ⟨hgoing, hahead⟩ := ih
      obtain ⟨hgoing', hahead'⟩ := hgoing.step ha hs
      refine ⟨hgoing', ?_⟩
      rw [List.countP_append, List.countP_singleton]
      omega

/-- Tasks run in the order in which they were submitted, each once, and epoll_wait never waits for its 10 ms while one
is pending. As long as nobody quits, what was submitted at some time has been run after that many steps of the thread,
whatever comes in meanwhile. -/
theorem posted_run_in_order (h : Run step (fun _ _ => True) {} as s) :
    s.submitted = s.ran ++ s.inHand ++ s.pendingTasks ∧
      (s.phase = .polling → s.pendingTasks ≠ [] → s.counter ≠ 0 ∨ s.waking ≠ 0) ∧
      (s.quit = false → s.phase ≠ .returned → ∀ bs t, Run step (fun _ a => a ≠ .setQuit) s bs t →
        s.inHand.length + s.pendingTasks.length + 4 ≤ bs.countP isLoop → s.submitted <+: t.ran) := by
  have hsound := sound_start.of_run h
  refine ⟨hsound.order, fun hphase => hsound.announced (by simp [hphase]), fun hquit hphase bs t hrun hsteps => ?_⟩
  have hgoing : Going s.submitted.length s := ⟨hsound, Nat.le_refl _, hquit, hphase⟩
  obtain ⟨hgoing', hahead⟩ := hgoing.of_run hrun
  have hlength := congrArg List.length hsound.order
  simp only [List.length_append] at hlength
  have hstart : ahead s.submitted.length s ≤ s.inHand.length + s.pendingTasks.length + 4 := by
    have hfour : phaseSteps s.phase ≤ 4 := by cases s.phase <;> simp [phaseSteps]
    rw [ahead, remaining]
    split <;> omega
  have hzero : ahead s.submitted.length t = 0 := by omega
  have hran : s.submitted.length ≤ t.ran.length := by
    have hpos : t.phase ≠ .returned → 0 < phaseSteps t.phase := by cases t.phase <;> simp [phaseSteps]
    have hpos := hpos hgoing'.phase
    rw [ahead, remaining] at hzero
    split at hzero <;> omega
  have hprefix : s.submitted <+: t.submitted :=
    hrun.invariant (I := fun t => s.submitted <+: t.submitted) (fun _ _ _ hi _ hs => hi.trans (submitted_step hs))
      (List.prefix_refl _)
  rw [hgoing'.sound.order, List.append_assoc] at hprefix
  exact List.prefix_of_prefix_length_le hprefix (List.prefix_append _ _) hran

/-- A third task comes in while the loop runs the first one. -/
theorem posted_run_in_order_two :
    ∃ s t : TaskLoop Nat, Run step (fun _ _ => True) {} [.post 1, .post 2, .write, .test] s ∧
      Run step (fun _ a => a ≠ .setQuit) s
          [.poll true, .swap, .runTask, .post 3, .runTask, .runTask, .test] t ∧ s.submitted <+: t.ran := by
  obtain ⟨s, hrun, hs⟩ := exists_run_of_exec step (fun _ _ => True) {} [.post 1, .post 2, .write, .test]
    (fun s : TaskLoop Nat => s = ⟨[1, 2], false, 1, .polling, 1, [1, 2], []⟩) (by decide)
  obtain rfl := of_decide_eq_true hs
  obtain ⟨t, hrun', -⟩ := exists_run_of_exec step (fun _ a => a ≠ .setQuit) ⟨[1, 2], false, 1, .polling, 1, [1, 2], []⟩
    [.poll true, .swap, .runTask, .post 3, .runTask, .runTask, .test] (fun _ : TaskLoop Nat => true) (by decide)
  exact ⟨_, t, hrun, hrun', (posted_run_in_order hrun).2.2 rfl (by simp) _ t hrun' (by decide)⟩

/-! What Quit leaves behind. -/

/-- Nothing happens any more unless something comes from outside. -/
def Stuck (s : TaskLoop T) : Prop := ∀ a, s.Own a → s.step a = none

def phaseLeft : LoopPhase T → Nat
  | .returned => 0
  | .testing => 1
  | .running tasks => tasks.length + 2
  | .dispatched => 3
  | .polling => 4

/-- A bound for the steps of a loop that quits. -/
def left (s : TaskLoop T) : Nat := s.waking + s.pendingTasks.length + phaseLeft s.phase

/-- The thread will take what is pending. -/
def Taken (s : TaskLoop T) : Prop := s.pendingTasks = [] ∨ s.phase = .polling ∨ s.phase = .dispatched

/-- A loop that quits comes nearer to its end with every step, and takes what is pending only on its way from
epoll_wait. -/
theorem quit_step (hquit : s.quit = true) (ha : s.Own a) (hs : s.step a = some t) :
    t.quit = true ∧ t.submitted = s.submitted ∧ t.left < s.left ∧ (t.Taken ↔ s.Taken) := by
  have hcases := step_cases hs
  cases a with
  | post | setQuit => exact absurd ha id
  | write =>
      obtain ⟨hne, rfl⟩ := hcases
      refine ⟨hquit, rfl, ?_, Iff.rfl⟩
      simp only [left]
      omega
  | test =>
      obtain ⟨hphase, rfl⟩ := hcases
      refine ⟨hquit, rfl, ?_, ?_⟩
      · simp [left, hphase, hquit, phaseLeft]
      · simp [Taken, hphase, hquit]
  | poll heard =>
      obtain ⟨hphase, n, rfl⟩ := hcases
      refine ⟨hquit, rfl, ?_, ?_⟩
      · simp [left, hphase, phaseLeft]
      · simp [Taken, hphase]
  | swap =>
      obtain ⟨hphase, rfl⟩ := hcases
      refine ⟨hquit, rfl, ?_, ?_⟩
      · simp only [left, hphase, phaseLeft, List.length_nil]
        omega
      · simp [Taken, hphase]
  | runTask =>
      rcases hcases with ⟨hphase, rfl⟩ | ⟨task, tasks, hphase, rfl⟩
      · refine ⟨hquit, rfl, ?_, ?_⟩
        · simp [left, hphase, phaseLeft]
        · simp [Taken, hphase]
      · refine ⟨hquit, rfl, ?_, ?_⟩
        · simp only [left, hphase, phaseLeft, List.length_cons]
          omega
        · simp [Taken, hphase]

theorem returned_of_stuck (hstuck : s.Stuck) : s.phase = .returned := by
  cases hphase : s.phase with
  | testing =>
      have hnone := hstuck .test trivial
      simp [step, hphase] at hnone
  | polling =>
      have hnone := hstuck (.poll false) trivial
      simp [step, hphase] at hnone
  | dispatched =>
      have hnone := hstuck .swap trivial
      simp [step, hphase] at hnone
  | running tasks =>
      have hnone := hstuck .runTask trivial
      cases tasks <;> simp [step, hphase] at hnone
  | returned => rfl

/-- After Quit the loop comes to its end, and what was submitted before has been run then exactly if nothing was pending
or the thread was between the test of quit_ and the place where it takes the tasks. -/
theorem quit_loses_iff (h : Run step (fun _ _ => True) {} as s) (hs : s.step .setQuit = some u)
    {bs : List (LoopAction T)} (hrun : Run step Own u bs t) :
    bs.length + t.left ≤ u.left ∧
      (t.Stuck → t.phase = .returned ∧
        (t.ran = s.submitted ↔ s.pendingTasks = [] ∨ s.phase = .polling ∨ s.phase = .dispatched)) := by
  have hu : u = { s with quit := true, waking := s.waking + 1 } := step_cases hs
  have hkeep : t.quit = true ∧ t.submitted = s.submitted ∧ (t.Taken ↔ s.Taken) := by
    refine hrun.invariant (I := fun t => t.quit = true ∧ t.submitted = s.submitted ∧ (t.Taken ↔ s.Taken)) ?_ ?_
    · rintro s' a t' ⟨hquit, hsubmitted, htaken⟩ ha hs'
      obtain ⟨hquit', hsubmitted', -, htaken'⟩ := quit_step hquit ha hs'
      exact ⟨hquit', hsubmitted'.trans hsubmitted, htaken'.trans htaken⟩
    · rw [hu]
      exact ⟨rfl, rfl, Iff.rfl⟩
  constructor
  · have hquit : u.quit = true := by rw [hu]
    have hguarded : Run step (fun s a => s.quit = true ∧ s.Own a) u bs t :=
      hrun.with_invariant (fun _ _ _ hi ha hs => (quit_step hi ha hs).1) hquit
    exact hguarded.length_le left fun _ _ _ ha hs => (quit_step ha.1 ha.2 hs).2.2.1
  · intro hstuck
    have hreturned := returned_of_stuck hstuck
    refine ⟨hreturned, ?_⟩
    have horder := ((sound_start.of_run (h.snoc trivial hs)).of_run hrun).order
    have hempty : t.inHand = [] := by simp [inHand, hreturned, LoopPhase.hand]
    rw [hempty, List.append_nil, hkeep.2.1] at horder
    have htaken : t.Taken ↔ t.pendingTasks = [] := by simp [Taken, hreturned]
    rw [← Taken, ← hkeep.2.2, htaken, horder]
    constructor
    · exact fun he => List.append_right_eq_self.mp he.symm
    · exact fun he => by rw [he, List.append_nil]

theorem stuck_of_returned (hphase : s.phase = .returned) (hwaking : s.waking = 0) : s.Stuck := by
  intro a ha
  cases a with
  | post | setQuit => exact absurd ha id
  | write => simp [step, hwaking]
  | test | poll | swap | runTask => simp [step, hphase]

/-- The loop quits while it runs a task, and while it is in epoll_wait. Only there it still runs the second one. -/
theorem quit_loses_iff_two :
    ∃ s u t s' u' t' : TaskLoop Nat,
      Run step (fun _ _ => True) {} [.post 1, .write, .test, .poll true, .swap, .post 2, .write] s ∧
        s.step .setQuit = some u ∧ Run step Own u [.runTask, .runTask, .write, .test] t ∧ t.Stuck ∧
        t.ran ≠ s.submitted ∧
      Run step (fun _ _ => True) {}
          [.post 1, .write, .test, .poll true, .swap, .runTask, .runTask, .test, .post 2, .write] s' ∧
        s'.step .setQuit = some u' ∧
        Run step Own u' [.write, .poll true, .swap, .runTask, .runTask, .test] t' ∧ t'.Stuck ∧
        t'.ran = s'.submitted := by
  obtain ⟨s, hrun, hs⟩ := exists_run_of_exec step (fun _ _ => True) {}
    [.post 1, .write, .test, .poll true, .swap, .post 2, .write]
    (fun s : TaskLoop Nat => s = ⟨[2], false, 1, .running [1], 0, [1, 2], []⟩) (by decide)
  obtain rfl := of_decide_eq_true hs
  obtain ⟨t, hown, ht⟩ := exists_run_of_exec step Own ⟨[2], true, 1, .running [1], 1, [1, 2], []⟩
    [.runTask, .runTask, .write, .test]
    (fun t : TaskLoop Nat => t = ⟨[2], true, 2, .returned, 0, [1, 2], [1]⟩) (by decide)
  obtain rfl := of_decide_eq_true ht
  obtain ⟨s', hrun', hs'⟩ := exists_run_of_exec step (fun _ _ => True) {}
    [.post 1, .write, .test, .poll true, .swap, .runTask, .runTask, .test, .post 2, .write]
    (fun s : TaskLoop Nat => s = ⟨[2], false, 1, .polling, 0, [1, 2], [1]⟩) (by decide)
  obtain rfl := of_decide_eq_true hs'
  obtain ⟨t', hown', ht'⟩ := exists_run_of_exec step Own ⟨[2], true, 1, .polling, 1, [1, 2], [1]⟩
    [.write, .poll true, .swap, .runTask, .runTask, .test]
    (fun t : TaskLoop Nat => t = ⟨[], true, 0, .returned, 0, [1, 2], [1, 2]⟩) (by decide)
  obtain rfl := of_decide_eq_true ht'
  have hlost := ((quit_loses_iff hrun rfl hown).2 (stuck_of_returned rfl rfl)).2
  have hkept := ((quit_loses_iff hrun' rfl hown').2 (stuck_of_returned rfl rfl)).2
  refine ⟨_, _, _, _, _, _, hrun, rfl, hown, stuck_of_returned rfl rfl, fun he => ?_, hrun', rfl, hown',
    stuck_of_returned rfl rfl, hkept.mpr (.inr (.inl rfl))⟩
  rcases hlost.mp he with hnone | hpolling | hdispatched
  · cases hnone
  · cases hpolling
  · cases hdispatched

end TaskLoop

end MiniStorage.Net
