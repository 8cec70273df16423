import MiniStorage.Net.EventLoop
import MiniStorage.Runs
import Mathlib.Logic.Function.Basic

namespace MiniStorage.Net

open EventLoop Runs Namenode

/-- An event loop and the Channel on each descriptor. One that was never called is as good as none. -/
structure Reactor where
  loop : EventLoop
  channel : Int → ChannelObject
  keyed : ∀ fd, (channel fd).fd = fd

/-- A call on the Channel of a descriptor, or the end of it: ~Channel runs and the descriptor is closed, and the next
Channel gets one of the same number. -/
inductive ReactorAction
  | call (fd : Int) (call : ChannelCall) (refused : Bool)
  | reopen (fd : Int) (refused : Bool)
deriving DecidableEq, Repr

namespace Reactor

def start (wakeupFd : Int) : Reactor := ⟨.start wakeupFd, fun fd => { address := 0, fd }, fun _ => rfl⟩

def set (r : Reactor) (c : ChannelObject) (loop : EventLoop) : Reactor where
  loop := loop
  channel := Function.update r.channel c.fd c
  keyed := by
    intro fd
    by_cases hfd : fd = c.fd
    · rw [hfd, Function.update_self]
    · rw [Function.update_of_ne hfd, r.keyed]

def step (r : Reactor) : ReactorAction → Reactor
  | .call fd call refused =>
      let (c, loop) := call.run (r.channel fd) r.loop refused
      r.set c loop
  | .reopen fd refused =>
      let c := r.channel fd
      r.set { address := c.address + 1, fd } ((c.destroy r.loop refused).close fd)

def runs (wakeupFd : Int) (actions : List ReactorAction) : Reactor := actions.foldl step (start wakeupFd)

/-- The Channel of the descriptor is registered, and once its destructor has run channels_ has no entry. -/
structure Kept (r : Reactor) (fd : Int) : Prop where
  registered : Registered r.loop (r.channel fd)
  gone : ∀ refused, ((r.channel fd).destroy r.loop refused).channels.find fd = none

/-- A call on the Channel of the descriptor is careful. -/
def Careful (fd : Int) (r : Reactor) : ReactorAction → Prop
  | .call fd' call refused => fd' = fd → (r.channel fd').Careful call refused
  | .reopen .. => True

instance (fd : Int) (r : Reactor) : ∀ a, Decidable (Careful fd r a)
  | .call fd' call refused =>
      inferInstanceAs (Decidable (fd' = fd → (r.channel fd').Careful call refused))
  | .reopen .. => isTrue trivial

variable {r : Reactor} {fd fd' wakeupFd : Int} {call : ChannelCall} {refused : Bool} {a : ReactorAction}

theorem channel_set (r : Reactor) (c : ChannelObject) (loop : EventLoop) (fd : Int) :
    (r.set c loop).channel fd = if fd = c.fd then c else r.channel fd :=
  Function.update_apply r.channel c.fd c fd

theorem step_call (r : Reactor) (fd : Int) (call : ChannelCall) (refused : Bool) :
    r.step (.call fd call refused) =
      r.set (call.run (r.channel fd) r.loop refused).1 (call.run (r.channel fd) r.loop refused).2 := rfl

theorem step_reopen (r : Reactor) (fd : Int) (refused : Bool) :
    r.step (.reopen fd refused) =
      r.set { address := (r.channel fd).address + 1, fd } (((r.channel fd).destroy r.loop refused).close fd) := rfl

theorem fd_run (r : Reactor) (fd : Int) (call : ChannelCall) (refused : Bool) :
    (call.run (r.channel fd) r.loop refused).1.fd = fd := by
  rw [ChannelCall.run_fst]
  exact r.keyed fd

/-- What a call on a Channel and what its end leave of a Channel on another descriptor. -/
theorem registered_call_of_ne (h : Registered r.loop (r.channel fd)) (hne : fd ≠ fd') (call : ChannelCall)
    (refused : Bool) : Registered (call.run (r.channel fd') r.loop refused).2 (r.channel fd) := by
  have hfd : (r.channel fd).fd ≠ (r.channel fd').fd := by rwa [r.keyed, r.keyed]
  obtain ⟨hchannels, hepoll⟩ := find_run_of_ne r.loop call refused hfd
  exact ⟨hchannels.trans h.entry, hepoll.trans h.watched⟩

theorem registered_reopen_of_ne (h : Registered r.loop (r.channel fd)) (hne : fd ≠ fd') (refused : Bool) :
    Registered (((r.channel fd').destroy r.loop refused).close fd') (r.channel fd) := by
  have hdestroyed : Registered ((r.channel fd').destroy r.loop refused) (r.channel fd) :=
    registered_call_of_ne h hne .disableAll refused
  refine ⟨hdestroyed.entry, ?_⟩
  rw [close, SortedMap.find_erase, if_neg (by rwa [r.keyed])]
  exact hdestroyed.watched

theorem registered_reopen (h : Registered r.loop (r.channel fd)) (address : Nat) (refused : Bool) :
    Registered (((r.channel fd).destroy r.loop refused).close fd) { address, fd } := by
  have hzero : ({ address, fd } : ChannelObject).events = 0 := Channel.events_eq_zero.mpr rfl
  have hgone := h.find_destroy refused
  rw [r.keyed] at hgone
  refine ⟨?_, ?_⟩
  · rw [if_pos hzero]
    exact hgone
  · rw [if_pos hzero, close, SortedMap.find_erase, if_pos rfl]

/-- Exactly the careful steps keep a Channel registered. -/
theorem registered_step_iff (h : Registered r.loop (r.channel fd)) (a : ReactorAction) :
    Registered (r.step a).loop ((r.step a).channel fd) ↔ Careful fd r a := by
  cases a with
  | call fd' call refused =>
      rw [step_call, channel_set, fd_run]
      by_cases hfd : fd = fd'
      · subst hfd
        rw [if_pos rfl]
        exact (h.call_iff call refused).trans ⟨fun hcareful _ => hcareful, fun hcareful => hcareful rfl⟩
      · rw [if_neg hfd]
        exact iff_of_true (registered_call_of_ne h hfd call refused) fun he => absurd he.symm hfd
  | reopen fd' refused =>
      rw [step_reopen, channel_set]
      refine iff_of_true ?_ trivial
      by_cases hfd : fd = fd'
      · subst hfd
        rw [if_pos rfl]
        exact registered_reopen h _ refused
      · rw [if_neg hfd]
        exact registered_reopen_of_ne h hfd refused

theorem registered_start (h : fd ≠ wakeupFd) : Registered (start wakeupFd).loop ((start wakeupFd).channel fd) := by
  have hzero : ((start wakeupFd).channel fd).events = 0 := Channel.events_eq_zero.mpr rfl
  refine ⟨?_, ?_⟩
  · rw [if_pos hzero]
    rfl
  · rw [if_pos hzero]
    exact (find_epollCtl_of_ne h).trans (SortedMap.find_empty fd)

theorem kept_iff_registered : Kept r fd ↔ Registered r.loop (r.channel fd) := by
  constructor
  · exact Kept.registered
  · intro h
    refine ⟨h, fun refused => ?_⟩
    have hgone := h.find_destroy refused
    rwa [r.keyed] at hgone

/-- In any order of calls on the Channels of a loop, a Channel is in channels_ and in the epoll set exactly while it has
events_, and leaves channels_ with its destructor, as long as its calls are careful: DisableReading and DisableWriting
come while it has events_, and the kernel refuses none that changes them. -/
theorem kept_iff (wakeupFd fd : Int) (hfd : fd ≠ wakeupFd) (actions : List ReactorAction) :
    (∀ done, done <+: actions → Kept (runs wakeupFd done) fd) ↔ Guarded step (Careful fd) (start wakeupFd) actions := by
  have hstep (r : Reactor) (a : ReactorAction) (h : Registered r.loop (r.channel fd)) :
      Registered (r.step a).loop ((r.step a).channel fd) ↔ Careful fd r a := registered_step_iff h a
  have hrun := forall_isPrefix_iff (I := fun r : Reactor => Registered r.loop (r.channel fd)) hstep
    (registered_start hfd) actions
  exact (forall₂_congr fun done _ => kept_iff_registered).trans hrun

/-- Two Channels of one loop, and one after the other on the same descriptor. -/
theorem kept_iff_two :
    let actions := [ReactorAction.call 5 .enableReading false, .call 6 .enableReading false, .call 5 .enableWriting false,
      .call 5 .disableWriting false, .call 5 .disableAll false, .reopen 5 false, .call 5 .enableReading false]
    ∀ done, done <+: actions → Kept (runs 4 done) 5 := by
  intro actions
  exact (kept_iff 4 5 (by decide) actions).mpr (by decide)

/-- DisableWriting after DisableAll, as HandleWrite calls it after HandleClose. -/
theorem entry_left_behind :
    let r := runs 4 [.call 5 .enableReading false, .call 5 .disableAll false, .call 5 .disableWriting false]
    (r.channel 5).events = 0 ∧ r.loop.channels.find 5 = some 0 ∧
      ((r.channel 5).destroy r.loop false).channels.find 5 = some 0 ∧ ¬ Kept r 5 := by
  intro r
  have hevents : (r.channel 5).events = 0 := by decide
  have hentry : r.loop.channels.find 5 = some 0 := by decide
  refine ⟨hevents, hentry, by decide, ?_⟩
  intro hkept
  have hnone := hkept.registered.entry
  rw [if_pos hevents] at hnone
  cases hentry.symm.trans hnone

/-- DisableReading or DisableWriting on a Channel without events_ puts it into channels_. -/
theorem step_disable_empty (h : Registered r.loop (r.channel fd)) (hzero : (r.channel fd).events = 0)
    (hcall : call.disablesOne = true) :
    (r.step (.call fd call false)).channel fd = r.channel fd ∧
      (r.step (.call fd call false)).loop.channels.find fd = some (r.channel fd).address := by
  have hmask : call.mask (r.channel fd).toChannel = (r.channel fd).toChannel := by
    rw [Channel.events_eq_zero.mp hzero]
    cases call with
    | disableReading | disableWriting => rfl
    | enableReading | enableWriting | disableAll => cases hcall
  have hne : call ≠ .disableAll := by
    rintro rfl
    cases hcall
  have hentry := h.entry
  rw [if_pos hzero] at hentry
  rw [step_call, ChannelCall.run_eq_update hne, hmask]
  refine ⟨?_, ?_⟩
  · exact (channel_set r (r.channel fd) _ fd).trans (if_pos (r.keyed fd).symm)
  · change (r.loop.updateChannel (r.channel fd) false).channels.find fd = _
    rw [updateChannel, if_pos (by rw [hentry]; rfl), channels_epollCtl, SortedMap.find_insert,
      if_pos (r.keyed fd).symm]

/-- ~Channel does nothing to a Channel without events_, and closing its descriptor does nothing to channels_. -/
theorem step_reopen_empty (hzero : (r.channel fd).events = 0) (refused : Bool) :
    (r.step (.reopen fd refused)).channel fd = { address := (r.channel fd).address + 1, fd } ∧
      (r.step (.reopen fd refused)).loop.channels.find fd = r.loop.channels.find fd ∧
      (r.step (.reopen fd refused)).loop.epoll.find fd = none := by
  have hdestroy : (r.channel fd).destroy r.loop refused = r.loop := by
    rw [ChannelObject.destroy, ChannelObject.disableAll, if_neg (not_not.mpr hzero)]
  rw [step_reopen, hdestroy]
  refine ⟨?_, rfl, ?_⟩
  · exact (channel_set r _ _ fd).trans (if_pos rfl)
  · exact (SortedMap.find_erase _ _ _).trans (if_pos rfl)

theorem step_enableReading_unwatched (hentry : r.loop.channels.find fd ≠ none)
    (hwatched : r.loop.epoll.find fd = none) :
    (r.step (.call fd .enableReading false)).channel fd =
        { r.channel fd with toChannel := (r.channel fd).toChannel.enableReading } ∧
      (r.step (.call fd .enableReading false)).loop = r.loop := by
  have hne : (r.channel fd).toChannel.enableReading.events ≠ 0 := by
    intro hzero
    cases Channel.events_eq_zero.mp hzero
  refine ⟨?_, ?_⟩
  · exact (channel_set r _ _ fd).trans (if_pos (r.keyed fd).symm)
  · exact updateChannel_unwatched (by rwa [r.keyed]) (by rwa [r.keyed]) hne

/-- The next Channel on a descriptor whose entry was left behind enables reading: the epoll instance does not watch it,
and channels_ has the Channel that is gone. -/
theorem reopened_unwatched (h : Registered r.loop (r.channel fd)) (hzero : (r.channel fd).events = 0)
    (hcall : call.disablesOne = true) (refused : Bool) :
    let s := ((r.step (.call fd call false)).step (.reopen fd refused)).step (.call fd .enableReading false)
    (s.channel fd).events ≠ 0 ∧ s.loop.epoll.find fd = none ∧
      s.loop.channels.find fd = some (r.channel fd).address ∧ (s.channel fd).address ≠ (r.channel fd).address := by
  obtain ⟨hchannel, hentry⟩ := step_disable_empty h hzero hcall
  generalize r.step (.call fd call false) = r₁ at hchannel hentry
  obtain ⟨hchannel₂, hentry₂, hwatched₂⟩ := @step_reopen_empty r₁ fd (hchannel ▸ hzero) refused
  generalize r₁.step (.reopen fd refused) = r₂ at hchannel₂ hentry₂ hwatched₂
  rw [hentry] at hentry₂
  have hsome : r₂.loop.channels.find fd ≠ none := by
    rw [hentry₂]
    exact Option.some_ne_none _
  obtain ⟨hchannel₃, hloop₃⟩ := step_enableReading_unwatched hsome hwatched₂
  rw [hchannel₂, hchannel] at hchannel₃
  have hreading : ({ reading := true } : Channel).events ≠ 0 := by decide
  simp only [hchannel₃, hloop₃]
  exact ⟨hreading, hwatched₂, hentry₂, Nat.succ_ne_self _⟩

end Reactor

/-! The calls that a connection makes. -/

/-- The functions of a connection, with what read and write say. -/
inductive ConnectionEvent
  | start
  | send (data : Bytes) (res : Outcome)
  | handleRead (arrived : Bytes) (res : Outcome)
  | handleWrite (res : Outcome)
  | handleClose
deriving DecidableEq, Repr

namespace TcpConnection

def handle (c : TcpConnection) : ConnectionEvent → TcpConnection
  | .start => c.start
  | .send data res => (c.send data res).2
  | .handleRead arrived res => (c.handleRead arrived res).2.1
  | .handleWrite res => (c.handleWrite res).2
  | .handleClose => c.handleClose

/-- What is called on channel_. -/
def calls (c : TcpConnection) : ConnectionEvent → List ChannelCall
  | .start => [.enableReading]
  | .send data res =>
      if c.writeBuf ≠ [] then []
      else
        match res with
        | .count n => if n < (htonl (data.length % 2 ^ 32) ++ data).length then [.enableWriting] else []
        | .wouldBlock => [.enableWriting]
        | .failed => [.disableAll]
  | .handleRead _ res =>
      match res with
      | .count n => if 0 < n then [] else [.disableAll]
      | .wouldBlock => []
      | .failed => [.disableAll]
  | .handleWrite res =>
      if c.writeBuf = [] then [.disableWriting]
      else
        match res with
        | .count n => if 0 < n ∧ c.writeBuf.drop n = [] then [.disableWriting] else []
        | .wouldBlock => []
        | .failed => [.disableAll]
  | .handleClose => [.disableAll]

/-- HandleWrite has nothing to write or writes all that is left when the Channel has no events_ any more. -/
def LateWrite (c : TcpConnection) : ConnectionEvent → Prop
  | .handleWrite res => c.channel.events = 0 ∧ (c.writeBuf = [] ∨ ∃ n, res = .count n ∧ c.writeBuf.length ≤ n)
  | _ => False

variable {c : TcpConnection} {e : ConnectionEvent}

theorem calls_cases (c : TcpConnection) (e : ConnectionEvent) : c.calls e = [] ∨ ∃ call, c.calls e = [call] := by
  cases e with
  | start | handleClose => exact .inr ⟨_, rfl⟩
  | send data res | handleRead arrived res | handleWrite res =>
      unfold calls
      dsimp only
      repeat' split
      all_goals first
        | exact .inl rfl
        | exact .inr ⟨_, rfl⟩

/-- The calls do to the mask what the function does to it. -/
theorem channel_handle (c : TcpConnection) (e : ConnectionEvent) :
    (c.handle e).channel = (c.calls e).foldl (fun m call => call.mask m) c.channel := by
  cases e with
  | start | handleClose => rfl
  | send data res =>
      by_cases hempty : c.writeBuf = []
      · cases res with
        | count n =>
            by_cases hn : n < (htonl (data.length % 2 ^ 32) ++ data).length
            · simp only [handle, send, calls, hempty, hn, ne_eq, not_true_eq_false, if_false, if_true]
              rfl
            · simp only [handle, send, calls, hempty, hn, ne_eq, not_true_eq_false, if_false]
              rfl
        | wouldBlock =>
            have hpos : 0 < (htonl (data.length % 2 ^ 32) ++ data).length := by
              rw [List.length_append, EditLog.length_htonl]
              omega
            simp only [handle, send, calls, hempty, hpos, ne_eq, not_true_eq_false, if_false, if_true]
            rfl
        | failed =>
            simp only [handle, send, calls, hempty, ne_eq, not_true_eq_false, if_false]
            rfl
      · simp only [handle, send, calls, hempty, ne_eq, not_false_eq_true, if_true]
        rfl
  | handleRead arrived res =>
      cases res with
      | count n => by_cases hn : 0 < n <;> simp only [handle, handleRead, calls, hn, if_true, if_false] <;> rfl
      | wouldBlock | failed => rfl
  | handleWrite res =>
      by_cases hempty : c.writeBuf = []
      · simp only [handle, handleWrite, calls, hempty, if_true]
        rfl
      · cases res with
        | count n =>
            by_cases hn : 0 < n
            · by_cases hall : c.writeBuf.drop n = []
              · simp only [handle, handleWrite, calls, hempty, hn, hall, and_self, if_true, if_false]
                rfl
              · simp only [handle, handleWrite, calls, hempty, hn, hall, and_false, if_true, if_false]
                rfl
            · simp only [handle, handleWrite, calls, hempty, hn, false_and, if_false]
              rfl
        | wouldBlock | failed =>
            simp only [handle, handleWrite, calls, hempty, if_false]
            rfl

/-- Only a late HandleWrite disables something in a Channel without events_. -/
theorem lateWrite_iff :
    c.LateWrite e ↔ ∃ call ∈ c.calls e, call.disablesOne = true ∧ c.channel.events = 0 := by
  cases e with
  | start | handleClose =>
      refine iff_of_false (fun h => h) ?_
      rintro ⟨call, hmem, hdisables, -⟩
      rw [List.mem_singleton.mp hmem] at hdisables
      cases hdisables
  | send data res | handleRead arrived res =>
      refine iff_of_false (fun h => h) ?_
      rintro ⟨call, hmem, hdisables, -⟩
      have hcall : call = .enableWriting ∨ call = .disableAll := by
        simp only [calls] at hmem
        repeat' split at hmem
        all_goals simp only [List.not_mem_nil, List.mem_singleton] at hmem
        all_goals simp [hmem]
      rcases hcall with rfl | rfl <;> cases hdisables
  | handleWrite res =>
      by_cases hempty : c.writeBuf = []
      · simp [LateWrite, calls, hempty, ChannelCall.disablesOne]
      · have hpos : 0 < c.writeBuf.length := List.length_pos_of_ne_nil hempty
        cases res with
        | count n =>
            have hdrain : 0 < n ∧ c.writeBuf.drop n = [] ↔ c.writeBuf.length ≤ n := by
              rw [List.drop_eq_nil_iff]
              omega
            simp only [LateWrite, calls, hempty, hdrain, if_false, false_or]
            by_cases hle : c.writeBuf.length ≤ n
            · simp [hle, ChannelCall.disablesOne]
            · simp [hle]
        | wouldBlock | failed => simp [LateWrite, calls, hempty, ChannelCall.disablesOne]

/-- A HandleWrite that comes while the connection waits to write is not late. -/
theorem not_lateWrite_of_writing (h : c.channel.writing = true) : ¬ c.LateWrite e := by
  intro hlate
  obtain ⟨-, -, -, hzero⟩ := lateWrite_iff.mp hlate
  rw [Channel.events_eq_zero.mp hzero] at h
  cases h

end TcpConnection

/-- A loop and a connection on one of its descriptors. -/
structure Service where
  reactor : Reactor
  connection : TcpConnection

namespace Service

variable {s : Service} {fd wakeupFd : Int}

def step (fd : Int) (s : Service) (e : ConnectionEvent) : Service where
  reactor := ((s.connection.calls e).map (.call fd · false)).foldl Reactor.step s.reactor
  connection := s.connection.handle e

/-- The Channel of the connection is registered for what the connection waits for. -/
structure Attached (fd : Int) (s : Service) : Prop where
  registered : Registered s.reactor.loop (s.reactor.channel fd)
  channel : (s.reactor.channel fd).toChannel = s.connection.channel

theorem toChannel_step (r : Reactor) (fd : Int) (call : ChannelCall) (refused : Bool) :
    ((r.step (.call fd call refused)).channel fd).toChannel = call.mask (r.channel fd).toChannel := by
  rw [Reactor.step_call, Reactor.channel_set, if_pos (r.fd_run fd call refused).symm, ChannelCall.run_fst]

/-- Exactly a late HandleWrite takes the Channel out of step with its registration. -/
theorem Attached.step_iff (h : Attached fd s) (e : ConnectionEvent) :
    Attached fd (s.step fd e) ↔ ¬ s.connection.LateWrite e := by
  have hchannel := s.connection.channel_handle e
  have hlate := @TcpConnection.lateWrite_iff s.connection e
  rcases s.connection.calls_cases e with hnil | ⟨call, hone⟩
  · rw [hnil] at hchannel hlate
    have hreactor : (s.step fd e).reactor = s.reactor := by
      rw [step, hnil]
      rfl
    refine iff_of_true ⟨hreactor ▸ h.registered, ?_⟩ fun hl => ?_
    · rw [hreactor]
      exact h.channel.trans hchannel.symm
    · obtain ⟨call, hmem, -⟩ := hlate.mp hl
      cases hmem
  · rw [hone] at hchannel hlate
    have hreactor : (s.step fd e).reactor = s.reactor.step (.call fd call false) := by
      rw [step, hone]
      rfl
    have hevents : (s.reactor.channel fd).events = s.connection.channel.events := congrArg Channel.events h.channel
    have hcall := Reactor.registered_step_iff h.registered (.call fd call false)
    rw [hlate]
    constructor
    · rintro hattached ⟨call', hmem, hdisables, hzero⟩
      rw [List.mem_singleton.mp hmem] at hdisables
      have hcareful := hcall.mp (hreactor ▸ hattached.registered) rfl
      exact hcareful.1 hdisables (hevents.trans hzero)
    · intro hnone
      refine ⟨?_, ?_⟩
      · rw [hreactor]
        refine hcall.mpr fun _ => ⟨fun hdisables hzero => ?_, Bool.noConfusion⟩
        exact hnone ⟨call, List.mem_singleton_self call, hdisables, hevents.symm.trans hzero⟩
      · rw [hreactor, toChannel_step, h.channel]
        exact hchannel.symm

/-- In any order of its functions and of what read and write say, the Channel of a connection stays registered as long as
HandleWrite does not come late. -/
theorem attached_iff (hfd : fd ≠ wakeupFd) (events : List ConnectionEvent) :
    (∀ done, done <+: events → Attached fd (done.foldl (step fd) ⟨.start wakeupFd, {}⟩)) ↔
      Guarded (step fd) (fun s e => ¬ s.connection.LateWrite e) ⟨.start wakeupFd, {}⟩ events := by
  have hstep (s : Service) (e : ConnectionEvent) (h : Attached fd s) :
      Attached fd (s.step fd e) ↔ ¬ s.connection.LateWrite e := h.step_iff e
  exact forall_isPrefix_iff hstep ⟨Reactor.registered_start hfd, rfl⟩ events

end Service

end MiniStorage.Net
