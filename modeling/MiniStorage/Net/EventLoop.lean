import MiniStorage.Net.TcpConnection
import MiniStorage.SortedMap
import Mathlib.Data.Int.Order.Basic

namespace MiniStorage.Net

def epollIn : UInt32 := 1

def epollOut : UInt32 := 4

namespace Channel

/-- events_ as the mask that epoll_ctl gets. -/
def events (c : Channel) : UInt32 := (if c.reading then epollIn else 0) ||| (if c.writing then epollOut else 0)

variable {c c' : Channel}

theorem events_inj : c.events = c'.events ↔ c = c' := by
  obtain ⟨_ | _, _ | _⟩ := c <;> obtain ⟨_ | _, _ | _⟩ := c' <;> decide

theorem events_eq_zero : c.events = 0 ↔ c = {} := @events_inj c {}

end Channel

/-- A Channel object: its address, its fd_ and its events_. -/
structure ChannelObject extends Channel where
  address : Nat
  fd : Int
deriving DecidableEq, Repr

/-- channels_ and what the epoll instance watches. -/
structure EventLoop where
  channels : SortedMap Int Nat := .empty
  epoll : SortedMap Int UInt32 := .empty

inductive CtlOp
  | add
  | mod
  | del
deriving DecidableEq, Repr

namespace EventLoop

/-- epoll_ctl, whose result is never looked at. ADD fails on a descriptor that is watched, MOD and DEL fail on one that
is not, and the kernel may refuse any of them for want of memory. -/
def epollCtl (loop : EventLoop) (op : CtlOp) (fd : Int) (events : UInt32) (refused : Bool) : EventLoop :=
  if refused then loop
  else
    match op with
    | .add => if (loop.epoll.find fd).isSome then loop else { loop with epoll := loop.epoll.insert fd events }
    | .mod => if (loop.epoll.find fd).isSome then { loop with epoll := loop.epoll.insert fd events } else loop
    | .del => { loop with epoll := loop.epoll.erase fd }

def start (wakeupFd : Int) : EventLoop := epollCtl {} .add wakeupFd epollIn false

def updateChannel (loop : EventLoop) (channel : ChannelObject) (refused : Bool) : EventLoop :=
  if (loop.channels.find channel.fd).isNone then
    { loop with channels := loop.channels.insert channel.fd channel.address }.epollCtl
      .add channel.fd channel.events refused
  else if channel.events = 0 then
    { loop with channels := loop.channels.erase channel.fd }.epollCtl .del channel.fd channel.events refused
  else loop.epollCtl .mod channel.fd channel.events refused

def removeChannel (loop : EventLoop) (channel : ChannelObject) (refused : Bool) : EventLoop :=
  { loop with channels := loop.channels.erase channel.fd }.epollCtl .del channel.fd 0 refused

/-- A descriptor that is closed is not watched any more. -/
def close (loop : EventLoop) (fd : Int) : EventLoop := { loop with epoll := loop.epoll.erase fd }

end EventLoop

namespace ChannelObject

def update (c : ChannelObject) (loop : EventLoop) (refused : Bool) : ChannelObject × EventLoop :=
  (c, loop.updateChannel c refused)

def enableReading (c : ChannelObject) (loop : EventLoop) (refused : Bool) : ChannelObject × EventLoop :=
  { c with toChannel := c.toChannel.enableReading }.update loop refused

def disableReading (c : ChannelObject) (loop : EventLoop) (refused : Bool) : ChannelObject × EventLoop :=
  { c with toChannel := c.toChannel.disableReading }.update loop refused

def enableWriting (c : ChannelObject) (loop : EventLoop) (refused : Bool) : ChannelObject × EventLoop :=
  { c with toChannel := c.toChannel.enableWriting }.update loop refused

def disableWriting (c : ChannelObject) (loop : EventLoop) (refused : Bool) : ChannelObject × EventLoop :=
  { c with toChannel := c.toChannel.disableWriting }.update loop refused

def disableAll (c : ChannelObject) (loop : EventLoop) (refused : Bool) : ChannelObject × EventLoop :=
  if c.events ≠ 0 then
    let c := { c with toChannel := c.toChannel.disableAll }
    (c, loop.removeChannel c refused)
  else (c, loop)

/-- ~Channel. -/
def destroy (c : ChannelObject) (loop : EventLoop) (refused : Bool) : EventLoop := (c.disableAll loop refused).2

end ChannelObject

inductive ChannelCall
  | enableReading
  | disableReading
  | enableWriting
  | disableWriting
  | disableAll
deriving DecidableEq, Repr

namespace ChannelCall

def run (c : ChannelObject) (loop : EventLoop) (refused : Bool) : ChannelCall → ChannelObject × EventLoop
  | .enableReading => c.enableReading loop refused
  | .disableReading => c.disableReading loop refused
  | .enableWriting => c.enableWriting loop refused
  | .disableWriting => c.disableWriting loop refused
  | .disableAll => c.disableAll loop refused

/-- What becomes of events_. -/
def mask (c : Channel) : ChannelCall → Channel
  | .enableReading => c.enableReading
  | .disableReading => c.disableReading
  | .enableWriting => c.enableWriting
  | .disableWriting => c.disableWriting
  | .disableAll => c.disableAll

/-- DisableReading and DisableWriting, which go to UpdateChannel and not to RemoveChannel. -/
def disablesOne : ChannelCall → Bool
  | .disableReading | .disableWriting => true
  | _ => false

end ChannelCall

/-- channels_ has the descriptor of the Channel exactly when its events_ are not zero, and epoll watches it for them. -/
structure Registered (loop : EventLoop) (c : ChannelObject) : Prop where
  entry : loop.channels.find c.fd = if c.events = 0 then none else some c.address
  watched : loop.epoll.find c.fd = if c.events = 0 then none else some c.events

/-- Nothing is disabled in a Channel without events_, and the kernel does not refuse a call that changes them. -/
def ChannelObject.Careful (c : ChannelObject) (call : ChannelCall) (refused : Bool) : Prop :=
  (call.disablesOne = true → c.events ≠ 0) ∧ (refused = true → call.mask c.toChannel = c.toChannel)

instance (c : ChannelObject) (call : ChannelCall) (refused : Bool) : Decidable (c.Careful call refused) :=
  inferInstanceAs (Decidable (_ ∧ _))

variable {loop : EventLoop} {c : ChannelObject} {call : ChannelCall} {op : CtlOp} {fd fd' : Int} {events e : UInt32}
  {refused : Bool} {m : Channel}

namespace ChannelCall

/-- What the calls do to events_ as the source writes it. -/
theorem events_mask (ch : Channel) (call : ChannelCall) : (call.mask ch).events =
    match call with
    | .enableReading => ch.events ||| epollIn
    | .disableReading => ch.events &&& ~~~epollIn
    | .enableWriting => ch.events ||| epollOut
    | .disableWriting => ch.events &&& ~~~epollOut
    | .disableAll => 0 := by
  obtain ⟨_ | _, _ | _⟩ := ch <;> cases call <;> decide

/-- All but DisableAll change events_ and go to UpdateChannel. -/
theorem run_eq_update (hcall : call ≠ .disableAll) (c : ChannelObject) (loop : EventLoop) (refused : Bool) :
    call.run c loop refused = { c with toChannel := call.mask c.toChannel }.update loop refused := by
  cases call with
  | disableAll => exact absurd rfl hcall
  | enableReading | disableReading | enableWriting | disableWriting => rfl

theorem run_fst (call : ChannelCall) (c : ChannelObject) (loop : EventLoop) (refused : Bool) :
    (call.run c loop refused).1 = { c with toChannel := call.mask c.toChannel } := by
  cases call with
  | disableAll =>
      by_cases hzero : c.events = 0
      · simp only [run, ChannelObject.disableAll, hzero, ne_eq, not_true_eq_false, if_false, mask, Channel.disableAll]
        rw [← Channel.events_eq_zero.mp hzero]
      · simp only [run, ChannelObject.disableAll, hzero, ne_eq, not_false_eq_true, if_true, mask]
  | enableReading | disableReading | enableWriting | disableWriting => rfl

end ChannelCall

namespace EventLoop

theorem channels_epollCtl (loop : EventLoop) (op : CtlOp) (fd : Int) (events : UInt32) (refused : Bool) :
    (loop.epollCtl op fd events refused).channels = loop.channels := by
  unfold epollCtl
  split
  next => rfl
  next =>
    cases op with
    | add | mod => dsimp only; split <;> rfl
    | del => rfl

theorem find_epollCtl_of_ne (h : fd' ≠ fd) :
    (loop.epollCtl op fd events refused).epoll.find fd' = loop.epoll.find fd' := by
  have hinsert : (loop.epoll.insert fd events).find fd' = loop.epoll.find fd' := by
    rw [SortedMap.find_insert, if_neg h]
  have herase : (loop.epoll.erase fd).find fd' = loop.epoll.find fd' := by rw [SortedMap.find_erase, if_neg h]
  unfold epollCtl
  split
  next => rfl
  next =>
    cases op with
    | add =>
        dsimp only
        split
        next => rfl
        next => exact hinsert
    | mod =>
        dsimp only
        split
        next => exact hinsert
        next => rfl
    | del => exact herase

theorem find_epollCtl_add (h : loop.epoll.find fd = none) :
    (loop.epollCtl .add fd events refused).epoll.find fd = if refused then none else some events := by
  cases refused with
  | true => exact h
  | false => simp [epollCtl, h, SortedMap.find_insert]

theorem find_epollCtl_mod (h : loop.epoll.find fd = some e) :
    (loop.epollCtl .mod fd events refused).epoll.find fd = some (if refused then e else events) := by
  cases refused with
  | true => exact h
  | false => simp [epollCtl, h, SortedMap.find_insert]

theorem find_epollCtl_del :
    (loop.epollCtl .del fd events refused).epoll.find fd = if refused then loop.epoll.find fd else none := by
  cases refused with
  | true => rfl
  | false => simp [epollCtl, SortedMap.find_erase]

/-- A Channel leaves what the loop has for other descriptors as it is. -/
theorem find_updateChannel_of_ne (h : fd ≠ c.fd) :
    (loop.updateChannel c refused).channels.find fd = loop.channels.find fd ∧
      (loop.updateChannel c refused).epoll.find fd = loop.epoll.find fd := by
  rw [updateChannel]
  split
  next => rw [channels_epollCtl, find_epollCtl_of_ne h, SortedMap.find_insert, if_neg h]; exact ⟨rfl, rfl⟩
  next =>
    split
    next => rw [channels_epollCtl, find_epollCtl_of_ne h, SortedMap.find_erase, if_neg h]; exact ⟨rfl, rfl⟩
    next => rw [channels_epollCtl, find_epollCtl_of_ne h]; exact ⟨rfl, rfl⟩

theorem find_removeChannel_of_ne (h : fd ≠ c.fd) :
    (loop.removeChannel c refused).channels.find fd = loop.channels.find fd ∧
      (loop.removeChannel c refused).epoll.find fd = loop.epoll.find fd := by
  rw [removeChannel, channels_epollCtl, find_epollCtl_of_ne h, SortedMap.find_erase, if_neg h]
  exact ⟨rfl, rfl⟩

/-- UpdateChannel takes a Channel without events_ for a new one if it is not in channels_, and then it stays there. -/
theorem registered_add_iff (hentry : loop.channels.find c.fd = none) (hwatched : loop.epoll.find c.fd = none) :
    Registered (loop.updateChannel c refused) c ↔ c.events ≠ 0 ∧ refused = false := by
  have hadd : loop.updateChannel c refused =
      { loop with channels := loop.channels.insert c.fd c.address }.epollCtl .add c.fd c.events refused := by
    rw [updateChannel, if_pos (by rw [hentry]; rfl)]
  have hentry' : (loop.updateChannel c refused).channels.find c.fd = some c.address := by
    rw [hadd, channels_epollCtl, SortedMap.find_insert, if_pos rfl]
  have hwatched' : (loop.updateChannel c refused).epoll.find c.fd = if refused then none else some c.events := by
    rw [hadd]
    exact find_epollCtl_add hwatched
  constructor
  · intro h
    have hne : c.events ≠ 0 := by
      intro hzero
      have hfound := h.entry
      rw [hentry', if_pos hzero] at hfound
      cases hfound
    refine ⟨hne, ?_⟩
    have hfound := h.watched
    rw [hwatched', if_neg hne] at hfound
    cases refused with
    | true => cases hfound
    | false => rfl
  · rintro ⟨hne, rfl⟩
    exact ⟨by rw [hentry', if_neg hne], by rw [hwatched', if_neg hne]; rfl⟩

theorem registered_mod_iff {e : UInt32} (hentry : loop.channels.find c.fd = some c.address)
    (hwatched : loop.epoll.find c.fd = some e) (hne : c.events ≠ 0) :
    Registered (loop.updateChannel c refused) c ↔ (refused = true → c.events = e) := by
  have hmod : loop.updateChannel c refused = loop.epollCtl .mod c.fd c.events refused := by
    rw [updateChannel, if_neg (by rw [hentry]; exact Bool.false_ne_true), if_neg hne]
  have hentry' : (loop.updateChannel c refused).channels.find c.fd = some c.address := by
    rw [hmod, channels_epollCtl, hentry]
  have hwatched' : (loop.updateChannel c refused).epoll.find c.fd = some (if refused then e else c.events) := by
    rw [hmod]
    exact find_epollCtl_mod hwatched
  constructor
  · rintro h rfl
    have hfound := h.watched
    rw [hwatched', if_neg hne] at hfound
    exact (Option.some.inj hfound).symm
  · intro h
    refine ⟨by rw [hentry', if_neg hne], ?_⟩
    rw [hwatched', if_neg hne]
    cases refused with
    | true => exact congrArg some (h rfl).symm
    | false => rfl

theorem find_removeChannel : (loop.removeChannel c refused).channels.find c.fd = none := by
  rw [removeChannel, channels_epollCtl, SortedMap.find_erase, if_pos rfl]

theorem registered_remove_iff {e : UInt32} (hwatched : loop.epoll.find c.fd = some e) (hzero : c.events = 0) :
    Registered (loop.removeChannel c refused) c ↔ refused = false := by
  have hwatched' : (loop.removeChannel c refused).epoll.find c.fd = if refused then some e else none := by
    rw [removeChannel, find_epollCtl_del, hwatched]
  constructor
  · intro h
    have hfound := h.watched
    rw [hwatched', if_pos hzero] at hfound
    cases refused with
    | true => cases hfound
    | false => rfl
  · rintro rfl
    exact ⟨by rw [find_removeChannel, if_pos hzero], by rw [hwatched', if_pos hzero]; rfl⟩

/-- Where channels_ has a descriptor that is not watched, MOD fails and nothing changes. -/
theorem updateChannel_unwatched (hentry : loop.channels.find c.fd ≠ none) (hwatched : loop.epoll.find c.fd = none)
    (hne : c.events ≠ 0) : loop.updateChannel c refused = loop := by
  rw [updateChannel, if_neg (fun hnone => hentry (Option.isNone_iff_eq_none.mp hnone)), if_neg hne]
  simp [epollCtl, hwatched]

/-- A registered Channel whose last bit goes is removed by UpdateChannel as RemoveChannel does it. -/
theorem updateChannel_eq_removeChannel (hentry : loop.channels.find c.fd ≠ none) (hzero : c.events = 0) :
    loop.updateChannel c refused = loop.removeChannel c refused := by
  rw [updateChannel, if_neg (fun hnone => hentry (Option.isNone_iff_eq_none.mp hnone)), if_pos hzero, hzero]
  rfl

end EventLoop

open EventLoop

/-- Update with other events_ keeps a Channel registered unless it had none and has none, or the kernel refuses. -/
theorem Registered.update_iff (h : Registered loop c) (m : Channel) (refused : Bool) :
    Registered (loop.updateChannel { c with toChannel := m } refused) { c with toChannel := m } ↔
      (c.events = 0 → m.events ≠ 0) ∧ (refused = true → m = c.toChannel) := by
  obtain ⟨hentry, hwatched⟩ := h
  have hsame : m.events = c.events ↔ m = c.toChannel := Channel.events_inj
  by_cases hzero : c.events = 0
  · rw [if_pos hzero] at hentry hwatched
    rw [@registered_add_iff loop { c with toChannel := m } refused hentry hwatched]
    constructor
    · rintro ⟨hne, rfl⟩
      exact ⟨fun _ => hne, fun h => by cases h⟩
    · rintro ⟨hne, hsame'⟩
      refine ⟨hne hzero, ?_⟩
      cases refused with
      | true => exact absurd ((hsame.mpr (hsame' rfl)).trans hzero) (hne hzero)
      | false => rfl
  · rw [if_neg hzero] at hentry hwatched
    have hnot : c.events = 0 → m.events ≠ 0 := fun h => absurd h hzero
    by_cases hm : m.events = 0
    · have hsome : loop.channels.find c.fd ≠ none := by
        rw [hentry]
        exact Option.some_ne_none _
      rw [@updateChannel_eq_removeChannel loop { c with toChannel := m } refused hsome hm,
        @registered_remove_iff loop { c with toChannel := m } refused _ hwatched hm, and_iff_right hnot]
      cases refused with
      | true => exact iff_of_false Bool.noConfusion (fun h => hzero ((hsame.mpr (h rfl)).symm.trans hm))
      | false => exact iff_of_true rfl Bool.noConfusion
    · rw [@registered_mod_iff loop { c with toChannel := m } refused _ hentry hwatched hm, and_iff_right hnot, ← hsame]

/-- On a Channel without events_ the two that enable something leave some, and the two that disable something none. -/
theorem ChannelCall.mask_empty_iff (hcall : call ≠ .disableAll) :
    (call.mask {}).events ≠ 0 ↔ call.disablesOne = false := by
  cases call with
  | disableAll => exact absurd rfl hcall
  | enableReading | enableWriting => exact iff_of_true (by decide) rfl
  | disableReading | disableWriting => exact iff_of_false (by decide) Bool.noConfusion

theorem Registered.updated_iff (h : Registered loop c) (call : ChannelCall) (hcall : call ≠ .disableAll) :
    Registered (loop.updateChannel { c with toChannel := call.mask c.toChannel } refused)
      { c with toChannel := call.mask c.toChannel } ↔ c.Careful call refused := by
  refine (h.update_iff _ refused).trans (and_congr_left fun _ => ?_)
  by_cases hzero : c.events = 0
  · have hmask := ChannelCall.mask_empty_iff hcall
    rw [← Channel.events_eq_zero.mp hzero] at hmask
    rw [imp_iff_right hzero, hmask, ← Bool.not_eq_true]
    exact ⟨fun h hdisables => absurd hdisables h, fun h hdisables => h hdisables hzero⟩
  · exact iff_of_true (fun h => absurd h hzero) fun _ => hzero

/-- Exactly the careful calls keep a Channel registered. -/
theorem Registered.call_iff (h : Registered loop c) (call : ChannelCall) (refused : Bool) :
    Registered (call.run c loop refused).2 (call.run c loop refused).1 ↔ c.Careful call refused := by
  cases call with
  | enableReading => exact h.updated_iff .enableReading (by decide)
  | disableReading => exact h.updated_iff .disableReading (by decide)
  | enableWriting => exact h.updated_iff .enableWriting (by decide)
  | disableWriting => exact h.updated_iff .disableWriting (by decide)
  | disableAll =>
      rw [ChannelCall.run, ChannelObject.disableAll]
      by_cases hzero : c.events = 0
      · rw [if_neg (not_not.mpr hzero)]
        exact iff_of_true h ⟨Bool.noConfusion, fun _ => (Channel.events_eq_zero.mp hzero).symm⟩
      · rw [if_pos hzero]
        have hwatched := h.watched
        rw [if_neg hzero] at hwatched
        have hempty : ({} : Channel).events = 0 := Channel.events_eq_zero.mpr rfl
        refine (@registered_remove_iff loop { c with toChannel := {} } refused _ hwatched hempty).trans ?_
        cases refused with
        | true =>
            refine iff_of_false Bool.noConfusion fun hcareful => hzero ?_
            exact Channel.events_eq_zero.mpr (hcareful.2 rfl).symm
        | false => exact iff_of_true rfl ⟨Bool.noConfusion, Bool.noConfusion⟩

/-- Once the destructor of a registered Channel has run, channels_ does not have its descriptor. -/
theorem Registered.find_destroy (h : Registered loop c) (refused : Bool) :
    (c.destroy loop refused).channels.find c.fd = none := by
  rw [ChannelObject.destroy, ChannelObject.disableAll]
  by_cases hzero : c.events = 0
  · rw [if_neg (not_not.mpr hzero), h.entry, if_pos hzero]
  · rw [if_pos hzero]
    exact @find_removeChannel loop { c with toChannel := {} } refused

/-- A call on a Channel leaves what the loop has for other descriptors as it is. -/
theorem find_run_of_ne (loop : EventLoop) (call : ChannelCall) (refused : Bool) (h : fd ≠ c.fd) :
    (call.run c loop refused).2.channels.find fd = loop.channels.find fd ∧
      (call.run c loop refused).2.epoll.find fd = loop.epoll.find fd := by
  cases call with
  | enableReading | disableReading | enableWriting | disableWriting => exact find_updateChannel_of_ne h
  | disableAll =>
      rw [ChannelCall.run, ChannelObject.disableAll]
      split
      next => exact find_removeChannel_of_ne h
      next => exact ⟨rfl, rfl⟩

end MiniStorage.Net
