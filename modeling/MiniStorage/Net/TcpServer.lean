import MiniStorage.Net.Registration

namespace MiniStorage.Net

open EventLoop Runs

/-- A TcpConnection object and its fd_. -/
structure ConnObject where
  fd : Int
  tcp : TcpConnection := {}

/-- Where the loop thread is in HandleEvent of a connection; `out` says that EPOLLOUT came with EPOLLIN. -/
inductive LoopPc
  | idle
  | reading (a : Nat) (out : Bool)
  | processing (a : Nat) (out : Bool)
  | writing (a : Nat)
deriving DecidableEq, Repr

namespace LoopPc

/-- The connection that the loop thread goes on with. -/
def object : LoopPc → Option Nat
  | .idle => none
  | .reading a _ | .processing a _ | .writing a => some a

/-- HandleRead has returned. -/
def afterRead (a : Nat) (out : Bool) : LoopPc := if out then .writing a else .idle

end LoopPc

/-- A TcpServer and its loop. The address of a connection is its place among all that were made. `held` has one entry
for each shared_ptr that a task has, in the thread pool or in pending_tasks_. -/
structure TcpServer where
  loop : EventLoop
  conn : Nat → ConnObject
  made : Nat := 0
  connections : SortedMap Int Nat := .empty
  held : List Nat := []
  pc : LoopPc := .idle

/-- What msg_cb_ does with a message: a NameNode submits a task, a RaftRPC replies or does not. -/
inductive MessageCallback
  | submit
  | reply (data : Bytes) (res : Outcome)
  | nothing
deriving DecidableEq, Repr

inductive TcpServerAction
  | accept (fd : Int)
  | event (fd : Int) (hup err inp out : Bool)
  | read (arrived : Bytes) (res : Outcome)
  | process (cb : MessageCallback)
  | write (res : Outcome)
  /-- A pending task sends a response. -/
  | respond (a : Nat) (data : Bytes) (res : Outcome)
  /-- A task is destroyed, on whichever thread. -/
  | drop (a : Nat)
deriving DecidableEq, Repr

namespace TcpServer

/-- Somebody has a shared_ptr of the connection. connections_ has one under its own descriptor, if it has one. -/
def alive (s : TcpServer) (a : Nat) : Bool := a ∈ s.held || s.connections.find (s.conn a).fd = some a

def channel (s : TcpServer) (a : Nat) : ChannelObject :=
  { toChannel := (s.conn a).tcp.channel, address := a, fd := (s.conn a).fd }

/-- A shared_ptr is gone, and with the last one the connection: ~TcpConnection. -/
def release (s : TcpServer) (a : Nat) : TcpServer :=
  if s.alive a then s else { s with loop := ((s.channel a).destroy s.loop false).close (s.conn a).fd }

/-- A function of a connection, with its calls on channel_. -/
def call (s : TcpServer) (a : Nat) (e : ConnectionEvent) : TcpServer :=
  let c := s.conn a
  { s with
    loop := ((c.tcp.calls e).foldl (fun p call => call.run p.1 p.2 false) (s.channel a, s.loop)).2
    conn := Function.update s.conn a { c with tcp := c.tcp.handle e } }

/-- The function ends in HandleClose. -/
def closes (s : TcpServer) (a : Nat) (e : ConnectionEvent) : Bool := .disableAll ∈ (s.conn a).tcp.calls e

/-- The same with close_cb_. -/
def perform (s : TcpServer) (a : Nat) (e : ConnectionEvent) : TcpServer :=
  let t := s.call a e
  if s.closes a e then { t with connections := t.connections.erase (s.conn a).fd }.release a else t

/-- HandleNewConnection, once accept has returned a descriptor. -/
def handleNewConnection (s : TcpServer) (fd : Int) : TcpServer :=
  let a := s.made
  let t := { s with
    conn := Function.update s.conn a { fd }
    made := a + 1
    connections := s.connections.insert fd a }
  ((s.connections.find fd).elim t t.release).perform a .start

/-- `own` are the descriptors that the server and its loop have for themselves. -/
def step (own : List Int) (s : TcpServer) : TcpServerAction → Option TcpServer
  | .accept fd =>
      if s.pc = .idle ∧ fd ∉ own ∧ ∀ a < s.made, s.alive a = true → (s.conn a).fd ≠ fd then
        some (s.handleNewConnection fd)
      else none
  | .event fd hup err inp out =>
      match s.pc, s.loop.channels.find fd with
      | .idle, some a =>
          if hup && !inp then some (s.perform a .handleClose)
          else if err then some (s.perform a .handleClose)
          else some { s with pc := if inp then .reading a out else if out then .writing a else .idle }
      | _, _ => none
  | .read arrived res =>
      match s.pc with
      | .reading a out =>
          let t := s.perform a (.handleRead arrived res)
          some { t with
            pc := if ((s.conn a).tcp.handleRead arrived res).1 then .processing a out else .afterRead a out }
      | _ => none
  | .process cb =>
      match s.pc with
      | .processing a out =>
          match (s.conn a).tcp.processMessage with
          | none => some { s with pc := .reading a out }
          | some (_, tcp) =>
              let t := { s with conn := Function.update s.conn a { s.conn a with tcp } }
              match cb with
              | .submit => some { t with held := a :: t.held }
              | .reply data res => some (t.perform a (.send data res))
              | .nothing => some t
      | _ => none
  | .write res =>
      match s.pc with
      | .writing a => some { s.perform a (.handleWrite res) with pc := .idle }
      | _ => none
  | .respond a data res => if s.pc = .idle ∧ a ∈ s.held then some (s.perform a (.send data res)) else none
  | .drop a => if a ∈ s.held then some ({ s with held := s.held.erase a }.release a) else none

def start (wakeupFd : Int) : TcpServer := { loop := .start wakeupFd, conn := fun _ => { fd := wakeupFd } }

/-- Before the step: a connection that closes while the loop goes on with it is held by a task, HandleWrite does not
come late, and the last task that holds the connection the loop is at does not end. -/
def Careful (s : TcpServer) : TcpServerAction → Prop
  | .read arrived res =>
      ∀ a ∈ s.pc.object, s.pc = .reading a true → s.closes a (.handleRead arrived res) = true → a ∈ s.held
  | .process (.reply data res) =>
      ∀ a ∈ s.pc.object, (s.conn a).tcp.processMessage ≠ none → s.closes a (.send data res) = true → a ∈ s.held
  | .write res => ∀ a ∈ s.pc.object, ¬ (s.conn a).tcp.LateWrite (.handleWrite res)
  | .drop a => s.pc.object = some a → a ∈ s.held.erase a ∨ s.connections.find (s.conn a).fd = some a
  | _ => True

instance (c : TcpConnection) (e : ConnectionEvent) : Decidable (c.LateWrite e) :=
  decidable_of_iff _ TcpConnection.lateWrite_iff.symm

instance (s : TcpServer) (act : TcpServerAction) : Decidable (Careful s act) := by
  cases act with
  | process cb => cases cb <;> unfold Careful <;> infer_instance
  | accept | event | read | write | respond | drop => unfold Careful; infer_instance

/-- The connections `live` have descriptors of their own and are registered with the loop, and nothing else is. -/
structure Tidy (own : List Int) (live : Nat → Prop) (s : TcpServer) : Prop where
  made : ∀ b, live b → b < s.made
  unique : ∀ b c, live b → live c → (s.conn b).fd = (s.conn c).fd → b = c
  apart : ∀ b, live b → (s.conn b).fd ∉ own
  registered : ∀ b, live b → Registered s.loop (s.channel b)
  free : ∀ fd, (∀ b, live b → (s.conn b).fd ≠ fd) →
    s.loop.channels.find fd = none ∧ (fd ∉ own → s.loop.epoll.find fd = none)

/-- No connection is used that has been destroyed: the loop thread is at none, channels_ has none, and connections_ has
each under its own descriptor. -/
structure Sound (own : List Int) (s : TcpServer) : Prop where
  tidy : Tidy own (fun b => s.alive b = true) s
  listed : ∀ fd b, s.connections.find fd = some b → (s.conn b).fd = fd ∧ b < s.made
  present : ∀ a ∈ s.pc.object, s.alive a = true

variable {own : List Int} {live live' : Nat → Prop} {s t : TcpServer} {a b : Nat} {e : ConnectionEvent} {fd : Int}
  {act : TcpServerAction}

theorem alive_iff : s.alive a = true ↔ a ∈ s.held ∨ s.connections.find (s.conn a).fd = some a := by
  simp [alive]

theorem Tidy.frame (h : Tidy own live s) (hloop : t.loop = s.loop) (hchannel : ∀ b, t.channel b = s.channel b)
    (hmade : t.made = s.made) (hlive : ∀ b, live b ↔ live' b) : Tidy own live' t := by
  obtain rfl : live = live' := funext fun b => propext (hlive b)
  have hfd (b : Nat) : (t.conn b).fd = (s.conn b).fd := congrArg ChannelObject.fd (hchannel b)
  refine ⟨?_, ?_, ?_, ?_, ?_⟩
  · rw [hmade]
    exact h.made
  · simp only [hfd]
    exact h.unique
  · simp only [hfd]
    exact h.apart
  · intro b hb
    rw [hloop, hchannel]
    exact h.registered b hb
  · simp only [hloop, hfd]
    exact h.free

theorem alive_release (s : TcpServer) (a b : Nat) : (s.release a).alive b = s.alive b := by
  rw [release]
  split <;> rfl

/-- ~TcpConnection leaves nothing of the connection with the loop. -/
theorem Tidy.destroy (h : Tidy own live s) (ha : live a) : Tidy own (fun b => live b ∧ b ≠ a)
    { s with loop := ((s.channel a).destroy s.loop false).close (s.conn a).fd } := by
  have hother : ∀ fd, fd ≠ (s.conn a).fd →
      (((s.channel a).destroy s.loop false).close (s.conn a).fd).channels.find fd = s.loop.channels.find fd ∧
        (((s.channel a).destroy s.loop false).close (s.conn a).fd).epoll.find fd = s.loop.epoll.find fd := by
    intro fd hne
    obtain ⟨hchannels, hepoll⟩ := @find_run_of_ne (s.channel a) fd s.loop .disableAll false hne
    refine ⟨hchannels, ?_⟩
    rw [EventLoop.close, SortedMap.find_erase, if_neg hne]
    exact hepoll
  refine ⟨fun b hb => h.made b hb.1, fun b c hb hc => h.unique b c hb.1 hc.1, fun b hb => h.apart b hb.1, ?_, ?_⟩
  · rintro b ⟨hb, hne⟩
    obtain ⟨hchannels, hepoll⟩ := hother (s.conn b).fd fun hfd => hne (h.unique b a hb ha hfd)
    exact ⟨hchannels.trans (h.registered b hb).entry, hepoll.trans (h.registered b hb).watched⟩
  · intro fd hfree
    by_cases hfd : fd = (s.conn a).fd
    · subst hfd
      refine ⟨(h.registered a ha).find_destroy false, fun _ => ?_⟩
      rw [EventLoop.close, SortedMap.find_erase, if_pos rfl]
    · obtain ⟨hchannels, hepoll⟩ := hother fd hfd
      have hnone := h.free fd fun b hb heq => hfree b ⟨hb, fun hba => hfd (hba ▸ heq.symm)⟩ heq
      exact ⟨hchannels.trans hnone.1, fun hown => hepoll.trans (hnone.2 hown)⟩

/-- Where one shared_ptr of a connection has gone, release destroys it if it was the last one. -/
theorem Tidy.release (h : Tidy own live s) (ha : live a) (hother : ∀ b, b ≠ a → (live b ↔ s.alive b = true)) :
    Tidy own (fun b => (s.release a).alive b = true) (s.release a) := by
  simp only [alive_release]
  rw [TcpServer.release]
  split
  next halive =>
    refine h.frame rfl (fun _ => rfl) rfl fun b => ?_
    by_cases hb : b = a
    · subst hb
      exact iff_of_true ha halive
    · exact hother b hb
  next hgone =>
    refine (h.destroy ha).frame rfl (fun _ => rfl) rfl fun b => ?_
    by_cases hb : b = a
    · subst hb
      exact iff_of_false (fun hb => hb.2 rfl) hgone
    · rw [and_iff_left hb]
      exact hother b hb

theorem fd_call (s : TcpServer) (a b : Nat) (e : ConnectionEvent) : ((s.call a e).conn b).fd = (s.conn b).fd := by
  by_cases hb : b = a
  · subst hb
    simp only [call, Function.update_self]
  · simp only [call, Function.update_of_ne hb]

theorem channel_call_of_ne (hb : b ≠ a) : (s.call a e).channel b = s.channel b := by
  simp only [channel, call, Function.update_of_ne hb]

/-- What the loop has of the connection afterwards is what the calls make of it. -/
theorem registered_call_iff (h : Registered s.loop (s.channel a)) :
    Registered (s.call a e).loop ((s.call a e).channel a) ↔ ¬ (s.conn a).tcp.LateWrite e := by
  have hchannel := (s.conn a).tcp.channel_handle e
  have hlate := @TcpConnection.lateWrite_iff (s.conn a).tcp e
  rcases (s.conn a).tcp.calls_cases e with hnil | ⟨call, hone⟩
  · rw [hnil] at hchannel hlate
    have hsame : (s.call a e).channel a = s.channel a := by
      simp only [channel, TcpServer.call, Function.update_self, hchannel, List.foldl_nil]
    have hloop : (s.call a e).loop = s.loop := by simp only [TcpServer.call, hnil, List.foldl_nil]
    rw [hsame, hloop]
    refine iff_of_true h fun hl => ?_
    obtain ⟨call, hmem, -⟩ := hlate.mp hl
    cases hmem
  · rw [hone] at hchannel hlate
    have hafter : (s.call a e).channel a = (call.run (s.channel a) s.loop false).1 := by
      rw [ChannelCall.run_fst]
      simp only [channel, TcpServer.call, Function.update_self, hchannel, List.foldl_cons, List.foldl_nil]
    have hloop : (s.call a e).loop = (call.run (s.channel a) s.loop false).2 := by
      simp only [TcpServer.call, hone, List.foldl_cons, List.foldl_nil]
    rw [hafter, hloop, h.call_iff call false, hlate]
    simp [ChannelObject.Careful, channel]

theorem find_call_of_ne (hfd : fd ≠ (s.conn a).fd) :
    (s.call a e).loop.channels.find fd = s.loop.channels.find fd ∧
      (s.call a e).loop.epoll.find fd = s.loop.epoll.find fd := by
  rcases (s.conn a).tcp.calls_cases e with hnil | ⟨call, hone⟩
  · simp only [TcpServer.call, hnil, List.foldl_nil, and_self]
  · simp only [TcpServer.call, hone, List.foldl_cons, List.foldl_nil]
    exact @find_run_of_ne (s.channel a) fd s.loop call false hfd

theorem Tidy.call_iff (h : Tidy own live s) (ha : live a) :
    Tidy own live (s.call a e) ↔ ¬ (s.conn a).tcp.LateWrite e := by
  rw [← registered_call_iff (h.registered a ha)]
  refine ⟨fun ht => ht.registered a ha, fun hreg => ⟨h.made, ?_, ?_, fun b hb => ?_, fun fd hfree => ?_⟩⟩
  · simp only [fd_call]
    exact h.unique
  · simp only [fd_call]
    exact h.apart
  · by_cases hba : b = a
    · subst hba
      exact hreg
    · rw [channel_call_of_ne hba]
      obtain ⟨hchannels, hepoll⟩ := @find_call_of_ne s a e (s.conn b).fd fun hfd => hba (h.unique b a hb ha hfd)
      exact ⟨hchannels.trans (h.registered b hb).entry, hepoll.trans (h.registered b hb).watched⟩
  · simp only [fd_call] at hfree
    obtain ⟨hchannels, hepoll⟩ := @find_call_of_ne s a e fd (hfree a ha).symm
    obtain ⟨hnone, hnone'⟩ := h.free fd hfree
    exact ⟨hchannels.trans hnone, fun hown => hepoll.trans (hnone' hown)⟩

theorem alive_call (s : TcpServer) (a b : Nat) (e : ConnectionEvent) : (s.call a e).alive b = s.alive b := by
  rw [alive, alive, fd_call]
  rfl

/-- The connection has left connections_, its last shared_ptr apart. -/
def unlisted (s : TcpServer) (a : Nat) (e : ConnectionEvent) : TcpServer :=
  { s.call a e with connections := s.connections.erase (s.conn a).fd }

theorem perform_of_closes (h : s.closes a e = true) : s.perform a e = (s.unlisted a e).release a := if_pos h

theorem perform_of_not_closes (h : ¬ s.closes a e = true) : s.perform a e = s.call a e := if_neg h

/-- HandleClose does not disable what is disabled. -/
theorem not_lateWrite_of_closes (h : s.closes a e = true) : ¬ (s.conn a).tcp.LateWrite e := by
  intro hlate
  obtain ⟨call, hmem, hdisables, -⟩ := TcpConnection.lateWrite_iff.mp hlate
  have hclose : ChannelCall.disableAll ∈ (s.conn a).tcp.calls e := of_decide_eq_true h
  rcases (s.conn a).tcp.calls_cases e with hnil | ⟨call', hone⟩
  · rw [hnil] at hmem
    cases hmem
  · rw [hone, List.mem_singleton] at hmem hclose
    rw [hmem, ← hclose] at hdisables
    cases hdisables

theorem alive_unlisted_self : (s.unlisted a e).alive a = true ↔ a ∈ s.held := by
  rw [alive_iff]
  simp only [unlisted, fd_call, SortedMap.find_erase, if_true, reduceCtorEq, or_false]
  exact Iff.rfl

/-- Only its own entry goes. -/
theorem alive_unlisted_of_ne (h : Tidy own (fun b => s.alive b = true) s) (ha : s.alive a = true) (hb : b ≠ a) :
    (s.unlisted a e).alive b = true ↔ s.alive b = true := by
  rw [alive_iff, alive_iff]
  simp only [unlisted, fd_call, SortedMap.find_erase]
  by_cases hfd : (s.conn b).fd = (s.conn a).fd
  · rw [if_pos hfd]
    refine or_congr_right (iff_of_false (fun hnone => nomatch hnone) fun hfound => ?_)
    exact hb (h.unique b a (alive_iff.mpr (.inr hfound)) ha hfd)
  · rw [if_neg hfd]
    exact Iff.rfl

/-- After a function of a connection, the connection itself may be gone. -/
theorem alive_perform (h : Tidy own (fun b => s.alive b = true) s) (ha : s.alive a = true) :
    (s.perform a e).alive b = true ↔ s.alive b = true ∧ (b = a → s.closes a e = true → a ∈ s.held) := by
  by_cases hcloses : s.closes a e = true
  · rw [perform_of_closes hcloses, alive_release]
    by_cases hb : b = a
    · subst hb
      rw [alive_unlisted_self]
      exact ⟨fun hheld => ⟨ha, fun _ _ => hheld⟩, fun h => h.2 rfl hcloses⟩
    · rw [alive_unlisted_of_ne h ha hb]
      exact (and_iff_left fun he => absurd he hb).symm
  · rw [perform_of_not_closes hcloses, alive_call]
    exact (and_iff_left fun _ hc => absurd hc hcloses).symm

theorem tidy_perform_iff (h : Tidy own (fun b => s.alive b = true) s) (ha : s.alive a = true) :
    Tidy own (fun b => (s.perform a e).alive b = true) (s.perform a e) ↔ ¬ (s.conn a).tcp.LateWrite e := by
  by_cases hcloses : s.closes a e = true
  · have hlate := not_lateWrite_of_closes hcloses
    rw [perform_of_closes hcloses]
    refine iff_of_true ?_ hlate
    have hunlisted : Tidy own (fun b => s.alive b = true) (s.unlisted a e) :=
      ((h.call_iff ha).mpr hlate).frame rfl (fun _ => rfl) rfl fun b => Iff.rfl
    exact hunlisted.release ha fun b hb => (alive_unlisted_of_ne h ha hb).symm
  · rw [perform_of_not_closes hcloses]
    simp only [alive_call]
    exact h.call_iff ha

theorem fd_perform (s : TcpServer) (a b : Nat) (e : ConnectionEvent) : ((s.perform a e).conn b).fd = (s.conn b).fd := by
  by_cases hcloses : s.closes a e = true
  · rw [perform_of_closes hcloses, release]
    split <;> exact fd_call s a b e
  · rw [perform_of_not_closes hcloses, fd_call]

theorem perform_fields (s : TcpServer) (a : Nat) (e : ConnectionEvent) :
    (s.perform a e).made = s.made ∧ (s.perform a e).held = s.held ∧ (s.perform a e).pc = s.pc ∧
      ∀ fd b, (s.perform a e).connections.find fd = some b → s.connections.find fd = some b := by
  by_cases hcloses : s.closes a e = true
  · rw [perform_of_closes hcloses, release]
    have herase : ∀ fd b, (s.connections.erase (s.conn a).fd).find fd = some b → s.connections.find fd = some b := by
      intro fd b hfound
      rw [SortedMap.find_erase] at hfound
      split at hfound
      next => cases hfound
      next => exact hfound
    split <;> exact ⟨rfl, rfl, rfl, herase⟩
  · rw [perform_of_not_closes hcloses]
    exact ⟨rfl, rfl, rfl, fun fd b hfound => hfound⟩

theorem listed_perform (h : ∀ fd b, s.connections.find fd = some b → (s.conn b).fd = fd ∧ b < s.made)
    (hfound : (s.perform a e).connections.find fd = some b) :
    ((s.perform a e).conn b).fd = fd ∧ b < (s.perform a e).made := by
  obtain ⟨hmade, -, -, hfind⟩ := s.perform_fields a e
  rw [fd_perform, hmade]
  exact h fd b (hfind fd b hfound)

/-- Where the loop thread is when a function returns, and what has become of the connection. -/
theorem Sound.perform_iff (h : Sound own s) (ha : s.alive a = true) (pc : LoopPc) (hpc : ∀ b ∈ pc.object, b = a) :
    Sound own { s.perform a e with pc } ↔
      ¬ (s.conn a).tcp.LateWrite e ∧ (pc ≠ .idle → s.closes a e = true → a ∈ s.held) := by
  have htidy := tidy_perform_iff (e := e) h.tidy ha
  have hidle : pc ≠ .idle ↔ a ∈ pc.object := by
    cases pc with
    | idle => simp [LoopPc.object]
    | reading b out | processing b out | writing b =>
        refine iff_of_true nofun ?_
        rw [← hpc b rfl]
        rfl
  rw [hidle]
  constructor
  · intro ht
    refine ⟨htidy.mp (ht.tidy.frame rfl (fun _ => rfl) rfl fun b => Iff.rfl), fun hat => ?_⟩
    exact ((alive_perform h.tidy ha).mp (ht.present a hat)).2 rfl
  · rintro ⟨hlate, hheld⟩
    refine ⟨(htidy.mpr hlate).frame rfl (fun _ => rfl) rfl fun b => Iff.rfl,
      fun _ _ => listed_perform h.listed, fun b hb => ?_⟩
    obtain rfl := hpc b hb
    exact (alive_perform h.tidy ha).mpr ⟨ha, fun _ => hheld hb⟩

theorem Sound.perform_idle_iff (h : Sound own s) (ha : s.alive a = true) (hpc : s.pc = .idle) :
    Sound own (s.perform a e) ↔ ¬ (s.conn a).tcp.LateWrite e := by
  have hsame : { s.perform a e with pc := .idle } = s.perform a e := by
    rw [← hpc, ← (s.perform_fields a e).2.2.1]
  rw [← hsame, h.perform_iff ha .idle nofun]
  exact and_iff_left fun hne => absurd rfl hne

/-- A Channel in channels_ is that of a connection that exists. -/
theorem Sound.alive_of_channels (h : Sound own s) (hfound : s.loop.channels.find fd = some a) :
    s.alive a = true := by
  by_contra hgone
  have hnone : ∀ b, s.alive b = true → (s.conn b).fd ≠ fd := by
    rintro b hb rfl
    have hentry := (h.tidy.registered b hb).entry
    rw [show (s.channel b).fd = (s.conn b).fd from rfl, hfound] at hentry
    split at hentry
    next => cases hentry
    next => exact hgone (Option.some.inj hentry ▸ hb)
  rw [(h.tidy.free fd hnone).1] at hfound
  cases hfound

/-- The new connection is in connections_ and not started yet. -/
def entered (s : TcpServer) (fd : Int) : TcpServer :=
  { s with
    conn := Function.update s.conn s.made { fd }
    made := s.made + 1
    connections := s.connections.insert fd s.made }

theorem conn_entered (s : TcpServer) (fd : Int) : (s.entered fd).conn s.made = { fd } := Function.update_self ..

theorem conn_entered_of_ne (hb : b ≠ s.made) : (s.entered fd).conn b = s.conn b := Function.update_of_ne hb ..

theorem alive_entered (s : TcpServer) (fd : Int) : (s.entered fd).alive s.made = true := by
  rw [alive_iff, conn_entered]
  exact .inr (by simp only [entered, SortedMap.find_insert, if_true])

theorem alive_entered_of_ne (hentry : s.connections.find fd = none) (hb : b ≠ s.made) :
    (s.entered fd).alive b = true ↔ s.alive b = true := by
  rw [alive_iff, alive_iff, conn_entered_of_ne hb]
  simp only [entered, SortedMap.find_insert]
  by_cases hfd : (s.conn b).fd = fd
  · rw [if_pos hfd, hfd, hentry]
    refine or_congr_right (iff_of_false (fun he => ?_) nofun)
    exact hb (Option.some.inj he).symm
  · rw [if_neg hfd]

theorem registered_entered (hchannels : s.loop.channels.find fd = none) (hepoll : s.loop.epoll.find fd = none) :
    Registered (s.entered fd).loop ((s.entered fd).channel s.made) := by
  have hchannel : (s.entered fd).channel s.made = { address := s.made, fd } := by rw [channel, conn_entered]
  have hzero : ({ address := s.made, fd } : ChannelObject).events = 0 := Channel.events_eq_zero.mpr rfl
  rw [hchannel]
  refine ⟨?_, ?_⟩
  · rw [if_pos hzero]
    exact hchannels
  · rw [if_pos hzero]
    exact hepoll

theorem Tidy.entered (h : Tidy own (fun b => s.alive b = true) s) (hown : fd ∉ own)
    (hapart : ∀ b, s.alive b = true → (s.conn b).fd ≠ fd) (hentry : s.connections.find fd = none) :
    Tidy own (fun b => (s.entered fd).alive b = true) (s.entered fd) := by
  obtain ⟨hchannels, hepoll⟩ := h.free fd hapart
  have hold (b : Nat) (hbm : b ≠ s.made) (hb : (s.entered fd).alive b = true) : s.alive b = true :=
    (alive_entered_of_ne hentry hbm).mp hb
  refine ⟨fun b hb => ?_, fun b c hb hc hfd => ?_, fun b hb => ?_, fun b hb => ?_, fun fd' hfree => ?_⟩
  · by_cases hbm : b = s.made
    · exact hbm ▸ Nat.lt_succ_self _
    · exact (h.made b (hold b hbm hb)).trans (Nat.lt_succ_self _)
  · by_cases hbm : b = s.made <;> by_cases hcm : c = s.made
    · exact hbm.trans hcm.symm
    · rw [hbm, conn_entered, conn_entered_of_ne hcm] at hfd
      exact absurd hfd.symm (hapart c (hold c hcm hc))
    · rw [hcm, conn_entered, conn_entered_of_ne hbm] at hfd
      exact absurd hfd (hapart b (hold b hbm hb))
    · rw [conn_entered_of_ne hbm, conn_entered_of_ne hcm] at hfd
      exact h.unique b c (hold b hbm hb) (hold c hcm hc) hfd
  · by_cases hbm : b = s.made
    · rw [hbm, conn_entered]
      exact hown
    · rw [conn_entered_of_ne hbm]
      exact h.apart b (hold b hbm hb)
  · by_cases hbm : b = s.made
    · exact hbm ▸ registered_entered hchannels (hepoll hown)
    · have hsame : (s.entered fd).channel b = s.channel b := by rw [channel, channel, conn_entered_of_ne hbm]
      rw [hsame]
      exact h.registered b (hold b hbm hb)
  · refine h.free fd' fun b hb => ?_
    have hbm : b ≠ s.made := (h.made b hb).ne
    rw [← conn_entered_of_ne hbm]
    exact hfree b ((alive_entered_of_ne hentry hbm).mpr hb)

/-- accept gives a descriptor that nobody has, so the entry is a new one. -/
theorem Sound.handleNewConnection (h : Sound own s) (hpc : s.pc = .idle) (hown : fd ∉ own)
    (hfree : ∀ b < s.made, s.alive b = true → (s.conn b).fd ≠ fd) : Sound own (s.handleNewConnection fd) := by
  have hapart : ∀ b, s.alive b = true → (s.conn b).fd ≠ fd := fun b hb => hfree b (h.tidy.made b hb) hb
  have hentry : s.connections.find fd = none := by
    cases hfound : s.connections.find fd with
    | none => rfl
    | some b =>
        obtain ⟨hfd, -⟩ := h.listed fd b hfound
        exact absurd hfd (hapart b (alive_iff.mpr (.inr (hfd ▸ hfound))))
  rw [TcpServer.handleNewConnection, hentry, Option.elim_none]
  have hlisted : ∀ fd' b, (s.entered fd).connections.find fd' = some b →
      ((s.entered fd).conn b).fd = fd' ∧ b < (s.entered fd).made := by
    intro fd' b hfound
    simp only [TcpServer.entered, SortedMap.find_insert] at hfound
    split at hfound
    next he =>
      obtain rfl := Option.some.inj hfound
      rw [conn_entered]
      exact ⟨he.symm, Nat.lt_succ_self _⟩
    next =>
      obtain ⟨hfd, hlt⟩ := h.listed fd' b hfound
      rw [conn_entered_of_ne hlt.ne]
      exact ⟨hfd, hlt.trans (Nat.lt_succ_self _)⟩
  have hsound : Sound own (s.entered fd) :=
    ⟨h.tidy.entered hown hapart hentry, hlisted, fun b hb => by rw [TcpServer.entered, hpc] at hb; cases hb⟩
  exact (hsound.perform_idle_iff (s.alive_entered fd) hpc).mpr (by rintro ⟨⟩)

theorem processMessage_fields {c c' : TcpConnection} {m : Bytes} (h : c.processMessage = some (m, c')) :
    c'.channel = c.channel ∧ c'.writeBuf = c.writeBuf := by
  rw [TcpConnection.processMessage] at h
  split at h
  next => cases h
  next =>
    dsimp only at h
    split at h
    next => cases h
    next =>
      obtain ⟨-, rfl⟩ := Prod.mk.inj (Option.some.inj h)
      exact ⟨rfl, rfl⟩

theorem calls_send {c c' : TcpConnection} (h : c'.writeBuf = c.writeBuf) (data : Bytes) (res : Outcome) :
    c'.calls (.send data res) = c.calls (.send data res) := by
  unfold TcpConnection.calls
  rw [h]

/-- HandleRead closes, or ProcessMessages is called. -/
theorem handleRead_of_closes {arrived : Bytes} {res : Outcome} (h : s.closes a (.handleRead arrived res) = true) :
    ((s.conn a).tcp.handleRead arrived res).1 = false := by
  cases res with
  | count n =>
      by_cases hn : 0 < n
      · simp [closes, TcpConnection.calls, hn] at h
      · simp [TcpConnection.handleRead, hn]
  | wouldBlock | failed => rfl

/-- A message is taken off the buffer. -/
theorem Sound.set_tcp (h : Sound own s) {tcp : TcpConnection} (hchannel : tcp.channel = (s.conn a).tcp.channel) :
    Sound own { s with conn := Function.update s.conn a { s.conn a with tcp } } := by
  have hfd (b : Nat) : (Function.update s.conn a { s.conn a with tcp } b).fd = (s.conn b).fd := by
    by_cases hb : b = a
    · subst hb
      rw [Function.update_self]
    · rw [Function.update_of_ne hb]
  have hchannels (b : Nat) :
      ({ s with conn := Function.update s.conn a { s.conn a with tcp } } : TcpServer).channel b = s.channel b := by
    by_cases hb : b = a
    · subst hb
      simp only [channel, Function.update_self, hchannel]
    · simp only [channel, Function.update_of_ne hb]
  have halive (b : Nat) :
      ({ s with conn := Function.update s.conn a { s.conn a with tcp } } : TcpServer).alive b = s.alive b := by
    simp only [alive, hfd]
  refine ⟨h.tidy.frame rfl hchannels rfl fun b => by rw [halive], fun fd b hfound => ?_, fun b hb => ?_⟩
  · rw [hfd]
    exact h.listed fd b hfound
  · rw [halive]
    exact h.present b hb

/-- A task gets a shared_ptr of a connection that exists. -/
theorem Sound.hold (h : Sound own s) (ha : s.alive a = true) : Sound own { s with held := a :: s.held } := by
  have halive (b : Nat) : ({ s with held := a :: s.held } : TcpServer).alive b = true ↔ s.alive b = true := by
    rw [alive_iff, alive_iff, List.mem_cons]
    constructor
    · rintro ((rfl | hb) | hb)
      · exact alive_iff.mp ha
      · exact .inl hb
      · exact .inr hb
    · exact Or.imp_left .inr
  exact ⟨h.tidy.frame rfl (fun _ => rfl) rfl fun b => (halive b).symm, h.listed,
    fun b hb => (halive b).mpr (h.present b hb)⟩

theorem Sound.drop_iff (h : Sound own s) (ha : a ∈ s.held) :
    Sound own ({ s with held := s.held.erase a }.release a) ↔ Careful s (.drop a) := by
  have hother (b : Nat) (hb : b ≠ a) :
      s.alive b = true ↔ ({ s with held := s.held.erase a } : TcpServer).alive b = true := by
    rw [alive_iff, alive_iff, List.mem_erase_of_ne hb]
  have hself : ({ s with held := s.held.erase a } : TcpServer).alive a = true ↔
      a ∈ s.held.erase a ∨ s.connections.find (s.conn a).fd = some a := alive_iff
  have hpc : ({ s with held := s.held.erase a }.release a).pc = s.pc := by
    rw [release]
    split <;> rfl
  constructor
  · intro ht hat
    have hpresent := ht.present a (by rw [hpc]; exact hat)
    rw [alive_release] at hpresent
    exact hself.mp hpresent
  · intro hcareful
    have hkept : Tidy own (fun b => s.alive b = true) { s with held := s.held.erase a } :=
      h.tidy.frame rfl (fun _ => rfl) rfl fun _ => Iff.rfl
    refine ⟨hkept.release (alive_iff.mpr (.inl ha)) hother, ?_, fun b hb => ?_⟩
    · rw [release]
      split <;> exact h.listed
    · rw [hpc] at hb
      rw [alive_release]
      by_cases hba : b = a
      · subst hba
        exact hself.mpr (hcareful hb)
      · exact (hother b hba).mp (h.present b hb)

theorem object_afterRead (a : Nat) (out : Bool) : ∀ b ∈ (LoopPc.afterRead a out).object, b = a := by
  cases out with
  | true => exact fun b hb => (Option.some.inj hb).symm
  | false => exact fun b hb => nomatch hb

theorem Sound.read_iff (h : Sound own s) {out : Bool} (hpc : s.pc = .reading a out) (arrived : Bytes) (res : Outcome) :
    Sound own { s.perform a (.handleRead arrived res) with
      pc := if ((s.conn a).tcp.handleRead arrived res).1 then .processing a out else .afterRead a out } ↔
      Careful s (.read arrived res) := by
  have ha : s.alive a = true := h.present a (by rw [hpc]; rfl)
  rw [Careful, hpc]
  cases hmore : ((s.conn a).tcp.handleRead arrived res).1 with
  | true =>
      have hopen : ¬ s.closes a (.handleRead arrived res) = true := fun hcloses => by
        rw [handleRead_of_closes hcloses] at hmore
        cases hmore
      rw [if_pos rfl, h.perform_iff ha (.processing a out) fun b hb => (Option.some.inj hb).symm]
      refine iff_of_true ⟨by rintro ⟨⟩, fun _ hcloses => absurd hcloses hopen⟩ ?_
      rintro b - hb hcloses
      obtain ⟨rfl, -⟩ := LoopPc.reading.inj hb
      exact absurd hcloses hopen
  | false =>
      rw [if_neg Bool.false_ne_true, h.perform_iff ha _ (object_afterRead a out)]
      cases out with
      | true =>
          constructor
          · rintro ⟨-, hheld⟩ b - hb hcloses
            obtain ⟨rfl, -⟩ := LoopPc.reading.inj hb
            exact hheld nofun hcloses
          · exact fun hcareful => ⟨by rintro ⟨⟩, fun _ hcloses => hcareful a rfl rfl hcloses⟩
      | false =>
          refine iff_of_true ⟨by rintro ⟨⟩, fun hne => absurd rfl hne⟩ fun b _ hb => ?_
          obtain ⟨-, hout⟩ := LoopPc.reading.inj hb
          cases hout

theorem Sound.process_iff (h : Sound own s) {out : Bool} (hpc : s.pc = .processing a out) {m : Bytes}
    {tcp : TcpConnection} (hm : (s.conn a).tcp.processMessage = some (m, tcp)) (data : Bytes) (res : Outcome) :
    Sound own ({ s with conn := Function.update s.conn a { s.conn a with tcp } }.perform a (.send data res)) ↔
      Careful s (.process (.reply data res)) := by
  obtain ⟨hchannel, hbuf⟩ := processMessage_fields hm
  have hsound := h.set_tcp hchannel
  generalize hu : ({ s with conn := Function.update s.conn a { s.conn a with tcp } } : TcpServer) = u at hsound ⊢
  have hpc' : u.pc = .processing a out := by rw [← hu, hpc]
  have hconn : (u.conn a).tcp = tcp := by
    simp only [← hu, Function.update_self]
  have hcloses : u.closes a (.send data res) = s.closes a (.send data res) := by
    rw [closes, closes, hconn, calls_send hbuf]
  have hheld : u.held = s.held := by rw [← hu]
  have hsame : u.perform a (.send data res) = { u.perform a (.send data res) with pc := .processing a out } := by
    rw [← hpc', ← (u.perform_fields a (.send data res)).2.2.1]
  have ha : u.alive a = true := hsound.present a (by rw [hpc']; rfl)
  rw [hsame, hsound.perform_iff ha (.processing a out) fun b hb => (Option.some.inj hb).symm, hcloses, hheld, Careful,
    hpc]
  constructor
  · rintro ⟨-, hkept⟩ b hb -
    obtain rfl := Option.some.inj hb
    exact hkept nofun
  · exact fun hcareful => ⟨by rintro ⟨⟩, fun _ => hcareful a rfl (by rw [hm]; nofun)⟩

/-- Exactly the careful steps keep everything that is used alive. -/
theorem Sound.step_iff (h : Sound own s) (hs : step own s act = some t) : Sound own t ↔ Careful s act := by
  cases act with
  | accept fd =>
      rw [step, Option.ite_none_right_eq_some] at hs
      obtain ⟨⟨hpc, hown, hfree⟩, hs⟩ := hs
      obtain rfl := Option.some.inj hs
      exact iff_of_true (h.handleNewConnection hpc hown hfree) trivial
  | event fd hup err inp out =>
      simp only [step] at hs
      split at hs
      next a hpc hfound =>
        have ha := h.alive_of_channels hfound
        have hclosed : Sound own (s.perform a .handleClose) :=
          (h.perform_idle_iff ha hpc).mpr (by rintro ⟨⟩)
        refine iff_of_true ?_ trivial
        split at hs
        next => exact Option.some.inj hs ▸ hclosed
        next =>
          split at hs
          next => exact Option.some.inj hs ▸ hclosed
          next =>
            obtain rfl := Option.some.inj hs
            refine ⟨h.tidy.frame rfl (fun _ => rfl) rfl fun _ => Iff.rfl, h.listed, fun b hb => ?_⟩
            have hba : b = a := by
              cases inp with
              | true => exact (Option.some.inj hb).symm
              | false => exact object_afterRead a out b hb
            exact hba ▸ ha
      next => cases hs
  | read arrived res =>
      simp only [step] at hs
      split at hs
      next a out hpc =>
        obtain rfl := Option.some.inj hs
        exact h.read_iff hpc arrived res
      next => cases hs
  | process cb =>
      simp only [step] at hs
      split at hs
      next a out hpc =>
        have ha : s.alive a = true := h.present a (by rw [hpc]; rfl)
        cases hm : (s.conn a).tcp.processMessage with
        | none =>
            rw [hm] at hs
            obtain rfl := Option.some.inj hs
            have hsound : Sound own { s with pc := .reading a out } :=
              ⟨h.tidy.frame rfl (fun _ => rfl) rfl fun _ => Iff.rfl, h.listed,
                fun b hb => Option.some.inj hb ▸ ha⟩
            refine iff_of_true hsound ?_
            cases cb with
            | submit | nothing => trivial
            | reply data res =>
                intro b hb hsome
                rw [hpc] at hb
                obtain rfl := Option.some.inj hb
                exact absurd hm hsome
        | some taken =>
            obtain ⟨m, tcp⟩ := taken
            have hsound := h.set_tcp (processMessage_fields hm).1
            rw [hm] at hs
            cases cb with
            | submit =>
                obtain rfl := Option.some.inj hs
                exact iff_of_true (hsound.hold (hsound.present a (by rw [show _ = s.pc from rfl, hpc]; rfl))) trivial
            | nothing =>
                obtain rfl := Option.some.inj hs
                exact iff_of_true hsound trivial
            | reply data res =>
                obtain rfl := Option.some.inj hs
                exact h.process_iff hpc hm data res
      next => cases hs
  | write res =>
      simp only [step] at hs
      split at hs
      next a hpc =>
        obtain rfl := Option.some.inj hs
        rw [h.perform_iff (h.present a (by rw [hpc]; rfl)) .idle nofun]
        simp [Careful, hpc, LoopPc.object]
      next => cases hs
  | respond a data res =>
      rw [step, Option.ite_none_right_eq_some] at hs
      obtain ⟨⟨hpc, hheld⟩, hs⟩ := hs
      obtain rfl := Option.some.inj hs
      exact iff_of_true ((h.perform_idle_iff (alive_iff.mpr (.inl hheld)) hpc).mpr (by rintro ⟨⟩)) trivial
  | drop a =>
      rw [step, Option.ite_none_right_eq_some] at hs
      obtain ⟨hheld, hs⟩ := hs
      obtain rfl := Option.some.inj hs
      exact h.drop_iff hheld

theorem sound_start {wakeupFd : Int} (h : wakeupFd ∈ own) : Sound own (start wakeupFd) := by
  have hnone (b : Nat) : ¬ (start wakeupFd).alive b = true := by simp [alive_iff, start]
  refine ⟨⟨fun b hb => absurd hb (hnone b), fun b c hb => absurd hb (hnone b), fun b hb => absurd hb (hnone b),
    fun b hb => absurd hb (hnone b), fun fd _ => ⟨rfl, fun hfd => ?_⟩⟩, ?_, ?_⟩
  · have hne : fd ≠ wakeupFd := fun heq => hfd (heq ▸ h)
    exact (find_epollCtl_of_ne hne).trans (SortedMap.find_empty fd)
  · exact fun fd b hfound => nomatch hfound
  · exact fun b hb => nomatch hb

/-- A request comes, a task answers it in part and ends. -/
def answered : List TcpServerAction :=
  [.accept 5, .event 5 false false true false, .read [0, 0, 0, 1, 9] (.count 5), .process .submit, .process .nothing,
    .read [] .wouldBlock, .respond 0 [7] (.count 2), .drop 0]

end TcpServer

end MiniStorage.Net
