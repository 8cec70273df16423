import MiniStorage.Replication.Logs
import Mathlib.Data.Finset.Basic
import Mathlib.Data.Set.Basic

namespace MiniStorage.Replication

inductive Role
  | follower
  | candidate
  | leader
deriving DecidableEq

/-- Replication of a log by elected leaders, without messages. Beside what the
nodes hold, the state records every vote ever cast, every leader with the log
it was elected on and its log since, what each node has acknowledged to the
leader of each term, and the positions leaders have committed. -/
structure State (N E : Type*) where
  term : N → Nat
  role : N → Role
  log : N → List E
  vote : N → Nat → Option N
  lead : Nat → Option N
  elog : Nat → List E
  llog : Nat → List E
  ack : N → Nat → Nat
  commit : Set (Nat × Nat)

def State.initial (N E : Type*) : State N E where
  term _ := 0
  role _ := .follower
  log _ := []
  vote _ _ := none
  lead _ := none
  elog _ := []
  llog _ := []
  ack _ _ := 0
  commit := ∅

variable {N E : Type*} [DecidableEq N]

namespace State

def cast (a : State N E) (v : N) (t : Nat) (c : N) : State N E :=
  { a with vote := Function.update a.vote v (Function.update (a.vote v) t (some c)) }

def follow (a : State N E) (v : N) (t : Nat) : State N E :=
  { a with term := Function.update a.term v t, role := Function.update a.role v .follower }

def stand (a : State N E) (v : N) : State N E :=
  { a with
    term := Function.update a.term v (a.term v + 1)
    role := Function.update a.role v .candidate }.cast v (a.term v + 1) v

def grant (a : State N E) (v c : N) : State N E := a.cast v (a.term v) c

def win (a : State N E) (v : N) : State N E :=
  { a with
    role := Function.update a.role v .leader
    lead := Function.update a.lead (a.term v) (some v)
    elog := Function.update a.elog (a.term v) (a.log v)
    llog := Function.update a.llog (a.term v) (a.log v) }

def propose (a : State N E) (v : N) (e : E) : State N E :=
  { a with
    log := Function.update a.log v (a.log v ++ [e])
    llog := Function.update a.llog (a.term v) (a.llog (a.term v) ++ [e]) }

def truncate (a : State N E) (v : N) (k : Nat) : State N E :=
  { a with log := Function.update a.log v ((a.log v).take k) }

def extend (a : State N E) (v : N) (X : List E) : State N E :=
  { a with log := Function.update a.log v (a.log v ++ X) }

def acknowledge (a : State N E) (v : N) (m : Nat) : State N E :=
  { a with
    ack := Function.update a.ack v
      (Function.update (a.ack v) (a.term v) (max (a.ack v (a.term v)) m)) }

def decide (a : State N E) (t i : Nat) : State N E := { a with commit := insert (t, i) a.commit }

end State

/-- The node has an entry at a position where its term's leader has another one. -/
def State.Conflict (a : State N E) (v : N) (k : Nat) : Prop :=
  a.lead (a.term v) ≠ none ∧
    ∃ x y, (a.log v)[k]? = some x ∧ (a.llog (a.term v))[k]? = some y ∧ x ≠ y

/-- The steps, over entries with a term and a family of quorums. -/
inductive Step (τ : E → Nat) (quorum : Finset N → Prop) (a : State N E) : State N E → Prop
  | follow (v : N) (t : Nat) (ht : a.term v ≤ t) : Step τ quorum a (a.follow v t)
  | stand (v : N) : Step τ quorum a (a.stand v)
  | grant (v c : N) (hfree : a.vote v (a.term v) = none ∨ a.vote v (a.term v) = some c)
      (hterm : a.term v ≤ a.term c)
      (hup : a.role c = .candidate → a.term c = a.term v → UpToDate τ (a.log c) (a.log v)) :
      Step τ quorum a (a.grant v c)
  | win (c : N) (hrole : a.role c = .candidate) (S : Finset N) (hS : quorum S)
      (hvotes : ∀ v ∈ S, a.vote v (a.term c) = some c) : Step τ quorum a (a.win c)
  | propose (v : N) (e : E) (hrole : a.role v = .leader) (he : τ e = a.term v) :
      Step τ quorum a (a.propose v e)
  /-- What was acknowledged is only given up for a leader that has something else there. -/
  | truncate (v : N) (k : Nat) (hrole : a.role v = .follower)
      (hwhy : (∀ t, a.ack v t = 0) ∨ a.Conflict v k) : Step τ quorum a (a.truncate v k)
  | extend (v : N) (X : List E) (hrole : a.role v = .follower)
      (hroot : Rooted τ a.llog (a.log v ++ X)) (hterm : ∀ e ∈ X, τ e ≤ a.term v) :
      Step τ quorum a (a.extend v X)
  | acknowledge (v : N) (m : Nat) (hlead : a.lead (a.term v) ≠ none)
      (hm : m ≤ (a.llog (a.term v)).length) (hp : (a.llog (a.term v)).take m <+: a.log v) :
      Step τ quorum a (a.acknowledge v m)
  /-- A leader counts copies only of an entry of its own term. -/
  | decide (t k : Nat) (e : E) (he : (a.llog t)[k]? = some e) (ht : τ e = t) (S : Finset N)
      (hS : quorum S) (hack : ∀ v ∈ S, k + 1 ≤ a.ack v t) : Step τ quorum a (a.decide t (k + 1))

/-- What a later state still says of an earlier one: votes, leaders, leaders'
logs, acknowledgements and commits are only added to. -/
structure State.Le (a b : State N E) : Prop where
  term : ∀ v, a.term v ≤ b.term v
  vote : ∀ v t c, a.vote v t = some c → b.vote v t = some c
  lead : ∀ t c, a.lead t = some c → b.lead t = some c
  elog : ∀ t c, a.lead t = some c → b.elog t = a.elog t
  llog : ∀ t, a.llog t <+: b.llog t
  ack : ∀ v t, a.ack v t ≤ b.ack v t
  commit : a.commit ⊆ b.commit

omit [DecidableEq N] in
theorem State.Le.refl (a : State N E) : a.Le a :=
  ⟨fun _ => le_rfl, fun _ _ _ h => h, fun _ _ h => h, fun _ _ _ => rfl,
    fun _ => List.prefix_refl _, fun _ _ => le_rfl, subset_rfl⟩

omit [DecidableEq N] in
theorem State.Le.trans {a b c : State N E} (h : a.Le b) (k : b.Le c) : a.Le c :=
  ⟨fun v => (h.term v).trans (k.term v), fun v t w e => k.vote v t w (h.vote v t w e),
    fun t w e => k.lead t w (h.lead t w e),
    fun t w e => (k.elog t w (h.lead t w e)).trans (h.elog t w e),
    fun t => (h.llog t).trans (k.llog t), fun v t => (h.ack v t).trans (k.ack v t),
    h.commit.trans k.commit⟩

end MiniStorage.Replication
