import MiniStorage.Datanode.BlockStore
import Mathlib.Algebra.Ring.Int.Defs
import Mathlib.Logic.Function.Basic

namespace MiniStorage.Datanode

open Namenode

structure WriteBlockResponse where
  success : Bool := false
  errorMessage : Bytes := []
deriving DecidableEq, Repr

structure DataNodeResponse where
  success : Bool := false
  errorMessage : Bytes := []
  writeBlock : Option WriteBlockResponse := none
deriving DecidableEq, Repr

/-- What comes of one connection: it is not made, the request does not get through, the reply does not come back
whole and within 5 seconds, or it does. -/
inductive Hop
  | refused
  | lost
  | unanswered
  | answered
deriving DecidableEq, Repr

/-- The DataNodes behind the addresses, and what the disks and connections do at each position of a chain. -/
structure Network (N : Type*) where
  peer : Bytes → Int → N
  disk : Nat → Disk
  hop : Nat → Hop

/-- The stores of all DataNodes, and the calls of WriteBlock with their results. -/
structure World (N : Type*) where
  stores : N → BlockStore
  wrote : List (N × Bool) := []

/-- Around the last colon. -/
def splitAddress (address : Bytes) : Option (Bytes × Bytes) :=
  let n := (address.reverse.takeWhile (· ≠ 58)).length
  if n = address.length then none else some (address.take (address.length - n - 1), address.drop (address.length - n))

/-- std::stoi; nothing where it throws. -/
def stoi (s : Bytes) : Option Int :=
  let s := s.dropWhile fun b => b = 32 ∨ 9 ≤ b ∧ b ≤ 13
  let digits := (if s.head? = some 43 ∨ s.head? = some 45 then s.tail else s).takeWhile fun b => 48 ≤ b ∧ b ≤ 57
  let n : Int := if s.head? = some 45 then -Decimal.decode digits else Decimal.decode digits
  if digits = [] ∨ n < -2 ^ 31 ∨ 2 ^ 31 ≤ n then none else some n

section

variable {N : Type*} (crc32 : Bytes → UInt32) (net : Network N)

def Network.nodeAt (net : Network N) (address : Bytes) : Option N :=
  (splitAddress address).bind fun (host, portText) => (stoi portText).map (net.peer host)

/-- The nodes of a chain; an address that cannot be read stands for none. -/
def Network.chain (net : Network N) (node : N) (pipeline : List Bytes) : List (Option N) :=
  some node :: pipeline.map net.nodeAt

/-- `serve` is HandleConnection at the other end. A thread that dies of the exception of stoi replies nothing. -/
def forwardToNext (k : Nat) (nextNode : Bytes) (serve : N → World N → Option DataNodeResponse × World N) (w : World N) :
    Option Bool × World N :=
  match splitAddress nextNode with
  | none => (some false, w)
  | some (host, portText) =>
      match stoi portText with
      | none => (none, w)
      | some port =>
          match net.hop k with
          | .refused | .lost => (some false, w)
          | .unanswered => (some false, (serve (net.peer host port) w).2)
          | .answered =>
              match serve (net.peer host port) w with
              | (none, w) => (some false, w)
              | (some resp, w) => (some resp.success, w)

variable {net} {blockId : BlockId} {data : Bytes} {pipeline : List Bytes} {k : Nat} {node : N} {w : World N}

theorem forwardToNext_cases {nextNode : Bytes} {serve : N → World N → Option DataNodeResponse × World N} :
    ((forwardToNext net k nextNode serve w).2 = w ∨
      ∃ peer, (forwardToNext net k nextNode serve w).2 = (serve peer w).2) ∧
      ((forwardToNext net k nextNode serve w).1 = some true ↔
        ∃ peer, net.nodeAt nextNode = some peer ∧ net.hop k = .answered ∧ (serve peer w).1.any (·.success) = true) := by
  rw [forwardToNext, Network.nodeAt]
  cases splitAddress nextNode with
  | none => simp
  | some parts =>
      obtain ⟨host, portText⟩ := parts
      cases hport : stoi portText with
      | none => simp [hport]
      | some port =>
          simp only [hport, Option.bind_some, Option.map_some, Option.some.injEq, exists_eq_left']
          cases net.hop k with
          | refused | lost => simp
          | unanswered => exact ⟨.inr ⟨_, rfl⟩, by simp⟩
          | answered =>
              cases hserve : serve (net.peer host port) w with
              | mk resp w' => cases resp with
                | none => exact ⟨.inr ⟨_, by rw [hserve]⟩, by simp⟩
                | some resp => exact ⟨.inr ⟨_, by rw [hserve]⟩, by simp⟩

variable [DecidableEq N] (net)

namespace World

/-- WriteBlock at a position of the chain. -/
def writeBlock (w : World N) (k : Nat) (node : N) (blockId : BlockId) (data : Bytes) : Bool × World N :=
  let (ok, store) := (w.stores node).writeBlock crc32 blockId data (net.disk k)
  (ok, { stores := Function.update w.stores node store, wrote := w.wrote ++ [(node, ok)] })

end World

def handleWriteBlock (r : Option WriteBlockResponse × World N) : Option DataNodeResponse × World N :=
  (r.1.map fun resp => { success := resp.success, errorMessage := resp.errorMessage, writeBlock := some resp }, r.2)

/-- HandlerWrite behind the call of ForwardToNext. -/
def afterForward (nextNode : Bytes) : Option Bool × World N → Option WriteBlockResponse × World N
  | (none, w) => (none, w)
  | (some false, w) => (some { errorMessage := text "Failed to forward to " ++ nextNode }, w)
  | (some true, w) => (some { success := true }, w)

/-- HandlerWrite at the node that stands at position `k` of a chain, with the nodes behind it. -/
def handlerWrite (blockId : BlockId) (data : Bytes) :
    List Bytes → Nat → N → World N → Option WriteBlockResponse × World N
  | [], k, node, w =>
      let (ok, w) := w.writeBlock crc32 net k node blockId data
      -- the source takes the true of WriteBlock for a failure
      if ok then (some { errorMessage := text "Failed to write block to disk" }, w)
      else (some { success := true }, w)
  | nextNode :: rest, k, node, w =>
      let (ok, w) := w.writeBlock crc32 net k node blockId data
      if ok then (some { errorMessage := text "Failed to write block to disk" }, w)
      else
        afterForward nextNode (forwardToNext net k nextNode
          (fun peer w => handleWriteBlock (handlerWrite blockId data rest (k + 1) peer w)) w)

def BlockStore.Holds (s : BlockStore) (blockId : BlockId) (data : Bytes) : Prop :=
  s.files.find (blockDataPath blockId) = some data

instance decidableHolds (s : BlockStore) (blockId : BlockId) (data : Bytes) : Decidable (s.Holds blockId data) :=
  inferInstanceAs (Decidable (s.files.find (blockDataPath blockId) = some data))

variable {crc32 net}

omit [DecidableEq N] in
theorem snd_afterForward (nextNode : Bytes) (r : Option Bool × World N) : (afterForward nextNode r).2 = r.2 := by
  obtain ⟨_ | _ | _, w⟩ := r <;> rfl

omit [DecidableEq N] in
theorem any_afterForward (nextNode : Bytes) (r : Option Bool × World N) :
    (afterForward nextNode r).1.any (·.success) = true ↔ r.1 = some true := by
  obtain ⟨_ | _ | _, w⟩ := r <;> simp [afterForward]

theorem writeBlock_fst : (w.writeBlock crc32 net k node blockId data).1 = (net.disk k).lets :=
  BlockStore.writeBlock_fst ..

theorem handlerWrite_of_lets (h : (net.disk k).lets = true) :
    (handlerWrite crc32 net blockId data pipeline k node w).1 = some { errorMessage := text "Failed to write block to disk" } ∧
      (handlerWrite crc32 net blockId data pipeline k node w).2.wrote = w.wrote ++ [(node, true)] := by
  have hok : (w.writeBlock crc32 net k node blockId data).1 = true := writeBlock_fst.trans h
  have hwrote : (w.writeBlock crc32 net k node blockId data).2.wrote = w.wrote ++ [(node, true)] := by
    rw [← hok]
    rfl
  cases pipeline <;> simp only [handlerWrite, hok, if_true, hwrote, and_self]

theorem wrote_writeBlock :
    (w.writeBlock crc32 net k node blockId data).2.wrote = w.wrote ++ [(node, (net.disk k).lets)] := by
  have hfst : (w.writeBlock crc32 net k node blockId data).1 = (net.disk k).lets := writeBlock_fst
  rw [← hfst]
  rfl

theorem handlerWrite_nil (h : (net.disk k).lets = false) : handlerWrite crc32 net blockId data [] k node w =
    (some { success := true }, (w.writeBlock crc32 net k node blockId data).2) := by
  have hfst : (w.writeBlock crc32 net k node blockId data).1 = false := writeBlock_fst.trans h
  simp only [handlerWrite, hfst, Bool.false_eq_true, if_false]

/-- The node behind is reached where the own write fails, and decides with the hop. -/
theorem handlerWrite_cons {nextNode : Bytes} {rest : List Bytes} (h : (net.disk k).lets = false) :
    let w' := (w.writeBlock crc32 net k node blockId data).2
    let r := handlerWrite crc32 net blockId data (nextNode :: rest) k node w
    (r.2 = w' ∨ ∃ peer, r.2 = (handlerWrite crc32 net blockId data rest (k + 1) peer w').2) ∧
      (r.1.any (·.success) = true ↔ ∃ peer, net.nodeAt nextNode = some peer ∧ net.hop k = .answered ∧
        (handlerWrite crc32 net blockId data rest (k + 1) peer w').1.any (·.success) = true) := by
  intro w' r
  have hfst : (w.writeBlock crc32 net k node blockId data).1 = false := writeBlock_fst.trans h
  obtain ⟨hsnd, htrue⟩ := @forwardToNext_cases _ net k w' nextNode
    (fun peer w => handleWriteBlock (handlerWrite crc32 net blockId data rest (k + 1) peer w))
  have hserve (peer : N) : (handleWriteBlock (handlerWrite crc32 net blockId data rest (k + 1) peer w')).1.any (·.success) =
      (handlerWrite crc32 net blockId data rest (k + 1) peer w').1.any (·.success) := by
    rw [handleWriteBlock, Option.any_map]
  simp only [hserve] at htrue
  rw [← htrue]
  have hr : r = afterForward nextNode (forwardToNext net k nextNode
      (fun peer w => handleWriteBlock (handlerWrite crc32 net blockId data rest (k + 1) peer w)) w') := by
    simp only [r, w', handlerWrite, hfst, Bool.false_eq_true, if_false]
  rw [hr, snd_afterForward]
  exact ⟨hsnd, any_afterForward _ _⟩

theorem wrote_handlerWrite (crc32 : Bytes → UInt32) (net : Network N) (blockId : BlockId) (data : Bytes)
    (pipeline : List Bytes) (k : Nat) (node : N) (w : World N) :
    w.wrote ++ [(node, (net.disk k).lets)] <+: (handlerWrite crc32 net blockId data pipeline k node w).2.wrote := by
  have hself {xs ys : List (N × Bool)} (he : xs = ys) : xs <+: ys := by
    subst he
    exact List.prefix_refl xs
  induction pipeline generalizing k node w with
  | nil =>
      cases hok : (net.disk k).lets with
      | true => exact hself (handlerWrite_of_lets hok).2.symm
      | false =>
          refine hself ?_
          rw [handlerWrite_nil hok, wrote_writeBlock, hok]
  | cons nextNode rest ih =>
      cases hok : (net.disk k).lets with
      | true => exact hself (handlerWrite_of_lets hok).2.symm
      | false =>
          have hwrote : (w.writeBlock crc32 net k node blockId data).2.wrote = w.wrote ++ [(node, (net.disk k).lets)] :=
            wrote_writeBlock
          rw [← hok, ← hwrote]
          rcases (handlerWrite_cons hok).1 with he | ⟨peer, he⟩
          · exact hself (congrArg World.wrote he).symm
          · rw [he]
            exact (List.prefix_append _ _).trans (ih _ _ _)

/-- HandlerWrite says success where no node of the chain has stored the block and every hop went well. -/
theorem success_handlerWrite : (handlerWrite crc32 net blockId data pipeline k node w).1.any (·.success) = true ↔
    (∀ j ≤ pipeline.length, (net.disk (k + j)).lets = false) ∧
      ∀ j address, pipeline[j]? = some address → net.nodeAt address ≠ none ∧ net.hop (k + j) = .answered := by
  induction pipeline generalizing k node w with
  | nil =>
      cases hok : (net.disk k).lets with
      | true =>
          rw [(handlerWrite_of_lets hok).1]
          simp [hok]
      | false =>
          rw [handlerWrite_nil hok]
          simp [hok]
  | cons nextNode rest ih =>
      cases hok : (net.disk k).lets with
      | true =>
          rw [(handlerWrite_of_lets hok).1]
          simp only [Option.any_some, Bool.false_eq_true, false_iff, not_and]
          intro hall
          have h0 := hall 0 (Nat.zero_le _)
          rw [Nat.add_zero, hok] at h0
          cases h0
      | false =>
          rw [(handlerWrite_cons hok).2]
          simp only [ih]
          constructor
          · rintro ⟨peer, hpeer, hhop, hall, hhops⟩
            refine ⟨?_, ?_⟩
            · rintro (_ | j) hj
              · exact hok
              · rw [Nat.add_comm j, ← Nat.add_assoc]
                exact hall j (Nat.le_of_succ_le_succ hj)
            · rintro (_ | j) address hj
              · obtain rfl := Option.some.inj hj
                exact ⟨by rw [hpeer]; exact Option.some_ne_none _, hhop⟩
              · rw [Nat.add_comm j, ← Nat.add_assoc]
                exact hhops j address hj
          · rintro ⟨hall, hhops⟩
            obtain ⟨hpeer, hhop⟩ := hhops 0 nextNode rfl
            obtain ⟨peer, hpeer⟩ := Option.ne_none_iff_exists'.mp hpeer
            refine ⟨peer, hpeer, hhop, ?_, ?_⟩
            · intro j hj
              have hj' := hall (j + 1) (Nat.succ_le_succ hj)
              rwa [Nat.add_comm j, ← Nat.add_assoc] at hj'
            · intro j address hj
              have hj' := hhops (j + 1) address hj
              rwa [Nat.add_comm j, ← Nat.add_assoc] at hj'

/-- The verdict of a chain is right, and what it promises holds: exactly where the chain is not a single node that
stores the block, and not one in which no node stores it and every hop goes well. -/
theorem verdict_right_iff (crc32 : Bytes → UInt32) (net : Network N) (blockId : BlockId) (data : Bytes)
    (pipeline : List Bytes) (node : N) (stores : N → BlockStore) :
    let r := handlerWrite crc32 net blockId data pipeline 0 node { stores := stores }
    (r.1.any (·.success) = true ↔
        r.2.wrote.map (Prod.map some id) = (net.chain node pipeline).map (·, true) ∧
          ∀ j < pipeline.length, net.hop j = .answered) ∧
      (r.1.any (·.success) = true → ∀ m, some m ∈ net.chain node pipeline → (r.2.stores m).Holds blockId data) ↔
    ¬ (pipeline = [] ∧ (net.disk 0).lets = true) ∧
      ¬ ((∀ j ≤ pipeline.length, (net.disk j).lets = false) ∧
        ∀ j address, pipeline[j]? = some address → net.nodeAt address ≠ none ∧ net.hop j = .answered) := by
  intro r
  have hsuccess : r.1.any (·.success) = true ↔ _ := success_handlerWrite
  have hwrote : [(node, (net.disk 0).lets)] <+: r.2.wrote :=
    wrote_handlerWrite crc32 net blockId data pipeline 0 node { stores := stores }
  simp only [Nat.zero_add] at hsuccess
  -- where every node says it has stored the block, there is only one
  have hall (h : r.2.wrote.map (Prod.map some id) = (net.chain node pipeline).map (·, true)) :
      pipeline = [] ∧ (net.disk 0).lets = true := by
    obtain ⟨later, hlater⟩ := hwrote
    rw [← hlater] at h
    have hlets : (net.disk 0).lets = true := congrArg Prod.snd (List.cons.inj h).1
    have hone : r.2.wrote = [] ++ [(node, true)] := (handlerWrite_of_lets hlets).2
    rw [hone, hlets] at hlater
    obtain rfl : later = [] := (List.cons.inj hlater).2
    exact ⟨List.map_eq_nil_iff.mp (List.map_eq_nil_iff.mp (List.cons.inj h).2.symm), hlets⟩
  constructor
  · rintro ⟨hiff, -⟩
    refine ⟨?_, ?_⟩
    · rintro ⟨rfl, hlets⟩
      have hstored : r.2.wrote = [] ++ [(node, true)] := (handlerWrite_of_lets hlets).2
      have hfail : r.1 = _ := (handlerWrite_of_lets hlets).1
      have hok := hiff.mpr ⟨by rw [hstored]; rfl, fun j hj => absurd hj (Nat.not_lt_zero j)⟩
      rw [hfail] at hok
      cases hok
    · intro hnone
      obtain ⟨rfl, hlets⟩ := hall (hiff.mp (hsuccess.mpr hnone)).1
      rw [hnone.1 0 (Nat.le_refl 0)] at hlets
      cases hlets
  · rintro ⟨hsingle, hnone⟩
    have hfail : ¬ r.1.any (·.success) = true := fun h => hnone (hsuccess.mp h)
    exact ⟨⟨fun h => absurd h hfail, fun h => absurd (hall h.1) hsingle⟩, fun h => absurd h hfail⟩

/-- One node with a sound disk stores the block and is said to have failed; with a disk that lets nothing be opened it
stores nothing and is said to have succeeded. -/
theorem verdict_inverted :
    let good := handlerWrite (fun _ => 0) ⟨fun _ _ => (), fun _ => {}, fun _ => .answered⟩ 1 (text "abc") [] 0 () ⟨fun _ => {}, []⟩
    let bad := handlerWrite (fun _ => 0) ⟨fun _ _ => (), fun _ => { tmpOpens := false }, fun _ => .answered⟩ 1 (text "abc") [] 0 ()
      ⟨fun _ => {}, []⟩
    (good.1.any (·.success) = false ∧ good.2.wrote = [((), true)] ∧ (good.2.stores ()).Holds 1 (text "abc")) ∧
      bad.1.any (·.success) = true ∧ bad.2.wrote = [((), false)] ∧ ¬ (bad.2.stores ()).Holds 1 (text "abc") := by
  decide

end

end MiniStorage.Datanode
