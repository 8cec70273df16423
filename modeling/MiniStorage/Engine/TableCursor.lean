import MiniStorage.Objects
import MiniStorage.Engine.SSTableRoundTrip

namespace MiniStorage.Engine

inductive IteratorCall
  | seekToFirst
  | seek (target : Bytes)
  | next
deriving DecidableEq, Repr

namespace SSTableIterator

def move (it : SSTableIterator) : IteratorCall → Option SSTableIterator
  | .seekToFirst => some it.seekToFirst
  | .seek target => it.seek target
  | .next => some it.next

/-- A call, and what Valid, Key and Value say behind it. -/
def call (it : SSTableIterator) (c : IteratorCall) : Option (Option (Bytes × Bytes) × SSTableIterator) := do
  let it ← it.move c
  if it.valid then
    let entry ← it.current
    return (some entry, it)
  else return (none, it)

end SSTableIterator

/-- What is left of a map in front of an iterator. -/
def IteratorCall.left (kvs : SortedMap Bytes Bytes) (rest : BolckData) : IteratorCall → BolckData
  | .seekToFirst => kvs.entries
  | .seek target => kvs.entries.filter (fun p => decide (target ≤ p.1))
  | .next => rest.tail

def IteratorCall.scan (kvs : SortedMap Bytes Bytes) (rest : BolckData) (c : IteratorCall) :
    Option (Bytes × Bytes) × BolckData :=
  ((c.left kvs rest).head?, c.left kvs rest)

/-- The iterator stands in front of these pairs of the map. -/
def SSTableIterator.Before (kvs : SortedMap Bytes Bytes) (it : SSTableIterator) (rest : BolckData) : Prop :=
  it.entries = kvs.entries ∧ it.entries.drop it.pos = rest

namespace SSTableIterator

variable {entries : BolckData} {target : Bytes} {kvs : SortedMap Bytes Bytes} {it : SSTableIterator} {rest : BolckData}

/-- The bounds close in on the place `k` in front of which the keys are below the target. -/
theorem seekLoop_eq {k : Nat} (hcut : ∀ i p, entries[i]? = some p → (p.1 < target ↔ i < k)) {fuel lo hi : Nat}
    (hlo : lo ≤ k) (hhi : k ≤ hi) (hlen : hi ≤ entries.length) (hf : hi - lo ≤ fuel) :
    seekLoop entries target fuel lo hi = some k := by
  induction fuel generalizing lo hi with
  | zero =>
      have hdone : ¬ lo < hi := by omega
      rw [seekLoop, if_neg hdone]
      congr 1
      omega
  | succ fuel ih =>
      rw [seekLoop]
      by_cases hlt : lo < hi
      · have hmid : (lo + hi) / 2 < entries.length := by omega
        have hget := List.getElem?_eq_getElem hmid
        have hbelow := hcut _ _ hget
        simp only [hlt, if_true, hget, Option.bind_eq_bind, Option.bind_some]
        split
        next h =>
          have hk := hbelow.mp h
          exact ih (by omega) hhi hlen (by omega)
        next h =>
          have hk := mt hbelow.mpr h
          exact ih hlo (by omega) (by omega) (by omega)
      · rw [if_neg hlt]
        congr 1
        omega

theorem Before.seek (h : Before kvs it rest) (target : Bytes) :
    ∃ it', it.seek target = some it' ∧ Before kvs it' (kvs.entries.filter (fun p => decide (target ≤ p.1))) := by
  obtain ⟨hentries, -⟩ := h
  have hloop := seekLoop_eq (fun i p hp => kvs.lt_iff_of_getElem? target hp) (Nat.zero_le _)
    (List.length_filter_le _ _) le_rfl (Nat.sub_le _ _)
  refine ⟨{ it with pos := (kvs.entries.filter (fun p => decide (p.1 < target))).length }, ?_, hentries, ?_⟩
  · rw [SSTableIterator.seek, hentries, hloop]
    rfl
  · rw [hentries]
    exact kvs.drop_filter target

theorem Before.next (h : Before kvs it rest) : Before kvs it.next rest.tail := by
  obtain ⟨hentries, rfl⟩ := h
  rw [SSTableIterator.next]
  split
  next => exact ⟨hentries, by rw [List.tail_drop]⟩
  next hv =>
    have hend : it.entries.length ≤ it.pos := by simpa [valid] using hv
    exact ⟨hentries, by rw [List.drop_eq_nil_of_le hend, List.tail_nil]⟩

theorem Before.move (h : Before kvs it rest) (c : IteratorCall) :
    ∃ it', it.move c = some it' ∧ Before kvs it' (c.left kvs rest) := by
  cases c with
  | seekToFirst => exact ⟨_, rfl, h.1, by rw [seekToFirst, List.drop_zero, h.1]; rfl⟩
  | seek target => exact h.seek target
  | next => exact ⟨_, rfl, h.next⟩

theorem Before.call (h : Before kvs it rest) (c : IteratorCall) :
    ∃ it', it.call c = some ((c.scan kvs rest).1, it') ∧ Before kvs it' (c.scan kvs rest).2 := by
  obtain ⟨it', hmove, hentries, hrest⟩ := h.move c
  refine ⟨it', ?_, hentries, hrest⟩
  simp only [SSTableIterator.call, hmove, Option.bind_eq_bind, Option.bind_some, IteratorCall.scan, ← hrest,
    List.head?_drop, current]
  split
  next hv =>
    have hlt : it'.pos < it'.entries.length := by simpa [valid] using hv
    rw [List.getElem?_eq_getElem hlt]
    rfl
  next hv =>
    have hend : it'.entries.length ≤ it'.pos := by simpa [valid] using hv
    rw [List.getElem?_eq_none hend]
    rfl

end SSTableIterator

end MiniStorage.Engine
