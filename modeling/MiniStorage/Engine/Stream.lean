import MiniStorage.Bytes
import Mathlib.Algebra.Group.Nat.Defs

namespace MiniStorage.Engine

/-- An ofstream on a freshly truncated file. `room` is how many more bytes the
device takes, `flushed` how many of those it took flush has pushed to the file. -/
structure OFStream where
  bytes : Bytes := []
  flushed : Nat := 0
  good : Bool := true
  room : Option Nat := none
deriving DecidableEq, Repr

namespace OFStream

def write (f : OFStream) (data : Bytes) : OFStream :=
  if f.good then
    match f.room with
    | none => { f with bytes := f.bytes ++ data }
    | some n =>
        if data.length ≤ n then { f with bytes := f.bytes ++ data, room := some (n - data.length) }
        else { f with bytes := f.bytes ++ data.take n, room := some 0, good := false }
  else f

def flush (f : OFStream) : OFStream :=
  if f.good then { f with flushed := f.bytes.length } else f

/-- What a crash leaves of the file. -/
def durable (f : OFStream) : Bytes := f.bytes.take f.flushed

@[simp] theorem good_flush (f : OFStream) : f.flush.good = f.good := by
  unfold flush
  split <;> rfl

@[simp] theorem bytes_flush (f : OFStream) : f.flush.bytes = f.bytes := by
  unfold flush
  split <;> rfl

theorem durable_flush {f : OFStream} (h : f.good = true) : f.flush.durable = f.bytes := by
  simp [durable, flush, h]

theorem bytes_write {f : OFStream} {data : Bytes} (h : (f.write data).good = true) :
    f.good = true ∧ (f.write data).bytes = f.bytes ++ data := by
  cases hg : f.good with
  | false => simp [write, hg] at h
  | true =>
      cases hr : f.room with
      | none => simp [write, hg, hr]
      | some n =>
          by_cases hn : data.length ≤ n
          · simp [write, hg, hr, hn]
          · simp [write, hg, hr, hn] at h

theorem good_write {f : OFStream} (data : Bytes) (hg : f.good = true) (hr : f.room = none) :
    (f.write data).good = true ∧ (f.write data).room = none := by
  simp [write, hg, hr]

theorem write_nil (f : OFStream) : f.write [] = f := by
  obtain ⟨bytes, flushed, good, room⟩ := f
  cases good with
  | false => rfl
  | true => cases room <;> simp [write]

theorem write_append (f : OFStream) (xs ys : Bytes) : (f.write xs).write ys = f.write (xs ++ ys) := by
  cases hg : f.good with
  | false => simp [write, hg]
  | true =>
      cases hr : f.room with
      | none => simp [write, hg, hr]
      | some n =>
          by_cases hx : xs.length ≤ n
          · by_cases hy : ys.length ≤ n - xs.length
            · have hxy : xs.length + ys.length ≤ n := by omega
              simp [write, hg, hr, hx, hy, hxy, Nat.sub_sub]
            · have hxy : ¬ xs.length + ys.length ≤ n := by omega
              simp [write, hg, hr, hx, hy, hxy, List.take_append, List.take_of_length_le hx]
          · have hxy : ¬ xs.length + ys.length ≤ n := by omega
            have hzero : n - xs.length = 0 := by omega
            simp [write, hg, hr, hx, hxy, List.take_append, hzero]

end OFStream

/-- An ifstream: `failed` is its failbit, which a short read sets. -/
structure IFStream where
  bytes : Bytes
  pos : Nat := 0
  failed : Bool := false
deriving DecidableEq, Repr

namespace IFStream

def rest (f : IFStream) : Bytes := f.bytes.drop f.pos

/-- The characters read; gcount is their number. -/
def read (f : IFStream) (n : Nat) : Bytes × IFStream :=
  if f.failed then ([], f)
  else
    let got := f.rest.take n
    (got, { f with pos := f.pos + got.length, failed := decide (got.length < n) })

/-- What read can still get at. -/
def unread (f : IFStream) : Bytes := if f.failed then [] else f.rest

/-- The offset becomes a signed std::streamoff. -/
def seekg (f : IFStream) (offset : Nat) : IFStream :=
  if f.failed then f
  else if offset < 2 ^ 63 then { f with pos := offset }
  else { f with failed := true }

theorem length_read (f : IFStream) (n : Nat) : (f.read n).1.length ≤ n := by
  unfold read
  split
  · exact Nat.zero_le n
  · exact List.length_take_le n f.rest

theorem read_fst (f : IFStream) (n : Nat) : (f.read n).1 = f.unread.take n := by
  cases hf : f.failed <;> simp [read, unread, hf]

theorem unread_read (f : IFStream) (n : Nat) : (f.read n).2.unread = f.unread.drop n := by
  cases hf : f.failed with
  | true => simp [read, unread, hf]
  | false =>
      rcases Nat.lt_or_ge f.rest.length n with hlt | hle
      · have hdrop : f.rest.drop n = [] := List.drop_eq_nil_of_le (Nat.le_of_lt hlt)
        have hshort : (f.rest.take n).length < n := Nat.lt_of_le_of_lt (List.length_take_le' n f.rest) hlt
        simp only [read, unread, hf, Bool.false_eq_true, if_false, hshort, decide_true, if_true, hdrop]
      · have hfull : (f.rest.take n).length = n := List.length_take_of_le hle
        simp only [read, unread, hf, Bool.false_eq_true, if_false, hfull, Nat.lt_irrefl, decide_false]
        exact List.drop_drop.symm

theorem length_rest_read (f : IFStream) (n : Nat) :
    (f.read n).2.rest.length + (f.read n).1.length = f.rest.length := by
  unfold read
  split
  · simp
  · simp only [rest, List.length_take, List.length_drop]
    omega

theorem read_append {f : IFStream} {xs ys : Bytes} {n : Nat} (hf : f.failed = false) (hr : f.rest = xs ++ ys)
    (hn : xs.length = n) : ∃ f', f.read n = (xs, f') ∧ f'.failed = false ∧ f'.rest = ys ∧ f'.bytes = f.bytes := by
  have hg : f.rest.take n = xs := by rw [hr, ← hn, List.take_left]
  refine ⟨{ f with pos := f.pos + xs.length, failed := decide (xs.length < n) }, ?_, ?_, ?_, rfl⟩
  · simp only [read, hf, Bool.false_eq_true, if_false, hg]
  · simp [hn]
  · have hd : f.bytes.drop (f.pos + xs.length) = (f.rest).drop xs.length := by
      rw [rest, List.drop_drop]
    simp only [rest] at hd ⊢
    rw [hd, ← rest, hr, List.drop_left]

theorem read_snd (f : IFStream) (n : Nat) :
    (f.read n).2.bytes = f.bytes ∧ (f.read n).2.failed = (f.failed || decide (f.unread.length < n)) := by
  cases hf : f.failed with
  | true => simp [read, hf]
  | false =>
      have hshort : f.rest.length < n ↔ (f.rest.take n).length < n := by
        rw [List.length_take]
        omega
      simp only [read, unread, hf, Bool.false_eq_true, if_false, Bool.false_or, hshort, true_and]

theorem seekg_eq (f : IFStream) (offset : Nat) :
    f.seekg offset =
      if f.failed = true ∨ 2 ^ 63 ≤ offset then { f with failed := true } else { f with pos := offset } := by
  obtain ⟨bytes, pos, failed⟩ := f
  rw [seekg]
  cases failed with
  | true => rw [if_pos rfl, if_pos (.inl rfl)]
  | false =>
      rcases Nat.lt_or_ge offset (2 ^ 63) with hlt | hle
      · rw [if_neg Bool.false_ne_true, if_pos hlt, if_neg (not_or.mpr ⟨Bool.false_ne_true, Nat.not_le.mpr hlt⟩)]
      · rw [if_neg Bool.false_ne_true, if_neg (Nat.not_lt.mpr hle), if_pos (.inr hle)]

theorem unread_seekg (f : IFStream) (offset : Nat) :
    (f.seekg offset).unread = if f.failed = true ∨ 2 ^ 63 ≤ offset then [] else f.bytes.drop offset := by
  rw [seekg_eq]
  split
  next => rfl
  next hok =>
    have hf : f.failed = false := by simpa using (not_or.mp hok).1
    simp only [unread, rest, hf, Bool.false_eq_true, if_false]

theorem seekg_snd (f : IFStream) (offset : Nat) :
    (f.seekg offset).bytes = f.bytes ∧ ((f.seekg offset).failed = true ↔ f.failed = true ∨ 2 ^ 63 ≤ offset) := by
  rw [seekg_eq]
  split
  next h => exact ⟨rfl, iff_of_true rfl h⟩
  next h => exact ⟨rfl, iff_of_false (not_or.mp h).1 h⟩

end IFStream

end MiniStorage.Engine
