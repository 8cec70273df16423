import Mathlib.Data.List.Basic

namespace MiniStorage.Framing

variable {α : Type*}

/-- Lengths below `bound` written in front of a message, in `width` symbols. -/
structure LengthCode (α : Type*) where
  encode : Nat → List α
  decode : List α → Nat
  width : Nat
  bound : Nat
  width_pos : 0 < width
  length_encode : ∀ n, (encode n).length = width
  decode_encode : ∀ n < bound, decode (encode n) = n

namespace LengthCode

variable (c : LengthCode α)

def frame (m : List α) : List α := c.encode m.length ++ m

def frames (ms : List (List α)) : List α := ms.flatMap c.frame

/-- The first message of a stream and what follows it; nothing where the stream ends before the message does. -/
def readFrame (buf : List α) : Option (List α × List α) :=
  if buf.length < c.width then none
  else
    let n := c.decode (buf.take c.width)
    if buf.length < c.width + n then none else some ((buf.drop c.width).take n, buf.drop (c.width + n))

/-- The messages at the front of a stream, by at most `fuel` reads. -/
def readFrames : Nat → List α → List (List α)
  | 0, _ => []
  | fuel + 1, buf =>
      match c.readFrame buf with
      | none => []
      | some (m, rest) => m :: readFrames fuel rest

variable {c} {m buf rest tail : List α} {ms ns : List (List α)}

@[simp] theorem length_frame (m : List α) : (c.frame m).length = c.width + m.length := by
  simp [frame, c.length_encode]

@[simp] theorem frames_nil : c.frames [] = [] := rfl

@[simp] theorem frames_cons (m : List α) (ms : List (List α)) : c.frames (m :: ms) = c.frame m ++ c.frames ms := rfl

@[simp] theorem frames_append (ms ns : List (List α)) : c.frames (ms ++ ns) = c.frames ms ++ c.frames ns :=
  List.flatMap_append

theorem take_frame (m rest : List α) : (c.frame m ++ rest).take c.width = c.encode m.length := by
  rw [frame, List.append_assoc]
  exact List.take_left' (c.length_encode _)

theorem readFrame_frame (hm : m.length < c.bound) (rest : List α) :
    c.readFrame (c.frame m ++ rest) = some (m, rest) := by
  have hlen : (c.frame m ++ rest).length = c.width + m.length + rest.length := by simp
  have hdrop : (c.frame m ++ rest).drop c.width = m ++ rest := by
    rw [frame, List.append_assoc]
    exact List.drop_left' (c.length_encode _)
  simp only [readFrame, take_frame, c.decode_encode _ hm]
  rw [if_neg (by omega), if_neg (by omega), hdrop, List.take_left, ← List.drop_drop, hdrop, List.drop_left]

/-- A frame that is cut short is not read. -/
theorem readFrame_torn (hm : m.length < c.bound) (hbuf : buf <+: c.frame m) (hlt : buf.length < (c.frame m).length) :
    c.readFrame buf = none := by
  rw [readFrame]
  by_cases hshort : buf.length < c.width
  · rw [if_pos hshort]
  · obtain ⟨rest, hrest⟩ := hbuf
    have htake : buf.take c.width = c.encode m.length := by
      rw [← take_frame m [], List.append_nil, ← hrest, List.take_append_of_le_length (Nat.le_of_not_lt hshort)]
    simp only [htake, c.decode_encode _ hm]
    rw [length_frame] at hlt
    rw [if_neg hshort, if_pos hlt]

/-- Reading from the part of the frames that is there. -/
theorem readFrame_part (hms : ∀ m ∈ ms, m.length < c.bound) (h : buf ++ rest = c.frames ms) :
    (c.readFrame buf = none ∧ (rest = [] → ms = [])) ∨
      ∃ m ms' buf', ms = m :: ms' ∧ c.readFrame buf = some (m, buf') ∧ buf' ++ rest = c.frames ms' := by
  cases ms with
  | nil =>
      have hbuf : buf = [] := (List.append_eq_nil_iff.mp h).1
      subst hbuf
      exact .inl ⟨by rw [readFrame, List.length_nil, if_pos c.width_pos], fun _ => rfl⟩
  | cons m ms =>
      have hm := hms m List.mem_cons_self
      rw [frames_cons] at h
      rcases List.append_eq_append_iff.mp h with ⟨tail, hframe, hrest⟩ | ⟨buf', hbuf, hrest⟩
      · cases tail with
        | nil =>
            rw [List.append_nil] at hframe
            refine .inr ⟨m, ms, [], rfl, ?_, hrest⟩
            rw [← hframe, ← List.append_nil (c.frame m), readFrame_frame hm]
        | cons a tail =>
            refine .inl ⟨readFrame_torn hm ⟨_, hframe.symm⟩ ?_, ?_⟩
            · rw [hframe, List.length_append, List.length_cons]
              omega
            · intro hnil
              rw [hnil] at hrest
              cases hrest
      · exact .inr ⟨m, ms, buf', rfl, by rw [hbuf, readFrame_frame hm], hrest.symm⟩

/-- Behind the frames there may be the beginning of one more. -/
theorem readFrames_frames (hms : ∀ m ∈ ms, m.length < c.bound) (htail : c.readFrame tail = none) {fuel : Nat}
    (hfuel : ms.length < fuel) : c.readFrames fuel (c.frames ms ++ tail) = ms := by
  induction ms generalizing fuel with
  | nil =>
      cases fuel with
      | zero => cases hfuel
      | succ fuel => rw [frames_nil, List.nil_append, readFrames, htail]
  | cons m ms ih =>
      cases fuel with
      | zero => cases hfuel
      | succ fuel =>
          have hrest := ih (fun m' hm => hms m' (List.mem_cons_of_mem _ hm)) (Nat.lt_of_succ_lt_succ hfuel)
          rw [frames_cons, List.append_assoc, readFrames, readFrame_frame (hms m List.mem_cons_self)]
          simp only [hrest]

theorem length_le_frames (ms : List (List α)) : ms.length ≤ (c.frames ms).length := by
  induction ms with
  | nil => exact Nat.le_refl 0
  | cons m ms ih =>
      have hpos := c.width_pos
      rw [frames_cons, List.length_append, length_frame, List.length_cons]
      omega

/-- Whole frames do not end in the beginning of one. -/
theorem eq_nil_of_torn (hms : ∀ m ∈ ms, m.length < c.bound) (hns : ∀ n ∈ ns, n.length < c.bound)
    (htail : c.readFrame tail = none) (h : c.frames ms ++ tail = c.frames ns) : tail = [] := by
  induction ms generalizing ns with
  | nil =>
      cases ns with
      | nil => exact h
      | cons n ns =>
          have hread := readFrame_frame (hns n List.mem_cons_self) (c.frames ns)
          rw [← frames_cons, ← h, frames_nil, List.nil_append, htail] at hread
          cases hread
  | cons m ms ih =>
      have hread := readFrame_frame (hms m List.mem_cons_self) (c.frames ms ++ tail)
      rw [← List.append_assoc, ← frames_cons, h] at hread
      cases ns with
      | nil =>
          rw [frames_nil, readFrame, List.length_nil, if_pos c.width_pos] at hread
          cases hread
      | cons n ns =>
          rw [frames_cons, readFrame_frame (hns n List.mem_cons_self)] at hread
          obtain ⟨-, hrest⟩ := Prod.mk.inj (Option.some.inj hread)
          exact ih (fun m' hm => hms m' (List.mem_cons_of_mem _ hm)) (fun n' hn => hns n' (List.mem_cons_of_mem _ hn))
            hrest.symm

end LengthCode

end MiniStorage.Framing
