import MiniStorage.LittleEndian

namespace MiniStorage

def zeros (k : Nat) : Bytes := List.replicate k 0

/-- The bytes, and zeros behind them. -/
def Padded (padded bytes : Bytes) : Prop := ∃ k, padded = bytes ++ zeros k

theorem zeros_append (j k : Nat) : zeros j ++ zeros k = zeros (j + k) := List.replicate_append_replicate

theorem drop_zeros (j k : Nat) : (zeros k).drop j = zeros (k - j) := List.drop_replicate

theorem decode_zeros (k : Nat) : LittleEndian.decode (zeros k) = 0 := LittleEndian.decode_replicate_zero k

theorem take_zeros (j k : Nat) : (zeros k).take j = zeros (min j k) := List.take_replicate

theorem Padded.append {a b left right bytes : Bytes} (h : Padded (a ++ left) bytes) (h' : Padded (b ++ right) left) :
    Padded (a ++ b ++ right) bytes := by
  obtain ⟨j, hj⟩ := h
  obtain ⟨k, hk⟩ := h'
  refine ⟨j + k, ?_⟩
  rw [List.append_assoc, hk, ← List.append_assoc, hj, List.append_assoc, zeros_append]

/-- A format together with a reader that never fails: it takes what is missing at the end of its input for zeros. -/
structure Layout (α : Type*) where
  Fits : α → Prop
  write : α → Bytes
  read : Bytes → α × Bytes
  read_write {a : α} (h : Fits a) (rest : Bytes) : read (write a ++ rest) = (a, rest)
  read_nil : (read []).2 = []
  write_read (bytes : Bytes) : Padded (write (read bytes).1 ++ (read bytes).2) bytes
  read_append (bytes more : Bytes) (h : (read bytes).2 ≠ []) :
    read (bytes ++ more) = ((read bytes).1, (read bytes).2 ++ more)
  read_zeros (bytes : Bytes) (k : Nat) : ∃ j, read (bytes ++ zeros k) = ((read bytes).1, (read bytes).2 ++ zeros j)

namespace Layout

variable {α β : Type*}

/-- What is read from the front part of a file is what some other file would hold if this one went on with zeros. -/
theorem read_eq_iff (L : Layout α) {a b : α} {bytes : Bytes} (ha : L.Fits a) (hb : L.Fits b)
    (h : bytes <+: L.write a) : (L.read bytes).1 = b ↔ Padded (L.write b) bytes := by
  constructor
  · rintro rfl
    obtain ⟨more, hmore⟩ := h
    have hnil : (L.read bytes).2 = [] := by
      by_contra hne
      have hall := L.read_append bytes more hne
      have hread := L.read_write ha []
      rw [List.append_nil, ← hmore, hall, Prod.mk.injEq] at hread
      exact hne (List.append_eq_nil_iff.mp hread.2).1
    have hw := L.write_read bytes
    rwa [hnil, List.append_nil] at hw
  · rintro ⟨k, hk⟩
    obtain ⟨j, hj⟩ := L.read_zeros bytes k
    have hread := L.read_write hb []
    rw [List.append_nil, hk, hj, Prod.mk.injEq] at hread
    exact hread.1

/-- An integer of `k` bytes. -/
def num (k : Nat) : Layout Nat where
  Fits n := n < 256 ^ k
  write := LittleEndian.encode k
  read bytes := (LittleEndian.decode (bytes.take k), bytes.drop k)
  read_write {n} h rest := by
    have hlen := LittleEndian.length_encode k n
    rw [List.take_left' hlen, List.drop_left' hlen, LittleEndian.decode_encode_of_lt h]
  read_nil := List.drop_nil
  write_read bytes := by
    refine ⟨k - bytes.length, ?_⟩
    rw [LittleEndian.encode_decode (List.length_take_le k bytes), List.length_take, List.append_assoc]
    rcases Nat.le_total k bytes.length with hle | hle
    · simp [hle, zeros]
    · simp [hle, zeros, List.drop_eq_nil_of_le, List.take_of_length_le]
  read_append bytes more h := by
    have hle : k ≤ bytes.length := by
      by_contra hlt
      exact h (List.drop_eq_nil_of_le (Nat.le_of_not_le hlt))
    rw [List.take_append_of_le_length hle, List.drop_append_of_le_length hle]
  read_zeros bytes j := by
    refine ⟨j - (k - bytes.length), ?_⟩
    rw [List.take_append, take_zeros, LittleEndian.decode_append, decode_zeros, Nat.mul_zero, Nat.add_zero,
      List.drop_append, drop_zeros]

/-- A string of `n` bytes. -/
def raw (n : Nat) : Layout Bytes where
  Fits s := s.length = n
  write s := s
  read bytes := (bytes.take n ++ zeros (n - bytes.length), bytes.drop n)
  read_write {s} h rest := by
    subst h
    simp [zeros]
  read_nil := List.drop_nil
  write_read bytes := by
    refine ⟨n - bytes.length, ?_⟩
    rcases Nat.le_total n bytes.length with hle | hle
    · simp [Nat.sub_eq_zero_of_le hle, zeros]
    · simp [List.drop_eq_nil_of_le hle, List.take_of_length_le hle]
  read_append bytes more h := by
    have hle : n ≤ bytes.length := by
      by_contra hlt
      exact h (List.drop_eq_nil_of_le (Nat.le_of_not_le hlt))
    rw [List.take_append_of_le_length hle, List.drop_append_of_le_length hle, List.length_append,
      Nat.sub_eq_zero_of_le hle, Nat.sub_eq_zero_of_le (hle.trans (Nat.le_add_right _ _))]
  read_zeros bytes j := by
    refine ⟨j - (n - bytes.length), ?_⟩
    rw [List.take_append, take_zeros, List.append_assoc, zeros_append, List.drop_append, drop_zeros]
    congr 3
    rw [List.length_append, zeros, List.length_replicate]
    omega

/-- The same bytes for another type. -/
def map (L : Layout α) (f : α → β) (g : β → α) (hgf : ∀ a, g (f a) = a) : Layout β where
  Fits b := L.Fits (g b) ∧ f (g b) = b
  write b := L.write (g b)
  read bytes := (f (L.read bytes).1, (L.read bytes).2)
  read_write {b} h rest := by rw [L.read_write h.1, h.2]
  read_nil := L.read_nil
  write_read bytes := by
    rw [hgf]
    exact L.write_read bytes
  read_append bytes more h := by rw [L.read_append bytes more h]
  read_zeros bytes k := by
    obtain ⟨j, hj⟩ := L.read_zeros bytes k
    exact ⟨j, by rw [hj]⟩

/-- A part that says how the rest is to be read, and the rest. -/
def keyed (L : Layout α) (M : α → Layout β) (key : β → α) (hkey : ∀ a bytes, key ((M a).read bytes).1 = a) :
    Layout β where
  Fits b := L.Fits (key b) ∧ (M (key b)).Fits b
  write b := L.write (key b) ++ (M (key b)).write b
  read bytes := (M (L.read bytes).1).read (L.read bytes).2
  read_write {b} h rest := by rw [List.append_assoc, L.read_write h.1, (M (key b)).read_write h.2]
  read_nil := by rw [L.read_nil, (M _).read_nil]
  write_read bytes := by
    rw [hkey]
    exact (L.write_read bytes).append ((M _).write_read _)
  read_append bytes more h := by
    have hne : (L.read bytes).2 ≠ [] := fun hnil => h (by rw [hnil, (M _).read_nil])
    rw [L.read_append bytes more hne]
    exact (M _).read_append _ more h
  read_zeros bytes k := by
    obtain ⟨j, hj⟩ := L.read_zeros bytes k
    rw [hj]
    exact (M _).read_zeros _ j

/-- One after the other. -/
def both (L : Layout α) (M : Layout β) : Layout (α × β) :=
  L.keyed (fun a => M.map (Prod.mk a) Prod.snd fun _ => rfl) Prod.fst fun _ _ => rfl

def readTimes (L : Layout α) : Nat → Bytes → List α × Bytes
  | 0, bytes => ([], bytes)
  | n + 1, bytes =>
      let rest := readTimes L n (L.read bytes).2
      ((L.read bytes).1 :: rest.1, rest.2)

theorem length_readTimes (L : Layout α) (n : Nat) (bytes : Bytes) : (L.readTimes n bytes).1.length = n := by
  induction n generalizing bytes with
  | zero => rfl
  | succ n ih => rw [readTimes, List.length_cons, ih]

theorem readTimes_nil (L : Layout α) (n : Nat) : (L.readTimes n []).2 = [] := by
  induction n with
  | zero => rfl
  | succ n ih => rw [readTimes, L.read_nil, ih]

/-- `n` times the same. -/
def times (L : Layout α) (n : Nat) : Layout (List α) where
  Fits as := as.length = n ∧ ∀ a ∈ as, L.Fits a
  write as := as.flatMap L.write
  read := L.readTimes n
  read_write {as} h rest := by
    obtain ⟨rfl, h⟩ := h
    induction as with
    | nil => rfl
    | cons a as ih =>
        obtain ⟨ha, has⟩ := List.forall_mem_cons.mp h
        rw [List.flatMap_cons, List.length_cons, readTimes, List.append_assoc, L.read_write ha, ih has]
  read_nil := L.readTimes_nil n
  write_read bytes := by
    induction n generalizing bytes with
    | zero => exact ⟨0, by simp [readTimes, zeros]⟩
    | succ n ih =>
        rw [readTimes, List.flatMap_cons]
        exact (L.write_read bytes).append (ih _)
  read_append bytes more h := by
    induction n generalizing bytes with
    | zero => rfl
    | succ n ih =>
        have hne : (L.read bytes).2 ≠ [] := fun hnil => h (by rw [readTimes, hnil, L.readTimes_nil])
        rw [readTimes, L.read_append bytes more hne, ih _ h, readTimes]
  read_zeros bytes k := by
    induction n generalizing bytes k with
    | zero => exact ⟨k, rfl⟩
    | succ n ih =>
        obtain ⟨j, hj⟩ := L.read_zeros bytes k
        obtain ⟨i, hi⟩ := ih (L.read bytes).2 j
        exact ⟨i, by rw [readTimes, hj, hi, readTimes]⟩

/-- A string behind its length. -/
def sized (k : Nat) : Layout Bytes :=
  (num k).keyed raw List.length fun n bytes => by
    simp only [raw, zeros, List.length_append, List.length_take, List.length_replicate]
    omega

theorem length_read_sized (k : Nat) (bytes : Bytes) : ((sized k).read bytes).2.length =
    bytes.length - k - LittleEndian.decode (bytes.take k) := by
  simp [sized, keyed, num, raw, Nat.sub_sub]

theorem read_sized_take (k : Nat) (bytes : Bytes) :
    (sized k).read (bytes.take (k + LittleEndian.decode (bytes.take k))) = (((sized k).read bytes).1, []) := by
  simp only [sized, keyed, num, raw, List.take_take, List.drop_take, Nat.min_eq_left (Nat.le_add_right k _),
    Nat.add_sub_cancel_left, Nat.min_self, List.length_take, List.length_drop, Nat.sub_self, List.take_zero]
  congr 3
  omega

/-- A list behind its length. -/
def counted (k : Nat) (L : Layout α) : Layout (List α) :=
  (num k).keyed L.times List.length L.length_readTimes

end Layout

end MiniStorage
