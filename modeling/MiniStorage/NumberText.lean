import MiniStorage.Decimal
import Mathlib.Algebra.Ring.Int.Defs

namespace MiniStorage.NumberText

def isSpace (b : UInt8) : Bool := b = 32 ∨ 9 ≤ b ∧ b ≤ 13

def isDigit (b : UInt8) : Bool := 48 ≤ b ∧ b ≤ 57

/-- Whether the number in front of a text has a minus, its digits as a number, and what stands behind them. -/
def readDigits (s : Bytes) : Option (Bool × Nat × Bytes) :=
  let s := s.dropWhile isSpace
  let body := if s.head? = some 43 ∨ s.head? = some 45 then s.tail else s
  if body.takeWhile isDigit = [] then none
  else some (s.head? = some 45, Decimal.decode (body.takeWhile isDigit), body.dropWhile isDigit)

/-- An unsigned number of `w` bits. A minus is taken modulo 2^w. -/
def readUnsigned (w : Nat) (s : Bytes) : Option (Nat × Bytes) :=
  match readDigits s with
  | none => none
  | some (minus, n, rest) => if n < 2 ^ w then some (if minus then (2 ^ w - n) % 2 ^ w else n, rest) else none

def readSigned (w : Nat) (s : Bytes) : Option (Int × Bytes) :=
  match readDigits s with
  | none => none
  | some (minus, n, rest) =>
      let i : Int := if minus then -n else n
      if -2 ^ (w - 1) ≤ i ∧ i < 2 ^ (w - 1) then some (i, rest) else none

def sign (minus : Bool) : Bytes := if minus then [45] else []

variable {minus : Bool} {w n : Nat} {ds rest s : Bytes}

theorem isDigit_of_mem_encode : ∀ b ∈ Decimal.encode n, isDigit b = true := by
  intro b hb
  obtain ⟨hle, hge⟩ := Decimal.mem_encode hb
  simp only [isDigit, UInt8.le_iff_toNat_le, decide_eq_true_eq]
  exact ⟨hle, hge⟩

theorem isDigit_of_mem_encodePadded : ∀ b ∈ Decimal.encodePadded w n, isDigit b = true := by
  intro b hb
  obtain ⟨hle, hge⟩ := Decimal.mem_encodePadded hb
  simp only [isDigit, UInt8.le_iff_toNat_le, decide_eq_true_eq]
  exact ⟨hle, hge⟩

theorem not_isDigit_head {b : UInt8} (hb : isDigit b = false) (s : Bytes) : ∀ d ∈ (b :: s).head?, isDigit d = false := by
  intro d hd
  rw [← Option.some.inj hd]
  exact hb

theorem ne_of_isDigit {b : UInt8} (h : isDigit b = true) : isSpace b = false ∧ b ≠ 43 ∧ b ≠ 45 := by
  simp only [isDigit, UInt8.le_iff_toNat_le, decide_eq_true_eq] at h
  simp only [isSpace, decide_eq_false_iff_not, not_or, not_and, UInt8.le_iff_toNat_le, ← UInt8.toNat_inj, ne_eq]
  change 48 ≤ b.toNat ∧ b.toNat ≤ 57 at h
  change (¬ b.toNat = 32 ∧ (9 ≤ b.toNat → ¬ b.toNat ≤ 13)) ∧ ¬ b.toNat = 43 ∧ ¬ b.toNat = 45
  omega

@[simp] theorem readDigits_blank (s : Bytes) : readDigits (32 :: s) = readDigits s := by
  rw [readDigits, List.dropWhile_cons_of_pos (by decide)]
  rfl

theorem takeWhile_digits (hds : ∀ b ∈ ds, isDigit b = true) (hrest : ∀ b ∈ rest.head?, isDigit b = false) :
    (ds ++ rest).takeWhile isDigit = ds ∧ (ds ++ rest).dropWhile isDigit = rest := by
  rw [List.takeWhile_append_of_pos hds, List.dropWhile_append_of_pos hds]
  cases rest with
  | nil => simp
  | cons b rest =>
      have hb : isDigit b = false := hrest b rfl
      simp [hb]

theorem readDigits_sign (minus : Bool) (hds : ∀ b ∈ ds, isDigit b = true) (hne : ds ≠ [])
    (hrest : ∀ b ∈ rest.head?, isDigit b = false) :
    readDigits (sign minus ++ (ds ++ rest)) = some (minus, Decimal.decode ds, rest) := by
  obtain ⟨htake, hdrop⟩ := takeWhile_digits hds hrest
  cases minus with
  | true =>
      have hspace : (45 :: (ds ++ rest)).dropWhile isSpace = 45 :: (ds ++ rest) :=
        List.dropWhile_cons_of_neg (by decide)
      simp [sign, readDigits, hspace, htake, hdrop, hne]
  | false =>
      obtain ⟨d, t, hd⟩ := List.exists_cons_of_ne_nil hne
      obtain ⟨hspace, hplus, hminus⟩ := ne_of_isDigit (hds d (by rw [hd]; exact List.mem_cons_self))
      have hhead : (ds ++ rest).head? = some d := by rw [hd]; rfl
      have hkeep : (ds ++ rest).dropWhile isSpace = ds ++ rest := by
        rw [hd, List.cons_append, List.dropWhile_cons_of_neg (by simp [hspace])]
      simp only [sign, Bool.false_eq_true, if_false, List.nil_append, readDigits, hkeep, hhead, Option.some.injEq, hplus,
        hminus, or_self, htake, hdrop, hne, decide_false]

theorem readDigits_of_isPrefix_sign (h : s <+: sign minus) : readDigits s = none := by
  cases minus with
  | false =>
      obtain rfl := List.prefix_nil.mp h
      rfl
  | true =>
      rcases List.prefix_cons_iff.mp h with rfl | ⟨t, rfl, ht⟩
      · rfl
      · obtain rfl := List.prefix_nil.mp ht
        rfl

theorem prefix_append_cases {α : Type*} {xs ys p : List α} (h : p <+: xs ++ ys) :
    p <+: xs ∨ ∃ q, p = xs ++ q ∧ q <+: ys := by
  rcases List.prefix_or_prefix_of_prefix h (List.prefix_append xs ys) with hp | ⟨q, rfl⟩
  · exact .inl hp
  · exact .inr ⟨q, rfl, (List.prefix_append_right_inj xs).mp h⟩

/-- Of a number that is cut off nothing is left to read. -/
theorem readDigits_of_isPrefix (hds : ∀ b ∈ ds, isDigit b = true) (h : s <+: sign minus ++ ds) :
    readDigits s = none ∨ ∃ n, readDigits s = some (minus, n, []) := by
  rcases prefix_append_cases h with hs | ⟨q, rfl, hq⟩
  · exact .inl (readDigits_of_isPrefix_sign hs)
  · by_cases hq0 : q = []
    · subst hq0
      rw [List.append_nil]
      exact .inl (readDigits_of_isPrefix_sign (List.prefix_refl _))
    · have hread := @readDigits_sign q [] minus (fun b hb => hds b (hq.subset hb)) hq0 (by simp)
      rw [List.append_nil] at hread
      exact .inr ⟨_, hread⟩

@[simp] theorem readUnsigned_blank (w : Nat) (s : Bytes) : readUnsigned w (32 :: s) = readUnsigned w s := by
  rw [readUnsigned, readDigits_blank]
  rfl

@[simp] theorem readSigned_blank (w : Nat) (s : Bytes) : readSigned w (32 :: s) = readSigned w s := by
  rw [readSigned, readDigits_blank]
  rfl

@[simp] theorem readUnsigned_nil (w : Nat) : readUnsigned w [] = none := rfl

@[simp] theorem readSigned_nil (w : Nat) : readSigned w [] = none := rfl

theorem readUnsigned_digits (hds : ∀ b ∈ ds, isDigit b = true) (hne : ds ≠ [])
    (hrest : ∀ b ∈ rest.head?, isDigit b = false) (hlt : Decimal.decode ds < 2 ^ w) :
    readUnsigned w (ds ++ rest) = some (Decimal.decode ds, rest) := by
  have hread : readDigits (ds ++ rest) = some (false, Decimal.decode ds, rest) :=
    readDigits_sign false hds hne hrest
  simp only [readUnsigned, hread, if_pos hlt, Bool.false_eq_true, if_false]

theorem readUnsigned_encode (hn : n < 2 ^ w) (hrest : ∀ b ∈ rest.head?, isDigit b = false) :
    readUnsigned w (Decimal.encode n ++ rest) = some (n, rest) := by
  have hread := readUnsigned_digits (w := w) isDigit_of_mem_encode (Decimal.encode_ne_nil n) hrest
  rw [Decimal.decode_encode] at hread
  exact hread hn

theorem readSigned_digits (hds : ∀ b ∈ ds, isDigit b = true) (hne : ds ≠ [])
    (hrest : ∀ b ∈ rest.head?, isDigit b = false) {i : Int}
    (hi : i = if minus then -(Decimal.decode ds : Int) else Decimal.decode ds)
    (hrange : -2 ^ (w - 1) ≤ i ∧ i < 2 ^ (w - 1)) : readSigned w (sign minus ++ (ds ++ rest)) = some (i, rest) := by
  simp only [readSigned, readDigits_sign minus hds hne hrest, ← hi, if_pos hrange]

/-- A number as `<<` prints it. -/
def showSigned (i : Int) : Bytes := sign (i < 0) ++ Decimal.encode i.natAbs

theorem readSigned_showSigned {i : Int} (hi : -2 ^ (w - 1) ≤ i ∧ i < 2 ^ (w - 1))
    (hrest : ∀ b ∈ rest.head?, isDigit b = false) : readSigned w (showSigned i ++ rest) = some (i, rest) := by
  rw [showSigned, List.append_assoc]
  refine readSigned_digits isDigit_of_mem_encode (Decimal.encode_ne_nil _) hrest ?_ hi
  rw [Decimal.decode_encode]
  by_cases hneg : i < 0
  · simp only [hneg, decide_true, if_true]
    omega
  · simp only [hneg, decide_false, Bool.false_eq_true, if_false]
    omega

theorem readUnsigned_torn (h : s <+: Decimal.encode n) :
    readUnsigned w s = none ∨ ∃ k, readUnsigned w s = some (k, []) := by
  rcases @readDigits_of_isPrefix false _ _ isDigit_of_mem_encode h with hread | ⟨k, hread⟩
  · simp [readUnsigned, hread]
  · simp only [readUnsigned, hread]
    split
    next => exact .inr ⟨_, rfl⟩
    next => exact .inl rfl

theorem readSigned_torn {i : Int} (h : s <+: showSigned i) :
    readSigned w s = none ∨ ∃ k, readSigned w s = some (k, []) := by
  rcases readDigits_of_isPrefix isDigit_of_mem_encode h with hread | ⟨k, hread⟩
  · simp [readSigned, hread]
  · simp only [readSigned, hread]
    generalize (if decide (i < 0) = true then -(k : Int) else k) = j
    split
    next => exact .inr ⟨j, rfl⟩
    next => exact .inl rfl

/-- A number at the end of a text is read, perhaps as a smaller one, once one of its digits is there. -/
theorem readSigned_cut {i : Int} (hi : -2 ^ (w - 1) ≤ i ∧ i < 2 ^ (w - 1))
    (hrest : ∀ b ∈ rest.head?, isDigit b = false) (h : s <+: showSigned i ++ rest) :
    (readSigned w s).isSome = decide ((sign (i < 0)).length < s.length) := by
  rw [showSigned, List.append_assoc] at h
  rcases prefix_append_cases h with hs | ⟨q, rfl, hq⟩
  · rw [readSigned, readDigits_of_isPrefix_sign hs, eq_comm]
    simpa using hs.length_le
  · by_cases hq0 : q = []
    · subst hq0
      rw [List.append_nil, readSigned, readDigits_of_isPrefix_sign (List.prefix_refl _)]
      simp
    · -- the digits that are there, and what follows them
      obtain ⟨ds, t, rfl, hne, ⟨cut, hds⟩, ht⟩ : ∃ ds t, q = ds ++ t ∧ ds ≠ [] ∧ ds <+: Decimal.encode i.natAbs ∧
          ∀ b ∈ t.head?, isDigit b = false := by
        rcases prefix_append_cases hq with hq | ⟨t, rfl, r, rfl⟩
        · exact ⟨q, [], by simp, hq0, hq, by simp⟩
        · refine ⟨_, t, rfl, Decimal.encode_ne_nil _, List.prefix_refl _, ?_⟩
          intro b hb
          apply hrest b
          rw [List.head?_append, Option.mem_def.mp hb]
          rfl
      have hle : Decimal.decode ds ≤ i.natAbs := by
        have happ := Decimal.decode_le_decode_append ds cut
        rwa [hds, Decimal.decode_encode] at happ
      have hdigit : ∀ b ∈ ds, isDigit b = true := fun b hb => isDigit_of_mem_encode b (by rw [← hds]; simp [hb])
      have hpos : (0 : Int) < 2 ^ (w - 1) := Int.pow_pos (by decide)
      have hrange : ∃ j : Int, (j = if decide (i < 0) = true then -(Decimal.decode ds : Int) else Decimal.decode ds) ∧
          -2 ^ (w - 1) ≤ j ∧ j < 2 ^ (w - 1) := by
        refine ⟨_, rfl, ?_⟩
        generalize (2 : Int) ^ (w - 1) = bound at hi hpos ⊢
        simp only [decide_eq_true_eq]
        split <;> omega
      obtain ⟨j, hj, hrange⟩ := hrange
      have hlen : 0 < ds.length := List.length_pos_of_ne_nil hne
      rw [readSigned_digits hdigit hne ht hj hrange, List.length_append, List.length_append]
      exact (decide_eq_true (by omega)).symm

/-- A text that is cut off ends in its first number, or it has the blank behind it. -/
theorem prefix_blank_cases {xs : Bytes} (h : s <+: xs ++ 32 :: rest) :
    s <+: xs ∨ ∃ t, s = xs ++ 32 :: t ∧ t <+: rest := by
  rcases prefix_append_cases h with hs | ⟨q, rfl, hq⟩
  · exact .inl hs
  · rcases List.prefix_cons_iff.mp hq with rfl | ⟨t, rfl, ht⟩
    · rw [List.append_nil]
      exact .inl (List.prefix_refl xs)
    · exact .inr ⟨t, rfl, ht⟩

end MiniStorage.NumberText
