import MiniStorage.Engine.Coding

namespace MiniStorage.Engine

/-- The bytes are this string behind its length, which may have groups that it does not need. -/
def EncodedAs (bs s : Bytes) : Prop :=
  ∃ len, bs = len ++ s ∧ decodeVarint32 len = some ((len.length : Int), UInt32.ofNat s.length) ∧ s.length < 2 ^ 32

/-- Bytes that all say that another one follows, and too few of them for a length to be given up. -/
def Unfinished (bs : Bytes) : Prop := bs.length < 5 ∧ ∀ b ∈ bs, 128 ≤ b.toNat

theorem byte_more (byte : UInt8) : ¬ byte &&& 0x80 = 0 ↔ 128 ≤ byte.toNat := by
  rw [byte_stop, not_lt]

/-- The loop does not look behind the byte it stops at. -/
theorem decodeVarint32Loop_append {left len : Nat} {bs : Bytes} {shift acc value : UInt32} {n : Int}
    (h : decodeVarint32Loop left bs len shift acc = some (n, value)) (r : Bytes) :
    decodeVarint32Loop left (bs ++ r) len shift acc = some (n, value) := by
  induction left generalizing bs len shift acc with
  | zero => exact h
  | succ left ih =>
      cases bs with
      | nil => cases h
      | cons b bs =>
          simp only [List.cons_append, decodeVarint32Loop] at h ⊢
          split at h
          next hstop => rw [if_pos hstop, h]
          next hmore => rw [if_neg hmore, ih h]

/-- What the loop has taken when it stops, unless it gives up. -/
theorem decodeVarint32Loop_taken {left len : Nat} {bs : Bytes} {shift acc value : UInt32} {n : Int}
    (h : decodeVarint32Loop left bs len shift acc = some (n, value)) (hn : 0 ≤ n) :
    ∃ k ≤ bs.length, n = (len : Int) + k ∧ decodeVarint32Loop left (bs.take k) len shift acc = some (n, value) := by
  induction left generalizing bs len shift acc with
  | zero =>
      simp only [decodeVarint32Loop, Option.some.injEq, Prod.mk.injEq] at h
      omega
  | succ left ih =>
      cases bs with
      | nil => cases h
      | cons b bs =>
          simp only [decodeVarint32Loop] at h
          split at h
          next hstop =>
            simp only [Option.some.injEq, Prod.mk.injEq] at h
            obtain ⟨rfl, rfl⟩ := h
            refine ⟨1, by simp, by simp, ?_⟩
            simp only [List.take_succ_cons, List.take_zero, decodeVarint32Loop, hstop, if_true]
          next hmore =>
            obtain ⟨k, hk, hlen, htake⟩ := ih h
            refine ⟨k + 1, by simpa using hk, by omega, ?_⟩
            simp only [List.take_succ_cons, decodeVarint32Loop, hmore, if_false, htake]

theorem decodeVarint32Loop_none_iff (left len : Nat) (bs : Bytes) (shift acc : UInt32) :
    decodeVarint32Loop left bs len shift acc = none ↔ bs.length < left ∧ ∀ b ∈ bs, 128 ≤ b.toNat := by
  induction left generalizing bs len shift acc with
  | zero => simp [decodeVarint32Loop]
  | succ left ih =>
      cases bs with
      | nil => simp [decodeVarint32Loop]
      | cons b bs =>
          rw [decodeVarint32Loop, List.length_cons, Nat.add_lt_add_iff_right, List.forall_mem_cons]
          split
          next hstop =>
            rw [byte_stop] at hstop
            constructor
            · intro h
              cases h
            · intro h
              omega
          next hmore =>
            rw [byte_more] at hmore
            rw [ih]
            tauto

theorem decodeVarint32_append {len : Bytes} {n : Int} {value : UInt32} (h : decodeVarint32 len = some (n, value))
    (r : Bytes) :
    decodeVarint32 (len ++ r) = some (n, value) :=
  decodeVarint32Loop_append h r

theorem decodeVarint32_taken {bs : Bytes} {n : Int} {value : UInt32} (h : decodeVarint32 bs = some (n, value))
    (hn : 0 ≤ n) :
    n.toNat ≤ bs.length ∧ decodeVarint32 (bs.take n.toNat) = some (((bs.take n.toNat).length : Int), value) := by
  obtain ⟨k, hk, hlen, htake⟩ := decodeVarint32Loop_taken h hn
  have hto : n.toNat = k := by omega
  rw [hto]
  refine ⟨hk, ?_⟩
  rw [decodeVarint32, htake, List.length_take_of_le hk]
  simpa using hlen

theorem decodeVarint32_none_iff (bs : Bytes) : decodeVarint32 bs = none ↔ Unfinished bs :=
  decodeVarint32Loop_none_iff ..

theorem decodeString_eq_none_iff (p : Cursor) : decodeString p = none ↔ Unfinished p.bytes := by
  rw [← decodeVarint32_none_iff]
  constructor
  · intro h
    cases hd : decodeVarint32 p.bytes with
    | none => rfl
    | some x =>
        simp only [decodeString, hd, Option.bind_eq_bind, Option.bind_some, Option.pure_def] at h
        split at h <;> cases h
  · intro h
    simp only [decodeString, h, Option.bind_eq_bind, Option.bind_none]

theorem decodeString_encodedAs {bs s : Bytes} (h : EncodedAs bs s) (rest beyond : Bytes) :
    decodeString ⟨bs ++ rest, beyond⟩ = some (some (s, ⟨rest, beyond⟩)) := by
  obtain ⟨len, rfl, hlen, hs⟩ := h
  have hd := decodeVarint32_append hlen (s ++ (rest ++ beyond))
  have hto : (UInt32.ofNat s.length).toNat = s.length := by rw [UInt32.toNat_ofNat', Nat.mod_eq_of_lt hs]
  have hc : ¬ ((len.length : Int) < 0 ∨ (len.length : Int) + s.length > ((len ++ (s ++ rest)).length : Nat)) := by
    simp only [List.length_append]
    omega
  simp only [decodeString, Cursor.bytes, List.append_assoc, hd, Option.bind_eq_bind, Option.bind_some, hto, hc,
    if_false, Int.toNat_natCast, advance_append, Option.pure_def, List.take_left']

/-- A string is taken from in front of the limit only. -/
theorem decodeString_some {p q : Cursor} {s : Bytes} (h : decodeString p = some (some (s, q))) :
    ∃ bs, EncodedAs bs s ∧ p.ahead = bs ++ q.ahead ∧ q.beyond = p.beyond := by
  obtain ⟨ahead, beyond⟩ := p
  obtain ⟨⟨n, len⟩, hd, h⟩ := Option.bind_eq_some_iff.mp h
  dsimp only at h
  split at h
  next => cases h
  next hc =>
    simp only [Option.pure_def, Option.some.injEq, Prod.mk.injEq] at h
    obtain ⟨rfl, rfl⟩ := h
    obtain ⟨hn, hfit⟩ := not_or.mp hc
    obtain ⟨n, rfl⟩ := Int.eq_ofNat_of_zero_le (not_lt.mp hn)
    have hfit : n + len.toNat ≤ ahead.length := by
      have hle := not_lt.mp hfit
      omega
    have htaken := (decodeVarint32_taken hd (Int.natCast_nonneg n)).2
    have hcut : (ahead ++ beyond).take n = ahead.take n := List.take_append_of_le_length (by omega)
    rw [Int.toNat_natCast, Cursor.bytes, hcut] at htaken
    have hlen : (((ahead.drop n).take len.toNat)).length = len.toNat := by
      rw [List.length_take, List.length_drop]
      omega
    simp only [Int.toNat_natCast, Cursor.advance]
    refine ⟨ahead.take n ++ (ahead.drop n).take len.toNat, ⟨ahead.take n, rfl, ?_, ?_⟩, ?_, ?_⟩
    · rw [htaken, hlen, UInt32.ofNat_toNat]
    · rw [hlen]
      exact len.toNat_lt
    · rw [List.append_assoc, List.take_append_drop, List.take_append_drop]
    · have hzero : n - ahead.length = 0 := by omega
      have hzero' : len.toNat - (ahead.length - n) = 0 := by omega
      rw [hzero, List.drop_zero, List.length_drop, hzero', List.drop_zero]

theorem EncodedAs.ne_nil {bs s : Bytes} (h : EncodedAs bs s) : bs ≠ [] := by
  rintro rfl
  obtain ⟨len, hbs, hlen, -⟩ := h
  rw [(List.append_eq_nil_iff.mp hbs.symm).1] at hlen
  cases hlen

theorem encodedAs_lengthPrefixed {codec : VarintCodec} {s : Bytes} (he : codec.Encodes s.length)
    (hs : s.length < 2 ^ 32) :
    EncodedAs (lengthPrefixed codec s) s := by
  refine ⟨codec.bytes s.length, rfl, ?_, hs⟩
  simpa using he.decode []

theorem or_shiftLeft_eq_add {acc x shift : UInt32} (hs : shift.toNat < 32) (ha : acc.toNat < 2 ^ shift.toNat) :
    acc ||| x <<< shift = acc + UInt32.ofNat (2 ^ shift.toNat) * x := by
  obtain ⟨k, hk⟩ := Nat.exists_eq_add_of_le (Nat.le_of_lt hs)
  have hpow : 2 ^ 32 = 2 ^ shift.toNat * 2 ^ k := by rw [← Nat.pow_add, ← hk]
  have hlow : 2 ^ shift.toNat * x.toNat % 2 ^ 32 = 2 ^ shift.toNat * (x.toNat % 2 ^ k) := by
    rw [hpow, Nat.mul_mod_mul_left]
  have hfit : acc.toNat + 2 ^ shift.toNat * (x.toNat % 2 ^ k) < 2 ^ 32 := by
    have hx : x.toNat % 2 ^ k + 1 ≤ 2 ^ k := Nat.mod_lt _ (Nat.two_pow_pos k)
    calc acc.toNat + 2 ^ shift.toNat * (x.toNat % 2 ^ k)
        < 2 ^ shift.toNat + 2 ^ shift.toNat * (x.toNat % 2 ^ k) := Nat.add_lt_add_right ha _
      _ = 2 ^ shift.toNat * (x.toNat % 2 ^ k + 1) := by rw [Nat.mul_add, Nat.mul_one, Nat.add_comm]
      _ ≤ 2 ^ shift.toNat * 2 ^ k := Nat.mul_le_mul_left _ hx
      _ = 2 ^ 32 := hpow.symm
  apply UInt32.toNat_inj.mp
  rw [UInt32.toNat_or, UInt32.toNat_shiftLeft, Nat.mod_eq_of_lt hs, Nat.shiftLeft_eq, Nat.mul_comm, hlow, Nat.or_comm,
    ← Nat.two_pow_add_eq_or_of_lt ha, UInt32.toNat_add, UInt32.toNat_mul, UInt32.toNat_ofNat', Nat.mod_mul_mod, hlow,
    Nat.mod_eq_of_lt hfit, Nat.add_comm]

/-- The number that groups of seven bits make, the low group first. -/
def groups : Bytes → UInt32
  | [] => 0
  | b :: bs => (b &&& 0x7f).toUInt32 + 128 * groups bs

/-- At most five bytes, of which the last one alone is below 128, and the number they make. -/
def VarintAs (bs : Bytes) (value : UInt32) : Prop :=
  ∃ front last, bs = front ++ [last] ∧ front.length < 5 ∧ (∀ b ∈ front, 128 ≤ b.toNat) ∧ last.toNat < 128 ∧
    value = groups bs

theorem decodeVarint32Loop_groups {left len : Nat} {front : Bytes} {last : UInt8} {shift acc : UInt32}
    (hleft : front.length < left) (hshift : shift.toNat + 7 * left = 35) (hacc : acc.toNat < 2 ^ shift.toNat)
    (hfront : ∀ b ∈ front, 128 ≤ b.toNat) (hlast : last.toNat < 128) :
    decodeVarint32Loop left (front ++ [last]) len shift acc =
      some (((len + front.length + 1 : Nat) : Int),
        acc + UInt32.ofNat (2 ^ shift.toNat) * groups (front ++ [last])) := by
  induction front generalizing left len shift acc with
  | nil =>
      obtain ⟨left, rfl⟩ := Nat.exists_eq_succ_of_ne_zero (Nat.ne_zero_of_lt hleft)
      have hstop : last &&& 0x80 = 0 := (byte_stop last).mpr hlast
      simp only [List.nil_append, decodeVarint32Loop, hstop, if_true, groups, UInt32.mul_zero, UInt32.add_zero,
        List.length_nil]
      rw [or_shiftLeft_eq_add (by omega) hacc]
      rfl
  | cons b front ih =>
      obtain ⟨left, rfl⟩ := Nat.exists_eq_succ_of_ne_zero (Nat.ne_zero_of_lt hleft)
      obtain ⟨hb, hfront⟩ := List.forall_mem_cons.mp hfront
      rw [List.length_cons] at hleft
      have hmore : ¬ b &&& 0x80 = 0 := (byte_more b).mpr hb
      have hnext : (shift + 7).toNat = shift.toNat + 7 := by
        have hseven : (7 : UInt32).toNat = 7 := rfl
        rw [UInt32.toNat_add, hseven, Nat.mod_eq_of_lt (by omega)]
      have hgroup : (b &&& 0x7f).toUInt32.toNat < 128 := by
        have hmask : (0x7f : UInt8).toNat = 2 ^ 7 - 1 := rfl
        rw [UInt8.toNat_toUInt32, UInt8.toNat_and, hmask, Nat.and_two_pow_sub_one_eq_mod]
        exact Nat.mod_lt _ (by decide)
      have hpow : 2 ^ (shift.toNat + 7) = 2 ^ shift.toNat * 128 := Nat.pow_add 2 _ 7
      have hstep := or_shiftLeft_eq_add (x := (b &&& 0x7f).toUInt32) (by omega) hacc
      have hacc' : (acc ||| (b &&& 0x7f).toUInt32 <<< shift).toNat < 2 ^ (shift + 7).toNat := by
        rw [hnext, UInt32.toNat_or]
        refine Nat.or_lt_two_pow (lt_of_lt_of_le hacc (Nat.pow_le_pow_right (by decide) (by omega))) ?_
        have hshift' : shift.toNat < 32 := by omega
        rw [UInt32.toNat_shiftLeft, Nat.mod_eq_of_lt hshift', Nat.shiftLeft_eq, hpow]
        refine lt_of_le_of_lt (Nat.mod_le _ _) ?_
        rw [Nat.mul_comm]
        exact Nat.mul_lt_mul_of_pos_left hgroup (Nat.two_pow_pos _)
      have hrec : decodeVarint32Loop left (front ++ [last]) (len + 1) _ _ = _ :=
        ih (Nat.lt_of_succ_lt_succ hleft) (by omega) hacc' hfront
      rw [List.cons_append, decodeVarint32Loop, if_neg hmore, hrec, hnext, hstep, hpow, groups, List.length_cons]
      congr 2
      · omega
      · rw [UInt32.ofNat_mul, UInt32.mul_add, UInt32.add_assoc, UInt32.mul_assoc]
        rfl

theorem decodeVarint32Loop_stops {left len : Nat} {bs : Bytes} {shift acc value : UInt32} {n : Int}
    (h : decodeVarint32Loop left bs len shift acc = some (n, value)) (hn : 0 ≤ n) :
    ∃ front last tail, bs = front ++ [last] ++ tail ∧ front.length < left ∧ (∀ b ∈ front, 128 ≤ b.toNat) ∧
      last.toNat < 128 := by
  induction left generalizing bs len shift acc with
  | zero =>
      simp only [decodeVarint32Loop, Option.some.injEq, Prod.mk.injEq] at h
      omega
  | succ left ih =>
      cases bs with
      | nil => cases h
      | cons b bs =>
          simp only [decodeVarint32Loop] at h
          split at h
          next hstop => exact ⟨[], b, bs, rfl, Nat.zero_lt_succ left, by simp, (byte_stop b).mp hstop⟩
          next hmore =>
            obtain ⟨front, last, tail, rfl, hlen, hfront, hlast⟩ := ih h
            exact ⟨b :: front, last, tail, rfl, Nat.succ_lt_succ hlen,
              List.forall_mem_cons.mpr ⟨(byte_more b).mp hmore, hfront⟩, hlast⟩

theorem VarintAs.decode {bs : Bytes} {value : UInt32} (h : VarintAs bs value) (r : Bytes) :
    decodeVarint32 (bs ++ r) = some ((bs.length : Int), value) := by
  obtain ⟨front, last, rfl, hlen, hfront, hlast, rfl⟩ := h
  have hloop : decodeVarint32Loop 5 (front ++ [last]) 0 0 0 = _ :=
    decodeVarint32Loop_groups hlen (by decide) (by decide) hfront hlast
  have hone : UInt32.ofNat (2 ^ (0 : UInt32).toNat) = 1 := rfl
  rw [hone, UInt32.one_mul, UInt32.zero_add] at hloop
  apply decodeVarint32_append
  rw [decodeVarint32, hloop, List.length_append, List.length_singleton, Nat.zero_add]

theorem decodeVarint32_eq_some {bs : Bytes} {n : Int} {value : UInt32} (h : decodeVarint32 bs = some (n, value))
    (hn : 0 ≤ n) :
    ∃ len tail, bs = len ++ tail ∧ VarintAs len value ∧ n = len.length := by
  obtain ⟨front, last, tail, rfl, hlen, hfront, hlast⟩ := decodeVarint32Loop_stops h hn
  have hvarint : VarintAs (front ++ [last]) (groups (front ++ [last])) := ⟨front, last, rfl, hlen, hfront, hlast, rfl⟩
  obtain ⟨rfl, rfl⟩ := Prod.mk.inj (Option.some.inj ((hvarint.decode tail).symm.trans h))
  exact ⟨front ++ [last], tail, rfl, hvarint, rfl⟩

theorem VarintAs.ne_nil {bs : Bytes} {value : UInt32} (h : VarintAs bs value) : bs ≠ [] := by
  obtain ⟨front, last, rfl, -⟩ := h
  simp

end MiniStorage.Engine
