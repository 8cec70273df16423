import MiniStorage.LittleEndian

namespace MiniStorage.Engine

open LittleEndian

def encodeFixed32 (value : UInt32) : Bytes :=
  [(value &&& 0xff).toUInt8, ((value >>> 8) &&& 0xff).toUInt8,
    ((value >>> 16) &&& 0xff).toUInt8, ((value >>> 24) &&& 0xff).toUInt8]

/-- Reading outside the buffer yields nothing. -/
def decodeFixed32 : Bytes → Option UInt32
  | b0 :: b1 :: b2 :: b3 :: _ =>
      some (b0.toUInt32 ||| (b1.toUInt32 <<< 8) ||| (b2.toUInt32 <<< 16) ||| (b3.toUInt32 <<< 24))
  | _ => none

def encodeFixed64 (value : UInt64) : Bytes :=
  [(value &&& 0xff).toUInt8, ((value >>> 8) &&& 0xff).toUInt8,
    ((value >>> 16) &&& 0xff).toUInt8, ((value >>> 24) &&& 0xff).toUInt8,
    ((value >>> 32) &&& 0xff).toUInt8, ((value >>> 40) &&& 0xff).toUInt8,
    ((value >>> 48) &&& 0xff).toUInt8, ((value >>> 56) &&& 0xff).toUInt8]

def decodeFixed64 (buf : Bytes) : Option UInt64 := do
  let lo ← decodeFixed32 buf
  let hi ← decodeFixed32 (buf.drop 4)
  return (hi.toUInt64 <<< 32) ||| lo.toUInt64

/-- The loop's statement `value >> 7;` computes a value and drops it, so the loop
goes round with the same value. Nothing is yielded when the next store would fall
behind the `room` bytes of buf. -/
def encodeVarint32 : Nat → UInt32 → Option Bytes
  | 0, _ => none
  | room + 1, value =>
      if value ≥ 128 then
        (encodeVarint32 room value).map (((value &&& 0x7f) ||| 0x80).toUInt8 :: ·)
      else
        some [(value &&& 0x7f).toUInt8]

/-- Base 128 with the low group first, as decodeVarint32 reads it. -/
def base128 : Nat → UInt32 → Option Bytes
  | 0, _ => none
  | room + 1, value =>
      if value ≥ 128 then (base128 room (value >>> 7)).map (((value &&& 0x7f) ||| 0x80).toUInt8 :: ·)
      else some [(value &&& 0x7f).toUInt8]

/-- One turn for each of the `left` bytes the loop may still take. -/
def decodeVarint32Loop : Nat → Bytes → Nat → UInt32 → UInt32 → Option (Int × UInt32)
  | 0, _, _, _, value => some (-1, value)
  | _ + 1, [], _, _, _ => none
  | left + 1, byte :: buf, len, shift, value =>
      let value := value ||| ((byte &&& 0x7f).toUInt32 <<< shift)
      if byte &&& 0x80 = 0 then some (len + 1, value)
      else decodeVarint32Loop left buf (len + 1) (shift + 7) value

/-- The bytes consumed, or -1, and what is left in `*value`. -/
def decodeVarint32 (buf : Bytes) : Option (Int × UInt32) :=
  decodeVarint32Loop 5 buf 0 0 0

/-- A read pointer: the bytes up to the limit, and those that can be read behind it. -/
structure Cursor where
  ahead : Bytes
  beyond : Bytes
deriving DecidableEq, Repr

namespace Cursor

def bytes (p : Cursor) : Bytes := p.ahead ++ p.beyond

def advance (p : Cursor) (n : Nat) : Cursor :=
  ⟨p.ahead.drop n, p.beyond.drop (n - p.ahead.length)⟩

end Cursor

/-- The inner `none` is the answer false. -/
def decodeString (p : Cursor) : Option (Option (Bytes × Cursor)) := do
  let (consumed, len) ← decodeVarint32 p.bytes
  if consumed < 0 ∨ consumed + len.toNat > p.ahead.length then
    return none
  let p := p.advance consumed.toNat
  return some (p.ahead.take len.toNat, p.advance len.toNat)

def putFixed32 (dst : Bytes) (value : UInt32) : Bytes := dst ++ encodeFixed32 value

def putFixed64 (dst : Bytes) (value : UInt64) : Bytes := dst ++ encodeFixed64 value

theorem toNat_or_shiftLeft {a b s : UInt32} (hs : s.toNat < 32) (ha : a.toNat < 2 ^ s.toNat)
    (hb : 2 ^ s.toNat * b.toNat < 2 ^ 32) :
    (a ||| b <<< s).toNat = a.toNat + 2 ^ s.toNat * b.toNat := by
  rw [UInt32.toNat_or, UInt32.toNat_shiftLeft, Nat.mod_eq_of_lt hs, Nat.shiftLeft_eq,
    Nat.mul_comm, Nat.mod_eq_of_lt hb, Nat.or_comm, ← Nat.two_pow_add_eq_or_of_lt ha, Nat.add_comm]

theorem toNat_and_ff (v : UInt32) : ((v &&& 0xff).toUInt8).toNat = v.toNat % 256 := by
  have h : (0xff : UInt32).toNat = 2 ^ 8 - 1 := rfl
  rw [UInt32.toNat_toUInt8, UInt32.toNat_and, h, Nat.and_two_pow_sub_one_eq_mod]
  omega

theorem encodeFixed32_eq (value : UInt32) : encodeFixed32 value = encode 4 value.toNat := by
  have hb (v : UInt32) : (v &&& 0xff).toUInt8 = UInt8.ofNat (v.toNat % 256) := by
    apply UInt8.toNat_inj.mp
    rw [toNat_and_ff]
    simp
  simp only [encodeFixed32, hb, encode, UInt32.toNat_shiftRight, Nat.shiftRight_eq_div_pow, Nat.div_div_eq_div_mul]
  rfl

theorem decodeFixed32_eq (b0 b1 b2 b3 : UInt8) (r : Bytes) :
    decodeFixed32 (b0 :: b1 :: b2 :: b3 :: r) = some (UInt32.ofNat (decode [b0, b1, b2, b3])) := by
  have h0 := b0.toNat_lt
  have h1 := b1.toNat_lt
  have h2 := b2.toNat_lt
  have h3 := b3.toNat_lt
  have e1 : (b0.toUInt32 ||| b1.toUInt32 <<< 8).toNat = b0.toNat + 2 ^ 8 * b1.toNat :=
    toNat_or_shiftLeft (by decide) (by simpa using h0) (by simp; omega)
  have e2 : (b0.toUInt32 ||| b1.toUInt32 <<< 8 ||| b2.toUInt32 <<< 16).toNat =
      b0.toNat + 2 ^ 8 * b1.toNat + 2 ^ 16 * b2.toNat := by
    rw [← e1]
    exact toNat_or_shiftLeft (by decide) (by rw [e1]; simp; omega) (by simp; omega)
  simp only [decodeFixed32, Option.some.injEq]
  apply UInt32.toNat_inj.mp
  rw [toNat_or_shiftLeft (s := 24) (by decide) (by rw [e2]; simp; omega) (by simp; omega), e2]
  simp [decode]
  omega

@[simp] theorem length_encodeFixed32 (value : UInt32) : (encodeFixed32 value).length = 4 := rfl

@[simp] theorem length_encodeFixed64 (value : UInt64) : (encodeFixed64 value).length = 8 := rfl

@[simp] theorem decodeFixed32_append (value : UInt32) (r : Bytes) :
    decodeFixed32 (encodeFixed32 value ++ r) = some value := by
  have hv := value.toNat_lt
  have h : decodeFixed32 (encodeFixed32 value ++ r) = some (UInt32.ofNat (decode (encodeFixed32 value))) :=
    decodeFixed32_eq _ _ _ _ r
  rw [h, encodeFixed32_eq, decode_encode_of_lt (by omega)]
  simp

theorem decodeFixed32_isSome {buf : Bytes} (h : 4 ≤ buf.length) : (decodeFixed32 buf).isSome := by
  rcases buf with _ | ⟨b0, _ | ⟨b1, _ | ⟨b2, _ | ⟨b3, buf⟩⟩⟩⟩
  · simp at h
  · simp at h
  · simp at h
  · simp at h
  · rfl

theorem encodeFixed64_eq (value : UInt64) : encodeFixed64 value = encode 8 value.toNat := by
  have hb (v : UInt64) : (v &&& 0xff).toUInt8 = UInt8.ofNat (v.toNat % 256) := by
    have h : (0xff : UInt64).toNat = 2 ^ 8 - 1 := rfl
    apply UInt8.toNat_inj.mp
    rw [UInt64.toNat_toUInt8, UInt64.toNat_and, h, Nat.and_two_pow_sub_one_eq_mod]
    simp
  simp only [encodeFixed64, hb, encode, UInt64.toNat_shiftRight, Nat.shiftRight_eq_div_pow, Nat.div_div_eq_div_mul]
  rfl

theorem encodeFixed64_split (value : UInt64) :
    encodeFixed64 value = encodeFixed32 value.toUInt32 ++ encodeFixed32 (value >>> 32).toUInt32 := by
  have hv := value.toNat_lt
  have hlo : encode 4 value.toNat = encodeFixed32 value.toUInt32 := by
    rw [encodeFixed32_eq, UInt64.toNat_toUInt32]
    simp only [encode, List.cons.injEq, and_true]
    refine ⟨?_, ?_, ?_, ?_⟩ <;> congr 1 <;> omega
  have hhi : encode 4 (value.toNat / 2 ^ 32) = encodeFixed32 (value >>> 32).toUInt32 := by
    rw [encodeFixed32_eq, UInt64.toNat_toUInt32, UInt64.toNat_shiftRight, Nat.shiftRight_eq_div_pow]
    simp only [UInt64.reduceToNat, Nat.reduceMod]
    rw [Nat.mod_eq_of_lt (by omega)]
  rw [encodeFixed64_eq, ← hlo, ← hhi]
  simp only [encode, List.cons_append, List.nil_append, Nat.div_div_eq_div_mul]
  rfl

theorem toNat_join (hi lo : UInt32) :
    (hi.toUInt64 <<< 32 ||| lo.toUInt64).toNat = 2 ^ 32 * hi.toNat + lo.toNat := by
  have hh := hi.toNat_lt
  rw [UInt64.toNat_or, UInt64.toNat_shiftLeft, UInt32.toNat_toUInt64, UInt32.toNat_toUInt64, Nat.shiftLeft_eq]
  simp only [UInt64.reduceToNat, Nat.reduceMod]
  rw [Nat.mod_eq_of_lt (by omega), Nat.mul_comm, ← Nat.two_pow_add_eq_or_of_lt lo.toNat_lt]

@[simp] theorem decodeFixed64_append (value : UInt64) (r : Bytes) :
    decodeFixed64 (encodeFixed64 value ++ r) = some value := by
  have hv := value.toNat_lt
  have hd : (encodeFixed32 value.toUInt32 ++ (encodeFixed32 (value >>> 32).toUInt32 ++ r)).drop 4 =
      encodeFixed32 (value >>> 32).toUInt32 ++ r := List.drop_left' (by simp)
  rw [encodeFixed64_split, List.append_assoc]
  simp only [decodeFixed64, hd, decodeFixed32_append, Option.bind_eq_bind, Option.bind_some, Option.pure_def,
    Option.some.injEq]
  apply UInt64.toNat_inj.mp
  rw [toNat_join, UInt64.toNat_toUInt32, UInt64.toNat_toUInt32, UInt64.toNat_shiftRight, Nat.shiftRight_eq_div_pow]
  simp only [UInt64.reduceToNat, Nat.reduceMod]
  omega

theorem toNat_low7 (value : UInt32) : (value &&& 0x7f).toNat = value.toNat % 128 := by
  have h : (0x7f : UInt32).toNat = 2 ^ 7 - 1 := rfl
  rw [UInt32.toNat_and, h, Nat.and_two_pow_sub_one_eq_mod]

theorem toNat_shift7 (value : UInt32) : (value >>> 7).toNat = value.toNat / 128 := by
  rw [UInt32.toNat_shiftRight]
  simp [Nat.shiftRight_eq_div_pow]

theorem byte_stop (byte : UInt8) : byte &&& 0x80 = 0 ↔ byte.toNat < 128 := by
  have h : ∀ n : Fin 256, UInt8.ofNat n.val &&& 0x80 = 0 ↔ n.val < 128 := by decide +kernel
  simpa using h ⟨byte.toNat, byte.toNat_lt⟩

theorem byte_low7 (byte : UInt8) : (byte &&& 0x7f).toUInt32.toNat = byte.toNat % 128 := by
  have h : (0x7f : UInt8).toNat = 2 ^ 7 - 1 := rfl
  rw [UInt8.toNat_toUInt32, UInt8.toNat_and, h, Nat.and_two_pow_sub_one_eq_mod]

theorem toNat_last (value : UInt32) : ((value &&& 0x7f).toUInt8).toNat = value.toNat % 128 := by
  rw [UInt32.toNat_toUInt8, toNat_low7]
  omega

theorem toNat_more (value : UInt32) : (((value &&& 0x7f) ||| 0x80).toUInt8).toNat = value.toNat % 128 + 128 := by
  have h : (0x80 : UInt32).toNat = 2 ^ 7 * 1 := rfl
  rw [UInt32.toNat_toUInt8, UInt32.toNat_or, toNat_low7, h, Nat.or_comm,
    ← Nat.two_pow_add_eq_or_of_lt (by omega)]
  omega

theorem decodeVarint32Loop_last (left len : Nat) (shift acc value : UInt32) (r : Bytes) (hv : value.toNat < 128) :
    decodeVarint32Loop (left + 1) ((value &&& 0x7f).toUInt8 :: r) len shift acc =
      some ((len : Int) + 1, acc ||| value <<< shift) := by
  have hs : (value &&& 0x7f).toUInt8 &&& 0x80 = 0 := by
    rw [byte_stop, toNat_last]
    omega
  have hl : ((value &&& 0x7f).toUInt8 &&& 0x7f).toUInt32 = value := by
    apply UInt32.toNat_inj.mp
    rw [byte_low7, toNat_last]
    omega
  simp only [decodeVarint32Loop, hs, hl, if_true]

theorem decodeVarint32Loop_more (left len : Nat) (shift acc value : UInt32) (r : Bytes) :
    decodeVarint32Loop (left + 1) (((value &&& 0x7f) ||| 0x80).toUInt8 :: r) len shift acc =
      decodeVarint32Loop left r (len + 1) (shift + 7) (acc ||| (value &&& 0x7f) <<< shift) := by
  have hs : ¬ ((value &&& 0x7f) ||| 0x80).toUInt8 &&& 0x80 = 0 := by
    rw [byte_stop, toNat_more]
    omega
  have hl : (((value &&& 0x7f) ||| 0x80).toUInt8 &&& 0x7f).toUInt32 = value &&& 0x7f := by
    apply UInt32.toNat_inj.mp
    rw [byte_low7, toNat_more, toNat_low7]
    omega
  simp only [decodeVarint32Loop, hs, hl, if_false]

/-- What is left to encode is below `128 ^ room`, and the loop that reads it back
has taken the low `7 * k` bits so far. -/
theorem decodeVarint32Loop_base128 (room len k : Nat) (acc value : UInt32) (bs r : Bytes)
    (hr : room + k = 5) (ha : acc.toNat < 2 ^ (7 * k)) (hv : 2 ^ (7 * k) * value.toNat < 2 ^ 32)
    (h : base128 room value = some bs) :
    decodeVarint32Loop room (bs ++ r) len (UInt32.ofNat (7 * k)) acc =
      some ((len : Int) + bs.length, UInt32.ofNat (acc.toNat + 2 ^ (7 * k) * value.toNat)) := by
  induction room generalizing len k acc value bs with
  | zero => cases h
  | succ room ih =>
      have hk : (UInt32.ofNat (7 * k)).toNat = 7 * k := by
        rw [UInt32.toNat_ofNat']
        omega
      have hor (w : UInt32) (hw : w.toNat ≤ value.toNat) :
          (acc ||| w <<< UInt32.ofNat (7 * k)).toNat = acc.toNat + 2 ^ (7 * k) * w.toNat := by
        have hm := Nat.mul_le_mul_left (2 ^ (7 * k)) hw
        rw [toNat_or_shiftLeft (by omega) (by rwa [hk]) (by rw [hk]; omega), hk]
      simp only [base128] at h
      split at h
      next =>
        obtain ⟨bs, hb, rfl⟩ := Option.map_eq_some_iff.mp h
        have hd := Nat.div_add_mod value.toNat 128
        have hp : 2 ^ (7 * (k + 1)) = 2 ^ (7 * k) * 128 := by ring
        have hm : 2 ^ (7 * k) * value.toNat =
            2 ^ (7 * k) * (value.toNat % 128) + 2 ^ (7 * (k + 1)) * (value.toNat / 128) := by
          rw [hp, Nat.mul_assoc, ← Nat.mul_add, Nat.add_comm, hd]
        have ho := hor (value &&& 0x7f) (by rw [toNat_low7]; omega)
        rw [toNat_low7] at ho
        have hacc : (acc ||| (value &&& 0x7f) <<< UInt32.ofNat (7 * k)).toNat < 2 ^ (7 * (k + 1)) := by
          have hl := Nat.mul_le_mul_left (2 ^ (7 * k)) (show value.toNat % 128 ≤ 127 by omega)
          omega
        have hs : UInt32.ofNat (7 * k) + 7 = UInt32.ofNat (7 * (k + 1)) := by
          apply UInt32.toNat_inj.mp
          simp [UInt32.toNat_add]
          omega
        rw [List.cons_append, decodeVarint32Loop_more, hs,
          ih (len + 1) (k + 1) _ (value >>> 7) bs (by omega) hacc (by rw [toNat_shift7]; omega) hb,
          ho, toNat_shift7, hm]
        simp only [List.length_cons, Option.some.injEq, Prod.mk.injEq]
        constructor
        · omega
        · congr 1
          omega
      next hlt =>
        obtain rfl := Option.some.inj h
        have hlt : value.toNat < 128 := by
          simpa [UInt32.le_iff_toNat_le] using hlt
        rw [List.singleton_append, decodeVarint32Loop_last room len _ acc value r hlt, ← hor value le_rfl,
          UInt32.ofNat_toNat]
        simp

theorem decodeVarint32_base128 (value : UInt32) (bs r : Bytes) (h : base128 5 value = some bs) :
    decodeVarint32 (bs ++ r) = some ((bs.length : Int), value) := by
  have hv := value.toNat_lt
  have hd := decodeVarint32Loop_base128 5 0 0 0 value bs r rfl (by simp) (by simpa using hv) h
  simpa [decodeVarint32] using hd

theorem base128_isSome (room : Nat) (value : UInt32) (h : value.toNat < 128 ^ room) (hr : 0 < room) :
    ∃ bs, base128 room value = some bs ∧ 1 ≤ bs.length ∧ bs.length ≤ room := by
  induction room generalizing value with
  | zero => omega
  | succ room ih =>
      simp only [base128]
      split
      next hge =>
        have hge : 128 ≤ value.toNat := by
          simpa [UInt32.le_iff_toNat_le] using hge
        have hroom : 0 < room := by
          rcases Nat.eq_zero_or_pos room with rfl | h0
          · simp at h
            omega
          · exact h0
        obtain ⟨bs, hb, h1, h2⟩ := ih (value >>> 7) (by rw [toNat_shift7]; rw [Nat.pow_succ] at h; omega) hroom
        rw [hb]
        exact ⟨_, rfl, by simp, by simpa using h2⟩
      next => exact ⟨_, rfl, by simp, by simp⟩

theorem encodeVarint32_small {value : UInt32} (h : value.toNat < 128) (room : Nat) :
    encodeVarint32 (room + 1) value = some [(value &&& 0x7f).toUInt8] := by
  have hlt : ¬ value ≥ 128 := by
    simpa [UInt32.le_iff_toNat_le] using h
  simp [encodeVarint32, hlt]

/-- From 128 on the loop never leaves its body, whatever room buf has. -/
theorem encodeVarint32_large {value : UInt32} (h : 128 ≤ value.toNat) (room : Nat) :
    encodeVarint32 room value = none := by
  have hge : value ≥ 128 := by
    simpa [UInt32.le_iff_toNat_le] using h
  induction room with
  | zero => rfl
  | succ room ih => simp [encodeVarint32, hge, ih]

/-- What EncodeVarint32 leaves in the five bytes of buf: `source` is the code's
loop, `base128` the encoding its comments describe. -/
structure VarintCodec where
  encode : UInt32 → Option Bytes
  length_encode : ∀ {value bs}, encode value = some bs → 1 ≤ bs.length ∧ bs.length ≤ 5
  decode_encode : ∀ {value bs} (r : Bytes), encode value = some bs →
    decodeVarint32 (bs ++ r) = some ((bs.length : Int), value)

namespace VarintCodec

def source : VarintCodec where
  encode := encodeVarint32 5
  length_encode := by
    intro value bs h
    rcases Nat.lt_or_ge value.toNat 128 with hlt | hge
    · rw [encodeVarint32_small hlt] at h
      obtain rfl := Option.some.inj h
      simp
    · rw [encodeVarint32_large hge] at h
      cases h
  decode_encode := by
    intro value bs r h
    rcases Nat.lt_or_ge value.toNat 128 with hlt | hge
    · rw [encodeVarint32_small hlt] at h
      obtain rfl := Option.some.inj h
      rw [List.singleton_append, decodeVarint32, decodeVarint32Loop_last 4 0 0 0 value r hlt]
      simp
    · rw [encodeVarint32_large hge] at h
      cases h

def base128 : VarintCodec where
  encode := Engine.base128 5
  length_encode := by
    intro value bs h
    obtain ⟨bs', h', hl⟩ := base128_isSome 5 value (by have := value.toNat_lt; omega) (by decide)
    obtain rfl := Option.some.inj (h.symm.trans h')
    exact hl
  decode_encode := fun r h => decodeVarint32_base128 _ _ r h

end VarintCodec

variable (codec : VarintCodec)

def putVarint32 (dst : Bytes) (value : UInt32) : Option Bytes :=
  (codec.encode value).map (dst ++ ·)

/-- The length becomes a uint32_t on its way into PutVarint32. -/
def encodeString (dst value : Bytes) : Option Bytes :=
  (putVarint32 codec dst (UInt32.ofNat value.length)).map (· ++ value)

def putLengthPrefixedString (dst value : Bytes) : Option Bytes :=
  (putVarint32 codec dst (UInt32.ofNat value.length)).map (· ++ value)

variable {codec}

theorem encodeString_eq_some {dst value out : Bytes} :
    encodeString codec dst value = some out ↔
      ∃ bs, codec.encode (UInt32.ofNat value.length) = some bs ∧ out = dst ++ (bs ++ value) := by
  simp [encodeString, putVarint32, eq_comm]

theorem advance_append (xs ys beyond : Bytes) : Cursor.advance ⟨xs ++ ys, beyond⟩ xs.length = ⟨ys, beyond⟩ := by
  simp [Cursor.advance]

theorem decodeString_append {len : UInt32} {bs : Bytes} (h : codec.encode len = some bs) (xs ys beyond : Bytes)
    (hlen : len.toNat = xs.length) :
    decodeString ⟨bs ++ (xs ++ ys), beyond⟩ = some (some (xs, ⟨ys, beyond⟩)) := by
  have hd := codec.decode_encode (xs ++ (ys ++ beyond)) h
  have hc : ¬ ((bs.length : Int) < 0 ∨ (bs.length : Int) + xs.length > ((bs ++ (xs ++ ys)).length : Nat)) := by
    simp only [List.length_append]
    omega
  simp only [decodeString, Cursor.bytes, List.append_assoc, hd, Option.bind_eq_bind, Option.bind_some, hlen, hc,
    if_false, Int.toNat_natCast, advance_append, Option.pure_def, List.take_left']

namespace VarintCodec

variable (codec : VarintCodec)

/-- PutVarint32 comes back for this number. -/
def Encodes (n : Nat) : Prop := (codec.encode (UInt32.ofNat n)).isSome

def bytes (n : Nat) : Bytes := (codec.encode (UInt32.ofNat n)).getD []

variable {codec}

theorem Encodes.encode_eq {n : Nat} (h : codec.Encodes n) : codec.encode (UInt32.ofNat n) = some (codec.bytes n) := by
  obtain ⟨bs, hb⟩ := Option.isSome_iff_exists.mp h
  simp [bytes, hb]

theorem Encodes.decode {n : Nat} (h : codec.Encodes n) (r : Bytes) :
    decodeVarint32 (codec.bytes n ++ r) = some (((codec.bytes n).length : Int), UInt32.ofNat n) :=
  codec.decode_encode r h.encode_eq

theorem base128_encodes (n : Nat) : base128.Encodes n := by
  obtain ⟨bs, hb, -⟩ := base128_isSome 5 (UInt32.ofNat n) (by have := (UInt32.ofNat n).toNat_lt; omega) (by decide)
  exact Option.isSome_iff_exists.mpr ⟨bs, hb⟩

end VarintCodec

/-- A string behind its length, as both string encoders write it. -/
def lengthPrefixed (codec : VarintCodec) (s : Bytes) : Bytes := codec.bytes s.length ++ s

theorem putLengthPrefixedString_some {dst s out : Bytes} (h : putLengthPrefixedString codec dst s = some out) :
    codec.Encodes s.length ∧ out = dst ++ lengthPrefixed codec s := by
  simp only [putLengthPrefixedString, putVarint32, Option.map_map, Option.map_eq_some_iff] at h
  obtain ⟨bs, hb, rfl⟩ := h
  have he : codec.Encodes s.length := Option.isSome_iff_exists.mpr ⟨bs, hb⟩
  refine ⟨he, ?_⟩
  obtain rfl := Option.some.inj (hb.symm.trans he.encode_eq)
  simp [lengthPrefixed]

theorem putLengthPrefixedString_isSome (dst : Bytes) {s : Bytes} (h : codec.Encodes s.length) :
    (putLengthPrefixedString codec dst s).isSome := by
  simp [putLengthPrefixedString, putVarint32, h.encode_eq]

theorem putVarint32_some {dst out : Bytes} {n : Nat} (h : putVarint32 codec dst (UInt32.ofNat n) = some out) :
    codec.Encodes n ∧ out = dst ++ codec.bytes n := by
  obtain ⟨bs, hb, rfl⟩ := Option.map_eq_some_iff.mp h
  have he : codec.Encodes n := Option.isSome_iff_exists.mpr ⟨bs, hb⟩
  obtain rfl := Option.some.inj (hb.symm.trans he.encode_eq)
  exact ⟨he, rfl⟩

theorem putVarint32_isSome (dst : Bytes) {n : Nat} (h : codec.Encodes n) :
    (putVarint32 codec dst (UInt32.ofNat n)).isSome := by
  simp [putVarint32, h.encode_eq]

theorem length_bytes_pos {n : Nat} (h : codec.Encodes n) : 1 ≤ (codec.bytes n).length :=
  (codec.length_encode h.encode_eq).1

theorem decodeString_lengthPrefixed {s : Bytes} (he : codec.Encodes s.length) (hs : s.length < 2 ^ 32)
    (r beyond : Bytes) :
    decodeString ⟨lengthPrefixed codec s ++ r, beyond⟩ = some (some (s, ⟨r, beyond⟩)) := by
  have hlen : (UInt32.ofNat s.length).toNat = s.length := by
    rw [UInt32.toNat_ofNat', Nat.mod_eq_of_lt hs]
  rw [lengthPrefixed, List.append_assoc]
  exact decodeString_append he.encode_eq s r beyond hlen

theorem lengthPrefixed_ne_nil {s : Bytes} (he : codec.Encodes s.length) : lengthPrefixed codec s ≠ [] := by
  have hlen := length_bytes_pos he
  exact fun h => List.ne_nil_of_length_pos hlen (List.append_eq_nil_iff.mp h).1

theorem source_encode_isSome {value : UInt32} : (VarintCodec.source.encode value).isSome ↔ value < 128 := by
  rw [UInt32.lt_iff_toNat_lt]
  rcases Nat.lt_or_ge value.toNat 128 with h | h
  · simpa [VarintCodec.source, encodeVarint32_small h] using h
  · simpa [VarintCodec.source, encodeVarint32_large h] using h

/-- EncodeVarint32 comes to an end on `value` and writes what DecodeVarint32 reads back. -/
def VarintRoundTrip (value : UInt32) : Prop :=
  ∃ room bs, encodeVarint32 room value = some bs ∧ 1 ≤ bs.length ∧ bs.length ≤ 5 ∧
    ∀ r, decodeVarint32 (bs ++ r) = some ((bs.length : Int), value)

/-- An encoder appends to dst what DecodeString turns into `value`, leaving the cursor behind it. -/
def StringRoundTrip (encode : Bytes → Bytes → Option Bytes) (value : Bytes) : Prop :=
  ∀ dst, ∃ bs, encode dst value = some (dst ++ bs) ∧
    ∀ r beyond, decodeString ⟨bs ++ r, beyond⟩ = some (some (value, ⟨r, beyond⟩))

theorem varintRoundTrip_iff (value : UInt32) : VarintRoundTrip value ↔ value < 128 := by
  rw [UInt32.lt_iff_toNat_lt]
  constructor
  · rintro ⟨room, bs, h, -⟩
    by_contra hge
    rw [encodeVarint32_large (by simpa using hge)] at h
    cases h
  · intro hlt
    have h := encodeVarint32_small hlt 4
    exact ⟨5, _, h, by simp, by simp, fun r => VarintCodec.source.decode_encode r h⟩

theorem stringRoundTrip_iff (value : Bytes) :
    StringRoundTrip (encodeString VarintCodec.source) value ↔ value.length < 128 := by
  have hm : (UInt32.ofNat value.length).toNat = value.length % 2 ^ 32 := UInt32.toNat_ofNat'
  constructor
  · intro h
    obtain ⟨out, ho, hd⟩ := h []
    obtain ⟨bs, hb, hout⟩ := encodeString_eq_some.mp ho
    have hsmall : (UInt32.ofNat value.length).toNat < 128 := by
      have hs := source_encode_isSome.mp (by rw [hb]; rfl)
      simpa [UInt32.lt_iff_toNat_lt] using hs
    -- DecodeString takes as many bytes as the truncated length says
    have hcut := decodeString_append hb (value.take (value.length % 2 ^ 32)) (value.drop (value.length % 2 ^ 32)) []
      (by rw [hm, List.length_take, Nat.min_eq_left (Nat.mod_le _ _)])
    have hfull := hd [] []
    rw [List.take_append_drop] at hcut
    simp only [List.nil_append] at hout
    rw [hout, List.append_nil, hcut] at hfull
    have hlen := congrArg List.length (Prod.mk.inj (Option.some.inj (Option.some.inj hfull))).1
    rw [List.length_take, Nat.min_eq_left (Nat.mod_le _ _)] at hlen
    omega
  · intro hlt dst
    have hs : (UInt32.ofNat value.length).toNat < 128 := by omega
    have hb : VarintCodec.source.encode (UInt32.ofNat value.length) = some _ := encodeVarint32_small hs 4
    refine ⟨_, encodeString_eq_some.mpr ⟨_, hb, rfl⟩, ?_⟩
    intro r beyond
    rw [List.append_assoc]
    exact decodeString_append hb value r beyond (by omega)

/-- Encoding and decoding agree exactly on the values that need a single byte. -/
theorem varint_string_codec (value : UInt32) (str : Bytes) :
    (VarintRoundTrip value ↔ value < 128) ∧
    (StringRoundTrip (encodeString VarintCodec.source) str ↔ str.length < 128) ∧
    (StringRoundTrip (putLengthPrefixedString VarintCodec.source) str ↔ str.length < 128) :=
  ⟨varintRoundTrip_iff value, stringRoundTrip_iff str, stringRoundTrip_iff str⟩

theorem varint_128_fails : ¬ ∀ value, VarintRoundTrip value := by
  intro h
  obtain ⟨room, bs, hb, -⟩ := h 128
  rw [encodeVarint32_large (by decide)] at hb
  cases hb

end MiniStorage.Engine
