import MiniStorage.CyclicCode
import MiniStorage.Engine.Log

namespace MiniStorage.Engine

open CyclicCode LittleEndian Polynomial

/-- The lower coefficients of the polynomial that crctab is made from. -/
def crcPolynomial : Nat := 0x04c11db7

def crcStep (crc : UInt32) (p : UInt8) : UInt32 :=
  ((crc <<< 8) &&& (0xffffff00 : UInt32)) ^^^ crctab.getD (((crc >>> 24) &&& (0xff : UInt32)) ^^^ p.toUInt32).toNat 0

theorem valueCRC32_eq (icrc : UInt32) (data : Bytes) : valueCRC32 icrc data = data.foldl crcStep icrc := rfl

/-- An entry of the table is what eight turns of the register make of its index. -/
theorem crctab_shiftBit {i : Nat} (h : i < 256) :
    (crctab.getD i 0).toNat = (shiftBit 32 crcPolynomial)^[8] (2 ^ 24 * i) := by
  have hall : ∀ i : Fin 256, (crctab.getD i.val 0).toNat = (shiftBit 32 crcPolynomial)^[8] (2 ^ 24 * i.val) := by
    decide +kernel
  exact hall ⟨i, h⟩

theorem toNat_crcStep (crc : UInt32) (p : UInt8) :
    (crcStep crc p).toNat =
      2 ^ 8 * (crc.toNat % 2 ^ 24) ^^^ (crctab.getD (crc.toNat / 2 ^ 24 ^^^ p.toNat) 0).toNat := by
  have hcrc := crc.toNat_lt
  have hlow : ((crc <<< 8) &&& 0xffffff00).toNat = 2 ^ 8 * (crc.toNat % 2 ^ 24) := by
    have hmask : (0xffffff00 : UInt32).toNat = (2 ^ 24 - 1) <<< 8 := by decide
    have hshift : (crc <<< 8).toNat = (crc.toNat % 2 ^ 24) <<< 8 := by
      rw [UInt32.toNat_shiftLeft, Nat.shiftLeft_eq, Nat.shiftLeft_eq]
      simp only [UInt32.reduceToNat, Nat.reduceMod]
      omega
    rw [UInt32.toNat_and, hmask, hshift, ← Nat.shiftLeft_and_distrib, Nat.and_two_pow_sub_one_eq_mod, Nat.mod_mod,
      Nat.shiftLeft_eq, Nat.mul_comm]
  have hhigh : ((crc >>> 24) &&& 0xff).toNat = crc.toNat / 2 ^ 24 := by
    have hmask : (0xff : UInt32).toNat = 2 ^ 8 - 1 := rfl
    rw [UInt32.toNat_and, hmask, Nat.and_two_pow_sub_one_eq_mod, UInt32.toNat_shiftRight, Nat.shiftRight_eq_div_pow]
    simp only [UInt32.reduceToNat, Nat.reduceMod]
    omega
  rw [crcStep, UInt32.toNat_xor, hlow, UInt32.toNat_xor, hhigh, UInt8.toNat_toUInt32]

theorem dvd_crcStep (crc : UInt32) (p : UInt8) : generator 32 crcPolynomial ∣
    X ^ 8 * bitPoly crc.toNat + X ^ 32 * bitPoly p.toNat - bitPoly (crcStep crc p).toNat := by
  have hcrc := crc.toNat_lt
  have hp := p.toNat_lt
  generalize hlo : crc.toNat % 2 ^ 24 = lo
  generalize hhi : crc.toNat / 2 ^ 24 = hi
  have hlt : 2 ^ 8 * lo < 2 ^ 32 := by omega
  have hindex : hi ^^^ p.toNat < 256 := Nat.xor_lt_two_pow (n := 8) (by omega) (by omega)
  have hcut : X ^ 8 * bitPoly crc.toNat = X ^ 32 * bitPoly hi + bitPoly (2 ^ 8 * lo) := by
    rw [← bitPoly_two_pow_mul, ← bitPoly_two_pow_mul_add hi hlt]
    congr 1
    omega
  have htable : generator 32 crcPolynomial ∣
      X ^ 32 * bitPoly (hi ^^^ p.toNat) - bitPoly (crctab.getD (hi ^^^ p.toNat) 0).toNat := by
    have hshift := dvd_shiftBit_iterate (w := 32) (g := crcPolynomial) 8 (2 ^ 24 * (hi ^^^ p.toNat))
    rw [← crctab_shiftBit hindex, bitPoly_two_pow_mul, ← mul_assoc, ← pow_add] at hshift
    exact hshift
  have hsplit : X ^ 8 * bitPoly crc.toNat + X ^ 32 * bitPoly p.toNat - bitPoly (crcStep crc p).toNat =
      X ^ 32 * bitPoly (hi ^^^ p.toNat) - bitPoly (crctab.getD (hi ^^^ p.toNat) 0).toNat := by
    rw [hcut, toNat_crcStep, hlo, hhi, bitPoly_xor, bitPoly_xor]
    ring
  rw [hsplit]
  exact htable

/-- The checksum is the remainder of the data by the generator. -/
theorem valueCRC32_eq_iff (icrc : UInt32) (xs ys : Bytes) : valueCRC32 icrc xs = valueCRC32 icrc ys ↔
    generator 32 crcPolynomial ∣ codeword 32 icrc.toNat xs - codeword 32 icrc.toNat ys := by
  rw [valueCRC32_eq, valueCRC32_eq]
  exact foldl_eq_iff (fun _ _ => UInt32.toNat_inj.mp) UInt32.toNat_lt (by decide) dvd_crcStep icrc xs ys

theorem valueCRC32_cons (icrc : UInt32) (b : UInt8) (bs : Bytes) :
    valueCRC32 (valueCRC32 icrc [b]) bs = valueCRC32 icrc (b :: bs) := rfl

theorem valueCRC32_flip (icrc : UInt32) (xs ys : Bytes) {b b' : UInt8} {k : Nat} (h : b'.toNat = b.toNat ^^^ 2 ^ k) :
    valueCRC32 icrc (xs ++ b' :: ys) ≠ valueCRC32 icrc (xs ++ b :: ys) := by
  intro he
  rw [valueCRC32_eq_iff, codeword_flip _ _ _ h] at he
  exact not_dvd_X_pow (by decide) (by decide) (by decide) _ he

/-- Another value in one bit, bit 0 being the lowest one of the first byte. -/
def flipBit (bs : Bytes) (i : Nat) : Bytes := bs.modify (i / 8) (fun b => b ^^^ (1 <<< UInt8.ofNat (i % 8)))

theorem toNat_flip (b : UInt8) (i : Nat) : (b ^^^ (1 <<< UInt8.ofNat (i % 8))).toNat = b.toNat ^^^ 2 ^ (i % 8) := by
  have hbit : ∀ k : Fin 8, ((1 : UInt8) <<< UInt8.ofNat k.val).toNat = 2 ^ k.val := by decide
  rw [UInt8.toNat_xor, hbit ⟨i % 8, Nat.mod_lt i (by decide)⟩]

theorem exists_of_flipBit (bs : Bytes) {i : Nat} (h : i < 8 * bs.length) : ∃ xs b b' ys, bs = xs ++ b :: ys ∧
    flipBit bs i = xs ++ b' :: ys ∧ xs.length = i / 8 ∧ b'.toNat = b.toNat ^^^ 2 ^ (i % 8) := by
  obtain ⟨xs, b, ys, hbs, hlen, hflip⟩ :=
    List.exists_of_modify (fun b => b ^^^ (1 <<< UInt8.ofNat (i % 8))) (show i / 8 < bs.length by omega)
  exact ⟨xs, b, _, ys, hbs, hflip, hlen, toNat_flip b i⟩

theorem modify_append_left {xs : Bytes} (ys : Bytes) (f : UInt8 → UInt8) {i : Nat} (h : i < xs.length) :
    (xs ++ ys).modify i f = xs.modify i f ++ ys := by
  induction xs generalizing i with
  | nil => cases h
  | cons x xs ih =>
      cases i with
      | zero => rfl
      | succ i => simp [ih (Nat.lt_of_succ_lt_succ h)]

theorem modify_append_right (xs ys : Bytes) (f : UInt8 → UInt8) (i : Nat) :
    (xs ++ ys).modify (xs.length + i) f = xs ++ ys.modify i f := by
  induction xs with
  | nil => simp
  | cons x xs ih => simp [Nat.succ_add, ih]

theorem flipBit_append_left {xs : Bytes} (ys : Bytes) {i : Nat} (h : i < 8 * xs.length) :
    flipBit (xs ++ ys) i = flipBit xs i ++ ys := by
  apply modify_append_left
  omega

theorem flipBit_append_right (xs ys : Bytes) {i : Nat} (h : 8 * xs.length ≤ i) :
    flipBit (xs ++ ys) i = xs ++ flipBit ys (i - 8 * xs.length) := by
  have hbyte : i / 8 = xs.length + (i - 8 * xs.length) / 8 := by omega
  have hbit : i % 8 = (i - 8 * xs.length) % 8 := by omega
  rw [flipBit, flipBit, hbyte, hbit]
  exact modify_append_right ..

theorem length_flipBit (bs : Bytes) (i : Nat) : (flipBit bs i).length = bs.length := List.length_modify ..

/-- The length that a header says when one of the 16 bits of its length field has changed. -/
theorem length_field_flip (l₀ l₁ : UInt8) {i : Nat} (h : i < 16) : ∃ l₀' l₁', flipBit [l₀, l₁] i = [l₀', l₁'] ∧
    l₁'.toNat <<< 8 ||| l₀'.toNat = (l₁.toNat <<< 8 ||| l₀.toNat) ^^^ 2 ^ i := by
  rcases Nat.lt_or_ge i 8 with hi | hi
  · have hzero : i / 8 = 0 := by omega
    refine ⟨_, l₁, by rw [flipBit, hzero]; rfl, ?_⟩
    apply Nat.eq_of_testBit_eq
    intro k
    rw [toNat_flip, Nat.mod_eq_of_lt hi, Nat.testBit_or, Nat.testBit_xor, Nat.testBit_xor, Nat.testBit_or,
      Nat.testBit_shiftLeft, Nat.testBit_two_pow]
    by_cases hk : i = k
    · have hlow : ¬ 8 ≤ k := by omega
      simp [hk, hlow]
    · simp [hk]
  · have hone : i / 8 = 1 := by omega
    have hbit : i % 8 = i - 8 := by omega
    refine ⟨l₀, _, by rw [flipBit, hone]; rfl, ?_⟩
    apply Nat.eq_of_testBit_eq
    intro k
    rw [toNat_flip, hbit, Nat.testBit_or, Nat.testBit_xor, Nat.testBit_shiftLeft, Nat.testBit_or, Nat.testBit_shiftLeft,
      Nat.testBit_xor, Nat.testBit_two_pow, Nat.testBit_two_pow]
    by_cases hk : i = k
    · have hbyte : l₀.toNat.testBit i = false := by
        apply Nat.testBit_lt_two_pow
        exact lt_of_lt_of_le l₀.toNat_lt (Nat.pow_le_pow_right (by decide) hi)
      subst hk
      simp [hi, hbyte]
    · by_cases hlow : 8 ≤ k
      · have hother : i - 8 ≠ k - 8 := by omega
        simp [hk, hlow, hother]
      · simp [hk, hlow]

namespace LogReader

/-- Any type and payload that ReadPhysicalRecord returns true with are these. -/
def NotMistaken (r : LogReader) (type : UInt8) (data : Bytes) : Prop :=
  ∀ (t : UInt8) (payload : Bytes) (r' : LogReader), r.readPhysicalRecord = some (some (t, payload), r') →
    t = type ∧ payload = data

/-- ReadPhysicalRecord on a header that the file holds in full. -/
theorem readPhysicalRecord_header {r : LogReader} {crc tail : Bytes} {l₀ l₁ t : UInt8} {n : Nat}
    (hf : r.file.failed = false) (hr : r.file.rest = crc ++ ([l₀, l₁, t] ++ tail)) (hc : crc.length = 4)
    (hn : l₁.toNat <<< 8 ||| l₀.toNat = n) :
    ∃ r', r.readPhysicalRecord =
      some (if n ≤ tail.length ∧ encodeFixed32 (valueCRC32 0xFFFFFFFF (t :: tail.take n)) = crc then
        some (t, tail.take n) else none, r') := by
  have hheader : r.file.rest = crc ++ [l₀, l₁, t] ++ tail := by rw [hr, List.append_assoc]
  obtain ⟨b0, b1, b2, b3, rfl⟩ : ∃ b0 b1 b2 b3, crc = [b0, b1, b2, b3] := by
    match crc, hc with
    | [b0, b1, b2, b3], _ => exact ⟨b0, b1, b2, b3, rfl⟩
  obtain ⟨f₁, h₁, hf₁, hr₁, -⟩ := IFStream.read_append (n := kHeaderSize) hf hheader rfl
  have hgot : (f₁.read n).1 = tail.take n := by rw [IFStream.read_fst, IFStream.unread, hf₁, if_neg (by decide), hr₁]
  have hlen : ¬ ([b0, b1, b2, b3] ++ [l₀, l₁, t]).length < kHeaderSize := by simp [kHeaderSize]
  have h4 : ([b0, b1, b2, b3] ++ [l₀, l₁, t]).getD 4 0 = l₀ := rfl
  have h5 : ([b0, b1, b2, b3] ++ [l₀, l₁, t]).getD 5 0 = l₁ := rfl
  have h6 : ([b0, b1, b2, b3] ++ [l₀, l₁, t]).getD 6 0 = t := rfl
  have hcrc : decodeFixed32 ([b0, b1, b2, b3] ++ [l₀, l₁, t]) = some (UInt32.ofNat (decode [b0, b1, b2, b3])) :=
    decodeFixed32_eq ..
  have hstored (v : UInt32) : v = UInt32.ofNat (decode [b0, b1, b2, b3]) ↔ encodeFixed32 v = [b0, b1, b2, b3] := by
    constructor
    · intro hv
      have hlt : decode [b0, b1, b2, b3] < 256 ^ 4 := decode_lt [b0, b1, b2, b3]
      have hto : v.toNat = decode [b0, b1, b2, b3] := by
        rw [hv, UInt32.toNat_ofNat']
        omega
      rw [encodeFixed32_eq, hto, encode_decode (by simp)]
      rfl
    · intro hv
      have hd := decodeFixed32_append v []
      rw [hv] at hd
      exact (Option.some.inj ((decodeFixed32_eq b0 b1 b2 b3 []).symm.trans hd)).symm
  simp only [readPhysicalRecord, h₁, hlen, if_false, hcrc, h4, h5, h6, hn, hgot, valueCRC32_cons, Option.bind_eq_bind,
    Option.bind_some, Option.pure_def, List.length_take, ne_eq]
  by_cases hfit : n ≤ tail.length
  · have hnot : ¬ min n tail.length < n := by omega
    by_cases hv : valueCRC32 0xFFFFFFFF (t :: tail.take n) = UInt32.ofNat (decode [b0, b1, b2, b3])
    · rw [if_neg hnot, if_neg (not_not.mpr hv), if_pos ⟨hfit, (hstored _).mp hv⟩]
      exact ⟨_, rfl⟩
    · rw [if_neg hnot, if_pos hv, if_neg (fun h => hv ((hstored _).mpr h.2))]
      exact ⟨_, rfl⟩
  · have hshort : min n tail.length < n := by omega
    rw [if_pos hshort, if_neg (fun h => hfit h.1)]
    exact ⟨_, rfl⟩

theorem notMistaken_iff {r : LogReader} {crc tail data : Bytes} {l₀ l₁ t type : UInt8} {n : Nat}
    (hf : r.file.failed = false) (hr : r.file.rest = crc ++ ([l₀, l₁, t] ++ tail)) (hc : crc.length = 4)
    (hn : l₁.toNat <<< 8 ||| l₀.toNat = n) :
    r.NotMistaken type data ↔ (n ≤ tail.length → encodeFixed32 (valueCRC32 0xFFFFFFFF (t :: tail.take n)) = crc →
      t = type ∧ tail.take n = data) := by
  obtain ⟨r', hread⟩ := readPhysicalRecord_header hf hr hc hn
  constructor
  · intro h hfit hcrc
    rw [if_pos ⟨hfit, hcrc⟩] at hread
    exact h _ _ _ hread
  · intro h t' payload r'' hread'
    rw [hread] at hread'
    split at hread'
    next hok =>
      simp only [Option.some.injEq, Prod.mk.injEq] at hread'
      obtain ⟨⟨rfl, rfl⟩, -⟩ := hread'
      exact h hok.1 hok.2
    next => cases hread'

end LogReader

theorem encodeFixed32_inj {a b : UInt32} (h : encodeFixed32 a = encodeFixed32 b) : a = b := by
  have ha := decodeFixed32_append a []
  rw [h, decodeFixed32_append] at ha
  exact (Option.some.inj ha).symm

theorem recordCRC_eq_iff (xs ys : Bytes) : valueCRC32 0xFFFFFFFF xs = valueCRC32 0xFFFFFFFF ys ↔
    generator 32 crcPolynomial ∣ codeword 32 0xFFFFFFFF xs - codeword 32 0xFFFFFFFF ys := by
  have h := valueCRC32_eq_iff 0xFFFFFFFF xs ys
  simp only [UInt32.reduceToNat] at h
  exact h

theorem physicalRecord_eq (type : RecordType) (data : Bytes) : physicalRecord type data =
    encodeFixed32 (valueCRC32 0xFFFFFFFF (type.toByte :: data)) ++
      ([UInt8.ofNat (data.length &&& 0xff), UInt8.ofNat (data.length >>> 8)] ++ (type.toByte :: data)) := by
  rw [physicalRecord, valueCRC32_cons, List.append_assoc]
  simp only [List.cons_append, List.nil_append]

/-- The changed bit is one of the length field, as many bytes as the field then says follow the header, and the
generator divides the difference between them and the payload. -/
def LengthMistaken (type : RecordType) (data rest : Bytes) (i : Nat) : Prop :=
  32 ≤ i ∧ i < 48 ∧ data.length ^^^ 2 ^ (i - 32) ≤ (data ++ rest).length ∧
    generator 32 crcPolynomial ∣
      codeword 32 0xFFFFFFFF (type.toByte :: (data ++ rest).take (data.length ^^^ 2 ^ (i - 32))) -
        codeword 32 0xFFFFFFFF (type.toByte :: data)

theorem xor_two_pow_ne (n k : Nat) : n ^^^ 2 ^ k ≠ n := by
  intro h
  have hbit := congrArg (fun m => m.testBit k) h
  simp [Nat.testBit_xor] at hbit

namespace LogReader

variable {r : LogReader} {type : RecordType} {data rest : Bytes} {i : Nat}

/-- A changed checksum is compared with the one of the record. -/
theorem notMistaken_of_crc (hf : r.file.failed = false)
    (hr : r.file.rest = flipBit (physicalRecord type data) i ++ rest) (hd : data.length < 65536) (hi : i < 32) :
    r.NotMistaken type.toByte data := by
  rw [physicalRecord, List.append_assoc, flipBit_append_left _ (by simpa using hi), List.append_assoc,
    List.append_assoc] at hr
  rw [notMistaken_iff hf hr (by rw [length_flipBit, length_encodeFixed32]) (length_field hd)]
  intro _ _
  exact ⟨rfl, List.take_left⟩

theorem notMistaken_length_iff (hf : r.file.failed = false)
    (hr : r.file.rest = flipBit (physicalRecord type data) i ++ rest) (hd : data.length < 65536) (hlo : 32 ≤ i)
    (hhi : i < 48) :
    r.NotMistaken type.toByte data ↔ ¬ LengthMistaken type data rest i := by
  obtain ⟨l₀, l₁, hflip, hn⟩ := length_field_flip (UInt8.ofNat (data.length &&& 0xff))
    (UInt8.ofNat (data.length >>> 8)) (i := i - 32) (by omega)
  have hbytes : flipBit (physicalRecord type data) i ++ rest =
      encodeFixed32 (valueCRC32 0xFFFFFFFF (type.toByte :: data)) ++ ([l₀, l₁, type.toByte] ++ (data ++ rest)) := by
    rw [physicalRecord_eq, flipBit_append_right _ _ (by simpa using hlo), length_encodeFixed32,
      flipBit_append_left _ (by simp; omega), hflip]
    simp only [List.append_assoc, List.cons_append, List.nil_append]
  rw [hbytes] at hr
  rw [length_field hd] at hn
  rw [notMistaken_iff hf hr (length_encodeFixed32 _) hn]
  constructor
  · rintro h ⟨-, -, hfit, hdvd⟩
    have hcrc := (recordCRC_eq_iff _ _).mpr hdvd
    have hlen := congrArg List.length (h hfit (congrArg encodeFixed32 hcrc)).2
    rw [List.length_take_of_le hfit] at hlen
    exact xor_two_pow_ne _ _ hlen
  · intro h hfit hcrc
    exact absurd ⟨hlo, hhi, hfit, (recordCRC_eq_iff _ _).mp (encodeFixed32_inj hcrc)⟩ h

/-- A changed type or payload has another checksum. -/
theorem notMistaken_of_message (hf : r.file.failed = false)
    (hr : r.file.rest = flipBit (physicalRecord type data) i ++ rest) (hd : data.length < 65536) (hlo : 48 ≤ i)
    (hi : i < 8 * (kHeaderSize + data.length)) : r.NotMistaken type.toByte data := by
  simp only [kHeaderSize] at hi
  rw [physicalRecord_eq, ← List.append_assoc, flipBit_append_right _ _ (by simpa using hlo)] at hr
  obtain ⟨xs, b, b', ys, hbytes, hflip, -, hb⟩ := exists_of_flipBit (type.toByte :: data)
    (i := i - 48) (by simp; omega)
  obtain ⟨t, payload, hmessage⟩ : ∃ t payload, xs ++ b' :: ys = t :: payload := by
    cases xs with
    | nil => exact ⟨b', ys, rfl⟩
    | cons x xs => exact ⟨x, xs ++ b' :: ys, rfl⟩
  have hlen : payload.length = data.length := by
    have h := congrArg List.length hmessage
    have h' := congrArg List.length hbytes
    simp only [List.length_append, List.length_cons] at h h'
    omega
  have hrest : r.file.rest = encodeFixed32 (valueCRC32 0xFFFFFFFF (type.toByte :: data)) ++
      ([UInt8.ofNat (data.length &&& 0xff), UInt8.ofNat (data.length >>> 8), t] ++ (payload ++ rest)) := by
    have hoff : i - 8 * (encodeFixed32 (valueCRC32 0xFFFFFFFF (type.toByte :: data)) ++
        [UInt8.ofNat (data.length &&& 0xff), UInt8.ofNat (data.length >>> 8)]).length = i - 48 := by
      rw [List.length_append, length_encodeFixed32, List.length_cons, List.length_cons, List.length_nil]
    rw [hr, hoff, hflip, hmessage]
    simp only [List.append_assoc, List.cons_append, List.nil_append]
  rw [notMistaken_iff hf hrest (length_encodeFixed32 _) (length_field hd)]
  intro _ hcrc
  rw [← hlen, List.take_left, ← hmessage, hbytes] at hcrc
  exact absurd (encodeFixed32_inj hcrc) (valueCRC32_flip _ xs ys hb)

end LogReader

/-- A record with one bit changed is read as another one only through its length field, which the checksum leaves out. -/
theorem corruption_detected_iff {w w' : LogWriter} {type : RecordType} {data : Bytes}
    (hw : w.emitPhysicalRecord type data = (true, w')) (hd : data.length ≤ 65535) {i : Nat}
    (hi : i < 8 * (kHeaderSize + data.length)) (rest : Bytes) {r : LogReader} (hf : r.file.failed = false)
    (hr : r.file.rest = flipBit (w'.file.bytes.drop w.file.bytes.length) i ++ rest) :
    r.NotMistaken type.toByte data ↔ ¬ LengthMistaken type data rest i := by
  have hlt := Nat.lt_succ_of_le hd
  rw [(LogWriter.emitPhysicalRecord_true hw).2.2, List.drop_left] at hr
  rcases Nat.lt_or_ge i 32 with hlo | hlo
  · have hnot : ¬ LengthMistaken type data rest i := fun h => absurd h.1 (not_le.mpr hlo)
    exact iff_of_true (LogReader.notMistaken_of_crc hf hr hlt hlo) hnot
  · rcases Nat.lt_or_ge i 48 with hhi | hhi
    · exact LogReader.notMistaken_length_iff hf hr hlt hlo hhi
    · have hnot : ¬ LengthMistaken type data rest i := fun h => absurd h.2.1 (not_lt.mpr hhi)
      exact iff_of_true (LogReader.notMistaken_of_message hf hr hlt hhi hi) hnot

theorem corruption_detected_one : ∃ w', (LogWriter.create true none).emitPhysicalRecord .full [7] = (true, w') ∧
    LogReader.NotMistaken { file := { bytes := flipBit (w'.file.bytes.drop 0) 57 ++ [1] } } 1 [7] := by
  obtain ⟨w', hw⟩ : ∃ w', (LogWriter.create true none).emitPhysicalRecord .full [7] = (true, w') := ⟨_, rfl⟩
  have hnot : ¬ LengthMistaken .full [7] [1] 57 := fun h => absurd h.2.1 (by omega)
  exact ⟨w', hw, (corruption_detected_iff hw (by simp) (by simp [kHeaderSize]) [1] rfl rfl).mpr hnot⟩

/-- The four bytes bring the checksum back to what it was in front of them, so the length may as well be 0. -/
theorem corruption_length_undetected : ¬ ∀ (w w' : LogWriter) (type : RecordType) (data : Bytes),
    w.emitPhysicalRecord type data = (true, w') → data.length ≤ 65535 →
      ∀ (i : Nat) (rest : Bytes) (r : LogReader), i < 8 * (kHeaderSize + data.length) → r.file.failed = false →
        r.file.rest = flipBit (w'.file.bytes.drop w.file.bytes.length) i ++ rest → r.NotMistaken type.toByte data := by
  intro h
  have hread : ((LogReader.readPhysicalRecord
      { file := { bytes := flipBit (physicalRecord .full [203, 173, 214, 199]) 34 } }).map Prod.fst) =
        some (some (1, [])) := by
    decide +kernel
  obtain ⟨⟨p, r'⟩, hread, rfl⟩ := Option.map_eq_some_iff.mp hread
  obtain ⟨w', hw⟩ : ∃ w', (LogWriter.create true none).emitPhysicalRecord .full [203, 173, 214, 199] = (true, w') :=
    ⟨_, rfl⟩
  have hbytes : w'.file.bytes = physicalRecord .full [203, 173, 214, 199] := (LogWriter.emitPhysicalRecord_true hw).2.2
  have hone := h (.create true none) w' .full _ hw (by simp) 34 []
    { file := { bytes := flipBit (physicalRecord .full [203, 173, 214, 199]) 34 } } (by simp [kHeaderSize]) rfl
    (by rw [hbytes, List.append_nil]; rfl) 1 [] r' hread
  exact absurd hone.2 (by simp)

end MiniStorage.Engine
