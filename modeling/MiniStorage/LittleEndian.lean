import MiniStorage.Bytes
import Mathlib.Data.Nat.ModEq
import Mathlib.Algebra.Order.Ring.Nat
import Mathlib.Tactic.Ring

namespace MiniStorage.LittleEndian

/-- The `k` low bytes of a number, lowest first. -/
def encode : Nat → Nat → Bytes
  | 0, _ => []
  | k + 1, n => UInt8.ofNat (n % 256) :: encode k (n / 256)

def decode : Bytes → Nat
  | [] => 0
  | b :: bs => b.toNat + 256 * decode bs

@[simp] theorem length_encode (k n : Nat) : (encode k n).length = k := by
  induction k generalizing n with
  | zero => rfl
  | succ k ih => simp [encode, ih]

theorem decode_encode (k n : Nat) : decode (encode k n) = n % 256 ^ k := by
  induction k generalizing n with
  | zero => simp [encode, decode, Nat.mod_one]
  | succ k ih =>
      have hb : (UInt8.ofNat (n % 256)).toNat = n % 256 := by simp
      rw [encode, decode, ih, hb, Nat.pow_succ', Nat.mod_mul]

theorem decode_encode_of_lt {k n : Nat} (h : n < 256 ^ k) : decode (encode k n) = n := by
  rw [decode_encode, Nat.mod_eq_of_lt h]

theorem decode_append (as bs : Bytes) : decode (as ++ bs) = decode as + 256 ^ as.length * decode bs := by
  induction as with
  | nil => simp [decode]
  | cons a as ih =>
      simp only [List.cons_append, decode, ih, List.length_cons]
      ring

theorem decode_lt (bs : Bytes) : decode bs < 256 ^ bs.length := by
  induction bs with
  | nil => simp [decode]
  | cons b bs ih =>
      have hb := b.toNat_lt
      simp only [decode, List.length_cons, Nat.pow_succ]
      omega

@[simp] theorem decode_replicate_zero (k : Nat) : decode (List.replicate k 0) = 0 := by
  induction k with
  | zero => rfl
  | succ k ih => simp [List.replicate_succ, decode, ih]

theorem encode_zero (k : Nat) : encode k 0 = List.replicate k 0 := by
  induction k with
  | zero => rfl
  | succ k ih => rw [encode, Nat.zero_div, ih]; rfl

theorem encode_decode {k : Nat} {bs : Bytes} (h : bs.length ≤ k) :
    encode k (decode bs) = bs ++ List.replicate (k - bs.length) 0 := by
  induction bs generalizing k with
  | nil => exact encode_zero k
  | cons b bs ih =>
      obtain ⟨k, rfl⟩ := Nat.exists_eq_add_of_le' (Nat.lt_of_lt_of_le (Nat.succ_pos _) h)
      have hb := b.toNat_lt
      have hmod : (b.toNat + 256 * decode bs) % 256 = b.toNat := by omega
      have hdiv : (b.toNat + 256 * decode bs) / 256 = decode bs := by omega
      rw [decode, encode, hmod, hdiv, ih (by simpa using h), UInt8.ofNat_toNat, List.cons_append, List.length_cons,
        Nat.add_sub_add_right]

end MiniStorage.LittleEndian
