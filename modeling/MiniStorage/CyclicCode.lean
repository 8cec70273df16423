import MiniStorage.Bytes
import Mathlib.Algebra.Polynomial.Div
import Mathlib.Algebra.Field.ZMod
import Mathlib.RingTheory.Coprime.Lemmas
import Mathlib.Tactic.Ring

namespace MiniStorage.CyclicCode

open Polynomial

/-- The bits of a number as coefficients over the field of two elements. -/
noncomputable def bitPoly (n : Nat) : (ZMod 2)[X] :=
  ∑ i ∈ Finset.range n, monomial i (if n.testBit i then 1 else 0)

theorem coeff_bitPoly (n i : Nat) : (bitPoly n).coeff i = if n.testBit i then 1 else 0 := by
  rw [bitPoly, finsetSum_coeff]
  simp only [coeff_monomial]
  rw [Finset.sum_ite_eq' (Finset.range n) i]
  by_cases hi : i < n
  · rw [if_pos (Finset.mem_range.mpr hi)]
  · have hlt : n < 2 ^ i := lt_of_lt_of_le Nat.lt_two_pow_self (Nat.pow_le_pow_right (by decide) (not_lt.mp hi))
    rw [if_neg (fun hm => hi (Finset.mem_range.mp hm)), Nat.testBit_lt_two_pow hlt]
    rfl

theorem bitPoly_inj {m n : Nat} (h : bitPoly m = bitPoly n) : m = n := by
  apply Nat.eq_of_testBit_eq
  intro i
  have hc := congrArg (fun p => p.coeff i) h
  simp only [coeff_bitPoly] at hc
  cases hm : m.testBit i <;> cases hn : n.testBit i <;> simp [hm, hn] at hc ⊢

theorem bitPoly_xor (m n : Nat) : bitPoly (m ^^^ n) = bitPoly m + bitPoly n := by
  ext i
  rw [coeff_add, coeff_bitPoly, coeff_bitPoly, coeff_bitPoly, Nat.testBit_xor]
  cases m.testBit i <;> cases n.testBit i <;> decide

theorem bitPoly_two_pow_mul (k n : Nat) : bitPoly (2 ^ k * n) = X ^ k * bitPoly n := by
  ext i
  rw [coeff_bitPoly, Nat.testBit_two_pow_mul, coeff_X_pow_mul']
  by_cases hk : k ≤ i
  · simp [hk, coeff_bitPoly]
  · simp [hk]

/-- Low bits below high ones. -/
theorem bitPoly_two_pow_mul_add {k n : Nat} (m : Nat) (h : n < 2 ^ k) :
    bitPoly (2 ^ k * m + n) = X ^ k * bitPoly m + bitPoly n := by
  ext i
  rw [coeff_add, coeff_bitPoly, coeff_bitPoly, Nat.testBit_two_pow_mul_add m h, coeff_X_pow_mul']
  by_cases hi : i < k
  · rw [if_pos hi, if_neg (not_le.mpr hi), zero_add]
  · have hlt : n < 2 ^ i := lt_of_lt_of_le h (Nat.pow_le_pow_right (by decide) (not_lt.mp hi))
    rw [if_neg hi, if_pos (not_lt.mp hi), coeff_bitPoly, Nat.testBit_lt_two_pow hlt]
    simp

theorem bitPoly_two_pow (k : Nat) : bitPoly (2 ^ k) = X ^ k := by
  have hone : bitPoly 1 = 1 := by
    ext i
    rw [coeff_bitPoly, coeff_one]
    cases i with
    | zero => rfl
    | succ i =>
        rw [Nat.testBit_lt_two_pow (Nat.one_lt_two_pow (Nat.succ_ne_zero i)), if_neg (Nat.succ_ne_zero i)]
        rfl
  simpa [hone] using bitPoly_two_pow_mul k 1

theorem degree_bitPoly_lt {n w : Nat} (h : n < 2 ^ w) : (bitPoly n).degree < w := by
  rw [degree_lt_iff_coeff_zero]
  intro i hi
  rw [coeff_bitPoly, Nat.testBit_lt_two_pow (lt_of_lt_of_le h (Nat.pow_le_pow_right (by decide) hi))]
  rfl

/-- The generator of width `w` whose lower coefficients are the bits of `g`. -/
noncomputable def generator (w g : Nat) : (ZMod 2)[X] := X ^ w + bitPoly g

variable {w g : Nat}

theorem degree_generator (hg : g < 2 ^ w) : (generator w g).degree = w := by
  rw [generator, degree_add_eq_left_of_degree_lt, degree_X_pow]
  rw [degree_X_pow]
  exact degree_bitPoly_lt hg

/-- Registers that agree modulo the generator are the same. -/
theorem eq_of_dvd (hg : g < 2 ^ w) {a b : Nat} (ha : a < 2 ^ w) (hb : b < 2 ^ w)
    (h : generator w g ∣ bitPoly a - bitPoly b) : a = b := by
  have hlt : (bitPoly a - bitPoly b).degree < (generator w g).degree := by
    rw [degree_generator hg]
    exact lt_of_le_of_lt (degree_sub_le _ _) (max_lt (degree_bitPoly_lt ha) (degree_bitPoly_lt hb))
  exact bitPoly_inj (sub_eq_zero.mp (eq_zero_of_dvd_of_degree_lt h hlt))

/-- A generator with constant coefficient 1 divides no power of X. -/
theorem not_dvd_X_pow (hg : g < 2 ^ w) (hw : 0 < w) (hodd : g.testBit 0 = true) (k : Nat) :
    ¬ generator w g ∣ X ^ k := by
  intro h
  have hconst : (generator w g).coeff 0 = 1 := by
    rw [generator, coeff_add, coeff_X_pow, if_neg hw.ne, coeff_bitPoly, hodd]
    rfl
  have hdvd : X ∣ generator w g - 1 := by
    rw [X_dvd_iff, coeff_sub, hconst, coeff_one_zero, sub_self]
  have hcoprime : IsCoprime (X ^ k) (generator w g) := by
    obtain ⟨q, hq⟩ := hdvd
    apply IsCoprime.pow_left
    refine ⟨-q, 1, ?_⟩
    rw [sub_eq_iff_eq_add.mp hq]
    ring
  have hunit : IsUnit (generator w g) := hcoprime.symm.isUnit_of_dvd' dvd_rfl h
  have hdeg := degree_eq_zero_of_isUnit hunit
  rw [degree_generator hg] at hdeg
  exact hw.ne' (by exact_mod_cast hdeg)

/-- One turn of a register of width `w`: twice its value, less the generator when a bit goes out at the top. -/
def shiftBit (w g c : Nat) : Nat := if c.testBit (w - 1) then 2 * c ^^^ (2 ^ w ^^^ g) else 2 * c

theorem dvd_shiftBit (c : Nat) : generator w g ∣ X * bitPoly c - bitPoly (shiftBit w g c) := by
  have htwice : bitPoly (2 * c) = X * bitPoly c := by simpa using bitPoly_two_pow_mul 1 c
  rw [shiftBit]
  split
  · have hover : bitPoly (2 * c ^^^ (2 ^ w ^^^ g)) = X * bitPoly c + generator w g := by
      rw [bitPoly_xor, htwice, bitPoly_xor, bitPoly_two_pow, generator]
    rw [hover, sub_add_cancel_left]
    exact (dvd_neg (a := generator w g)).mpr dvd_rfl
  · rw [htwice, sub_self]
    exact dvd_zero _

theorem dvd_shiftBit_iterate (n c : Nat) : generator w g ∣ X ^ n * bitPoly c - bitPoly ((shiftBit w g)^[n] c) := by
  induction n generalizing c with
  | zero => simp
  | succ n ih =>
      rw [Function.iterate_succ_apply]
      have hstep : X ^ (n + 1) * bitPoly c - bitPoly ((shiftBit w g)^[n] (shiftBit w g c)) =
          X ^ n * (X * bitPoly c - bitPoly (shiftBit w g c)) +
            (X ^ n * bitPoly (shiftBit w g c) - bitPoly ((shiftBit w g)^[n] (shiftBit w g c))) := by ring
      rw [hstep]
      exact dvd_add (Dvd.dvd.mul_left (dvd_shiftBit c) _) (ih _)

/-- The bytes behind the register's first value, with room for the check bits below them. -/
noncomputable def codeword (w init : Nat) (bs : Bytes) : (ZMod 2)[X] :=
  bs.foldl (fun m b => X ^ 8 * m + X ^ w * bitPoly b.toNat) (bitPoly init)

/-- A register that takes a byte at a time holds the remainder of the codeword. -/
theorem dvd_codeword {S : Type} (value : S → Nat) (step : S → UInt8 → S)
    (hstep : ∀ c b, generator w g ∣ X ^ 8 * bitPoly (value c) + X ^ w * bitPoly b.toNat - bitPoly (value (step c b)))
    (c : S) (bs : Bytes) : generator w g ∣ codeword w (value c) bs - bitPoly (value (bs.foldl step c)) := by
  have hfold (m : (ZMod 2)[X]) (hm : generator w g ∣ m - bitPoly (value c)) : generator w g ∣
      bs.foldl (fun m b => X ^ 8 * m + X ^ w * bitPoly b.toNat) m - bitPoly (value (bs.foldl step c)) := by
    induction bs generalizing c m with
    | nil => exact hm
    | cons b bs ih =>
        rw [List.foldl_cons, List.foldl_cons]
        apply ih
        have hsplit : X ^ 8 * m + X ^ w * bitPoly b.toNat - bitPoly (value (step c b)) =
            X ^ 8 * (m - bitPoly (value c)) +
              (X ^ 8 * bitPoly (value c) + X ^ w * bitPoly b.toNat - bitPoly (value (step c b))) := by ring
        rw [hsplit]
        exact dvd_add (Dvd.dvd.mul_left hm _) (hstep c b)
  exact hfold _ (by rw [sub_self]; exact dvd_zero _)

/-- Two registers end with one value exactly when the generator divides the difference of their codewords. -/
theorem foldl_eq_iff {S : Type} {value : S → Nat} {step : S → UInt8 → S} (hinj : Function.Injective value)
    (hlt : ∀ c, value c < 2 ^ w) (hg : g < 2 ^ w)
    (hstep : ∀ c b, generator w g ∣ X ^ 8 * bitPoly (value c) + X ^ w * bitPoly b.toNat - bitPoly (value (step c b)))
    (c : S) (xs ys : Bytes) :
    xs.foldl step c = ys.foldl step c ↔ generator w g ∣ codeword w (value c) xs - codeword w (value c) ys := by
  have hx := dvd_codeword value step hstep c xs
  have hy := dvd_codeword value step hstep c ys
  constructor
  · intro he
    rw [he] at hx
    simpa using dvd_sub hx hy
  · intro h
    apply hinj
    apply eq_of_dvd hg (hlt _) (hlt _)
    have hd := dvd_add (dvd_sub h hx) hy
    simpa using hd

/-- One byte with one bit changed puts a single power of X between the codewords. -/
theorem codeword_flip (init : Nat) (xs ys : Bytes) {b b' : UInt8} {k : Nat} (h : b'.toNat = b.toNat ^^^ 2 ^ k) :
    codeword w init (xs ++ b' :: ys) - codeword w init (xs ++ b :: ys) = X ^ (8 * ys.length + (w + k)) := by
  have hfold (m d : (ZMod 2)[X]) : ys.foldl (fun m b => X ^ 8 * m + X ^ w * bitPoly b.toNat) (m + d) =
      ys.foldl (fun m b => X ^ 8 * m + X ^ w * bitPoly b.toNat) m + X ^ (8 * ys.length) * d := by
    induction ys generalizing m d with
    | nil => simp
    | cons y ys ih =>
        have hcons : X ^ 8 * (m + d) + X ^ w * bitPoly y.toNat =
          X ^ 8 * m + X ^ w * bitPoly y.toNat + X ^ 8 * d := by ring
        rw [List.foldl_cons, List.foldl_cons, hcons, ih, List.length_cons]
        ring
  rw [codeword, codeword, List.foldl_append, List.foldl_append, List.foldl_cons, List.foldl_cons, h, bitPoly_xor,
    bitPoly_two_pow, mul_add, ← add_assoc, hfold, add_sub_cancel_left]
  ring

end MiniStorage.CyclicCode
