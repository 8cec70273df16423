import MiniStorage.Bytes
import Mathlib.Algebra.Ring.Nat
import Mathlib.Data.List.Basic
import Mathlib.Order.Lattice

namespace MiniStorage.Decimal

/-- The character of a decimal digit. -/
def digit (d : Nat) : UInt8 := UInt8.ofNat (48 + d)

def encodeLoop : Nat → Nat → Bytes
  | 0, _ => []
  | fuel + 1, n => if n < 10 then [digit n] else encodeLoop fuel (n / 10) ++ [digit (n % 10)]

/-- A number in decimal, without leading zeros. -/
def encode (n : Nat) : Bytes := encodeLoop (n + 1) n

/-- At least `w` characters, filled up with zeros from the left. -/
def encodePadded (w n : Nat) : Bytes := List.replicate (w - (encode n).length) (digit 0) ++ encode n

def decode (bs : Bytes) : Nat := bs.foldl (fun acc b => 10 * acc + (b.toNat - 48)) 0

theorem toNat_digit {d : Nat} (h : d < 10) : (digit d).toNat = 48 + d := by
  rw [digit, UInt8.toNat_ofNat']
  omega

theorem decode_append_digit (bs : Bytes) {d : Nat} (h : d < 10) : decode (bs ++ [digit d]) = 10 * decode bs + d := by
  simp [decode, List.foldl_append, toNat_digit h]

theorem decode_encodeLoop {fuel n : Nat} (h : n < fuel) : decode (encodeLoop fuel n) = n := by
  induction fuel generalizing n with
  | zero => omega
  | succ fuel ih =>
      simp only [encodeLoop]
      split
      next hn => simpa [decode] using decode_append_digit [] hn
      next hn =>
        rw [decode_append_digit _ (Nat.mod_lt _ (by decide)), ih (by omega)]
        omega

@[simp] theorem decode_encode (n : Nat) : decode (encode n) = n := decode_encodeLoop (Nat.lt_succ_self n)

theorem encode_ne_nil (n : Nat) : encode n ≠ [] := by
  rw [encode, encodeLoop]
  split
  next => exact List.cons_ne_nil _ _
  next => exact List.append_ne_nil_of_right_ne_nil _ (List.cons_ne_nil _ _)

theorem le_length_encodePadded (w n : Nat) : w ≤ (encodePadded w n).length := by
  rw [encodePadded, List.length_append, List.length_replicate]
  omega

theorem decode_zeros_append (k : Nat) (bs : Bytes) : decode (List.replicate k (digit 0) ++ bs) = decode bs := by
  induction k with
  | zero => rfl
  | succ k ih =>
      rw [List.replicate_succ, List.cons_append]
      exact ih

@[simp] theorem decode_encodePadded (w n : Nat) : decode (encodePadded w n) = n := by
  rw [encodePadded, decode_zeros_append, decode_encode]

theorem encodePadded_inj {w m n : Nat} (h : encodePadded w m = encodePadded w n) : m = n := by
  simpa using congrArg decode h

theorem digit_range {b : UInt8} {d : Nat} (hd : d < 10) (h : b = digit d) : 48 ≤ b.toNat ∧ b.toNat ≤ 57 := by
  rw [h, toNat_digit hd]
  omega

theorem mem_encodeLoop {fuel n : Nat} {b : UInt8} (h : b ∈ encodeLoop fuel n) : 48 ≤ b.toNat ∧ b.toNat ≤ 57 := by
  induction fuel generalizing n with
  | zero => cases h
  | succ fuel ih =>
      simp only [encodeLoop] at h
      split at h
      next hn => exact digit_range hn (by simpa using h)
      next =>
        rcases List.mem_append.mp h with h | h
        · exact ih h
        · exact digit_range (Nat.mod_lt n (by decide)) (by simpa using h)

theorem mem_encode {n : Nat} {b : UInt8} (h : b ∈ encode n) : 48 ≤ b.toNat ∧ b.toNat ≤ 57 := mem_encodeLoop h

theorem mem_encodePadded {w n : Nat} {b : UInt8} (h : b ∈ encodePadded w n) : 48 ≤ b.toNat ∧ b.toNat ≤ 57 := by
  rcases List.mem_append.mp h with h | h
  · exact digit_range (by decide) (List.eq_of_mem_replicate h)
  · exact mem_encode h

theorem foldl_decode (bs : Bytes) (acc : Nat) :
    bs.foldl (fun acc b => 10 * acc + (b.toNat - 48)) acc = acc * 10 ^ bs.length + decode bs := by
  induction bs generalizing acc with
  | nil => simp [decode]
  | cons b bs ih =>
      have hzero : decode (b :: bs) = (10 * 0 + (b.toNat - 48)) * 10 ^ bs.length + decode bs := ih _
      rw [List.foldl_cons, ih, hzero, List.length_cons, pow_succ, Nat.mul_zero, Nat.zero_add, Nat.add_mul,
        Nat.mul_comm (10 ^ bs.length), ← Nat.mul_assoc, Nat.mul_comm acc, Nat.add_assoc]

theorem decode_le_decode_append (bs cs : Bytes) : decode bs ≤ decode (bs ++ cs) := by
  have happ : decode (bs ++ cs) = decode bs * 10 ^ cs.length + decode cs := by
    rw [decode, List.foldl_append, foldl_decode]
    rfl
  rw [happ]
  exact (Nat.le_mul_of_pos_right _ (Nat.pow_pos (by decide))).trans (Nat.le_add_right _ _)

theorem decode_cons (b : UInt8) (bs : Bytes) : decode (b :: bs) = (b.toNat - 48) * 10 ^ bs.length + decode bs := by
  rw [decode, List.foldl_cons, foldl_decode]
  simp

theorem decode_lt {bs : Bytes} (h : ∀ b ∈ bs, b.toNat ≤ 57) : decode bs < 10 ^ bs.length := by
  induction bs with
  | nil => simp [decode]
  | cons b bs ih =>
      obtain ⟨hb, hbs⟩ := List.forall_mem_cons.mp h
      have hrest := ih hbs
      have hd : (b.toNat - 48) * 10 ^ bs.length ≤ 9 * 10 ^ bs.length := Nat.mul_le_mul_right _ (by omega)
      rw [decode_cons, List.length_cons, pow_succ]
      omega

theorem lt_of_decode_lt {xs ys : Bytes} (hx : ∀ b ∈ xs, 48 ≤ b.toNat ∧ b.toNat ≤ 57)
    (hy : ∀ b ∈ ys, 48 ≤ b.toNat ∧ b.toNat ≤ 57) (hl : xs.length = ys.length) (h : decode xs < decode ys) :
    xs < ys := by
  induction xs generalizing ys with
  | nil =>
      rw [List.eq_nil_of_length_eq_zero hl.symm] at h
      exact absurd h (lt_irrefl _)
  | cons x xs ih =>
      cases ys with
      | nil => cases hl
      | cons y ys =>
          obtain ⟨hx₀, hxs⟩ := List.forall_mem_cons.mp hx
          obtain ⟨hy₀, hys⟩ := List.forall_mem_cons.mp hy
          have hlen : xs.length = ys.length := Nat.succ.inj hl
          have hxlt := decode_lt (fun b hb => (hxs b hb).2)
          have hylt := decode_lt (fun b hb => (hys b hb).2)
          rw [decode_cons, decode_cons, hlen] at h
          rw [hlen] at hxlt
          rw [List.cons_lt_cons_iff]
          rcases Nat.lt_trichotomy x.toNat y.toNat with hlt | heq | hgt
          · exact .inl (UInt8.lt_iff_toNat_lt.mpr hlt)
          · exact .inr ⟨UInt8.toNat_inj.mp heq, ih hxs hys hlen (by rw [heq] at h; omega)⟩
          · exfalso
            have hmul : (y.toNat - 48 + 1) * 10 ^ ys.length ≤ (x.toNat - 48) * 10 ^ ys.length :=
              Nat.mul_le_mul_right _ (by omega)
            rw [Nat.succ_mul] at hmul
            omega

theorem length_encodeLoop {fuel w n : Nat} (hf : n < fuel) (hw : 0 < w) (h : n < 10 ^ w) :
    (encodeLoop fuel n).length ≤ w := by
  induction fuel generalizing w n with
  | zero => omega
  | succ fuel ih =>
      rw [encodeLoop]
      split
      next => exact hw
      next hn =>
        obtain ⟨w, rfl⟩ := Nat.exists_eq_succ_of_ne_zero hw.ne'
        have hw' : 0 < w := by
          by_contra h0
          rw [Nat.eq_zero_of_not_pos h0] at h
          omega
        rw [Nat.succ_eq_add_one, pow_succ] at h
        have hrest := ih (n := n / 10) (by omega) hw' (by omega)
        rw [List.length_append, List.length_singleton]
        omega

theorem length_encode_le {w n : Nat} (hw : 0 < w) (h : n < 10 ^ w) : (encode n).length ≤ w :=
  length_encodeLoop (Nat.lt_succ_self n) hw h

theorem length_encodePadded {w n : Nat} (hw : 0 < w) (h : n < 10 ^ w) : (encodePadded w n).length = w := by
  have hle := length_encode_le hw h
  rw [encodePadded, List.length_append, List.length_replicate]
  omega

theorem encodePadded_lt {w m n : Nat} (hw : 0 < w) (h : m < n) (hn : n < 10 ^ w) :
    encodePadded w m < encodePadded w n := by
  apply lt_of_decode_lt (fun _ => mem_encodePadded) (fun _ => mem_encodePadded)
  · rw [length_encodePadded hw (lt_trans h hn), length_encodePadded hw hn]
  · rwa [decode_encodePadded, decode_encodePadded]

theorem lt_pow_length (w n : Nat) : n < 10 ^ (encodePadded w n).length := by
  have hlt := decode_lt fun b (hb : b ∈ encodePadded w n) => (mem_encodePadded hb).2
  rwa [decode_encodePadded] at hlt

theorem exists_pow_between {w m n : Nat} (hw : 0 < w) (h : m < n)
    (hne : (encodePadded w m).length ≠ (encodePadded w n).length) : ∃ k, w ≤ k ∧ m < 10 ^ k ∧ 10 ^ k ≤ n := by
  have hlen {k i : Nat} (hk : w ≤ k) (hi : i < 10 ^ k) : (encodePadded w i).length ≤ k := by
    have hle := length_encode_le (Nat.lt_of_lt_of_le hw hk) hi
    rw [encodePadded, List.length_append, List.length_replicate]
    omega
  have hmn := hlen (le_length_encodePadded w n) (lt_trans h (lt_pow_length w n))
  refine ⟨(encodePadded w m).length, le_length_encodePadded w m, lt_pow_length w m, ?_⟩
  by_contra hlt
  exact hne (le_antisymm hmn (hlen (le_length_encodePadded w m) (not_le.mp hlt)))

theorem exists_encodeLoop_pow {fuel w : Nat} (h : 10 ^ w < fuel) :
    ∃ rest, encodeLoop fuel (10 ^ w) = digit 1 :: rest := by
  induction w generalizing fuel with
  | zero =>
      obtain ⟨fuel, rfl⟩ := Nat.exists_eq_succ_of_ne_zero (Nat.ne_of_gt (lt_of_le_of_lt (Nat.zero_le _) h))
      exact ⟨[], rfl⟩
  | succ w ih =>
      obtain ⟨fuel, rfl⟩ := Nat.exists_eq_succ_of_ne_zero (Nat.ne_of_gt (lt_of_le_of_lt (Nat.zero_le _) h))
      have hpos : 0 < 10 ^ w := Nat.pow_pos (by decide)
      rw [pow_succ] at h
      obtain ⟨rest, hrest⟩ := @ih fuel (by omega)
      rw [encodeLoop, pow_succ, if_neg (by omega), Nat.mul_div_cancel _ (by decide), hrest]
      exact ⟨_, rfl⟩

theorem exists_encodeLoop_pred {fuel w : Nat} (hw : 0 < w) (h : 10 ^ w - 1 < fuel) :
    ∃ rest, encodeLoop fuel (10 ^ w - 1) = digit 9 :: rest := by
  induction w, hw using Nat.le_induction generalizing fuel with
  | base =>
      obtain ⟨fuel, rfl⟩ := Nat.exists_eq_succ_of_ne_zero (Nat.ne_of_gt (lt_of_le_of_lt (Nat.zero_le _) h))
      exact ⟨[], rfl⟩
  | succ w hw ih =>
      obtain ⟨fuel, rfl⟩ := Nat.exists_eq_succ_of_ne_zero (Nat.ne_of_gt (lt_of_le_of_lt (Nat.zero_le _) h))
      have hpos : 10 ≤ 10 ^ w := Nat.le_self_pow (Nat.ne_of_gt hw) 10
      have hdiv : (10 ^ w * 10 - 1) / 10 = 10 ^ w - 1 := by omega
      rw [pow_succ] at h
      obtain ⟨rest, hrest⟩ := @ih fuel (by omega)
      rw [encodeLoop, pow_succ, if_neg (by omega), hdiv, hrest]
      exact ⟨_, rfl⟩

theorem encodePadded_of_le {w n : Nat} (h : 10 ^ w ≤ n + 1) : encodePadded w n = encode n := by
  have hlen : w ≤ (encode n).length := by
    by_contra hlt
    have hn := decode_lt fun b (hb : b ∈ encode n) => (mem_encode hb).2
    rw [decode_encode] at hn
    have hlt' : 10 ^ (encode n).length < 10 ^ w := Nat.pow_lt_pow_right (by decide) (not_le.mp hlt)
    omega
  rw [encodePadded, Nat.sub_eq_zero_of_le hlen]
  rfl

/-- A number that needs one more digit than the one before it stands before it. -/
theorem encodePadded_pow_lt {w k : Nat} (hw : 0 < w) (hk : w ≤ k) (xs ys : Bytes) :
    encodePadded w (10 ^ k) ++ xs < encodePadded w (10 ^ k - 1) ++ ys := by
  obtain ⟨rest, hpow⟩ := exists_encodeLoop_pow (w := k) (Nat.lt_succ_self _)
  obtain ⟨rest', hpred⟩ := exists_encodeLoop_pred (Nat.lt_of_lt_of_le hw hk) (Nat.lt_succ_self _)
  have hle : 10 ^ w ≤ 10 ^ k := Nat.pow_le_pow_right (by decide) hk
  rw [encodePadded_of_le (by omega), encodePadded_of_le (by omega), encode, encode, hpow, hpred, List.cons_append,
    List.cons_append, List.cons_lt_cons_iff]
  exact .inl (by decide)

theorem append_lt_append {xs ys : Bytes} (hl : xs.length = ys.length) (h : xs < ys) (zs ws : Bytes) :
    xs ++ zs < ys ++ ws := by
  induction xs generalizing ys with
  | nil =>
      rw [List.eq_nil_of_length_eq_zero hl.symm] at h
      exact absurd h (List.not_lt_nil _)
  | cons x xs ih =>
      cases ys with
      | nil => cases hl
      | cons y ys =>
          rw [List.cons_append, List.cons_append, List.cons_lt_cons_iff]
          rcases List.cons_lt_cons_iff.mp h with hlt | ⟨rfl, hlt⟩
          · exact .inl hlt
          · exact .inr ⟨rfl, ih (Nat.succ.inj hl) hlt⟩

theorem append_encode_inj {xs ys : Bytes} {sep : UInt8} {m n : Nat} (hs : sep.toNat < 48 ∨ 57 < sep.toNat)
    (h : xs ++ sep :: encode m = ys ++ sep :: encode n) : xs = ys ∧ m = n := by
  have hno (k : Nat) : sep ∉ encode k := fun hm => by
    have := mem_encode hm
    omega
  rcases List.append_eq_append_iff.mp h with ⟨as, rfl, he⟩ | ⟨as, rfl, he⟩
  · cases as with
    | nil => exact ⟨by simp, by simpa using congrArg decode (List.cons.inj he).2⟩
    | cons a as =>
        have hmem : sep ∈ encode m := by
          rw [(List.cons.inj he).2]
          simp
        exact absurd hmem (hno m)
  · cases as with
    | nil => exact ⟨by simp, by simpa using (congrArg decode (List.cons.inj he).2).symm⟩
    | cons a as =>
        have hmem : sep ∈ encode n := by
          rw [(List.cons.inj he).2]
          simp
        exact absurd hmem (hno n)

end MiniStorage.Decimal
