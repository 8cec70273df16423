import MiniStorage.Engine.Crc
import Mathlib.Algebra.Group.Int.Defs
import Mathlib.Algebra.Group.Nat.Defs
import Mathlib.Data.List.Basic

namespace MiniStorage.Engine

/-- The default that every caller takes. -/
def bitsPerKey : Int := 10

structure BloomFilter where
  bits : Nat
  numHashes : Nat
  data : List UInt8
deriving DecidableEq, Repr

namespace BloomFilter

/-- The constructor for `entries` keys. Nothing is built when the product leaves
the range of int, or is negative and makes a size no vector can have. -/
def ofEntries (entries : Int) : Option BloomFilter :=
  let product := entries * bitsPerKey
  if product < 0 ∨ 2 ^ 31 ≤ product then none
  else
    let bits := if product.toNat < 64 then 64 else product.toNat
    let bits := (bits + 7) / 8 * 8
    -- 0.69 * bits_per_key cut to an int, and at least 1
    some ⟨bits, max (69 * bitsPerKey / 100).toNat 1, List.replicate (bits / 8) 0⟩

/-- The constructor from the bytes of a file. -/
def ofRawData : Bytes → BloomFilter
  | [] => ⟨0, 1, []⟩
  | n :: data => ⟨data.length * 8, n.toNat, data⟩

def setBit (data : List UInt8) (bitPos : Nat) : List UInt8 :=
  data.modify (bitPos / 8) (· ||| (1 <<< UInt8.ofNat (bitPos % 8)))

def testBit (data : List UInt8) (bitPos : Nat) : Bool :=
  data.getD (bitPos / 8) 0 &&& (1 <<< UInt8.ofNat (bitPos % 8)) != 0

def addLoop (key : Bytes) (bits : Nat) : Nat → UInt32 → List UInt8 → List UInt8
  | 0, _, data => data
  | n + 1, h, data => addLoop key bits n (valueCRC32 h key) (setBit data (h.toNat % bits))

def add (f : BloomFilter) (key : Bytes) : BloomFilter :=
  { f with data := addLoop key f.bits f.numHashes (valueCRC32 0 key) f.data }

def mayContainLoop (key : Bytes) (bits : Nat) (data : List UInt8) : Nat → UInt32 → Bool
  | 0, _ => true
  | n + 1, h =>
      if testBit data (h.toNat % bits) then mayContainLoop key bits data n (valueCRC32 h key) else false

def mayContain (f : BloomFilter) (key : Bytes) : Bool :=
  if f.data.isEmpty then true
  else mayContainLoop key f.bits f.data f.numHashes (valueCRC32 0 key)

@[simp] theorem length_setBit (data : List UInt8) (bitPos : Nat) : (setBit data bitPos).length = data.length := by
  simp [setBit]

theorem or_bit_ne_zero (b : UInt8) (k : Nat) (h : k < 8) :
    (b ||| (1 <<< UInt8.ofNat k)) &&& (1 <<< UInt8.ofNat k) ≠ 0 := by
  have ht : ∀ (i : Fin 256) (k : Fin 8),
      (UInt8.ofNat i.val ||| (1 <<< UInt8.ofNat k.val)) &&& (1 <<< UInt8.ofNat k.val) ≠ 0 := by decide +kernel
  simpa using ht ⟨b.toNat, b.toNat_lt⟩ ⟨k, h⟩

theorem or_and_ne_zero {b c m : UInt8} (h : b &&& m ≠ 0) : (b ||| c) &&& m ≠ 0 := by
  intro he
  have hd : (b ||| c) &&& m = (b &&& m) ||| (c &&& m) := by
    apply UInt8.toBitVec_inj.mp
    simp [BitVec.and_or_distrib_right]
  rw [hd, UInt8.or_eq_zero_iff] at he
  exact h he.1

theorem testBit_setBit {data : List UInt8} {bitPos : Nat} (h : bitPos / 8 < data.length) :
    testBit (setBit data bitPos) bitPos = true := by
  have hb := or_bit_ne_zero (data.getD (bitPos / 8) 0) (bitPos % 8) (Nat.mod_lt _ (by decide))
  simpa [testBit, setBit, List.getD, List.getElem?_eq_getElem h] using hb

theorem testBit_setBit_of_testBit {data : List UInt8} {i j : Nat} (h : testBit data i = true) :
    testBit (setBit data j) i = true := by
  have hb : data.getD (i / 8) 0 &&& (1 <<< UInt8.ofNat (i % 8)) ≠ 0 := by simpa [testBit] using h
  by_cases hj : j / 8 = i / 8
  · rcases hd : data[i / 8]? with _ | b
    · simp [List.getD, hd] at hb
    · have hb' : b &&& (1 <<< UInt8.ofNat (i % 8)) ≠ 0 := by simpa [List.getD, hd] using hb
      simpa [testBit, setBit, List.getD, List.getElem?_modify, hj, hd] using
        or_and_ne_zero (c := 1 <<< UInt8.ofNat (j % 8)) hb'
  · simpa [testBit, setBit, List.getD, List.getElem?_modify, hj] using hb

@[simp] theorem length_addLoop (key : Bytes) (bits n : Nat) (h : UInt32) (data : List UInt8) :
    (addLoop key bits n h data).length = data.length := by
  induction n generalizing h data with
  | zero => rfl
  | succ n ih => simp [addLoop, ih]

theorem testBit_addLoop {key : Bytes} {bits n i : Nat} {h : UInt32} {data : List UInt8} (hi : testBit data i = true) :
    testBit (addLoop key bits n h data) i = true := by
  induction n generalizing h data with
  | zero => exact hi
  | succ n ih => exact ih (testBit_setBit_of_testBit hi)

theorem mayContainLoop_mono {key : Bytes} {bits n : Nat} {h : UInt32} {data data' : List UInt8}
    (hd : ∀ i, testBit data i = true → testBit data' i = true) (hm : mayContainLoop key bits data n h = true) :
    mayContainLoop key bits data' n h = true := by
  induction n generalizing h with
  | zero => rfl
  | succ n ih =>
      simp only [mayContainLoop] at hm ⊢
      split at hm
      next ht => rw [if_pos (hd _ ht), ih hm]
      next => cases hm

theorem mayContainLoop_addLoop {key : Bytes} {bits : Nat} (n : Nat) (h : UInt32) {data : List UInt8}
    (hb : bits = data.length * 8) (h0 : 0 < bits) :
    mayContainLoop key bits (addLoop key bits n h data) n h = true := by
  induction n generalizing h data with
  | zero => rfl
  | succ n ih =>
      have hlt : h.toNat % bits / 8 < data.length := by
        have := Nat.mod_lt h.toNat h0
        omega
      have ht : testBit (addLoop key bits n (valueCRC32 h key) (setBit data (h.toNat % bits)))
          (h.toNat % bits) = true :=
        testBit_addLoop (testBit_setBit hlt)
      simp only [mayContainLoop, addLoop, ht, if_true]
      exact ih (valueCRC32 h key) (by simpa using hb)

/-- A filter whose bits are all in its data, and some are there. -/
structure Fits (f : BloomFilter) : Prop where
  bits_eq : f.bits = f.data.length * 8
  bits_pos : 0 < f.bits

theorem Fits.add {f : BloomFilter} (hf : f.Fits) (key : Bytes) : (f.add key).Fits :=
  ⟨by simpa [BloomFilter.add] using hf.bits_eq, hf.bits_pos⟩

theorem Fits.isEmpty {f : BloomFilter} (hf : f.Fits) : f.data.isEmpty = false := by
  have h := hf.bits_pos
  rw [hf.bits_eq] at h
  rcases hd : f.data with _ | _
  · simp [hd] at h
  · rfl

theorem Fits.mayContain_add_self {f : BloomFilter} (hf : f.Fits) (key : Bytes) : (f.add key).mayContain key = true := by
  simp only [mayContain, (hf.add key).isEmpty, Bool.false_eq_true, if_false]
  exact mayContainLoop_addLoop f.numHashes (valueCRC32 0 key) hf.bits_eq hf.bits_pos

theorem Fits.mayContain_add {f : BloomFilter} (hf : f.Fits) {key : Bytes} (other : Bytes)
    (h : f.mayContain key = true) : (f.add other).mayContain key = true := by
  simp only [mayContain, hf.isEmpty, (hf.add other).isEmpty, Bool.false_eq_true, if_false] at h ⊢
  exact mayContainLoop_mono (fun i => testBit_addLoop) h

/-- No false negatives, however many keys are added. -/
theorem Fits.mayContain_foldl {f : BloomFilter} (hf : f.Fits) (keys : List Bytes) :
    (keys.foldl BloomFilter.add f).Fits ∧ ∀ key, key ∈ keys ∨ f.mayContain key = true →
      (keys.foldl BloomFilter.add f).mayContain key = true := by
  induction keys generalizing f with
  | nil => exact ⟨hf, by simp⟩
  | cons k keys ih =>
      obtain ⟨hfits, hall⟩ := ih (hf.add k)
      refine ⟨hfits, ?_⟩
      intro key hkey
      apply hall
      rcases hkey with hkey | hkey
      · rcases List.mem_cons.mp hkey with rfl | hkey
        · exact .inr (hf.mayContain_add_self key)
        · exact .inl hkey
      · exact .inr (hf.mayContain_add k hkey)

theorem Fits.ofEntries {entries : Int} {f : BloomFilter} (h : ofEntries entries = some f) : f.Fits := by
  simp only [BloomFilter.ofEntries] at h
  split at h
  · cases h
  · obtain rfl := Option.some.inj h
    constructor
    · simp only [List.length_replicate]
      omega
    · dsimp only
      split <;> omega

theorem ofEntries_numHashes {entries : Int} {f : BloomFilter} (h : ofEntries entries = some f) : f.numHashes = 6 := by
  simp only [ofEntries] at h
  split at h
  · cases h
  · obtain rfl := Option.some.inj h
    rfl

theorem ofEntries_isSome {n : Nat} (h : n * 10 < 2 ^ 31) : ∃ f, ofEntries n = some f := by
  have hc : ¬ ((n : Int) * bitsPerKey < 0 ∨ 2 ^ 31 ≤ (n : Int) * bitsPerKey) := by
    simp only [bitsPerKey]
    omega
  simp only [ofEntries, hc, if_false]
  exact ⟨_, rfl⟩

theorem Fits.ofRawData {f : BloomFilter} (hf : f.Fits) (hn : f.numHashes < 256) :
    ofRawData (UInt8.ofNat f.numHashes :: f.data) = f := by
  rcases f with ⟨bits, numHashes, data⟩
  have hb := hf.bits_eq
  simp only [BloomFilter.ofRawData, UInt8.toNat_ofNat'] at hb hn ⊢
  rw [hb, Nat.mod_eq_of_lt hn]

end BloomFilter
end MiniStorage.Engine
