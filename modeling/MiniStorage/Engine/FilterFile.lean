import MiniStorage.Engine.SSTableRoundTrip

namespace MiniStorage.Engine

namespace BloomFilter

/-- The bits of a key, for so many turns of the hash. -/
def positionsFrom (key : Bytes) (bits : Nat) : Nat → UInt32 → List Nat
  | 0, _ => []
  | n + 1, h => h.toNat % bits :: positionsFrom key bits n (valueCRC32 h key)

/-- The bits that Add sets for a key and that MayContain looks at, up to the first that is not set. -/
def positions (f : BloomFilter) (key : Bytes) : List Nat := positionsFrom key f.bits f.numHashes (valueCRC32 0 key)

/-- The bits of the key are all bits of data_. -/
def Inside (f : BloomFilter) (key : Bytes) : Prop := ∀ bitPos ∈ f.positions key, bitPos / 8 < f.data.length

theorem addLoop_eq (key : Bytes) (bits n : Nat) (h : UInt32) (data : List UInt8) :
    addLoop key bits n h data = (positionsFrom key bits n h).foldl setBit data := by
  induction n generalizing h data with
  | zero => rfl
  | succ n ih => rw [addLoop, ih, positionsFrom, List.foldl_cons]

theorem mayContainLoop_eq (key : Bytes) (bits n : Nat) (h : UInt32) (data : List UInt8) :
    mayContainLoop key bits data n h = (positionsFrom key bits n h).all (testBit data) := by
  induction n generalizing h with
  | zero => rfl
  | succ n ih =>
      rw [mayContainLoop, ih, positionsFrom, List.all_cons]
      cases testBit data (h.toNat % bits) <;> rfl

theorem add_eq (f : BloomFilter) (key : Bytes) :
    f.add key = { f with data := (f.positions key).foldl setBit f.data } := by
  rw [add, addLoop_eq]
  rfl

theorem mayContain_eq (f : BloomFilter) (key : Bytes) :
    f.mayContain key = (f.data.isEmpty || (f.positions key).all (testBit f.data)) := by
  rw [mayContain, mayContainLoop_eq]
  cases f.data.isEmpty <;> rfl

theorem positionsFrom_lt {bits : Nat} (hb : 0 < bits) (key : Bytes) (n : Nat) (h : UInt32) :
    ∀ bitPos ∈ positionsFrom key bits n h, bitPos < bits := by
  induction n generalizing h with
  | zero => simp [positionsFrom]
  | succ n ih =>
      intro bitPos hm
      rcases List.mem_cons.mp hm with rfl | hm
      · exact Nat.mod_lt _ hb
      · exact ih _ bitPos hm

theorem Fits.inside {f : BloomFilter} (hf : f.Fits) (key : Bytes) : f.Inside key := by
  intro bitPos hm
  have hlt := positionsFrom_lt hf.bits_pos key f.numHashes (valueCRC32 0 key) bitPos hm
  have hbits := hf.bits_eq
  omega

end BloomFilter

/-- The filter that Open gets back has every key that the builder put in, and no bit of it lies outside of data_. -/
theorem bloom_filter_through_file (keys : List Bytes) (h : keys.length * 10 < 2 ^ 31) :
    ∃ f, BloomFilter.ofEntries (SSTableBuilder.toInt keys.length) = some f ∧
      (∀ key ∈ keys, (BloomFilter.ofRawData (filterBytes (keys.foldl BloomFilter.add f))).mayContain key = true) ∧
      (∀ n key, ((keys.take n).foldl BloomFilter.add f).Inside key) ∧
      (∀ key, (BloomFilter.ofRawData (filterBytes (keys.foldl BloomFilter.add f))).Inside key) ∧
      ∀ (g : BloomFilter) (key : Bytes),
        g.add key = { g with data := (g.positions key).foldl BloomFilter.setBit g.data } ∧
        g.mayContain key = (g.data.isEmpty || (g.positions key).all (BloomFilter.testBit g.data)) := by
  obtain ⟨f, hf⟩ := BloomFilter.ofEntries_isSome h
  have hfits := BloomFilter.Fits.ofEntries hf
  obtain ⟨hall, hmay⟩ := hfits.mayContain_foldl keys
  have hhash := (SSTableBuilder.foldl_add_keeps f keys).1
  have hraw : BloomFilter.ofRawData (filterBytes (keys.foldl BloomFilter.add f)) = keys.foldl BloomFilter.add f := by
    apply hall.ofRawData
    rw [hhash, BloomFilter.ofEntries_numHashes hf]
    decide
  refine ⟨f, ?_, ?_, ?_, ?_, fun g key => ⟨g.add_eq key, g.mayContain_eq key⟩⟩
  · rw [SSTableBuilder.toInt_of_lt (by omega)]
    exact hf
  · intro key hkey
    rw [hraw]
    exact hmay key (.inl hkey)
  · intro n key
    exact (hfits.mayContain_foldl (keys.take n)).1.inside key
  · intro key
    rw [hraw]
    exact hall.inside key

theorem bloom_filter_through_file_two : ∃ f, BloomFilter.ofEntries (SSTableBuilder.toInt 2) = some f ∧
    (BloomFilter.ofRawData (filterBytes ([[], [7]].foldl BloomFilter.add f))).mayContain [7] = true := by
  obtain ⟨f, hf, hmay, -⟩ := bloom_filter_through_file [[], [7]] (by decide)
  exact ⟨f, hf, hmay [7] (by simp)⟩

end MiniStorage.Engine
