import MiniStorage.Engine.Db

namespace MiniStorage.Engine

/-- The bytes are the records of these operations and a tail that no record starts. -/
def Splits (bs : Bytes) (ops : List Mutation) (tail : Bytes) : Prop :=
  ∃ chunks : List Bytes, bs = chunks.flatten ++ tail ∧ List.Forall₂ IsRecord chunks ops ∧
    ∀ chunk m rest, IsRecord chunk m → tail ≠ chunk ++ rest

/-- The operations in front of the first malformed record of a batch, and whether there is none. -/
def Leading (contents : Bytes) (ops : List Mutation) (whole : Bool) : Prop :=
  if contents.length < kBatchHeaderSize then ops = [] ∧ whole = false
  else ∃ tail, Splits (contents.drop kBatchHeaderSize) ops tail ∧ whole = decide (tail = [])

theorem exists_splits (bs : Bytes) : ∃ ops tail, Splits bs ops tail := by
  induction hn : bs.length using Nat.strong_induction_on generalizing bs with
  | _ n ih =>
      by_cases h : ∃ chunk m rest, IsRecord chunk m ∧ bs = chunk ++ rest
      · obtain ⟨chunk, m, rest, hrecord, rfl⟩ := h
        have hpos := List.length_pos_of_ne_nil hrecord.ne_nil
        obtain ⟨ops, tail, chunks, hrest, hall, htail⟩ :=
          ih rest.length (by rw [← hn, List.length_append]; omega) rest rfl
        refine ⟨m :: ops, tail, chunk :: chunks, ?_, .cons hrecord hall, htail⟩
        rw [hrest, List.flatten_cons, List.append_assoc]
      · refine ⟨[], bs, [], rfl, .nil, ?_⟩
        intro chunk m rest hrecord hbs
        exact h ⟨chunk, m, rest, hrecord, hbs⟩

theorem exists_leading (contents : Bytes) : ∃ ops whole, Leading contents ops whole := by
  by_cases hshort : contents.length < kBatchHeaderSize
  · exact ⟨[], false, by rw [Leading, if_pos hshort]; exact ⟨rfl, rfl⟩⟩
  · obtain ⟨ops, tail, hsplit⟩ := exists_splits (contents.drop kBatchHeaderSize)
    exact ⟨ops, decide (tail = []), by rw [Leading, if_neg hshort]; exact ⟨tail, hsplit, rfl⟩⟩

/-- std::string ends in a NUL, so every length comes to an end. -/
theorem decodeString_isSome (ahead : Bytes) : ∃ answer, decodeString ⟨ahead, [0]⟩ = some answer := by
  rw [← Option.isSome_iff_exists, Option.isSome_iff_ne_none, Ne, decodeString_eq_none_iff]
  intro h
  have hzero := h.2 0 (by simp [Cursor.bytes])
  exact absurd hzero (by decide)

theorem iterateLoop_stuck {S : Type} (handler : Handler S) {type : UInt8} {tail : Bytes}
    (h : ∀ chunk m rest, IsRecord chunk m → type :: tail ≠ chunk ++ rest) (fuel : Nat) (s : S) :
    WriteBatch.iterateLoop handler (fuel + 1) ⟨type :: tail, [0]⟩ s = some (false, s) := by
  have hstep : Cursor.advance ⟨type :: tail, [0]⟩ 1 = ⟨tail, [0]⟩ := advance_append [type] _ _
  have hbyte {t : ValueType} (ht : ValueType.ofByte type = some t) : type = t.toByte := by
    have hfound := List.find?_some ht
    simpa using (beq_iff_eq.mp hfound).symm
  obtain ⟨answer, hkey⟩ := decodeString_isSome tail
  simp only [WriteBatch.iterateLoop, hstep]
  cases htype : ValueType.ofByte type with
  | none => rfl
  | some t =>
      obtain rfl := hbyte htype
      rcases answer with _ | ⟨key, p, beyond⟩
      · cases t <;> simp only [hkey, Option.bind_eq_bind, Option.bind_some, Option.pure_def]
      · obtain ⟨kb, hk, hahead, hbeyond⟩ := decodeString_some hkey
        dsimp only at hahead hbeyond
        subst hahead hbeyond
        cases t with
        | deletion => exact absurd rfl (h _ _ p (.delete hk))
        | value =>
            obtain ⟨answer', hvalue⟩ := decodeString_isSome p
            rcases answer' with _ | ⟨value, q, beyond'⟩
            · simp only [hkey, hvalue, Option.bind_eq_bind, Option.bind_some, Option.pure_def]
            · obtain ⟨vb, hv, hahead', -⟩ := decodeString_some hvalue
              dsimp only at hahead'
              subst hahead'
              exact absurd (by simp) (h _ _ q (.put hk hv))

/-- The handler has seen every operation in front of the tail when the loop comes to it. -/
theorem iterateLoop_splits {S : Type} (handler : Handler S) {bs tail : Bytes} {ops : List Mutation}
    (h : Splits bs ops tail) {fuel : Nat} (hf : bs.length ≤ fuel) (s : S) :
    WriteBatch.iterateLoop handler fuel ⟨bs, [0]⟩ s =
      (ops.foldlM (Mutation.apply handler) s).map fun s => (decide (tail = []), s) := by
  obtain ⟨chunks, rfl, hall, htail⟩ := h
  induction hall generalizing fuel s with
  | nil =>
      cases tail with
      | nil => exact iterateLoop_nil handler fuel [0] s
      | cons type tail =>
          obtain ⟨fuel, rfl⟩ := Nat.exists_eq_succ_of_ne_zero (Nat.ne_of_gt (lt_of_lt_of_le (by simp) hf))
          exact iterateLoop_stuck handler htail fuel s
  | @cons chunk m chunks ops hrecord hall ih =>
      have hpos := List.length_pos_of_ne_nil hrecord.ne_nil
      rw [List.flatten_cons, List.append_assoc, List.length_append] at hf
      obtain ⟨fuel, rfl⟩ := Nat.exists_eq_succ_of_ne_zero (by omega : fuel ≠ 0)
      rw [List.flatten_cons, List.append_assoc, iterateLoop_isRecord handler hrecord, List.foldlM_cons]
      cases m.apply handler s with
      | none => rfl
      | some s' => exact ih s' (by omega)

theorem iterate_leading {S : Type} (handler : Handler S) {contents : Bytes} {ops : List Mutation} {whole : Bool}
    (h : Leading contents ops whole) (s : S) : WriteBatch.iterate ⟨contents⟩ handler s =
      (ops.foldlM (Mutation.apply handler) s).map fun s => (whole, s) := by
  rw [Leading] at h
  rw [WriteBatch.iterate]
  split at h
  next hshort =>
    obtain ⟨rfl, rfl⟩ := h
    rw [if_pos hshort]
    rfl
  next hlong =>
    obtain ⟨tail, hsplit, rfl⟩ := h
    rw [if_neg hlong]
    exact iterateLoop_splits handler hsplit (by rw [List.length_drop]; exact Nat.sub_le _ _) s

/-- The header behind so many calls of Put and Delete. -/
def countHeader (n : Nat) : Bytes := List.replicate 8 0 ++ encodeFixed32 (UInt32.ofNat n)

theorem length_countHeader (n : Nat) : (countHeader n).length = kBatchHeaderSize := by
  simp only [countHeader, List.length_append, List.length_replicate, length_encodeFixed32, kBatchHeaderSize]

theorem drop_countHeader (n : Nat) (records : Bytes) :
    (countHeader n ++ records).drop 8 = encodeFixed32 (UInt32.ofNat n) ++ records := by
  rw [countHeader, List.append_assoc]
  exact List.drop_left' List.length_replicate

theorem countUp_countHeader (n : Nat) (records : Bytes) :
    WriteBatch.countUp (countHeader n ++ records) = some (countHeader (n + 1) ++ records) := by
  have hseq : (countHeader n ++ records).take 8 = List.replicate 8 0 := by
    rw [countHeader, List.append_assoc]
    exact List.take_left' List.length_replicate
  have hrest : (countHeader n ++ records).drop 12 = records := List.drop_left' (length_countHeader n)
  rw [WriteBatch.countUp, drop_countHeader, hseq, hrest, decodeFixed32_append, Option.map_some, countHeader,
    UInt32.ofNat_add]
  rfl

variable {codec : VarintCodec}

theorem Mutation.addTo_eq {m : Mutation} (he : m.Encodes codec) (n : Nat) (records : Bytes) :
    m.addTo codec ⟨countHeader n ++ records⟩ = some ⟨countHeader (n + 1) ++ (records ++ m.record codec)⟩ := by
  have hput (dst : Bytes) {s : Bytes} (hs : codec.Encodes s.length) :
      encodeString codec dst s = some (dst ++ lengthPrefixed codec s) := by
    obtain ⟨out, hout⟩ := Option.isSome_iff_exists.mp (encodeString_isSome dst hs)
    rw [hout, (encodeString_some hout).2]
  cases m with
  | put key value =>
      simp only [addTo, WriteBatch.put, countUp_countHeader, hput _ he.1, hput _ he.2, Option.bind_eq_bind,
        Option.bind_some, Option.pure_def, record, List.append_assoc, List.cons_append, List.nil_append]
  | delete key =>
      simp only [addTo, WriteBatch.delete, countUp_countHeader, hput _ he, Option.bind_eq_bind, Option.bind_some,
        Option.pure_def, record, List.append_assoc, List.cons_append, List.nil_append]

theorem foldlM_addTo {ops : List Mutation} (he : ∀ m ∈ ops, m.Encodes codec) (n : Nat) (records : Bytes) :
    ops.foldlM (Mutation.addTo codec) ⟨countHeader n ++ records⟩ =
      some ⟨countHeader (n + ops.length) ++ (records ++ ops.flatMap (Mutation.record codec))⟩ := by
  induction ops generalizing n records with
  | nil => simp
  | cons m ops ih =>
      obtain ⟨hm, hrest⟩ := List.forall_mem_cons.mp he
      rw [List.foldlM_cons, Mutation.addTo_eq hm]
      refine (ih hrest (n + 1) _).trans ?_
      rw [List.length_cons, List.flatMap_cons, List.append_assoc, Nat.add_assoc, Nat.add_comm 1]

/-- Count is right as far as its 32 bits go. -/
theorem count_countHeader (n : Nat) (records : Bytes) :
    ∃ count, WriteBatch.count ⟨countHeader n ++ records⟩ = some count ∧ count % 2 ^ 32 = (n : Int) % 2 ^ 32 := by
  have hlong : ¬ (countHeader n ++ records).length < kBatchHeaderSize := by
    rw [List.length_append, length_countHeader]
    omega
  refine ⟨_, by rw [WriteBatch.count, if_neg hlong, drop_countHeader, decodeFixed32_append, Option.map_some], ?_⟩
  have hmod : (UInt32.ofNat n).toInt32.toInt = (n : Int).bmod (2 ^ 32) := BitVec.toInt_ofNat' n
  rw [hmod]
  exact Int.bmod_emod ..

theorem splits_records {ops : List Mutation} (he : ∀ m ∈ ops, m.Encodes codec) (hs : ∀ m ∈ ops, m.Sized) :
    Splits (ops.flatMap (Mutation.record codec)) ops [] := by
  refine ⟨ops.map (Mutation.record codec), ?_, ?_, ?_⟩
  · rw [List.append_nil, List.flatMap_def]
  · rw [List.forall₂_map_left_iff, List.forall₂_same]
    exact fun m hm => m.isRecord (he m hm) (hs m hm)
  · intro chunk m rest hrecord h
    exact hrecord.ne_nil (List.append_eq_nil_iff.mp h.symm).1

/-- What is put into a batch comes out of it again, in its order. -/
theorem batch_round_trip (hcodec : ∀ n, codec.Encodes n) (ops : List Mutation) (hs : ∀ m ∈ ops, m.Sized) :
    ∃ b count, ops.foldlM (Mutation.addTo codec) .create = some b ∧
      b.count = some count ∧ count % 2 ^ 32 = (ops.length : Int) % 2 ^ 32 ∧
      ∀ (S : Type) (handler : Handler S) (s : S), (WriteBatch.create.setContents b.data).iterate handler s =
        (ops.foldlM (Mutation.apply handler) s).map fun s => (true, s) := by
  have he (m : Mutation) (_ : m ∈ ops) := m.encodes_of_forall hcodec
  have hfold := foldlM_addTo he 0 []
  obtain ⟨count, hcount, hmod⟩ := count_countHeader (0 + ops.length) ([] ++ ops.flatMap (Mutation.record codec))
  rw [Nat.zero_add] at hmod
  refine ⟨_, count, hfold, hcount, hmod, ?_⟩
  intro S handler s
  apply iterate_leading
  have hlong : ¬ (countHeader (0 + ops.length) ++ ([] ++ ops.flatMap (Mutation.record codec))).length <
    kBatchHeaderSize := by
    rw [List.length_append, length_countHeader]
    omega
  rw [Leading, WriteBatch.data, if_neg hlong, List.drop_left' (length_countHeader _)]
  exact ⟨[], splits_records he hs, rfl⟩

/-- A codec that comes back for every length gives the batch of a Put and a Delete back. -/
theorem batch_round_trip_two :
    ∃ b count, [Mutation.put [1] [2, 3], .delete []].foldlM (Mutation.addTo .base128) .create = some b ∧
    b.count = some count ∧ count % 2 ^ 32 = 2 % 2 ^ 32 ∧
    ∀ (S : Type) (handler : Handler S) (s : S), (WriteBatch.create.setContents b.data).iterate handler s =
      ([Mutation.put [1] [2, 3], .delete []].foldlM (Mutation.apply handler) s).map fun s => (true, s) := by
  apply batch_round_trip VarintCodec.base128_encodes
  intro m hm
  rcases List.mem_pair.mp hm with rfl | rfl
  · exact ⟨by simp, by simp⟩
  · exact (by simp : ([] : Bytes).length < 2 ^ 32)

/-- The records that ReadRecord returns until it returns false. -/
theorem recoverLoop_leading {fuel : Nat} {r : LogReader} (hf : r.file.rest.length < fuel) :
    ∃ (records : List Bytes) (opss : List (List Mutation)), r.ReadsExactly records ∧
      List.Forall₂ (fun record ops => ∃ whole, Leading record ops whole) records opss ∧
      ∀ (S : Type) (handler : Handler S) (s : S),
        DB.recoverLoop handler fuel r s = opss.flatten.foldlM (Mutation.apply handler) s := by
  induction fuel generalizing r with
  | zero => cases hf
  | succ fuel ih =>
      obtain ⟨⟨record, r'⟩, hread⟩ := Option.isSome_iff_exists.mp (LogReader.readRecord_isSome r)
      cases record with
      | none =>
          refine ⟨[], [], ⟨r', hread⟩, .nil, ?_⟩
          intro S handler s
          simp only [DB.recoverLoop, hread, Option.bind_eq_bind, Option.bind_some]
          rfl
      | some record =>
          obtain ⟨ops, whole, hlead⟩ := exists_leading record
          have hshorter : r'.file.rest.length < fuel :=
            lt_of_lt_of_le (LogReader.readRecord_some hread).2 (Nat.le_of_lt_succ hf)
          obtain ⟨records, opss, hreads, hall, hloop⟩ := ih hshorter
          refine ⟨record :: records, ops :: opss, ⟨r', hread, hreads⟩, .cons ⟨whole, hlead⟩ hall, ?_⟩
          intro S handler s
          simp only [DB.recoverLoop, hread, iterate_leading handler hlead, Option.bind_eq_bind, Option.bind_some,
            List.flatten_cons, List.foldlM_append]
          cases ops.foldlM (Mutation.apply handler) s with
          | none => rfl
          | some s' => exact hloop S handler s'

/-- Iterate hands over the operations in front of the first malformed record, and Recover keeps them. -/
theorem batch_replays_leading (contents log : Bytes) :
    (∃ ops whole, Leading contents ops whole ∧ ∀ (S : Type) (handler : Handler S) (s : S),
      (WriteBatch.create.setContents contents).iterate handler s =
        (ops.foldlM (Mutation.apply handler) s).map fun s => (whole, s)) ∧
    ∃ (records : List Bytes) (opss : List (List Mutation)), (LogReader.ofFile (some log)).ReadsExactly records ∧
      List.Forall₂ (fun record ops => ∃ whole, Leading record ops whole) records opss ∧
      ∀ (S : Type) (handler : Handler S) (s : S),
        DB.recover handler (some log) s = opss.flatten.foldlM (Mutation.apply handler) s := by
  constructor
  · obtain ⟨ops, whole, hlead⟩ := exists_leading contents
    exact ⟨ops, whole, hlead, fun S handler s => iterate_leading handler hlead s⟩
  · exact recoverLoop_leading (Nat.lt_succ_self log.length)

/-- A Put of an empty key and an empty value, and a byte that is no type. -/
theorem batch_half_replayed : ¬ ∀ (contents : Bytes) (S : Type) (handler : Handler S) (s s' : S),
    (WriteBatch.create.setContents contents).iterate handler s = some (false, s') → s' = s := by
  intro h
  have hone := h (List.replicate 12 0 ++ [1, 0, 0, 9]) Nat ⟨fun n _ _ => some (n + 1), fun n _ => some (n + 1)⟩ 0 1
    (by decide)
  exact absurd hone (by decide)

end MiniStorage.Engine
