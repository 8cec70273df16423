import MiniStorage.Engine.Decoding

namespace MiniStorage.Engine

/-- ValueType, the operations inside a batch. -/
inductive ValueType
  | deletion
  | value
deriving DecidableEq, Repr

namespace ValueType

def toByte : ValueType → UInt8
  | deletion => 0
  | value => 1

def ofByte (b : UInt8) : Option ValueType :=
  [deletion, value].find? (fun t => t.toByte == b)

end ValueType

def kBatchHeaderSize : Nat := 12

/-- [sequence 8][count 4][records], a record being [type 1][key][value]. -/
structure WriteBatch where
  rep : Bytes
deriving DecidableEq, Repr

/-- WriteBatch::Handler on a state of its own. -/
structure Handler (S : Type) where
  put : S → Bytes → Bytes → Option S
  delete : S → Bytes → Option S

namespace WriteBatch

def create : WriteBatch := ⟨List.replicate kBatchHeaderSize 0⟩

def data (b : WriteBatch) : Bytes := b.rep

def setContents (b : WriteBatch) (contents : Bytes) : WriteBatch := { b with rep := contents }

/-- A uint32_t that is returned as an int. -/
def count (b : WriteBatch) : Option Int :=
  if b.rep.length < kBatchHeaderSize then some 0
  else (decodeFixed32 (b.rep.drop 8)).map fun count => count.toInt32.toInt

/-- The count in the header goes up by one, as a uint32_t. -/
def countUp (rep : Bytes) : Option Bytes :=
  (decodeFixed32 (rep.drop 8)).map fun count => rep.take 8 ++ encodeFixed32 (count + 1) ++ rep.drop 12

variable (codec : VarintCodec)

def put (b : WriteBatch) (key value : Bytes) : Option WriteBatch := do
  let rep ← countUp b.rep
  let rep ← encodeString codec (rep ++ [ValueType.value.toByte]) key
  let rep ← encodeString codec rep value
  return ⟨rep⟩

def delete (b : WriteBatch) (key : Bytes) : Option WriteBatch := do
  let rep ← countUp b.rep
  let rep ← encodeString codec (rep ++ [ValueType.deletion.toByte]) key
  return ⟨rep⟩

/-- The loop over the records. Every turn consumes the byte of a type. -/
def iterateLoop {S : Type} (handler : Handler S) : Nat → Cursor → S → Option (Bool × S)
  | 0, input, s => if input.ahead = [] then some (true, s) else none
  | fuel + 1, input, s =>
      match input.ahead with
      | [] => some (true, s)
      | type :: _ =>
          let input := input.advance 1
          match ValueType.ofByte type with
          | some .value => do
              match ← decodeString input with
              | none => return (false, s)
              | some (key, input) =>
                  match ← decodeString input with
                  | none => return (false, s)
                  | some (value, input) => iterateLoop handler fuel input (← handler.put s key value)
          | some .deletion => do
              match ← decodeString input with
              | none => return (false, s)
              | some (key, input) => iterateLoop handler fuel input (← handler.delete s key)
          | none => some (false, s)

def iterate {S : Type} (b : WriteBatch) (handler : Handler S) (s : S) : Option (Bool × S) :=
  if b.rep.length < kBatchHeaderSize then some (false, s)
  else iterateLoop handler b.rep.length ⟨b.rep.drop kBatchHeaderSize, [0]⟩ s

end WriteBatch

/-- An operation on one key, as one batch of a DB carries it. -/
inductive Mutation where
  | put (key value : Bytes)
  | delete (key : Bytes)
deriving DecidableEq, Repr

namespace Mutation

def key : Mutation → Bytes
  | put key _ => key
  | delete key => key

/-- What the MemTable holds under the key afterwards: an empty value is a tombstone. -/
def value : Mutation → Bytes
  | put _ value => value
  | delete _ => []

def batch (codec : VarintCodec) : Mutation → Option WriteBatch
  | put key value => WriteBatch.create.put codec key value
  | delete key => WriteBatch.create.delete codec key

/-- The call that adds the operation to a batch. -/
def addTo (codec : VarintCodec) (b : WriteBatch) : Mutation → Option WriteBatch
  | put key value => b.put codec key value
  | delete key => b.delete codec key

def apply {S : Type} (handler : Handler S) (s : S) : Mutation → Option S
  | put key value => handler.put s key value
  | delete key => handler.delete s key

/-- The bytes of the operation inside a batch. -/
def record (codec : VarintCodec) : Mutation → Bytes
  | put key value => ValueType.value.toByte :: (lengthPrefixed codec key ++ lengthPrefixed codec value)
  | delete key => ValueType.deletion.toByte :: lengthPrefixed codec key

/-- Both encoders come back for the operation. -/
def Encodes (codec : VarintCodec) : Mutation → Prop
  | put key value => codec.Encodes key.length ∧ codec.Encodes value.length
  | delete key => codec.Encodes key.length

end Mutation

variable {codec : VarintCodec}

theorem countUp_header : WriteBatch.countUp WriteBatch.create.rep = some (List.replicate 8 0 ++ [1, 0, 0, 0]) := by
  decide

theorem iterateLoop_nil {S : Type} (handler : Handler S) (fuel : Nat) (beyond : Bytes) (s : S) :
    WriteBatch.iterateLoop handler fuel ⟨[], beyond⟩ s = some (true, s) := by
  cases fuel <;> rfl

theorem encodeString_some {dst s out : Bytes} (h : encodeString codec dst s = some out) :
    codec.Encodes s.length ∧ out = dst ++ lengthPrefixed codec s :=
  putLengthPrefixedString_some h

theorem encodeString_isSome (dst : Bytes) {s : Bytes} (h : codec.Encodes s.length) :
    (encodeString codec dst s).isSome :=
  putLengthPrefixedString_isSome dst h

/-- The header of a batch of one operation. -/
def batchHeader : Bytes := List.replicate 8 0 ++ [1, 0, 0, 0]

theorem Mutation.batch_some {m : Mutation} {b : WriteBatch} (h : m.batch codec = some b) :
    m.Encodes codec ∧ b.rep = batchHeader ++ m.record codec := by
  cases m with
  | put key value =>
      simp only [batch, WriteBatch.put, countUp_header, Option.bind_eq_bind, Option.bind_some, Option.bind_eq_some_iff,
        Option.pure_def, Option.some.injEq] at h
      obtain ⟨r₁, h₁, r₂, h₂, rfl⟩ := h
      obtain ⟨hk, rfl⟩ := encodeString_some h₁
      obtain ⟨hv, rfl⟩ := encodeString_some h₂
      exact ⟨⟨hk, hv⟩, by simp [batchHeader, record]⟩
  | delete key =>
      simp only [batch, WriteBatch.delete, countUp_header, Option.bind_eq_bind, Option.bind_some,
        Option.bind_eq_some_iff, Option.pure_def, Option.some.injEq] at h
      obtain ⟨r₁, h₁, rfl⟩ := h
      obtain ⟨hk, rfl⟩ := encodeString_some h₁
      exact ⟨hk, by simp [batchHeader, record]⟩

theorem Mutation.batch_eq {m : Mutation} (h : m.Encodes codec) :
    m.batch codec = some ⟨batchHeader ++ m.record codec⟩ := by
  have hsome : ∃ b, m.batch codec = some b := by
    cases m with
    | put key value =>
        obtain ⟨r₁, h₁⟩ := Option.isSome_iff_exists.mp
          (encodeString_isSome (List.replicate 8 0 ++ [1, 0, 0, 0] ++ [ValueType.value.toByte]) h.1)
        obtain ⟨r₂, h₂⟩ := Option.isSome_iff_exists.mp (encodeString_isSome r₁ h.2)
        exact ⟨⟨r₂⟩, by simp only [batch, WriteBatch.put, countUp_header, h₁, h₂, Option.bind_eq_bind, Option.bind_some,
          Option.pure_def]⟩
    | delete key =>
        obtain ⟨r₁, h₁⟩ := Option.isSome_iff_exists.mp
          (encodeString_isSome (List.replicate 8 0 ++ [1, 0, 0, 0] ++ [ValueType.deletion.toByte]) h)
        exact ⟨⟨r₁⟩, by simp only [batch, WriteBatch.delete, countUp_header, h₁, Option.bind_eq_bind, Option.bind_some,
          Option.pure_def]⟩
  obtain ⟨b, hb⟩ := hsome
  rw [hb, ← (batch_some hb).2]

theorem Mutation.encodes_of_forall (h : ∀ n, codec.Encodes n) (m : Mutation) : m.Encodes codec := by
  cases m with
  | put key value => exact ⟨h _, h _⟩
  | delete key => exact h _

theorem Mutation.batch_isSome (h : ∀ n, codec.Encodes n) (m : Mutation) : (m.batch codec).isSome := by
  rw [Mutation.batch_eq (m.encodes_of_forall h), Option.isSome_some]

/-- One operation as a batch may hold it. -/
inductive IsRecord : Bytes → Mutation → Prop
  | put {kb vb key value : Bytes} (hk : EncodedAs kb key) (hv : EncodedAs vb value) :
      IsRecord (ValueType.value.toByte :: (kb ++ vb)) (.put key value)
  | delete {kb key : Bytes} (hk : EncodedAs kb key) : IsRecord (ValueType.deletion.toByte :: kb) (.delete key)

theorem IsRecord.ne_nil {bs : Bytes} {m : Mutation} (h : IsRecord bs m) : bs ≠ [] := by
  cases h <;> exact List.cons_ne_nil _ _

theorem iterateLoop_isRecord {S : Type} (handler : Handler S) {bs : Bytes} {m : Mutation} (h : IsRecord bs m)
    (fuel : Nat) (rest beyond : Bytes) (s : S) : WriteBatch.iterateLoop handler (fuel + 1) ⟨bs ++ rest, beyond⟩ s =
      (m.apply handler s).bind (WriteBatch.iterateLoop handler fuel ⟨rest, beyond⟩) := by
  cases h with
  | @put kb vb key value hk hv =>
      have hstep : Cursor.advance ⟨ValueType.value.toByte :: (kb ++ (vb ++ rest)), beyond⟩ 1 =
        ⟨kb ++ (vb ++ rest), beyond⟩ :=
        advance_append [_] _ _
      simp only [List.cons_append, List.append_assoc, WriteBatch.iterateLoop, hstep, decodeString_encodedAs hk,
        decodeString_encodedAs hv, Option.bind_eq_bind, Option.bind_some]
      rfl
  | @delete kb key hk =>
      have hstep : Cursor.advance ⟨ValueType.deletion.toByte :: (kb ++ rest), beyond⟩ 1 = ⟨kb ++ rest, beyond⟩ :=
        advance_append [_] _ _
      simp only [List.cons_append, WriteBatch.iterateLoop, hstep, decodeString_encodedAs hk, Option.bind_eq_bind,
        Option.bind_some]
      rfl

/-- No string of the operation is longer than its length can say. -/
def Mutation.Sized : Mutation → Prop
  | put key value => key.length < 2 ^ 32 ∧ value.length < 2 ^ 32
  | delete key => key.length < 2 ^ 32

theorem Mutation.isRecord {m : Mutation} (he : m.Encodes codec) (hs : m.Sized) : IsRecord (m.record codec) m := by
  cases m with
  | put key value => exact .put (encodedAs_lengthPrefixed he.1 hs.1) (encodedAs_lengthPrefixed he.2 hs.2)
  | delete key => exact .delete (encodedAs_lengthPrefixed he hs)

theorem Mutation.sized_of_record {m : Mutation} (h : (m.record codec).length < 2 ^ 32) : m.Sized := by
  cases m with
  | put key value =>
      simp only [record, List.length_cons, List.length_append, lengthPrefixed] at h
      exact ⟨by omega, by omega⟩
  | delete key =>
      simp only [record, List.length_cons, List.length_append, lengthPrefixed] at h
      exact (by omega : key.length < 2 ^ 32)

theorem Mutation.iterate_record {S : Type} (handler : Handler S) {m : Mutation} (he : m.Encodes codec)
    (hlen : (batchHeader ++ m.record codec).length < 2 ^ 32) (s : S) :
    WriteBatch.iterate ⟨batchHeader ++ m.record codec⟩ handler s = (m.apply handler s).map (fun s => (true, s)) := by
  have hhead : batchHeader.length = kBatchHeaderSize := rfl
  rw [List.length_append, hhead, kBatchHeaderSize] at hlen
  have hl : (batchHeader ++ m.record codec).length = ((m.record codec).length + 11) + 1 := by
    rw [List.length_append, hhead, kBatchHeaderSize]
    omega
  have hge : ¬ (batchHeader ++ m.record codec).length < kBatchHeaderSize := by
    rw [hl, kBatchHeaderSize]
    omega
  have hshort : (m.record codec).length < 2 ^ 32 := by omega
  have hrecord := m.isRecord he (Mutation.sized_of_record hshort)
  have hloop := iterateLoop_isRecord handler hrecord ((m.record codec).length + 11) [] [0] s
  rw [List.append_nil] at hloop
  rw [WriteBatch.iterate, if_neg hge, hl, List.drop_left' hhead, hloop]
  cases m.apply handler s with
  | none => rfl
  | some s' => exact iterateLoop_nil handler _ _ s'

end MiniStorage.Engine
