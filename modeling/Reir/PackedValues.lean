import Reir.Cells

/-! Values packed into one buffer: `serialized_length`, `serialize` and `deserialize` of the two
classes of values, where the length of a string leaves out its header. -/
namespace Reir
open ByteMemory

inductive ValType
  | int | varchar | float | unknwon
  deriving DecidableEq, Repr

namespace Value

def valType : Value → ValType
  | .int _ => .int
  | .varchar _ => .varchar
  | .float _ => .float
  | .unknown => .unknwon

def serializedLength : Value → Option ℕ
  | .int _ => some 8
  | .varchar s => some s.length
  | .float _ => some 8
  | .unknown => none

def serialize (v : Value) (m : Memory) (off : ℕ) : Option Memory :=
  match v with
  | .int x => some (write m off (wordBytes x))
  | .varchar s => some (write (write m off (wordBytes (BitVec.ofNat 64 s.length))) (off+8) s)
  | .float bits => some (write m off (wordBytes bits))
  | .unknown => none

def deserialize (as : ValType) (m : Memory) (off : ℕ) : Option Value :=
  match as with
  | .int => some (.int (wordOf (read m off 8)))
  | .varchar => some (.varchar (read m (off+8) (wordOf (read m off 8)).toNat))
  | .float => some (.float (wordOf (read m off 8)))
  | .unknwon => none

end Value

namespace MaybeValue

def serializedLength : MaybeValue → Option ℕ
  | none => some 1
  | some v => v.serializedLength.map (1 + ·)

def serialize (v : MaybeValue) (m : Memory) (off : ℕ) : Option Memory :=
  match v with
  | none => some (write m off [0])
  | some v => v.serialize (write m off [1]) (off+1)

/-- Into a fresh value: every byte but a one is a null. -/
def deserialize (as : ValType) (m : Memory) (off : ℕ) : Option MaybeValue :=
  if m off = 1 then (Value.deserialize as m (off+1)).map some else some none

end MaybeValue

/-- Values one after another, each at the sum of the lengths of those before it. -/
def packValues : List MaybeValue → ℕ → Memory → Option Memory
  | [], _, m => some m
  | v :: vs, off, m => do
    let m ← MaybeValue.serialize v m off
    let n ← MaybeValue.serializedLength v
    packValues vs (off+n) m

/-- Values read from the same places, each with a type. -/
def unpackValues : List (MaybeValue × ValType) → ℕ → Memory → Option (List MaybeValue)
  | [], _, _ => some []
  | c :: cs, off, m => do
    let v ← MaybeValue.deserialize c.2 m off
    let n ← MaybeValue.serializedLength c.1
    let vs ← unpackValues cs (off+n) m
    pure (v :: vs)

/-- A value that has a type and is read with it; a null is read with any. -/
def Packable (c : MaybeValue × ValType) : Prop :=
  ∀ v, c.1 = some v → v ≠ .unknown ∧ v.Sized ∧ c.2 = v.valType

/-- The flag and what stands behind it. -/
def MaybeValue.bytes : MaybeValue → List UInt8
  | none => [0]
  | some v => 1 :: v.bytes

/-- The bytes of every value where `packValues` puts them. -/
def chunks : List MaybeValue → ℕ → List Chunk
  | [], _ => []
  | v :: vs, off => (off, MaybeValue.bytes v) ::
      chunks vs (off + (MaybeValue.serializedLength v).getD 0)

theorem Value.serialize_eq {v : Value} (h : v ≠ .unknown) (m : Memory) (off : ℕ) :
    v.serialize m off = some (write m off v.bytes) := by
  cases v with
  | int x => rfl
  | varchar s =>
    have happend := write_append m off (wordBytes (BitVec.ofNat 64 s.length)) s
    rw [wordBytes_length] at happend
    rw [Value.serialize, happend]
    rfl
  | float bits => rfl
  | unknown => exact absurd rfl h

theorem Value.serializedLength_isSome {v : Value} (h : v ≠ .unknown) :
    ∃ n, v.serializedLength = some n := by
  cases v with
  | int x => exact ⟨8, rfl⟩
  | varchar s => exact ⟨s.length, rfl⟩
  | float bits => exact ⟨8, rfl⟩
  | unknown => exact absurd rfl h

theorem wordOf_eq_iff (m : Memory) (off : ℕ) (x : BitVec 64) :
    wordOf (read m off 8) = x ↔ read m off 8 = wordBytes x := by
  constructor
  · rintro rfl
    exact (wordBytes_wordOf (read_length m off 8)).symm
  · exact wordOf_read

/-- A value is read exactly where its bytes are. -/
theorem Value.deserialize_iff {v : Value} (h : v ≠ .unknown) (hsize : v.Sized) (m : Memory)
    (off : ℕ) : Value.deserialize v.valType m off = some v ↔ read m off v.bytes.length = v.bytes := by
  cases v with
  | int x =>
    have hword := wordOf_eq_iff m off x
    simpa [valType, deserialize, bytes] using hword
  | varchar s =>
    constructor
    · intro hread
      have hchars : read m (off+8) (wordOf (read m off 8)).toNat = s := by
        simpa [valType, deserialize] using hread
      have hlen := congrArg List.length hchars
      rw [read_length] at hlen
      have hword : wordOf (read m off 8) = BitVec.ofNat 64 s.length := by
        rw [← hlen, BitVec.ofNat_toNat, BitVec.setWidth_eq]
      rw [hlen] at hchars
      rw [bytes, List.length_append, wordBytes_length, read_add, (wordOf_eq_iff m off _).mp hword, hchars]
    · intro hread
      rw [valType, deserialize, read_string hsize hread]
  | float bits =>
    have hword := wordOf_eq_iff m off bits
    simpa [valType, deserialize, bytes] using hword
  | unknown => exact absurd rfl h

namespace MaybeValue
variable {c : MaybeValue × ValType}

theorem serialize_eq (h : Packable c) (m : Memory) (off : ℕ) :
    serialize c.1 m off = some (write m off (bytes c.1)) := by
  obtain ⟨v, t⟩ := c
  cases v with
  | none => rfl
  | some v =>
    have happend := write_append m off [1] v.bytes
    rw [List.length_singleton] at happend
    simp only [serialize, Value.serialize_eq (h v rfl).1, happend]
    rfl

theorem serializedLength_isSome (h : Packable c) : ∃ n, serializedLength c.1 = some n := by
  obtain ⟨v, t⟩ := c
  cases v with
  | none => exact ⟨1, rfl⟩
  | some v =>
    obtain ⟨n, hn⟩ := Value.serializedLength_isSome (h v rfl).1
    exact ⟨1+n, by simp [serializedLength, hn]⟩

/-- A null is read back wherever its flag is, another value exactly where all its bytes are. -/
theorem deserialize_iff (h : Packable c) {m : Memory} {off : ℕ}
    (hnull : c.1 = none → Holds m (off, [0])) :
    deserialize c.2 m off = some c.1 ↔ Holds m (off, bytes c.1) := by
  obtain ⟨v, t⟩ := c
  cases v with
  | none =>
    have hheld := hnull rfl
    have hflag : m off = 0 := hheld off 0 (by simp [Chunk.at])
    simp [deserialize, hflag, bytes, hheld]
  | some v =>
    obtain ⟨hv, hsize, ht⟩ := h v rfl
    obtain rfl : t = v.valType := ht
    have hone : read m off 1 = [1] ↔ m off = 1 := by simp [ByteMemory.read]
    rw [holds_iff_read, bytes, List.length_cons, Nat.add_comm, read_add, deserialize]
    split_ifs with hflag
    · have hread := Value.deserialize_iff hv hsize m (off+1)
      rw [hone.mpr hflag, List.singleton_append, List.cons.injEq, ← hread]
      simp
    · simp only [Option.some.injEq, reduceCtorEq, false_iff]
      intro hheld
      have hhead := congrArg (fun bs => bs[0]?) hheld
      exact hflag (by simpa [ByteMemory.read] using hhead)

end MaybeValue

theorem le_of_mem_chunks {vs : List MaybeValue} {off : ℕ} {d : Chunk} (h : d ∈ chunks vs off) :
    off ≤ d.1 := by
  induction vs generalizing off with
  | nil => simp [chunks] at h
  | cons v vs ih =>
    rcases List.mem_cons.mp h with rfl | h
    · exact le_rfl
    · have hle := ih h
      omega

/-- A value whose length counts all its bytes contradicts nothing behind it. -/
theorem agree_chunks_of_exact {v : MaybeValue} {n : ℕ} (hn : (MaybeValue.bytes v).length ≤ n)
    (vs : List MaybeValue) (off : ℕ) :
    ∀ d ∈ chunks vs (off+n), Chunk.Agree (off, MaybeValue.bytes v) d := by
  intro d hd
  have hle := le_of_mem_chunks hd
  exact agree_of_le (show off + (MaybeValue.bytes v).length ≤ d.1 by omega)

/-- Where only the last length leaves bytes out, nothing is written over. -/
theorem chunks_pairwise_of_exact {vs : List MaybeValue}
    (h : ∀ v ∈ vs.dropLast, MaybeValue.serializedLength v = some (MaybeValue.bytes v).length)
    (off : ℕ) : (chunks vs off).Pairwise Chunk.Agree := by
  induction vs generalizing off with
  | nil => exact List.Pairwise.nil
  | cons v vs ih =>
    cases vs with
    | nil => exact List.pairwise_singleton _ _
    | cons w vs =>
      rw [List.dropLast_cons_cons, List.forall_mem_cons] at h
      have hagree := agree_chunks_of_exact le_rfl (w :: vs) off (v := v)
      rw [chunks, h.1, Option.getD_some]
      exact List.Pairwise.cons hagree (ih h.2 _)

section
variable {cs : List (MaybeValue × ValType)}

theorem packValues_eq (h : ∀ c ∈ cs, Packable c) (m : Memory) (off : ℕ) :
    packValues (cs.map Prod.fst) off m = some (writeAll m (chunks (cs.map Prod.fst) off)) := by
  induction cs generalizing m off with
  | nil => rfl
  | cons c cs ih =>
    rw [List.forall_mem_cons] at h
    obtain ⟨n, hn⟩ := MaybeValue.serializedLength_isSome h.1
    have hrest := ih h.2 (write m off (MaybeValue.bytes c.1)) (off+n)
    simp only [List.map_cons, packValues, MaybeValue.serialize_eq h.1, hn, Option.bind_eq_bind,
      Option.bind_some, hrest, chunks, Option.getD_some]
    rfl

theorem unpackValues_cons_iff {c : MaybeValue × ValType} {n : ℕ}
    (hn : MaybeValue.serializedLength c.1 = some n) (m : Memory) (off : ℕ) :
    unpackValues (c :: cs) off m = some (c.1 :: cs.map Prod.fst) ↔
      MaybeValue.deserialize c.2 m off = some c.1 ∧ unpackValues cs (off+n) m = some (cs.map Prod.fst) := by
  simp only [unpackValues, hn, Option.bind_eq_bind, Option.bind_some]
  cases MaybeValue.deserialize c.2 m off with
  | none => simp
  | some v =>
    cases unpackValues cs (off+n) m with
    | none => simp
    | some vs => simp

/-- The list is read back from the bytes it was packed into exactly where they all still stand. -/
theorem unpackValues_iff (h : ∀ c ∈ cs, Packable c) (m : Memory) (off : ℕ) :
    unpackValues cs off (writeAll m (chunks (cs.map Prod.fst) off)) = some (cs.map Prod.fst) ↔
      ∀ d ∈ chunks (cs.map Prod.fst) off, Holds (writeAll m (chunks (cs.map Prod.fst) off)) d := by
  induction cs generalizing m off with
  | nil => simp [unpackValues, chunks]
  | cons c cs ih =>
    rw [List.forall_mem_cons] at h
    obtain ⟨n, hn⟩ := MaybeValue.serializedLength_isSome h.1
    have hchunks : chunks (c.1 :: cs.map Prod.fst) off =
        (off, MaybeValue.bytes c.1) :: chunks (cs.map Prod.fst) (off+n) := by
      rw [chunks, hn, Option.getD_some]
    rw [List.map_cons, hchunks, unpackValues_cons_iff hn, List.forall_mem_cons]
    have hrest := ih h.2 (write m off (MaybeValue.bytes c.1)) (off+n)
    change unpackValues cs (off+n) (writeAll m ((off, MaybeValue.bytes c.1) :: _)) = _ ↔ _ at hrest
    rw [hrest, MaybeValue.deserialize_iff h.1]
    · rfl
    · intro hnull
      have hone : n = 1 := by
        rw [hnull] at hn
        exact (Option.some.inj hn).symm
      have hagree := agree_chunks_of_exact (v := c.1) (n := n) (by rw [hnull, hone]; rfl)
        (cs.map Prod.fst) off
      have hheld := holds_writeAll (holds_write m (off, MaybeValue.bytes c.1)) hagree
      rw [hnull] at hheld ⊢
      exact hheld

end

/-- `serialize` writes eight bytes more of a string than `serialized_length` counts. Lists are
read back exactly if the values written over these bytes put the same bytes there. -/
theorem pack_unpack_iff {cs : List (MaybeValue × ValType)} (h : ∀ c ∈ cs, Packable c) (m : Memory) :
    (packValues (cs.map Prod.fst) 0 m).bind (unpackValues cs 0) = some (cs.map Prod.fst) ↔
      (chunks (cs.map Prod.fst) 0).Pairwise Chunk.Agree := by
  rw [packValues_eq h, Option.bind_some, unpackValues_iff h, writeAll_holds_iff]

/-- A list with its only string at the end. -/
def stringLast : List (MaybeValue × ValType) :=
  [(some (.int 5), .int), (none, .int), (some (.varchar (text "ab")), .varchar)]

theorem packable_stringLast : ∀ c ∈ stringLast, Packable c := by
  intro c hc v hv
  simp only [stringLast, List.mem_cons, List.not_mem_nil, or_false] at hc
  rcases hc with rfl | rfl | rfl
  · obtain rfl := Option.some.inj hv
    exact ⟨by simp, trivial, rfl⟩
  · simp at hv
  · obtain rfl := Option.some.inj hv
    exact ⟨by simp, show 2 < 2^64 by decide, rfl⟩

theorem pack_unpack_iff_stringLast :
    (packValues (stringLast.map Prod.fst) 0 fun _ => 0).bind (unpackValues stringLast 0) =
        some (stringLast.map Prod.fst) ↔
      (chunks (stringLast.map Prod.fst) 0).Pairwise Chunk.Agree :=
  pack_unpack_iff packable_stringLast fun _ => 0

/-- A string of eight characters in front of a null, whose flag is written over the first of
them. -/
theorem stringFirst_not_unpacked :
    (packValues [some (.varchar (text "abcdefgh")), none] 0 fun _ => 0).bind
        (unpackValues [(some (.varchar (text "abcdefgh")), .varchar), (none, .int)] 0) ≠
      some [some (.varchar (text "abcdefgh")), none] := by
  decide

end Reir
