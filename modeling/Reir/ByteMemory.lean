import Mathlib

/-! Byte-addressed memory, little-endian words and the lexicographic order of byte strings. -/
namespace Reir.ByteMemory

/-- The contents of a memory area from its base address on. -/
abbrev Memory := ℕ → UInt8

def read (m : Memory) (off len : ℕ) : List UInt8 := (List.range len).map fun k => m (off+k)

def write (m : Memory) (off : ℕ) (bs : List UInt8) : Memory :=
  fun a => if off ≤ a then (bs[a-off]?).getD (m a) else m a

/-- `memcpy(dst + dstOff, src + srcOff, len)` between two areas. -/
def memcpy (dst : Memory) (dstOff : ℕ) (src : Memory) (srcOff len : ℕ) : Memory :=
  write dst dstOff (read src srcOff len)

@[simp] theorem read_length (m : Memory) (off len : ℕ) : (read m off len).length = len := by
  simp [read]

theorem read_zero (m : Memory) (off : ℕ) : read m off 0 = [] := rfl

theorem read_add (m : Memory) (off a b : ℕ) :
    read m off (a+b) = read m off a ++ read m (off+a) b := by
  simp [read, List.range_add, Nat.add_assoc]

theorem read_congr {m m' : Memory} {off len : ℕ} (h : ∀ k < len, m (off+k) = m' (off+k)) :
    read m off len = read m' off len := by
  apply List.map_congr_left
  intro k hk
  exact h k (List.mem_range.mp hk)

theorem write_of_lt {m : Memory} {off a : ℕ} {bs : List UInt8} (h : a < off) :
    write m off bs a = m a := by
  rw [write, if_neg (by omega)]

theorem read_write (m : Memory) (off : ℕ) (bs : List UInt8) :
    read (write m off bs) off bs.length = bs := by
  apply List.ext_getElem
  · simp
  · intro i hi hi'
    simp [read, write, hi']

/-- Bytes written right behind what has been written before extend it. -/
theorem read_write_append (m : Memory) (off : ℕ) (bs : List UInt8) :
    read (write m off bs) 0 (off+bs.length) = read m 0 off ++ bs := by
  have hlow : read (write m off bs) 0 off = read m 0 off := by
    apply read_congr
    intro k hk
    exact write_of_lt (by omega)
  rw [read_add, hlow, Nat.zero_add, read_write]

/-- Written right behind one another, two byte strings are one. -/
theorem write_append (m : Memory) (off : ℕ) (xs ys : List UInt8) :
    write (write m off xs) (off+xs.length) ys = write m off (xs ++ ys) := by
  funext a
  simp only [write, List.getElem?_append]
  by_cases hoff : off ≤ a
  · by_cases ha : off+xs.length ≤ a
    · have hlt : ¬a-off < xs.length := by omega
      have hsub : a-(off+xs.length) = a-off-xs.length := by omega
      simp [hoff, ha, hlt, hsub]
    · have hlt : a-off < xs.length := by omega
      simp [hoff, ha, hlt]
  · have ha : ¬off+xs.length ≤ a := by omega
    simp [hoff, ha]

theorem write_write_append (m : Memory) (xs ys : List UInt8) :
    write (write m 0 xs) xs.length ys = write m 0 (xs ++ ys) := by
  have h := write_append m 0 xs ys
  rwa [Nat.zero_add] at h

theorem read_memcpy_append (dst : Memory) (dstOff : ℕ) (src : Memory) (srcOff len : ℕ) :
    read (memcpy dst dstOff src srcOff len) 0 (dstOff+len) =
      read dst 0 dstOff ++ read src srcOff len := by
  have h := read_write_append dst dstOff (read src srcOff len)
  rwa [read_length] at h

theorem drop_take_read (m : Memory) (off len a b : ℕ) (h : a + b ≤ len) :
    ((read m off len).drop a).take b = read m (off+a) b := by
  obtain ⟨c, rfl⟩ : ∃ c, len = a+(b+c) := ⟨len-a-b, by omega⟩
  rw [read_add, List.drop_left' (read_length m off a), read_add,
    List.take_left' (read_length m (off+a) b)]

section Chunks

/-- Bytes with the address of the first of them. -/
abbrev Chunk := ℕ × List UInt8

def Chunk.at (c : Chunk) (a : ℕ) : Option UInt8 := if c.1 ≤ a then c.2[a-c.1]? else none

def Holds (m : Memory) (c : Chunk) : Prop := ∀ a b, c.at a = some b → m a = b

/-- Where two chunks share addresses, they have the same bytes there. -/
def Chunk.Agree (c d : Chunk) : Prop := ∀ a b b', c.at a = some b → d.at a = some b' → b = b'

def writeAll (m : Memory) (cs : List Chunk) : Memory := cs.foldl (fun m c => write m c.1 c.2) m

variable {m : Memory} {c d : Chunk} {cs : List Chunk}

theorem write_chunk (m : Memory) (c : Chunk) (a : ℕ) : write m c.1 c.2 a = (c.at a).getD (m a) := by
  rw [write, Chunk.at]
  split_ifs with ha
  · rfl
  · rfl

theorem Chunk.at_isSome_iff {a : ℕ} : (c.at a).isSome ↔ c.1 ≤ a ∧ a < c.1+c.2.length := by
  rw [Chunk.at]
  split_ifs with ha
  · simp [ha]
    omega
  · simp [ha]

theorem holds_write (m : Memory) (c : Chunk) : Holds (write m c.1 c.2) c := by
  intro a b hb
  rw [write_chunk, hb, Option.getD_some]

theorem holds_write_of_agree (h : Holds m c) (hagree : c.Agree d) : Holds (write m d.1 d.2) c := by
  intro a b hb
  rw [write_chunk]
  cases hd : d.at a with
  | none => exact h a b hb
  | some b' => exact (hagree a b b' hb hd).symm

theorem holds_writeAll (h : Holds m c) (hagree : ∀ d ∈ cs, c.Agree d) : Holds (writeAll m cs) c := by
  induction cs generalizing m with
  | nil => exact h
  | cons d cs ih =>
    rw [List.forall_mem_cons] at hagree
    exact ih (holds_write_of_agree h hagree.1) hagree.2

/-- Chunks are all in memory in the end exactly when no two of them contradict each other. -/
theorem writeAll_holds_iff (m : Memory) (cs : List Chunk) :
    (∀ c ∈ cs, Holds (writeAll m cs) c) ↔ cs.Pairwise Chunk.Agree := by
  constructor
  · intro h
    refine List.pairwise_of_forall_mem_list fun c hc d hd a b b' hb hb' => ?_
    rw [← h c hc a b hb, ← h d hd a b' hb']
  · intro h
    induction h generalizing m with
    | nil => simp
    | @cons c cs hagree _ ih =>
      rw [List.forall_mem_cons]
      have hc := holds_writeAll (holds_write m c) hagree
      exact ⟨hc, ih (write m c.1 c.2)⟩

theorem agree_of_le (h : c.1+c.2.length ≤ d.1) : c.Agree d := by
  intro a b b' hb hb'
  have hc := Chunk.at_isSome_iff.mp (Option.isSome_of_eq_some hb)
  have hd := Chunk.at_isSome_iff.mp (Option.isSome_of_eq_some hb')
  omega

theorem holds_iff_read : Holds m c ↔ read m c.1 c.2.length = c.2 := by
  constructor
  · intro h
    apply List.ext_getElem (by simp)
    intro k hk hk'
    have hat : c.at (c.1+k) = some c.2[k] := by simp [Chunk.at, hk']
    simpa [read] using h (c.1+k) c.2[k] hat
  · intro h a b hb
    have hc := Chunk.at_isSome_iff.mp (Option.isSome_of_eq_some hb)
    obtain ⟨k, rfl⟩ : ∃ k, a = c.1+k := ⟨a-c.1, by omega⟩
    have hk : k < c.2.length := by omega
    have hbyte : c.2[k] = b := by simpa [Chunk.at, hk] using hb
    have hread := congrArg (fun bs => bs[k]?) h
    simp only [read, List.getElem?_map, List.getElem?_range hk, Option.map_some,
      List.getElem?_eq_getElem hk, Option.some.injEq] at hread
    rw [hread, hbyte]

end Chunks

/-- The eight bytes of a word, least significant first. -/
def wordBytes (v : BitVec 64) : List UInt8 :=
  (List.range 8).map fun i => UInt8.ofNat (v.toNat / 256^i)

def wordOf (bs : List UInt8) : BitVec 64 :=
  BitVec.ofNat 64 (Nat.ofDigits 256 (bs.map UInt8.toNat))

@[simp] theorem wordBytes_length (v : BitVec 64) : (wordBytes v).length = 8 := by
  simp [wordBytes]

theorem wordOf_wordBytes (v : BitVec 64) : wordOf (wordBytes v) = v := by
  apply BitVec.eq_of_toNat_eq
  have hv := v.isLt
  simp only [wordOf, wordBytes, List.map_map, BitVec.toNat_ofNat]
  simp only [List.range, List.range.loop, List.map_cons, List.map_nil, Function.comp_apply,
    UInt8.toNat_ofNat', Nat.ofDigits_cons, Nat.ofDigits_nil]
  omega

/-- Eight bytes are the bytes of the word they form. -/
theorem wordBytes_wordOf {bs : List UInt8} (h : bs.length = 8) : wordBytes (wordOf bs) = bs := by
  match bs, h with
  | [b₀, b₁, b₂, b₃, b₄, b₅, b₆, b₇], _ =>
    have h₀ := b₀.toNat_lt
    have h₁ := b₁.toNat_lt
    have h₂ := b₂.toNat_lt
    have h₃ := b₃.toNat_lt
    have h₄ := b₄.toNat_lt
    have h₅ := b₅.toNat_lt
    have h₆ := b₆.toNat_lt
    have h₇ := b₇.toNat_lt
    simp only [wordBytes, wordOf, List.range, List.range.loop, List.map_cons, List.map_nil,
      Nat.ofDigits_cons, Nat.ofDigits_nil, BitVec.toNat_ofNat, List.cons.injEq, and_true,
      ← UInt8.toNat_inj, UInt8.toNat_ofNat']
    omega

theorem wordOf_getElem_zero {bs : List UInt8} {b : UInt8} :
    (wordOf (b :: bs)).toNat % 256 = b.toNat := by
  have hb := b.toNat_lt
  simp only [wordOf, List.map_cons, Nat.ofDigits_cons, BitVec.toNat_ofNat]
  omega

section Order
variable {p a b k r : List UInt8}

theorem append_lt_append_iff : p ++ a < p ++ b ↔ a < b := by
  induction p with
  | nil => rfl
  | cons x p ih =>
    rw [List.cons_append, List.cons_append, List.cons_lt_cons_iff]
    simp [ih]

theorem append_le_append_iff : p ++ a ≤ p ++ b ↔ a ≤ b := by
  rw [← List.not_lt, ← List.not_lt, append_lt_append_iff]

/-- Between two strings with a common stem there are only strings with that stem. -/
theorem exists_append_of_between (h₁ : p ++ a ≤ k) (h₂ : k < p ++ b) : ∃ r, k = p ++ r := by
  induction p generalizing k with
  | nil => exact ⟨k, rfl⟩
  | cons x p ih =>
    cases k with
    | nil => simp at h₁
    | cons y k =>
      rw [← List.not_lt, List.cons_append, List.cons_lt_cons_iff] at h₁
      rw [List.cons_append, List.cons_lt_cons_iff] at h₂
      have hxy : y = x := by
        rcases h₂ with h | ⟨h, _⟩
        · exact absurd (.inl h) h₁
        · exact h
      subst hxy
      have hk : k < p ++ b := by
        rcases h₂ with h | ⟨_, h⟩
        · exact absurd h (UInt8.lt_irrefl y)
        · exact h
      have hp : p ++ a ≤ k := by
        rw [← List.not_lt]
        intro h
        exact h₁ (.inr ⟨rfl, h⟩)
      obtain ⟨r, rfl⟩ := ih hp hk
      exact ⟨r, rfl⟩

theorem between_iff : (p ++ a ≤ k ∧ k < p ++ b) ↔ ∃ r, k = p ++ r ∧ a ≤ r ∧ r < b := by
  constructor
  · rintro ⟨h₁, h₂⟩
    obtain ⟨r, rfl⟩ := exists_append_of_between h₁ h₂
    exact ⟨r, rfl, append_le_append_iff.mp h₁, append_lt_append_iff.mp h₂⟩
  · rintro ⟨r, rfl, h₁, h₂⟩
    exact ⟨append_le_append_iff.mpr h₁, append_lt_append_iff.mpr h₂⟩

end Order

end Reir.ByteMemory
