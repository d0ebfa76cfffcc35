import Reir.ByteMemory
import Reir.Schema

/-! The bytes of a row. `Insert` copies the columns of the tuple into a key and a value
buffer with the default size of each column as its stride; `Scan` reads both back with a
stride of eight. -/
namespace Reir
open ByteMemory

/-- What `Insert` reads of a column: `is_key` and `get_tuple_length`. -/
structure Cell where
  isKey : Bool
  size : ℕ
  deriving DecidableEq, Repr

def Attribute.cell (a : Attribute) : Option Cell := a.defaultSize.map fun n => ⟨a.isKey, n⟩

/-- One `memcpy` of the loop of `Insert::codegen`. -/
structure CellCopy where
  toKey : Bool
  dst : ℕ
  src : ℕ
  len : ℕ
  deriving DecidableEq, Repr

/-- The loop of `Insert::codegen`: the copies, and the final `key_idx` and `value_idx`. -/
def insertCopies : List Cell → (keyIdx valueIdx offset : ℕ) → List CellCopy × ℕ × ℕ
  | [], keyIdx, valueIdx, _ => ([], keyIdx, valueIdx)
  | c :: cs, keyIdx, valueIdx, offset =>
    if c.isKey then
      let r := insertCopies cs (keyIdx+c.size) valueIdx (offset+c.size)
      (⟨true, keyIdx, offset, c.size⟩ :: r.1, r.2)
    else
      let r := insertCopies cs keyIdx (valueIdx+c.size) (offset+c.size)
      (⟨false, valueIdx, offset, c.size⟩ :: r.1, r.2)

/-- The key and the value buffer after the copies from the tuple. -/
def runCopies (tuple : Memory) : List CellCopy → Memory × Memory → Memory × Memory
  | [], bufs => bufs
  | c :: cs, bufs =>
    if c.toKey then runCopies tuple cs (memcpy bufs.1 c.dst tuple c.src c.len, bufs.2)
    else runCopies tuple cs (bufs.1, memcpy bufs.2 c.dst tuple c.src c.len)

/-- The memory of `tuple_stack_`: the words of the row, then whatever follows it. -/
def tupleMemory (row : List (BitVec 64)) (after : Memory) : Memory :=
  fun a => ((row.flatMap wordBytes)[a]?).getD (after (a - 8*row.length))

/-- The key and the value that `Insert` passes on, with the previous contents of its three
buffers as arguments. -/
def insertRecord (s : Schema) (row : List (BitVec 64)) (after key value : Memory) :
    Option (Text × Text) := do
  let cells ← s.attrs.mapM Attribute.cell
  let keyPrefix := s.getKeyPrefix
  let plan := insertCopies cells keyPrefix.length 0 0
  let bufs := runCopies (tupleMemory row after) plan.1 (write key 0 keyPrefix, value)
  pure (read bufs.1 0 plan.2.1, read bufs.2 0 plan.2.2)

/-- The loads of `Scan::codegen`, each from the key or the value buffer at an offset. -/
def scanLoads : List Attribute → (keyOffset valueOffset : ℕ) → List (Bool × ℕ)
  | [], _, _ => []
  | a :: as, keyOffset, valueOffset =>
    if a.isKey then (true, keyOffset) :: scanLoads as (keyOffset+8) valueOffset
    else (false, valueOffset) :: scanLoads as keyOffset (valueOffset+8)

/-- The row assembled from a stored key and value, with the previous contents of the two
buffers as arguments. -/
def scanRecord (s : Schema) (record : Text × Text) (key value : Memory) : List (BitVec 64) :=
  let keyBuf := write key 0 record.1
  let valueBuf := write value 0 record.2
  (scanLoads s.attrs s.getKeyPrefix.length 0).map fun l =>
    wordOf (read (if l.1 then keyBuf else valueBuf) l.2 8)

/-- The bytes the loop of `Insert` appends to one of the buffers. -/
def stream (tuple : Memory) (toKey : Bool) : List Cell → ℕ → List UInt8
  | [], _ => []
  | c :: cs, offset =>
    if c.isKey = toKey then read tuple offset c.size ++ stream tuple toKey cs (offset+c.size)
    else stream tuple toKey cs (offset+c.size)

theorem insertCopies_run (tuple : Memory) (cs : List Cell) (keyIdx valueIdx offset : ℕ)
    (key value : Memory) :
    let plan := insertCopies cs keyIdx valueIdx offset
    let bufs := runCopies tuple plan.1 (key, value)
    read bufs.1 0 plan.2.1 = read key 0 keyIdx ++ stream tuple true cs offset ∧
      read bufs.2 0 plan.2.2 = read value 0 valueIdx ++ stream tuple false cs offset := by
  induction cs generalizing keyIdx valueIdx offset key value with
  | nil => simp [insertCopies, runCopies, stream]
  | cons c cs ih =>
    cases hk : c.isKey with
    | true =>
      have ih := ih (keyIdx+c.size) valueIdx (offset+c.size)
        (memcpy key keyIdx tuple offset c.size) value
      rw [read_memcpy_append] at ih
      simpa [insertCopies, runCopies, stream, hk, List.append_assoc] using ih
    | false =>
      have ih := ih keyIdx (valueIdx+c.size) (offset+c.size) key
        (memcpy value valueIdx tuple offset c.size)
      rw [read_memcpy_append] at ih
      simpa [insertCopies, runCopies, stream, hk, List.append_assoc] using ih

/-- What `Insert` stores: the prefix and the key columns, and the other columns. -/
theorem insertRecord_eq {s : Schema} {cells : List Cell} (h : s.attrs.mapM Attribute.cell = some cells)
    (row : List (BitVec 64)) (after key value : Memory) :
    insertRecord s row after key value =
      some (s.getKeyPrefix ++ stream (tupleMemory row after) true cells 0,
        stream (tupleMemory row after) false cells 0) := by
  have hrun := insertCopies_run (tupleMemory row after) cells s.getKeyPrefix.length 0 0
    (write key 0 s.getKeyPrefix) value
  have hname : read (write key 0 s.getKeyPrefix) 0 s.getKeyPrefix.length = s.getKeyPrefix :=
    read_write key 0 s.getKeyPrefix
  simp only [hname, read_zero, List.nil_append] at hrun
  simp [insertRecord, h, hrun.1, hrun.2]

/-- The load positions do not depend on the strides of `Insert`. -/
theorem scanRecord_eq (s : Schema) (ks vs : Text) (key value : Memory) :
    scanRecord s (s.getKeyPrefix ++ ks, vs) key value =
      (scanLoads s.attrs 0 0).map fun l =>
        wordOf (read (if l.1 then write (fun a => key (s.getKeyPrefix.length+a)) 0 ks
          else write value 0 vs) l.2 8) := by
  have hshift : ∀ (as : List Attribute) (k v n : ℕ), scanLoads as (n+k) v =
      (scanLoads as k v).map fun l => (l.1, if l.1 then n+l.2 else l.2) := by
    intro as
    induction as with
    | nil => intro k v n; rfl
    | cons a as ih =>
      intro k v n
      cases hk : a.isKey with
      | true => simp [scanLoads, hk, ← ih (k+8) v n, Nat.add_assoc]
      | false => simp [scanLoads, hk, ← ih k (v+8) n]
  have hread : ∀ n, read (write key 0 (s.getKeyPrefix ++ ks)) (s.getKeyPrefix.length+n) 8 =
      read (write (fun a => key (s.getKeyPrefix.length+a)) 0 ks) n 8 := by
    intro n
    apply List.map_congr_left
    intro k _
    simp only [write, Nat.zero_le, if_true, Nat.sub_zero]
    rw [List.getElem?_append_right (by omega), Nat.add_assoc, Nat.add_sub_cancel_left]
  have hloads := hshift s.attrs 0 0 s.getKeyPrefix.length
  rw [Nat.add_zero] at hloads
  simp only [scanRecord, hloads, List.map_map]
  apply List.map_congr_left
  intro l _
  cases hl : l.1 with
  | true => simp [hl, hread]
  | false => simp [hl]

/-- Every column is an `int`; its properties are arbitrary. -/
def Schema.IntColumns (s : Schema) : Prop := ∀ a ∈ s.attrs, a.type.kind = .integer

def intCell (a : Attribute) : Cell := ⟨a.isKey, if a.isNullable then 9 else 8⟩

theorem mapM_cell {as : List Attribute} (h : ∀ a ∈ as, a.type.kind = .integer) :
    as.mapM Attribute.cell = some (as.map intCell) := by
  induction as with
  | nil => rfl
  | cons a as ih =>
    have hcell : a.cell = some (intCell a) := by
      have hint := h a (by simp)
      by_cases hn : a.isNullable = true
      · simp [Attribute.cell, Attribute.defaultSize, intCell, AttrType.defaultSize, hn, hint]
      · simp [Attribute.cell, Attribute.defaultSize, intCell, AttrType.defaultSize, hn, hint]
    rw [List.mapM_cons, hcell, ih fun b hb => h b (List.mem_cons_of_mem a hb)]
    rfl

theorem intCell_size_ge (a : Attribute) : 8 ≤ (intCell a).size := by
  unfold intCell
  split_ifs <;> simp

/-- The words that the loads of `Scan` take out of two byte strings. -/
def loadWords (ks vs : List UInt8) (as : List Attribute) (keyOffset valueOffset : ℕ) :
    List (BitVec 64) :=
  (scanLoads as keyOffset valueOffset).map fun l =>
    wordOf (((if l.1 then ks else vs).drop l.2).take 8)

/-- Every load lies within what `Insert` has written. -/
theorem scanLoads_bound (tuple : Memory) (as : List Attribute) (ko vo off : ℕ) :
    ∀ l ∈ scanLoads as ko vo, l.2 + 8 ≤ (if l.1 then ko else vo) +
      (stream tuple l.1 (as.map intCell) off).length := by
  induction as generalizing ko vo off with
  | nil => simp [scanLoads]
  | cons a as ih =>
    have hsize := intCell_size_ge a
    have hkey : (intCell a).isKey = a.isKey := rfl
    intro l hl
    cases hk : a.isKey with
    | true =>
      rw [scanLoads, if_pos hk] at hl
      rcases List.mem_cons.mp hl with rfl | hl
      · simp only [List.map_cons, stream, hkey, hk, if_true, List.length_append, read_length]
        omega
      · have h := ih (ko+8) vo (off+(intCell a).size) l hl
        cases hl1 : l.1 with
        | true =>
          simp only [hl1, if_true] at h
          simp only [List.map_cons, stream, hkey, hk, if_true, List.length_append, read_length]
          omega
        | false =>
          simpa [hl1, stream, hkey, hk] using h
    | false =>
      rw [scanLoads, if_neg (by simp [hk])] at hl
      rcases List.mem_cons.mp hl with rfl | hl
      · simp only [List.map_cons, stream, hkey, hk, if_true, List.length_append, read_length]
        simp only [Bool.false_eq_true, if_false]
        omega
      · have h := ih ko (vo+8) (off+(intCell a).size) l hl
        cases hl1 : l.1 with
        | true => simpa [hl1, stream, hkey, hk] using h
        | false =>
          simp only [hl1, Bool.false_eq_true, if_false] at h
          simp only [List.map_cons, stream, hkey, hk, if_true, List.length_append, read_length]
          simp only [Bool.false_eq_true, if_false]
          omega

/-- Insert followed by Scan, as loads from the two streams. -/
theorem scan_insert {s : Schema} (h : s.IntColumns) (row : List (BitVec 64))
    (after key value key' value' : Memory) :
    ∃ record, insertRecord s row after key value = some record ∧
      scanRecord s record key' value' =
        loadWords (stream (tupleMemory row after) true (s.attrs.map intCell) 0)
          (stream (tupleMemory row after) false (s.attrs.map intCell) 0) s.attrs 0 0 := by
  refine ⟨_, insertRecord_eq (mapM_cell h) row after key value, ?_⟩
  have hread : ∀ (m : Memory) (bs : List UInt8) (n : ℕ), n+8 ≤ bs.length →
      read (write m 0 bs) n 8 = (bs.drop n).take 8 := by
    intro m bs n hn
    have hw := drop_take_read (write m 0 bs) 0 bs.length n 8 hn
    rw [read_write, Nat.zero_add] at hw
    exact hw.symm
  rw [scanRecord_eq, loadWords]
  apply List.map_congr_left
  intro l hl
  have hb := scanLoads_bound (tupleMemory row after) s.attrs 0 0 0 l hl
  cases hl1 : l.1 with
  | true =>
    simp only [hl1, if_true] at hb ⊢
    rw [hread _ _ _ (by omega)]
  | false =>
    simp only [hl1, Bool.false_eq_true, if_false] at hb ⊢
    rw [hread _ _ _ (by omega)]

/-- Behind a nullable column stand only columns of the same kind, key or not. -/
def UniformAfterNullable : List Attribute → Prop
  | [] => True
  | a :: as => (a.isNullable = true → ∀ b ∈ as, b.isKey = a.isKey) ∧ UniformAfterNullable as

theorem uniform_of_same {κ : Bool} {as : List Attribute} (h : ∀ a ∈ as, a.isKey = κ) :
    UniformAfterNullable as := by
  induction as with
  | nil => trivial
  | cons a as ih =>
    refine ⟨?_, ih fun b hb => h b (List.mem_cons_of_mem a hb)⟩
    intro _ b hb
    rw [h b (List.mem_cons_of_mem a hb), h a (by simp)]

/-- The words of the tuple from index `i` on. -/
def tupleWords (tuple : Memory) (i n : ℕ) : List (BitVec 64) :=
  (List.range n).map fun r => wordOf (read tuple (8*(i+r)) 8)

theorem tupleWords_succ (tuple : Memory) (i n : ℕ) :
    tupleWords tuple i (n+1) = wordOf (read tuple (8*i) 8) :: tupleWords tuple (i+1) n := by
  have hshift : ∀ r, 8*(i+(r+1)) = 8*(i+1+r) := by
    intro r
    ring
  simp only [tupleWords, List.range_succ_eq_map, List.map_cons, List.map_map, Function.comp_def,
    Nat.succ_eq_add_one, hshift, Nat.add_zero]

/-- Columns of one kind: their cells lie in one piece, whatever their strides. -/
theorem stream_same (tuple : Memory) {κ : Bool} {as : List Attribute}
    (h : ∀ a ∈ as, a.isKey = κ) (off : ℕ) :
    ∃ len, 8*as.length ≤ len ∧ stream tuple κ (as.map intCell) off = read tuple off len := by
  induction as generalizing off with
  | nil => exact ⟨0, le_rfl, rfl⟩
  | cons a as ih =>
    obtain ⟨len, hlen, hstream⟩ := ih (fun b hb => h b (List.mem_cons_of_mem a hb))
      (off+(intCell a).size)
    have hsize := intCell_size_ge a
    refine ⟨(intCell a).size+len, ?_, ?_⟩
    · simp only [List.length_cons]
      omega
    · have hk : (intCell a).isKey = κ := h a (by simp)
      rw [List.map_cons, stream, if_pos hk, hstream, read_add]

theorem loadWords_same (tuple : Memory) {κ : Bool} {as : List Attribute}
    (h : ∀ a ∈ as, a.isKey = κ) {bs ks vs : List UInt8} (ko vo : ℕ) {i len : ℕ}
    (hbuf : (if κ then ks else vs) = bs ++ read tuple (8*i) len)
    (hbs : bs.length = if κ then ko else vo) (hlen : 8*as.length ≤ len) :
    loadWords ks vs as ko vo = tupleWords tuple i as.length := by
  induction as generalizing bs ko vo i len with
  | nil => rfl
  | cons a as ih =>
    have hk : a.isKey = κ := h a (by simp)
    simp only [List.length_cons] at hlen
    have hword : (((if κ then ks else vs).drop (if κ then ko else vo)).take 8) =
        read tuple (8*i) 8 := by
      rw [hbuf, List.drop_left' hbs]
      have htake := drop_take_read tuple (8*i) len 0 8 (by omega)
      simpa using htake
    have hsplit : read tuple (8*i) len = read tuple (8*i) 8 ++ read tuple (8*(i+1)) (len-8) := by
      have hl : len = 8+(len-8) := by omega
      rw [hl, read_add]
      congr 2
      omega
    have hrest : ∀ a ∈ as, a.isKey = κ := fun b hb => h b (List.mem_cons_of_mem a hb)
    rw [hsplit, ← List.append_assoc] at hbuf
    rw [List.length_cons, tupleWords_succ]
    cases κ with
    | true =>
      have ih := ih hrest (ko+8) vo hbuf (by simpa using hbs) (by omega)
      simp only [if_true] at hword
      simp only [loadWords, scanLoads, if_pos hk, List.map_cons, if_true, hword] at ih ⊢
      rw [ih]
    | false =>
      have ih := ih hrest ko (vo+8) hbuf (by simpa using hbs) (by omega)
      simp only [Bool.false_eq_true, if_false] at hword
      simp only [loadWords, scanLoads, hk, Bool.false_eq_true, if_false, List.map_cons, hword] at ih ⊢
      rw [ih]

/-- The buffers at the moment `Insert` reaches the columns `as` of a tuple at word `i`, with
what it still appends to them. -/
structure Aligned (tuple : Memory) (as : List Attribute) (i ko vo : ℕ) (ks vs : List UInt8) :
    Prop where
  key : ∃ bs, bs.length = ko ∧ ks = bs ++ stream tuple true (as.map intCell) (8*i)
  value : ∃ bs, bs.length = vo ∧ vs = bs ++ stream tuple false (as.map intCell) (8*i)

section Aligned
variable {tuple : Memory} {a : Attribute} {as : List Attribute} {i ko vo : ℕ}
  {ks vs : List UInt8}

theorem Aligned.buffer (h : Aligned tuple as i ko vo ks vs) (κ : Bool) :
    ∃ bs, bs.length = (if κ then ko else vo) ∧
      (if κ then ks else vs) = bs ++ stream tuple κ (as.map intCell) (8*i) := by
  cases κ with
  | true => exact h.key
  | false => exact h.value

/-- A column that is not nullable is appended as one word and read back by the first load. -/
theorem Aligned.step (h : Aligned tuple (a :: as) i ko vo ks vs) (hn : a.isNullable = false) :
    ∃ ko' vo', Aligned tuple as (i+1) ko' vo' ks vs ∧
      loadWords ks vs (a :: as) ko vo =
        wordOf (read tuple (8*i) 8) :: loadWords ks vs as ko' vo' := by
  have hsize : (intCell a).size = 8 := by simp [intCell, hn]
  have hkey : (intCell a).isKey = a.isKey := rfl
  have hoff : 8*i+8 = 8*(i+1) := by ring
  have htake : ∀ bs rest : List UInt8, (((bs ++ (read tuple (8*i) 8 ++ rest)).drop bs.length).take 8) =
      read tuple (8*i) 8 := by
    intro bs rest
    rw [List.drop_left, List.take_left' (read_length _ _ _)]
  obtain ⟨b₁, hl₁, h₁⟩ := h.key
  obtain ⟨b₂, hl₂, h₂⟩ := h.value
  cases hk : a.isKey with
  | true =>
    simp only [List.map_cons, stream, hkey, hk, if_true, hsize, hoff] at h₁
    simp only [List.map_cons, stream, hkey, hk, Bool.true_eq_false, if_false, hsize, hoff] at h₂
    refine ⟨ko+8, vo, ⟨⟨b₁ ++ read tuple (8*i) 8, by simp [hl₁], by simp [h₁]⟩, ⟨b₂, hl₂, h₂⟩⟩, ?_⟩
    simp only [loadWords, scanLoads, hk, if_true, List.map_cons]
    rw [h₁, ← hl₁, htake]
  | false =>
    simp only [List.map_cons, stream, hkey, hk, Bool.false_eq_true, if_false, hsize, hoff] at h₁
    simp only [List.map_cons, stream, hkey, hk, if_true, hsize, hoff] at h₂
    refine ⟨ko, vo+8, ⟨⟨b₁, hl₁, h₁⟩, ⟨b₂ ++ read tuple (8*i) 8, by simp [hl₂], by simp [h₂]⟩⟩, ?_⟩
    simp only [loadWords, scanLoads, hk, Bool.false_eq_true, if_false, List.map_cons]
    rw [h₂, ← hl₂, htake]

theorem Aligned.loadWords_eq (hu : UniformAfterNullable as)
    (h : Aligned tuple as i ko vo ks vs) :
    loadWords ks vs as ko vo = tupleWords tuple i as.length := by
  induction as generalizing i ko vo with
  | nil => rfl
  | cons a as ih =>
    cases hn : a.isNullable with
    | false =>
      obtain ⟨ko', vo', h', hload⟩ := h.step hn
      rw [hload, ih hu.2 h', List.length_cons, tupleWords_succ]
    | true =>
      have hsame : ∀ b ∈ a :: as, b.isKey = a.isKey := by
        intro b hb
        rcases List.mem_cons.mp hb with rfl | hb
        · rfl
        · exact hu.1 hn b hb
      obtain ⟨bs, hbs, hbuf⟩ := h.buffer a.isKey
      obtain ⟨len, hlen, hstream⟩ := stream_same tuple hsame (8*i)
      rw [hstream] at hbuf
      exact loadWords_same tuple hsame ko vo hbuf hbs hlen

end Aligned

/-- The bytes the source offset moves over the columns. -/
def strides (as : List Attribute) : ℕ := (as.map fun a => (intCell a).size).sum

theorem strides_ge (as : List Attribute) : 8*as.length ≤ strides as := by
  induction as with
  | nil => exact le_rfl
  | cons a as ih =>
    have hsize := intCell_size_ge a
    simp only [strides, List.length_cons, List.map_cons, List.sum_cons] at ih ⊢
    omega

/-- Columns of the other kind leave a stream alone and only move the source offset. -/
theorem stream_skip (tuple : Memory) {κ : Bool} {xs : List Attribute}
    (h : ∀ a ∈ xs, a.isKey = κ) (ys : List Attribute) (off : ℕ) :
    stream tuple (!κ) ((xs ++ ys).map intCell) off =
      stream tuple (!κ) (ys.map intCell) (off+strides xs) := by
  induction xs generalizing off with
  | nil => rfl
  | cons a xs ih =>
    have hk : (intCell a).isKey = κ := h a (by simp)
    rw [List.cons_append, List.map_cons, stream, if_neg (by simp [hk]),
      ih fun b hb => h b (List.mem_cons_of_mem a hb)]
    simp [strides, Nat.add_assoc]

/-- Behind columns of one kind the first column of the other kind is loaded from where its
buffer stood. -/
theorem scanLoads_skip {κ : Bool} {xs : List Attribute} (h : ∀ a ∈ xs, a.isKey = κ)
    {b : Attribute} (hb : b.isKey = !κ) (ys : List Attribute) (ko vo : ℕ) :
    (scanLoads (xs ++ b :: ys) ko vo)[xs.length]? = some (!κ, if !κ then ko else vo) := by
  induction xs generalizing ko vo with
  | nil => cases κ <;> simp [scanLoads, hb]
  | cons a xs ih =>
    have hk : a.isKey = κ := h a (by simp)
    have ih := fun ko vo => ih (fun c hc => h c (List.mem_cons_of_mem a hc)) ko vo
    cases κ with
    | true => simpa [scanLoads, hk] using ih (ko+8) vo
    | false => simpa [scanLoads, hk] using ih ko (vo+8)

/-- The first element that does not satisfy `P`. -/
theorem exists_first_not {α : Type} {P : α → Prop} (xs : List α) (h : ∃ x ∈ xs, ¬P x) :
    ∃ us x vs, xs = us ++ x :: vs ∧ (∀ u ∈ us, P u) ∧ ¬P x := by
  induction xs with
  | nil => simp at h
  | cons a xs ih =>
    by_cases ha : P a
    · have hrest : ∃ x ∈ xs, ¬P x := by
        obtain ⟨x, hx, hnx⟩ := h
        rcases List.mem_cons.mp hx with rfl | hx
        · exact absurd ha hnx
        · exact ⟨x, hx, hnx⟩
      obtain ⟨us, x, vs, rfl, hus, hx⟩ := ih hrest
      refine ⟨a :: us, x, vs, rfl, ?_, hx⟩
      intro u hu
      rcases List.mem_cons.mp hu with rfl | hu
      · exact ha
      · exact hus u hu
    · exact ⟨[], a, xs, rfl, by simp, ha⟩

/-- The first column of the other kind is read from where the strides have led the source. -/
theorem Aligned.shifted {tuple : Memory} {a b : Attribute} {us ys : List Attribute}
    {i ko vo : ℕ} {ks vs : List UInt8}
    (hus : ∀ u ∈ us, u.isKey = a.isKey) (hb : ¬b.isKey = a.isKey)
    (h : Aligned tuple (a :: (us ++ b :: ys)) i ko vo ks vs) :
    ∃ w, (loadWords ks vs (a :: (us ++ b :: ys)) ko vo)[us.length+1]? = some w ∧
      w.toNat % 256 = (tuple (8*i+strides (a :: us))).toNat := by
  have hxs : ∀ x ∈ a :: us, x.isKey = a.isKey := by
    intro x hx
    rcases List.mem_cons.mp hx with rfl | hx
    · rfl
    · exact hus x hx
  have hb : b.isKey = !a.isKey := by
    cases hk : a.isKey <;> cases hk' : b.isKey <;> simp_all
  obtain ⟨bs, hbs, hbuf⟩ := h.buffer (!a.isKey)
  have hload := scanLoads_skip hxs hb ys ko vo
  have hstream := stream_skip tuple hxs (b :: ys) (8*i)
  rw [List.cons_append] at hload hstream
  have hcell : (intCell b).isKey = !a.isKey := hb
  rw [hstream, List.map_cons, stream, if_pos hcell] at hbuf
  refine ⟨_, by rw [loadWords, List.getElem?_map, ← List.length_cons, hload]; rfl, ?_⟩
  obtain ⟨n, hsize⟩ : ∃ n, (intCell b).size = 1+n := ⟨(intCell b).size-1, by
    have := intCell_size_ge b
    omega⟩
  change (wordOf (((if !a.isKey then ks else vs).drop
    (if !a.isKey then ko else vo)).take 8)).toNat % 256 = _
  have hone : read tuple (8*i+strides (a :: us)) 1 = [tuple (8*i+strides (a :: us))] := rfl
  rw [hbuf, ← hbs, List.drop_left, hsize, read_add, hone, List.append_assoc,
    List.singleton_append, List.take_succ_cons, wordOf_getElem_zero]

theorem exists_shifted {as : List Attribute} (h : ¬UniformAfterNullable as) :
    ∃ j δ, j < as.length ∧ 0 < δ ∧ ∀ (tuple : Memory) (i ko vo : ℕ) (ks vs : List UInt8),
      Aligned tuple as i ko vo ks vs → ∃ w, (loadWords ks vs as ko vo)[j]? = some w ∧
        w.toNat % 256 = (tuple (8*(i+j)+δ)).toNat := by
  induction as with
  | nil => exact absurd trivial h
  | cons a as ih =>
    by_cases hmixed : a.isNullable = true ∧ ∃ b ∈ as, ¬b.isKey = a.isKey
    · obtain ⟨hn, hex⟩ := hmixed
      obtain ⟨us, b, ys, rfl, hus, hb⟩ := exists_first_not as hex
      have hge := strides_ge us
      have hstride : strides (a :: us) = 9 + strides us := by
        simp [strides, intCell, hn]
      refine ⟨us.length+1, strides (a :: us) - 8*(us.length+1), by simp, by omega, ?_⟩
      intro tuple i ko vo ks vs hal
      have hshift : 8*(i+(us.length+1))+(strides (a :: us) - 8*(us.length+1)) =
          8*i+strides (a :: us) := by omega
      rw [hshift]
      exact hal.shifted hus hb
    · have hn : a.isNullable = false := by
        by_contra hnull
        have hnull : a.isNullable = true := by simpa using hnull
        have hsame : ∀ b ∈ as, b.isKey = a.isKey := by
          intro b hb
          by_contra hne
          exact hmixed ⟨hnull, b, hb, hne⟩
        exact h ⟨fun _ => hsame, uniform_of_same hsame⟩
      have hrest : ¬UniformAfterNullable as := by
        intro hu
        exact h ⟨fun hnull => absurd hnull (by simp [hn]), hu⟩
      obtain ⟨j, δ, hj, hδ, hall⟩ := ih hrest
      refine ⟨j+1, δ, by simpa using hj, hδ, ?_⟩
      intro tuple i ko vo ks vs hal
      obtain ⟨ko', vo', hal', hload⟩ := hal.step hn
      obtain ⟨w, hw, hmod⟩ := hall tuple (i+1) ko' vo' ks vs hal'
      have hidx : 8*(i+(j+1))+δ = 8*(i+1+j)+δ := by ring
      exact ⟨w, by rw [hload]; simpa using hw, by rw [hidx]; exact hmod⟩

theorem tupleMemory_cons (v : BitVec 64) (row : List (BitVec 64)) (after : Memory) (a : ℕ) :
    tupleMemory (v :: row) after (8+a) = tupleMemory row after a := by
  have hlen : (wordBytes v).length = 8 := wordBytes_length v
  simp only [tupleMemory, List.flatMap_cons, List.length_cons]
  rw [List.getElem?_append_right (by omega), hlen, Nat.add_sub_cancel_left]
  congr 2
  omega

theorem tupleMemory_head (v : BitVec 64) (row : List (BitVec 64)) (after : Memory) {k : ℕ}
    (hk : k < 8) : tupleMemory (v :: row) after k = UInt8.ofNat (v.toNat / 256^k) := by
  simp only [tupleMemory, List.flatMap_cons]
  rw [List.getElem?_append_left (by simpa using hk)]
  simp [wordBytes, hk]

theorem tupleMemory_apply {row : List (BitVec 64)} {r k : ℕ} (hr : r < row.length) (hk : k < 8)
    (after : Memory) : tupleMemory row after (8*r+k) = UInt8.ofNat (row[r].toNat / 256^k) := by
  induction row generalizing r with
  | nil => simp at hr
  | cons v row ih =>
    cases r with
    | zero => simpa using tupleMemory_head v row after hk
    | succ r =>
      have haddr : 8*(r+1)+k = 8+(8*r+k) := by ring
      rw [haddr, tupleMemory_cons, ih (by simpa using hr)]
      rfl

theorem tupleMemory_after (row : List (BitVec 64)) (after : Memory) (a : ℕ) :
    tupleMemory row after (8*row.length+a) = after a := by
  induction row with
  | nil => simp [tupleMemory]
  | cons v row ih =>
    have haddr : 8*(v :: row).length+a = 8+(8*row.length+a) := by
      simp only [List.length_cons]
      ring
    rw [haddr, tupleMemory_cons, ih]

/-- The words behind the first one are those of the memory behind it. -/
theorem tupleWords_shift (tuple : Memory) (n : ℕ) :
    tupleWords tuple 1 n = tupleWords (fun a => tuple (8+a)) 0 n := by
  apply List.map_congr_left
  intro r _
  have hread : read tuple (8*(1+r)) 8 = read (fun a => tuple (8+a)) (8*(0+r)) 8 := by
    apply List.map_congr_left
    intro k _
    have haddr : 8*(1+r)+k = 8+(8*(0+r)+k) := by ring
    rw [haddr]
  rw [hread]

theorem tupleWords_tupleMemory (row : List (BitVec 64)) (after : Memory) :
    tupleWords (tupleMemory row after) 0 row.length = row := by
  induction row with
  | nil => rfl
  | cons v row ih =>
    have hread : read (tupleMemory (v :: row) after) (8*0) 8 = wordBytes v := by
      apply List.map_congr_left
      intro k hk
      rw [Nat.mul_zero, Nat.zero_add]
      exact tupleMemory_head v row after (List.mem_range.mp hk)
    have hshift : (fun a => tupleMemory (v :: row) after (8+a)) = tupleMemory row after := by
      funext a
      exact tupleMemory_cons v row after a
    rw [List.length_cons, tupleWords_succ, hread, wordOf_wordBytes, tupleWords_shift, hshift, ih]

theorem aligned_start (tuple : Memory) (as : List Attribute) :
    Aligned tuple as 0 0 0 (stream tuple true (as.map intCell) 0)
      (stream tuple false (as.map intCell) 0) :=
  ⟨⟨[], rfl, rfl⟩, ⟨[], rfl, rfl⟩⟩

/-- The row with a one in column `j` and zeros elsewhere. -/
def unitRow (n j : ℕ) : List (BitVec 64) := (List.replicate n 0).set j 1

/-- The only byte of the unit row that is not zero is the first one of column `j`. -/
theorem tupleMemory_unitRow {n j : ℕ} (a : ℕ) (ha : a ≠ 8*j) :
    tupleMemory (unitRow n j) (fun _ => 0) a = 0 := by
  have hlen : (unitRow n j).length = n := by simp [unitRow]
  by_cases hlt : a < 8*n
  · have hr : a/8 < (unitRow n j).length := by omega
    have hsplit : 8*(a/8)+a%8 = a := by omega
    have happ := @tupleMemory_apply (unitRow n j) (a/8) (a%8) hr (by omega) fun _ => 0
    rw [hsplit] at happ
    rw [happ]
    by_cases hj : a/8 = j
    · have hone : (unitRow n j)[a/8] = 1 := by simp [unitRow, hj]
      have hpow : 256 ≤ 256^(a%8) := Nat.le_self_pow (by omega) 256
      rw [hone, show (1 : BitVec 64).toNat = 1 from rfl, Nat.div_eq_of_lt (by omega)]
      rfl
    · have hzero : (unitRow n j)[a/8] = 0 := by
        simp [unitRow, List.getElem_set_ne (Ne.symm hj)]
      rw [hzero]
      simp
  · obtain ⟨b, rfl⟩ : ∃ b, a = 8*n+b := ⟨a-8*n, by omega⟩
    have hafter := tupleMemory_after (unitRow n j) (fun _ => 0) b
    rwa [hlen] at hafter

/-- Every row of the table comes back, whatever lies behind the inserted tuple and whatever
the buffers held before. -/
def Schema.RowRoundTrip (s : Schema) : Prop :=
  ∀ row : List (BitVec 64), row.length = s.attrs.length →
    ∀ after key value key' value' : Memory, ∃ record,
      insertRecord s row after key value = some record ∧ scanRecord s record key' value' = row

/-- A table of `int` columns gives back its rows exactly when behind a nullable column there
are only columns of the same kind, key or not. -/
theorem rowRoundTrip_iff {s : Schema} (h : s.IntColumns) :
    s.RowRoundTrip ↔ UniformAfterNullable s.attrs := by
  constructor
  · intro hround
    by_contra hu
    obtain ⟨j, δ, hj, hδ, hall⟩ := exists_shifted hu
    have hlen : (unitRow s.attrs.length j).length = s.attrs.length := by simp [unitRow]
    obtain ⟨record, hins, hscan⟩ := hround _ hlen (fun _ => 0) (fun _ => 0) (fun _ => 0)
      (fun _ => 0) (fun _ => 0)
    obtain ⟨record', hins', hscan'⟩ := scan_insert h (unitRow s.attrs.length j) (fun _ => 0)
      (fun _ => 0) (fun _ => 0) (fun _ => 0) (fun _ => 0)
    rw [hins] at hins'
    obtain rfl := Option.some.inj hins'
    obtain ⟨w, hw, hmod⟩ := hall _ 0 0 0 _ _ (aligned_start (tupleMemory _ fun _ => 0) s.attrs)
    rw [← hscan', hscan] at hw
    have hone : w = 1 := by
      simpa [unitRow, hj] using hw.symm
    rw [tupleMemory_unitRow _ (by omega), hone] at hmod
    exact absurd hmod (by decide)
  · intro hu row hrow after key value key' value'
    obtain ⟨record, hins, hscan⟩ := scan_insert h row after key value key' value'
    refine ⟨record, hins, ?_⟩
    rw [hscan, (aligned_start _ _).loadWords_eq hu, ← hrow, tupleWords_tupleMemory]

theorem rowRoundTrip_iff_nullable_last :
    Schema.RowRoundTrip ⟨text "t", [⟨text "k", ⟨.integer, 0⟩, propKey⟩,
        ⟨text "v", ⟨.integer, 0⟩, propNullable⟩]⟩ ↔
      UniformAfterNullable [⟨text "k", ⟨.integer, 0⟩, propKey⟩,
        ⟨text "v", ⟨.integer, 0⟩, propNullable⟩] :=
  rowRoundTrip_iff (by simp [Schema.IntColumns])

/-- A nullable column in front of the key. -/
def nullableFirst : Schema :=
  ⟨text "t", [⟨text "v", ⟨.integer, 0⟩, propNullable⟩, ⟨text "k", ⟨.integer, 0⟩, propKey⟩]⟩

/-- The row `(5, 7)` comes back as `(5, 0)`. -/
theorem nullableFirst_not_roundTrip :
    nullableFirst.IntColumns ∧
      (insertRecord nullableFirst [5, 7] (fun _ => 0) (fun _ => 0) (fun _ => 0)).map
        (fun record => scanRecord nullableFirst record (fun _ => 0) (fun _ => 0)) = some [5, 0] ∧
      ¬nullableFirst.RowRoundTrip := by
  have hscan : (insertRecord nullableFirst [5, 7] (fun _ => 0) (fun _ => 0) (fun _ => 0)).map
      (fun record => scanRecord nullableFirst record (fun _ => 0) (fun _ => 0)) =
      some [5, 0] := by decide_cbv
  refine ⟨by simp [Schema.IntColumns, nullableFirst], hscan, ?_⟩
  intro h
  obtain ⟨record, hins, hrow⟩ := h [5, 7] rfl (fun _ => 0) (fun _ => 0) (fun _ => 0) (fun _ => 0)
    (fun _ => 0)
  rw [hins, Option.map_some, hrow] at hscan
  exact absurd hscan (by decide)

end Reir
