import Reir.RowKeys
import Reir.SyntaxTree

/-! The encoder of rows that does not go through the compiler: `encode`, `encode_key`,
`encode_value` and `decode` of a schema. -/
namespace Reir
open ByteMemory

inductive CodecError
  | notString
  | unknownType
  | intExpected
  | varcharExpected
  | encodingUnimplemented
  | decodingUnimplemented
  | nullCell
  | valueUnset
  | sizeMismatch
  deriving DecidableEq, Repr

namespace AttrType

/-- The length of a string is counted without its header. -/
def encodedLength (t : AttrType) (v : Value) : Except CodecError ℕ :=
  match t.kind with
  | .integer => .ok 8
  | .string =>
    match v with
    | .varchar s => .ok s.length
    | _ => .error .notString
  | _ => .error .unknownType

def encode (t : AttrType) (v : Value) (m : Memory) (off : ℕ) : Except CodecError Memory :=
  match t.kind with
  | .integer =>
    match v with
    | .int x => .ok (write m off (wordBytes x))
    | _ => .error .intExpected
  | .string =>
    match v with
    | .varchar s => .ok (write (write m off (wordBytes (BitVec.ofNat 64 s.length))) (off+8) s)
    | _ => .error .varcharExpected
  | _ => .error .encodingUnimplemented

def decode (t : AttrType) (m : Memory) (off : ℕ) : Except CodecError Value :=
  match t.kind with
  | .integer => .ok (.int (wordOf (read m off 8)))
  | .string => .ok (.varchar (read m (off+8) (wordOf (read m off 8)).toNat))
  | _ => .error .decodingUnimplemented

end AttrType

namespace Attribute

/-- The property is compared as a whole, not by its bit. -/
def encodedLength (a : Attribute) (v : MaybeValue) : Except CodecError ℕ :=
  if a.property = propNullable then
    match v with
    | none => .ok 1
    | some v => do
      let n ← a.type.encodedLength v
      pure (1+n)
  else
    match v with
    | none => .error .nullCell
    | some v => a.type.encodedLength v

/-- The flag of a null is not written. -/
def encode (a : Attribute) (v : MaybeValue) (m : Memory) (off : ℕ) : Except CodecError Memory :=
  if a.property = propNullable then
    match v with
    | none => .ok m
    | some v => a.type.encode v (write m off [1]) (off+1)
  else
    match v with
    | none => .error .valueUnset
    | some v => a.type.encode v m off

def decode (a : Attribute) (m : Memory) (off : ℕ) : Except CodecError MaybeValue :=
  if a.property = propNullable then
    if m off = 0 then .ok none
    else do
      let v ← a.type.decode m (off+1)
      pure (some v)
  else do
    let v ← a.type.decode m off
    pure (some v)

end Attribute

/-- The sum of the lengths of cells. -/
def encodedLengths : List (Attribute × MaybeValue) → Except CodecError ℕ
  | [] => .ok 0
  | c :: cs => do
    let n ← c.1.encodedLength c.2
    let rest ← encodedLengths cs
    pure (n+rest)

/-- Cells one after another. -/
def encodeCells : List (Attribute × MaybeValue) → ℕ → Memory → Except CodecError Memory
  | [], _, m => .ok m
  | c :: cs, off, m => do
    let m ← c.1.encode c.2 m off
    let n ← c.1.encodedLength c.2
    encodeCells cs (off+n) m

/-- The same with the length of a cell asked for before it is written. -/
def encodeColumns : List (Attribute × MaybeValue) → ℕ → Memory → Except CodecError Memory
  | [], _, m => .ok m
  | c :: cs, off, m => do
    let n ← c.1.encodedLength c.2
    let m ← c.1.encode c.2 m off
    encodeColumns cs (off+n) m

def decodeCells : List Attribute → ℕ → Memory → Except CodecError (List MaybeValue)
  | [], _, _ => .ok []
  | a :: as, off, m => do
    let v ← a.decode m off
    let n ← a.encodedLength v
    let vs ← decodeCells as (off+n) m
    pure (v :: vs)

namespace Schema

/-- The columns with their values. Where the size of the tuple is not checked, an index past its
end is not modelled. -/
def cells (s : Schema) (tuple : List MaybeValue) : List (Attribute × MaybeValue) := s.attrs.zip tuple

def cellsOf (s : Schema) (key : Bool) (tuple : List MaybeValue) : List (Attribute × MaybeValue) :=
  (s.cells tuple).filter fun c => c.1.isKey == key

def checkTupleSize (s : Schema) (tuple : List MaybeValue) : Except CodecError Unit :=
  if tuple.length ≠ s.attrs.length then .error .sizeMismatch else .ok ()

def encodedLength (s : Schema) (tuple : List MaybeValue) : Except CodecError ℕ := do
  s.checkTupleSize tuple
  let n ← encodedLengths (s.cells tuple)
  pure (s.name.length+1+n)

/-- The name and the colon in front of a key. -/
def encodeName (s : Schema) (m : Memory) : Memory := write (write m 0 s.name) s.name.length [colonByte]

def encode (s : Schema) (tuple : List MaybeValue) (m : Memory) : Except CodecError Memory := do
  s.checkTupleSize tuple
  encodeCells (s.cells tuple) (s.name.length+1) (s.encodeName m)

/-- The buffer is read from its start. -/
def decode (s : Schema) (m : Memory) (tuple : List MaybeValue) :
    Except CodecError (List MaybeValue) := do
  s.checkTupleSize tuple
  decodeCells s.attrs 0 m

def keyLength (s : Schema) (tuple : List MaybeValue) : Except CodecError ℕ := do
  let n ← encodedLengths (s.cellsOf true tuple)
  pure (s.name.length+1+n)

def valueLength (s : Schema) (tuple : List MaybeValue) : Except CodecError ℕ :=
  encodedLengths (s.cellsOf false tuple)

def encodeKey (s : Schema) (tuple : List MaybeValue) (m : Memory) : Except CodecError Memory :=
  encodeColumns (s.cellsOf true tuple) (s.name.length+1) (s.encodeName m)

def encodeValue (s : Schema) (tuple : List MaybeValue) (m : Memory) : Except CodecError Memory :=
  encodeColumns (s.cellsOf false tuple) 0 m

end Schema

/-- A cell of an `int` column that is not nullable. -/
def IntCell (c : Attribute × MaybeValue) : Prop :=
  c.1.type.kind = .integer ∧ c.1.isNullable = false ∧ ∃ x, c.2 = some (.int x)

theorem property_ne_nullable {a : Attribute} (h : a.isNullable = false) :
    a.property ≠ propNullable := by
  intro hprop
  simp [Attribute.isNullable, hprop, propNullable] at h

theorem IntCell.encodedLength {c : Attribute × MaybeValue} (h : IntCell c) :
    c.1.encodedLength c.2 = .ok 8 := by
  obtain ⟨hkind, hnull, x, hx⟩ := h
  rw [hx, Attribute.encodedLength, if_neg (property_ne_nullable hnull)]
  simp only [AttrType.encodedLength, hkind]

theorem intCell_encode {a : Attribute} {x : BitVec 64} (hkind : a.type.kind = .integer)
    (hnull : a.isNullable = false) (m : Memory) (off : ℕ) :
    a.encode (some (.int x)) m off = .ok (write m off (wordBytes x)) := by
  rw [Attribute.encode, if_neg (property_ne_nullable hnull)]
  simp only [AttrType.encode, hkind]

theorem encodedLengths_ints {cs : List (Attribute × MaybeValue)} (h : ∀ c ∈ cs, IntCell c) :
    encodedLengths cs = .ok (8*cs.length) := by
  induction cs with
  | nil => rfl
  | cons c cs ih =>
    rw [List.forall_mem_cons] at h
    have hlen := h.1.encodedLength
    have hsum : 8+8*cs.length = 8*(c :: cs).length := by
      rw [List.length_cons]
      ring
    simp only [encodedLengths, hlen, ih h.2, bind, Except.bind, pure, Except.pure, hsum]

/-- The bytes of cells of integers. -/
def cellBytes (cs : List (Attribute × MaybeValue)) : List UInt8 :=
  cs.flatMap fun c => match c.2 with
    | some (.int x) => wordBytes x
    | _ => []

theorem encodeColumns_ints {cs : List (Attribute × MaybeValue)} (h : ∀ c ∈ cs, IntCell c)
    (m : Memory) (bs : List UInt8) :
    encodeColumns cs bs.length (write m 0 bs) = .ok (write m 0 (bs ++ cellBytes cs)) := by
  induction cs generalizing bs with
  | nil => simp [encodeColumns, cellBytes]
  | cons c cs ih =>
    rw [List.forall_mem_cons] at h
    have hlen := h.1.encodedLength
    obtain ⟨a, v⟩ := c
    obtain ⟨hkind, hnull, x, hx⟩ := h.1
    obtain rfl : v = some (.int x) := hx
    have hrest := ih h.2 (bs ++ wordBytes x)
    rw [List.length_append, wordBytes_length] at hrest
    simp only [encodeColumns, hlen, intCell_encode hkind hnull, bind, Except.bind,
      write_write_append, hrest]
    simp [cellBytes]

section
variable {as : List Attribute} {row : List (BitVec 64)}

/-- The values of a row as the encoder takes them. -/
def intTuple (row : List (BitVec 64)) : List MaybeValue := row.map fun x => some (.int x)

theorem zip_intTuple (as : List Attribute) (row : List (BitVec 64)) :
    as.zip (intTuple row) = (as.zip row).map fun c => (c.1, some (.int c.2)) := by
  rw [intTuple, List.zip_map_right]
  rfl

theorem intCells (h : ∀ a ∈ as, a.type.kind = .integer ∧ a.isNullable = false) :
    ∀ c ∈ as.zip (intTuple row), IntCell c := by
  intro c hc
  rw [zip_intTuple] at hc
  obtain ⟨d, hd, rfl⟩ := List.mem_map.mp hc
  have ha := h d.1 (List.of_mem_zip hd).1
  exact ⟨ha.1, ha.2, d.2, rfl⟩

theorem cellBytes_columns (κ : Bool) :
    cellBytes ((as.zip (intTuple row)).filter fun c => c.1.isKey == κ) =
      (((as.zip row).filter fun c => c.1.isKey == κ).map Prod.snd).flatMap wordBytes := by
  rw [zip_intTuple, List.filter_map, cellBytes, List.flatMap_map, List.flatMap_map]
  rfl

end

/-- The key and the value that a compiled `Insert` stores are what `encode_key` and
`encode_value` write, with the lengths of `key_length` and `value_length`. -/
theorem insert_encode_agree (i : Insertion)
    (hcolumns : ∀ a ∈ i.table.attrs, a.type.kind = .integer ∧ a.isNullable = false)
    (hrow : i.row.length = i.table.attrs.length) (m : Memory) :
    ∃ key value, i.record = some (key, value) ∧
      i.table.encodeKey (intTuple i.row) m = .ok (write m 0 key) ∧
      i.table.keyLength (intTuple i.row) = .ok key.length ∧
      i.table.encodeValue (intTuple i.row) m = .ok (write m 0 value) ∧
      i.table.valueLength (intTuple i.row) = .ok value.length ∧
      i.table.encodedLength (intTuple i.row) = .ok (key.length + value.length) := by
  have hint : i.table.IntColumns := fun a ha => (hcolumns a ha).1
  have hstream := fun κ => stream_columns κ i.table.attrs (fun a ha => (hcolumns a ha).2) i.row hrow
    i.after
  have hcells : ∀ c ∈ i.table.attrs.zip (intTuple i.row), IntCell c := intCells hcolumns
  have hcellsOf : ∀ κ, ∀ c ∈ i.table.cellsOf κ (intTuple i.row), IntCell c := by
    intro κ c hc
    exact hcells c (List.mem_filter.mp hc).1
  have hbytes : ∀ κ, cellBytes (i.table.cellsOf κ (intTuple i.row)) =
      stream (tupleMemory i.row i.after) κ (i.table.attrs.map intCell) 0 := by
    intro κ
    rw [hstream κ]
    exact cellBytes_columns κ
  have hlength : ∀ κ, (stream (tupleMemory i.row i.after) κ (i.table.attrs.map intCell) 0).length =
      8*(i.table.cellsOf κ (intTuple i.row)).length := by
    intro κ
    rw [hstream κ, Schema.cellsOf, Schema.cells, zip_intTuple, List.filter_map, List.length_map]
    simp [List.length_flatMap, Function.comp_def, Nat.mul_comm]
  have hname : i.table.encodeName m = write m 0 i.table.getKeyPrefix :=
    write_write_append m i.table.name [Schema.colonByte]
  have hprefix : i.table.getKeyPrefix.length = i.table.name.length+1 := by
    simp [Schema.getKeyPrefix]
  have hvalue := encodeColumns_ints (hcellsOf false) m []
  refine ⟨_, _, insertRecord_eq (mapM_cell hint) i.row i.after i.key i.value, ?_, ?_, ?_, ?_, ?_⟩
  · rw [Schema.encodeKey, hname, ← hprefix, encodeColumns_ints (hcellsOf true), hbytes]
  · rw [Schema.keyLength, encodedLengths_ints (hcellsOf true), List.length_append, hlength, hprefix]
    rfl
  · have hzero : write m 0 [] = m := by
      funext a
      simp [write]
    rw [hzero] at hvalue
    rw [Schema.encodeValue, ← hbytes]
    exact hvalue
  · rw [Schema.valueLength, encodedLengths_ints (hcellsOf false), hlength]
  · have hsize : i.table.checkTupleSize (intTuple i.row) = .ok () := by
      rw [Schema.checkTupleSize, if_neg (by simp [intTuple, hrow])]
    have hsplit : (i.table.cellsOf true (intTuple i.row)).length +
        (i.table.cellsOf false (intTuple i.row)).length = (i.table.cells (intTuple i.row)).length := by
      have hcount := List.length_eq_countP_add_countP
        (fun c : Attribute × MaybeValue => c.1.isKey == true) (l := i.table.cells (intTuple i.row))
      rw [hcount, Schema.cellsOf, Schema.cellsOf, List.countP_eq_length_filter,
        List.countP_eq_length_filter]
      simp
    have hsum : i.table.name.length+1+8*(i.table.cells (intTuple i.row)).length =
        i.table.name.length+1+8*(i.table.cellsOf true (intTuple i.row)).length +
          8*(i.table.cellsOf false (intTuple i.row)).length := by
      rw [← hsplit]
      ring
    rw [Schema.encodedLength, hsize]
    simp only [bind, Except.bind, encodedLengths_ints hcells, Schema.cells, pure, Except.pure]
    rw [List.length_append, hlength, hlength, hprefix]
    rw [Schema.cells] at hsum
    rw [hsum]

/-- A row of a table whose key column stands behind another column. -/
def keyLast : Insertion :=
  ⟨⟨text "t", [⟨text "v", ⟨.integer, 0⟩, 0⟩, ⟨text "k", ⟨.integer, 0⟩, propKey⟩]⟩, [5, 7],
    fun _ => 0, fun _ => 0, fun _ => 0⟩

theorem insert_encode_agree_keyLast :
    ∃ key value, keyLast.record = some (key, value) ∧
      keyLast.table.encodeKey (intTuple keyLast.row) (fun _ => 0) = .ok (write (fun _ => 0) 0 key) ∧
      keyLast.table.keyLength (intTuple keyLast.row) = .ok key.length ∧
      keyLast.table.encodeValue (intTuple keyLast.row) (fun _ => 0) =
        .ok (write (fun _ => 0) 0 value) ∧
      keyLast.table.valueLength (intTuple keyLast.row) = .ok value.length ∧
      keyLast.table.encodedLength (intTuple keyLast.row) = .ok (key.length + value.length) :=
  insert_encode_agree keyLast (by decide) rfl fun _ => 0

/-- The value of a column fits its type, and is a null only where the column is nullable. -/
def Attribute.Admits (a : Attribute) : MaybeValue → Prop
  | none => a.isNullable = true
  | some (.int _) => a.type.kind = .integer
  | some (.varchar _) => a.type.kind = .string
  | _ => False

def Schema.Admits (s : Schema) (tuple : List MaybeValue) : Prop :=
  List.Forall₂ Attribute.Admits s.attrs tuple

/-- Every admissible tuple comes back from the buffer it was encoded into, whatever was in the
buffer and in the tuple it is decoded into. -/
def Schema.RoundTrips (s : Schema) : Prop :=
  ∀ tuple, s.Admits tuple → ∀ (m : Memory) (dest : List MaybeValue),
    dest.length = s.attrs.length → ∃ m', s.encode tuple m = .ok m' ∧ s.decode m' dest = .ok tuple

theorem AttrType.encode_below {t : AttrType} {v : Value} {m m' : Memory} {off b : ℕ} (hb : b < off)
    (h : t.encode v m off = .ok m') : m' b = m b := by
  unfold AttrType.encode at h
  split at h
  · split at h
    · obtain rfl := Except.ok.inj h
      exact write_of_lt hb
    · simp at h
  · split at h
    · obtain rfl := Except.ok.inj h
      rw [write_of_lt (by omega), write_of_lt hb]
    · simp at h
  · simp at h

theorem Attribute.encode_below {a : Attribute} {v : MaybeValue} {m m' : Memory} {off b : ℕ}
    (hb : b < off) (h : a.encode v m off = .ok m') : m' b = m b := by
  unfold Attribute.encode at h
  split_ifs at h
  · cases v with
    | none =>
      obtain rfl := Except.ok.inj h
      rfl
    | some v =>
      have hcell := AttrType.encode_below (show b < off+1 by omega) h
      rw [hcell, write_of_lt hb]
  · cases v with
    | none => simp at h
    | some v => exact AttrType.encode_below hb h

/-- What stands in front of the cells stays. -/
theorem encodeCells_below {cs : List (Attribute × MaybeValue)} {m m' : Memory} {off b : ℕ}
    (hb : b < off) (h : encodeCells cs off m = .ok m') : m' b = m b := by
  induction cs generalizing m off with
  | nil =>
    obtain rfl := Except.ok.inj h
    rfl
  | cons c cs ih =>
    obtain ⟨m₁, hcell, h⟩ := bind_eq_ok_iff.mp h
    obtain ⟨n, -, h⟩ := bind_eq_ok_iff.mp h
    rw [ih (by omega) h, Attribute.encode_below hb hcell]

/-- A buffer that was encoded starts with the name of the table and a colon. -/
theorem Schema.encode_name {s : Schema} {tuple : List MaybeValue} {m m' : Memory}
    (h : s.encode tuple m = .ok m') {b : ℕ} (hb : b < s.name.length+1) :
    m' b = (s.name ++ [colonByte])[b]?.getD 0 := by
  obtain ⟨_, -, hcells⟩ := bind_eq_ok_iff.mp h
  have hname : s.encodeName m = write m 0 (s.name ++ [colonByte]) :=
    write_write_append m s.name [colonByte]
  have hlt : b < (s.name ++ [colonByte]).length := by simpa using hb
  rw [encodeCells_below hb hcells, hname]
  simp [write, List.getElem?_eq_getElem hlt]

/-- A value that every column of the type admits. -/
def AttrType.sample (t : AttrType) : Value := if t.kind = .integer then .int 0 else .varchar []

theorem AttrType.sample_admits {a : Attribute} (h : a.type.kind = .integer ∨ a.type.kind = .string) :
    a.Admits (some a.type.sample) := by
  unfold AttrType.sample
  split_ifs with hkind
  · exact hkind
  · exact h.resolve_left hkind

/-- A first column that is decoded wrongly from some admissible value is enough. -/
theorem not_roundTrips_of_first {s : Schema} {a : Attribute} {as : List Attribute} {v : MaybeValue}
    (hs : s.attrs = a :: as)
    (hkinds : ∀ a ∈ s.attrs, a.type.kind = .integer ∨ a.type.kind = .string) (hv : a.Admits v)
    (hfirst : ∀ m' : Memory, (∀ b < s.name.length+1, m' b = (s.name ++ [Schema.colonByte])[b]?.getD 0) →
      a.decode m' 0 ≠ .ok v) : ¬s.RoundTrips := by
  intro h
  have hrest : List.Forall₂ Attribute.Admits as (as.map fun b => some b.type.sample) := by
    rw [List.forall₂_map_right_iff, List.forall₂_same]
    intro b hb
    exact AttrType.sample_admits (hkinds b (by rw [hs]; exact List.mem_cons_of_mem a hb))
  have hadmits : s.Admits (v :: as.map fun b => some b.type.sample) := by
    rw [Schema.Admits, hs]
    exact List.Forall₂.cons hv hrest
  obtain ⟨m', hencode, hdecode⟩ := h _ hadmits (fun _ => 0) (List.replicate s.attrs.length none)
    (by simp)
  obtain ⟨_, -, hcells⟩ := bind_eq_ok_iff.mp hdecode
  rw [hs] at hcells
  obtain ⟨w, hcell, hcells⟩ := bind_eq_ok_iff.mp hcells
  obtain ⟨n, -, hcells⟩ := bind_eq_ok_iff.mp hcells
  obtain ⟨vs, -, hret⟩ := bind_eq_ok_iff.mp hcells
  have hw : w = v := (List.cons.inj (Except.ok.inj hret)).1
  have hwrong := hfirst m' fun b hb => Schema.encode_name hencode hb
  exact hwrong (by rw [hcell, hw])

/-- A word is zero only if its bytes are. -/
theorem read_eq_zero {m : Memory} (h : (wordOf (read m 0 8)).toNat = 0) {k : ℕ} (hk : k < 8) :
    m k = 0 := by
  have hword : wordOf (read m 0 8) = 0 := BitVec.eq_of_toNat_eq h
  have hbytes := wordBytes_wordOf (read_length m 0 8)
  rw [hword] at hbytes
  have hbyte := congrArg (fun bs => bs[k]?.getD 1) hbytes
  have hzero : (wordBytes 0)[k]?.getD 1 = 0 := by
    interval_cases k <;> decide
  rw [hzero] at hbyte
  simpa [ByteMemory.read, hk] using hbyte.symm

section
variable {s : Schema} {a : Attribute} {as : List Attribute}

/-- The first byte of every encoded buffer. -/
def Schema.firstByte (s : Schema) : UInt8 := (s.name ++ [Schema.colonByte])[0]?.getD 0

theorem decode_nullable (hprop : a.property = propNullable) {m : Memory} {w : MaybeValue}
    (h : a.decode m 0 = .ok w) : w = none ↔ m 0 = 0 := by
  rw [Attribute.decode, if_pos hprop] at h
  split_ifs at h with hzero
  · obtain rfl := Except.ok.inj h
    simp [hzero]
  · obtain ⟨v, -, hret⟩ := bind_eq_ok_iff.mp h
    obtain rfl := Except.ok.inj hret
    simp [hzero]

theorem decode_integer (hprop : a.property ≠ propNullable) (hkind : a.type.kind = .integer)
    (m : Memory) : a.decode m 0 = .ok (some (.int (wordOf (read m 0 8)))) := by
  rw [Attribute.decode, if_neg hprop]
  simp only [AttrType.decode, hkind]
  rfl

theorem decode_string (hprop : a.property ≠ propNullable) (hkind : a.type.kind = .string)
    (m : Memory) :
    a.decode m 0 = .ok (some (.varchar (read m 8 (wordOf (read m 0 8)).toNat))) := by
  rw [Attribute.decode, if_neg hprop]
  simp only [AttrType.decode, hkind]
  rfl

/-- A nullable first column: its flag is the first byte of the name. -/
theorem not_roundTrips_nullable (hs : s.attrs = a :: as)
    (hkinds : ∀ a ∈ s.attrs, a.type.kind = .integer ∨ a.type.kind = .string)
    (hprop : a.property = propNullable) : ¬s.RoundTrips := by
  have hkind := hkinds a (by simp [hs])
  by_cases hfirst : s.firstByte = 0
  · refine not_roundTrips_of_first hs hkinds (AttrType.sample_admits hkind) ?_
    intro m' hm h
    have hnull := (decode_nullable hprop h).mpr (by rw [hm 0 (by omega)]; exact hfirst)
    simp at hnull
  · have hadmits : a.Admits none := by
      simp [Attribute.Admits, Attribute.isNullable, hprop, propNullable]
    refine not_roundTrips_of_first hs hkinds hadmits ?_
    intro m' hm h
    have hzero := (decode_nullable hprop h).mp rfl
    rw [hm 0 (by omega)] at hzero
    exact hfirst hzero

/-- An integer first column: its lowest byte is read from the name. -/
theorem not_roundTrips_integer (hs : s.attrs = a :: as)
    (hkinds : ∀ a ∈ s.attrs, a.type.kind = .integer ∨ a.type.kind = .string)
    (hprop : a.property ≠ propNullable) (hkind : a.type.kind = .integer) : ¬s.RoundTrips := by
  have hlow : ∀ m' : Memory, (wordOf (read m' 0 8)).toNat % 256 = (m' 0).toNat := fun m' =>
    wordOf_getElem_zero
  have hadmits : a.Admits (some (.int (if s.firstByte = 0 then 1 else 0))) := hkind
  refine not_roundTrips_of_first hs hkinds hadmits ?_
  intro m' hm h
  rw [decode_integer hprop hkind] at h
  have hword : wordOf (read m' 0 8) = if s.firstByte = 0 then 1 else 0 := by simpa using h
  have hbyte := hlow m'
  rw [hword, hm 0 (by omega)] at hbyte
  change _ = s.firstByte.toNat at hbyte
  split_ifs at hbyte with hfirst
  · rw [hfirst] at hbyte
    exact absurd hbyte (by decide)
  · apply hfirst
    rw [← UInt8.toNat_inj]
    exact hbyte.symm

/-- A string first column: its length is read from the name and the colon. -/
theorem not_roundTrips_string (hs : s.attrs = a :: as)
    (hkinds : ∀ a ∈ s.attrs, a.type.kind = .integer ∨ a.type.kind = .string)
    (hprop : a.property ≠ propNullable) (hkind : a.type.kind = .string) : ¬s.RoundTrips := by
  by_cases hzero : ∃ k < 8, (s.name ++ [Schema.colonByte])[k]?.getD 0 ≠ 0
  · obtain ⟨k, hk, hne⟩ := hzero
    have hadmits : a.Admits (some (.varchar [])) := hkind
    refine not_roundTrips_of_first hs hkinds hadmits ?_
    intro m' hm h
    rw [decode_string hprop hkind] at h
    have hread : read m' 8 (wordOf (read m' 0 8)).toNat = [] := by simpa using h
    have hlen := congrArg List.length hread
    rw [read_length, List.length_nil] at hlen
    have hbyte := read_eq_zero hlen hk
    have hlt : k < s.name.length+1 := by
      by_contra hge
      rw [List.getElem?_eq_none (by simpa using hge)] at hne
      simp at hne
    rw [hm k hlt] at hbyte
    exact hne hbyte
  · have hlong : 8 ≤ s.name.length := by
      by_contra hshort
      apply hzero
      refine ⟨s.name.length, by omega, ?_⟩
      simp [Schema.colonByte]
    have hadmits : a.Admits (some (.varchar [0])) := hkind
    refine not_roundTrips_of_first hs hkinds hadmits ?_
    intro m' hm h
    rw [decode_string hprop hkind] at h
    have hread : read m' 8 (wordOf (read m' 0 8)).toNat = [0] := by simpa using h
    have hbytes : read m' 0 8 = wordBytes 0 := by
      apply List.ext_getElem (by simp)
      intro k hk _
      have hlt : k < 8 := by simpa using hk
      have hbyte : m' k = 0 := by
        rw [hm k (by omega)]
        by_contra hne
        exact hzero ⟨k, hlt, hne⟩
      have hword : (wordBytes 0)[k]?.getD 1 = 0 := by
        interval_cases k <;> decide
      simp only [ByteMemory.read, List.getElem_map, List.getElem_range, Nat.zero_add, hbyte]
      simpa [List.getElem?_eq_getElem, hlt] using hword.symm
    rw [hbytes, wordOf_wordBytes] at hread
    simp [ByteMemory.read] at hread

end

/-- `decode` gives back what `encode` has written exactly for tables without columns. -/
theorem codec_roundTrips_iff {s : Schema}
    (hkinds : ∀ a ∈ s.attrs, a.type.kind = .integer ∨ a.type.kind = .string) :
    s.RoundTrips ↔ s.attrs = [] := by
  constructor
  · intro h
    by_contra hne
    obtain ⟨a, as, hs⟩ := List.exists_cons_of_ne_nil hne
    by_cases hprop : a.property = propNullable
    · exact not_roundTrips_nullable hs hkinds hprop h
    · rcases hkinds a (by simp [hs]) with hkind | hkind
      · exact not_roundTrips_integer hs hkinds hprop hkind h
      · exact not_roundTrips_string hs hkinds hprop hkind h
  · intro hs tuple hadmits m dest hdest
    rw [Schema.Admits, hs] at hadmits
    cases hadmits with
    | nil =>
      refine ⟨s.encodeName m, ?_, ?_⟩
      · simp [Schema.encode, Schema.checkTupleSize, Schema.cells, hs, encodeCells, bind, Except.bind]
      · simp [Schema.decode, Schema.checkTupleSize, hs, hdest, decodeCells, bind, Except.bind]

/-- A table with an `int` and a nullable string column. -/
def twoColumns : Schema :=
  ⟨text "t", [⟨text "x", ⟨.integer, 0⟩, 0⟩, ⟨text "s", ⟨.string, 0⟩, propNullable⟩]⟩

theorem codec_roundTrips_iff_twoColumns : twoColumns.RoundTrips ↔ twoColumns.attrs = [] :=
  codec_roundTrips_iff (by simp [twoColumns])

/-- A table with one `int` column. -/
def oneColumn : Schema := ⟨text "t", [⟨text "x", ⟨.integer, 0⟩, 0⟩]⟩

theorem oneColumn_not_roundTrips :
    oneColumn.Admits [some (.int 5)] ∧
      (oneColumn.encode [some (.int 5)] (fun _ => 0) >>= fun m => oneColumn.decode m [none]) ≠
        .ok [some (.int 5)] := by
  refine ⟨?_, by decide⟩
  exact List.Forall₂.cons rfl List.Forall₂.nil

end Reir
