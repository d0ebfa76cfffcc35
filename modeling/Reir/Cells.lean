import Reir.ValueHandles

/-! Single cells: the bytes that a column writes for a value, the value that it reads back from
them, and what the properties other than `nullable` change. -/
namespace Reir
open ByteMemory

/-- A word, or the length of a string in front of its characters. -/
def Value.bytes : Value → List UInt8
  | .int x => wordBytes x
  | .varchar s => wordBytes (BitVec.ofNat 64 s.length) ++ s
  | .float bits => wordBytes bits
  | .unknown => []

/-- The length of a string is a `size_t`. -/
def Value.Sized : Value → Prop
  | .varchar s => s.length < 2^64
  | _ => True

theorem wordOf_read {m : Memory} {off : ℕ} {x : BitVec 64} (h : read m off 8 = wordBytes x) :
    wordOf (read m off 8) = x := by
  rw [h, wordOf_wordBytes]

theorem read_header {m : Memory} {off : ℕ} {s : Text}
    (h : read m off (Value.varchar s).bytes.length = (Value.varchar s).bytes) :
    read m off 8 = wordBytes (BitVec.ofNat 64 s.length) ∧ read m (off+8) s.length = s := by
  rw [Value.bytes, List.length_append, wordBytes_length, read_add] at h
  exact List.append_inj h (by simp)

/-- The length in the header is the one the characters were written with. -/
theorem read_string {m : Memory} {off : ℕ} {s : Text} (hsize : s.length < 2^64)
    (h : read m off (Value.varchar s).bytes.length = (Value.varchar s).bytes) :
    read m (off+8) (wordOf (read m off 8)).toNat = s := by
  obtain ⟨hhead, hchars⟩ := read_header h
  rw [wordOf_read hhead, BitVec.toNat_ofNat, Nat.mod_eq_of_lt hsize, hchars]

/-- The value belongs to the type. -/
def AttrType.Fits (t : AttrType) : Value → Prop
  | .int _ => t.kind = .integer
  | .varchar _ => t.kind = .string
  | _ => False

theorem AttrType.encode_eq {t : AttrType} {v : Value} (h : t.Fits v) (m : Memory) (off : ℕ) :
    t.encode v m off = .ok (write m off v.bytes) := by
  cases v with
  | int x =>
    have hkind : t.kind = .integer := h
    simp only [AttrType.encode, hkind]
    rfl
  | varchar s =>
    have hkind : t.kind = .string := h
    have happend := write_append m off (wordBytes (BitVec.ofNat 64 s.length)) s
    rw [wordBytes_length] at happend
    simp only [AttrType.encode, hkind, happend]
    rfl
  | float bits => exact h.elim
  | unknown => exact h.elim

theorem AttrType.decode_bytes {t : AttrType} {v : Value} (h : t.Fits v) (hsize : v.Sized)
    {m : Memory} {off : ℕ} (hm : read m off v.bytes.length = v.bytes) : t.decode m off = .ok v := by
  cases v with
  | int x =>
    have hkind : t.kind = .integer := h
    have hword : wordOf (read m off 8) = x := wordOf_read (by simpa [Value.bytes] using hm)
    simp only [AttrType.decode, hkind, hword]
  | varchar s =>
    have hkind : t.kind = .string := h
    simp only [AttrType.decode, hkind, read_string hsize hm]
  | float bits => exact h.elim
  | unknown => exact h.elim

theorem Attribute.Admits.fits {a : Attribute} {v : Value} (h : a.Admits (some v)) :
    a.type.Fits v := by
  cases v with
  | int x => exact h
  | varchar s => exact h
  | float bits => exact h.elim
  | unknown => exact h.elim

namespace Attribute

/-- The property of a column is at most one of the three. -/
def SingleProperty (a : Attribute) : Prop :=
  a.property = 0 ∨ a.property = propNullable ∨ a.property = propKey ∨ a.property = propUnique

theorem SingleProperty.nullable {a : Attribute} (h : a.SingleProperty)
    (hnull : a.isNullable = true) : a.property = propNullable := by
  rcases h with h | h | h | h <;>
    simp [isNullable, h, propNullable, propKey, propUnique] at hnull ⊢

/-- The bytes that `Attribute::encode` puts out: none at all for a null. -/
def written (a : Attribute) : MaybeValue → List UInt8
  | none => []
  | some v => (if a.property = propNullable then [1] else []) ++ v.bytes

theorem encode_written {a : Attribute} {v : MaybeValue} (hprop : a.SingleProperty)
    (h : a.Admits v) (m : Memory) (off : ℕ) : a.encode v m off = .ok (write m off (a.written v)) := by
  cases v with
  | none =>
    have hempty : write m off [] = m := by
      funext b
      simp [write]
    rw [encode, if_pos (hprop.nullable h), written, hempty]
  | some v =>
    rw [encode, written]
    split_ifs with hnull
    · have happend := write_append m off [1] v.bytes
      simp only [AttrType.encode_eq h.fits]
      exact congrArg Except.ok happend
    · exact AttrType.encode_eq h.fits m off

/-- The bytes counted by the length are set, whatever was there, and all others stay. -/
def Footprint (a : Attribute) (v : MaybeValue) : Prop :=
  ∃ bs : List UInt8, a.encodedLength v = .ok bs.length ∧
    ∀ m off, a.encode v m off = .ok (write m off bs)

end Attribute

/-- How many bytes are written shows in a memory with other values behind them. -/
theorem write_length_le {bs bs' : List UInt8} {off : ℕ}
    (h : ∀ m, write m off bs = write m off bs') : bs.length ≤ bs'.length := by
  by_contra hlt
  rw [not_le] at hlt
  have hat := congrFun (h fun _ => bs[bs'.length]+1) (off+bs'.length)
  simp [write, hlt] at hat

theorem Attribute.footprint_iff_length {a : Attribute} {v : MaybeValue} (hprop : a.SingleProperty)
    (h : a.Admits v) : a.Footprint v ↔ a.encodedLength v = .ok (a.written v).length := by
  constructor
  · rintro ⟨bs, hlen, hwrite⟩
    have hsame : ∀ m, write m 0 bs = write m 0 (a.written v) := by
      intro m
      have hm := hwrite m 0
      rw [Attribute.encode_written hprop h] at hm
      exact (Except.ok.inj hm).symm
    have hle := write_length_le hsame
    have hge := write_length_le fun m => (hsame m).symm
    rw [hlen, le_antisymm hle hge]
  · intro hlen
    exact ⟨a.written v, hlen, Attribute.encode_written hprop h⟩

/-- Cells that keep to their lengths stand one behind another. -/
theorem encodeCells_footprint {cs : List (Attribute × MaybeValue)}
    (h : ∀ c ∈ cs, c.1.Footprint c.2) :
    ∃ bs : List UInt8, encodedLengths cs = .ok bs.length ∧
      ∀ m off, encodeCells cs off m = .ok (write m off bs) := by
  induction cs with
  | nil =>
    refine ⟨[], rfl, fun m off => ?_⟩
    have hempty : write m off [] = m := by
      funext b
      simp [write]
    rw [encodeCells, hempty]
  | cons c cs ih =>
    rw [List.forall_mem_cons] at h
    obtain ⟨bs, hlen, hwrite⟩ := h.1
    obtain ⟨rest, hrest, hcells⟩ := ih h.2
    refine ⟨bs ++ rest, ?_, fun m off => ?_⟩
    · rw [encodedLengths, hlen, hrest, List.length_append]
      rfl
    · simp only [encodeCells, hwrite, hlen, hcells, bind, Except.bind, write_append]

/-- `encode` writes the bytes that `encoded_length` counts exactly for integers: the length of a
string leaves out its header, and the counted flag of a null is not written. -/
theorem cell_footprint_iff {a : Attribute} {v : MaybeValue} (hprop : a.SingleProperty)
    (h : a.Admits v) : a.Footprint v ↔ a.type.kind = .integer ∧ v ≠ none := by
  rw [Attribute.footprint_iff_length hprop h]
  cases v with
  | none => simp [Attribute.encodedLength, hprop.nullable h, Attribute.written]
  | some v =>
    have hfits := h.fits
    cases v with
    | int x =>
      have hint : a.type.kind = .integer := hfits
      simp only [Attribute.encodedLength, AttrType.encodedLength, hint, Attribute.written,
        Value.bytes, ne_eq, reduceCtorEq, not_false_eq_true, and_self, iff_true]
      split_ifs <;> simp [bind, Except.bind, pure, Except.pure]
    | varchar s =>
      have hstr : a.type.kind = .string := hfits
      simp only [Attribute.encodedLength, AttrType.encodedLength, hstr, Attribute.written,
        Value.bytes, reduceCtorEq, false_and, iff_false]
      split_ifs
      · simp only [bind, Except.bind, pure, Except.pure, Except.ok.injEq, List.length_append,
          List.length_singleton, wordBytes_length]
        omega
      · simp only [List.nil_append, Except.ok.injEq, List.length_append, wordBytes_length]
        omega
    | float bits => exact hfits.elim
    | unknown => exact hfits.elim

theorem cell_footprint_iff_nullableInt :
    (⟨text "x", ⟨.integer, 0⟩, propNullable⟩ : Attribute).Footprint (some (.int 5)) ↔
      AttrKind.integer = .integer ∧ some (Value.int 5) ≠ none :=
  cell_footprint_iff (.inr (.inl rfl)) rfl

/-- A `string` column, whose header of eight bytes is not counted. -/
def stringColumn : Attribute := ⟨text "s", ⟨.string, 16⟩, 0⟩

theorem stringColumn_not_footprint :
    stringColumn.Admits (some (.varchar (text "ab"))) ∧
      ¬stringColumn.Footprint (some (.varchar (text "ab"))) := by
  have hadmits : stringColumn.Admits (some (.varchar (text "ab"))) := rfl
  refine ⟨hadmits, ?_⟩
  rw [Attribute.footprint_iff_length (.inl rfl) hadmits]
  decide

/-- A write shows in the variable it was made through. -/
theorem Heap.getElem?_view_write {s : Heap} {x : ℕ} {w : MaybeValue}
    (hx : s.view[x]? = some (.maybe w)) (v : MaybeValue) :
    ∃ s', s.write x v.isSome (v.getD .unknown) = some s' ∧ s'.view[x]? = some (.maybe v) := by
  rw [getElem?_view] at hx
  obtain ⟨h, hlook, howned⟩ := Option.map_eq_some_iff.mp hx
  have hvar : s.vars[x]? = some h.1 := lookup_eq_some.mp hlook
  have hlt : x < s.vars.length := (List.getElem?_eq_some_iff.mp hvar).1
  have hnull : h.1.nullable = true := by
    rw [← nullable_owned s, howned]
    rfl
  rw [write, hlook]
  refine ⟨_, rfl, ?_⟩
  generalize hs' : Heap.mk _ _ _ = s'
  have hcells : s'.cells = s.cells.set h.1.cell (v.getD .unknown) := by rw [← hs']
  have hvars : s'.vars = s.vars.set x (h.1.mark v.isSome) := by rw [← hs']
  have hcontent := content_set hcells h.2 h.1
  rw [if_pos rfl] at hcontent
  have hself := owned_mark (s := s) (p := v.isSome) hcontent (.inl hnull)
  have hstore : (s.owned h.1).store (if v.isSome then some (v.getD .unknown) else none) =
      .maybe v := by
    rw [howned]
    cases v <;> rfl
  rw [view, List.getElem?_map, hvars, List.getElem?_set_self hlt, Option.map_some, hself, hstore]

/-- A read that ends with a value leaves it in the variable, whatever was there. -/
theorem Heap.getElem?_view_decode {s : Heap} {x : ℕ} {w : MaybeValue}
    (hx : s.view[x]? = some (.maybe w)) {a : Attribute} {m : Memory} {off : ℕ} {v : MaybeValue}
    (hread : a.decode m off = .ok v) :
    ∃ s', s.step (.decode a m off x) = some s' ∧ s'.view[x]? = some (.maybe v) := by
  obtain ⟨s', hwrite, hview⟩ := getElem?_view_write hx v
  rw [getElem?_view] at hx
  obtain ⟨h, hlook, howned⟩ := Option.map_eq_some_iff.mp hx
  have hnull : h.1.nullable = true := by
    rw [← nullable_owned s, howned]
    rfl
  refine ⟨s', ?_, hview⟩
  simp only [step, hlook, Option.bind_eq_bind, Option.bind_some, hnull, if_true, hread]
  cases v with
  | none => exact hwrite
  | some v => exact hwrite

namespace Attribute
variable {a : Attribute} {v : MaybeValue}

/-- Encoded into a buffer and decoded from it into a variable, the value is what the variable
observes. -/
def ReadsBack (a : Attribute) (v : MaybeValue) (m : Memory) (off : ℕ) (s : Heap) (x : ℕ) : Prop :=
  ∃ m' w s', a.encode v m off = .ok m' ∧ a.decode m' off = .ok w ∧
    s.step (.decode a m' off x) = some s' ∧ s'.view[x]? = some (.maybe v)

theorem readsBack_iff {m : Memory} {off : ℕ} {s : Heap} {x : ℕ} {w : MaybeValue}
    (hx : s.view[x]? = some (.maybe w)) :
    a.ReadsBack v m off s x ↔ ∃ m', a.encode v m off = .ok m' ∧ a.decode m' off = .ok v := by
  constructor
  · rintro ⟨m', u, s', hencode, hdecode, hstep, hview⟩
    obtain ⟨t, ht, htview⟩ := Heap.getElem?_view_decode hx hdecode
    rw [hstep, Option.some.injEq] at ht
    rw [← ht, hview, Option.some.injEq, Owned.maybe.injEq] at htview
    exact ⟨m', hencode, by rw [hdecode, htview]⟩
  · rintro ⟨m', hencode, hdecode⟩
    obtain ⟨s', hstep, hview⟩ := Heap.getElem?_view_decode hx hdecode
    exact ⟨m', v, s', hencode, hdecode, hstep, hview⟩

/-- What was written for a value is read back. -/
theorem decode_written {v : Value} (h : a.Admits (some v)) (hsize : v.Sized) (m : Memory)
    (off : ℕ) : a.decode (write m off (a.written (some v))) off = .ok (some v) := by
  have hread := read_write m off (a.written (some v))
  rw [written] at hread ⊢
  rw [decode]
  split_ifs at hread ⊢ with hnull hzero
  · simp [write] at hzero
  · rw [List.length_append, read_add] at hread
    have hvalue := (List.append_inj hread (by simp)).2
    have hdecode := AttrType.decode_bytes h.fits hsize hvalue
    rw [List.length_singleton] at hdecode
    rw [hdecode]
    rfl
  · rw [AttrType.decode_bytes h.fits hsize hread]
    rfl

end Attribute

/-- The flag of a null is not written, so that a null comes back only where a zero stood before. -/
theorem cell_readsBack_iff {a : Attribute} {v : MaybeValue} (hprop : a.SingleProperty)
    (h : a.Admits v) (hsize : ∀ u, v = some u → u.Sized) (m : Memory) (off : ℕ) {s : Heap} {x : ℕ}
    {w : MaybeValue} (hx : s.view[x]? = some (.maybe w)) :
    a.ReadsBack v m off s x ↔ v ≠ none ∨ m off = 0 := by
  rw [Attribute.readsBack_iff hx, Attribute.encode_written hprop h]
  simp only [Except.ok.injEq, exists_eq_left']
  cases v with
  | none =>
    have hnull := hprop.nullable h
    have hflag : write m off (a.written none) off = m off := by simp [write, Attribute.written]
    rw [Attribute.decode, if_pos hnull, hflag]
    split_ifs with hzero
    · simp [hzero]
    · simp only [ne_eq, not_true_eq_false, hzero, or_self, iff_false]
      intro hsome
      obtain ⟨u, -, hret⟩ := bind_eq_ok_iff.mp hsome
      simp [pure, Except.pure] at hret
  | some u =>
    have hread := Attribute.decode_written h (hsize u rfl) m off
    simp [hread]

/-- A nullable `int` column, and a variable that holds 7. -/
def nullableInt : Attribute := ⟨text "x", ⟨.integer, 0⟩, propNullable⟩

def holdsSeven : Heap := Heap.empty.newMaybe (some (.int 7))

theorem view_holdsSeven : holdsSeven.view[0]? = some (.maybe (some (.int 7))) := by
  rw [holdsSeven, Heap.view_newMaybe]
  rfl

theorem cell_readsBack_iff_null :
    nullableInt.ReadsBack none (fun _ => 0) 0 holdsSeven 0 ↔
      (none : MaybeValue) ≠ none ∨ (0 : UInt8) = 0 := by
  have hadmits : nullableInt.Admits none := rfl
  exact cell_readsBack_iff (.inr (.inl rfl)) hadmits (by simp) (fun _ => 0) 0 view_holdsSeven

/-- A null encoded over a value is read back as that value. -/
theorem nullableInt_not_readsBack :
    nullableInt.Admits none ∧ ¬nullableInt.ReadsBack none (fun _ => 1) 0 holdsSeven 0 := by
  refine ⟨rfl, ?_⟩
  rw [Attribute.readsBack_iff view_holdsSeven]
  rintro ⟨m', hencode, hdecode⟩
  obtain rfl : (fun _ => 1) = m' := Except.ok.inj hencode
  revert hdecode
  decide

namespace Attribute

/-- Two columns accept the same values, write the same bytes, and agree in all they read and
count. -/
def Alike (a b : Attribute) (v : MaybeValue) : Prop :=
  (a.encodedLength v).toOption = (b.encodedLength v).toOption ∧
    (∀ m off, (a.encode v m off).toOption = (b.encode v m off).toOption) ∧
    (∀ m off, (a.decode m off).toOption = (b.decode m off).toOption) ∧
    a.defaultSize = b.defaultSize

/-- Adding or removing `key` and `unique` changes nothing. -/
def PropertyIndependent (a : Attribute) (v : MaybeValue) : Prop :=
  ∀ p < 8, p &&& propNullable = a.property &&& propNullable → a.Alike { a with property := p } v

theorem isNullable_iff {a : Attribute} : a.isNullable = true ↔ a.property &&& propNullable ≠ 0 := by
  simp [isNullable]

end Attribute

/-- Where the bit `nullable` is not set, no comparison sees the other bits. -/
theorem Attribute.alike_of_not_nullable {a : Attribute} {p : ℕ} (v : MaybeValue)
    (ha : a.property &&& propNullable = 0) (hp : p &&& propNullable = 0) :
    a.Alike { a with property := p } v := by
  have hne : a.property ≠ propNullable := by
    intro heq
    simp [heq, propNullable] at ha
  have hpne : p ≠ propNullable := by
    intro heq
    simp [heq, propNullable] at hp
  refine ⟨?_, fun m off => ?_, fun m off => ?_, ?_⟩
  · simp only [Attribute.encodedLength, hne, hpne, if_false]
  · simp only [Attribute.encode, hne, hpne, if_false]
  · simp only [Attribute.decode, hne, hpne, if_false]
  · simp [Attribute.defaultSize, Attribute.isNullable, ha, hp]

/-- The column that is nullable and nothing else reads a null from a zero, the column with one
more property does not. -/
theorem Attribute.not_alike_of_equal {a b : Attribute} (v : MaybeValue)
    (ha : a.property = propNullable) (hb : b.property ≠ propNullable) : ¬a.Alike b v := by
  intro h
  have hread := h.2.2.1 (fun _ => 0) 0
  have hnull : a.decode (fun _ => 0) 0 = .ok none := by simp [Attribute.decode, ha]
  rw [hnull, Attribute.decode, if_neg hb] at hread
  cases htype : b.type.decode (fun _ => 0) 0 with
  | error e => simp [htype, bind, Except.bind, Except.toOption] at hread
  | ok u => simp [htype, bind, Except.bind, pure, Except.pure, Except.toOption] at hread

/-- The codec compares the property as a whole with `NULLABLE`: other bits change a nullable
column, and change nothing in a column that is not nullable. -/
theorem propertyIndependent_iff (a : Attribute) (v : MaybeValue) :
    a.PropertyIndependent v ↔ a.isNullable = false := by
  constructor
  · intro h
    by_contra hnull
    rw [Bool.not_eq_false, Attribute.isNullable_iff] at hnull
    have hbit : a.property &&& propNullable = propNullable := by
      have hmod := Nat.and_one_is_mod a.property
      have hone : propNullable = 1 := rfl
      rw [hone] at hnull ⊢
      omega
    by_cases hprop : a.property = propNullable
    · have hother := h 3 (by decide) (by rw [hbit]; rfl)
      exact Attribute.not_alike_of_equal v hprop (by simp [propNullable]) hother
    · obtain ⟨hlen, hencode, hdecode, hsize⟩ := h propNullable (by decide) (by rw [hbit]; rfl)
      have hback : Attribute.Alike { a with property := propNullable } a v :=
        ⟨hlen.symm, fun m off => (hencode m off).symm, fun m off => (hdecode m off).symm, hsize.symm⟩
      exact Attribute.not_alike_of_equal v rfl hprop hback
  · intro hnull p hp hbit
    have hzero : a.property &&& propNullable = 0 := by simpa [Attribute.isNullable] using hnull
    exact Attribute.alike_of_not_nullable v hzero (by rw [hbit, hzero])

/-- The column `int:x nullable key`. -/
def nullableKey : Attribute := ⟨text "x", ⟨.integer, 0⟩, propNullable + propKey⟩

/-- It rejects the null that the column without `key` accepts, and writes its integer without a
flag into one byte less than its default size. -/
theorem nullableKey_not_propertyIndependent :
    nullableKey.encode none (fun _ => 0) 0 = .error .valueUnset ∧
      nullableKey.defaultSize = some 9 ∧ nullableKey.encodedLength (some (.int 5)) = .ok 8 ∧
      ¬nullableKey.PropertyIndependent none := by
  refine ⟨rfl, rfl, rfl, fun h => ?_⟩
  have halike := h propNullable (by decide) rfl
  exact absurd halike.1 (by decide)

end Reir
