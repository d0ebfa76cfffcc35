import Reir.RowLayout

/-! The keys of rows. A key starts with the name of its table and a colon and goes on with the
words of the key columns, so that two rows with one key belong to one table. -/
namespace Reir
open ByteMemory

/-- One execution of an `Insert`, with the memory it finds. -/
structure Insertion where
  table : Schema
  row : List (BitVec 64)
  after : Memory
  key : Memory
  value : Memory

def Insertion.record (i : Insertion) : Option (Text × Text) :=
  insertRecord i.table i.row i.after i.key i.value

/-- The values of the key columns. -/
def Insertion.keyColumns (i : Insertion) : List (BitVec 64) :=
  ((i.table.attrs.zip i.row).filter fun c => c.1.isKey).map Prod.snd

/-- A row of a table of `int` columns that are not nullable. -/
structure Insertion.Plain (i : Insertion) : Prop where
  name : Schema.colonByte ∉ i.table.name
  columns : ∀ a ∈ i.table.attrs, a.type.kind = .integer ∧ a.isNullable = false
  row : i.row.length = i.table.attrs.length

theorem stream_shift (tuple : Memory) (κ : Bool) (cs : List Cell) (off n : ℕ) :
    stream tuple κ cs (n+off) = stream (fun a => tuple (n+a)) κ cs off := by
  induction cs generalizing off with
  | nil => rfl
  | cons c cs ih =>
    have hread : read tuple (n+off) c.size = read (fun a => tuple (n+a)) off c.size := by
      simp [ByteMemory.read, Nat.add_assoc]
    simp only [stream, hread, Nat.add_assoc, ih]

/-- Without nullable columns the two streams are the words of the columns of their kind. -/
theorem stream_columns (κ : Bool) (as : List Attribute) (h : ∀ a ∈ as, a.isNullable = false)
    (row : List (BitVec 64)) (hrow : row.length = as.length) (after : Memory) :
    stream (tupleMemory row after) κ (as.map intCell) 0 =
      (((as.zip row).filter fun c => c.1.isKey == κ).map Prod.snd).flatMap wordBytes := by
  induction as generalizing row with
  | nil => simp [stream]
  | cons a as ih =>
    cases row with
    | nil => simp at hrow
    | cons v row =>
      have hsize : (intCell a).size = 8 := by simp [intCell, h a (by simp)]
      have hread : read (tupleMemory (v :: row) after) 0 8 = wordBytes v := by
        apply List.map_congr_left
        intro k hk
        rw [Nat.zero_add]
        exact tupleMemory_head v row after (List.mem_range.mp hk)
      have hshift : (fun a => tupleMemory (v :: row) after (8+a)) = tupleMemory row after := by
        funext a
        exact tupleMemory_cons v row after a
      have hrest := ih (fun b hb => h b (List.mem_cons_of_mem a hb)) row (by simpa using hrow)
      have htail := stream_shift (tupleMemory (v :: row) after) κ (as.map intCell) 0 8
      rw [hshift, hrest] at htail
      rw [List.map_cons, stream, hsize, hread, Nat.zero_add, ← Nat.add_zero 8, htail]
      by_cases hk : a.isKey = κ
      · simp [intCell, hk]
      · simp [intCell, hk]

/-- The bytes behind the prefix of the key of a row. -/
def Insertion.payload (i : Insertion) : Text := i.keyColumns.flatMap wordBytes

theorem Insertion.Plain.record_key {i : Insertion} (h : i.Plain) :
    ∃ v, i.record = some (i.table.name ++ Schema.colonByte :: i.payload, v) := by
  have hint : i.table.IntColumns := fun a ha => (h.columns a ha).1
  have hstream := stream_columns true i.table.attrs (fun a ha => (h.columns a ha).2) i.row h.row i.after
  refine ⟨stream (tupleMemory i.row i.after) false (i.table.attrs.map intCell) 0, ?_⟩
  rw [Insertion.record, insertRecord_eq (mapM_cell hint), hstream]
  simp [Schema.getKeyPrefix, Insertion.payload, Insertion.keyColumns]

/-- Two keys with the same bytes start with the same table name. -/
theorem append_colon_inj {m n p q : Text} (hm : Schema.colonByte ∉ m) (hn : Schema.colonByte ∉ n)
    (h : m ++ Schema.colonByte :: p = n ++ Schema.colonByte :: q) : m = n ∧ p = q := by
  induction m generalizing n with
  | nil =>
    cases n with
    | nil => simpa using h
    | cons y n =>
      simp only [List.nil_append, List.cons_append, List.cons.injEq] at h
      exact absurd (by simp [h.1]) hn
  | cons x m ih =>
    cases n with
    | nil =>
      simp only [List.nil_append, List.cons_append, List.cons.injEq] at h
      exact absurd (by simp [h.1]) hm
    | cons y n =>
      simp only [List.cons_append, List.cons.injEq] at h
      obtain ⟨rfl, h⟩ := h
      obtain ⟨rfl, hpq⟩ := ih (fun hx => hm (List.mem_cons_of_mem x hx))
        (fun hx => hn (List.mem_cons_of_mem x hx)) h
      exact ⟨rfl, hpq⟩

theorem wordBytes_injective : Function.Injective wordBytes := by
  intro v w h
  have hword := congrArg wordOf h
  rwa [wordOf_wordBytes, wordOf_wordBytes] at hword

theorem flatMap_wordBytes_injective {vs ws : List (BitVec 64)}
    (h : vs.flatMap wordBytes = ws.flatMap wordBytes) : vs = ws := by
  induction vs generalizing ws with
  | nil =>
    cases ws with
    | nil => rfl
    | cons w ws =>
      have hlen := congrArg List.length h
      simp at hlen
      omega
  | cons v vs ih =>
    cases ws with
    | nil =>
      have hlen := congrArg List.length h
      simp at hlen
    | cons w ws =>
      rw [List.flatMap_cons, List.flatMap_cons] at h
      have hlen : (wordBytes v).length = (wordBytes w).length := by simp
      have hparts := List.append_inj h hlen
      rw [wordBytes_injective hparts.1, ih hparts.2]

/-- Two rows have one key exactly when their tables have one name and their key columns the same
values. -/
theorem key_eq_iff {i j : Insertion} (hi : i.Plain) (hj : j.Plain) :
    ∃ k v k' v', i.record = some (k, v) ∧ j.record = some (k', v') ∧
      (k = k' ↔ i.table.name = j.table.name ∧ i.keyColumns = j.keyColumns) := by
  obtain ⟨v, hrec⟩ := hi.record_key
  obtain ⟨v', hrec'⟩ := hj.record_key
  refine ⟨_, v, _, v', hrec, hrec', ?_⟩
  constructor
  · intro h
    have hparts := append_colon_inj hi.name hj.name h
    exact ⟨hparts.1, flatMap_wordBytes_injective hparts.2⟩
  · intro h
    rw [h.1, Insertion.payload, Insertion.payload, h.2]

/-- A row of the table `a` whose key column holds the bytes `:b:`. -/
def colonRow : Insertion :=
  ⟨⟨text "a", [⟨text "x", ⟨.integer, 0⟩, propKey⟩]⟩, [0x3A623A], fun _ => 0, fun _ => 0, fun _ => 0⟩

/-- A row of the table `ab`. -/
def otherRow : Insertion :=
  ⟨⟨text "ab", [⟨text "x", ⟨.integer, 0⟩, propKey⟩]⟩, [0x3A], fun _ => 0, fun _ => 0, fun _ => 0⟩

theorem key_eq_iff_colonRow :
    ∃ k v k' v', colonRow.record = some (k, v) ∧ otherRow.record = some (k', v') ∧
      (k = k' ↔ colonRow.table.name = otherRow.table.name ∧
        colonRow.keyColumns = otherRow.keyColumns) := by
  have hplain : colonRow.Plain := ⟨by decide, by decide, rfl⟩
  have hplain' : otherRow.Plain := ⟨by decide, by decide, rfl⟩
  exact key_eq_iff hplain hplain'

end Reir
