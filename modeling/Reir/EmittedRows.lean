import Reir.ByteMemory
import Reir.CodegenRules

/-! The length of an emitted row. `Emit::codegen` adds up the primitive sizes of the columns, and
the primitive size of a struct or a pointer is zero; the row itself is stored with the layout of
its struct type. -/
namespace Reir
open Gen ByteMemory

/-- The next multiple of an alignment. -/
def alignTo (n a : ℕ) : ℕ := n+(a-n%a)%a

mutual

def LLType.align : LLType → ℕ
  | .void => 1
  | .i1 => 1
  | .i8 => 1
  | .i32 => 4
  | .i64 => 8
  | .double => 8
  | .ptr _ => 8
  | .array t _ => t.align
  | .string => 8
  | .row ts => alignAll ts
  | .scanRow _ ts => alignAll ts

def alignAll : List LLType → ℕ
  | [] => 1
  | t :: ts => max t.align (alignAll ts)

end

mutual

/-- The bytes that a value takes in memory. -/
def LLType.size : LLType → ℕ
  | .void => 0
  | .i1 => 1
  | .i8 => 1
  | .i32 => 4
  | .i64 => 8
  | .double => 8
  | .ptr _ => 8
  | .array t n => n*t.size
  | .string => 16
  | .row ts => alignTo (layoutEnd 0 ts) (alignAll ts)
  | .scanRow _ ts => alignTo (layoutEnd 0 ts) (alignAll ts)

/-- The end of fields that are laid out from an offset on. -/
def layoutEnd (off : ℕ) : List LLType → ℕ
  | [] => off
  | t :: ts => layoutEnd (alignTo off t.align+t.size) ts

end

/-- The offsets of fields that are laid out from an offset on. -/
def offsets (off : ℕ) : List LLType → List ℕ
  | [] => []
  | t :: ts => alignTo off t.align :: offsets (alignTo off t.align+t.size) ts

theorem alignTo_of_dvd {n a : ℕ} (h : a ∣ n) : alignTo n a = n := by
  rw [alignTo, Nat.mod_eq_zero_of_dvd h, Nat.sub_zero, Nat.mod_self, Nat.add_zero]

/-- The columns of a row: integers, strings and rows of such columns. -/
inductive LLType.IsColumn : LLType → Prop
  | int : IsColumn .i64
  | string : IsColumn .string
  | row {ts : List LLType} : (∀ t ∈ ts, IsColumn t) → IsColumn (.row ts)
  | scanRow {id : ℕ} {ts : List LLType} : (∀ t ∈ ts, IsColumn t) → IsColumn (.scanRow id ts)

theorem alignAll_dvd {ts : List LLType} (h : ∀ t ∈ ts, t.align ∣ 8) : alignAll ts ∣ 8 := by
  induction ts with
  | nil => exact one_dvd 8
  | cons t ts ih =>
    rw [List.forall_mem_cons] at h
    rw [alignAll]
    rcases max_choice t.align (alignAll ts) with hmax | hmax
    · rw [hmax]
      exact h.1
    · rw [hmax]
      exact ih h.2

/-- Fields whose sizes are multiples of every alignment leave no gaps. -/
theorem layoutEnd_eq_sum {ts : List LLType} {off : ℕ} (hoff : 8 ∣ off)
    (h : ∀ t ∈ ts, 8 ∣ t.size ∧ t.align ∣ 8) :
    layoutEnd off ts = off+(ts.map LLType.size).sum ∧ 8 ∣ layoutEnd off ts := by
  induction ts generalizing off with
  | nil => exact ⟨rfl, hoff⟩
  | cons t ts ih =>
    rw [List.forall_mem_cons] at h
    have halign : alignTo off t.align = off := alignTo_of_dvd (h.1.2.trans hoff)
    obtain ⟨hsum, hdvd⟩ := ih (hoff.add h.1.1) h.2
    rw [layoutEnd, halign, hsum, List.map_cons, List.sum_cons]
    rw [hsum] at hdvd
    exact ⟨by omega, hdvd⟩

theorem struct_size {ts : List LLType} (h : ∀ t ∈ ts, 8 ∣ t.size ∧ t.align ∣ 8) :
    alignTo (layoutEnd 0 ts) (alignAll ts) = (ts.map LLType.size).sum ∧
      8 ∣ (ts.map LLType.size).sum := by
  obtain ⟨hsum, hdvd⟩ := layoutEnd_eq_sum (dvd_zero 8) h
  have halign := alignAll_dvd fun t ht => (h t ht).2
  rw [Nat.zero_add] at hsum
  rw [alignTo_of_dvd (halign.trans hdvd), hsum]
  exact ⟨rfl, hsum ▸ hdvd⟩

theorem LLType.IsColumn.layout {t : LLType} (h : t.IsColumn) : 8 ∣ t.size ∧ t.align ∣ 8 := by
  induction h with
  | int => decide
  | string => decide
  | row _ ih =>
    obtain ⟨hsize, hdvd⟩ := struct_size ih
    rw [LLType.size, LLType.align, hsize]
    exact ⟨hdvd, alignAll_dvd fun t ht => (ih t ht).2⟩
  | scanRow _ ih =>
    obtain ⟨hsize, hdvd⟩ := struct_size ih
    rw [LLType.size, LLType.align, hsize]
    exact ⟨hdvd, alignAll_dvd fun t ht => (ih t ht).2⟩

structure RawRow where
  buff : List UInt8
  len : BitVec 64

/-- The constructor of `RawRow` copies the given number of bytes. -/
def RawRow.copy (m : Memory) (l : BitVec 64) : RawRow := ⟨read m 0 l.toNat, l⟩

/-- A struct with the given columns: a row literal, or the row of a `Scan`. -/
def IsRowOf (t : LLType) (ts : List LLType) : Prop := t = .row ts ∨ ∃ id, t = .scanRow id ts

/-- The length that is handed over is the sum of the primitive sizes. -/
def emittedLength (ts : List LLType) : BitVec 64 := (ts.map LLType.primitiveBytes).sum

theorem IsRowOf.fields {t : LLType} {ts : List LLType} (h : IsRowOf t ts) : t.fields = some ts := by
  rcases h with rfl | ⟨id, rfl⟩
  · rfl
  · rfl

theorem IsRowOf.size {t : LLType} {ts : List LLType} (h : IsRowOf t ts)
    (hcolumns : ∀ u ∈ ts, u.IsColumn) : t.size = (ts.map LLType.size).sum := by
  have hsize := (struct_size fun u hu => (hcolumns u hu).layout).1
  rcases h with rfl | ⟨id, rfl⟩
  · rw [LLType.size, hsize]
  · rw [LLType.size, hsize]

end Reir
