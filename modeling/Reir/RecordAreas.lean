import Reir.InsertedRows

/-! The key and the value area of the statements on records. Their sizes come from one definition of
the table, and the offsets in the code from another if the table is defined again. -/
namespace Reir
open Gen

/-- The number of elements of a row. -/
def Expression.elements (Γ : TypeEnv) (e : Expression) : ℕ := ((e.elementTypes Γ).getD []).length

/-- The bytes of the pieces in one of the areas. -/
def packed (inKey : Bool) (ps : List (Bool × ℕ)) : ℕ :=
  ((ps.filter fun p => p.1 = inKey).map Prod.snd).sum

/-- The columns with the sizes that `Insert` copies. -/
def columnSizes (as : List Attribute) : List (Bool × ℕ) :=
  as.map fun a => (a.isKey, a.defaultSize.getD 0)

/-- The columns with the sizes that `Scan` loads. -/
def loadSizes (as : List Attribute) : List (Bool × ℕ) := as.map fun a => (a.isKey, 8)

/-- The sizes of the pieces that the code of a statement writes or reads behind the prefix. -/
def TableUse.pieces (Γ : TypeEnv) (s : Schema) : TableUse → List (Bool × ℕ)
  | .insert _ e _ => columnSizes (s.attrs.take (e.elements Γ))
  | .scan _ _ => loadSizes s.attrs

theorem IsArea.unique {slots : List LLType} {slot : Option ℕ} {m n : ℕ} (h : IsArea slots slot m)
    (k : IsArea slots slot n) : m = n := by
  obtain ⟨i, rfl, hi⟩ := h
  obtain ⟨j, hj, hj'⟩ := k
  obtain rfl := Option.some.inj hj
  rw [hi] at hj'
  simpa using hj'

/-- With the last definition of the table in the program, the pieces of the statement are no
longer than the columns of the last definition before the statement, but for one byte behind the
key. -/
def PlacedUse.fits (Γ : TypeEnv) (tables : Tables) (p : PlacedUse) : Bool :=
  match lastTable p.before p.use.table, lastTable tables p.use.table with
  | some s, some last =>
    packed true (p.use.pieces Γ last) ≤ packed true (columnSizes s.attrs) + 1 ∧
      packed false (p.use.pieces Γ last) ≤ packed false (columnSizes s.attrs)
  | _, _ => true

end Reir
