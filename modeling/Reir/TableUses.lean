import Reir.CompileFailure
import Reir.RowBinding

/-! The statements on the records of a table. The areas of an `Insert` or a `Scan` are sized by the
definition of the table that the allocation pass has come to last; the code of all statements is
generated afterwards, with the last definition of the program. -/
namespace Reir
open Gen

/-- An `Insert` or a `Scan`, with what `alloca_stack` records in it. -/
inductive TableUse
  | insert (table : Text) (value : Expression) (frame : InsertFrame)
  | scan (table : Text) (frame : ScanFrame)

namespace TableUse

def table : TableUse → Text
  | .insert x _ _ => x
  | .scan x _ => x

def keyStack : TableUse → Option ℕ
  | .insert _ _ frame => frame.keyStack
  | .scan _ frame => frame.keyStack

def valueStack : TableUse → Option ℕ
  | .insert _ _ frame => frame.valueStack
  | .scan _ frame => frame.valueStack

/-- As the constructor leaves the statement. -/
def fresh : TableUse → Bool
  | .insert _ _ frame => frame = {}
  | .scan _ frame => frame = {}

/-- The statement as it stands in the program. -/
def source : TableUse → TableUse
  | .insert x e _ => .insert x e {}
  | .scan x _ => .scan x {}

end TableUse

mutual

/-- The statements on records in a statement, in the order of the program. -/
def Statement.uses : Statement → List TableUse
  | .block ss => usesAll ss
  | .transaction _ ss => usesAll ss
  | .forStmt init _ _ blk => usesInit init ++ usesAll blk
  | .insert x e frame => [.insert x e frame]
  | .scan x _ blk frame => .scan x frame :: usesAll blk
  | .ifStmt _ ts fs => usesAll ts ++ usesElse fs
  | _ => []

def usesInit : Ptr Statement → List TableUse
  | .to s => s.uses
  | _ => []

def usesElse : Option (List Statement) → List TableUse
  | some ss => usesAll ss
  | none => []

def usesAll : List Statement → List TableUse
  | [] => []
  | s :: ss => s.uses ++ usesAll ss

end

abbrev Tables := List (Text × List Attribute)

/-- The schema of the last of these definitions with the name. -/
def lastTable (tables : Tables) (x : Text) : Option Schema :=
  (tables.reverse.find? fun t => t.1 = x).map fun t => ⟨x, t.2⟩

/-- The tables that the allocation pass creates for a statement. -/
def Statement.tables (s : Statement) : Tables := s.visits.filterMap Visit.table

def tablesAll (ss : List Statement) : Tables := (visitsAll ss).filterMap Visit.table

/-- The tables of the init part of a `For`, which is allocated twice. -/
def tablesInit : Ptr Statement → Tables
  | .to s => (s.allocas ++ s.allocas).filterMap Visit.table
  | _ => []

/-- A statement on records with the definitions that the allocation pass comes to before it. -/
structure PlacedUse where
  before : Tables
  use : TableUse

mutual

def Statement.placed (before : Tables) : Statement → List PlacedUse
  | .block ss => placedAll before ss
  | .transaction _ ss => placedAll before ss
  | .forStmt init _ _ blk => placedInit before init ++ placedAll (before ++ tablesInit init) blk
  | .insert x e frame => [⟨before, .insert x e frame⟩]
  | .scan x _ blk frame => ⟨before, .scan x frame⟩ :: placedAll before blk
  | .ifStmt _ ts fs => placedAll before ts ++ placedElse (before ++ tablesAll ts) fs
  | _ => []

def placedInit (before : Tables) : Ptr Statement → List PlacedUse
  | .to s => s.placed before
  | _ => []

def placedElse (before : Tables) : Option (List Statement) → List PlacedUse
  | some ss => placedAll before ss
  | none => []

def placedAll (before : Tables) : List Statement → List PlacedUse
  | [] => []
  | s :: ss => s.placed before ++ placedAll (before ++ s.tables) ss

end

/-- The statements on records of a program as the parser builds it. -/
def UsesFresh (us : List TableUse) : Prop := ∀ u ∈ us, u.fresh = true

theorem usesFresh_append {us vs : List TableUse} :
    UsesFresh (us ++ vs) ↔ UsesFresh us ∧ UsesFresh vs := List.forall_mem_append

/-- The table of schemas holds the last definition of each name, and a column has a size. -/
structure Catalogued (c : Ctx) : Prop where
  schemas : ∀ x, c.schemas x = lastTable c.created x
  sized : ∀ t ∈ c.created, ∀ a ∈ t.2, a.defaultSize.isSome = true

theorem Catalogued.of_eq {c c' : Ctx} (hs : c'.schemas = c.schemas) (hc : c'.created = c.created)
    (h : Catalogued c) : Catalogued c' where
  schemas := by rw [hs, hc]; exact h.schemas
  sized := by rw [hc]; exact h.sized

/-- The slot is an area of so many bytes. -/
def IsArea (slots : List LLType) (slot : Option ℕ) (n : ℕ) : Prop :=
  ∃ i, slot = some i ∧ slots[i]? = some (.array .i8 n)

theorem IsArea.mono {slots slots' : List LLType} {slot : Option ℕ} {n : ℕ} (h : IsArea slots slot n)
    (hle : slots <+: slots') : IsArea slots' slot n := by
  obtain ⟨i, hslot, harea⟩ := h
  obtain ⟨more, rfl⟩ := hle
  have hi : i < slots.length := (List.getElem?_eq_some_iff.mp harea).1
  exact ⟨i, hslot, by rw [List.getElem?_append_left hi, harea]⟩

/-- A statement on records after the allocation pass: its areas have the sizes of the definition
of its table that comes last before it. -/
structure Sized (slots : List LLType) (u : TableUse) (p : PlacedUse) : Prop where
  source : u.source = p.use.source
  areas : ∃ s k v, lastTable p.before u.table = some s ∧ s.getFixedKeyLength = some k ∧
    s.getFixedValueLength = some v ∧ IsArea slots u.keyStack k ∧ IsArea slots u.valueStack v

theorem Sized.mono {slots slots' : List LLType} {u : TableUse} {p : PlacedUse} (h : Sized slots u p)
    (hle : slots <+: slots') : Sized slots' u p := by
  obtain ⟨s, k, v, hs, hk, hv, hkey, hvalue⟩ := h.areas
  exact ⟨h.source, s, k, v, hs, hk, hv, hkey.mono hle, hvalue.mono hle⟩

section
variable {c c₁ : Ctx} {slots : List LLType}

end

theorem created_emits {c c' : Ctx} (h : Ctx.Emits c c') : c'.created = c.created := by
  have htables := congrArg Ctx.created h.tables_eq
  exact htables

theorem Catalogued.emits {c c' : Ctx} (hc : Catalogued c) (h : Ctx.Emits c c') : Catalogued c' := by
  have htables := congrArg Ctx.schemas h.tables_eq
  have hschemas : c'.schemas = c.schemas := htables
  exact hc.of_eq hschemas (created_emits h)

end Reir
