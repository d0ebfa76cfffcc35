import Reir.AnalysisCoverage
import Reir.SlotTypes

/-! Declared tuples. `Let::analyze` takes a declared tuple type as it is and compares it with the
row literal neither in length nor in types. The slot is laid out by the literal, and the offset of a
member reference is that of its name in the declared type. -/
namespace Reir
open Gen

mutual

/-- A column of this type takes a value of the LLVM type. -/
def NodeType.fits (Γ : TypeEnv) : NodeType → LLType → Bool
  | .primary id, f => Γ.convert (.primary id) == some f
  | .array id, .array f _ => Γ.convert (.primary id) == some f
  | .array _, _ => false
  | .tuple _ _ _ _ _ types, f => match f.fields with
    | some fs => columnsTake Γ types fs
    | none => false

def columnTakes (Γ : TypeEnv) : Option NodeType → LLType → Bool
  | some t, f => t.fits Γ f
  | none, _ => false

/-- As many columns as fields, each of which takes its field. -/
def columnsTake (Γ : TypeEnv) : List (Option NodeType) → List LLType → Bool
  | [], [] => true
  | t :: ts, f :: fs => columnTakes Γ t f && columnsTake Γ ts fs
  | _, _ => false

end

def NodeType.names : NodeType → List Text
  | .tuple _ names _ _ _ _ => names
  | _ => []

def NodeType.types : NodeType → List (Option NodeType)
  | .tuple _ _ _ _ _ types => types
  | _ => []

/-- A `Let` of a row literal with a declared tuple type. -/
structure Declared where
  name : Text
  type : NodeType
  elements : List Expression

/-- The type of a literal without a declared one has no type names. -/
def declaredLet (x : Text) : Expression → Option NodeType → List Declared
  | .rowLiteral _ es, some (.tuple id names (tn :: tns) props params types) =>
    [⟨x, .tuple id names (tn :: tns) props params types, es⟩]
  | _, _ => []

mutual

def Statement.declared : Statement → List Declared
  | .block ss => declaredAll ss
  | .transaction _ ss => declaredAll ss
  | .forStmt init _ _ blk => declaredInit init ++ declaredAll blk
  | .scan _ _ blk _ => declaredAll blk
  | .letStmt x e type => declaredLet x e type
  | .ifStmt _ ts fs => declaredAll ts ++ declaredElse fs
  | _ => []

def declaredInit : Ptr Statement → List Declared
  | .to s => s.declared
  | _ => []

def declaredElse : Option (List Statement) → List Declared
  | some ss => declaredAll ss
  | none => []

def declaredAll : List Statement → List Declared
  | [] => []
  | s :: ss => s.declared ++ declaredAll ss

end

/-- A member reference through a variable of this name. -/
def Expression.isMemberOf (x : Text) : Expression → Bool
  | .memberReference _ (.variable _ y) _ _ => x = y
  | _ => false

/-- A member reference through the variable of a declaration: the analysis has found the declared
type for the name, or it has not come to the reference. -/
def Declared.Reaches (l : Declared) : Expression → Prop
  | .memberReference _ (.variable n x) _ _ => x = l.name ∧ (n.type = some l.type ∨ n.type = none)
  | _ => False

/-- The offset is below the number of fields of the slot that `get_ref` takes, and it selects the
column of that name: the column has the offset in the declared type and takes the field. -/
def MemberFits (c : Ctx) (l : Declared) : Expression → Prop
  | .memberReference _ p y o => ∃ i base t fs f, o = some i ∧ (memberBase p).run c = .ok (base, c) ∧
      base.ty = .ptr t ∧ t.fields = some fs ∧ fs[i]? = some f ∧ l.type.names[i]? = some y ∧
        ∃ column, l.type.types[i]? = some column ∧ columnTakes c.typeEnv column f = true
  | _ => True

/-- The row literal has exactly one element for each column, of the type of the column, and the
member references through the variable fit its slot. -/
structure Declared.Fits (c : Ctx) (es : List Expression) (l : Declared) : Prop where
  value : ∃ t c' fs, (Expression.rowLiteral {} l.elements).getType.run c = .ok (t, c') ∧
    t.fields = some fs ∧ fs.length = l.type.names.length ∧
      List.Forall₂ (fun t f => columnTakes c.typeEnv t f = true) l.type.types fs
  members : ∀ e ∈ es, ∀ m ∈ e.parts false, l.Reaches m → MemberFits c l m

/-- The literal has as many elements as there are columns, of their types. -/
def Declared.literalFits (Γ : TypeEnv) (l : Declared) : Bool :=
  match typesIn Γ l.elements with
  | some fs => l.elements.length = l.type.names.length ∧ columnsTake Γ l.type.types fs = true
  | none => false

/-- The slot of the name has a field for the column named `y`, at the place of the column and of its
type. -/
def Declared.slotFits (Γ : TypeEnv) (l : Declared) (y : Text) : Bool :=
  match l.type.names.findIdx? (· == y), (Γ.slot l.name).bind LLType.fields with
  | some i, some fs =>
    match l.type.types[i]?, fs[i]? with
    | some column, some f => columnTakes Γ column f
    | _, _ => false
  | _, _ => false

def Expression.memberName : Expression → Text
  | .memberReference _ _ y _ => y
  | _ => []

/-- The literal fits the declared type, and so does what the name stands for at the end; no member
reference through the variable stands where the analysis does not go. -/
structure Declared.Matches (Γ : TypeEnv) (source es : List Expression) (l : Declared) : Prop where
  literal : l.literalFits Γ = true
  covered : ∀ e ∈ source, e.covered false (Expression.isMemberOf l.name) = true
  slot : ∀ e ∈ es, ∀ m ∈ e.parts false, l.Reaches m → l.slotFits Γ m.memberName = true

theorem Declared.Reaches.isMemberOf {l : Declared} {m : Expression} (h : l.Reaches m) :
    m.isMemberOf l.name = true := by
  unfold Declared.Reaches at h
  split at h
  case h_1 => simp [Expression.isMemberOf, h.1]
  case h_2 => exact h.elim

end Reir
