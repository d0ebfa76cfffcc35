import Reir.Parser

/-! Table schemas: attribute types and sizes, key columns, and the prefix that every key of
a table starts with. -/
namespace Reir

/-- The types of the enumeration, and the values behind them that a cast from a number can
give: `other n` is the number `n + 5`. -/
inductive AttrKind
  | integer | double | string | date | unknown
  | other (n : ℕ)
  deriving DecidableEq, Repr

structure AttrType where
  kind : AttrKind
  param : ℕ := 0
  deriving DecidableEq, Repr

def AttrType.fixedLength (t : AttrType) : Bool := t.kind ≠ .string ∨ t.param ≠ 0

def AttrType.isInteger (t : AttrType) : Bool := t.kind = .integer

/-- `none` is the exception for an unknown type. -/
def AttrType.defaultSize (t : AttrType) : Option ℕ :=
  match t.kind with
  | .integer => some 8
  | .string => some t.param
  | .date => some 8
  | .double => some 8
  | .unknown => none
  | .other _ => none

structure Attribute where
  name : Text
  type : AttrType
  property : ℕ := 0
  deriving DecidableEq, Repr

def Attribute.isKey (a : Attribute) : Bool := a.property &&& propKey ≠ 0

def Attribute.isNullable (a : Attribute) : Bool := a.property &&& propNullable ≠ 0

/-- A nullable column takes one byte more. -/
def Attribute.defaultSize (a : Attribute) : Option ℕ :=
  if a.isNullable then a.type.defaultSize.map (·+1) else a.type.defaultSize

structure Schema where
  name : Text
  attrs : List Attribute
  deriving DecidableEq, Repr

namespace Schema

def fixedKeyLength (s : Schema) : Bool :=
  s.attrs.all fun a => !(a.isKey && !a.type.fixedLength)

def fixedValueLength (s : Schema) : Bool :=
  s.attrs.all fun a => !(!a.isKey && !a.type.fixedLength)

/-- The sum of the default sizes of some of the columns. -/
def sizeOf (attrs : List Attribute) : Option ℕ :=
  match attrs with
  | [] => some 0
  | a :: as => do
    let n ← a.defaultSize
    let rest ← sizeOf as
    pure (n+rest)

/-- The name, the colon, the key columns, and one byte more. -/
def getFixedKeyLength (s : Schema) : Option ℕ :=
  if s.fixedKeyLength then
    (sizeOf (s.attrs.filter Attribute.isKey)).map fun n => s.name.length+1+n+1
  else none

def getFixedValueLength (s : Schema) : Option ℕ :=
  if s.fixedValueLength then sizeOf (s.attrs.filter fun a => !a.isKey) else none

/-- The byte `:`. -/
def colonByte : UInt8 := 58

def getKeyPrefix (s : Schema) : Text := s.name ++ [colonByte]

/-- The keys a `Scan` starts from and stops at. -/
def prefixBegin (s : Schema) : Text := s.getKeyPrefix

/-- `prefix_end[prefix_end.size() - 2]++`. -/
def prefixEnd (s : Schema) : Text :=
  s.getKeyPrefix.modify (s.getKeyPrefix.length-2) (·+1)

end Schema

end Reir
