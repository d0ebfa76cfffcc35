import Reir.Schema

/-! The part of the LLVM representation that the compiler builds: types, values and
instructions. A basic block is the list of its instructions, terminators included, because
nothing in the builder stops an instruction from being appended behind a terminator. -/
namespace Reir

/-- A row literal has one struct type for each list of element types; the row of a `Scan` has
a struct type of its own, with the number of its creation. -/
inductive LLType
  | void | i1 | i8 | i32 | i64 | double
  | ptr (t : LLType)
  | array (t : LLType) (n : ℕ)
  | string
  | row (elems : List LLType)
  | scanRow (id : ℕ) (elems : List LLType)
  deriving Repr

namespace LLType

mutual

def beq : LLType → LLType → Bool
  | .void, .void => true
  | .i1, .i1 => true
  | .i8, .i8 => true
  | .i32, .i32 => true
  | .i64, .i64 => true
  | .double, .double => true
  | .ptr a, .ptr b => beq a b
  | .array a m, .array b n => beq a b && m == n
  | .string, .string => true
  | .row as, .row bs => beqList as bs
  | .scanRow i as, .scanRow j bs => i == j && beqList as bs
  | _, _ => false

def beqList : List LLType → List LLType → Bool
  | [], [] => true
  | a :: as, b :: bs => beq a b && beqList as bs
  | _, _ => false

end

mutual

theorem beq_iff (a b : LLType) : beq a b = true ↔ a = b := by
  cases a with
  | ptr a =>
    cases b with
    | ptr b => simp [beq, beq_iff a b]
    | _ => simp [beq]
  | array a m =>
    cases b with
    | array b n => simp [beq, beq_iff a b]
    | _ => simp [beq]
  | row as =>
    cases b with
    | row bs => simp [beq, beqList_iff as bs]
    | _ => simp [beq]
  | scanRow i as =>
    cases b with
    | scanRow j bs => simp [beq, beqList_iff as bs]
    | _ => simp [beq]
  | _ => cases b <;> simp [beq]

theorem beqList_iff (as bs : List LLType) : beqList as bs = true ↔ as = bs := by
  cases as with
  | nil => cases bs <;> simp [beqList]
  | cons a as =>
    cases bs with
    | nil => simp [beqList]
    | cons b bs => simp [beqList, beq_iff a b, beqList_iff as bs]

end

instance : DecidableEq LLType := fun a b => decidable_of_iff _ (beq_iff a b)

def isStruct : LLType → Bool
  | .string => true
  | .row _ => true
  | .scanRow _ _ => true
  | _ => false

def isInteger : LLType → Bool
  | .i1 => true
  | .i8 => true
  | .i32 => true
  | .i64 => true
  | _ => false

def isPointer : LLType → Bool
  | .ptr _ => true
  | _ => false

/-- The types of the fields of a struct. -/
def fields : LLType → Option (List LLType)
  | .string => some [.ptr .i8, .i64]
  | .row ts => some ts
  | .scanRow _ ts => some ts
  | _ => none

/-- The type at an index of a struct or an array. -/
def fieldAt (t : LLType) (i : ℕ) : Option LLType :=
  match t with
  | .array a n => if i < n then some a else none
  | t => t.fields.bind fun ts => ts[i]?

/-- `(getPrimitiveSizeInBits() + 7) / 8`; zero for what is not primitive. -/
def primitiveBytes : LLType → ℕ
  | .i1 => 1
  | .i8 => 1
  | .i32 => 4
  | .i64 => 8
  | .double => 8
  | _ => 0

end LLType

/-- Operands: constants, addresses of stack slots and of constant text, the addresses of
compiler structures that are built into the code, and results of instructions. -/
inductive Op
  | int (v : BitVec 64)
  | bool (b : Bool)
  | int8 (v : BitVec 8)
  | int32 (v : BitVec 32)
  | text (s : Text)
  | undef
  | slot (i : ℕ)
  | global (s : Text)
  | host
  | reg (r : ℕ)
  deriving DecidableEq, Repr

structure LLValue where
  op : Op
  ty : LLType
  deriving DecidableEq

inductive BinOp
  | add | sub | mul | sdiv | srem
  deriving DecidableEq, Repr

inductive Pred
  | eq | ne | slt | sle | sgt | sge
  deriving DecidableEq, Repr

/-- A construct with a block of statements. -/
inductive Frame
  | transaction | loop | scan
  deriving DecidableEq, Repr

/-- The construct an instruction was emitted for; a jump and a transaction with the constructs around
them, the innermost first. -/
inductive Origin
  | letStmt | assign | rowLiteral | arrayLiteral | functionCall | argument | shortCircuit
  | ifStmt | forStmt | scan | emit | insert
  | jump (around : List Frame)
  | transaction (around : List Frame)
  deriving DecidableEq, Repr

structure Tag where
  origin : Origin
  node : ℕ := 0
  deriving DecidableEq, Repr

inductive Instr
  | alloca (slot : ℕ)
  | binary (dst : ℕ) (op : BinOp) (lhs rhs : LLValue)
  | icmp (dst : ℕ) (pred : Pred) (lhs rhs : LLValue)
  | load (dst : ℕ) (ptr : LLValue)
  | store (tag : Tag) (val ptr : LLValue)
  | gep (dst : ℕ) (base : LLValue) (indices : List LLValue)
  | bitcast (dst : ℕ) (val : LLValue)
  | insertValue (dst : ℕ) (tag : Tag) (agg val : LLValue) (idx : ℕ)
  | call (dst : ℕ) (tag : Tag) (func : Text) (args : List LLValue)
  | memcpy (dst src : LLValue) (len : ℕ)
  | phi (dst : ℕ) (incoming : List (LLValue × ℕ))
  | br (tag : Tag) (target : ℕ)
  | condBr (tag : Tag) (cond : LLValue) (ifTrue ifFalse : ℕ)
  | ret (val : LLValue)
  deriving DecidableEq

def Instr.isTerminator : Instr → Bool
  | .br _ _ => true
  | .condBr _ _ _ _ => true
  | .ret _ => true
  | _ => false

structure LoopContext where
  begin : ℕ
  body : ℕ
  every : ℕ
  finish : ℕ
  deriving DecidableEq

end Reir
