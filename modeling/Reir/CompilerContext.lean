import Reir.IR
import Reir.RowLayout

/-! The compiler context: its tables, the function under construction with the builder's
insert point, and the operations of the builder. A compilation step returns or fails; what
would follow a null or indeterminate pointer, read past a vector or trip an assertion is a
failure of its own kind, apart from the exceptions of the source. -/
namespace Reir

inductive CompileError
  | undefinedVariable (name : Text)
  | undefinedType (name : Text)
  | unknownPrimary
  | emptyArrayLiteral
  | notArray
  | notTuple
  | memberNotFound (name : Text)
  | unknownLetType (name : Text)
  | operandTypes (lhs rhs : TypeId) (op : Operators)
  | unsupportedValue
  | unknownType (id : TypeId)
  | undefinedFunction (name : Text)
  | zeroLengthArray
  | notDefined (name : Text)
  | differentTypes
  | unexpectedArgument
  | unknownOperator
  | nonStructEmit
  | nonRowInsert
  | undefinedTable (name : Text)
  | variableLength
  | alreadyInitialized
  | nonInteger
  | assertion
  | undefined
  deriving DecidableEq, Repr

/-- `CompilerContext`. A table of pointers maps a name to nothing, to the null pointer (as
`operator[]` leaves it behind) or to an object. The slots are the allocas in order of
creation; the tables of global constants are left out because a constant is its text. -/
structure Ctx where
  schemas : Text → Option Schema
  analyzeTypes : Text → Option (Option NodeType)
  varTypes : Text → Option (Option NodeType)
  types : Text → Option LLType
  vars : Text → Option (Option ℕ)
  rowTypes : List (List LLType)
  scans : ℕ
  slots : List LLType
  blocks : List (List Instr)
  cur : ℕ
  nextReg : ℕ
  loads : List (ℕ × LLValue)
  loops : List LoopContext
  created : List (Text × List Attribute)

/-- What is left of a failed step: its error, and the tables that exist by then. -/
structure Failure where
  error : CompileError
  created : List (Text × List Attribute)
  deriving DecidableEq

/-- A step of the compilation. -/
structure Gen (α : Type) where
  run : Ctx → Except Failure (α × Ctx)

namespace Gen

def pure {α : Type} (a : α) : Gen α := ⟨fun c => .ok (a, c)⟩

def bind {α β : Type} (p : Gen α) (f : α → Gen β) : Gen β :=
  ⟨fun c => match p.run c with
    | .ok (a, c') => (f a).run c'
    | .error e => .error e⟩

instance : Monad Gen where
  pure := Gen.pure
  bind := Gen.bind

def fail {α : Type} (e : CompileError) : Gen α := ⟨fun c => .error ⟨e, c.created⟩⟩

def get : Gen Ctx := ⟨fun c => .ok (c, c)⟩

def modify (f : Ctx → Ctx) : Gen Unit := ⟨fun c => .ok ((), f c)⟩

/-- The value behind a pointer, or the failure of following a null one. -/
def require {α : Type} (e : CompileError) : Option α → Gen α
  | some a => Gen.pure a
  | none => fail e

section
variable {α β : Type} {p : Gen α} {f : α → Gen β} {c c' : Ctx} {a : α} {b : β} {e : CompileError}

@[simp] theorem run_pure : (Pure.pure a : Gen α).run c = .ok (a, c) := rfl

@[simp] theorem run_fail : (fail e : Gen α).run c = .error ⟨e, c.created⟩ := rfl

theorem run_bind : (p >>= f).run c = match p.run c with
    | .ok (a, c') => (f a).run c'
    | .error e => .error e := rfl

theorem bind_ok (h : p.run c = .ok (a, c')) : (p >>= f).run c = (f a).run c' := by
  rw [run_bind, h]

/-- A sequence that returned: both of its parts did. -/
theorem bind_eq_ok : (p >>= f).run c = .ok (b, c') ↔
    ∃ a c₁, p.run c = .ok (a, c₁) ∧ (f a).run c₁ = .ok (b, c') := by
  rw [run_bind]
  cases h : p.run c with
  | ok r =>
    obtain ⟨a, c₁⟩ := r
    simp
  | error e => simp

/-- A sequence that failed: one of its parts did. -/
theorem bind_eq_error {e : Failure} : (p >>= f).run c = .error e ↔
    p.run c = .error e ∨ ∃ a c₁, p.run c = .ok (a, c₁) ∧ (f a).run c₁ = .error e := by
  rw [run_bind]
  cases h : p.run c with
  | ok r =>
    obtain ⟨a, c₁⟩ := r
    simp
  | error e => simp

@[simp] theorem pure_eq_ok {a' : α} :
    (Pure.pure a : Gen α).run c = .ok (a', c') ↔ a = a' ∧ c = c' := by
  simp

@[simp] theorem fail_eq_ok : (fail e : Gen α).run c = .ok (a, c') ↔ False := by
  simp

@[simp] theorem get_eq_ok {d : Ctx} : get.run c = .ok (d, c') ↔ c = d ∧ c = c' := by
  simp [get]

@[simp] theorem modify_eq_ok {g : Ctx → Ctx} {u : Unit} :
    (modify g).run c = .ok (u, c') ↔ g c = c' := by
  simp [modify]

@[simp] theorem require_eq_ok {o : Option α} :
    (require e o).run c = .ok (a, c') ↔ o = some a ∧ c = c' := by
  cases o with
  | none => simp [require]
  | some x =>
    change (Except.ok (x, c) : Except Failure (α × Ctx)) = .ok (a, c') ↔ _
    simp

theorem map_eq_ok {g : α → β} : (g <$> p).run c = .ok (b, c') ↔
    ∃ a, p.run c = .ok (a, c') ∧ g a = b := by
  change (p >>= fun a => Pure.pure (g a)).run c = .ok (b, c') ↔ _
  rw [bind_eq_ok]
  constructor
  · rintro ⟨a, c₁, hp, hf⟩
    rw [pure_eq_ok] at hf
    obtain ⟨rfl, rfl⟩ := hf
    exact ⟨a, hp, rfl⟩
  · rintro ⟨a, hp, rfl⟩
    exact ⟨a, c', hp, rfl⟩

/-- Whether a step returns with a value and a context that pass a check. -/
def returnsWith (p : Gen α) (c : Ctx) (q : α → Ctx → Bool) : Bool :=
  match p.run c with
  | .ok (a, c') => q a c'
  | .error _ => false

theorem returnsWith_iff {q : α → Ctx → Bool} :
    p.returnsWith c q = true ↔ ∃ a c', p.run c = .ok (a, c') ∧ q a c' = true := by
  unfold returnsWith
  cases p.run c with
  | ok r =>
    obtain ⟨a, c'⟩ := r
    simp
  | error e => simp

theorem run_of_isOk (h : (p.run c).isOk = true) : ∃ a c', p.run c = .ok (a, c') := by
  cases hrun : p.run c with
  | ok r => exact ⟨r.1, r.2, rfl⟩
  | error e =>
    rw [hrun] at h
    exact absurd h (by simp [Except.isOk, Except.toBool])

end

/-- What a step that returns leaves as it was. -/
def Keeps {α κ : Type} (k : Ctx → κ) (p : Gen α) : Prop :=
  ∀ ⦃c a c'⦄, p.run c = .ok (a, c') → k c' = k c

/-- A property of what a step returns. -/
def Yields {α : Type} (p : Gen α) (Q : α → Prop) : Prop :=
  ∀ ⦃c a c'⦄, p.run c = .ok (a, c') → Q a

section
variable {α β κ : Type} {k : Ctx → κ} {p : Gen α} {f : α → Gen β}

theorem Keeps.bind (hp : Keeps k p) (hf : ∀ a, Keeps k (f a)) : Keeps k (p >>= f) := by
  intro c b c' h
  obtain ⟨a, c₁, h₁, h₂⟩ := bind_eq_ok.mp h
  rw [hf a h₂, hp h₁]

theorem keeps_pure (a : α) : Keeps k (Pure.pure a) := by
  intro c b c' h
  rw [(pure_eq_ok.mp h).2]

theorem keeps_fail (e : CompileError) : Keeps k (fail e : Gen α) := by
  intro c b c' h
  exact absurd h (by simp)

theorem keeps_get : Keeps k get := by
  intro c b c' h
  rw [(get_eq_ok.mp h).2]

theorem keeps_require (e : CompileError) (o : Option α) : Keeps k (require e o) := by
  intro c b c' h
  rw [(require_eq_ok.mp h).2]

theorem keeps_modify {g : Ctx → Ctx} (h : ∀ c, k (g c) = k c) : Keeps k (modify g) := by
  intro c u c' hrun
  rw [← modify_eq_ok.mp hrun, h]

theorem Yields.bind {P : α → Prop} {Q : β → Prop} (hp : p.Yields P)
    (hf : ∀ a, P a → (f a).Yields Q) : (p >>= f).Yields Q := by
  intro c b c' h
  obtain ⟨a, c₁, h₁, h₂⟩ := bind_eq_ok.mp h
  exact hf a (hp h₁) h₂

theorem yields_pure {a : α} {Q : α → Prop} (h : Q a) : (Pure.pure a : Gen α).Yields Q := by
  intro c b c' hrun
  rwa [← (pure_eq_ok.mp hrun).1]

theorem yields_fail (e : CompileError) (Q : α → Prop) : (fail e : Gen α).Yields Q := by
  intro c b c' h
  exact absurd h (by simp)

theorem yields_true (p : Gen α) : p.Yields fun _ => True := fun _ _ _ _ => trivial

end

end Gen

def Ctx.setVar (c : Ctx) (x : Text) (slot : Option ℕ) : Ctx :=
  { c with vars := Function.update c.vars x (some slot) }

def Ctx.setVarType (c : Ctx) (x : Text) (t : Option NodeType) : Ctx :=
  { c with varTypes := Function.update c.varTypes x (some t) }

def Ctx.setAnalyzeType (c : Ctx) (x : Text) (t : Option NodeType) : Ctx :=
  { c with analyzeTypes := Function.update c.analyzeTypes x (some t) }

def Ctx.setType (c : Ctx) (x : Text) (t : LLType) : Ctx :=
  { c with types := Function.update c.types x (some t) }

def Ctx.setSchema (c : Ctx) (x : Text) (s : Schema) : Ctx :=
  { c with schemas := Function.update c.schemas x (some s) }

/-- `operator[]` on a table of pointers: an absent entry is created as the null pointer. -/
def lookupAnalyzeType (x : Text) : Gen (Option NodeType) := do
  let c ← Gen.get
  match c.analyzeTypes x with
  | some t => pure t
  | none => do
    Gen.modify fun c => c.setAnalyzeType x none
    pure none

/-- The functions that `init_functions` and the FOEDUS interface declare, with their
return types. -/
def functionTable : List (Text × LLType) :=
  [(text "malloc", .ptr .i8), (text "drop_table", .void), (text "print_int", .void),
    (text "print_string", .void), (text "rand", .i64), (text "__emit_func", .void),
    (text "__begin_xct", .i1), (text "__precommit_xct", .i1), (text "__insert", .i1),
    (text "__get_cursor", .ptr .i64), (text "__cursor_next", .i1),
    (text "__cursor_is_valid", .i1), (text "__cursor_copy_key", .void),
    (text "__cursor_copy_value", .void), (text "__cursor_destroy", .void)]

def functionType (f : Text) : Option LLType :=
  (functionTable.find? fun r => r.1 == f).map Prod.snd

namespace Ctx

/-- Append an instruction to the current block. -/
def append (c : Ctx) (i : Instr) : Ctx := { c with blocks := c.blocks.modify c.cur (· ++ [i]) }

/-- Append an instruction whose result is the next register. -/
def result (c : Ctx) (i : Instr) : Ctx := { c.append i with nextReg := c.nextReg+1 }

/-- Append a load, remembered under its result so that its pointer operand can be asked for. -/
def loadFrom (c : Ctx) (p : LLValue) : Ctx :=
  { c.result (.load c.nextReg p) with loads := (c.nextReg, p) :: c.loads }

def newBlock (c : Ctx) : Ctx := { c with blocks := c.blocks ++ [[]] }

def moveTo (c : Ctx) (b : ℕ) : Ctx := { c with cur := b }

def newSlot (c : Ctx) (ty : LLType) : Ctx :=
  { c.append (.alloca c.slots.length) with slots := c.slots ++ [ty] }

def pushLoop (c : Ctx) (l : LoopContext) : Ctx := { c with loops := l :: c.loops }

def popLoop (c : Ctx) : Ctx := { c with loops := c.loops.tail }

@[simp] theorem newBlock_length (c : Ctx) : c.newBlock.blocks.length = c.blocks.length+1 := by
  simp [newBlock]

end Ctx

def emitInstr (i : Instr) : Gen Unit := Gen.modify fun c => c.append i

/-- Append an instruction that has a result. -/
def emitResult (mk : ℕ → Instr) (ty : LLType) : Gen LLValue :=
  ⟨fun c => .ok (⟨.reg c.nextReg, ty⟩, c.result (mk c.nextReg))⟩

def createBlock : Gen ℕ := ⟨fun c => .ok (c.blocks.length, c.newBlock)⟩

def setInsertPoint (b : ℕ) : Gen Unit := Gen.modify fun c => c.moveTo b

def getInsertBlock : Gen ℕ := ⟨fun c => .ok (c.cur, c)⟩

def createAlloca (ty : LLType) : Gen ℕ := ⟨fun c => .ok (c.slots.length, c.newSlot ty)⟩

/-- The type a pointer points to. -/
def pointee : LLType → Gen LLType
  | .ptr t => pure t
  | _ => Gen.fail .assertion

def emitLoad (p : LLValue) (ty : LLType) : Gen LLValue :=
  ⟨fun c => .ok (⟨.reg c.nextReg, ty⟩, c.loadFrom p)⟩

def createLoad (p : LLValue) : Gen LLValue := do
  let t ← pointee p.ty
  emitLoad p t

def createStore (tag : Tag) (v p : LLValue) : Gen Unit := emitInstr (.store tag v p)

def createBinary (op : BinOp) (l r : LLValue) : Gen LLValue :=
  emitResult (fun d => .binary d op l r) l.ty

def createICmp (pred : Pred) (l r : LLValue) : Gen LLValue :=
  emitResult (fun d => .icmp d pred l r) .i1

def createInsertValue (tag : Tag) (agg v : LLValue) (i : ℕ) : Gen LLValue := do
  let _ ← Gen.require .assertion (agg.ty.fieldAt i)
  emitResult (fun d => .insertValue d tag agg v i) agg.ty

/-- The address of a struct field or an array element. -/
def createGEP (base : LLValue) (indices : List LLValue) (ty : LLType) : Gen LLValue :=
  emitResult (fun d => .gep d base indices) (.ptr ty)

def createBitCast (v : LLValue) (ty : LLType) : Gen LLValue :=
  if v.ty = ty then pure v else emitResult (fun d => .bitcast d v) ty

def createCall (tag : Tag) (f : Text) (args : List LLValue) : Gen LLValue := do
  let ty ← Gen.require .undefined (functionType f)
  emitResult (fun d => .call d tag f args) ty

def createBr (tag : Tag) (b : ℕ) : Gen Unit := emitInstr (.br tag b)

def createCondBr (tag : Tag) (v : LLValue) (t f : ℕ) : Gen Unit := emitInstr (.condBr tag v t f)

def int64 (v : BitVec 64) : LLValue := ⟨.int v, .i64⟩

def int32 (v : BitVec 32) : LLValue := ⟨.int32 v, .i32⟩

def int1 (b : Bool) : LLValue := ⟨.bool b, .i1⟩

/-- `get_ptr`: a pointer to a compiler structure. -/
def hostPtr : LLValue := ⟨.host, .ptr .i64⟩

def slotPtr (i : ℕ) (ty : LLType) : LLValue := ⟨.slot i, .ptr ty⟩

/-- The pointer to a constant text. -/
def globalText (s : Text) : LLValue := ⟨.global s, .ptr .i8⟩

/-- A value of type `i1`, by comparison with zero where it is of another type. -/
def toI1 (v : LLValue) : Gen LLValue :=
  if v.ty = .i1 then pure v else createICmp .ne v (int64 0)

def enterLoop (l : LoopContext) : Gen Unit := Gen.modify fun c => c.pushLoop l

def exitLoop : Gen Unit := Gen.modify fun c => c.popLoop

section
variable {c c' : Ctx} {u : Unit} {n : ℕ} {v : LLValue}

@[simp] theorem emitInstr_eq_ok {i : Instr} :
    (emitInstr i).run c = .ok (u, c') ↔ c.append i = c' := by
  simp [emitInstr]

@[simp] theorem emitResult_eq_ok {mk : ℕ → Instr} {ty : LLType} :
    (emitResult mk ty).run c = .ok (v, c') ↔
      ⟨.reg c.nextReg, ty⟩ = v ∧ c.result (mk c.nextReg) = c' := by
  simp [emitResult]

@[simp] theorem emitLoad_eq_ok {p : LLValue} {ty : LLType} :
    (emitLoad p ty).run c = .ok (v, c') ↔ ⟨.reg c.nextReg, ty⟩ = v ∧ c.loadFrom p = c' := by
  simp [emitLoad]

@[simp] theorem createBlock_eq_ok :
    createBlock.run c = .ok (n, c') ↔ c.blocks.length = n ∧ c.newBlock = c' := by
  simp [createBlock]

@[simp] theorem setInsertPoint_eq_ok {b : ℕ} :
    (setInsertPoint b).run c = .ok (u, c') ↔ c.moveTo b = c' := by
  simp [setInsertPoint]

@[simp] theorem getInsertBlock_eq_ok :
    getInsertBlock.run c = .ok (n, c') ↔ c.cur = n ∧ c = c' := by
  simp [getInsertBlock]

@[simp] theorem createAlloca_eq_ok {ty : LLType} :
    (createAlloca ty).run c = .ok (n, c') ↔ c.slots.length = n ∧ c.newSlot ty = c' := by
  simp [createAlloca]

@[simp] theorem enterLoop_eq_ok {l : LoopContext} :
    (enterLoop l).run c = .ok (u, c') ↔ c.pushLoop l = c' := by
  simp [enterLoop]

@[simp] theorem exitLoop_eq_ok : exitLoop.run c = .ok (u, c') ↔ c.popLoop = c' := by
  simp [exitLoop]

end

def defaultTypes : List (Text × NodeType) :=
  [(text "integer", .primary .integer), (text "string", .primary .string),
    (text "date", .primary .date), (text "double", .primary .double),
    (text "bool", .primary .bool)]

/-- The context after its constructor, `init_types` and `init_functions`. -/
def Ctx.initial : Ctx where
  schemas := fun _ => none
  analyzeTypes := fun x => (defaultTypes.find? fun r => r.1 == x).map fun r => some r.2
  varTypes := fun _ => none
  types := fun x => if x = text "string" then some .string else none
  vars := fun _ => none
  rowTypes := []
  scans := 0
  slots := []
  blocks := []
  cur := 0
  nextReg := 0
  loads := []
  loops := []
  created := []

end Reir
