import Reir.Analyze

/-! Code generation: the types of expressions, the allocation pass and the emission of
code. `get_type` enters the struct types of row literals into the type table; `get_value`
only looks them up. -/
namespace Reir

/-- `type_table_["string"]`. -/
def stringType : Gen LLType := do
  let c ← Gen.get
  Gen.require .undefined (c.types (text "string"))

def convertType (t : NodeType) : Gen LLType :=
  match t.id with
  | .integer => pure .i64
  | .string => stringType
  | .double => pure .double
  | id => Gen.fail (.unknownType id)

/-- The slot a variable is bound to, found with `find`. -/
def findVar (x : Text) : Gen LLValue := do
  let c ← Gen.get
  let entry ← Gen.require (.notDefined x) (c.vars x)
  let slot ← Gen.require .undefined entry
  let ty ← Gen.require .undefined c.slots[slot]?
  pure (slotPtr slot ty)

/-- The name behind the callee, which is cast to a variable unchecked. -/
def calleeName : Expression → Gen Text
  | .variable _ x => pure x
  | _ => Gen.fail .undefined

def arrayElementType : LLType → Gen LLType
  | .array t _ => pure t
  | _ => Gen.fail .assertion

def literalLLType : MaybeValue → Gen LLType
  | some (.int _) => pure .i64
  | some (.varchar _) => stringType
  | some (.float _) => pure .double
  | some .unknown => Gen.fail (.unknownType .noneType)
  | none => pure .i32

/-- Enter the struct type of a row literal unless its signature is known. -/
def registerRow (ts : List LLType) : Gen LLType := do
  Gen.modify fun c => if ts ∈ c.rowTypes then c else { c with rowTypes := ts :: c.rowTypes }
  pure (.row ts)

mutual

def Expression.getType : Expression → Gen LLType
  | .primary _ v => literalLLType v
  | .binary _ l _ r => do
    let rt ← r.getType
    let lt ← l.getType
    if rt ≠ lt then Gen.fail .differentTypes else pure rt
  | .pointerOf _ t => do
    let t ← t.getType
    pure (.ptr t)
  | .rowLiteral _ es => do
    let ts ← getTypes es
    registerRow ts
  | .arrayLiteral _ [] => Gen.fail .zeroLengthArray
  | .arrayLiteral _ (e :: es) => do
    let t ← e.getType
    pure (.array t (es.length+1))
  | .variable _ x => do
    let p ← findVar x
    pointee p.ty
  | .functionCall _ p _ => do
    let f ← calleeName p
    Gen.require (.undefinedFunction f) (functionType f)
  | .arrayReference _ none _ => Gen.fail .undefined
  | .arrayReference _ (some p) _ => do
    let t ← p.getType
    arrayElementType t
  | .memberReference n _ _ _ => do
    let t ← Gen.require .undefined n.type
    convertType t
  | .assign _ _ v => v.getType

def getTypes : List Expression → Gen (List LLType)
  | [] => pure []
  | e :: es => do
    let t ← e.getType
    let ts ← getTypes es
    pure (t :: ts)

end

def valueEmitter : MaybeValue → Gen LLValue
  | some (.int v) => pure (int64 v)
  | some (.varchar s) => do
    let t ← stringType
    pure ⟨.text s, t⟩
  | some _ => Gen.fail .unsupportedValue
  | none => pure ⟨.int8 0, .i8⟩

/-- The pointer operand of a value that is taken for a load. -/
def pointerOperand (v : LLValue) : Gen LLValue := do
  let c ← Gen.get
  match v.op with
  | .reg r => Gen.require .undefined ((c.loads.find? fun l => l.1 == r).map Prod.snd)
  | _ => Gen.fail .undefined

/-- The type of an array literal from its elements. -/
def arrayLiteralType (es : List Expression) : Gen LLType := (Expression.arrayLiteral {} es).getType

/-- An index of `getelementptr` into an array, which has to be an integer. -/
def gepIndex (i : LLValue) : Gen LLValue :=
  if i.ty.isInteger then pure i else Gen.fail .assertion

/-- The address of an array element; the array must have been loaded from a slot. -/
def arrayRef (array idx : Gen LLValue) : Gen LLValue := do
  let arr ← array
  let i ← idx
  let base ← pointerOperand arr
  let t ← pointee base.ty
  let elem ← arrayElementType t
  let i ← gepIndex i
  createGEP base [int64 0, i] elem

/-- The struct type of a row literal, which must have been entered before. -/
def requireRow (ts : List LLType) : Gen LLType := do
  let c ← Gen.get
  if ts ∈ c.rowTypes then pure (.row ts) else Gen.fail .assertion

/-- The slot of a variable by `operator[]`, through a pointer that must not be null. -/
def memberBase : Expression → Gen LLValue
  | .variable _ x => do
    let c ← Gen.get
    let slot ← Gen.require .undefined ((c.vars x).join)
    let ty ← Gen.require .undefined c.slots[slot]?
    pure (slotPtr slot ty)
  | _ => Gen.fail .undefined

def memberRef (p : Expression) (offset : Option ℕ) : Gen LLValue := do
  let base ← memberBase p
  let offset ← Gen.require .undefined offset
  let t ← pointee base.ty
  let field ← Gen.require .assertion (t.fieldAt offset)
  createGEP base [int32 0, int32 offset] field

/-- The instruction of an operator that evaluates both operands first. -/
def strictOperator : Operators → LLValue → LLValue → Gen LLValue
  | .plus, l, r => createBinary .add l r
  | .minus, l, r => createBinary .sub l r
  | .multiple, l, r => createBinary .mul l r
  | .division, l, r => createBinary .sdiv l r
  | .modulo, l, r => createBinary .srem l r
  | .equal, l, r => createICmp .eq l r
  | .notequal, l, r => createICmp .ne l r
  | .lessthan, l, r => createICmp .slt l r
  | .lessequal, l, r => createICmp .sle l r
  | .morethan, l, r => createICmp .sgt l r
  | .moreequal, l, r => createICmp .sge l r
  | _, _, _ => Gen.fail .unknownOperator

/-- `get_conditional_value`: the second operand is evaluated in a block of its own. -/
def conditionalValue (forAnd : Bool) (lhs rhs : Gen LLValue) : Gen LLValue := do
  let next ← createBlock
  let fin ← createBlock
  let lv ← lhs
  let lh ← toI1 lv
  createCondBr ⟨.shortCircuit, 0⟩ lh (if forAnd then next else fin) (if forAnd then fin else next)
  let current ← getInsertBlock
  setInsertPoint next
  let rv ← rhs
  let rh ← toI1 rv
  createBr ⟨.shortCircuit, 0⟩ fin
  let last ← getInsertBlock
  setInsertPoint fin
  emitResult (fun d => .phi d [(lh, current), (rh, last)]) .i1

/-- The blocks and the two branches of a short-circuit operator. -/
theorem conditionalValue_eq_ok {forAnd : Bool} {lhs rhs : Gen LLValue} {c c' : Ctx} {v : LLValue} :
    (conditionalValue forAnd lhs rhs).run c = .ok (v, c') ↔
      ∃ lv c₁ lh c₂ rv c₃ rh c₄, lhs.run c.newBlock.newBlock = .ok (lv, c₁) ∧
        (toI1 lv).run c₁ = .ok (lh, c₂) ∧
        rhs.run ((c₂.append (.condBr ⟨.shortCircuit, 0⟩ lh
          (if forAnd then c.blocks.length else c.blocks.length+1)
          (if forAnd then c.blocks.length+1 else c.blocks.length))).moveTo c.blocks.length) =
            .ok (rv, c₃) ∧
        (toI1 rv).run c₃ = .ok (rh, c₄) ∧ v = ⟨.reg c₄.nextReg, .i1⟩ ∧
        c' = ((c₄.append (.br ⟨.shortCircuit, 0⟩ (c.blocks.length+1))).moveTo
          (c.blocks.length+1)).result (.phi c₄.nextReg [(lh, c₂.cur), (rh, c₄.cur)]) := by
  simp only [conditionalValue, createCondBr, createBr, Gen.bind_eq_ok, createBlock_eq_ok,
    emitInstr_eq_ok, getInsertBlock_eq_ok, setInsertPoint_eq_ok, emitResult_eq_ok]
  constructor
  · rintro ⟨_, _, ⟨rfl, rfl⟩, _, _, ⟨rfl, rfl⟩, lv, c₁, h₁, lh, c₂, h₂, _, _, rfl, _, _, ⟨rfl, rfl⟩,
      _, _, rfl, rv, c₃, h₃, rh, c₄, h₄, _, _, rfl, _, _, ⟨rfl, rfl⟩, _, _, rfl, rfl, rfl⟩
    rw [Ctx.newBlock_length] at *
    exact ⟨lv, c₁, lh, c₂, rv, c₃, rh, c₄, h₁, h₂, h₃, h₄, rfl, rfl⟩
  · rintro ⟨lv, c₁, lh, c₂, rv, c₃, rh, c₄, h₁, h₂, h₃, h₄, rfl, rfl⟩
    refine ⟨_, _, ⟨rfl, rfl⟩, _, _, ⟨rfl, rfl⟩, lv, c₁, h₁, lh, c₂, h₂, (), _, rfl, _, _, ⟨rfl, rfl⟩,
      (), _, rfl, rv, c₃, ?_, rh, c₄, h₄, (), _, rfl, _, _, ⟨rfl, rfl⟩, (), _, rfl, ?_⟩
    · rw [Ctx.newBlock_length]
      exact h₃
    · rw [Ctx.newBlock_length]
      exact ⟨rfl, rfl⟩

/-- What is inserted for an element of a row literal: a pointer is loaded. -/
def rowField (probe value : LLValue) : Gen LLValue :=
  if probe.ty.isPointer then createLoad value else pure value

/-- An argument as it is passed: a struct by the address it is spilled to, and a pointer to
an integer as the integer. -/
def passArgument (stack : Option ℕ) (v : LLValue) : Gen LLValue :=
  match v.ty with
  | .ptr t => if t.isInteger then createLoad v else pure v
  | t =>
    if t.isInteger then pure v
    else if t.isStruct then do
      let slot ← Gen.require .undefined stack
      let c ← Gen.get
      let ty ← Gen.require .undefined c.slots[slot]?
      createStore ⟨.argument, 0⟩ v (slotPtr slot ty)
      pure (slotPtr slot ty)
    else Gen.fail .unexpectedArgument

mutual

def Expression.getValue : Expression → Gen LLValue
  | .primary _ v => valueEmitter v
  | .binary _ l .conditionalAnd r => conditionalValue true l.getValue r.getValue
  | .binary _ l .conditionalOr r => conditionalValue false l.getValue r.getValue
  | .binary _ l op r => do
    let lh ← l.getValue
    let rh ← r.getValue
    strictOperator op lh rh
  | .pointerOf _ t => do
    let v ← t.getValue
    pointerOperand v
  | .rowLiteral _ es => do
    let ts ← getTypes es
    let ty ← requireRow ts
    rowElements es 0 ⟨.undef, ty⟩
  | .arrayLiteral _ es => do
    let ty ← arrayLiteralType es
    arrayElements es 0 ⟨.undef, ty⟩
  | .variable _ x => do
    let p ← findVar x
    createLoad p
  | .functionCall n p as => do
    let f ← calleeName p
    let _ ← Gen.require (.undefinedFunction f) (functionType f)
    let vs ← getArgs as
    createCall ⟨.functionCall, n.node⟩ f vs
  | .arrayReference _ none _ => Gen.fail .undefined
  | .arrayReference _ (some p) i => do
    let ref ← arrayRef p.getValue i.getValue
    createLoad ref
  | .memberReference _ p _ offset => do
    let ref ← memberRef p offset
    createLoad ref
  | .assign n t v => do
    let target ← t.getRef
    let value ← v.getValue
    createStore ⟨.assign, n.node⟩ value target
    createLoad target

/-- The address of an expression; most forms have none and return a null pointer. -/
def Expression.getRef : Expression → Gen LLValue
  | .variable _ x => findVar x
  | .arrayReference _ (some p) i => arrayRef p.getValue i.getValue
  | .memberReference _ p _ offset => memberRef p offset
  | _ => Gen.fail .undefined

/-- The elements of a row literal. The value of an element is asked for once to look at its
type and once more to insert it. -/
def rowElements : List Expression → ℕ → LLValue → Gen LLValue
  | [], _, prev => pure prev
  | e :: es, i, prev => do
    let probe ← e.getValue
    let value ← e.getValue
    let field ← rowField probe value
    let prev ← createInsertValue ⟨.rowLiteral, 0⟩ prev field i
    rowElements es (i+1) prev

def arrayElements : List Expression → ℕ → LLValue → Gen LLValue
  | [], _, prev => pure prev
  | e :: es, i, prev => do
    let value ← e.getValue
    let prev ← createInsertValue ⟨.arrayLiteral, 0⟩ prev value i
    arrayElements es (i+1) prev

def getArgs : List Expression → Gen (List LLValue)
  | [] => pure []
  | e :: es => do
    let value ← e.getValue
    let arg ← passArgument e.note.stack value
    let args ← getArgs es
    pure (arg :: args)

end

/-- The callback of `ExprStatement::alloca_stack`: a value of struct type gets a slot. -/
def spill (e : Expression) (n : Note) : Gen Note := do
  let t ← e.getType
  if t.isStruct then do
    let slot ← createAlloca t
    pure { n with stack := some slot }
  else pure n

mutual

/-- `each_value` with that callback, on an expression whose own note is given. Forms that do
not override `each_value` visit nothing. -/
def Expression.eachValue : Expression → Note → Gen Expression
  | .primary _ v, n => pure (.primary n v)
  | .binary _ l op r, n => pure (.binary n l op r)
  | .pointerOf _ t, n => do
    let m ← spill t t.note
    pure (.pointerOf n (t.withNote m))
  | .rowLiteral _ es, n => pure (.rowLiteral n es)
  | .arrayLiteral m es, n => do
    let es ← eachElement es
    let n ← spill (.arrayLiteral m es) n
    pure (.arrayLiteral n es)
  | .variable m x, n => do
    let n ← spill (.variable m x) n
    pure (.variable n x)
  | .functionCall _ p as, n => do
    let as ← eachArg as
    pure (.functionCall n p as)
  | .arrayReference m p i, n => do
    let n ← spill (.arrayReference m p i) n
    let p ← eachParent p
    pure (.arrayReference n p i)
  | .memberReference m p x o, n => do
    let n ← spill (.memberReference m p x o) n
    let p ← p.eachValue p.note
    pure (.memberReference n p x o)
  | .assign m t v, n => do
    let n ← spill (.assign m t v) n
    let v ← v.eachValue v.note
    pure (.assign n t v)

def eachParent : Option Expression → Gen (Option Expression)
  | none => Gen.fail .undefined
  | some p => do
    let p ← p.eachValue p.note
    pure (some p)

def eachElement : List Expression → Gen (List Expression)
  | [] => pure []
  | e :: es => do
    let e ← e.eachValue e.note
    let es ← eachElement es
    pure (e :: es)

def eachArg : List Expression → Gen (List Expression)
  | [] => pure []
  | e :: es => do
    let n ← spill e e.note
    let e ← e.eachValue n
    let es ← eachArg es
    pure (e :: es)

end

/-- The attributes of a table; a column of another type than these is dropped. -/
def attributeOf (name : Text) (prop : ℕ) (param : Option Int) : TypeId → Option Attribute
  | .integer => some ⟨name, ⟨.integer, 0⟩, prop⟩
  | .double => some ⟨name, ⟨.double, 0⟩, prop⟩
  | .string => some ⟨name, ⟨.string, (param.map Int.toNat).getD 0⟩, prop⟩
  | _ => none

/-- The loop of `Define::alloca_stack` over the parallel lists of the tuple type. -/
def defineAttrs : List Text → List ℕ → List (Option Int) → List (Option NodeType) →
    Gen (List Attribute)
  | [], _, _, _ => pure []
  | x :: names, prop :: props, param :: params, some t :: types => do
    let rest ← defineAttrs names props params types
    pure ((attributeOf x prop param t.id).toList ++ rest)
  | _, _, _, _ => Gen.fail .undefined

def defineTable (schema : Option NodeType) (name : Text) : Gen Unit :=
  match schema with
  | some (.tuple _ names _ props params types) => do
    let attrs ← defineAttrs names props params types
    Gen.modify fun c => c.setSchema name ⟨name, attrs⟩
    Gen.modify fun c => { c with created := c.created ++ [(name, attrs)] }
  | _ => Gen.fail .undefined

/-- The schema of a table by `operator[]`. -/
def lookupSchema (e : CompileError) (table : Text) : Gen Schema := do
  let c ← Gen.get
  Gen.require e (c.schemas table)

/-- The stack areas for a key and a value, which a statement gets only once. -/
def allocaRecord (s : Schema) (already : Option ℕ) : Gen (ℕ × ℕ) := do
  if !s.fixedKeyLength || !s.fixedValueLength then Gen.fail .variableLength
  else if already.isSome then Gen.fail .alreadyInitialized
  else do
    let keyLen ← Gen.require .undefined s.getFixedKeyLength
    let valueLen ← Gen.require .undefined s.getFixedValueLength
    let key ← createAlloca (.array .i8 keyLen)
    let value ← createAlloca (.array .i8 valueLen)
    pure (key, value)

def allocaInsert (table : Text) (e : Expression) (frame : InsertFrame) : Gen InsertFrame := do
  let s ← lookupSchema (.undefinedTable table) table
  let areas ← allocaRecord s frame.keyStack
  let t ← e.getType
  let tuple ← createAlloca t
  pure ⟨some s.getKeyPrefix, some areas.1, some areas.2, some tuple⟩

/-- The column types of the row of a `Scan`: integers only. -/
def scanColumns : List Attribute → Gen (List LLType)
  | [] => pure []
  | a :: as =>
    if a.type.isInteger then do
      let ts ← scanColumns as
      pure (.i64 :: ts)
    else Gen.fail .nonInteger

/-- A struct type of its own for the row of a `Scan`. -/
def createScanRow (rowName : Text) (ts : List LLType) : Gen LLType :=
  ⟨fun c => .ok (.scanRow c.scans ts,
    { c.setType rowName (.scanRow c.scans ts) with scans := c.scans+1 })⟩

def allocaScan (table rowName : Text) (frame : ScanFrame) : Gen ScanFrame := do
  let s ← lookupSchema .undefined table
  let areas ← allocaRecord s frame.keyStack
  let ts ← scanColumns s.attrs
  let t ← createScanRow rowName ts
  let slot ← createAlloca t
  Gen.modify fun c => c.setVar rowName (some slot)
  pure ⟨some s.prefixBegin, some s.prefixEnd, some areas.1, some areas.2, some slot⟩

mutual

/-- `alloca_stack` of one statement. Blocks allocate nothing themselves. -/
def Statement.allocaStack : Statement → Gen Statement
  | .define schema name => do
    defineTable schema name
    pure (.define schema name)
  | .forStmt init cond every blk => do
    let init ← allocaInit init
    pure (.forStmt init cond every blk)
  | .emit _ e => do
    let t ← e.getType
    let slot ← createAlloca t
    pure (.emit (some slot) e)
  | .insert table e frame => do
    let frame ← allocaInsert table e frame
    pure (.insert table e frame)
  | .scan table rowName blk frame => do
    let frame ← allocaScan table rowName frame
    pure (.scan table rowName blk frame)
  | .letStmt name e type => do
    let t ← e.getType
    let slot ← createAlloca t
    Gen.modify fun c => c.setVar name (some slot)
    pure (.letStmt name e type)
  | .defineTuple name type => do
    Gen.modify fun c => c.setAnalyzeType name (some type)
    pure (.defineTuple name type)
  | .exprStatement stack e => do
    let n ← spill e { stack := stack }
    let e ← e.eachValue e.note
    pure (.exprStatement n.stack e)
  | s => pure s

def allocaInit : Ptr Statement → Gen (Ptr Statement)
  | .null => pure .null
  | .uninit => Gen.fail .undefined
  | .to s => do
    let s ← s.allocaStack
    pure (.to s)

end

mutual

/-- A statement of a block in `each_statement` with `alloca_stack` as the callback: the
callback, then what the statement contains. The init part of a `For` is allocated by the
`For` itself and once more as a part of it, but nothing inside of it is visited. -/
def Statement.visit : Statement → Gen Statement
  | .block ss => do
    let ss ← eachStatement ss
    pure (.block ss)
  | .transaction isolation ss => do
    let ss ← eachStatement ss
    pure (.transaction isolation ss)
  | .forStmt init cond every blk => do
    let init ← allocaInit init
    let init ← allocaInit init
    let blk ← eachStatement blk
    pure (.forStmt init cond every blk)
  | .scan table rowName blk frame => do
    let frame ← allocaScan table rowName frame
    let blk ← eachStatement blk
    pure (.scan table rowName blk frame)
  | .ifStmt cond trueBlock falseBlock => do
    let trueBlock ← eachStatement trueBlock
    let falseBlock ← eachElse falseBlock
    pure (.ifStmt cond trueBlock falseBlock)
  | s => s.allocaStack

def eachElse : Option (List Statement) → Gen (Option (List Statement))
  | none => pure none
  | some ss => do
    let ss ← eachStatement ss
    pure (some ss)

def eachStatement : List Statement → Gen (List Statement)
  | [] => pure []
  | s :: ss => do
    let s ← s.visit
    let ss ← eachStatement ss
    pure (s :: ss)

end

/-- The pointer to a slot that a pass has left in the tree. -/
def slotOf (slot : Option ℕ) : Gen LLValue := do
  let i ← Gen.require .undefined slot
  let c ← Gen.get
  let ty ← Gen.require .undefined c.slots[i]?
  pure (slotPtr i ty)

def letCode (name : Text) (e : Expression) : Gen Unit := do
  let _ ← e.getType
  let c ← Gen.get
  let i ← Gen.require (.undefinedVariable name) ((c.vars name).join)
  let stack ← slotOf (some i)
  let v ← e.getValue
  createStore ⟨.letStmt, 0⟩ v stack

def ifCode (cond : Gen LLValue) (trueCode falseCode : Gen Unit) : Gen Unit := do
  let trueBlock ← createBlock
  let falseBlock ← createBlock
  let fin ← createBlock
  let v ← cond
  let v ← toI1 v
  createCondBr ⟨.ifStmt, 0⟩ v trueBlock falseBlock
  setInsertPoint trueBlock
  trueCode
  createBr ⟨.ifStmt, 0⟩ fin
  setInsertPoint falseBlock
  falseCode
  createBr ⟨.ifStmt, 0⟩ fin
  setInsertPoint fin

/-- The test of a `For`, which branches on the value as it is. -/
def loopCondition (cond : Ptr Expression) (body finish : ℕ) : Gen Unit :=
  match cond with
  | .null => pure ()
  | .uninit => Gen.fail .undefined
  | .to e => do
    let v ← e.getValue
    createCondBr ⟨.forStmt, 0⟩ v body finish

def loopEvery (every : Ptr Expression) : Gen Unit :=
  match every with
  | .null => pure ()
  | .uninit => Gen.fail .undefined
  | .to e => do
    let _ ← e.getValue
    pure ()

def forCode (init : Gen Unit) (cond every : Ptr Expression) (blk : Gen Unit) : Gen Unit := do
  init
  let begin ← createBlock
  let body ← createBlock
  let next ← createBlock
  let finish ← createBlock
  enterLoop ⟨begin, body, next, finish⟩
  createBr ⟨.forStmt, 0⟩ begin
  setInsertPoint begin
  loopCondition cond body finish
  setInsertPoint body
  blk
  createBr ⟨.forStmt, 0⟩ next
  setInsertPoint next
  loopEvery every
  createBr ⟨.forStmt, 0⟩ begin
  setInsertPoint finish
  exitLoop

def jumpCode (around : List Frame) (t : JumpType) : Gen Unit := do
  let c ← Gen.get
  let loop ← Gen.require .undefined c.loops.head?
  createBr ⟨.jump around, 0⟩ (match t with
    | .continueJump => loop.every
    | .breakJump => loop.finish)

def structFields (e : CompileError) (t : LLType) : Gen (List LLType) := Gen.require e t.fields

def emitCode (slot : Option ℕ) (e : Expression) : Gen Unit := do
  let t ← e.getType
  let fields ← structFields .nonStructEmit t
  let v ← e.getValue
  let stack ← slotOf slot
  createStore ⟨.emit, 0⟩ v stack
  let src ← createBitCast stack (.ptr .i8)
  let size := (fields.map LLType.primitiveBytes).sum
  let _ ← createCall ⟨.emit, 0⟩ (text "__emit_func") [hostPtr, src, int64 size]
  pure ()

/-- The copies of `Insert` from the tuple to the key and the value area. -/
def copyCells (buff key value : LLValue) : List CellCopy → Gen Unit
  | [] => pure ()
  | c :: cs => do
    let src ← createGEP buff [int32 c.src] .i8
    let dst ← createGEP (if c.toKey then key else value)
      [if c.toKey then int64 0 else int32 0, int32 c.dst] .i8
    emitInstr (.memcpy dst src c.len)
    copyCells buff key value cs

/-- The columns of the schema that are copied, one for each element of the row; an index past
the schema reads outside of it. -/
def insertCells (s : Schema) (elements : ℕ) : Gen (List Cell) :=
  if elements ≤ s.attrs.length then
    Gen.require .undefined ((s.attrs.take elements).mapM Attribute.cell)
  else Gen.fail .undefined

def insertCode (table : Text) (e : Expression) (frame : InsertFrame) : Gen Unit := do
  let row ← e.getValue
  let s ← lookupSchema .undefined table
  let t ← e.getType
  let fields ← structFields .nonRowInsert t
  let tuple ← slotOf frame.tupleStack
  let key ← slotOf frame.keyStack
  let value ← slotOf frame.valueStack
  createStore ⟨.insert, 0⟩ row tuple
  let buff ← createBitCast tuple (.ptr .i8)
  let keyPrefix ← Gen.require .undefined frame.keyPrefix
  emitInstr (.memcpy key (globalText keyPrefix) s.getKeyPrefix.length)
  let cells ← insertCells s fields.length
  let plan := insertCopies cells s.getKeyPrefix.length 0 0
  copyCells buff key value plan.1
  let keyBuf ← createBitCast key (.ptr .i8)
  let valueBuf ← createBitCast value (.ptr .i8)
  let _ ← createCall ⟨.insert, 0⟩ (text "__insert")
    [hostPtr, keyBuf, int64 plan.2.1, valueBuf, int64 plan.2.2]
  pure ()

/-- The address of a column in the key or the value area. -/
def scanColumn (key value : LLValue) (l : Bool × ℕ) : Gen LLValue :=
  if l.1 then createGEP key [int32 l.2] .i8 else createGEP value [int32 0, int32 l.2] .i8

/-- The row of a `Scan` from the key and the value area. -/
def scanFields (key value : LLValue) : List (Bool × ℕ) → ℕ → LLValue → Gen LLValue
  | [], _, prev => pure prev
  | l :: ls, i, prev => do
    let offset ← scanColumn key value l
    let ptr ← createBitCast offset (.ptr .i64)
    let record ← createLoad ptr
    let prev ← createInsertValue ⟨.scan, 0⟩ prev record i
    scanFields key value ls (i+1) prev

/-- `get_cursor` with the bounds of the table. -/
def scanCursor (s : Schema) (frame : ScanFrame) : Gen LLValue := do
  let start ← Gen.require .undefined frame.prefixBegin
  let stop ← Gen.require .undefined frame.prefixEnd
  createCall ⟨.scan, 0⟩ (text "__get_cursor")
    [hostPtr, globalText start, int64 s.getKeyPrefix.length, globalText stop,
      int64 s.prefixEnd.length]

/-- The code at the start of the body of a `Scan`: the current record is copied and stored as
a row. -/
def scanRow (s : Schema) (rowType : LLType) (frame : ScanFrame) (cursor : LLValue) : Gen Unit := do
  let keyStack ← slotOf frame.keyStack
  let key ← createBitCast keyStack (.ptr .i8)
  let _ ← createCall ⟨.scan, 0⟩ (text "__cursor_copy_key") [cursor, key]
  let valueStack ← slotOf frame.valueStack
  let value ← createBitCast valueStack (.ptr .i8)
  let _ ← createCall ⟨.scan, 0⟩ (text "__cursor_copy_value") [cursor, value]
  let row ← scanFields key valueStack (scanLoads s.attrs s.getKeyPrefix.length 0) 0 ⟨.undef, rowType⟩
  let tuple ← slotOf frame.tupleStack
  createStore ⟨.scan, 0⟩ row tuple

def scanCode (table rowName : Text) (frame : ScanFrame) (blk : Gen Unit) : Gen Unit := do
  let s ← lookupSchema .undefined table
  let c ← Gen.get
  let rowType ← Gen.require .undefined (c.types rowName)
  let cursor ← scanCursor s frame
  let check ← createBlock
  let begin ← createBlock
  let fin ← createBlock
  createBr ⟨.scan, 0⟩ check
  setInsertPoint check
  let valid ← createCall ⟨.scan, 0⟩ (text "__cursor_is_valid") [cursor]
  let cond ← createICmp .eq valid (int1 true)
  createCondBr ⟨.scan, 0⟩ cond begin fin
  setInsertPoint begin
  scanRow s rowType frame cursor
  blk
  let _ ← createCall ⟨.scan, 0⟩ (text "__cursor_next") [cursor]
  createBr ⟨.scan, 0⟩ check
  setInsertPoint fin
  let _ ← createCall ⟨.scan, 0⟩ (text "__cursor_destroy") [cursor]
  pure ()

def transactionCode (around : List Frame) (blk : Gen Unit) : Gen Unit := do
  let _ ← createCall ⟨.transaction around, 0⟩ (text "__begin_xct") [hostPtr]
  blk
  let _ ← createCall ⟨.transaction around, 0⟩ (text "__precommit_xct") [hostPtr]
  pure ()

mutual

/-- `codegen` of a statement inside of the given constructs, which only mark the instructions. -/
def Statement.codegen (around : List Frame) : Statement → Gen Unit
  | .block ss => codegenAll around ss
  | .transaction _ ss => transactionCode around (codegenAll (.transaction :: around) ss)
  | .define _ _ => pure ()
  | .forStmt init cond every blk =>
    forCode (codegenInit around init) cond every (codegenAll (.loop :: around) blk)
  | .jump t => jumpCode around t
  | .emit slot e => emitCode slot e
  | .insert table e frame => insertCode table e frame
  | .scan table rowName blk frame =>
    scanCode table rowName frame (codegenAll (.scan :: around) blk)
  | .letStmt name e _ => letCode name e
  | .defineTuple _ _ => pure ()
  | .ifStmt cond trueBlock falseBlock =>
    ifCode cond.getValue (codegenAll around trueBlock) (codegenElse around falseBlock)
  | .exprStatement _ e => do
    let _ ← e.getValue
    pure ()

def codegenInit (around : List Frame) : Ptr Statement → Gen Unit
  | .null => pure ()
  | .uninit => Gen.fail .undefined
  | .to s => s.codegen around

def codegenElse (around : List Frame) : Option (List Statement) → Gen Unit
  | none => pure ()
  | some ss => codegenAll around ss

def codegenAll (around : List Frame) : List Statement → Gen Unit
  | [] => pure ()
  | s :: ss => do
    s.codegen around
    codegenAll around ss

end

/-- The allocation pass and the code of a tree that has been analysed, in a function of its
own; the tree comes back with its slots. -/
def generate (ss : List Statement) : Gen (List Statement) := do
  let entry ← createBlock
  setInsertPoint entry
  let ss ← eachStatement ss
  codegenAll [] ss
  emitInstr (.ret (int1 true))
  pure ss

/-- `Compiler::compile` on the statements of a program. -/
def compile (ss : List Statement) : Gen (List Statement) := do
  let ss ← analyzeAll ss
  generate ss

/-- What comes before code generation: the analysis and the allocation pass. -/
def passes (ss : List Statement) : Gen (List Statement) := do
  let ss ← analyzeAll ss
  let entry ← createBlock
  setInsertPoint entry
  eachStatement ss

theorem compile_passes {ss ss' ss'' : List Statement} {c c' : Ctx}
    (hp : (passes ss).run Ctx.initial = .ok (ss', c))
    (h : (compile ss).run Ctx.initial = .ok (ss'', c')) :
    ss'' = ss' ∧ ∃ d, (codegenAll [] ss').run c = .ok ((), d) ∧ c' = d.append (.ret (int1 true)) := by
  simp only [passes, Gen.bind_eq_ok, createBlock_eq_ok, setInsertPoint_eq_ok] at hp
  obtain ⟨ss₁, c₁, hanalyze, _, _, ⟨rfl, rfl⟩, _, c₂, rfl, halloca⟩ := hp
  obtain ⟨ss₂, c₂, hanalyze', hgen⟩ := Gen.bind_eq_ok.mp h
  rw [hanalyze, Except.ok.injEq, Prod.mk.injEq] at hanalyze'
  obtain ⟨rfl, rfl⟩ := hanalyze'
  simp only [generate, Gen.bind_eq_ok, createBlock_eq_ok, setInsertPoint_eq_ok, emitInstr_eq_ok,
    Gen.pure_eq_ok] at hgen
  obtain ⟨_, _, ⟨rfl, rfl⟩, _, _, rfl, ss₃, c₃, halloca', _, d, hcode, _, _, rfl, rfl, rfl⟩ := hgen
  rw [halloca, Except.ok.injEq, Prod.mk.injEq] at halloca'
  obtain ⟨rfl, rfl⟩ := halloca'
  exact ⟨rfl, d, hcode, rfl⟩

end Reir
