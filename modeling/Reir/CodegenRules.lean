import Reir.Codegen

/-! A rule of induction over code generation. A property of generating steps that holds of the
primitive steps and is kept by sequences holds of the code of every expression and of every
statement without control flow of its own. -/
namespace Reir
open Gen

/-- A property of steps that is closed under what only looks things up. -/
structure LookupRules (Φ : ∀ {α : Type}, Gen α → Prop) : Prop where
  pure : ∀ {α : Type} (a : α), Φ (Pure.pure a : Gen α)
  fail : ∀ {α : Type} (e : CompileError), Φ (Gen.fail e : Gen α)
  get : Φ Gen.get
  require : ∀ {α : Type} (e : CompileError) (o : Option α), Φ (Gen.require e o)
  bind : ∀ {α β : Type} {p : Gen α} {f : α → Gen β}, Φ p → (∀ a, Φ (f a)) → Φ (p >>= f)
  registerRow : ∀ ts, Φ (registerRow ts)

/-- Instructions without control flow that call functions of a set only, for each construct. -/
def Instr.Straight (S : Origin → Text → Prop) : Instr → Prop
  | .alloca _ => False
  | .call _ tag f _ => S tag.origin f
  | .phi _ _ => False
  | .br _ _ => False
  | .condBr _ _ _ _ => False
  | .ret _ => False
  | _ => True

/-- The register that an instruction sets. -/
def Instr.dst : Instr → Option ℕ
  | .binary r _ _ _ => some r
  | .icmp r _ _ _ => some r
  | .load r _ => some r
  | .gep r _ _ => some r
  | .bitcast r _ => some r
  | .insertValue r _ _ _ _ => some r
  | .call r _ _ _ => some r
  | .phi r _ => some r
  | _ => none

theorem Instr.Straight.not_terminator {S : Origin → Text → Prop} {i : Instr} (h : i.Straight S) :
    i.isTerminator = false := by
  cases i with
  | br tag t => exact absurd h (by simp [Instr.Straight])
  | condBr tag v t f => exact absurd h (by simp [Instr.Straight])
  | ret v => exact absurd h (by simp [Instr.Straight])
  | _ => rfl

/-- A property of steps that is closed under what straight-line code with calls of the given
functions is made of. -/
structure CallRules (S : Origin → Text → Prop) (Φ : ∀ {α : Type}, Gen α → Prop) : Prop
    extends LookupRules Φ where
  emitInstr : ∀ i, i.Straight S → i.dst = none → Φ (emitInstr i)
  emitResult : ∀ mk ty, (∀ d, (mk d).Straight S) → (∀ d, (mk d).dst = some d) → Φ (emitResult mk ty)
  emitLoad : ∀ p ty, Φ (emitLoad p ty)
  conditionalValue : ∀ {forAnd : Bool} {l r : Expression}, Φ l.getValue → Φ r.getValue →
    Φ (conditionalValue forAnd l.getValue r.getValue)

/-- A property of steps that is closed under what straight-line code is made of. -/
structure Rules (Φ : ∀ {α : Type}, Gen α → Prop) : Prop extends LookupRules Φ where
  emitInstr : ∀ i, i.isTerminator = false → Φ (emitInstr i)
  emitResult : ∀ mk ty, (∀ d, (mk d).isTerminator = false) → Φ (emitResult mk ty)
  emitLoad : ∀ p ty, Φ (emitLoad p ty)
  conditionalValue : ∀ {forAnd : Bool} {l r : Expression}, Φ l.getValue → Φ r.getValue →
    Φ (conditionalValue forAnd l.getValue r.getValue)

theorem Rules.callRules {Φ : ∀ {α : Type}, Gen α → Prop} (R : Rules Φ) :
    CallRules (fun _ _ => True) Φ where
  toLookupRules := R.toLookupRules
  emitInstr := fun i h _ => R.emitInstr i h.not_terminator
  emitResult := fun mk ty h _ => R.emitResult mk ty fun d => (h d).not_terminator
  emitLoad := R.emitLoad
  conditionalValue := R.conditionalValue

/-- The name that a call is resolved by, if any. -/
def Expression.calleeNames : Expression → List Text
  | .variable _ x => [x]
  | _ => []

mutual

/-- The functions that an expression calls. -/
def Expression.callees : Expression → List Text
  | .primary _ _ => []
  | .binary _ l _ r => l.callees ++ r.callees
  | .pointerOf _ t => t.callees
  | .rowLiteral _ es => calleesAll es
  | .arrayLiteral _ es => calleesAll es
  | .variable _ _ => []
  | .functionCall _ p as => p.calleeNames ++ calleesAll as
  | .arrayReference _ p i => calleesParent p ++ i.callees
  | .memberReference _ _ _ _ => []
  | .assign _ t v => t.callees ++ v.callees

def calleesParent : Option Expression → List Text
  | none => []
  | some p => p.callees

def calleesAll : List Expression → List Text
  | [] => []
  | e :: es => e.callees ++ calleesAll es

end

theorem mem_calleesAll {es : List Expression} {f : Text} :
    f ∈ calleesAll es ↔ ∃ e ∈ es, f ∈ e.callees := by
  induction es with
  | nil => simp [calleesAll]
  | cons e es ih => simp [calleesAll, ih]

/-- Every function that an expression calls is in the set. -/
def Expression.CallsOnly (S : Text → Prop) (e : Expression) : Prop := ∀ f ∈ e.callees, S f

namespace LookupRules
variable {Φ : ∀ {α : Type}, Gen α → Prop} (R : LookupRules Φ)
include R

theorem pointee (t : LLType) : Φ (pointee t) := by
  cases t with
  | ptr t => exact R.pure t
  | _ => exact R.fail _

theorem stringType : Φ stringType := R.bind R.get fun _ => R.require _ _

theorem convertType (t : NodeType) : Φ (convertType t) := by
  unfold Reir.convertType
  split
  · exact R.pure _
  · exact R.stringType
  · exact R.pure _
  · exact R.fail _

theorem findVar (x : Text) : Φ (findVar x) :=
  R.bind R.get fun _ => R.bind (R.require _ _) fun _ => R.bind (R.require _ _) fun _ =>
    R.bind (R.require _ _) fun _ => R.pure _

theorem calleeName (p : Expression) : Φ (calleeName p) := by
  unfold Reir.calleeName
  split
  · exact R.pure _
  · exact R.fail _

theorem arrayElementType (t : LLType) : Φ (arrayElementType t) := by
  cases t with
  | array t n => exact R.pure t
  | _ => exact R.fail _

theorem literalLLType (v : MaybeValue) : Φ (literalLLType v) := by
  unfold Reir.literalLLType
  split
  · exact R.pure _
  · exact R.stringType
  · exact R.pure _
  · exact R.fail _
  · exact R.pure _

theorem getTypes_of {es : List Expression} (h : ∀ e ∈ es, Φ e.getType) : Φ (getTypes es) := by
  induction es with
  | nil => exact R.pure _
  | cons e es ih =>
    rw [List.forall_mem_cons] at h
    exact R.bind h.1 fun _ => R.bind (ih h.2) fun _ => R.pure _

theorem getType (e : Expression) : Φ e.getType := by
  induction e using Expression.induction with
  | primary n v => exact R.literalLLType v
  | binary n l op r hl hr =>
    refine R.bind hr fun rt => R.bind hl fun lt => ?_
    split_ifs
    · exact R.fail _
    · exact R.pure rt
  | pointerOf n t ht => exact R.bind ht fun _ => R.pure _
  | rowLiteral n es hes => exact R.bind (R.getTypes_of hes) R.registerRow
  | arrayLiteral n es hes =>
    cases es with
    | nil => exact R.fail _
    | cons e es => exact R.bind (hes e List.mem_cons_self) fun _ => R.pure _
  | variableRef n x => exact R.bind (R.findVar x) fun p => R.pointee p.ty
  | functionCall n p as _ _ => exact R.bind (R.calleeName p) fun _ => R.require _ _
  | arrayReference n p i hp _ =>
    cases p with
    | none => exact R.fail _
    | some p => exact R.bind (hp p rfl) R.arrayElementType
  | memberReference n p x o _ => exact R.bind (R.require _ _) R.convertType
  | assign n t v _ hv => exact hv

theorem getTypes (es : List Expression) : Φ (getTypes es) := R.getTypes_of fun e _ => R.getType e

theorem gepIndex (i : LLValue) : Φ (gepIndex i) := by
  unfold Reir.gepIndex
  split_ifs
  · exact R.pure i
  · exact R.fail _

theorem pointerOperand (v : LLValue) : Φ (pointerOperand v) := by
  refine R.bind R.get fun c => ?_
  split
  · exact R.require _ _
  · exact R.fail _

theorem valueEmitter (v : MaybeValue) : Φ (valueEmitter v) := by
  unfold Reir.valueEmitter
  split
  · exact R.pure _
  · exact R.bind R.stringType fun _ => R.pure _
  · exact R.fail _
  · exact R.pure _

theorem memberBase (p : Expression) : Φ (memberBase p) := by
  unfold Reir.memberBase
  split
  · exact R.bind R.get fun _ => R.bind (R.require _ _) fun _ => R.bind (R.require _ _) fun _ =>
      R.pure _
  · exact R.fail _

theorem requireRow (ts : List LLType) : Φ (requireRow ts) := by
  refine R.bind R.get fun c => ?_
  split_ifs
  · exact R.pure _
  · exact R.fail _

theorem lookupSchema (e : CompileError) (table : Text) : Φ (lookupSchema e table) :=
  R.bind R.get fun _ => R.require _ _

theorem slotOf (slot : Option ℕ) : Φ (slotOf slot) :=
  R.bind (R.require _ _) fun _ => R.bind R.get fun _ => R.bind (R.require _ _) fun _ => R.pure _

theorem insertCells (s : Schema) (n : ℕ) : Φ (insertCells s n) := by
  unfold Reir.insertCells
  split_ifs
  · exact R.require _ _
  · exact R.fail _

end LookupRules

namespace CallRules
variable {S : Origin → Text → Prop} {Φ : ∀ {α : Type}, Gen α → Prop} (R : CallRules S Φ)
include R

theorem createLoad (p : LLValue) : Φ (createLoad p) :=
  R.bind (R.pointee p.ty) fun t => R.emitLoad p t

theorem createStore (tag : Tag) (v p : LLValue) : Φ (createStore tag v p) :=
  R.emitInstr _ trivial rfl

theorem createICmp (pred : Pred) (l r : LLValue) : Φ (createICmp pred l r) :=
  R.emitResult _ _ (fun _ => trivial) fun _ => rfl

theorem createBinary (op : BinOp) (l r : LLValue) : Φ (createBinary op l r) :=
  R.emitResult _ _ (fun _ => trivial) fun _ => rfl

theorem createGEP (base : LLValue) (indices : List LLValue) (ty : LLType) :
    Φ (createGEP base indices ty) :=
  R.emitResult _ _ (fun _ => trivial) fun _ => rfl

theorem createInsertValue (tag : Tag) (agg v : LLValue) (i : ℕ) :
    Φ (createInsertValue tag agg v i) :=
  R.bind (R.require _ _) fun _ => R.emitResult _ _ (fun _ => trivial) fun _ => rfl

theorem createCall {f : Text} {tag : Tag} (hf : S tag.origin f) (args : List LLValue) :
    Φ (createCall tag f args) :=
  R.bind (R.require _ _) fun _ => R.emitResult _ _ (fun _ => hf) fun _ => rfl

theorem createBitCast (v : LLValue) (ty : LLType) : Φ (createBitCast v ty) := by
  unfold Reir.createBitCast
  split_ifs
  · exact R.pure v
  · exact R.emitResult _ _ (fun _ => trivial) fun _ => rfl

theorem toI1 (v : LLValue) : Φ (toI1 v) := by
  unfold Reir.toI1
  split_ifs
  · exact R.pure v
  · exact R.createICmp _ _ _

theorem arrayRef {array idx : Gen LLValue} (ha : Φ array) (hi : Φ idx) : Φ (arrayRef array idx) :=
  R.bind ha fun arr => R.bind hi fun _ => R.bind (R.pointerOperand arr) fun base =>
    R.bind (R.pointee base.ty) fun t => R.bind (R.arrayElementType t) fun _ =>
      R.bind (R.gepIndex _) fun _ => R.createGEP _ _ _

theorem memberRef (p : Expression) (o : Option ℕ) : Φ (memberRef p o) :=
  R.bind (R.memberBase p) fun base => R.bind (R.require _ _) fun _ =>
    R.bind (R.pointee base.ty) fun _ => R.bind (R.require _ _) fun _ => R.createGEP _ _ _

theorem strictOperator (op : Operators) (l r : LLValue) : Φ (strictOperator op l r) := by
  cases op with
  | plus | minus | multiple | division | modulo => exact R.createBinary _ l r
  | equal | notequal | lessthan | lessequal | morethan | moreequal => exact R.createICmp _ l r
  | conditionalAnd | conditionalOr | none => exact R.fail _

theorem rowField (probe value : LLValue) : Φ (rowField probe value) := by
  unfold Reir.rowField
  split_ifs
  · exact R.createLoad value
  · exact R.pure value

theorem passArgument (stack : Option ℕ) (v : LLValue) : Φ (passArgument stack v) := by
  unfold Reir.passArgument
  split
  · split_ifs
    · exact R.createLoad v
    · exact R.pure v
  · split_ifs
    · exact R.pure v
    · exact R.bind (R.require _ _) fun _ => R.bind R.get fun _ => R.bind (R.require _ _) fun _ =>
        R.bind (R.createStore _ _ _) fun _ => R.pure _
    · exact R.fail _

theorem rowElements_of {es : List Expression} (h : ∀ e ∈ es, Φ e.getValue) (i : ℕ)
    (prev : LLValue) : Φ (rowElements es i prev) := by
  induction es generalizing i prev with
  | nil => exact R.pure prev
  | cons e es ih =>
    rw [List.forall_mem_cons] at h
    exact R.bind h.1 fun probe => R.bind h.1 fun value => R.bind (R.rowField probe value) fun _ =>
      R.bind (R.createInsertValue _ _ _ _) fun _ => ih h.2 _ _

theorem arrayElements_of {es : List Expression} (h : ∀ e ∈ es, Φ e.getValue) (i : ℕ)
    (prev : LLValue) : Φ (arrayElements es i prev) := by
  induction es generalizing i prev with
  | nil => exact R.pure prev
  | cons e es ih =>
    rw [List.forall_mem_cons] at h
    exact R.bind h.1 fun _ => R.bind (R.createInsertValue _ _ _ _) fun _ => ih h.2 _ _

theorem getArgs_of {es : List Expression} (h : ∀ e ∈ es, Φ e.getValue) : Φ (getArgs es) := by
  induction es with
  | nil => exact R.pure _
  | cons e es ih =>
    rw [List.forall_mem_cons] at h
    exact R.bind h.1 fun _ => R.bind (R.passArgument _ _) fun _ => R.bind (ih h.2) fun _ => R.pure _

omit R in
theorem callsOnly_of_mem {es : List Expression} (h : ∀ f ∈ calleesAll es, S .functionCall f) {e : Expression}
    (he : e ∈ es) : e.CallsOnly (S .functionCall) :=
  fun f hf => h f (mem_calleesAll.mpr ⟨e, he, hf⟩)

theorem getValue_and_getRef {e : Expression} (he : e.CallsOnly (S .functionCall)) : Φ e.getValue ∧ Φ e.getRef := by
  induction e using Expression.induction with
  | primary n v => exact ⟨R.valueEmitter v, R.fail _⟩
  | binary n l op r hl hr =>
    obtain ⟨hel, her⟩ := List.forall_mem_append.mp he
    have hl' := (hl hel).1
    have hr' := (hr her).1
    refine ⟨?_, R.fail _⟩
    cases op with
    | conditionalAnd => exact R.conditionalValue hl' hr'
    | conditionalOr => exact R.conditionalValue hl' hr'
    | _ => exact R.bind hl' fun lh => R.bind hr' fun rh => R.strictOperator _ lh rh
  | pointerOf n t ht => exact ⟨R.bind (ht he).1 R.pointerOperand, R.fail _⟩
  | rowLiteral n es hes =>
    refine ⟨?_, R.fail _⟩
    exact R.bind (R.getTypes es) fun ts => R.bind (R.requireRow ts) fun _ =>
      R.rowElements_of (fun e hmem => (hes e hmem (callsOnly_of_mem he hmem)).1) _ _
  | arrayLiteral n es hes =>
    refine ⟨?_, R.fail _⟩
    exact R.bind (R.getType _) fun _ =>
      R.arrayElements_of (fun e hmem => (hes e hmem (callsOnly_of_mem he hmem)).1) _ _
  | variableRef n x => exact ⟨R.bind (R.findVar x) R.createLoad, R.findVar x⟩
  | functionCall n p as _ has =>
    obtain ⟨hep, hea⟩ := List.forall_mem_append.mp he
    have hargs := R.getArgs_of fun e hmem => (has e hmem (callsOnly_of_mem hea hmem)).1
    refine ⟨?_, R.fail _⟩
    cases p with
    | «variable» m f =>
      have hf : S .functionCall f := hep f (List.mem_singleton_self f)
      have hcall : Φ (do
          let _ ← Gen.require (.undefinedFunction f) (functionType f)
          let vs ← getArgs as
          Reir.createCall ⟨.functionCall, n.node⟩ f vs) :=
        R.bind (R.require _ _) fun _ => R.bind hargs fun _ => R.createCall hf _
      exact hcall
    | _ =>
      have hfail : Φ (Gen.fail .undefined : Gen LLValue) := R.fail _
      exact hfail
  | arrayReference n p i hp hi =>
    obtain ⟨hep, hei⟩ := List.forall_mem_append.mp he
    cases p with
    | none => exact ⟨R.fail _, R.fail _⟩
    | some p =>
      have href := R.arrayRef (hp p rfl hep).1 (hi hei).1
      exact ⟨R.bind href R.createLoad, href⟩
  | memberReference n p x o _ =>
    exact ⟨R.bind (R.memberRef p o) R.createLoad, R.memberRef p o⟩
  | assign n t v ht hv =>
    obtain ⟨het, hev⟩ := List.forall_mem_append.mp he
    refine ⟨?_, R.fail _⟩
    exact R.bind (ht het).2 fun target => R.bind (hv hev).1 fun _ => R.bind (R.createStore _ _ _) fun _ =>
      R.createLoad target

theorem getValue {e : Expression} (he : e.CallsOnly (S .functionCall)) : Φ e.getValue := (R.getValue_and_getRef he).1

theorem letCode (name : Text) {e : Expression} (he : e.CallsOnly (S .functionCall)) : Φ (letCode name e) :=
  R.bind (R.getType e) fun _ => R.bind R.get fun _ => R.bind (R.require _ _) fun _ =>
    R.bind (R.slotOf _) fun _ => R.bind (R.getValue he) fun _ => R.createStore _ _ _

theorem loopEvery {every : Ptr Expression} (he : ∀ e, every = .to e → e.CallsOnly (S .functionCall)) :
    Φ (loopEvery every) := by
  unfold Reir.loopEvery
  split
  · exact R.pure _
  · exact R.fail _
  · exact R.bind (R.getValue (he _ rfl)) fun _ => R.pure _

theorem emitCode (hS : S .emit (text "__emit_func")) (slot : Option ℕ) {e : Expression}
    (he : e.CallsOnly (S .functionCall)) : Φ (emitCode slot e) :=
  R.bind (R.getType e) fun _ => R.bind (R.require _ _) fun _ => R.bind (R.getValue he) fun _ =>
    R.bind (R.slotOf _) fun _ => R.bind (R.createStore _ _ _) fun _ =>
      R.bind (R.createBitCast _ _) fun _ => R.bind (R.createCall hS _) fun _ => R.pure _

theorem copyCells (buff key value : LLValue) (cs : List CellCopy) :
    Φ (copyCells buff key value cs) := by
  induction cs with
  | nil => exact R.pure _
  | cons c cs ih =>
    exact R.bind (R.createGEP _ _ _) fun _ => R.bind (R.createGEP _ _ _) fun _ =>
      R.bind (R.emitInstr _ trivial rfl) fun _ => ih

theorem insertCode (hS : S .insert (text "__insert")) (table : Text) {e : Expression} (he : e.CallsOnly (S .functionCall))
    (frame : InsertFrame) : Φ (insertCode table e frame) :=
  R.bind (R.getValue he) fun _ => R.bind (R.lookupSchema _ _) fun _ => R.bind (R.getType e) fun _ =>
    R.bind (R.require _ _) fun _ => R.bind (R.slotOf _) fun _ => R.bind (R.slotOf _) fun _ =>
      R.bind (R.slotOf _) fun _ => R.bind (R.createStore _ _ _) fun _ =>
        R.bind (R.createBitCast _ _) fun _ => R.bind (R.require _ _) fun _ =>
          R.bind (R.emitInstr _ trivial rfl) fun _ => R.bind (R.insertCells _ _) fun _ =>
            R.bind (R.copyCells _ _ _ _) fun _ => R.bind (R.createBitCast _ _) fun _ =>
              R.bind (R.createBitCast _ _) fun _ => R.bind (R.createCall hS _) fun _ => R.pure _

theorem scanFields (key value : LLValue) (ls : List (Bool × ℕ)) (i : ℕ) (prev : LLValue) :
    Φ (scanFields key value ls i prev) := by
  induction ls generalizing i prev with
  | nil => exact R.pure prev
  | cons l ls ih =>
    have hcolumn : Φ (scanColumn key value l) := by
      unfold scanColumn
      split_ifs
      · exact R.createGEP _ _ _
      · exact R.createGEP _ _ _
    exact R.bind hcolumn fun _ => R.bind (R.createBitCast _ _) fun _ =>
      R.bind (R.createLoad _) fun _ => R.bind (R.createInsertValue _ _ _ _) fun _ => ih _ _

theorem scanCursor (hS : S .scan (text "__get_cursor")) (s : Schema) (frame : ScanFrame) :
    Φ (scanCursor s frame) :=
  R.bind (R.require _ _) fun _ => R.bind (R.require _ _) fun _ => R.createCall hS _

theorem scanRow (hk : S .scan (text "__cursor_copy_key"))
    (hv : S .scan (text "__cursor_copy_value"))
    (s : Schema) (t : LLType) (frame : ScanFrame) (cursor : LLValue) :
    Φ (scanRow s t frame cursor) :=
  R.bind (R.slotOf _) fun _ => R.bind (R.createBitCast _ _) fun _ =>
    R.bind (R.createCall hk _) fun _ => R.bind (R.slotOf _) fun _ =>
      R.bind (R.createBitCast _ _) fun _ => R.bind (R.createCall hv _) fun _ =>
        R.bind (R.scanFields _ _ _ _ _) fun _ => R.bind (R.slotOf _) fun _ => R.createStore _ _ _

end CallRules

namespace Rules
variable {Φ : ∀ {α : Type}, Gen α → Prop} (R : Rules Φ)
include R

theorem createLoad (p : LLValue) : Φ (createLoad p) := R.callRules.createLoad p

theorem createStore (tag : Tag) (v p : LLValue) : Φ (createStore tag v p) :=
  R.callRules.createStore tag v p

theorem createICmp (pred : Pred) (l r : LLValue) : Φ (createICmp pred l r) :=
  R.callRules.createICmp pred l r

theorem createInsertValue (tag : Tag) (agg v : LLValue) (i : ℕ) :
    Φ (createInsertValue tag agg v i) :=
  R.callRules.createInsertValue tag agg v i

theorem createCall (tag : Tag) (f : Text) (args : List LLValue) : Φ (createCall tag f args) :=
  R.callRules.createCall trivial args

theorem memberRef (p : Expression) (o : Option ℕ) : Φ (memberRef p o) := R.callRules.memberRef p o

theorem rowField (probe value : LLValue) : Φ (rowField probe value) :=
  R.callRules.rowField probe value

theorem getValue (e : Expression) : Φ e.getValue := R.callRules.getValue fun _ _ => trivial

theorem letCode (name : Text) (e : Expression) : Φ (letCode name e) :=
  R.callRules.letCode name fun _ _ => trivial

theorem loopEvery (every : Ptr Expression) : Φ (loopEvery every) :=
  R.callRules.loopEvery fun _ _ _ _ => trivial

theorem emitCode (slot : Option ℕ) (e : Expression) : Φ (emitCode slot e) :=
  R.callRules.emitCode trivial slot fun _ _ => trivial

theorem insertCode (table : Text) (e : Expression) (frame : InsertFrame) :
    Φ (insertCode table e frame) :=
  R.callRules.insertCode trivial table (fun _ _ => trivial) frame

theorem scanCursor (s : Schema) (frame : ScanFrame) : Φ (scanCursor s frame) :=
  R.callRules.scanCursor trivial s frame

theorem scanRow (s : Schema) (t : LLType) (frame : ScanFrame) (cursor : LLValue) :
    Φ (scanRow s t frame cursor) :=
  R.callRules.scanRow trivial trivial s t frame cursor

end Rules

/-- A property of steps that is closed under all that the builder does. -/
structure CodeRules (Φ : ∀ {α : Type}, Gen α → Prop) : Prop extends LookupRules Φ where
  emitInstr : ∀ i, Φ (emitInstr i)
  emitResult : ∀ mk ty, Φ (emitResult mk ty)
  emitLoad : ∀ p ty, Φ (emitLoad p ty)
  createBlock : Φ createBlock
  setInsertPoint : ∀ b, Φ (setInsertPoint b)
  getInsertBlock : Φ getInsertBlock
  enterLoop : ∀ l, Φ (enterLoop l)
  exitLoop : Φ exitLoop

namespace CodeRules
variable {Φ : ∀ {α : Type}, Gen α → Prop} (R : CodeRules Φ)
include R

theorem toI1 (v : LLValue) : Φ (toI1 v) := by
  unfold Reir.toI1
  split_ifs
  · exact R.pure v
  · exact R.emitResult _ _

theorem conditionalValue {forAnd : Bool} {lhs rhs : Gen LLValue} (hl : Φ lhs) (hr : Φ rhs) :
    Φ (conditionalValue forAnd lhs rhs) :=
  R.bind R.createBlock fun _ => R.bind R.createBlock fun _ => R.bind hl fun _ =>
    R.bind (R.toI1 _) fun _ => R.bind (R.emitInstr _) fun _ => R.bind R.getInsertBlock fun _ =>
      R.bind (R.setInsertPoint _) fun _ => R.bind hr fun _ => R.bind (R.toI1 _) fun _ =>
        R.bind (R.emitInstr _) fun _ => R.bind R.getInsertBlock fun _ =>
          R.bind (R.setInsertPoint _) fun _ => R.emitResult _ _

theorem rules : Rules Φ where
  toLookupRules := R.toLookupRules
  emitInstr := fun i _ => R.emitInstr i
  emitResult := fun mk ty _ => R.emitResult mk ty
  emitLoad := R.emitLoad
  conditionalValue := R.conditionalValue

theorem ifCode {cond : Gen LLValue} {trueCode falseCode : Gen Unit} (hc : Φ cond)
    (ht : Φ trueCode) (hf : Φ falseCode) : Φ (ifCode cond trueCode falseCode) :=
  R.bind R.createBlock fun _ => R.bind R.createBlock fun _ => R.bind R.createBlock fun _ =>
    R.bind hc fun _ => R.bind (R.toI1 _) fun _ => R.bind (R.emitInstr _) fun _ =>
      R.bind (R.setInsertPoint _) fun _ => R.bind ht fun _ => R.bind (R.emitInstr _) fun _ =>
        R.bind (R.setInsertPoint _) fun _ => R.bind hf fun _ => R.bind (R.emitInstr _) fun _ =>
          R.setInsertPoint _

theorem loopCondition (cond : Ptr Expression) (body finish : ℕ) :
    Φ (loopCondition cond body finish) := by
  unfold Reir.loopCondition
  split
  · exact R.pure _
  · exact R.fail _
  · exact R.bind (R.rules.getValue _) fun _ => R.emitInstr _

theorem forCode {init blk : Gen Unit} (cond every : Ptr Expression) (hi : Φ init) (hb : Φ blk) :
    Φ (forCode init cond every blk) :=
  R.bind hi fun _ => R.bind R.createBlock fun _ => R.bind R.createBlock fun _ =>
    R.bind R.createBlock fun _ => R.bind R.createBlock fun _ => R.bind (R.enterLoop _) fun _ =>
      R.bind (R.emitInstr _) fun _ => R.bind (R.setInsertPoint _) fun _ =>
        R.bind (R.loopCondition _ _ _) fun _ => R.bind (R.setInsertPoint _) fun _ =>
          R.bind hb fun _ => R.bind (R.emitInstr _) fun _ => R.bind (R.setInsertPoint _) fun _ =>
            R.bind (R.rules.loopEvery _) fun _ => R.bind (R.emitInstr _) fun _ =>
              R.bind (R.setInsertPoint _) fun _ => R.exitLoop

theorem scanCode (table rowName : Text) (frame : ScanFrame) {blk : Gen Unit} (hb : Φ blk) :
    Φ (scanCode table rowName frame blk) :=
  R.bind (R.lookupSchema _ _) fun _ => R.bind R.get fun _ => R.bind (R.require _ _) fun _ =>
    R.bind (R.rules.scanCursor _ _) fun _ => R.bind R.createBlock fun _ =>
      R.bind R.createBlock fun _ => R.bind R.createBlock fun _ => R.bind (R.emitInstr _) fun _ =>
        R.bind (R.setInsertPoint _) fun _ => R.bind (R.rules.createCall _ _ _) fun _ =>
          R.bind (R.rules.createICmp _ _ _) fun _ => R.bind (R.emitInstr _) fun _ =>
            R.bind (R.setInsertPoint _) fun _ => R.bind (R.rules.scanRow _ _ _ _) fun _ =>
              R.bind hb fun _ => R.bind (R.rules.createCall _ _ _) fun _ =>
                R.bind (R.emitInstr _) fun _ => R.bind (R.setInsertPoint _) fun _ =>
                  R.bind (R.rules.createCall _ _ _) fun _ => R.pure _

theorem codegenAll_of {fs : List Frame} {ss : List Statement} (h : ∀ s ∈ ss, Φ (s.codegen fs)) :
    Φ (codegenAll fs ss) := by
  induction ss with
  | nil => exact R.pure _
  | cons s ss ih =>
    rw [List.forall_mem_cons] at h
    exact R.bind h.1 fun _ => ih h.2

theorem codegen (fs : List Frame) (s : Statement) : Φ (s.codegen fs) := by
  induction s using Statement.induction generalizing fs with
  | block ss hss => exact R.codegenAll_of fun s hs => hss s hs fs
  | transaction isolation ss hss =>
    exact R.bind (R.rules.createCall _ _ _) fun _ => R.bind (R.codegenAll_of fun s hs => hss s hs _)
      fun _ => R.bind (R.rules.createCall _ _ _) fun _ => R.pure _
  | define schema name => exact R.pure _
  | forStmt init cond every blk hinit hblk =>
    have hcode : Φ (codegenInit fs init) :=
      match init, hinit with
      | .null, _ => R.pure _
      | .uninit, _ => R.fail _
      | .to s, hinit => hinit s rfl fs
    exact R.forCode _ _ hcode (R.codegenAll_of fun s hs => hblk s hs _)
  | jump t => exact R.bind R.get fun _ => R.bind (R.require _ _) fun _ => R.emitInstr _
  | emit stack e => exact R.rules.emitCode _ _
  | insert table e frame => exact R.rules.insertCode _ _ _
  | scan table rowName blk frame hblk =>
    exact R.scanCode _ _ _ (R.codegenAll_of fun s hs => hblk s hs _)
  | letStmt name e type => exact R.rules.letCode _ _
  | defineTuple name type => exact R.pure _
  | ifStmt cond ts es hts hes =>
    have helse : Φ (codegenElse fs es) := by
      cases es with
      | none => exact R.pure _
      | some es => exact R.codegenAll_of fun s hs => hes es rfl s hs fs
    exact R.ifCode (R.rules.getValue cond) (R.codegenAll_of fun s hs => hts s hs fs) helse
  | exprStatement stack e => exact R.bind (R.rules.getValue e) fun _ => R.pure _

theorem codegenAll (fs : List Frame) (ss : List Statement) : Φ (codegenAll fs ss) :=
  R.codegenAll_of fun s _ => R.codegen fs s

end CodeRules

/-- A property of steps that is closed under the allocation of slots. -/
structure AllocaRules (Φ : ∀ {α : Type}, Gen α → Prop) : Prop extends LookupRules Φ where
  createAlloca : ∀ ty, Φ (createAlloca ty)

namespace AllocaRules
variable {Φ : ∀ {α : Type}, Gen α → Prop} (R : AllocaRules Φ)
include R

theorem spill (e : Expression) (n : Note) : Φ (spill e n) := by
  refine R.bind (R.getType e) fun t => ?_
  split_ifs
  · exact R.bind (R.createAlloca t) fun _ => R.pure _
  · exact R.pure n

theorem eachElement_of {es : List Expression} (h : ∀ e ∈ es, ∀ n, Φ (e.eachValue n)) :
    Φ (eachElement es) := by
  induction es with
  | nil => exact R.pure _
  | cons e es ih =>
    rw [List.forall_mem_cons] at h
    exact R.bind (h.1 _) fun _ => R.bind (ih h.2) fun _ => R.pure _

theorem eachArg_of {es : List Expression} (h : ∀ e ∈ es, ∀ n, Φ (e.eachValue n)) :
    Φ (eachArg es) := by
  induction es with
  | nil => exact R.pure _
  | cons e es ih =>
    rw [List.forall_mem_cons] at h
    exact R.bind (R.spill _ _) fun n => R.bind (h.1 n) fun _ => R.bind (ih h.2) fun _ => R.pure _

theorem eachValue (e : Expression) (n : Note) : Φ (e.eachValue n) := by
  induction e using Expression.induction generalizing n with
  | primary m v => exact R.pure _
  | binary m l op r _ _ => exact R.pure _
  | pointerOf m t _ => exact R.bind (R.spill _ _) fun _ => R.pure _
  | rowLiteral m es _ => exact R.pure _
  | arrayLiteral m es hes =>
    exact R.bind (R.eachElement_of hes) fun _ => R.bind (R.spill _ _) fun _ => R.pure _
  | variableRef m x => exact R.bind (R.spill _ _) fun _ => R.pure _
  | functionCall m p as _ has => exact R.bind (R.eachArg_of has) fun _ => R.pure _
  | arrayReference m p i hp _ =>
    refine R.bind (R.spill _ _) fun _ => ?_
    cases p with
    | none => exact R.bind (R.fail _) fun _ => R.pure _
    | some p => exact R.bind (R.bind (hp p rfl _) fun _ => R.pure _) fun _ => R.pure _
  | memberReference m p x o hp =>
    exact R.bind (R.spill _ _) fun _ => R.bind (hp _) fun _ => R.pure _
  | assign m t v _ hv =>
    exact R.bind (R.spill _ _) fun _ => R.bind (hv _) fun _ => R.pure _

theorem defineAttrs (names : List Text) (props : List ℕ) (params : List (Option Int))
    (types : List (Option NodeType)) : Φ (defineAttrs names props params types) := by
  fun_induction Reir.defineAttrs names props params types with
  | case1 => exact R.pure _
  | case2 x names prop props param params t types ih => exact R.bind ih fun _ => R.pure _
  | case3 => exact R.fail _

theorem allocaRecord (s : Schema) (already : Option ℕ) : Φ (allocaRecord s already) := by
  unfold Reir.allocaRecord
  split_ifs
  · exact R.fail _
  · exact R.fail _
  · exact R.bind (R.require _ _) fun _ => R.bind (R.require _ _) fun _ =>
      R.bind (R.createAlloca _) fun _ => R.bind (R.createAlloca _) fun _ => R.pure _

theorem allocaInsert (table : Text) (e : Expression) (frame : InsertFrame) :
    Φ (allocaInsert table e frame) :=
  R.bind (R.lookupSchema _ _) fun s => R.bind (R.allocaRecord s _) fun _ =>
    R.bind (R.getType e) fun t => R.bind (R.createAlloca t) fun _ => R.pure _

theorem scanColumns (as : List Attribute) : Φ (scanColumns as) := by
  induction as with
  | nil => exact R.pure _
  | cons a as ih =>
    unfold Reir.scanColumns
    split_ifs
    · exact R.bind ih fun _ => R.pure _
    · exact R.fail _

end AllocaRules

/-- A property of steps that is closed under all that the allocation pass does, the definition of a
table taken as one step. -/
structure DefineRules (Φ : ∀ {α : Type}, Gen α → Prop) : Prop extends AllocaRules Φ where
  setVar : ∀ x slot, Φ (Gen.modify fun c => c.setVar x slot)
  setAnalyzeType : ∀ x t, Φ (Gen.modify fun c => c.setAnalyzeType x t)
  defineTable : ∀ schema name, Φ (defineTable schema name)
  createScanRow : ∀ x ts, Φ (createScanRow x ts)

namespace DefineRules
variable {Φ : ∀ {α : Type}, Gen α → Prop} (R : DefineRules Φ)
include R

theorem allocaScan (table rowName : Text) (frame : ScanFrame) :
    Φ (allocaScan table rowName frame) :=
  R.bind (R.lookupSchema _ _) fun s => R.bind (R.allocaRecord s _) fun _ =>
    R.bind (R.scanColumns _) fun ts => R.bind (R.createScanRow _ ts) fun t =>
      R.bind (R.createAlloca t) fun _ => R.bind (R.setVar _ _) fun _ => R.pure _

theorem allocaInit_of {init : Ptr Statement} (h : ∀ s, init = .to s → Φ s.allocaStack) :
    Φ (allocaInit init) :=
  match init, h with
  | .null, _ => R.pure _
  | .uninit, _ => R.fail _
  | .to s, h => R.bind (h s rfl) fun _ => R.pure _

theorem allocaStack (s : Statement) : Φ s.allocaStack := by
  induction s using Statement.induction with
  | block ss _ => exact R.pure _
  | transaction isolation ss _ => exact R.pure _
  | define schema name => exact R.bind (R.defineTable _ _) fun _ => R.pure _
  | forStmt init cond every blk hinit _ => exact R.bind (R.allocaInit_of hinit) fun _ => R.pure _
  | jump t => exact R.pure _
  | emit stack e =>
    exact R.bind (R.getType e) fun t => R.bind (R.createAlloca t) fun _ => R.pure _
  | insert table e frame => exact R.bind (R.allocaInsert _ _ _) fun _ => R.pure _
  | scan table rowName blk frame _ => exact R.bind (R.allocaScan _ _ _) fun _ => R.pure _
  | letStmt name e type =>
    exact R.bind (R.getType e) fun t => R.bind (R.createAlloca t) fun _ =>
      R.bind (R.setVar _ _) fun _ => R.pure _
  | defineTuple name type => exact R.bind (R.setAnalyzeType _ _) fun _ => R.pure _
  | ifStmt cond ts fs _ _ => exact R.pure _
  | exprStatement stack e =>
    exact R.bind (R.spill _ _) fun _ => R.bind (R.eachValue e _) fun _ => R.pure _

theorem eachStatement_of {ss : List Statement} (h : ∀ s ∈ ss, Φ s.visit) : Φ (eachStatement ss) := by
  induction ss with
  | nil => exact R.pure _
  | cons s ss ih =>
    rw [List.forall_mem_cons] at h
    exact R.bind h.1 fun _ => R.bind (ih h.2) fun _ => R.pure _

theorem visit (s : Statement) : Φ s.visit := by
  have hinit : ∀ init, Φ (allocaInit init) := fun init => R.allocaInit_of fun s _ => R.allocaStack s
  induction s using Statement.induction with
  | block ss hss => exact R.bind (R.eachStatement_of hss) fun _ => R.pure _
  | transaction isolation ss hss => exact R.bind (R.eachStatement_of hss) fun _ => R.pure _
  | forStmt init cond every blk _ hblk =>
    exact R.bind (hinit init) fun init => R.bind (hinit init) fun _ =>
      R.bind (R.eachStatement_of hblk) fun _ => R.pure _
  | scan table rowName blk frame hblk =>
    exact R.bind (R.allocaScan _ _ _) fun _ => R.bind (R.eachStatement_of hblk) fun _ => R.pure _
  | ifStmt cond ts fs hts hfs =>
    refine R.bind (R.eachStatement_of hts) fun _ => ?_
    cases fs with
    | none => exact R.bind (R.pure _) fun _ => R.pure _
    | some fs =>
      exact R.bind (R.bind (R.eachStatement_of (hfs fs rfl)) fun _ => R.pure _) fun _ => R.pure _
  | define schema name => exact R.allocaStack _
  | jump t => exact R.allocaStack _
  | emit stack e => exact R.allocaStack _
  | insert table e frame => exact R.allocaStack _
  | letStmt name e type => exact R.allocaStack _
  | defineTuple name type => exact R.allocaStack _
  | exprStatement stack e => exact R.allocaStack _

theorem eachStatement (ss : List Statement) : Φ (eachStatement ss) :=
  R.eachStatement_of fun s _ => R.visit s

end DefineRules

/-- A property of steps that is closed under all that the allocation pass does. -/
structure PassRules (Φ : ∀ {α : Type}, Gen α → Prop) : Prop extends AllocaRules Φ where
  setVar : ∀ x slot, Φ (Gen.modify fun c => c.setVar x slot)
  setAnalyzeType : ∀ x t, Φ (Gen.modify fun c => c.setAnalyzeType x t)
  setSchema : ∀ x s, Φ (Gen.modify fun c => c.setSchema x s)
  created : ∀ t, Φ (Gen.modify fun c => { c with created := c.created ++ [t] })
  createScanRow : ∀ x ts, Φ (createScanRow x ts)

namespace PassRules
variable {Φ : ∀ {α : Type}, Gen α → Prop} (R : PassRules Φ)
include R

theorem defineRules : DefineRules Φ where
  toAllocaRules := R.toAllocaRules
  setVar := R.setVar
  setAnalyzeType := R.setAnalyzeType
  defineTable := by
    intro schema name
    unfold Reir.defineTable
    split
    · exact R.bind (R.defineAttrs _ _ _ _) fun _ => R.bind (R.setSchema _ _) fun _ => R.created _
    · exact R.fail _
  createScanRow := R.createScanRow

theorem eachStatement (ss : List Statement) : Φ (eachStatement ss) := R.defineRules.eachStatement ss

end PassRules

end Reir
