import Reir.CompilerContext

/-! The analysis pass. It computes the types of expressions and the offsets of member
references and records them in the tree, so it returns the annotated tree. A type pointer
that is never set stays null. -/
namespace Reir

/-- The result type of a binary operator. -/
def operate (l r : NodeType) (op : Operators) : Gen (Option NodeType) :=
  let bad := Gen.fail (.operandTypes l.id r.id op)
  let bool := lookupAnalyzeType (text "bool")
  let conditional := match r.id with
    | .integer | .bool => bool
    | _ => bad
  match l.id with
  | .integer | .double =>
    match op with
    | .plus | .minus | .multiple | .division | .modulo =>
      if r.id = l.id then pure (some l) else bad
    | .equal | .lessthan | .lessequal | .morethan | .moreequal | .notequal =>
      if r.id = l.id then bool else bad
    | .conditionalAnd | .conditionalOr =>
      if l.id = .double ∨ r.id = .double then bad else conditional
    | .none => bad
  | .string =>
    match op with
    | .plus => if r.id = l.id then lookupAnalyzeType (text "string") else bad
    | .equal | .lessthan | .lessequal | .morethan | .moreequal | .notequal =>
      if r.id = l.id then bool else bad
    | _ => bad
  | .bool =>
    match op with
    | .conditionalAnd | .conditionalOr => conditional
    | _ => bad
  | _ => bad

/-- A variable is looked up with `find`: a null entry is found. -/
def findVarType (x : Text) : Gen (Option NodeType) := do
  let c ← Gen.get
  Gen.require (.undefinedVariable x) (c.varTypes x)

/-- The name of the type of a literal; a null has none and its type stays unset. -/
def literalType : MaybeValue → Gen (Option NodeType)
  | none => pure none
  | some (.int _) => lookupAnalyzeType (text "integer")
  | some (.varchar _) => lookupAnalyzeType (text "string")
  | some (.float _) => lookupAnalyzeType (text "double")
  | some .unknown => Gen.fail .unknownPrimary

/-- The type of a row literal: a tuple type without a type identifier or names. -/
def anonymousTuple (types : List (Option NodeType)) : NodeType :=
  .tuple .noneType (types.map fun _ => text "(anonymous)") [] [] [] types

/-- The member named `x` of a tuple type: its offset and its type. -/
def findMember (x : Text) : Option NodeType → Gen (ℕ × Option NodeType)
  | some (.tuple _ names _ _ _ types) =>
    match names.findIdx? (· == x) with
    | some i => do
      let t ← Gen.require .undefined types[i]?
      pure (i, t)
    | none => Gen.fail (.memberNotFound x)
  | _ => Gen.fail .notTuple

def elementType : Option NodeType → Gen (Option NodeType)
  | some (.array id) => pure (some (.array id))
  | _ => Gen.fail .notArray

mutual

def Expression.analyze : Expression → Gen Expression
  | .primary n v => do
    let t ← literalType v
    pure (.primary { n with type := if v.isSome then t else n.type } v)
  | .binary n l op r => do
    let l ← l.analyze
    let r ← r.analyze
    let lt ← Gen.require .undefined l.note.type
    let rt ← Gen.require .undefined r.note.type
    let t ← operate lt rt op
    pure (.binary { n with type := t } l op r)
  | .pointerOf n t => pure (.pointerOf n t)
  | .rowLiteral n es => do
    let es ← analyzeElements es
    pure (.rowLiteral { n with type := some (anonymousTuple (es.map fun e => e.note.type)) } es)
  | .arrayLiteral _ [] => Gen.fail .emptyArrayLiteral
  | .arrayLiteral n (e :: es) => do
    let e ← e.analyze
    let t ← Gen.require .undefined e.note.type
    pure (.arrayLiteral { n with type := some (.array t.id) } (e :: es))
  | .variable n x => do
    let t ← findVarType x
    pure (.variable { n with type := t } x)
  | .functionCall n p as => do
    let t ← lookupAnalyzeType (text "integer")
    let as ← analyzeArgs as
    pure (.functionCall { n with type := t } p as)
  | .arrayReference _ none _ => Gen.fail .undefined
  | .arrayReference n (some p) i => do
    let p ← p.analyze
    let i ← i.analyze
    let t ← elementType p.note.type
    pure (.arrayReference { n with type := t } (some p) i)
  | .memberReference n p x _ => do
    let p ← p.analyze
    let m ← findMember x p.note.type
    pure (.memberReference { n with type := m.2 } p x (some m.1))
  | .assign n t v => do
    let t ← t.analyze
    let v ← v.analyze
    pure (.assign { n with type := v.note.type } t v)

/-- The elements of a row literal; each must have got a type. -/
def analyzeElements : List Expression → Gen (List Expression)
  | [] => pure []
  | e :: es => do
    let e ← e.analyze
    let _ ← Gen.require .assertion e.note.type
    let es ← analyzeElements es
    pure (e :: es)

def analyzeArgs : List Expression → Gen (List Expression)
  | [] => pure []
  | e :: es => do
    let e ← e.analyze
    let es ← analyzeArgs es
    pure (e :: es)

end

/-- The type a column is declared with. -/
def resolveTypeName (name : Text) : Gen (Option NodeType) :=
  if name = text "int" then lookupAnalyzeType (text "integer")
  else if name = text "double" then lookupAnalyzeType (text "double")
  else if name = text "string" then lookupAnalyzeType (text "string")
  else if name = text "date" then lookupAnalyzeType (text "integer")
  else do
    let c ← Gen.get
    Gen.require (.undefinedType name) (c.analyzeTypes name)

def resolveTypeNames : List Text → Gen (List (Option NodeType))
  | [] => pure []
  | x :: xs => do
    let t ← resolveTypeName x
    let ts ← resolveTypeNames xs
    pure (t :: ts)

/-- `TupleType::analyze`, called through a `TupleType*`. -/
def NodeType.analyzeTuple : NodeType → Gen NodeType
  | .tuple id names typeNames props params types => do
    let ts ← resolveTypeNames typeNames
    pure (.tuple id names typeNames props params (types ++ ts))
  | _ => Gen.fail .undefined

/-- `Let::analyze` behind the analysis of its expression. -/
def analyzeLet (name : Text) (e : Expression) (type : Option NodeType) : Gen (Option NodeType) :=
  match e, type with
  | .rowLiteral n _, none => do
    Gen.modify fun c => c.setVarType name n.type
    pure n.type
  | .rowLiteral _ _, some t => do
    let t ← t.analyzeTuple
    Gen.modify fun c => (c.setAnalyzeType name (some t)).setVarType name (some t)
    pure (some t)
  | .arrayLiteral n es, _ => do
    let first ← Gen.require .undefined es.head?
    let t ← Gen.require .undefined first.note.type
    Gen.modify fun c =>
      (c.setAnalyzeType name (some (.array t.id))).setVarType name (some (.array t.id))
    pure n.type
  | e, none => do
    Gen.modify fun c => c.setVarType name e.note.type
    pure e.note.type
  | _, some _ => Gen.fail (.unknownLetType name)

def Ptr.analyzeExpr : Ptr Expression → Gen (Ptr Expression)
  | .null => pure .null
  | .uninit => Gen.fail .undefined
  | .to e => do
    let e ← e.analyze
    pure (.to e)

mutual

def Statement.analyze : Statement → Gen Statement
  | .block ss => do
    let ss ← analyzeAll ss
    pure (.block ss)
  | .transaction isolation ss => do
    let ss ← analyzeAll ss
    pure (.transaction isolation ss)
  | .define schema name => do
    let t ← Gen.require .undefined schema
    let t ← t.analyzeTuple
    Gen.modify fun c => c.setAnalyzeType name (some t)
    pure (.define (some t) name)
  | .forStmt init cond every blk => do
    let init ← analyzeInit init
    let cond ← cond.analyzeExpr
    let every ← every.analyzeExpr
    let blk ← analyzeAll blk
    pure (.forStmt init cond every blk)
  | .jump t => pure (.jump t)
  | .emit stack e => do
    let e ← e.analyze
    pure (.emit stack e)
  | .insert table e frame => do
    let e ← e.analyze
    pure (.insert table e frame)
  | .scan table rowName blk frame => do
    let t ← lookupAnalyzeType table
    Gen.modify fun c => c.setVarType rowName t
    let blk ← analyzeAll blk
    pure (.scan table rowName blk frame)
  | .letStmt name e type => do
    let e ← e.analyze
    let type ← analyzeLet name e type
    pure (.letStmt name e type)
  | .defineTuple name type => do
    let t ← type.analyzeTuple
    Gen.modify fun c => c.setAnalyzeType name (some t)
    pure (.defineTuple name t)
  | .ifStmt cond trueBlock falseBlock => do
    let cond ← cond.analyze
    let trueBlock ← analyzeAll trueBlock
    let falseBlock ← analyzeElse falseBlock
    pure (.ifStmt cond trueBlock falseBlock)
  | .exprStatement stack e => do
    let e ← e.analyze
    pure (.exprStatement stack e)

def analyzeInit : Ptr Statement → Gen (Ptr Statement)
  | .null => pure .null
  | .uninit => Gen.fail .undefined
  | .to s => do
    let s ← s.analyze
    pure (.to s)

def analyzeElse : Option (List Statement) → Gen (Option (List Statement))
  | none => pure none
  | some ss => do
    let ss ← analyzeAll ss
    pure (some ss)

def analyzeAll : List Statement → Gen (List Statement)
  | [] => pure []
  | s :: ss => do
    let s ← s.analyze
    let ss ← analyzeAll ss
    pure (s :: ss)

end

/-- All of a context but the tables of analysed types. -/
def Ctx.untyped (c : Ctx) : Ctx :=
  { c with analyzeTypes := fun _ => none, varTypes := fun _ => none }

/-- A property of steps that is closed under what the analysis of expressions does. -/
structure TypingRules (Φ : ∀ {α : Type}, Gen α → Prop) : Prop where
  pure : ∀ {α : Type} (a : α), Φ (Pure.pure a : Gen α)
  fail : ∀ {α : Type} (e : CompileError), Φ (Gen.fail e : Gen α)
  get : Φ Gen.get
  require : ∀ {α : Type} (e : CompileError) (o : Option α), Φ (Gen.require e o)
  bind : ∀ {α β : Type} {p : Gen α} {f : α → Gen β}, Φ p → (∀ a, Φ (f a)) → Φ (p >>= f)
  lookupAnalyzeType : ∀ x : Text, Φ (lookupAnalyzeType x)

namespace TypingRules
variable {Φ : ∀ {α : Type}, Gen α → Prop} (R : TypingRules Φ)
include R

theorem operate (l r : NodeType) (op : Operators) : Φ (operate l r op) := by
  unfold Reir.operate
  repeat' split
  all_goals first
    | exact R.pure _
    | exact R.fail _
    | exact R.lookupAnalyzeType _

theorem literalType (v : MaybeValue) : Φ (literalType v) := by
  unfold Reir.literalType
  split
  · exact R.pure _
  · exact R.lookupAnalyzeType _
  · exact R.lookupAnalyzeType _
  · exact R.lookupAnalyzeType _
  · exact R.fail _

theorem findMember (x : Text) (t : Option NodeType) : Φ (findMember x t) := by
  unfold Reir.findMember
  split
  · split
    · exact R.bind (R.require _ _) fun _ => R.pure _
    · exact R.fail _
  · exact R.fail _

theorem elementType (t : Option NodeType) : Φ (elementType t) := by
  unfold Reir.elementType
  split
  · exact R.pure _
  · exact R.fail _

theorem analyzeElements {es : List Expression} (h : ∀ e ∈ es, Φ e.analyze) :
    Φ (analyzeElements es) := by
  induction es with
  | nil => exact R.pure _
  | cons e es ih =>
    rw [List.forall_mem_cons] at h
    exact R.bind h.1 fun _ => R.bind (R.require _ _) fun _ => R.bind (ih h.2) fun _ => R.pure _

theorem analyzeArgs {es : List Expression} (h : ∀ e ∈ es, Φ e.analyze) : Φ (analyzeArgs es) := by
  induction es with
  | nil => exact R.pure _
  | cons e es ih =>
    rw [List.forall_mem_cons] at h
    exact R.bind h.1 fun _ => R.bind (ih h.2) fun _ => R.pure _

theorem expression (e : Expression) : Φ e.analyze := by
  induction e using Expression.induction with
  | primary n v => exact R.bind (R.literalType v) fun _ => R.pure _
  | binary n l op r hl hr =>
    exact R.bind hl fun _ => R.bind hr fun _ => R.bind (R.require _ _) fun _ =>
      R.bind (R.require _ _) fun _ => R.bind (R.operate _ _ _) fun _ => R.pure _
  | pointerOf n t _ => exact R.pure _
  | rowLiteral n es hes => exact R.bind (R.analyzeElements hes) fun _ => R.pure _
  | arrayLiteral n es hes =>
    cases es with
    | nil => exact R.fail _
    | cons e es =>
      exact R.bind (hes e List.mem_cons_self) fun _ => R.bind (R.require _ _) fun _ => R.pure _
  | variableRef n x => exact R.bind (R.bind R.get fun _ => R.require _ _) fun _ => R.pure _
  | functionCall n p as _ has =>
    exact R.bind (R.lookupAnalyzeType _) fun _ => R.bind (R.analyzeArgs has) fun _ => R.pure _
  | arrayReference n p i hp hi =>
    cases p with
    | none => exact R.fail _
    | some p =>
      exact R.bind (hp p rfl) fun _ => R.bind hi fun _ => R.bind (R.elementType _) fun _ => R.pure _
  | memberReference n p x o hp =>
    exact R.bind hp fun _ => R.bind (R.findMember _ _) fun _ => R.pure _
  | assign n t v ht hv => exact R.bind ht fun _ => R.bind hv fun _ => R.pure _

theorem resolveTypeNames (xs : List Text) : Φ (resolveTypeNames xs) := by
  induction xs with
  | nil => exact R.pure _
  | cons x xs ih =>
    have hname : Φ (resolveTypeName x) := by
      unfold resolveTypeName
      split_ifs
      · exact R.lookupAnalyzeType _
      · exact R.lookupAnalyzeType _
      · exact R.lookupAnalyzeType _
      · exact R.lookupAnalyzeType _
      · exact R.bind R.get fun _ => R.require _ _
    exact R.bind hname fun _ => R.bind ih fun _ => R.pure _

theorem analyzeTuple (t : NodeType) : Φ t.analyzeTuple := by
  unfold NodeType.analyzeTuple
  split
  · exact R.bind (R.resolveTypeNames _) fun _ => R.pure _
  · exact R.fail _

theorem analyzeExpr (p : Ptr Expression) : Φ p.analyzeExpr := by
  unfold Ptr.analyzeExpr
  split
  · exact R.pure _
  · exact R.fail _
  · exact R.bind (R.expression _) fun _ => R.pure _

end TypingRules

/-- A property of steps that is closed under what the analysis does. -/
structure AnalyzeRules (Φ : ∀ {α : Type}, Gen α → Prop) : Prop where
  pure : ∀ {α : Type} (a : α), Φ (Pure.pure a : Gen α)
  fail : ∀ {α : Type} (e : CompileError), Φ (Gen.fail e : Gen α)
  get : Φ Gen.get
  require : ∀ {α : Type} (e : CompileError) (o : Option α), Φ (Gen.require e o)
  bind : ∀ {α β : Type} {p : Gen α} {f : α → Gen β}, Φ p → (∀ a, Φ (f a)) → Φ (p >>= f)
  modify : ∀ {g : Ctx → Ctx}, (∀ c, (g c).untyped = c.untyped) → Φ (Gen.modify g)

namespace AnalyzeRules
variable {Φ : ∀ {α : Type}, Gen α → Prop} (R : AnalyzeRules Φ)
include R

theorem typing : TypingRules Φ where
  pure := R.pure
  fail := R.fail
  get := R.get
  require := R.require
  bind := R.bind
  lookupAnalyzeType := by
    intro x
    refine R.bind R.get fun c => ?_
    split
    · exact R.pure _
    · exact R.bind (R.modify (by intro _; rfl)) fun _ => R.pure _

theorem analyzeLet (name : Text) (e : Expression) (type : Option NodeType) :
    Φ (analyzeLet name e type) := by
  unfold Reir.analyzeLet
  split
  · exact R.bind (R.modify (by intro _; rfl)) fun _ => R.pure _
  · exact R.bind (R.typing.analyzeTuple _) fun _ => R.bind (R.modify (by intro _; rfl)) fun _ => R.pure _
  · exact R.bind (R.require _ _) fun _ => R.bind (R.require _ _) fun _ =>
      R.bind (R.modify (by intro _; rfl)) fun _ => R.pure _
  · exact R.bind (R.modify (by intro _; rfl)) fun _ => R.pure _
  · exact R.fail _

theorem analyzeAll_of {ss : List Statement} (h : ∀ s ∈ ss, Φ s.analyze) : Φ (analyzeAll ss) := by
  induction ss with
  | nil => exact R.pure _
  | cons s ss ih =>
    rw [List.forall_mem_cons] at h
    exact R.bind h.1 fun _ => R.bind (ih h.2) fun _ => R.pure _

theorem statement (s : Statement) : Φ s.analyze := by
  induction s using Statement.induction with
  | block ss hss => exact R.bind (R.analyzeAll_of hss) fun _ => R.pure _
  | transaction isolation ss hss => exact R.bind (R.analyzeAll_of hss) fun _ => R.pure _
  | define schema name =>
    exact R.bind (R.require _ _) fun _ => R.bind (R.typing.analyzeTuple _) fun _ =>
      R.bind (R.modify (by intro _; rfl)) fun _ => R.pure _
  | forStmt init cond every blk hinit hblk =>
    have hinit' : Φ (analyzeInit init) :=
      match init, hinit with
      | .null, _ => R.pure _
      | .uninit, _ => R.fail _
      | .to s, hinit => R.bind (hinit s rfl) fun _ => R.pure _
    exact R.bind hinit' fun _ => R.bind (R.typing.analyzeExpr _) fun _ => R.bind (R.typing.analyzeExpr _) fun _ =>
      R.bind (R.analyzeAll_of hblk) fun _ => R.pure _
  | jump t => exact R.pure _
  | emit stack e => exact R.bind (R.typing.expression e) fun _ => R.pure _
  | insert table e frame => exact R.bind (R.typing.expression e) fun _ => R.pure _
  | scan table rowName blk frame hblk =>
    exact R.bind (R.typing.lookupAnalyzeType _) fun _ => R.bind (R.modify (by intro _; rfl)) fun _ =>
      R.bind (R.analyzeAll_of hblk) fun _ => R.pure _
  | letStmt name e type =>
    exact R.bind (R.typing.expression e) fun _ => R.bind (R.analyzeLet _ _ _) fun _ => R.pure _
  | defineTuple name type =>
    exact R.bind (R.typing.analyzeTuple _) fun _ => R.bind (R.modify (by intro _; rfl)) fun _ => R.pure _
  | ifStmt cond ts fs hts hfs =>
    have helse : Φ (analyzeElse fs) := by
      cases fs with
      | none => exact R.pure _
      | some fs => exact R.bind (R.analyzeAll_of (hfs fs rfl)) fun _ => R.pure _
    exact R.bind (R.typing.expression cond) fun _ => R.bind (R.analyzeAll_of hts) fun _ =>
      R.bind helse fun _ => R.pure _
  | exprStatement stack e => exact R.bind (R.typing.expression e) fun _ => R.pure _

theorem analyzeAll (ss : List Statement) : Φ (analyzeAll ss) :=
  R.analyzeAll_of fun s _ => R.statement s

end AnalyzeRules

theorem keepsRules : AnalyzeRules (Gen.Keeps Ctx.untyped) where
  pure := Gen.keeps_pure
  fail := Gen.keeps_fail
  get := Gen.keeps_get
  require := Gen.keeps_require
  bind := Gen.Keeps.bind
  modify := Gen.keeps_modify

theorem analyzeAll_keeps (ss : List Statement) : Gen.Keeps Ctx.untyped (analyzeAll ss) :=
  keepsRules.analyzeAll ss

end Reir
