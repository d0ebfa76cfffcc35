import Reir.Token

/-! The syntax tree of the compiler. Fields the source fills in later passes are part
of a node: `type_` and `offset_` are set by `analyze`, stack slots by `alloca_stack`, and
`none` is the state before. -/
namespace Reir

inductive Value
  | int (v : BitVec 64)
  | varchar (s : Text)
  | float (bits : BitVec 64)
  | unknown
  deriving DecidableEq, Repr

/-- `exists_` and `value_`: a null has no value. -/
abbrev MaybeValue := Option Value

inductive Operators
  | plus | minus | multiple | division | equal | modulo
  | lessthan | lessequal | morethan | moreequal | notequal
  | conditionalAnd | conditionalOr | none
  deriving DecidableEq, Repr

inductive TypeId
  | noneType | integer | double | string | date | bool | function | pointer | array | tuple
  deriving DecidableEq, Repr

/-- The three subclasses of `node::Type`, each with its `type_`. The type of an array holds
the identifier of its elements. The lists of a tuple type are filled independently. -/
inductive NodeType
  | primary (id : TypeId)
  | array (id : TypeId)
  | tuple (id : TypeId) (names typeNames : List Text) (props : List ℕ)
      (params : List (Option Int)) (types : List (Option NodeType))

def NodeType.id : NodeType → TypeId
  | .primary i => i
  | .array i => i
  | .tuple i _ _ _ _ _ => i

def NodeType.isTuple : NodeType → Bool
  | .tuple .. => true
  | _ => false

/-- What the passes record on an expression: the analysed type and the slot its value is
spilled to. `node` names the node, so that instructions can be traced back to it. -/
structure Note where
  type : Option NodeType := none
  stack : Option ℕ := none
  node : ℕ := 0

inductive Expression
  | primary (note : Note) (value : MaybeValue)
  | binary (note : Note) (lhs : Expression) (op : Operators) (rhs : Expression)
  | pointerOf (note : Note) (target : Expression)
  | rowLiteral (note : Note) (elements : List Expression)
  | arrayLiteral (note : Note) (elements : List Expression)
  | variable (note : Note) (name : Text)
  | functionCall (note : Note) (parent : Expression) (args : List Expression)
  | arrayReference (note : Note) (parent : Option Expression) (idx : Expression)
  | memberReference (note : Note) (parent : Expression) (name : Text) (offset : Option ℕ)
  | assign (note : Note) (target value : Expression)

def Expression.note : Expression → Note
  | .primary n _ => n
  | .binary n _ _ _ => n
  | .pointerOf n _ => n
  | .rowLiteral n _ => n
  | .arrayLiteral n _ => n
  | .variable n _ => n
  | .functionCall n _ _ => n
  | .arrayReference n _ _ => n
  | .memberReference n _ _ _ => n
  | .assign n _ _ => n

def Expression.withNote (n : Note) : Expression → Expression
  | .primary _ v => .primary n v
  | .binary _ l op r => .binary n l op r
  | .pointerOf _ t => .pointerOf n t
  | .rowLiteral _ es => .rowLiteral n es
  | .arrayLiteral _ es => .arrayLiteral n es
  | .variable _ x => .variable n x
  | .functionCall _ p as => .functionCall n p as
  | .arrayReference _ p i => .arrayReference n p i
  | .memberReference _ p x o => .memberReference n p x o
  | .assign _ t v => .assign n t v

section
variable {P : Expression → Prop} (primary : ∀ n v, P (.primary n v))
  (binary : ∀ n l op r, P l → P r → P (.binary n l op r))
  (pointerOf : ∀ n t, P t → P (.pointerOf n t))
  (rowLiteral : ∀ n es, (∀ e ∈ es, P e) → P (.rowLiteral n es))
  (arrayLiteral : ∀ n es, (∀ e ∈ es, P e) → P (.arrayLiteral n es))
  (variableRef : ∀ n x, P (.variable n x))
  (functionCall : ∀ n p as, P p → (∀ e ∈ as, P e) → P (.functionCall n p as))
  (arrayReference : ∀ n p i, (∀ e ∈ p, P e) → P i → P (.arrayReference n p i))
  (memberReference : ∀ n p x o, P p → P (.memberReference n p x o))
  (assign : ∀ n t v, P t → P v → P (.assign n t v))
include primary binary pointerOf rowLiteral arrayLiteral variableRef functionCall
  arrayReference memberReference assign

/-- Induction over expressions, with the hypothesis for all the members of a list. -/
@[elab_as_elim]
theorem Expression.induction (e : Expression) : P e :=
  @Expression.rec P (fun es => ∀ e ∈ es, P e) (fun p => ∀ e ∈ p, P e) primary binary pointerOf
    rowLiteral arrayLiteral variableRef functionCall arrayReference memberReference assign
    (fun _ h => absurd h (by simp))
    (fun _ _ he hes => List.forall_mem_cons.mpr ⟨he, hes⟩) (fun _ h => absurd h (by simp))
    (fun _ he _ h => Option.mem_some_iff.mp h ▸ he) e

end

/-- `dynamic_cast<VariableReference*>`. -/
def Expression.asVariable : Expression → Option Expression
  | .variable n x => some (.variable n x)
  | _ => none

inductive JumpType
  | continueJump | breakJump
  deriving DecidableEq, Repr

/-- A raw pointer member. A constructor without an initialiser for it leaves it
indeterminate, which is not the null pointer. -/
inductive Ptr (α : Type)
  | null
  | uninit
  | to (a : α)

def Ptr.isTo {α : Type} : Ptr α → Bool
  | .to _ => true
  | _ => false

structure InsertFrame where
  keyPrefix : Option Text := none
  keyStack : Option ℕ := none
  valueStack : Option ℕ := none
  tupleStack : Option ℕ := none
  deriving DecidableEq

structure ScanFrame where
  prefixBegin : Option Text := none
  prefixEnd : Option Text := none
  keyStack : Option ℕ := none
  valueStack : Option ℕ := none
  tupleStack : Option ℕ := none
  deriving DecidableEq

/-- A `Block*` is the list of its statements. `schema_` of a `Define` is null when the
declared type is no tuple. -/
inductive Statement
  | block (statements : List Statement)
  | transaction (isolation : Text) (sequence : List Statement)
  | define (schema : Option NodeType) (name : Text)
  | forStmt (init : Ptr Statement) (cond every : Ptr Expression) (blk : List Statement)
  | jump (t : JumpType)
  | emit (stack : Option ℕ) (value : Expression)
  | insert (table : Text) (value : Expression) (frame : InsertFrame)
  | scan (table rowName : Text) (blk : List Statement) (frame : ScanFrame)
  | letStmt (name : Text) (expr : Expression) (type : Option NodeType)
  | defineTuple (name : Text) (type : NodeType)
  | ifStmt (cond : Expression) (trueBlock : List Statement) (falseBlock : Option (List Statement))
  | exprStatement (stack : Option ℕ) (value : Expression)

section
variable {P : Statement → Prop} (block : ∀ ss, (∀ s ∈ ss, P s) → P (.block ss))
  (transaction : ∀ isolation ss, (∀ s ∈ ss, P s) → P (.transaction isolation ss))
  (define : ∀ schema name, P (.define schema name))
  (forStmt : ∀ init cond every blk, (∀ s, init = .to s → P s) → (∀ s ∈ blk, P s) →
    P (.forStmt init cond every blk))
  (jump : ∀ t, P (.jump t)) (emit : ∀ stack e, P (.emit stack e))
  (insert : ∀ table e frame, P (.insert table e frame))
  (scan : ∀ table rowName blk frame, (∀ s ∈ blk, P s) → P (.scan table rowName blk frame))
  (letStmt : ∀ name e type, P (.letStmt name e type))
  (defineTuple : ∀ name type, P (.defineTuple name type))
  (ifStmt : ∀ cond ts fs, (∀ s ∈ ts, P s) → (∀ ss ∈ fs, ∀ s ∈ ss, P s) → P (.ifStmt cond ts fs))
  (exprStatement : ∀ stack e, P (.exprStatement stack e))
include block transaction define forStmt jump emit insert scan letStmt defineTuple ifStmt
  exprStatement

/-- Induction over statements, with the hypothesis for all the statements of a block. -/
@[elab_as_elim]
theorem Statement.induction (s : Statement) : P s :=
  @Statement.rec P (fun ss => ∀ s ∈ ss, P s) (fun p => ∀ s, p = .to s → P s)
    (fun p => ∀ ss ∈ p, ∀ s ∈ ss, P s)
    block transaction define forStmt jump emit insert scan letStmt defineTuple ifStmt exprStatement
    (fun _ h => absurd h (by simp)) (fun _ _ hs hss => List.forall_mem_cons.mpr ⟨hs, hss⟩)
    (fun _ h => nomatch h) (fun _ h => nomatch h) (fun _ hs _ h => Ptr.to.inj h ▸ hs)
    (fun _ h => absurd h (by simp)) (fun _ hss _ h => Option.mem_some_iff.mp h ▸ hss) s

end

end Reir
