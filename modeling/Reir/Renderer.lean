import Reir.Parser

/-! A renderer of syntax trees to tokens. Operands, assignment targets and values, pointer
targets and postfix bases stand in parentheses, and so does an expression statement that
would otherwise start like a block or not like a statement. -/
namespace Reir

def symbol (kind : TokenType) (s : String) : Token := ⟨kind, text s, 0, 0⟩

def identToken (x : Text) : Token := ⟨.identifier, x, 0, 0⟩

/-- A word of which only the text is read, with the type the tokenizer gives it. -/
def wordToken (x : Text) : Token :=
  ⟨if inReservedWord x then asReserved x else .identifier, x, 0, 0⟩

def openParen : Token := symbol .openParen "("
def closeParen : Token := symbol .closeParen ")"
def openBrace : Token := symbol .openBrace "\x7b"
def closeBrace : Token := symbol .closeBrace "\x7d"
def openBracket : Token := symbol .openBracket "["
def closeBracket : Token := symbol .closeBracket "]"
def comma : Token := symbol .comma ","
def semicolon : Token := symbol .semicolon ";"

def numberToken (n : ℕ) : Token := ⟨.number, decimal n, 0, 0⟩

def operatorSymbol : Operators → Token
  | .plus => symbol .plus "+"
  | .minus => symbol .minus "-"
  | .multiple => symbol .asterisk "*"
  | .division => symbol .slash "/"
  | .modulo => symbol .percent "%"
  | .lessthan => symbol .openAngle "<"
  | .morethan => symbol .closeAngle ">"
  | .lessequal => symbol .openAngleEqual "<="
  | .moreequal => symbol .closeAngleEqual ">="
  | .equal => symbol .equalEqual "=="
  | .notequal => symbol .exclamationMarkEqual "!="
  | .conditionalAnd => symbol .andAnd "&&"
  | .conditionalOr => symbol .orOr "||"
  | .none => symbol .invalid ""

/-- Token lists with a comma between them. -/
def commaSeparated : List (List Token) → List Token
  | [] => []
  | [ts] => ts
  | ts :: us :: rest => ts ++ comma :: commaSeparated (us :: rest)

def parenthesised (ts : List Token) : List Token := openParen :: (ts ++ [closeParen])

def literalToken : MaybeValue → Token
  | some (.int v) => numberToken v.toNat
  | some (.varchar s) => ⟨.stringLiteral, s, 0, 0⟩
  | _ => symbol .invalid ""

mutual

def Expression.render : Expression → List Token
  | .primary _ v => [literalToken v]
  | .binary _ l op r => parenthesised l.render ++ operatorSymbol op :: parenthesised r.render
  | .pointerOf _ t => symbol .and "&" :: parenthesised t.render
  | .rowLiteral _ es => openBrace :: (commaSeparated (renderList es) ++ [closeBrace])
  | .arrayLiteral _ es => openBracket :: (commaSeparated (renderList es) ++ [closeBracket])
  | .variable _ x => [identToken x]
  | .functionCall _ p as =>
    parenthesised p.render ++ openParen :: (commaSeparated (renderList as) ++ [closeParen])
  | .arrayReference _ (some p) i =>
    parenthesised p.render ++ openBracket :: (i.render ++ [closeBracket])
  | .arrayReference _ none i => openBracket :: (i.render ++ [closeBracket])
  | .memberReference _ p x _ => parenthesised p.render ++ [symbol .period ".", identToken x]
  | .assign _ t v => parenthesised t.render ++ symbol .equal "=" :: parenthesised v.render

def renderList : List Expression → List (List Token)
  | [] => []
  | e :: es => e.render :: renderList es

end

def renderParam : Option Int → List Token
  | some p => [openParen, numberToken p.toNat, closeParen]
  | none => []

/-- The property bits that are set. -/
def renderProps (prop : ℕ) : List Token :=
  (if prop.testBit 1 then [identToken (text "key")] else []) ++
    (if prop.testBit 0 then [identToken (text "nullable")] else []) ++
    (if prop.testBit 2 then [identToken (text "unique")] else [])

def Column.render (c : Column) : List Token :=
  wordToken c.typeName :: (renderParam c.param ++
    symbol .colon ":" :: identToken c.name :: renderProps c.prop)

/-- The rows of the parallel lists of a tuple type. -/
def columnsOf : List Text → List Text → List ℕ → List (Option Int) → List Column
  | x :: names, t :: typeNames, p :: props, q :: params =>
    ⟨t, q, x, p⟩ :: columnsOf names typeNames props params
  | _, _, _, _ => []

def NodeType.columns : NodeType → List Column
  | .tuple _ names typeNames props params _ => columnsOf names typeNames props params
  | _ => []

def NodeType.render (t : NodeType) : List Token :=
  openBrace :: (commaSeparated (t.columns.map Column.render) ++ [closeBrace])

def renderRowType (t : NodeType) : List Token :=
  symbol .openAngle "<" :: (t.render ++ [symbol .closeAngle ">"])

def renderExprStatement : Expression → List Token
  | .rowLiteral n es => parenthesised (Expression.rowLiteral n es).render
  | .pointerOf n t => parenthesised (Expression.pointerOf n t).render
  | e => e.render

def Ptr.renderExpr : Ptr Expression → List Token
  | .to e => e.render
  | _ => []

mutual

def Statement.render : Statement → List Token
  | .block ss => openBrace :: (renderAll ss ++ [closeBrace])
  | .transaction isolation ss =>
    symbol .transaction "transaction" :: wordToken isolation :: openBrace ::
      (renderAll ss ++ [closeBrace])
  | .define schema name =>
    symbol .define "define" :: ((schema.map renderRowType).getD [] ++ [identToken name])
  | .forStmt (.to init) cond every blk =>
    symbol .for "for" :: (init.render ++ semicolon :: (cond.renderExpr ++ semicolon ::
      (every.renderExpr ++ openBrace :: (renderAll blk ++ [closeBrace]))))
  | .forStmt _ cond every blk =>
    symbol .for "for" :: semicolon :: (cond.renderExpr ++ semicolon ::
      (every.renderExpr ++ openBrace :: (renderAll blk ++ [closeBrace])))
  | .jump .breakJump => [symbol .break "break"]
  | .jump .continueJump => [symbol .continue "continue"]
  | .emit _ e => symbol .emit "emit" :: e.render
  | .insert table e _ => symbol .insert "insert" :: identToken table :: e.render
  | .scan table rowName blk _ =>
    symbol .scan "scan" :: identToken table :: comma :: identToken rowName :: openBrace ::
      (renderAll blk ++ [closeBrace])
  | .letStmt name e type =>
    symbol .let "let" :: ((type.map renderRowType).getD [] ++
      identToken name :: symbol .equal "=" :: e.render)
  | .defineTuple name type => symbol .tuple "tuple" :: identToken name :: type.render
  | .ifStmt cond trueBlock none =>
    symbol .if "if" :: (cond.render ++ openBrace :: (renderAll trueBlock ++ [closeBrace]))
  | .ifStmt cond trueBlock (some falseBlock) =>
    symbol .if "if" :: (cond.render ++ openBrace :: (renderAll trueBlock ++ closeBrace ::
      symbol .else "else" :: openBrace :: (renderAll falseBlock ++ [closeBrace])))
  | .exprStatement _ e => renderExprStatement e

def renderAll : List Statement → List Token
  | [] => []
  | s :: ss => s.render ++ renderAll ss

end

def LiteralPrintable : MaybeValue → Prop
  | some (.int v) => v.toNat < 2^31
  | some (.varchar _) => True
  | _ => False

mutual

/-- The expression forms of the language, before any pass has annotated them. -/
def Expression.Printable : Expression → Prop
  | .primary n v => n = {} ∧ LiteralPrintable v
  | .binary n l op r => n = {} ∧ op ≠ .none ∧ l.Printable ∧ r.Printable
  | .pointerOf n t => n = {} ∧ t.Printable
  | .rowLiteral n es => n = {} ∧ AllPrintable es
  | .arrayLiteral n es => n = {} ∧ AllPrintable es
  | .variable n _ => n = {}
  | .functionCall n p as => n = {} ∧ p.Printable ∧ AllPrintable as
  | .arrayReference n (some p) i => n = {} ∧ (∃ x, p = .variable {} x) ∧ i.Printable
  | .arrayReference _ none _ => False
  | .memberReference n p _ offset => n = {} ∧ offset = none ∧ p.Printable
  | .assign n t v => n = {} ∧ t.Printable ∧ v.Printable

def AllPrintable : List Expression → Prop
  | [] => True
  | e :: es => e.Printable ∧ AllPrintable es

end

def Column.Printable (c : Column) : Prop :=
  c.prop < 8 ∧ ∀ p, c.param = some p → 0 ≤ p ∧ p < 2^31

/-- A tuple type with at least one column and no types resolved yet. -/
def NodeType.Printable (t : NodeType) : Prop :=
  t = tupleOfColumns t.columns ∧ t.columns ≠ [] ∧ ∀ c ∈ t.columns, c.Printable

/-- The rendering ends in an expression. -/
def Statement.endsInExpression : Statement → Bool
  | .letStmt .. => true
  | .emit .. => true
  | .insert .. => true
  | .exprStatement .. => true
  | _ => false

/-- The tokens start with an opening parenthesis or bracket. -/
def startsOpen : List Token → Bool
  | [] => false
  | t :: _ => t.type = .openParen ∨ t.type = .openBracket

/-- No statement that starts with `(` or `[` directly follows one that ends in an expression. -/
def Separated : List Statement → Prop
  | [] => True
  | [_] => True
  | s :: s' :: ss => ¬(s.endsInExpression = true ∧ startsOpen s'.render = true) ∧
      Separated (s' :: ss)

def Expression.isRowLiteral : Expression → Bool
  | .rowLiteral .. => true
  | _ => false

mutual

/-- The statement forms of the language, before any pass has annotated them. -/
def Statement.Printable : Statement → Prop
  | .block ss => StatementsPrintable ss ∧ Separated ss
  | .transaction _ ss => StatementsPrintable ss ∧ Separated ss
  | .define schema _ => ∃ t, schema = some t ∧ t.Printable
  | .forStmt (.to init) cond every blk => init.Printable ∧
      (∃ c, cond = .to c ∧ c.Printable) ∧ (∃ e, every = .to e ∧ e.Printable) ∧
      StatementsPrintable blk ∧ Separated blk
  | .forStmt _ _ _ _ => False
  | .jump _ => True
  | .emit stack e => stack = none ∧ e.Printable
  | .insert _ e frame => frame = {} ∧ e.isRowLiteral = true ∧ e.Printable
  | .scan _ _ blk frame => frame = {} ∧ StatementsPrintable blk ∧ Separated blk
  | .letStmt _ e type => e.Printable ∧ ∀ t, type = some t → t.Printable
  | .defineTuple _ type => type.Printable
  | .ifStmt cond trueBlock none =>
    cond.Printable ∧ StatementsPrintable trueBlock ∧ Separated trueBlock
  | .ifStmt cond trueBlock (some falseBlock) =>
    cond.Printable ∧ StatementsPrintable trueBlock ∧ Separated trueBlock ∧
      StatementsPrintable falseBlock ∧ Separated falseBlock
  | .exprStatement stack e => stack = none ∧ e.Printable

def StatementsPrintable : List Statement → Prop
  | [] => True
  | s :: ss => s.Printable ∧ StatementsPrintable ss

end

/-- A program: its statements can be written, and in this order. -/
structure Program where
  statements : List Statement
  printable : StatementsPrintable statements
  separated : Separated statements

end Reir
