import Reir.StreamParser
import Reir.SyntaxTree
import Reir.Tokenize

/-! The recursive-descent parser. Every node constructor that takes the token stream is a
function of its own. The fuel bounds the depth of the recursion only; nothing else in the
functions depends on it. -/
namespace Reir
open StreamParser

/-- The exceptions the parser throws. -/
inductive ParseError
  | eof
  | unexpectedToken (token : Token) (desired : TokenType)
  | unknownExpr (text : Text)
  | unparsable (kind : TokenType)
  | unknownProperty (text : Text)
  | unknownType (text : Text)
  | invalidDefineTuple
  | stoi (error : StoiError)
  | lex (error : LexError)
  deriving DecidableEq, Repr

abbrev ParserM := StreamParser.Parser Token ParseError

def getToken : ParserM Token := get .eof

/-- `expect_token` on a token already read. -/
def expectToken (token : Token) (kind : TokenType) : ParserM Unit :=
  if token.type = kind then pure () else Parser.throw (.unexpectedToken token kind)

/-- `expect_token(tokens.get(), kind)`. -/
def expect (kind : TokenType) : ParserM Unit := do
  let token ← getToken
  expectToken token kind

/-- A checked token that is then consumed. -/
def skip (kind : TokenType) : ParserM Unit := do
  expect kind
  next

/-- The text of the current token, which is then consumed whatever its type. -/
def takeText : ParserM Text := do
  let token ← getToken
  next
  pure token.text

/-- The text of an identifier, which is then consumed. -/
def takeIdentifier : ParserM Text := do
  expect .identifier
  takeText

def readNumber (t : Text) : ParserM Int :=
  match stoi t with
  | .ok n => pure n
  | .error e => Parser.throw (.stoi e)

/-- The inner switch of `parse_expr_postfix`. -/
def binaryOperator : TokenType → Option Operators
  | .plus => some .plus
  | .minus => some .minus
  | .asterisk => some .multiple
  | .slash => some .division
  | .percent => some .modulo
  | .openAngle => some .lessthan
  | .closeAngle => some .morethan
  | .equalEqual => some .equal
  | .exclamationMarkEqual => some .notequal
  | .openAngleEqual => some .lessequal
  | .closeAngleEqual => some .moreequal
  | .andAnd => some .conditionalAnd
  | .orOr => some .conditionalOr
  | _ => none

def primaryExpression : ParserM Expression := do
  let token ← getToken
  match token.type with
  | .number => do
    let n ← readNumber token.text
    next
    pure (.primary {} (some (.int (BitVec.ofInt 64 n))))
  | .stringLiteral => do
    next
    pure (.primary {} (some (.varchar token.text)))
  | _ => Parser.throw (.unknownExpr token.text)

def variableReference : ParserM Expression := do
  let name ← takeIdentifier
  pure (.variable {} name)

def memberReference (value : Expression) : ParserM Expression := do
  skip .period
  let name ← takeText
  pure (.memberReference {} value name none)

/-- The switch of `parse_expr` on the first token, with the recursive constructors as
parameters. -/
def parseOperand (expr row array : ParserM Expression) (token : Token) : ParserM Expression :=
  match token.type with
  | .and => do
    next
    let target ← expr
    pure (.pointerOf {} target)
  | .openBrace => row
  | .openParen => do
    next
    let inner ← expr
    skip .closeParen
    pure inner
  | .openBracket => array
  | .identifier => variableReference
  | .stringLiteral => primaryExpression
  | .number => primaryExpression
  | _ => Parser.throw (.unknownExpr token.text)

mutual

def parseExpr : ℕ → ParserM Expression
  | 0 => Parser.timeout
  | n+1 => do
    let token ← getToken
    let ret ← parseOperand (parseExpr n) (rowLiteral n) (arrayLiteral n) token
    let more ← hasNext
    if more then parseExprPostfix n ret else pure ret

def parseExprPostfix : ℕ → Expression → ParserM Expression
  | 0, _ => Parser.timeout
  | n+1, ret => do
    let more ← hasNext
    if more then do
      let token ← getToken
      match token.type with
      | .openParen => do
        let call ← functionCall n ret
        parseExprPostfix n call
      | .openBracket => do
        let ref ← arrayReference n ret.asVariable
        parseExprPostfix n ref
      | .period => do
        let ref ← memberReference ret
        parseExprPostfix n ref
      | .equal => do
        let asg ← assign n ret
        parseExprPostfix n asg
      | kind =>
        match binaryOperator kind with
        | some op => do
          next
          let rhs ← parseExpr n
          pure (.binary {} ret op rhs)
        | none => pure ret
    else pure ret

/-- The loop shared by call arguments, row literals and array literals. A comma before
the closing token is accepted. -/
def parseElements : ℕ → TokenType → ParserM (List Expression)
  | 0, _ => Parser.timeout
  | n+1, close => do
    let token ← getToken
    if token.type = close then pure []
    else do
      let element ← parseExpr n
      let token ← getToken
      if token.type = close then pure [element]
      else do
        expectToken token .comma
        next
        let rest ← parseElements n close
        pure (element :: rest)

def functionCall : ℕ → Expression → ParserM Expression
  | 0, _ => Parser.timeout
  | n+1, parent => do
    skip .openParen
    let args ← parseElements n .closeParen
    skip .closeParen
    pure (.functionCall {} parent args)

def rowLiteral : ℕ → ParserM Expression
  | 0 => Parser.timeout
  | n+1 => do
    skip .openBrace
    let elements ← parseElements n .closeBrace
    skip .closeBrace
    pure (.rowLiteral {} elements)

def arrayLiteral : ℕ → ParserM Expression
  | 0 => Parser.timeout
  | n+1 => do
    skip .openBracket
    let elements ← parseElements n .closeBracket
    skip .closeBracket
    pure (.arrayLiteral {} elements)

def arrayReference : ℕ → Option Expression → ParserM Expression
  | 0, _ => Parser.timeout
  | n+1, parent => do
    skip .openBracket
    let idx ← parseExpr n
    skip .closeBracket
    pure (.arrayReference {} parent idx)

def assign : ℕ → Expression → ParserM Expression
  | 0, _ => Parser.timeout
  | n+1, target => do
    skip .equal
    let value ← parseExpr n
    pure (.assign {} target value)

end

/-- `AttrProperty` bits. -/
def propNullable : ℕ := 1
def propKey : ℕ := 2
def propUnique : ℕ := 4

def propertyOf (t : Text) : Option ℕ :=
  if t = text "key" then some propKey
  else if t = text "nullable" then some propNullable
  else if t = text "unique" then some propUnique
  else none

def parseProps : ℕ → ℕ → ParserM ℕ
  | 0, _ => Parser.timeout
  | n+1, prop => do
    let token ← getToken
    if token.type = .identifier then
      match propertyOf token.text with
      | some p => do
        next
        parseProps n (prop ||| p)
      | none => Parser.throw (.unknownProperty token.text)
    else pure prop

structure Column where
  typeName : Text
  param : Option Int
  name : Text
  prop : ℕ
  deriving DecidableEq, Repr

def parseParam : ParserM (Option Int) := do
  let token ← getToken
  if token.type = .openParen then do
    next
    expect .number
    let token ← getToken
    let n ← readNumber token.text
    next
    skip .closeParen
    pure (some n)
  else pure none

/-- One round of the column loop, up to the properties. -/
def parseColumn (n : ℕ) : ParserM Column := do
  let typeName ← takeText
  let param ← parseParam
  skip .colon
  let name ← takeIdentifier
  let prop ← parseProps n 0
  pure ⟨typeName, param, name, prop⟩

def parseColumns : ℕ → ParserM (List Column)
  | 0 => Parser.timeout
  | n+1 => do
    let column ← parseColumn n
    let token ← getToken
    if token.type = .comma then do
      skip .comma
      let rest ← parseColumns n
      pure (column :: rest)
    else pure [column]

/-- The parallel lists a tuple type is built from; `types_` is filled by `analyze`. -/
def tupleOfColumns (columns : List Column) : NodeType :=
  .tuple .tuple (columns.map Column.name) (columns.map Column.typeName)
    (columns.map Column.prop) (columns.map Column.param) []

def tupleType (n : ℕ) : ParserM NodeType := do
  skip .openBrace
  let columns ← parseColumns n
  skip .closeBrace
  pure (tupleOfColumns columns)

def typeParse (t : Text) : Option TypeId :=
  if t = text "int" then some .integer
  else if t = text "double" then some .double
  else if t = text "bool" then some .bool
  else if t = text "string" then some .string
  else if t = text "date" then some .date
  else none

def primaryType : ParserM NodeType := do
  expect .int
  let token ← getToken
  match typeParse token.text with
  | some id => do
    next
    pure (.primary id)
  | none => Parser.throw (.unknownType token.text)

def parseType : ℕ → ParserM NodeType
  | 0 => Parser.timeout
  | n+1 => do
    let token ← getToken
    match token.type with
    | .openBracket => do
      skip .openBracket
      let inner ← parseType n
      skip .closeBracket
      pure (.array inner.id)
    | .openBrace => tupleType n
    | _ => primaryType

def parseRowType (n : ℕ) : ParserM NodeType := do
  skip .openAngle
  let t ← parseType n
  skip .closeAngle
  pure t

def defaultIsolation : Text := text "SERIALIZABLE"

def parseIsolation : ParserM Text := do
  let token ← getToken
  if token.type = .openBrace then pure defaultIsolation else takeText

/-- The declared row type of a `let`, which may be absent. -/
def parseDeclaredType (n : ℕ) : ParserM (Option NodeType) := do
  let token ← getToken
  if token.type = .openAngle then some <$> parseRowType n else pure none

def parseLet (n : ℕ) : ParserM Statement := do
  skip .let
  let type ← parseDeclaredType n
  let name ← takeIdentifier
  skip .equal
  let expr ← parseExpr n
  pure (.letStmt name expr type)

def parseDefineTuple (n : ℕ) : ParserM Statement := do
  skip .tuple
  let name ← takeIdentifier
  let type ← parseType n
  if type.isTuple then pure (.defineTuple name type) else Parser.throw .invalidDefineTuple

def parseDefine (n : ℕ) : ParserM Statement := do
  skip .define
  let type ← parseRowType n
  let name ← takeIdentifier
  pure (.define (if type.isTuple then some type else none) name)

def parseEmit (n : ℕ) : ParserM Statement := do
  skip .emit
  let value ← parseExpr n
  pure (.emit none value)

def parseInsert (n : ℕ) : ParserM Statement := do
  skip .insert
  let table ← takeIdentifier
  expect .openBrace
  let value ← parseExpr n
  pure (.insert table value {})

def parseExprStatement (n : ℕ) : ParserM Statement := do
  let value ← parseExpr n
  pure (.exprStatement none value)

/-- One part of a `for` header: absent when the next token is a semicolon, and the member
is then left without a value. -/
def parseHeaderPart {α : Type} (p : ParserM α) : ParserM (Ptr α) := do
  let token ← getToken
  if token.type = .semicolon then pure .uninit else Ptr.to <$> p

/-- A part that is itself a statement pointer: `parse_statement` may return null. -/
def parseInitPart (p : ParserM (Option Statement)) : ParserM (Ptr Statement) := do
  let token ← getToken
  if token.type = .semicolon then pure .uninit
  else do
    let s ← p
    match s with
    | some s => pure (.to s)
    | none => pure .null

mutual

/-- `none` is the null pointer, returned at a closing brace without consuming it. -/
def parseStatement : ℕ → ParserM (Option Statement)
  | 0 => Parser.timeout
  | n+1 => do
    let token ← getToken
    match token.type with
    | .closeBrace => pure none
    | .openBrace => do
      let blk ← parseBlock n
      pure (some (.block blk))
    | .transaction => some <$> parseTransaction n
    | .let => some <$> parseLet n
    | .if => some <$> parseIf n
    | .for => some <$> parseFor n
    | .define => some <$> parseDefine n
    | .emit => some <$> parseEmit n
    | .insert => some <$> parseInsert n
    | .scan => some <$> parseScan n
    | .break => do
      next
      pure (some (.jump .breakJump))
    | .continue => do
      next
      pure (some (.jump .continueJump))
    | .openBracket => some <$> parseExprStatement n
    | .openParen => some <$> parseExprStatement n
    | .number => some <$> parseExprStatement n
    | .stringLiteral => some <$> parseExprStatement n
    | .identifier => some <$> parseExprStatement n
    | .tuple => some <$> parseDefineTuple n
    | kind => Parser.throw (.unparsable kind)

/-- The statements up to the closing brace. -/
def parseItems : ℕ → ParserM (List Statement)
  | 0 => Parser.timeout
  | n+1 => do
    let token ← getToken
    if token.type = .closeBrace then pure []
    else do
      let stmt ← parseStatement n
      let rest ← parseItems n
      pure (stmt.toList ++ rest)

def parseBlock : ℕ → ParserM (List Statement)
  | 0 => Parser.timeout
  | n+1 => do
    skip .openBrace
    let items ← parseItems n
    skip .closeBrace
    pure items

def parseTransaction : ℕ → ParserM Statement
  | 0 => Parser.timeout
  | n+1 => do
    skip .transaction
    let isolation ← parseIsolation
    expect .openBrace
    let sequence ← parseBlock n
    pure (.transaction isolation sequence)

def parseIf : ℕ → ParserM Statement
  | 0 => Parser.timeout
  | n+1 => do
    skip .if
    let cond ← parseExpr n
    expect .openBrace
    let trueBlock ← parseBlock n
    let more ← hasNext
    if more then do
      let token ← getToken
      if token.type = .else then do
        next
        expect .openBrace
        let falseBlock ← parseBlock n
        pure (.ifStmt cond trueBlock (some falseBlock))
      else pure (.ifStmt cond trueBlock none)
    else pure (.ifStmt cond trueBlock none)

def parseFor : ℕ → ParserM Statement
  | 0 => Parser.timeout
  | n+1 => do
    skip .for
    let init ← parseInitPart (parseStatement n)
    skip .semicolon
    let cond ← parseHeaderPart (parseExpr n)
    skip .semicolon
    let every ← parseHeaderPart (parseExpr n)
    expect .openBrace
    let blk ← parseBlock n
    pure (.forStmt init cond every blk)

def parseScan : ℕ → ParserM Statement
  | 0 => Parser.timeout
  | n+1 => do
    skip .scan
    let table ← takeIdentifier
    skip .comma
    let rowName ← takeText
    expect .openBrace
    let blk ← parseBlock n
    pure (.scan table rowName blk {})

end

/-- The loop of `parse`. A null statement is not added and nothing else is done about it. -/
def parseLoop : ℕ → ParserM (List Statement)
  | 0 => Parser.timeout
  | n+1 => do
    let more ← hasNext
    if more then do
      let entry ← parseStatement n
      let rest ← parseLoop n
      pure (entry.toList ++ rest)
    else pure []

/-- `parse` up to its callback, which receives the global block. -/
def parse (n : ℕ) (code : Text) : Outcome Token ParseError (List Statement) :=
  match tokenize code with
  | .ok tokens => (parseLoop n).run tokens
  | .error e => .fail (.lex e)

end Reir
