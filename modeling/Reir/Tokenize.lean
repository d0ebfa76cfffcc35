import Reir.Token

/-! The lexer: a five-state machine over the source bytes with a start offset, a length
and a position, and a final flush. -/
namespace Reir

inductive LexerState
  | init | name | number | string | operator
  deriving DecidableEq, Repr

/-- The two exceptions of `tokenize`, and its `abort()` calls. -/
inductive LexError
  | identifierInNumber (c : UInt8) (word : Text)
  | eofInString
  | abort
  deriving DecidableEq, Repr

structure Lexer where
  ret : List Token
  start : ℕ
  len : ℕ
  row : Int
  col : Int
  state : LexerState
  deriving DecidableEq, Repr

def slice (code : Text) (start len : ℕ) : Text := (code.drop start).take len

/-- The overload for words. An identifier's column is written to the field `row`. -/
def nameToken (word : Text) (row col : Int) : Token :=
  if inReservedWord word then ⟨asReserved word, word, row, 0⟩ else ⟨.identifier, word, col, 0⟩

def addOperator (word : Text) (row col : Int) : Except LexError Token :=
  match operatorToken word with
  | some kind => .ok ⟨kind, word, row, col⟩
  | none => .error .abort

/-- Flush the pending word according to the state it was gathered in. -/
def addToken (code : Text) (s : Lexer) : Except LexError Lexer := do
  let word := slice code s.start s.len
  let token ←
    match s.state with
    | .name => .ok (nameToken word s.row s.col)
    | .number => .ok ⟨.number, word, s.row, s.col⟩
    | .operator => addOperator word s.row s.col
    | _ => .error .abort
  pure { s with ret := s.ret ++ [token] }

def flush (code : Text) (s : Lexer) : Except LexError Lexer :=
  if s.state = .init then .ok s else addToken code s

def Lexer.reset (s : Lexer) (state : LexerState) (i : ℕ) : Lexer :=
  { s with state := state, start := i, len := 0 }

def stepString (code : Text) (s : Lexer) (i : ℕ) (c : UInt8) : Lexer :=
  if c = 34 then
    let token : Token := ⟨.stringLiteral, slice code (s.start+1) (s.len-1), s.row, s.col⟩
    { s with ret := s.ret ++ [token], state := .init, start := i, len := 0, col := s.col+1 }
  else { s with len := s.len+1, col := s.col+1 }

def stepDelimiter (code : Text) (s : Lexer) (i : ℕ) (c : UInt8) : Except LexError Lexer := do
  let s ← flush code s
  let s := s.reset .init i
  pure (if c = 10 then { s with row := s.row+1, col := -1 } else s)

def stepSymbol (code : Text) (s : Lexer) (i : ℕ) (c : UInt8) : Except LexError Lexer := do
  let s ← flush code s
  match symbolToken c with
  | some kind =>
    let token : Token := ⟨kind, slice code i 1, s.row, s.col⟩
    pure ({ s with ret := s.ret ++ [token] }.reset .init i)
  | none => .error .abort

def stepOperator (code : Text) (s : Lexer) (i : ℕ) : Except LexError Lexer := do
  let s ←
    match s.state with
    | .init => pure (s.reset .operator i)
    | .name | .number => do
      let s ← addToken code s
      pure (s.reset .operator i)
    | .operator => pure s
    | .string => .error .abort
  pure { s with len := s.len+1 }

def stepNumber (code : Text) (s : Lexer) (i : ℕ) : Except LexError Lexer := do
  let s ←
    match s.state with
    | .init => pure (s.reset .number i)
    | .name | .number => pure s
    | .operator => do
      let s ← addToken code s
      pure (s.reset .number i)
    | .string => .error .abort
  pure { s with len := s.len+1 }

def stepName (code : Text) (s : Lexer) (i : ℕ) (c : UInt8) : Except LexError Lexer := do
  let s ←
    match s.state with
    | .init => pure (s.reset .name i)
    | .name => pure s
    | .number => .error (.identifierInNumber c (slice code s.start s.len))
    | .operator => do
      let s ← addToken code s
      pure (s.reset .name i)
    | .string => .error .abort
  pure { s with len := s.len+1, col := s.col+1 }

/-- The body of the loop over the source bytes. -/
def lexStep (code : Text) (s : Lexer) (i : ℕ) (c : UInt8) : Except LexError Lexer :=
  if s.state = .string then .ok (stepString code s i c)
  else if c = 34 then do
    let s ← flush code s
    pure { s with state := .string, start := i, len := 1 }
  else if c ∈ delimiters then stepDelimiter code s i c
  else if c ∈ symbols then stepSymbol code s i c
  else if c ∈ operatorTokens then stepOperator code s i
  else if c ∈ numbers then stepNumber code s i
  else stepName code s i c

def lexLoop (code : Text) : Lexer → ℕ → Text → Except LexError Lexer
  | s, _, [] => .ok s
  | s, i, c :: cs => do
    let s ← lexStep code s i c
    lexLoop code s (i+1) cs

/-- The flush after the last byte. -/
def lexFinish (code : Text) (s : Lexer) : Except LexError (List Token) :=
  match s.state with
  | .init => .ok s.ret
  | .string => .error .eofInString
  | _ => do
    let s ← addToken code s
    pure s.ret

def tokenize (code : Text) : Except LexError (List Token) := do
  let s ← lexLoop code ⟨[], 0, 0, 1, 0, .init⟩ 0 code
  lexFinish code s

theorem bind_eq_ok_iff {ε α β : Type} {x : Except ε α} {f : α → Except ε β} {b : β} :
    (x >>= f) = .ok b ↔ ∃ a, x = .ok a ∧ f a = .ok b := by
  cases x with
  | error e => simp [bind, Except.bind]
  | ok a => simp [bind, Except.bind]

example : (tokenize (text "let x=1\x7d")).map (List.map fun t => (t.type, t.text)) =
    .ok [(.let, text "let"), (.identifier, text "x"), (.equal, text "="), (.number, text "1"),
      (.closeBrace, text "\x7d")] := by rfl

end Reir
