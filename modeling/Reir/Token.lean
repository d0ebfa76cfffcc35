import Mathlib

/-! Tokens of the intermediate representation: token types, the tables of reserved
words, symbols and compound operators, and the reading of number tokens. Text is the
byte string a `std::string` holds, so a name may contain any byte. -/
namespace Reir

abbrev Text := List UInt8

instance : LawfulBEq Text := inferInstance

/-- The bytes of a source literal. -/
def text (s : String) : Text := s.toList.map fun c => UInt8.ofNat c.toNat

inductive TokenType
  | identifier | stringLiteral | reserved | number | float
  | openBrace | closeBrace | openParen | closeParen | openBracket | closeBracket
  | openAngle | closeAngle | comma | asterisk | slash | plus | minus | colon | semicolon
  | period | equal | and | percent
  | equalEqual | exclamationMarkEqual | openAngleEqual | closeAngleEqual
  | plusEqual | minusEqual | asteriskEqual | slashEqual | percentEqual | andAnd | orOr
  | reservedSplitter
  | type | int | define | let | transaction | serializable | if | else | for | emit
  | insert | scan | break | continue | tuple
  | invalid
  deriving DecidableEq, Repr

structure Token where
  type : TokenType
  text : Text
  row : Int
  col : Int
  deriving DecidableEq, Repr

/-- The entries of `strs` between `reserved_splitter` and `INVALID`. -/
def reservedWords : List (Text × TokenType) :=
  [(text "TYPE", .type), (text "INT", .int), (text "DEFINE", .define), (text "LET", .let),
    (text "TRANSACTION", .transaction), (text "SERIALIZABLE", .serializable),
    (text "IF", .if), (text "ELSE", .else), (text "FOR", .for), (text "EMIT", .emit),
    (text "INSERT", .insert), (text "SCAN", .scan), (text "BREAK", .break),
    (text "CONTINUE", .continue), (text "TUPLE", .tuple)]

/-- Clearing bit five of every byte, letter or not. -/
def capitalize (w : Text) : Text := w.map fun b => b &&& 0xDF

def asReserved (word : Text) : TokenType :=
  match reservedWords.find? fun r => r.1 == capitalize word with
  | some r => r.2
  | none => .invalid

def inReservedWord (word : Text) : Bool :=
  reservedWords.any fun r => r.1 == capitalize word

def symbols : Text := text "\x7b\x7d()[],:;"
def numbers : Text := text "1234567890"
def operatorTokens : Text := text "+-*/%=!<>.&|"
def delimiters : Text := text "\n \t"

def symbolTable : List (UInt8 × TokenType) :=
  [(123, .openBrace), (125, .closeBrace), (40, .openParen), (41, .closeParen),
    (91, .openBracket), (93, .closeBracket), (60, .openAngle), (62, .closeAngle),
    (44, .comma), (42, .asterisk), (47, .slash), (43, .plus), (45, .minus), (58, .colon),
    (59, .semicolon), (46, .period), (61, .equal), (38, .and), (37, .percent)]

/-- The switch of `symbol_token`; `none` is its `abort()`. -/
def symbolToken (c : UInt8) : Option TokenType :=
  (symbolTable.find? fun r => r.1 == c).map Prod.snd

def operatorTokenList : List (Text × TokenType) :=
  [(text "==", .equalEqual), (text "!=", .exclamationMarkEqual), (text "<=", .openAngleEqual),
    (text ">=", .closeAngleEqual), (text "+=", .plusEqual), (text "-=", .minusEqual),
    (text "*=", .asteriskEqual), (text "/=", .slashEqual), (text "%=", .percentEqual),
    (text "&&", .andAnd), (text "||", .orOr)]

def operatorToken (image : Text) : Option TokenType :=
  match image with
  | [c] => symbolToken c
  | _ =>
    match operatorTokenList.find? fun r => r.1 == image with
    | some r => some r.2
    | none => some .invalid

/-- What `std::stoi` throws. -/
inductive StoiError
  | invalidArgument
  | outOfRange
  deriving DecidableEq, Repr

def isSpace (b : UInt8) : Bool := b = 32 ∨ (9 ≤ b ∧ b ≤ 13)

def isDigit (b : UInt8) : Bool := 48 ≤ b ∧ b ≤ 57

def digitsValue (ds : Text) : ℕ := ds.foldl (fun n b => 10*n + (b.toNat - 48)) 0

/-- An optional sign in front of the digits; `true` is a minus. -/
def readSign : Text → Bool × Text
  | [] => (false, [])
  | b :: rest => if b = 45 then (true, rest) else if b = 43 then (false, rest) else (false, b :: rest)

/-- `std::stoi` and `std::stoll` in base ten for an integer of `bits + 1` bits: leading white
space, an optional sign, then the longest run of digits. What follows the digits is ignored. -/
def stoInt (bits : ℕ) (t : Text) : Except StoiError Int :=
  let body := readSign (t.dropWhile isSpace)
  let ds := body.2.takeWhile isDigit
  let n : Int := if body.1 then -(digitsValue ds : Int) else digitsValue ds
  if ds = [] then .error .invalidArgument
  else if n < -2^bits ∨ 2^bits ≤ n then .error .outOfRange
  else .ok n

def stoi (t : Text) : Except StoiError Int := stoInt 31 t

def stoll (t : Text) : Except StoiError Int := stoInt 63 t

theorem isDigit_iff (b : UInt8) : isDigit b = true ↔ 48 ≤ b.toNat ∧ b.toNat ≤ 57 := by
  simp [isDigit, UInt8.le_iff_toNat_le]

theorem isSpace_of_isDigit {b : UInt8} (h : isDigit b = true) : isSpace b = false := by
  have hb := (isDigit_iff b).mp h
  have h32 : b ≠ 32 := by
    rintro rfl
    simp at hb
  have h13 : ¬ b ≤ 13 := by
    simp only [UInt8.le_iff_toNat_le, UInt8.reduceToNat]
    omega
  simp [isSpace, h32, h13]

theorem readSign_digits {d : UInt8} (h : isDigit d = true) (rest : Text) :
    readSign (d :: rest) = (false, d :: rest) := by
  have h45 : d ≠ 45 := by rintro rfl; revert h; decide
  have h43 : d ≠ 43 := by rintro rfl; revert h; decide
  simp [readSign, h45, h43]

/-- A non-empty run of digits is read as the number it denotes, up to the largest integer. -/
theorem stoInt_digits (bits : ℕ) {ds : Text} (hne : ds ≠ []) (hd : ∀ b ∈ ds, isDigit b = true) :
    stoInt bits ds = if digitsValue ds < 2^bits then .ok (digitsValue ds : Int)
      else .error .outOfRange := by
  obtain ⟨d, rest, rfl⟩ := List.exists_cons_of_ne_nil hne
  have hdd := hd d (by simp)
  have htake : (d :: rest).takeWhile isDigit = d :: rest := by
    rw [List.takeWhile_eq_self_iff]
    exact hd
  have hdrop : (d :: rest).dropWhile isSpace = d :: rest := by
    simp [isSpace_of_isDigit hdd]
  simp only [stoInt, hdrop, readSign_digits hdd, htake]
  generalize digitsValue (d :: rest) = n
  have hcast : ((2^bits : ℕ) : Int) = 2^bits := by push_cast; rfl
  have hpos : (0 : Int) ≤ 2^bits := by positivity
  by_cases hlt : n < 2^bits
  · have h1 : ¬ ((n : Int) < -2^bits ∨ (2 : Int)^bits ≤ n) := by omega
    rw [if_neg (List.cons_ne_nil d rest), if_neg (by simpa using h1), if_pos hlt]
    rfl
  · have h1 : (n : Int) < -2^bits ∨ (2 : Int)^bits ≤ n := by omega
    rw [if_neg (List.cons_ne_nil d rest), if_pos (by simpa using h1), if_neg hlt]

/-- Leading white space does not matter. -/
theorem stoInt_space (bits : ℕ) {b : UInt8} (h : isSpace b = true) (t : Text) :
    stoInt bits (b :: t) = stoInt bits t := by
  simp [stoInt, h]

/-- Decimal digits without leading zeros. -/
def decimal (n : ℕ) : Text :=
  if n = 0 then [48] else (Nat.digits 10 n).reverse.map fun d => UInt8.ofNat (48+d)

theorem decimal_ne_nil (n : ℕ) : decimal n ≠ [] := by
  unfold decimal
  split_ifs with h
  · simp
  · simp [Nat.digits_ne_nil_iff_ne_zero, h]

theorem digit_toNat {d : ℕ} (h : d < 10) : (UInt8.ofNat (48+d)).toNat = 48+d := by
  rw [UInt8.toNat_ofNat']
  omega

theorem decimal_isDigit (n : ℕ) : ∀ b ∈ decimal n, isDigit b = true := by
  intro b hb
  unfold decimal at hb
  split_ifs at hb
  · simp only [List.mem_singleton] at hb
    subst hb
    decide
  · simp only [List.mem_map, List.mem_reverse] at hb
    obtain ⟨d, hd, rfl⟩ := hb
    have hlt := Nat.digits_lt_base (by norm_num) hd
    rw [isDigit_iff, digit_toNat hlt]
    omega

theorem digitsValue_decimal (n : ℕ) : digitsValue (decimal n) = n := by
  unfold decimal
  split_ifs with h
  · subst h
    rfl
  · have hvalue : ∀ ds : List ℕ, (∀ d ∈ ds, d < 10) →
        digitsValue (ds.reverse.map fun d => UInt8.ofNat (48+d)) = Nat.ofDigits 10 ds := by
      intro ds hds
      induction ds with
      | nil => rfl
      | cons d ds ih =>
        have hd : d < 10 := hds d (by simp)
        have ih := ih fun x hx => hds x (List.mem_cons_of_mem d hx)
        rw [digitsValue] at ih ⊢
        rw [List.reverse_cons, List.map_append, List.foldl_append, ih, Nat.ofDigits_cons]
        simp only [List.map_cons, List.map_nil, List.foldl_cons, List.foldl_nil, digit_toNat hd]
        simp
        omega
    rw [hvalue _ fun d hd => Nat.digits_lt_base (by norm_num) hd, Nat.ofDigits_digits]

theorem stoInt_decimal {bits n : ℕ} (h : n < 2^bits) : stoInt bits (decimal n) = .ok (n : Int) := by
  rw [stoInt_digits bits (decimal_ne_nil n) (decimal_isDigit n), digitsValue_decimal, if_pos h]

end Reir
