import Reir.Tokenize

/-! Tokenizing what was written from tokens. From the initial state the lexer reads the text of a
token up to a state that the next white space, or the end of the source, completes. -/
namespace Reir

inductive CharClass
  | quote | delimiter | symbol | operator | number | name
  deriving DecidableEq, Repr

/-- The branch of the loop that a character takes outside of strings. -/
def charClass (c : UInt8) : CharClass :=
  if c = 34 then .quote
  else if c ∈ delimiters then .delimiter
  else if c ∈ symbols then .symbol
  else if c ∈ operatorTokens then .operator
  else if c ∈ numbers then .number
  else .name

/-- The state that a character leads to from the initial one. -/
def CharClass.starts : CharClass → Option LexerState
  | .operator => some .operator
  | .number => some .number
  | .name => some .name
  | _ => none

/-- The characters that a word of the given state goes on with. -/
def CharClass.continues : LexerState → CharClass → Bool
  | .name, .name => true
  | .name, .number => true
  | .number, .number => true
  | .operator, .operator => true
  | _, _ => false

theorem lexStep_class {code : Text} {s : Lexer} (hs : s.state ≠ .string) (i : ℕ) (c : UInt8) :
    lexStep code s i c = match charClass c with
      | .quote => do
        let s ← flush code s
        pure { s with state := .string, start := i, len := 1 }
      | .delimiter => stepDelimiter code s i c
      | .symbol => stepSymbol code s i c
      | .operator => stepOperator code s i
      | .number => stepNumber code s i
      | .name => stepName code s i c := by
  unfold lexStep charClass
  rw [if_neg hs]
  split_ifs <;> rfl

/-- The letters of a word, which are what the column counts outside of strings. -/
def letters (w : Text) : ℕ := w.countP fun c => charClass c = .name

@[simp] theorem letters_nil : letters [] = 0 := rfl

theorem letters_cons (c : UInt8) (w : Text) : letters (c :: w) = letters [c]+letters w := by
  rw [letters, letters, letters, ← List.countP_append, List.singleton_append]

theorem lexStep_start (code : Text) {s : Lexer} (i : ℕ) {c : UInt8} {state : LexerState}
    (hs : s.state = .init) (h : (charClass c).starts = some state) :
    lexStep code s i c =
      .ok { s with state := state, start := i, len := 1, col := s.col+letters [c] } := by
  rw [lexStep_class (by simp [hs])]
  cases hc : charClass c with
  | operator =>
    simp only [hc, CharClass.starts, Option.some.injEq] at h
    simp [stepOperator, hs, Lexer.reset, ← h, letters, hc, pure, Except.pure, bind, Except.bind]
  | number =>
    simp only [hc, CharClass.starts, Option.some.injEq] at h
    simp [stepNumber, hs, Lexer.reset, ← h, letters, hc, pure, Except.pure, bind, Except.bind]
  | name =>
    simp only [hc, CharClass.starts, Option.some.injEq] at h
    simp [stepName, hs, Lexer.reset, ← h, letters, hc, pure, Except.pure, bind, Except.bind]
  | _ => simp [hc, CharClass.starts] at h

theorem lexStep_continue (code : Text) {s : Lexer} (i : ℕ) {c : UInt8}
    (h : (charClass c).continues s.state = true) :
    lexStep code s i c = .ok { s with len := s.len+1, col := s.col+letters [c] } := by
  have hs : s.state ≠ .string := by
    intro hs
    rw [hs] at h
    cases hc : charClass c <;> simp [CharClass.continues] at h
  rw [lexStep_class hs]
  cases hst : s.state <;> cases hc : charClass c <;>
    simp only [hst, hc, CharClass.continues, Bool.false_eq_true] at h
  · simp [stepNumber, hst, letters, hc, pure, Except.pure, bind, Except.bind]
  · simp [stepName, hst, letters, hc, pure, Except.pure, bind, Except.bind]
  · simp [stepNumber, hst, letters, hc, pure, Except.pure, bind, Except.bind]
  · simp [stepOperator, hst, letters, hc, pure, Except.pure, bind, Except.bind]

theorem lexLoop_append (code : Text) (s : Lexer) (i : ℕ) (xs ys : Text) :
    lexLoop code s i (xs ++ ys) = lexLoop code s i xs >>= fun s' =>
      lexLoop code s' (i+xs.length) ys := by
  induction xs generalizing s i with
  | nil => rfl
  | cons c xs ih =>
    have hindex : i+(c :: xs).length = i+1+xs.length := by
      rw [List.length_cons]
      omega
    rw [List.cons_append, lexLoop, lexLoop, hindex]
    cases lexStep code s i c with
    | error e => rfl
    | ok s' => exact ih s' (i+1)

theorem lexLoop_word_rest (code : Text) {s : Lexer} (i : ℕ) {cs : Text}
    (h : ∀ c ∈ cs, (charClass c).continues s.state = true) :
    lexLoop code s i cs = .ok { s with len := s.len+cs.length, col := s.col+letters cs } := by
  induction cs generalizing s i with
  | nil => simp [lexLoop]
  | cons c cs ih =>
    rw [List.forall_mem_cons] at h
    rw [lexLoop, lexStep_continue code i h.1]
    have hrest := @ih { s with len := s.len+1, col := s.col+letters [c] } (i+1) h.2
    change lexLoop code _ (i+1) cs = _
    rw [hrest, letters_cons c cs]
    simp only [List.length_cons, Nat.cast_add]
    congr 2 <;> omega

/-- A word is read into the state of its first character. -/
theorem lexLoop_word (code : Text) {s : Lexer} (i : ℕ) {c : UInt8} {cs : Text} {state : LexerState}
    (hs : s.state = .init) (hstart : (charClass c).starts = some state)
    (hcs : ∀ d ∈ cs, (charClass d).continues state = true) :
    lexLoop code s i (c :: cs) =
      .ok { s with state := state, start := i, len := (c :: cs).length,
                   col := s.col+letters (c :: cs) } := by
  have hrest := lexLoop_word_rest code (i+1)
    (s := { s with state := state, start := i, len := 1, col := s.col+letters [c] }) hcs
  rw [lexLoop, lexStep_start code i hs hstart]
  change lexLoop code _ (i+1) cs = _
  rw [hrest, letters_cons c cs]
  simp only [List.length_cons, Nat.cast_add]
  congr 2 <;> omega

/-- The type and the text of a token. -/
def Token.image (t : Token) : TokenType × Text := (t.type, t.text)

/-- Once the pending word is flushed, the tokens are the given ones. -/
structure Complete (code : Text) (s : Lexer) (images : List (TokenType × Text)) : Prop where
  state : s.state ≠ .string
  flush : ∃ s', flush code s = .ok s' ∧ s'.ret.map Token.image = images

theorem complete_init {code : Text} {s : Lexer} (hs : s.state = .init) :
    Complete code s (s.ret.map Token.image) where
  state := by simp [hs]
  flush := ⟨s, by rw [Reir.flush, if_pos hs], rfl⟩

theorem Complete.delimiter {code : Text} {s : Lexer} {images : List (TokenType × Text)} {c : UInt8}
    (h : Complete code s images) (hc : charClass c = .delimiter) (i : ℕ) :
    ∃ s', lexStep code s i c = .ok s' ∧ s'.state = .init ∧ s'.ret.map Token.image = images := by
  obtain ⟨s₁, hflush, himages⟩ := h.flush
  rw [lexStep_class h.state, hc]
  simp only [stepDelimiter, hflush, bind, Except.bind, pure, Except.pure]
  split_ifs
  · exact ⟨_, rfl, rfl, himages⟩
  · exact ⟨_, rfl, rfl, himages⟩

/-- White space behind a token. -/
theorem Complete.gap {code : Text} {s : Lexer} {images : List (TokenType × Text)} {gap : Text}
    (h : Complete code s images) (hgap : ∀ c ∈ gap, charClass c = .delimiter) (i : ℕ) :
    ∃ s', lexLoop code s i gap = .ok s' ∧ Complete code s' images ∧
      (gap ≠ [] → s'.state = .init ∧ s'.ret.map Token.image = images) := by
  induction gap generalizing s i with
  | nil => exact ⟨s, rfl, h, fun hne => absurd rfl hne⟩
  | cons c gap ih =>
    rw [List.forall_mem_cons] at hgap
    obtain ⟨s₁, hstep, hinit, himages⟩ := h.delimiter hgap.1 i
    have hcomplete : Complete code s₁ images := himages ▸ complete_init hinit
    obtain ⟨s₂, hloop, hcomplete₂, hlast⟩ := ih hcomplete hgap.2 (i+1)
    refine ⟨s₂, ?_, hcomplete₂, fun _ => ?_⟩
    · rw [lexLoop, hstep]
      exact hloop
    · by_cases hne : gap = []
      · subst hne
        obtain rfl := Except.ok.inj hloop
        exact ⟨hinit, himages⟩
      · exact hlast hne

theorem Complete.finish {code : Text} {s : Lexer} {images : List (TokenType × Text)}
    (h : Complete code s images) :
    (lexFinish code s).map (List.map Token.image) = .ok images := by
  obtain ⟨s', hflush, rfl⟩ := h.flush
  have hstate := h.state
  unfold Reir.flush at hflush
  unfold lexFinish
  cases hst : s.state with
  | init =>
    rw [if_pos hst] at hflush
    obtain rfl := Except.ok.inj hflush
    rfl
  | string => exact absurd hst hstate
  | _ =>
    rw [if_neg (by simp [hst])] at hflush
    simp only [hflush]
    rfl

/-- The capital of an ASCII letter. -/
def upper (b : UInt8) : UInt8 := if 97 ≤ b ∧ b ≤ 122 then b-32 else b

/-- A token as it is written: its kind where the text does not give it, and its text. -/
inductive Lexeme
  | identifier (word : Text)
  | reserved (kind : TokenType) (word : Text)
  | number (digits : Text)
  | string (body : Text)
  | symbol (kind : TokenType) (c : UInt8)
  | operator (kind : TokenType) (word : Text)

namespace Lexeme

def source : Lexeme → Text
  | .identifier w => w
  | .reserved _ w => w
  | .number ds => ds
  | .string body => 34 :: body ++ [34]
  | .symbol _ c => [c]
  | .operator _ w => w

def image : Lexeme → TokenType × Text
  | .identifier w => (.identifier, w)
  | .reserved kind w => (kind, w)
  | .number ds => (.number, ds)
  | .string body => (.stringLiteral, body)
  | .symbol kind c => (kind, [c])
  | .operator kind w => (kind, w)

def WellFormed : Lexeme → Prop
  | .identifier w => w ≠ [] ∧ (∀ c ∈ w, c ∉ delimiters ∧ c ≠ 34 ∧ c ∉ symbols ∧ c ∉ operatorTokens) ∧
      (∀ c ∈ w.head?, c ∉ numbers) ∧ ∀ r ∈ reservedWords, w.map upper ≠ r.1
  | .reserved kind w => (w.map upper, kind) ∈ reservedWords
  | .number ds => ds ≠ [] ∧ ∀ c ∈ ds, c ∈ numbers
  | .string body => 34 ∉ body
  | .symbol kind c => (c, kind) ∈ symbolTable
  | .operator kind w => (w, kind) ∈ operatorTokenList

end Lexeme

/-- Clearing bit five gives a capital letter exactly where `upper` does. -/
theorem capital_iff (b c : UInt8) (hc : 65 ≤ c ∧ c ≤ 90) : b &&& 0xDF = c ↔ upper b = c := by
  have hbyte : ∀ n < 256, 65 ≤ UInt8.ofNat n &&& 0xDF ∧ UInt8.ofNat n &&& 0xDF ≤ 90 ∨
      65 ≤ upper (UInt8.ofNat n) ∧ upper (UInt8.ofNat n) ≤ 90 →
        UInt8.ofNat n &&& 0xDF = upper (UInt8.ofNat n) := by
    decide +kernel
  have hb := hbyte b.toNat b.toNat_lt
  rw [UInt8.ofNat_toNat] at hb
  constructor
  · intro h
    rw [← h] at hc
    rw [← hb (.inl hc), h]
  · intro h
    rw [← h] at hc
    rw [hb (.inr hc), h]

/-- Reserved words are made of capital letters, and none stands twice in the table. -/
theorem reservedWords_table : ∀ r ∈ reservedWords, r.1 ≠ [] ∧ (∀ c ∈ r.1, (65 : UInt8) ≤ c ∧ c ≤ 90) ∧
    reservedWords.find? (fun q => q.1 == r.1) = some r := by
  decide +kernel

theorem map_eq_iff_of_capital {w r : Text} (hr : ∀ c ∈ r, (65 : UInt8) ≤ c ∧ c ≤ 90) :
    capitalize w = r ↔ w.map upper = r := by
  induction w generalizing r with
  | nil => rfl
  | cons b w ih =>
    cases r with
    | nil => simp [capitalize]
    | cons c r =>
      rw [List.forall_mem_cons] at hr
      have htail := ih hr.2
      simp only [capitalize] at htail
      simp only [capitalize, List.map_cons, List.cons.injEq, capital_iff b c hr.1, htail]

theorem inReservedWord_iff (w : Text) :
    inReservedWord w = true ↔ ∃ r ∈ reservedWords, w.map upper = r.1 := by
  rw [inReservedWord, List.any_eq_true]
  apply exists_congr
  intro r
  apply and_congr_right
  intro hr
  rw [beq_iff_eq, eq_comm]
  exact map_eq_iff_of_capital (reservedWords_table r hr).2.1

theorem asReserved_eq {w : Text} {kind : TokenType} (h : (w.map upper, kind) ∈ reservedWords) :
    asReserved w = kind := by
  have hcapital : capitalize w = w.map upper :=
    (map_eq_iff_of_capital (reservedWords_table _ h).2.1).mpr rfl
  rw [asReserved, hcapital, (reservedWords_table _ h).2.2]

theorem slice_append (pre w rest : Text) : slice (pre ++ (w ++ rest)) pre.length w.length = w := by
  simp [slice]

/-- The token that a pending word becomes. -/
inductive FlushesTo (w : Text) : LexerState → TokenType × Text → Prop
  | identifier (h : inReservedWord w = false) : FlushesTo w .name (.identifier, w)
  | reserved (h : inReservedWord w = true) : FlushesTo w .name (asReserved w, w)
  | number : FlushesTo w .number (.number, w)
  | operator {kind : TokenType} (h : operatorToken w = some kind) : FlushesTo w .operator (kind, w)

theorem complete_word {code : Text} {s : Lexer} {w : Text} {image : TokenType × Text}
    (hw : slice code s.start s.len = w) (h : FlushesTo w s.state image) :
    Complete code s (s.ret.map Token.image ++ [image]) := by
  have hstate : s.state ≠ .init ∧ s.state ≠ .string := by
    revert h
    cases s.state <;> intro h <;> cases h <;> simp
  refine ⟨hstate.2, ?_⟩
  rw [flush, if_neg hstate.1, addToken, hw]
  revert h
  cases hst : s.state with
  | init => exact fun h => absurd hst hstate.1
  | string => exact fun h => absurd hst hstate.2
  | name =>
    intro h
    cases h with
    | identifier h => exact ⟨_, rfl, by simp [nameToken, h, Token.image]⟩
    | reserved h => exact ⟨_, rfl, by simp [nameToken, h, Token.image]⟩
  | number =>
    intro h
    cases h
    exact ⟨_, rfl, by simp [Token.image]⟩
  | operator =>
    intro h
    cases h with
    | @operator kind h =>
      refine ⟨{ s with state := .operator, ret := s.ret ++ [⟨kind, w, s.row, s.col⟩] }, ?_, ?_⟩
      · simp only [addOperator, h]
        rfl
      · simp [Token.image]

/-- From the initial state the text of the token is read and completes to it. -/
def Lexeme.Reads (l : Lexeme) : Prop :=
  ∀ (pre rest : Text) (s : Lexer), s.state = .init →
    ∃ s', lexLoop (pre ++ (l.source ++ rest)) s pre.length l.source = .ok s' ∧
      Complete (pre ++ (l.source ++ rest)) s' (s.ret.map Token.image ++ [l.image])

theorem reads_word {l : Lexeme} {c : UInt8} {cs : Text} {state : LexerState}
    (hsource : l.source = c :: cs) (hstart : (charClass c).starts = some state)
    (hcs : ∀ d ∈ cs, (charClass d).continues state = true)
    (hflush : FlushesTo l.source state l.image) : l.Reads := by
  intro pre rest s hs
  have hslice := slice_append pre l.source rest
  have hloop := lexLoop_word (pre ++ (l.source ++ rest)) pre.length hs hstart hcs
  rw [hsource] at hslice hflush ⊢
  rw [hsource] at hloop
  refine ⟨_, hloop, ?_⟩
  have hcomplete := complete_word (s := { s with
    state := state, start := pre.length, len := (c :: cs).length, col := s.col+letters (c :: cs) })
    hslice hflush
  exact hcomplete

theorem charClass_tables : (∀ c ∈ numbers, charClass c = .number) ∧
    (∀ c ∈ operatorTokens, charClass c = .operator) ∧ (∀ c ∈ symbols, charClass c = .symbol) ∧
      ∀ c ∈ delimiters, charClass c = .delimiter := by
  decide +kernel

theorem charClass_number : ∀ c ∈ numbers, charClass c = .number := charClass_tables.1

theorem charClass_operator : ∀ c ∈ operatorTokens, charClass c = .operator := charClass_tables.2.1

theorem charClass_symbol : ∀ c ∈ symbols, charClass c = .symbol := charClass_tables.2.2.1

theorem charClass_delimiter : ∀ c ∈ delimiters, charClass c = .delimiter := charClass_tables.2.2.2

/-- A character of an identifier. -/
theorem charClass_word {c : UInt8}
    (h : c ∉ delimiters ∧ c ≠ 34 ∧ c ∉ symbols ∧ c ∉ operatorTokens) :
    charClass c = if c ∈ numbers then .number else .name := by
  unfold charClass
  rw [if_neg h.2.1, if_neg h.1, if_neg h.2.2.1, if_neg h.2.2.2]

theorem continues_word {c : UInt8}
    (h : c ∉ delimiters ∧ c ≠ 34 ∧ c ∉ symbols ∧ c ∉ operatorTokens) :
    (charClass c).continues .name = true := by
  rw [charClass_word h]
  split_ifs <;> rfl

theorem reads_identifier {w : Text} (h : (Lexeme.identifier w).WellFormed) :
    (Lexeme.identifier w).Reads := by
  obtain ⟨hne, hchars, hhead, hreserved⟩ := h
  obtain ⟨c, cs, rfl⟩ := List.exists_cons_of_ne_nil hne
  rw [List.forall_mem_cons] at hchars
  have hnumber : c ∉ numbers := hhead c (by simp)
  have hstart : (charClass c).starts = some .name := by
    rw [charClass_word hchars.1, if_neg hnumber]
    rfl
  have hnot : inReservedWord (c :: cs) = false := by
    rw [Bool.eq_false_iff, ne_eq, inReservedWord_iff]
    intro hex
    obtain ⟨r, hr, hw⟩ := hex
    exact hreserved r hr hw
  exact reads_word rfl hstart (fun d hd => continues_word (hchars.2 d hd)) (.identifier hnot)

/-- The letters of reserved words are characters of identifiers, and no digits. -/
theorem letter_chars : ∀ n < 256, 65 ≤ upper (UInt8.ofNat n) ∧ upper (UInt8.ofNat n) ≤ 90 →
    charClass (UInt8.ofNat n) = .name := by
  decide +kernel

theorem charClass_letter {c : UInt8} (h : 65 ≤ upper c ∧ upper c ≤ 90) : charClass c = .name := by
  have hc := letter_chars c.toNat c.toNat_lt
  rw [UInt8.ofNat_toNat] at hc
  exact hc h

theorem reads_reserved {kind : TokenType} {w : Text} (h : (Lexeme.reserved kind w).WellFormed) :
    (Lexeme.reserved kind w).Reads := by
  have hletters : ∀ c ∈ w, charClass c = .name := by
    intro c hc
    exact charClass_letter ((reservedWords_table _ h).2.1 (upper c) (List.mem_map_of_mem hc))
  have hflush : FlushesTo w .name (kind, w) := by
    rw [← asReserved_eq h]
    exact .reserved ((inReservedWord_iff w).mpr ⟨_, h, rfl⟩)
  cases w with
  | nil => exact absurd rfl (reservedWords_table _ h).1
  | cons c cs =>
    rw [List.forall_mem_cons] at hletters
    refine reads_word rfl (by rw [hletters.1]; rfl) ?_ hflush
    intro d hd
    rw [hletters.2 d hd]
    rfl

theorem reads_number {ds : Text} (h : (Lexeme.number ds).WellFormed) : (Lexeme.number ds).Reads := by
  obtain ⟨hne, hdigits⟩ := h
  obtain ⟨c, cs, rfl⟩ := List.exists_cons_of_ne_nil hne
  rw [List.forall_mem_cons] at hdigits
  refine reads_word rfl (by rw [charClass_number c hdigits.1]; rfl) ?_ .number
  intro d hd
  rw [charClass_number d (hdigits.2 d hd)]
  rfl

/-- The operators of the table are made of operator characters. -/
theorem operatorTokenList_table : ∀ r ∈ operatorTokenList,
    r.1 ≠ [] ∧ (∀ c ∈ r.1, c ∈ operatorTokens) ∧ operatorToken r.1 = some r.2 := by
  decide +kernel

theorem reads_operator {kind : TokenType} {w : Text} (h : (Lexeme.operator kind w).WellFormed) :
    (Lexeme.operator kind w).Reads := by
  obtain ⟨hne, hchars, hkind⟩ := operatorTokenList_table _ h
  have hflush : FlushesTo w .operator (kind, w) := .operator hkind
  cases w with
  | nil => exact absurd rfl hne
  | cons c cs =>
    rw [List.forall_mem_cons] at hchars
    refine reads_word rfl (by rw [charClass_operator c hchars.1]; rfl) ?_ hflush
    intro d hd
    rw [charClass_operator d (hchars.2 d hd)]
    rfl

theorem symbolTable_chars : ∀ r ∈ symbolTable,
    (r.1 ∈ symbols ∨ r.1 ∈ operatorTokens) ∧ symbolToken r.1 = some r.2 := by
  decide +kernel

/-- A character of `symbols` is a token at once, one of the other operators a word. -/
theorem reads_symbol {kind : TokenType} {c : UInt8} (h : (Lexeme.symbol kind c).WellFormed) :
    (Lexeme.symbol kind c).Reads := by
  obtain ⟨hchar, hkind⟩ := symbolTable_chars _ h
  rcases hchar with hchar | hchar
  · intro pre rest s hs
    have hslice : slice (pre ++ ([c] ++ rest)) pre.length 1 = [c] := slice_append pre [c] rest
    have hstep : lexStep (pre ++ ([c] ++ rest)) s pre.length c =
        .ok { s with ret := s.ret ++ [⟨kind, [c], s.row, s.col⟩], state := .init,
                     start := pre.length, len := 0 } := by
      rw [lexStep_class (by simp [hs]), charClass_symbol c hchar]
      simp only [stepSymbol, flush, if_pos hs, hkind, hslice, bind, Except.bind]
      rfl
    refine ⟨{ s with ret := s.ret ++ [⟨kind, [c], s.row, s.col⟩], state := .init,
                     start := pre.length, len := 0 }, ?_, ?_⟩
    · change (lexStep (pre ++ ([c] ++ rest)) s pre.length c >>= fun s => .ok s) = _
      rw [hstep]
      rfl
    · have hcomplete := @complete_init (pre ++ ([c] ++ rest)) { s with
        ret := s.ret ++ [⟨kind, [c], s.row, s.col⟩], state := .init, start := pre.length, len := 0 }
        rfl
      simpa [Token.image, Lexeme.image, Lexeme.source] using hcomplete
  · exact reads_word rfl (by rw [charClass_operator c hchar]; rfl) (by simp) (.operator hkind)

/-- The body of a string literal. -/
theorem lexLoop_string {code : Text} {s : Lexer} (i : ℕ) {body : Text} (hs : s.state = .string)
    (h : 34 ∉ body) :
    lexLoop code s i body = .ok { s with len := s.len+body.length, col := s.col+body.length } := by
  induction body generalizing s i with
  | nil => simp [lexLoop]
  | cons c body ih =>
    rw [List.mem_cons, not_or] at h
    have hne : ¬c = 34 := fun hc => h.1 hc.symm
    have hstep : lexStep code s i c = .ok { s with len := s.len+1, col := s.col+1 } := by
      rw [lexStep, if_pos hs, stepString, if_neg hne]
    have hrest := @ih { s with len := s.len+1, col := s.col+1 } (i+1) hs h.2
    rw [lexLoop, hstep]
    change lexLoop code _ (i+1) body = _
    rw [hrest]
    simp only [List.length_cons, Nat.cast_add, Nat.cast_one]
    congr 2 <;> omega

theorem reads_string {body : Text} (h : (Lexeme.string body).WellFormed) :
    (Lexeme.string body).Reads := by
  intro pre rest s hs
  have hslice : slice (pre ++ (34 :: body ++ [34] ++ rest)) (pre.length+1) (1+body.length-1) = body := by
    simp [slice]
  generalize hcode : pre ++ (34 :: body ++ [34] ++ rest) = code at hslice
  have hopen : lexStep code s pre.length 34 =
      .ok { s with state := .string, start := pre.length, len := 1 } := by
    rw [lexStep_class (by simp [hs]), show charClass 34 = .quote from rfl]
    simp only [flush, if_pos hs, bind, Except.bind]
    rfl
  have hbody := @lexLoop_string code { s with state := .string, start := pre.length, len := 1 }
    (pre.length+1) body rfl h
  generalize s.col+(body.length : Int) = col at hbody
  have hclose : ∀ i, lexStep code
      { s with state := .string, start := pre.length, len := 1+body.length, col := col } i 34 =
      .ok { s with ret := s.ret ++ [⟨.stringLiteral, body, s.row, col⟩], state := .init, start := i,
                   len := 0, col := col+1 } := by
    intro i
    simp only [lexStep, if_true, stepString, hslice]
  have hloop : lexLoop code s pre.length (34 :: body ++ [34]) = .ok { s with
      ret := s.ret ++ [⟨.stringLiteral, body, s.row, col⟩], state := .init,
      start := pre.length+1+body.length, len := 0, col := col+1 } := by
    rw [List.cons_append, lexLoop, hopen]
    change lexLoop code _ (pre.length+1) (body ++ [34]) = _
    rw [lexLoop_append, hbody]
    exact congrArg (· >>= fun s => .ok s) (hclose (pre.length+1+body.length))
  change ∃ s', lexLoop (pre ++ (34 :: body ++ [34] ++ rest)) s pre.length (34 :: body ++ [34]) = .ok s' ∧
    Complete (pre ++ (34 :: body ++ [34] ++ rest)) s' _
  rw [hcode]
  refine ⟨_, hloop, ?_⟩
  have hcomplete := @complete_init code { s with
    ret := s.ret ++ [⟨.stringLiteral, body, s.row, col⟩], state := .init,
    start := pre.length+1+body.length, len := 0, col := col+1 } rfl
  simpa [Token.image, Lexeme.image] using hcomplete

theorem Lexeme.reads {l : Lexeme} (h : l.WellFormed) : l.Reads := by
  cases l with
  | identifier w => exact reads_identifier h
  | reserved kind w => exact reads_reserved h
  | number ds => exact reads_number h
  | string body => exact reads_string h
  | symbol kind c => exact reads_symbol h
  | operator kind w => exact reads_operator h

/-- A source text: white space, then tokens with white space behind each of them, which is
missing at most behind the last. -/
structure TokenSource where
  lead : Text
  items : List (Lexeme × Text)
  lead_space : ∀ c ∈ lead, c ∈ delimiters
  wellFormed : ∀ l ∈ items, l.1.WellFormed
  gap_space : ∀ l ∈ items, ∀ c ∈ l.2, c ∈ delimiters
  separated : ∀ l ∈ items.dropLast, l.2 ≠ []

namespace TokenSource

/-- The text of items. -/
def textOf (items : List (Lexeme × Text)) : Text := items.flatMap fun l => l.1.source ++ l.2

def text (t : TokenSource) : Text := t.lead ++ textOf t.items

end TokenSource

/-- Tokens with white space behind them are read one by one. -/
theorem lexLoop_items {items : List (Lexeme × Text)} (hwf : ∀ l ∈ items, l.1.WellFormed)
    (hspace : ∀ l ∈ items, ∀ c ∈ l.2, c ∈ delimiters) (hsep : ∀ l ∈ items.dropLast, l.2 ≠ [])
    (pre : Text) {s : Lexer} (hs : s.state = .init) :
    ∃ s', lexLoop (pre ++ TokenSource.textOf items) s pre.length (TokenSource.textOf items) = .ok s' ∧
      Complete (pre ++ TokenSource.textOf items) s'
        (s.ret.map Token.image ++ items.map fun l => l.1.image) := by
  induction items generalizing pre s with
  | nil => exact ⟨s, rfl, by simpa using complete_init hs⟩
  | cons l items ih =>
    rw [List.forall_mem_cons] at hwf hspace
    have htext : TokenSource.textOf (l :: items) = l.1.source ++ (l.2 ++ TokenSource.textOf items) := by
      simp [TokenSource.textOf]
    obtain ⟨s₁, hread, hcomplete⟩ := Lexeme.reads hwf.1 pre (l.2 ++ TokenSource.textOf items) s hs
    obtain ⟨s₂, hgap, hcomplete₂, hinit⟩ := hcomplete.gap
      (fun c hc => charClass_delimiter c (hspace.1 c hc)) (pre.length+l.1.source.length)
    have hhead : lexLoop (pre ++ TokenSource.textOf (l :: items)) s pre.length
        (TokenSource.textOf (l :: items)) =
        lexLoop (pre ++ TokenSource.textOf (l :: items)) s₂
          (pre.length+l.1.source.length+l.2.length) (TokenSource.textOf items) := by
      rw [htext, lexLoop_append, hread]
      change lexLoop _ s₁ _ (l.2 ++ TokenSource.textOf items) = _
      rw [lexLoop_append, hgap]
      rfl
    rw [hhead]
    cases hitems : items with
    | nil =>
      refine ⟨s₂, by simp [TokenSource.textOf, lexLoop], ?_⟩
      rw [← hitems, htext]
      simpa [hitems] using hcomplete₂
    | cons k rest =>
      have hne : l.2 ≠ [] := hsep l (by simp [hitems])
      obtain ⟨hstate, himages⟩ := hinit hne
      have hrest := ih hwf.2 hspace.2 (fun m hm => hsep m (by
        rw [hitems] at hm ⊢
        exact List.mem_cons_of_mem l hm)) (pre ++ (l.1.source ++ l.2)) hstate
      rw [himages] at hrest
      rw [← hitems, htext]
      simpa [Nat.add_assoc] using hrest

/-- Tokenizing gives back exactly the tokens that were written. -/
theorem tokenize_source (t : TokenSource) :
    (tokenize t.text).map (List.map Token.image) = .ok (t.items.map fun l => l.1.image) := by
  have hstart : Complete t.text ⟨[], 0, 0, 1, 0, .init⟩ [] := complete_init rfl
  obtain ⟨s₁, hlead, hcomplete, hinit⟩ := hstart.gap
    (fun c hc => charClass_delimiter c (t.lead_space c hc)) 0
  have hs₁ : s₁.state = .init ∧ s₁.ret.map Token.image = [] := by
    by_cases hne : t.lead = []
    · rw [hne] at hlead
      obtain rfl := Except.ok.inj hlead
      exact ⟨rfl, rfl⟩
    · exact hinit hne
  obtain ⟨s₂, hloop, hcomplete₂⟩ := lexLoop_items t.wellFormed t.gap_space t.separated t.lead hs₁.1
  rw [hs₁.2, List.nil_append] at hcomplete₂
  have hrun : lexLoop t.text ⟨[], 0, 0, 1, 0, .init⟩ 0 t.text = .ok s₂ := by
    rw [TokenSource.text] at hlead ⊢
    rw [lexLoop_append, hlead, Nat.zero_add]
    exact hloop
  rw [tokenize, hrun]
  exact hcomplete₂.finish

/-- `If x1 <= 10 { emit "a b" }` with a tab and a line break. -/
def writtenItems : List (Lexeme × Text) :=
  [(.reserved .if (text "If"), text " "), (.identifier (text "x1"), text "\t"),
    (.operator .openAngleEqual (text "<="), text " "), (.number (text "10"), text "\n"),
    (.symbol .openBrace 123, text " "), (.reserved .emit (text "emit"), text " "),
    (.string (text "a b"), text " "), (.symbol .closeBrace 125, [])]

theorem wellFormed_x1 : (Lexeme.identifier (text "x1")).WellFormed := by
  refine ⟨by decide, by decide +kernel, fun c hc => ?_, by decide +kernel⟩
  obtain rfl : 120 = c := Option.some.inj hc
  decide +kernel

theorem writtenItems_wellFormed : ∀ l ∈ writtenItems, l.1.WellFormed := by
  simp only [writtenItems, List.forall_mem_cons, wellFormed_x1, true_and]
  simp only [Lexeme.WellFormed, List.not_mem_nil, false_implies, implies_true, and_true]
  decide +kernel

theorem writtenItems_gaps : ∀ l ∈ writtenItems, ∀ c ∈ l.2, c ∈ delimiters := by decide +kernel

theorem writtenItems_separated : ∀ l ∈ writtenItems.dropLast, l.2 ≠ [] := by decide +kernel

theorem writtenLead_space : ∀ c ∈ text " ", c ∈ delimiters := by decide +kernel

def writtenIf : TokenSource where
  lead := text " "
  items := writtenItems
  lead_space := writtenLead_space
  wellFormed := writtenItems_wellFormed
  gap_space := writtenItems_gaps
  separated := writtenItems_separated

end Reir
