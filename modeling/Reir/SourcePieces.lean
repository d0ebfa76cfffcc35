import Reir.TokenSlices

/-! The source as a sequence of pieces. White space, symbols, strings and the longest runs of the
other characters are the pieces of every text, and the lexer, which gathers a word and flushes it
when it sees what comes behind, reads them one by one. -/
namespace Reir

/-- A run is a word of letters and digits, a number or a run of operator characters, according to
the state that the lexer gathers it in. -/
inductive Piece
  | space (c : UInt8)
  | symbol (c : UInt8)
  | run (state : LexerState) (word : Text)
  | string (body : Text)
  | unclosed (body : Text)
  deriving DecidableEq

def Piece.source : Piece → Text
  | .space c => [c]
  | .symbol c => [c]
  | .run _ w => w
  | .string body => 34 :: (body ++ [34])
  | .unclosed body => 34 :: body

/-- The pieces of a text. What comes behind a run does not go on with it. -/
inductive Pieces : Text → List Piece → Prop
  | nil : Pieces [] []
  | space {c : UInt8} {rest : Text} {ps : List Piece} : charClass c = .delimiter →
      Pieces rest ps → Pieces (c :: rest) (.space c :: ps)
  | symbol {c : UInt8} {rest : Text} {ps : List Piece} : charClass c = .symbol →
      Pieces rest ps → Pieces (c :: rest) (.symbol c :: ps)
  | run {state : LexerState} {c : UInt8} {cs rest : Text} {ps : List Piece} :
      (charClass c).starts = some state → (∀ d ∈ cs, (charClass d).continues state = true) →
      (∀ d ∈ rest.head?, (charClass d).continues state = false) →
      Pieces rest ps → Pieces (c :: (cs ++ rest)) (.run state (c :: cs) :: ps)
  | string {body rest : Text} {ps : List Piece} : 34 ∉ body →
      Pieces rest ps → Pieces (34 :: (body ++ 34 :: rest)) (.string body :: ps)
  | unclosed {body : Text} : 34 ∉ body → Pieces (34 :: body) [.unclosed body]

theorem Pieces.source {code : Text} {ps : List Piece} (h : Pieces code ps) :
    ps.flatMap Piece.source = code := by
  induction h with
  | nil => rfl
  | unclosed _ => simp [Piece.source]
  | _ => simp_all [Piece.source]

theorem Pieces.tail {code : Text} {q : Piece} {ps : List Piece} (h : Pieces code (q :: ps)) :
    ∃ rest, Pieces rest ps := by
  cases h with
  | space _ h => exact ⟨_, h⟩
  | symbol _ h => exact ⟨_, h⟩
  | run _ _ _ h => exact ⟨_, h⟩
  | string _ h => exact ⟨_, h⟩
  | unclosed _ => exact ⟨_, .nil⟩

/-- A text from its longest prefix of characters of one kind. -/
theorem exists_longest {α : Type} (p : α → Bool) (xs : List α) :
    ∃ ys rest, xs = ys ++ rest ∧ (∀ y ∈ ys, p y = true) ∧ ∀ y ∈ rest.head?, p y = false := by
  refine ⟨xs.takeWhile p, xs.dropWhile p, (List.takeWhile_append_dropWhile).symm, ?_, ?_⟩
  · intro y hy
    exact List.mem_takeWhile_imp hy
  · intro y hy
    have hnot := List.head?_dropWhile_not p xs
    rw [Option.mem_def] at hy
    rw [hy] at hnot
    simpa using hnot

theorem exists_pieces (code : Text) : ∃ ps, Pieces code ps := by
  induction hn : code.length using Nat.strong_induction_on generalizing code with
  | _ n ih =>
    cases code with
    | nil => exact ⟨[], .nil⟩
    | cons c cs =>
      rw [List.length_cons] at hn
      have htail (rest : Text) (hle : rest.length ≤ cs.length) : ∃ ps, Pieces rest ps :=
        ih rest.length (by omega) rest rfl
      have hrun {state : LexerState} (hstart : (charClass c).starts = some state) :
          ∃ ps, Pieces (c :: cs) ps := by
        obtain ⟨ys, rest, rfl, hys, hrest⟩ :=
          exists_longest (fun d => (charClass d).continues state) cs
        obtain ⟨ps, hps⟩ := htail rest (by simp)
        exact ⟨_, .run hstart hys hrest hps⟩
      cases hc : charClass c with
      | quote =>
        obtain rfl := eq_quote_of_class hc
        obtain ⟨ys, rest, rfl, hys, hrest⟩ := exists_longest (fun d => d != 34) cs
        have hbody : 34 ∉ ys := fun hmem => absurd (hys 34 hmem) (by decide)
        cases rest with
        | nil =>
          rw [List.append_nil]
          exact ⟨_, .unclosed hbody⟩
        | cons d rest =>
          obtain rfl : d = 34 := by simpa using hrest d rfl
          obtain ⟨ps, hps⟩ := htail rest (by simp; omega)
          exact ⟨_, .string hbody hps⟩
      | delimiter =>
        obtain ⟨ps, hps⟩ := htail cs le_rfl
        exact ⟨_, .space hc hps⟩
      | symbol =>
        obtain ⟨ps, hps⟩ := htail cs le_rfl
        exact ⟨_, .symbol hc hps⟩
      | operator => exact hrun (by rw [hc]; rfl)
      | number => exact hrun (by rw [hc]; rfl)
      | name => exact hrun (by rw [hc]; rfl)

structure Position where
  row : Int
  col : Int

/-- What a piece adds to the column: digits, operators, symbols and white space are not counted. -/
def Piece.width : Piece → ℕ
  | .run _ w => letters w
  | .string body => body.length+1
  | _ => 0

def Piece.move (p : Position) : Piece → Position
  | .space c => if c = 10 then ⟨p.row+1, -1⟩ else p
  | q => ⟨p.row, p.col+q.width⟩

/-- The token of a gathered word. -/
def runToken (state : LexerState) (w : Text) (row col : Int) : Except LexError Token :=
  match state with
  | .name => .ok (nameToken w row col)
  | .number => .ok ⟨.number, w, row, col⟩
  | .operator => addOperator w row col
  | _ => .error .abort

/-- The token of a piece that the lexer comes to at the given place. -/
def Piece.token (p : Position) : Piece → Except LexError (Option Token)
  | .space _ => .ok none
  | .symbol c =>
    match symbolToken c with
    | some kind => .ok (some ⟨kind, [c], p.row, p.col⟩)
    | none => .error .abort
  | .run state w => some <$> runToken state w p.row (p.col+letters w)
  | .string body => .ok (some ⟨.stringLiteral, body, p.row, p.col+body.length⟩)
  | .unclosed _ => .error .eofInString

def Piece.firstLetter : Piece → Option UInt8
  | .run .name w => w.head?
  | _ => none

/-- A letter directly behind a number. -/
def intruder : Piece → List Piece → Option LexError
  | .run .number ds, ps => (ps.head?.bind Piece.firstLetter).map fun c => .identifierInNumber c ds
  | _, _ => none

def readPieces : Position → List Piece → Except LexError (List Token)
  | _, [] => .ok []
  | p, q :: ps =>
    match intruder q ps with
    | some e => .error e
    | none => do
      let t ← q.token p
      let ts ← readPieces (q.move p) ps
      pure (t.toList ++ ts)

theorem readPieces_cons_ok {p : Position} {q : Piece} {ps : List Piece} {ts : List Token} :
    readPieces p (q :: ps) = .ok ts ↔ intruder q ps = none ∧
      ∃ t us, q.token p = .ok t ∧ readPieces (q.move p) ps = .ok us ∧ ts = t.toList ++ us := by
  rw [readPieces]
  cases hintruder : intruder q ps with
  | some e => simp
  | none =>
    simp only [true_and]
    constructor
    · intro h
      obtain ⟨t, ht, h⟩ := bind_eq_ok_iff.mp h
      obtain ⟨us, hus, h⟩ := bind_eq_ok_iff.mp h
      exact ⟨t, us, ht, hus, (Except.ok.inj h).symm⟩
    · rintro ⟨t, us, ht, hus, rfl⟩
      exact bind_eq_ok_iff.mpr ⟨t, ht, bind_eq_ok_iff.mpr ⟨us, hus, rfl⟩⟩

/-- What the lexer makes of the rest of the source. -/
def lexRest (code : Text) (s : Lexer) (i : ℕ) (rest : Text) : Except LexError (List Token) :=
  lexLoop code s i rest >>= lexFinish code

section
variable {code : Text} {s : Lexer} {i : ℕ}

theorem lexRest_cons (c : UInt8) (rest : Text) :
    lexRest code s i (c :: rest) = lexStep code s i c >>= fun s' => lexRest code s' (i+1) rest := by
  rw [lexRest, lexLoop, bind_assoc]
  rfl

theorem lexRest_append (xs ys : Text) :
    lexRest code s i (xs ++ ys) = lexLoop code s i xs >>= fun s' =>
      lexRest code s' (i+xs.length) ys := by
  rw [lexRest, lexLoop_append, bind_assoc]
  rfl

theorem addToken_eq (code : Text) (s : Lexer) :
    addToken code s = runToken s.state (slice code s.start s.len) s.row s.col >>= fun t =>
      .ok { s with ret := s.ret ++ [t] } := by
  unfold addToken runToken
  cases s.state <;> rfl

theorem flush_init (h : s.state = .init) : flush code s = .ok s := if_pos h

theorem flush_pending (h : s.state ≠ .init) : flush code s = addToken code s := if_neg h

/-- A character that does not go on with the gathered word is read as if the word were flushed
before. -/
theorem lexStep_flush {c : UInt8} (hs : s.state ≠ .string) (hinit : s.state ≠ .init)
    (hcont : (charClass c).continues s.state = false)
    (hnumber : ¬ (s.state = .number ∧ charClass c = .name)) :
    lexStep code s i c = addToken code s >>= fun s₁ =>
      lexStep code { s₁ with state := .init } i c := by
  have hflushed (s₁ : Lexer) : ({ s₁ with state := .init } : Lexer).state ≠ .string := by simp
  cases hc : charClass c with
  | quote =>
    simp only [lexStep_class hs, lexStep_class (hflushed _), hc, flush_pending hinit, flush_init]
    rfl
  | delimiter =>
    simp only [lexStep_class hs, lexStep_class (hflushed _), hc, stepDelimiter, flush_pending hinit,
      flush_init]
    rfl
  | symbol =>
    simp only [lexStep_class hs, lexStep_class (hflushed _), hc, stepSymbol, flush_pending hinit,
      flush_init]
    rfl
  | _ =>
    obtain ⟨state, hstate⟩ : ∃ state, (charClass c).starts = some state := by
      rw [hc]
      exact ⟨_, rfl⟩
    rw [lexStep_starts hs hstate (by simp [hcont]) hnumber, flush_pending hinit]
    congr 1
    funext s₁
    rw [lexStep_start code i rfl hstate]
    simp [letters, hc]

theorem lexRest_flush {rest : Text} (hs : s.state ≠ .string) (hinit : s.state ≠ .init)
    (hcont : ∀ c ∈ rest.head?, (charClass c).continues s.state = false)
    (hnumber : s.state = .number → ∀ c ∈ rest.head?, charClass c ≠ .name) :
    lexRest code s i rest = addToken code s >>= fun s₁ =>
      lexRest code { s₁ with state := .init } i rest := by
  cases rest with
  | nil =>
    change lexFinish code s = _
    unfold lexFinish
    cases hst : s.state with
    | init => exact absurd hst hinit
    | string => exact absurd hst hs
    | _ => rfl
  | cons c rest =>
    rw [lexRest_cons, lexStep_flush hs hinit (hcont c rfl) fun h => hnumber h.1 c rfl h.2, bind_assoc]
    congr 1
    funext s₁
    rw [lexRest_cons]

end

theorem Pieces.firstLetter {rest : Text} {ps : List Piece} (h : Pieces rest ps) :
    ps.head?.bind Piece.firstLetter = rest.head?.filter fun c => charClass c = .name := by
  cases h with
  | nil => rfl
  | space hc _ => simp [Piece.firstLetter, Option.filter, hc]
  | symbol hc _ => simp [Piece.firstLetter, Option.filter, hc]
  | @run state c _ _ _ hstart _ _ _ =>
    cases hc : charClass c <;> rw [hc] at hstart <;>
      simp only [CharClass.starts, Option.some.injEq, reduceCtorEq] at hstart <;> subst hstart <;>
      simp [Piece.firstLetter, Option.filter, hc]
  | string _ _ =>
    have hquote : charClass 34 ≠ .name := by decide
    simp [Piece.firstLetter, Option.filter, hquote]
  | unclosed _ =>
    have hquote : charClass 34 ≠ .name := by decide
    simp [Piece.firstLetter, Option.filter, hquote]

theorem intruder_number {w rest : Text} {ps : List Piece} (h : Pieces rest ps) :
    intruder (.run .number w) ps = (rest.head?.filter fun c => charClass c = .name).map fun c =>
      .identifierInNumber c w := by
  rw [intruder, h.firstLetter]

theorem intruder_other {state : LexerState} (h : state ≠ .number) (w : Text) (ps : List Piece) :
    intruder (.run state w) ps = none := by
  cases state with
  | number => exact absurd rfl h
  | _ => rfl

/-- The lexer at a place, with no word gathered. -/
def ready (ret : List Token) (p : Position) : Lexer := ⟨ret, 0, 0, p.row, p.col, .init⟩

/-- Where the last word stood does not matter in the initial state. -/
theorem lexRest_ready {code rest : Text} {s : Lexer} {i : ℕ} (hs : s.state = .init) :
    lexRest code s i rest = lexRest code (ready s.ret ⟨s.row, s.col⟩) i rest := by
  cases rest with
  | nil =>
    change lexFinish code s = .ok s.ret
    unfold lexFinish
    rw [hs]
  | cons c rest =>
    have hne : s.state ≠ .string := by simp [hs]
    have hready : (ready s.ret ⟨s.row, s.col⟩).state = .init := rfl
    have hready' : (ready s.ret ⟨s.row, s.col⟩).state ≠ .string := by simp [hready]
    have hsame : lexStep code s i c = lexStep code (ready s.ret ⟨s.row, s.col⟩) i c := by
      cases hc : charClass c with
      | quote =>
        simp only [lexStep_class hne, lexStep_class hready', hc, flush_init hs,
          flush_init hready]
        rfl
      | delimiter =>
        simp only [lexStep_class hne, lexStep_class hready', hc, stepDelimiter,
          flush_init hs, flush_init hready]
        rfl
      | symbol =>
        simp only [lexStep_class hne, lexStep_class hready', hc, stepSymbol, flush_init hs,
          flush_init hready]
        rfl
      | _ =>
        obtain ⟨state, hstate⟩ : ∃ state, (charClass c).starts = some state := by
          rw [hc]
          exact ⟨_, rfl⟩
        rw [lexStep_start code i hs hstate, lexStep_start code i hready hstate]
        rfl
    rw [lexRest_cons, lexRest_cons, hsame]

/-- The pieces in front of the lexer are read, whatever is behind it. -/
def ReadsPieces (rest : Text) (ps : List Piece) : Prop :=
  ∀ ⦃code pre : Text⦄ (ret : List Token) (p : Position), code = pre ++ rest →
    lexRest code (ready ret p) pre.length rest = (ret ++ ·) <$> readPieces p ps

/-- The lexer reads one piece. -/
def ReadsPiece (q : Piece) (rest : Text) : Prop :=
  ∀ ⦃code pre : Text⦄ (ret : List Token) (p : Position), code = pre ++ (q.source ++ rest) →
    lexRest code (ready ret p) pre.length (q.source ++ rest) = q.token p >>= fun t =>
      lexRest code (ready (ret ++ t.toList) (q.move p)) (pre.length+q.source.length) rest

theorem ReadsPieces.cons {q : Piece} {rest : Text} {ps : List Piece} (hq : ReadsPiece q rest)
    (h : ReadsPieces rest ps) (hnone : intruder q ps = none) : ReadsPieces (q.source ++ rest) (q :: ps) := by
  intro code pre ret p hcode
  rw [hq ret p hcode, readPieces, hnone]
  cases q.token p with
  | error e => rfl
  | ok t =>
    have hnext := @h code (pre ++ q.source) (ret ++ t.toList) (q.move p) (by simp [hcode])
    rw [List.length_append] at hnext
    change lexRest code _ _ rest = _
    rw [hnext]
    simp only [bind, Except.bind, List.append_assoc]
    cases readPieces (q.move p) ps with
    | error e => rfl
    | ok ts => rfl

section
variable {rest : Text} {c : UInt8}

theorem readsPiece_space (hc : charClass c = .delimiter) : ReadsPiece (.space c) rest := by
  intro code pre ret p hcode
  rw [Piece.source, List.singleton_append, lexRest_cons, lexStep_class (by simp [ready]), hc]
  simp only [stepDelimiter, flush_init, ready]
  by_cases hnl : c = 10
  · simp only [hnl, bind, Except.bind, Piece.token, Piece.move, if_true, Option.toList_none,
      List.append_nil, List.length_singleton]
    exact lexRest_ready rfl
  · simp only [hnl, bind, Except.bind, Piece.token, Piece.move, if_false, Option.toList_none,
      List.append_nil, List.length_singleton]
    exact lexRest_ready rfl

theorem readsPiece_symbol (hc : charClass c = .symbol) : ReadsPiece (.symbol c) rest := by
  intro code pre ret p hcode
  have hslice : slice code pre.length 1 = [c] := by
    rw [hcode]
    exact slice_append pre [c] rest
  rw [Piece.source, List.singleton_append, lexRest_cons, lexStep_class (by simp [ready]), hc]
  simp only [stepSymbol, flush_init, ready, hslice, Piece.token]
  cases symbolToken c with
  | none => rfl
  | some kind =>
    simp only [bind, Except.bind, Piece.move, Piece.width, Option.toList_some, Int.natCast_zero,
      Int.add_zero, List.length_singleton]
    exact lexRest_ready rfl

/-- A run that no letter behind a number breaks off. -/
theorem readsPiece_run {state : LexerState} {cs : Text} (hstart : (charClass c).starts = some state)
    (hcs : ∀ d ∈ cs, (charClass d).continues state = true)
    (hrest : ∀ d ∈ rest.head?, (charClass d).continues state = false)
    (hnumber : state = .number → ∀ d ∈ rest.head?, charClass d ≠ .name) :
    ReadsPiece (.run state (c :: cs)) rest := by
  intro code pre ret p hcode
  have hword := CharClass.starts_word hstart
  have hslice : slice code pre.length (c :: cs).length = c :: cs := by
    rw [hcode]
    exact slice_append pre (c :: cs) rest
  rw [Piece.source, lexRest_append, lexLoop_word code pre.length rfl hstart hcs]
  change lexRest code _ _ rest = _
  rw [lexRest_flush hword.2 hword.1 hrest hnumber, addToken_eq]
  simp only [hslice, Piece.token, ready]
  cases runToken state (c :: cs) p.row (p.col+letters (c :: cs)) with
  | error e => rfl
  | ok t => exact lexRest_ready rfl

theorem lexLoop_openString {code body : Text} {s : Lexer} {i : ℕ} (hs : s.state = .init)
    (hbody : 34 ∉ body) : lexLoop code s i (34 :: body) = .ok { s with
      state := .string, start := i, len := 1+body.length, col := s.col+body.length } := by
  have hopen : lexStep code s i 34 = .ok { s with state := .string, start := i, len := 1 } := by
    rw [lexStep_class (by simp [hs]), show charClass 34 = .quote from rfl]
    simp only [flush_init hs]
    rfl
  rw [lexLoop, hopen]
  change lexLoop code _ (i+1) body = _
  rw [lexLoop_string (i+1) rfl hbody]

theorem readsPiece_string {body : Text} (hbody : 34 ∉ body) : ReadsPiece (.string body) rest := by
  intro code pre ret p hcode
  have hslice : slice code (pre.length+1) (1+body.length-1) = body := by
    rw [hcode]
    simp [slice, Piece.source]
  have hsource : (Piece.string body).source ++ rest = (34 :: body) ++ (34 :: rest) := by
    simp [Piece.source]
  have hlength : pre.length+(Piece.string body).source.length =
      pre.length+(34 :: body).length+1 := by
    simp only [Piece.source, List.length_cons, List.length_append, List.length_nil]
    omega
  rw [hsource, hlength, lexRest_append, lexLoop_openString rfl hbody]
  change lexRest code _ _ (34 :: rest) = _
  rw [lexRest_cons, lexStep, if_pos rfl]
  simp only [stepString, if_true, hslice]
  have hend : p.col+body.length+1 = p.col+(body.length+1 : ℕ) := by omega
  refine (lexRest_ready rfl).trans ?_
  simp only [ready, Piece.token, Piece.move, Piece.width, bind, Except.bind, Option.toList_some, hend]

theorem reads_unclosed {body : Text} (hbody : 34 ∉ body) : ReadsPieces (34 :: body) [.unclosed body] := by
  intro code pre ret p _
  rw [lexRest, lexLoop_openString rfl hbody]
  rfl

theorem Pieces.reads {ps : List Piece} (h : Pieces rest ps) : ReadsPieces rest ps := by
  induction h with
  | nil =>
    intro code pre ret p _
    change Except.ok ret = Except.ok (ret ++ [])
    rw [List.append_nil]
  | space hc _ ih => exact ih.cons (readsPiece_space hc) rfl
  | symbol hc _ ih => exact ih.cons (readsPiece_symbol hc) rfl
  | @run state c cs rest ps hstart hcs hrest hps ih =>
    by_cases hintruder : state = .number ∧ ∃ d ∈ rest.head?, charClass d = .name
    · obtain ⟨rfl, d, hd, hname⟩ := hintruder
      have hsome : intruder (.run .number (c :: cs)) ps = some (.identifierInNumber d (c :: cs)) := by
        rw [intruder_number hps, Option.mem_def.mp hd]
        simp [hname]
      obtain ⟨ds, rfl⟩ : ∃ ds, rest = d :: ds := by
        cases rest with
        | nil => simp at hd
        | cons e ds => exact ⟨ds, by simpa using hd⟩
      intro code pre ret p hcode
      have hslice : slice code pre.length (c :: cs).length = c :: cs := by
        rw [hcode]
        exact slice_append pre (c :: cs) (d :: ds)
      rw [readPieces, hsome, ← List.cons_append, lexRest_append,
        lexLoop_word code pre.length rfl hstart hcs]
      change lexRest code _ _ (d :: ds) = _
      rw [lexRest_cons, lexStep_class (by simp), hname]
      simp only [stepName, hslice]
      rfl
    · have hnumber : state = .number → ∀ d ∈ rest.head?, charClass d ≠ .name := by
        intro hstate d hd hname
        exact hintruder ⟨hstate, d, hd, hname⟩
      have hnone : intruder (.run state (c :: cs)) ps = none := by
        by_cases hstate : state = .number
        · rw [hstate, intruder_number hps]
          cases hhead : rest.head? with
          | none => rfl
          | some d => simp [hnumber hstate d hhead]
        · exact intruder_other hstate _ _
      exact ih.cons (readsPiece_run hstart hcs hrest hnumber) hnone
  | @string body rest ps hbody _ ih =>
    have hreads := ih.cons (readsPiece_string hbody) rfl
    rwa [show 34 :: (body ++ 34 :: rest) = (Piece.string body).source ++ rest by simp [Piece.source]]
  | unclosed hbody => exact reads_unclosed hbody

end

/-- The lexer reads the pieces of its source, from the first row on. -/
theorem tokenize_pieces {code : Text} {ps : List Piece} (h : Pieces code ps) :
    tokenize code = readPieces ⟨1, 0⟩ ps := by
  have hreads := @Pieces.reads code ps h code [] [] ⟨1, 0⟩ rfl
  change tokenize code = _ at hreads
  rw [hreads]
  cases readPieces ⟨1, 0⟩ ps with
  | error e => rfl
  | ok ts => rfl

end Reir
