import Reir.SourcePieces

/-! Runs of operator characters. The lexer gathers the longest run and looks it up as a whole: in
the switch of `symbol_token`, which ends the program on the two characters it does not know, if it
is one character, and in the list of compound operators otherwise. No run is ever split. -/
namespace Reir

theorem symbolToken_symbols : ∀ c ∈ symbols, (symbolToken c).isSome := by
  have hsymbols : symbols = [123, 125, 40, 41, 91, 93, 44, 58, 59] := rfl
  simp [hsymbols, symbolToken, symbolTable]

theorem symbolToken_operators :
    ∀ c ∈ operatorTokens, symbolToken c = none ↔ [c] = text "!" ∨ [c] = text "|" := by
  have hoperators : operatorTokens = [43, 45, 42, 47, 37, 61, 33, 60, 62, 46, 38, 124] := rfl
  have hmark : text "!" = [33] := rfl
  have hbar : text "|" = [124] := rfl
  simp [hoperators, hmark, hbar, symbolToken, symbolTable]

theorem mem_symbols_of_class {c : UInt8} (h : charClass c = .symbol) : c ∈ symbols := by
  unfold charClass at h
  split_ifs at h with _ _ hs
  exact hs

theorem mem_operatorTokens_of_class {c : UInt8} (h : charClass c = .operator) :
    c ∈ operatorTokens := by
  unfold charClass at h
  split_ifs at h with _ _ _ ho
  exact ho

theorem class_of_starts {c : UInt8} (h : (charClass c).starts = some .operator) :
    charClass c = .operator := by
  cases hc : charClass c <;> rw [hc] at h <;>
    simp only [CharClass.starts, Option.some.injEq, reduceCtorEq] at h

theorem operatorToken_of_two (c d : UInt8) (w : Text) : operatorToken (c :: d :: w) ≠ none := by
  unfold operatorToken
  split
  · simp_all
  · split <;> simp

theorem operatorToken_eq_none {c : UInt8} {cs : Text} (h : charClass c = .operator) :
    operatorToken (c :: cs) = none ↔ c :: cs = text "!" ∨ c :: cs = text "|" := by
  cases cs with
  | nil => exact symbolToken_operators c (mem_operatorTokens_of_class h)
  | cons d cs =>
    constructor
    · intro hnone
      exact absurd hnone (operatorToken_of_two c d cs)
    · rintro (h | h)
      · simp [text] at h
      · simp [text] at h

/-- A letter stands directly behind a number. -/
def Misnumbered (ps : List Piece) : Prop :=
  ∃ before ds c w after, ps = before ++ .run .number ds :: .run .name (c :: w) :: after

/-- A lone `!` or `|`, with no letter behind a number in front of it. -/
def LoneOperator (ps : List Piece) : Prop :=
  ∃ before w after, ps = before ++ .run .operator w :: after ∧ (w = text "!" ∨ w = text "|") ∧
    ¬Misnumbered before

theorem intruder_isSome {q : Piece} {ps : List Piece} : (intruder q ps).isSome = true ↔
    ∃ ds c w after, q = .run .number ds ∧ ps = .run .name (c :: w) :: after := by
  constructor
  · intro h
    unfold intruder at h
    split at h
    · cases ps with
      | nil => simp at h
      | cons r ps =>
        simp only [List.head?_cons, Option.bind_some, Option.isSome_map] at h
        unfold Piece.firstLetter at h
        split at h
        · rename_i w
          cases w with
          | nil => simp at h
          | cons c w => exact ⟨_, c, w, ps, rfl, rfl⟩
        · simp at h
    · simp at h
  · rintro ⟨ds, c, w, after, rfl, rfl⟩
    rfl

theorem misnumbered_cons {q : Piece} {ps : List Piece} :
    Misnumbered (q :: ps) ↔ (intruder q ps).isSome = true ∨ Misnumbered ps := by
  rw [intruder_isSome]
  constructor
  · rintro ⟨before, ds, c, w, after, h⟩
    cases before with
    | nil =>
      obtain ⟨rfl, rfl⟩ := List.cons.inj h
      exact .inl ⟨ds, c, w, after, rfl, rfl⟩
    | cons b before => exact .inr ⟨before, ds, c, w, after, (List.cons.inj h).2⟩
  · rintro (⟨ds, c, w, after, rfl, rfl⟩ | ⟨before, ds, c, w, after, rfl⟩)
    · exact ⟨[], ds, c, w, after, rfl⟩
    · exact ⟨q :: before, ds, c, w, after, rfl⟩

theorem intruder_before {q : Piece} {before after : List Piece} {w : Text} :
    intruder q (before ++ .run .operator w :: after) = intruder q before := by
  cases before with
  | nil =>
    unfold intruder
    split
    · rfl
    · rfl
  | cons b before =>
    unfold intruder
    split
    · rfl
    · rfl

theorem loneOperator_cons {q : Piece} {ps : List Piece} :
    LoneOperator (q :: ps) ↔ q = .run .operator (text "!") ∨ q = .run .operator (text "|") ∨
      intruder q ps = none ∧ LoneOperator ps := by
  constructor
  · rintro ⟨before, w, after, h, hw, hmis⟩
    cases before with
    | nil =>
      obtain ⟨rfl, rfl⟩ := List.cons.inj h
      rcases hw with rfl | rfl
      · exact .inl rfl
      · exact .inr (.inl rfl)
    | cons b before =>
      obtain ⟨rfl, rfl⟩ := List.cons.inj h
      rw [misnumbered_cons, not_or, Bool.not_eq_true, Option.isSome_eq_false_iff,
        Option.isNone_iff_eq_none] at hmis
      exact .inr (.inr ⟨intruder_before.trans hmis.1, before, w, after, rfl, hw, hmis.2⟩)
  · rintro (rfl | rfl | ⟨hnone, before, w, after, rfl, hw, hmis⟩)
    · exact ⟨[], _, ps, rfl, .inl rfl, by simp [Misnumbered]⟩
    · exact ⟨[], _, ps, rfl, .inr rfl, by simp [Misnumbered]⟩
    · refine ⟨q :: before, w, after, rfl, hw, ?_⟩
      rw [misnumbered_cons, not_or, ← intruder_before, hnone]
      exact ⟨by simp, hmis⟩

theorem readPieces_cons_abort {p : Position} {q : Piece} {ps : List Piece} :
    readPieces p (q :: ps) = .error .abort ↔ intruder q ps = none ∧
      (q.token p = .error .abort ∨
        (∃ t, q.token p = .ok t) ∧ readPieces (q.move p) ps = .error .abort) := by
  rw [readPieces]
  cases hintruder : intruder q ps with
  | some e =>
    have hne : e ≠ .abort := by
      unfold intruder at hintruder
      split at hintruder
      · obtain ⟨c, -, rfl⟩ := Option.map_eq_some_iff.mp hintruder
        simp
      · simp at hintruder
    simp [hne]
  | none =>
    cases htoken : q.token p with
    | error e => simp [bind, Except.bind]
    | ok t =>
      cases hrest : readPieces (q.move p) ps with
      | error e => simp [bind, Except.bind]
      | ok ts => simp [bind, Except.bind, pure, Except.pure]

/-- A piece of a text ends the program exactly when it is a lone `!` or `|`. -/
theorem Pieces.token_abort {code : Text} {q : Piece} {ps : List Piece} (h : Pieces code (q :: ps))
    (p : Position) : q.token p = .error .abort ↔
      q = .run .operator (text "!") ∨ q = .run .operator (text "|") := by
  cases h with
  | space _ _ => simp [Piece.token]
  | @symbol c _ _ hc _ =>
    obtain ⟨kind, hkind⟩ := Option.isSome_iff_exists.mp
      (symbolToken_symbols c (mem_symbols_of_class hc))
    simp [Piece.token, hkind]
  | string _ _ => simp [Piece.token]
  | unclosed _ => simp [Piece.token]
  | @run state c cs _ _ hstart _ _ _ =>
    have hword := CharClass.starts_word hstart
    cases state with
    | init => exact absurd rfl hword.1
    | string => exact absurd rfl hword.2
    | name => simp [Piece.token, runToken, Functor.map, Except.map]
    | number => simp [Piece.token, runToken, Functor.map, Except.map]
    | operator =>
      have hlone := @operatorToken_eq_none c cs (class_of_starts hstart)
      cases htoken : operatorToken (c :: cs) with
      | none =>
        have hw := hlone.mp htoken
        simpa [Piece.token, runToken, addOperator, htoken, Functor.map, Except.map] using hw
      | some kind =>
        have hw : ¬(c :: cs = text "!" ∨ c :: cs = text "|") := by
          rw [← hlone, htoken]
          simp
        simpa [Piece.token, runToken, addOperator, htoken, Functor.map, Except.map] using hw

/-- Only an open string, which is the last piece, ends with an exception of its own. -/
theorem Pieces.token_ok {code : Text} {q : Piece} {ps : List Piece} (h : Pieces code (q :: ps))
    (hps : ps ≠ []) {p : Position} (hne : q.token p ≠ .error .abort) : ∃ t, q.token p = .ok t := by
  unfold Piece.token at hne ⊢
  cases h with
  | space _ _ => exact ⟨_, rfl⟩
  | @symbol c _ _ _ _ =>
    cases hkind : symbolToken c with
    | none => simp [hkind] at hne
    | some kind => simp [hkind]
  | string _ _ => exact ⟨_, rfl⟩
  | unclosed _ => exact absurd rfl hps
  | @run state c cs _ _ hstart _ _ _ =>
    have hword := CharClass.starts_word hstart
    cases state with
    | init => exact absurd rfl hword.1
    | string => exact absurd rfl hword.2
    | name => exact ⟨_, rfl⟩
    | number => exact ⟨_, rfl⟩
    | operator =>
      cases hkind : operatorToken (c :: cs) with
      | none => simp [runToken, addOperator, hkind, Functor.map, Except.map] at hne
      | some kind => simp [runToken, addOperator, hkind, Functor.map, Except.map]

theorem Pieces.readPieces_abort {code : Text} {ps : List Piece} (h : Pieces code ps) (p : Position) :
    readPieces p ps = .error .abort ↔ LoneOperator ps := by
  induction ps generalizing code p with
  | nil => simp [readPieces, LoneOperator]
  | cons q ps ih =>
    obtain ⟨rest, hrest⟩ := h.tail
    rw [readPieces_cons_abort, loneOperator_cons, h.token_abort, ih hrest]
    constructor
    · rintro ⟨hnone, (rfl | rfl) | ⟨-, hlone⟩⟩
      · exact .inl rfl
      · exact .inr (.inl rfl)
      · exact .inr (.inr ⟨hnone, hlone⟩)
    · rintro (rfl | rfl | ⟨hnone, hlone⟩)
      · exact ⟨rfl, .inl (.inl rfl)⟩
      · exact ⟨rfl, .inl (.inr rfl)⟩
      · refine ⟨hnone, ?_⟩
        by_cases habort : q.token p = .error .abort
        · exact .inl (h.token_abort p |>.mp habort)
        · have hps : ps ≠ [] := by
            rintro rfl
            simp [LoneOperator] at hlone
          exact .inr ⟨h.token_ok hps habort, hlone⟩

/-- The tokenizer returns its tokens or throws. -/
def ReturnsOrThrows (code : Text) : Prop :=
  (∃ ts, tokenize code = .ok ts) ∨ ∃ e, e ≠ .abort ∧ tokenize code = .error e

/-- The tokenizer ends the program on a `!` or a `|` that is a run of its own, unless a letter
behind a number comes first. -/
theorem tokenize_returnsOrThrows_iff (code : Text) :
    ReturnsOrThrows code ↔ ¬∃ ps, Pieces code ps ∧ LoneOperator ps := by
  obtain ⟨ps, hps⟩ := exists_pieces code
  have habort : tokenize code = .error .abort ↔ LoneOperator ps := by
    rw [tokenize_pieces hps]
    exact hps.readPieces_abort ⟨1, 0⟩
  have hreturns : ReturnsOrThrows code ↔ tokenize code ≠ .error .abort := by
    unfold ReturnsOrThrows
    cases tokenize code with
    | ok ts => simp
    | error e => simp
  rw [hreturns]
  constructor
  · rintro hne ⟨qs, hqs, hlone⟩
    refine hne ?_
    rw [tokenize_pieces hqs]
    exact (hqs.readPieces_abort ⟨1, 0⟩).mpr hlone
  · intro hnone hab
    exact hnone ⟨ps, hps, habort.mp hab⟩

/-- One `!` is enough. -/
theorem exclamationMark_aborts : ¬ReturnsOrThrows (text "!") := by
  have haborts : tokenize (text "!") = .error .abort := rfl
  simp [ReturnsOrThrows, haborts]

def operatorPair (c d : UInt8) : Option TokenType :=
  (operatorTokenList.find? fun r => r.1 == [c, d]).map Prod.snd

/-- A run of operator characters by repeated longest match. No operator is longer than two
characters. -/
def splitOperators : Text → Option (List (TokenType × Text))
  | [] => some []
  | [c] => (symbolToken c).map fun kind => [(kind, [c])]
  | c :: d :: w =>
    match operatorPair c d with
    | some kind => (splitOperators w).map ((kind, [c, d]) :: ·)
    | none => (symbolToken c).bind fun kind => (splitOperators (d :: w)).map ((kind, [c]) :: ·)

/-- The tokens of a piece with its run split. -/
def Piece.split : Piece → Option (List (TokenType × Text))
  | .space _ => some []
  | .symbol c => (symbolToken c).map fun kind => [(kind, [c])]
  | .run .operator w => splitOperators w
  | .run .number w => some [(.number, w)]
  | .run _ w => some [(nameToken w 0 0).image]
  | .string body => some [(.stringLiteral, body)]
  | .unclosed _ => none

def splitPieces : List Piece → Option (List (TokenType × Text))
  | [] => some []
  | q :: ps => q.split.bind fun l => (splitPieces ps).map (l ++ ·)

/-- White space is written between two adjacent operators of a run. -/
def Respaced (ps ps' : List Piece) : Prop :=
  ∃ before u v c after l m, ps = before ++ .run .operator (u ++ v) :: after ∧
    ps' = before ++ .run .operator u :: .space c :: .run .operator v :: after ∧ u ≠ [] ∧ v ≠ [] ∧
    splitOperators u = some l ∧ splitOperators v = some m ∧ splitOperators (u ++ v) = some (l ++ m)

/-- The tokenizer returns the split of every run, with or without white space in it. -/
def TokenizesSplit (code : Text) (ps : List Piece) : Prop :=
  ∃ ts, tokenize code = .ok ts ∧ splitPieces ps = some (ts.map Token.image) ∧
    (∀ t ∈ ts, t.type ≠ .invalid) ∧
    ∀ code' ps', Pieces code' ps' → Respaced ps ps' →
      ∃ ts', tokenize code' = .ok ts' ∧ ts'.map Token.image = ts.map Token.image

/-- A string is closed, and a run of operator characters is a single operator. -/
def Piece.Whole : Piece → Prop
  | .run .operator w => ∃ kind, splitOperators w = some [(kind, w)]
  | .unclosed _ => False
  | _ => True

theorem splitOperators_flatten {w : Text} {l : List (TokenType × Text)}
    (h : splitOperators w = some l) : (l.map Prod.snd).flatten = w := by
  fun_induction splitOperators w generalizing l with
  | case1 =>
    obtain rfl := Option.some.inj h
    rfl
  | case2 c =>
    obtain ⟨kind, -, rfl⟩ := Option.map_eq_some_iff.mp h
    rfl
  | case3 c d w kind hpair ih =>
    obtain ⟨m, hm, rfl⟩ := Option.map_eq_some_iff.mp h
    simp [ih hm]
  | case4 c d w hpair ih =>
    obtain ⟨kind, -, hrest⟩ := Option.bind_eq_some_iff.mp h
    obtain ⟨m, hm, rfl⟩ := Option.map_eq_some_iff.mp hrest
    simp [ih hm]

theorem splitOperators_pos {w : Text} {l : List (TokenType × Text)} (h : splitOperators w = some l)
    (hw : w ≠ []) : 0 < l.length := by
  rw [List.length_pos_iff]
  rintro rfl
  exact hw (splitOperators_flatten h).symm

/-- A run that is split into one operator is that operator. -/
theorem splitOperators_single {w : Text} {l : List (TokenType × Text)} (h : splitOperators w = some l)
    (hl : l.length ≤ 1) (hw : w ≠ []) : ∃ kind, splitOperators w = some [(kind, w)] := by
  have hpos := splitOperators_pos h hw
  obtain ⟨x, rfl⟩ := List.length_eq_one_iff.mp (show l.length = 1 by omega)
  have hflat := splitOperators_flatten h
  simp only [List.map_cons, List.map_nil, List.flatten_cons, List.flatten_nil, List.append_nil] at hflat
  refine ⟨x.1, ?_⟩
  rw [h, ← hflat]

theorem operatorPair_eq {c d : UInt8} {kind : TokenType} (h : operatorPair c d = some kind) :
    operatorToken [c, d] = some kind := by
  obtain ⟨r, hr, rfl⟩ := Option.map_eq_some_iff.mp h
  simp only [operatorToken, hr]

/-- What is one operator for the split is one for the tokenizer. -/
theorem operatorToken_single {w : Text} {kind : TokenType}
    (h : splitOperators w = some [(kind, w)]) : operatorToken w = some kind := by
  unfold splitOperators at h
  split at h
  · simp at h
  · obtain ⟨k, hk, hkind⟩ := Option.map_eq_some_iff.mp h
    simp only [List.cons.injEq, Prod.mk.injEq, and_true] at hkind
    rw [← hkind]
    exact hk
  · rename_i c d w
    split at h
    · rename_i k hpair
      obtain ⟨m, hm, hkind⟩ := Option.map_eq_some_iff.mp h
      simp only [List.cons.injEq, Prod.mk.injEq] at hkind
      obtain ⟨⟨rfl, -, -, hw⟩, rfl⟩ := hkind
      rw [← hw]
      exact operatorPair_eq hpair
    · obtain ⟨k, -, hrest⟩ := Option.bind_eq_some_iff.mp h
      obtain ⟨m, -, hkind⟩ := Option.map_eq_some_iff.mp hrest
      simp at hkind

theorem symbolTable_valid : ∀ r ∈ symbolTable, r.2 ≠ .invalid := by
  decide

theorem operatorTokenList_valid : ∀ r ∈ operatorTokenList, r.2 ≠ .invalid := by
  decide

theorem reservedWords_valid : ∀ r ∈ reservedWords, r.2 ≠ .invalid := by
  decide

theorem symbolToken_valid {c : UInt8} {kind : TokenType} (h : symbolToken c = some kind) :
    kind ≠ .invalid := by
  obtain ⟨r, hr, rfl⟩ := Option.map_eq_some_iff.mp h
  exact symbolTable_valid r (List.mem_of_find?_eq_some hr)

theorem splitOperators_valid {w : Text} {l : List (TokenType × Text)} (h : splitOperators w = some l) :
    ∀ r ∈ l, r.1 ≠ .invalid := by
  fun_induction splitOperators w generalizing l with
  | case1 =>
    obtain rfl := Option.some.inj h
    simp
  | case2 c =>
    obtain ⟨kind, hkind, rfl⟩ := Option.map_eq_some_iff.mp h
    simpa using symbolToken_valid hkind
  | case3 c d w kind hpair ih =>
    obtain ⟨m, hm, rfl⟩ := Option.map_eq_some_iff.mp h
    obtain ⟨r, hr, rfl⟩ := Option.map_eq_some_iff.mp hpair
    rw [List.forall_mem_cons]
    exact ⟨operatorTokenList_valid r (List.mem_of_find?_eq_some hr), ih hm⟩
  | case4 c d w hpair ih =>
    obtain ⟨kind, hkind, hrest⟩ := Option.bind_eq_some_iff.mp h
    obtain ⟨m, hm, rfl⟩ := Option.map_eq_some_iff.mp hrest
    rw [List.forall_mem_cons]
    exact ⟨symbolToken_valid hkind, ih hm⟩

theorem image_nameToken (w : Text) (row col : Int) :
    (nameToken w row col).image = (nameToken w 0 0).image := by
  unfold nameToken
  split
  · rfl
  · rfl

theorem nameToken_valid (w : Text) (row col : Int) : (nameToken w row col).type ≠ .invalid := by
  unfold nameToken
  split
  · rename_i hreserved
    obtain ⟨r, hr, hw⟩ := List.any_eq_true.mp hreserved
    change asReserved w ≠ .invalid
    unfold asReserved
    split
    · rename_i q hq
      exact reservedWords_valid q (List.mem_of_find?_eq_some hq)
    · rename_i hnone
      exact absurd hw (List.find?_eq_none.mp hnone r hr)
  · simp

/-- A whole piece is read as it is split. -/
theorem Pieces.token_split {code : Text} {q : Piece} {ps : List Piece} (h : Pieces code (q :: ps))
    (hq : q.Whole) (p : Position) : ∃ t : Option Token, q.token p = .ok t ∧
      q.split = some (t.toList.map Token.image) ∧ ∀ u ∈ t, u.type ≠ .invalid := by
  cases h with
  | space _ _ => exact ⟨none, rfl, rfl, by simp⟩
  | @symbol c _ _ hc _ =>
    obtain ⟨kind, hkind⟩ := Option.isSome_iff_exists.mp
      (symbolToken_symbols c (mem_symbols_of_class hc))
    refine ⟨some ⟨kind, [c], p.row, p.col⟩, ?_, ?_, ?_⟩
    · simp [Piece.token, hkind]
    · simp [Piece.split, hkind, Token.image]
    · simpa using symbolToken_valid hkind
  | string _ _ => exact ⟨_, rfl, rfl, by simp⟩
  | unclosed _ => exact absurd hq id
  | @run state c cs _ _ hstart _ _ _ =>
    have hword := CharClass.starts_word hstart
    cases state with
    | init => exact absurd rfl hword.1
    | string => exact absurd rfl hword.2
    | number => exact ⟨_, rfl, rfl, by simp⟩
    | name =>
      refine ⟨_, rfl, ?_, ?_⟩
      · simp [Piece.split, image_nameToken]
      · simpa using nameToken_valid _ _ _
    | operator =>
      obtain ⟨kind, hkind⟩ := hq
      have hvalid := splitOperators_valid hkind
      refine ⟨some ⟨kind, c :: cs, p.row, p.col+letters (c :: cs)⟩, ?_, ?_, ?_⟩
      · simp only [Piece.token, runToken, addOperator, operatorToken_single hkind]
        rfl
      · simpa [Piece.split, Token.image] using hkind
      · simpa using hvalid

/-- A split has a token for each token that is read, and no more only if the piece is whole. -/
theorem Pieces.split_length {code : Text} {q : Piece} {ps : List Piece} (h : Pieces code (q :: ps))
    {p : Position} {t : Option Token} {l : List (TokenType × Text)} (ht : q.token p = .ok t)
    (hl : q.split = some l) :
    t.toList.length ≤ l.length ∧ (l.length ≤ t.toList.length → q.Whole) := by
  cases h with
  | space _ _ =>
    obtain rfl := Except.ok.inj ht
    exact ⟨by simp, fun _ => trivial⟩
  | @symbol c _ _ hc _ =>
    obtain ⟨kind, hkind, rfl⟩ := Option.map_eq_some_iff.mp hl
    refine ⟨?_, fun _ => trivial⟩
    cases t <;> simp
  | string _ _ =>
    obtain rfl := Option.some.inj hl
    refine ⟨?_, fun _ => trivial⟩
    cases t <;> simp
  | unclosed _ => simp [Piece.split] at hl
  | @run state c cs _ _ hstart _ _ _ =>
    have hword := CharClass.starts_word hstart
    cases state with
    | init => exact absurd rfl hword.1
    | string => exact absurd rfl hword.2
    | number =>
      obtain rfl := Option.some.inj hl
      refine ⟨?_, fun _ => trivial⟩
      cases t <;> simp
    | name =>
      obtain rfl := Option.some.inj hl
      refine ⟨?_, fun _ => trivial⟩
      cases t <;> simp
    | operator =>
      have hpos := splitOperators_pos hl (by simp)
      have htoken : t.toList.length ≤ 1 := by
        cases t <;> simp
      exact ⟨by omega, fun hle => splitOperators_single hl (by omega) (by simp)⟩

theorem not_misnumbered_cons {q : Piece} {ps : List Piece} :
    ¬Misnumbered (q :: ps) ↔ intruder q ps = none ∧ ¬Misnumbered ps := by
  rw [misnumbered_cons, not_or, Bool.not_eq_true, Option.isSome_eq_false_iff,
    Option.isNone_iff_eq_none]

theorem Pieces.reads_split {code : Text} {ps : List Piece} (h : Pieces code ps)
    (hmis : ¬Misnumbered ps) (hwhole : ∀ q ∈ ps, q.Whole) (p : Position) :
    ∃ ts, readPieces p ps = .ok ts ∧ splitPieces ps = some (ts.map Token.image) ∧
      ∀ t ∈ ts, t.type ≠ .invalid := by
  induction ps generalizing code p with
  | nil => exact ⟨[], rfl, rfl, by simp⟩
  | cons q ps ih =>
    obtain ⟨rest, hrest⟩ := h.tail
    rw [List.forall_mem_cons] at hwhole
    rw [not_misnumbered_cons] at hmis
    obtain ⟨t, ht, hsplit, hvalid⟩ := h.token_split hwhole.1 p
    obtain ⟨us, hus, hsplits, hvalids⟩ := ih hrest hmis.2 hwhole.2 (q.move p)
    refine ⟨t.toList ++ us, readPieces_cons_ok.mpr ⟨hmis.1, t, us, ht, hus, rfl⟩, ?_, ?_⟩
    · simp [splitPieces, hsplit, hsplits]
    · intro u hu
      rcases List.mem_append.mp hu with hu | hu
      · exact hvalid u (Option.mem_toList.mp hu)
      · exact hvalids u hu

theorem Pieces.whole_of_split {code : Text} {ps : List Piece} (h : Pieces code ps) {p : Position}
    {ts : List Token} {l : List (TokenType × Text)} (hts : readPieces p ps = .ok ts)
    (hl : splitPieces ps = some l) : ts.length ≤ l.length ∧
      (l.length ≤ ts.length → ¬Misnumbered ps ∧ ∀ q ∈ ps, q.Whole) := by
  induction ps generalizing code p ts l with
  | nil => 
    obtain rfl := Except.ok.inj hts
    exact ⟨by simp, fun _ => ⟨by simp [Misnumbered], by simp⟩⟩
  | cons q ps ih =>
    obtain ⟨rest, hrest⟩ := h.tail
    obtain ⟨hnone, t, us, ht, hus, rfl⟩ := readPieces_cons_ok.mp hts
    obtain ⟨m, hm, hl⟩ := Option.bind_eq_some_iff.mp hl
    obtain ⟨n, hn, rfl⟩ := Option.map_eq_some_iff.mp hl
    obtain ⟨hle, hwhole⟩ := h.split_length ht hm
    obtain ⟨hles, hwholes⟩ := ih hrest hus hn
    simp only [List.length_append]
    refine ⟨by omega, fun hlength => ?_⟩
    obtain ⟨hmis, hall⟩ := hwholes (by omega)
    rw [not_misnumbered_cons, List.forall_mem_cons]
    exact ⟨⟨hnone, hmis⟩, hwhole (by omega), hall⟩

/-- A single operator has no place for white space. -/
theorem Respaced.not_whole {ps ps' : List Piece} (h : Respaced ps ps') : ¬∀ q ∈ ps, q.Whole := by
  obtain ⟨before, u, v, c, after, l, m, rfl, -, hu, hv, hl, hm, hsplit⟩ := h
  intro hwhole
  obtain ⟨kind, hkind⟩ := hwhole (.run .operator (u ++ v)) (by simp)
  have hlength := congrArg List.length (Option.some.inj (hsplit.symm.trans hkind))
  have hlpos := splitOperators_pos hl hu
  have hmpos := splitOperators_pos hm hv
  simp only [List.length_append, List.length_singleton] at hlength
  omega

/-- The tokenizer returns the split of every run exactly when there is nothing to split, and
nothing to throw. -/
theorem tokenizesSplit_iff {code : Text} {ps : List Piece} (h : Pieces code ps) :
    TokenizesSplit code ps ↔ ¬Misnumbered ps ∧ ∀ q ∈ ps, q.Whole := by
  constructor
  · rintro ⟨ts, hts, hl, -, -⟩
    rw [tokenize_pieces h] at hts
    exact (h.whole_of_split hts hl).2 (by simp)
  · rintro ⟨hmis, hwhole⟩
    obtain ⟨ts, hts, hl, hvalid⟩ := h.reads_split hmis hwhole ⟨1, 0⟩
    refine ⟨ts, (tokenize_pieces h).trans hts, hl, hvalid, ?_⟩
    intro code' ps' _ hrespaced
    exact absurd hwhole hrespaced.not_whole

/-- A run that another character breaks off. -/
theorem Pieces.runBefore {state : LexerState} {c d : UInt8} {cs rest : Text} {ps : List Piece}
    (hc : (charClass c).starts = some state)
    (hcs : (cs.all fun e => (charClass e).continues state) = true)
    (hd : (charClass d).continues state = false) (h : Pieces (d :: rest) ps) :
    Pieces (c :: (cs ++ d :: rest)) (.run state (c :: cs) :: ps) :=
  .run hc (List.all_eq_true.mp hcs) (by simpa using hd) h

/-- `p <=x` -/
def spacedPieces : List Piece :=
  [.run .name [112], .space 32, .run .operator [60, 61], .run .name [120]]

theorem pieces_spaced : Pieces (text "p <=x") spacedPieces :=
  @Pieces.runBefore .name 112 32 [] _ _ rfl rfl rfl <| .space rfl <|
    @Pieces.runBefore .operator 60 120 [61] _ _ rfl rfl rfl <|
      @Pieces.run .name 120 [] [] _ rfl (by simp) (by simp) .nil

theorem tokenizesSplit_iff_spaced : TokenizesSplit (text "p <=x") spacedPieces ↔
    ¬Misnumbered spacedPieces ∧ ∀ q ∈ spacedPieces, q.Whole :=
  tokenizesSplit_iff pieces_spaced

/-- `let p=&x` -/
def adjacentPieces : List Piece :=
  [.run .name [108, 101, 116], .space 32, .run .name [112], .run .operator [61, 38],
    .run .name [120]]

/-- The run `=&` can be split, but the tokenizer looks it up as a whole. -/
theorem adjacentPieces_not_tokenizesSplit : Pieces (text "let p=&x") adjacentPieces ∧
    splitOperators [61, 38] = some [(.equal, [61]), (.and, [38])] ∧
    (tokenize (text "let p=&x")).map (List.map Token.image) =
      .ok [(.let, text "let"), (.identifier, text "p"), (.invalid, text "=&"),
        (.identifier, text "x")] ∧
    ¬TokenizesSplit (text "let p=&x") adjacentPieces := by
  have hpieces : Pieces (text "let p=&x") adjacentPieces :=
    @Pieces.runBefore .name 108 32 [101, 116] _ _ rfl rfl rfl <| .space rfl <|
      @Pieces.runBefore .name 112 61 [] _ _ rfl rfl rfl <|
        @Pieces.runBefore .operator 61 120 [38] _ _ rfl rfl rfl <|
          @Pieces.run .name 120 [] [] _ rfl (by simp) (by simp) .nil
  have htokens : (tokenize (text "let p=&x")).map (List.map Token.image) =
      .ok [(.let, text "let"), (.identifier, text "p"), (.invalid, text "=&"),
        (.identifier, text "x")] := rfl
  refine ⟨hpieces, rfl, htokens, ?_⟩
  rintro ⟨ts, hts, -, hvalid, -⟩
  rw [hts] at htokens
  have himages : ts.map Token.image = _ := Except.ok.inj htokens
  have hmem : (TokenType.invalid, text "=&") ∈ ts.map Token.image := by
    rw [himages]
    simp
  obtain ⟨t, ht, htype⟩ := List.mem_map.mp hmem
  exact hvalid t ht (congrArg Prod.fst htype)

end Reir
