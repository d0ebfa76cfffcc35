import Reir.SourcePieces

/-! The row of a token. The aggregate initialiser of an identifier has the column where the row
belongs, and a newline in a string literal is counted as a column and not as a row. -/
namespace Reir

theorem longest_prefix {α : Type} {p : α → Bool} {xs r : List α} (hxs : ∀ x ∈ xs, p x = true)
    (hr : ∀ x ∈ r.head?, p x = false) : (xs ++ r).takeWhile p = xs := by
  rw [List.takeWhile_append_of_pos hxs]
  cases r with
  | nil => simp
  | cons x r => simp [hr x rfl]

theorem longest_unique {α : Type} {p : α → Bool} {xs ys r r' : List α} (h : xs ++ r = ys ++ r')
    (hxs : ∀ x ∈ xs, p x = true) (hys : ∀ y ∈ ys, p y = true) (hr : ∀ x ∈ r.head?, p x = false)
    (hr' : ∀ x ∈ r'.head?, p x = false) : xs = ys ∧ r = r' := by
  have hsame : xs = ys := by rw [← longest_prefix hxs hr, h, longest_prefix hys hr']
  refine ⟨hsame, ?_⟩
  rw [hsame] at h
  exact List.append_cancel_left h

theorem mem_of_closed {body body' rest : Text} (h : body = body' ++ 34 :: rest) : 34 ∈ body := by
  rw [h]
  simp

theorem closed_unique {body body' rest rest' : Text} (h : body ++ 34 :: rest = body' ++ 34 :: rest')
    (hbody : 34 ∉ body) (hbody' : 34 ∉ body') : body = body' ∧ rest = rest' := by
  have hne {w : Text} (hw : 34 ∉ w) : ∀ x ∈ w, (x != 34) = true := by
    intro x hx
    rw [bne_iff_ne]
    rintro rfl
    exact hw hx
  obtain ⟨hsame, hrest⟩ := longest_unique h (hne hbody) (hne hbody') (by simp) (by simp)
  exact ⟨hsame, (List.cons.inj hrest).2⟩

theorem Pieces.unique {code : Text} {ps qs : List Piece} (h : Pieces code ps) (k : Pieces code qs) :
    ps = qs := by
  have hquote : charClass 34 = .quote := by decide
  induction h generalizing qs with
  | nil =>
    cases k
    rfl
  | space hc _ ih =>
    cases k with
    | space _ k => rw [ih k]
    | symbol hc' _ => simp [hc] at hc'
    | run hstart _ _ _ => simp [hc, CharClass.starts] at hstart
    | string _ _ => simp [hquote] at hc
    | unclosed _ => simp [hquote] at hc
  | symbol hc _ ih =>
    cases k with
    | space hc' _ => simp [hc] at hc'
    | symbol _ k => rw [ih k]
    | run hstart _ _ _ => simp [hc, CharClass.starts] at hstart
    | string _ _ => simp [hquote] at hc
    | unclosed _ => simp [hquote] at hc
  | @run state c cs rest ps hstart hcs hrest _ ih =>
    generalize hcode : c :: (cs ++ rest) = code at k
    cases k with
    | nil => simp at hcode
    | space hc _ =>
      obtain ⟨rfl, -⟩ := List.cons.inj hcode
      simp [hc, CharClass.starts] at hstart
    | symbol hc _ =>
      obtain ⟨rfl, -⟩ := List.cons.inj hcode
      simp [hc, CharClass.starts] at hstart
    | run hstart' hcs' hrest' k =>
      obtain ⟨rfl, hrests⟩ := List.cons.inj hcode
      obtain rfl := Option.some.inj (hstart.symm.trans hstart')
      obtain ⟨rfl, rfl⟩ := longest_unique hrests hcs hcs' hrest hrest'
      rw [ih k]
    | string _ _ =>
      obtain ⟨rfl, -⟩ := List.cons.inj hcode
      simp [hquote, CharClass.starts] at hstart
    | unclosed _ =>
      obtain ⟨rfl, -⟩ := List.cons.inj hcode
      simp [hquote, CharClass.starts] at hstart
  | @string body rest ps hbody _ ih =>
    generalize hcode : 34 :: (body ++ 34 :: rest) = code at k
    cases k with
    | nil => simp at hcode
    | space hc _ =>
      obtain ⟨rfl, -⟩ := List.cons.inj hcode
      simp [hquote] at hc
    | symbol hc _ =>
      obtain ⟨rfl, -⟩ := List.cons.inj hcode
      simp [hquote] at hc
    | run hstart _ _ _ =>
      obtain ⟨rfl, -⟩ := List.cons.inj hcode
      simp [hquote, CharClass.starts] at hstart
    | string hbody' k =>
      obtain ⟨rfl, rfl⟩ := closed_unique (List.cons.inj hcode).2 hbody hbody'
      rw [ih k]
    | unclosed hbody' => exact absurd (mem_of_closed (List.cons.inj hcode).2.symm) hbody'
  | @unclosed body hbody =>
    generalize hcode : 34 :: body = code at k
    cases k with
    | nil => simp at hcode
    | space hc _ =>
      obtain ⟨rfl, -⟩ := List.cons.inj hcode
      simp [hquote] at hc
    | symbol hc _ =>
      obtain ⟨rfl, -⟩ := List.cons.inj hcode
      simp [hquote] at hc
    | run hstart _ _ _ =>
      obtain ⟨rfl, -⟩ := List.cons.inj hcode
      simp [hquote, CharClass.starts] at hstart
    | string _ _ => exact absurd (mem_of_closed (List.cons.inj hcode).2) hbody
    | unclosed _ => rw [(List.cons.inj hcode).2]

def sourceOf (ps : List Piece) : Text := ps.flatMap Piece.source

theorem Pieces.eq_nil {ps : List Piece} (h : Pieces [] ps) : ps = [] := by
  cases h
  rfl

/-- The last pieces of a text may be exchanged for others that start in the same way. -/
theorem Pieces.exchange {code rest : Text} {before ps qs : List Piece} (h : Pieces code (before ++ ps))
    (k : Pieces rest qs) (hhead : ∀ c ∈ rest.head?, c ∈ (sourceOf ps).head?) :
    Pieces (sourceOf before ++ rest) (before ++ qs) := by
  induction before generalizing code with
  | nil => exact k
  | cons q before ih =>
    rw [List.cons_append] at h ⊢
    generalize htail : before ++ ps = tail at h
    cases h with
    | space hc h => exact .space hc (ih (htail ▸ h))
    | symbol hc h => exact .symbol hc (ih (htail ▸ h))
    | string hbody h =>
      have hnext := Pieces.string hbody (ih (htail ▸ h))
      simpa [sourceOf, Piece.source] using hnext
    | @run state c cs _ _ hstart hcs hrest h =>
      have hstop : ∀ d ∈ (sourceOf before ++ rest).head?, (charClass d).continues state = false := by
        intro d hd
        refine hrest d ?_
        rw [← h.source, ← htail, List.flatMap_append]
        change d ∈ (sourceOf before ++ sourceOf ps).head?
        cases hb : sourceOf before with
        | nil =>
          rw [hb] at hd
          exact hhead d hd
        | cons e es =>
          rw [hb] at hd
          exact hd
      have hnext := Pieces.run hstart hcs hstop (ih (htail ▸ h))
      simpa [sourceOf, Piece.source] using hnext
    | unclosed hbody =>
      obtain ⟨rfl, rfl⟩ := List.append_eq_nil_iff.mp htail
      cases rest with
      | nil =>
        rw [k.eq_nil]
        simpa [sourceOf, Piece.source] using Pieces.unclosed hbody
      | cons c rest => exact absurd (hhead c rfl) (by simp [sourceOf])

/-- The pieces of the last line. A newline in a string does not end a line. -/
def lastLine (ps : List Piece) : List Piece := ps.rtakeWhile fun q => q != .space 10

/-- The letters outside of strings and the characters of strings, with the closing quotes, in the
last line, and one less behind the first newline. -/
def column (ps : List Piece) : Int :=
  ((lastLine ps).map Piece.width).sum - (if .space 10 ∈ ps then 1 else 0)

/-- The counters of the lexer behind some pieces. -/
theorem foldl_move (ps : List Piece) :
    ps.foldl Piece.move ⟨1, 0⟩ = ⟨1+ps.count (.space 10), column ps⟩ := by
  induction ps using List.reverseRecOn with
  | nil => rfl
  | append_singleton ps q ih =>
    rw [List.foldl_append, ih, List.foldl_cons, List.foldl_nil]
    by_cases hq : q = .space 10
    · subst hq
      simp [Piece.move, column, lastLine, add_assoc]
    · have hmove (p : Position) : q.move p = ⟨p.row, p.col+q.width⟩ := by
        cases q with
        | space c =>
          have hc : c ≠ 10 := fun h => hq (congrArg Piece.space h)
          simp [Piece.move, Piece.width, hc]
        | _ => rfl
      have hne : ¬.space 10 = q := fun h => hq h.symm
      simp [hmove, column, lastLine, hq, hne]
      ring

/-- The opening quote of a string stands in front of its token. -/
def Piece.lead : Piece → ℕ
  | .string _ => 1
  | _ => 0

/-- The token of one of the pieces, with the offset of its text. -/
def TokenAt (ps : List Piece) (off : ℕ) (t : Token) : Prop :=
  ∃ before q after, ps = before ++ q :: after ∧ off = (sourceOf before).length+q.lead ∧
    q.token (before.foldl Piece.move ⟨1, 0⟩) = .ok (some t)

theorem Pieces.behind {code : Text} {before ps : List Piece} (h : Pieces code (before ++ ps)) :
    ∃ rest, code = sourceOf before ++ rest ∧ Pieces rest ps := by
  refine ⟨sourceOf ps, ?_, ?_⟩
  · rw [← h.source, List.flatMap_append]
    rfl
  · induction before generalizing code with
    | nil =>
      have hsource : sourceOf ps = code := h.source
      rwa [hsource]
    | cons q before ih =>
      obtain ⟨rest, hrest⟩ := h.tail
      exact ih hrest

theorem wordChar_of_starts {c : UInt8} {state : LexerState} (h : (charClass c).starts = some state) :
    WordChar c := by
  refine wordChar_of_class ?_ ?_
  · intro hc
    simp [hc, CharClass.starts] at h
  · intro hc
    simp [hc, CharClass.starts] at h

theorem wordChar_of_continues {c : UInt8} {state : LexerState}
    (h : (charClass c).continues state = true) : WordChar c := by
  refine wordChar_of_class ?_ ?_
  · intro hc
    cases state <;> simp [hc, CharClass.continues] at h
  · intro hc
    cases state <;> simp [hc, CharClass.continues] at h

theorem runToken_text {state : LexerState} {w : Text} {row col : Int} {t : Token}
    (h : runToken state w row col = .ok t) : t.text = w := by
  unfold runToken at h
  split at h
  · obtain rfl := Except.ok.inj h
    unfold nameToken
    split
    · rfl
    · rfl
  · obtain rfl := Except.ok.inj h
    rfl
  · unfold addOperator at h
    split at h
    · obtain rfl := Except.ok.inj h
      rfl
    · simp at h
  · simp at h

theorem token_symbol {c : UInt8} {p : Position} {t : Option Token}
    (h : (Piece.symbol c).token p = .ok t) :
    ∃ kind, symbolToken c = some kind ∧ t = some ⟨kind, [c], p.row, p.col⟩ := by
  rw [Piece.token] at h
  cases hkind : symbolToken c with
  | none => simp [hkind] at h
  | some kind =>
    rw [hkind] at h
    exact ⟨kind, rfl, (Except.ok.inj h).symm⟩

theorem token_run {state : LexerState} {w : Text} {p : Position} {t : Option Token}
    (h : (Piece.run state w).token p = .ok t) :
    ∃ u, runToken state w p.row (p.col+letters w) = .ok u ∧ t = some u := by
  rw [Piece.token] at h
  cases hrun : runToken state w p.row (p.col+letters w) with
  | error e =>
    rw [hrun] at h
    simp [Functor.map, Except.map] at h
  | ok u =>
    rw [hrun] at h
    exact ⟨u, rfl, (Except.ok.inj h).symm⟩

/-- The tokens so far, with the token of one more piece. -/
theorem slices_piece {code pre suffix : Text} {placed : List (ℕ × Token)} {q : Piece}
    {ps : List Piece} {p : Position} {t : Option Token} (hs : Slices code pre.length placed)
    (hcode : code = pre ++ suffix) (h : Pieces suffix (q :: ps)) (ht : q.token p = .ok t) :
    Slices code (pre.length+q.source.length)
      (placed ++ t.toList.map fun u => (pre.length+q.lead, u)) := by
  subst hcode
  cases h with
  | @space c rest _ hc _ =>
    obtain rfl := Except.ok.inj ht
    simpa [Piece.source] using hs.delimiter (c := c) (by simp) (mem_delimiters_of_class hc)
  | @symbol c rest _ hc _ =>
    obtain ⟨kind, -, rfl⟩ := token_symbol ht
    have hslice : slice (pre ++ ([c] ++ rest)) pre.length [c].length = [c] := slice_append pre [c] rest
    have hword : WordChar c := wordChar_of_class (by simp [hc]) (by simp [hc])
    refine hs.append le_rfl (by simp [Piece.source, Piece.lead]) (by simp [Piece.source, Piece.lead])
      hslice ?_ ?_
    · intro j hj hlt d _ hout
      simp only [Piece.source, Piece.lead, List.length_singleton] at hlt hout
      omega
    · intro _
      simpa using hword
  | @run state c cs rest _ hstart hcs _ _ =>
    obtain ⟨u, hu, rfl⟩ := token_run ht
    have htext := runToken_text hu
    have hslice := slice_append pre (c :: cs) rest
    refine hs.append le_rfl (by simp [Piece.source, Piece.lead]) ?_ ?_ ?_ ?_
    · rw [htext]
      rfl
    · rw [htext]
      exact hslice
    · intro j hj hlt d _ hout
      simp only [Piece.source, Piece.lead, htext] at hlt hout
      omega
    · intro _
      rw [htext, List.forall_mem_cons]
      exact ⟨by simp, wordChar_of_starts hstart, fun d hd => wordChar_of_continues (hcs d hd)⟩
  | @string body rest _ hbody _ =>
    obtain rfl := Except.ok.inj ht
    have hslice : slice (pre ++ 34 :: (body ++ 34 :: rest)) (pre.length+1) body.length = body := by
      simp [slice]
    refine hs.append (Nat.le_add_right _ _) (by simp [Piece.source, Piece.lead])
      (by simp [Piece.source, Piece.lead]; omega) hslice ?_ (fun hne => absurd rfl hne)
    intro j hj hlt d hd hout
    simp only [Piece.source, Piece.lead, List.length_cons, List.length_append,
      List.length_nil] at hlt hout
    have hends : j = pre.length ∨ j = pre.length+1+body.length := by omega
    rcases hends with rfl | rfl
    · have hquote : d = 34 := by simpa using hd.symm
      exact ⟨hquote, rfl, .inl rfl⟩
    · have hquote : d = 34 := by
        rw [List.getElem?_append_right (by omega), Nat.add_assoc, Nat.add_sub_cancel_left,
          Nat.add_comm 1, List.getElem?_cons_succ] at hd
        simpa using hd.symm
      exact ⟨hquote, rfl, .inr rfl⟩
  | unclosed _ => simp [Piece.token] at ht

theorem placed_of_pieces {code : Text} {before ps : List Piece} {ts : List Token}
    (h : Pieces code (before ++ ps)) (hts : readPieces (before.foldl Piece.move ⟨1, 0⟩) ps = .ok ts)
    {placed : List (ℕ × Token)} (hs : Slices code (sourceOf before).length placed) :
    ∃ more, more.map Prod.snd = ts ∧ Slices code code.length (placed ++ more) ∧
      ∀ r ∈ more, TokenAt (before ++ ps) r.1 r.2 := by
  induction ps generalizing before ts placed with
  | nil =>
    obtain rfl := Except.ok.inj hts
    rw [List.append_nil] at h
    have hsource : sourceOf before = code := h.source
    rw [hsource] at hs
    exact ⟨[], rfl, by simpa using hs, by simp⟩
  | cons q ps ih =>
    obtain ⟨-, t, us, ht, hus, rfl⟩ := readPieces_cons_ok.mp hts
    obtain ⟨suffix, hcode, hsuffix⟩ := h.behind
    have hnext := slices_piece hs hcode hsuffix ht
    have hsplit : before ++ q :: ps = (before ++ [q]) ++ ps := by simp
    have hlength : (sourceOf (before ++ [q])).length = (sourceOf before).length+q.source.length := by
      simp [sourceOf]
    rw [← hlength] at hnext
    rw [hsplit] at h ⊢
    obtain ⟨more, hmore, hslices, hat⟩ := ih h (by simpa using hus) hnext
    refine ⟨t.toList.map (fun u => ((sourceOf before).length+q.lead, u)) ++ more, ?_, ?_, ?_⟩
    · simp [hmore, Function.comp_def]
    · rwa [← List.append_assoc]
    · intro r hr
      rcases List.mem_append.mp hr with hr | hr
      · obtain ⟨u, hu, rfl⟩ := List.mem_map.mp hr
        rw [Option.mem_toList] at hu
        exact ⟨before, q, ps, by simp, rfl, hu ▸ ht⟩
      · exact hat r hr

def Piece.newlines : Piece → ℕ
  | .string body => body.count 10
  | _ => 0

/-- The newlines of the string literals. -/
def quotedNewlines (ps : List Piece) : ℕ := (ps.map Piece.newlines).sum

theorem quotedNewlines_cons (q : Piece) (ps : List Piece) :
    quotedNewlines (q :: ps) = q.newlines+quotedNewlines ps := by
  rw [quotedNewlines, List.map_cons, List.sum_cons, quotedNewlines]

theorem quotedNewlines_eq_zero {ps : List Piece} :
    quotedNewlines ps = 0 ↔ ∀ body, .string body ∈ ps → 10 ∉ body := by
  induction ps with
  | nil => simp [quotedNewlines]
  | cons q ps ih =>
    rw [quotedNewlines_cons, Nat.add_eq_zero_iff, ih]
    cases q with
    | string body => simp [Piece.newlines, List.count_eq_zero, forall_eq_or_imp]
    | _ => simp [Piece.newlines]

theorem ne_newline {c : UInt8} (h : charClass c ≠ .delimiter) : c ≠ 10 := by
  rintro rfl
  exact h (by decide)

theorem count_newline {w : Text} (h : ∀ c ∈ w, WordChar c) : w.count 10 = 0 := by
  rw [List.count_eq_zero]
  intro hmem
  exact absurd (h 10 hmem).1 (by decide)

/-- The newlines of a text stand between its words or in its strings. -/
theorem count_sourceOf {code : Text} {before after : List Piece} {q : Piece}
    (h : Pieces code (before ++ q :: after)) :
    (sourceOf before).count 10 = before.count (.space 10)+quotedNewlines before := by
  induction before generalizing code with
  | nil => rfl
  | cons r before ih =>
    have hsource : sourceOf (r :: before) = r.source ++ sourceOf before := rfl
    rw [List.cons_append] at h
    rw [hsource, List.count_append, List.count_cons, quotedNewlines_cons]
    generalize htail : before ++ q :: after = tail at h
    cases h with
    | @space c _ _ hc h =>
      rw [ih (htail ▸ h)]
      by_cases hnl : c = 10
      · subst hnl
        simp [Piece.source, Piece.newlines]
        omega
      · simp [Piece.source, Piece.newlines, hnl]
    | @symbol c _ _ hc h =>
      have hne : c ≠ 10 := ne_newline (by simp [hc])
      rw [ih (htail ▸ h)]
      simp [Piece.source, Piece.newlines, hne]
    | @run state c cs _ _ hstart hcs _ h =>
      have hchars : ∀ d ∈ c :: cs, WordChar d :=
        List.forall_mem_cons.mpr ⟨wordChar_of_starts hstart, fun d hd => wordChar_of_continues (hcs d hd)⟩
      rw [ih (htail ▸ h), Piece.source, count_newline hchars]
      simp [Piece.newlines]
    | @string body _ _ _ h =>
      rw [ih (htail ▸ h)]
      simp [Piece.source, Piece.newlines]
      omega
    | unclosed _ => simp at htail

/-- The text in front of a token, with its pieces. -/
theorem pieces_before {code : Text} {before after : List Piece} {q : Piece}
    (h : Pieces code (before ++ q :: after)) (hq : ∀ body, q ≠ .unclosed body) :
    ∃ qs, Pieces (code.take ((sourceOf before).length+q.lead)) qs ∧
      (code.take ((sourceOf before).length+q.lead)).count 10 = (sourceOf before).count 10 ∧
      quotedNewlines qs = quotedNewlines before ∧ (q.lead = 0 → qs = before) := by
  obtain ⟨suffix, rfl, hsuffix⟩ := h.behind
  cases q with
  | string body =>
    have hhead : suffix.head? = some 34 := by
      cases hsuffix
      rfl
    obtain ⟨rest, rfl⟩ : ∃ rest, suffix = 34 :: rest := by
      cases suffix with
      | nil => simp at hhead
      | cons c rest => exact ⟨rest, by simpa using hhead⟩
    have hopen : Pieces [34] [.unclosed []] := .unclosed (by simp)
    have htake : (sourceOf before ++ 34 :: rest).take ((sourceOf before).length+1) =
        sourceOf before ++ [34] := by
      rw [List.take_length_add_append]
      rfl
    refine ⟨before ++ [.unclosed []], ?_, ?_, ?_, ?_⟩
    · have hnext := h.exchange hopen (by simp [sourceOf, Piece.source])
      rwa [Piece.lead, htake]
    · simp [Piece.lead, htake]
    · simp [quotedNewlines, Piece.newlines]
    · simp [Piece.lead]
  | unclosed body => exact absurd rfl (hq body)
  | _ =>
    have hnext := h.exchange .nil (by simp)
    rw [List.append_nil, List.append_nil] at hnext
    exact ⟨before, by simpa [Piece.lead] using hnext, by simp [Piece.lead], rfl, fun _ => rfl⟩

theorem symbolTable_not_identifier : ∀ r ∈ symbolTable, r.2 ≠ .identifier := by
  decide

theorem operatorTokenList_not_identifier : ∀ r ∈ operatorTokenList, r.2 ≠ .identifier := by
  decide

theorem reservedWords_not_identifier : ∀ r ∈ reservedWords, r.2 ≠ .identifier := by
  decide

theorem symbolToken_ne_identifier {c : UInt8} {kind : TokenType} (h : symbolToken c = some kind) :
    kind ≠ .identifier := by
  obtain ⟨r, hr, rfl⟩ := Option.map_eq_some_iff.mp h
  exact symbolTable_not_identifier r (List.mem_of_find?_eq_some hr)

theorem operatorToken_ne_identifier {w : Text} {kind : TokenType} (h : operatorToken w = some kind) :
    kind ≠ .identifier := by
  unfold operatorToken at h
  split at h
  · exact symbolToken_ne_identifier h
  · split at h
    · rename_i r hr
      rw [← Option.some.inj h]
      exact operatorTokenList_not_identifier r (List.mem_of_find?_eq_some hr)
    · rw [← Option.some.inj h]
      simp

theorem asReserved_ne_identifier (w : Text) : asReserved w ≠ .identifier := by
  unfold asReserved
  split
  · rename_i r hr
    exact reservedWords_not_identifier r (List.mem_of_find?_eq_some hr)
  · simp

/-- An identifier has the column behind it for its row, every other token the counted row. -/
theorem token_row {q : Piece} {p : Position} {t : Token} (h : q.token p = .ok (some t)) :
    (t.type = .identifier ∧ t.row = p.col+letters t.text ∧ q.lead = 0) ∨
      (t.type ≠ .identifier ∧ t.row = p.row) := by
  cases q with
  | space c => simp [Piece.token] at h
  | symbol c =>
    obtain ⟨kind, hkind, ht⟩ := token_symbol h
    obtain rfl := Option.some.inj ht
    exact .inr ⟨symbolToken_ne_identifier hkind, rfl⟩
  | string body =>
    obtain rfl := Option.some.inj (Except.ok.inj h)
    exact .inr ⟨by simp, rfl⟩
  | unclosed body => simp [Piece.token] at h
  | run state w =>
    obtain ⟨u, hu, ht⟩ := token_run h
    obtain rfl := Option.some.inj ht
    unfold runToken at hu
    split at hu
    · obtain rfl := Except.ok.inj hu
      unfold nameToken
      split
      · exact .inr ⟨asReserved_ne_identifier w, rfl⟩
      · exact .inl ⟨rfl, rfl, rfl⟩
    · obtain rfl := Except.ok.inj hu
      exact .inr ⟨by simp, rfl⟩
    · unfold addOperator at hu
      split at hu
      · rename_i kind hkind
        obtain rfl := Except.ok.inj hu
        exact .inr ⟨operatorToken_ne_identifier hkind, rfl⟩
      · simp at hu
    · simp at hu

/-- What makes the row of a token right, given the text in front of it. -/
def RowCounted (text : Text) (t : Token) : Prop :=
  ∃ ps, Pieces text ps ∧
    if t.type = .identifier then column ps+letters t.text = 1+text.count 10
    else ∀ body, .string body ∈ ps → 10 ∉ body

theorem TokenAt.row_iff {code : Text} {ps : List Piece} {off : ℕ} {t : Token} (hps : Pieces code ps)
    (h : TokenAt ps off t) :
    t.row = 1+(code.take off).count 10 ↔ RowCounted (code.take off) t := by
  obtain ⟨before, q, after, rfl, rfl, ht⟩ := h
  have hq : ∀ body, q ≠ .unclosed body := by
    rintro body rfl
    simp [Piece.token] at ht
  obtain ⟨qs, hqs, hcount, hquoted, hsame⟩ := pieces_before hps hq
  have hrow := token_row ht
  rw [foldl_move] at hrow
  have hcounted : RowCounted (code.take ((sourceOf before).length+q.lead)) t ↔
      if t.type = .identifier then
        column qs+letters t.text = 1+(code.take ((sourceOf before).length+q.lead)).count 10
      else ∀ body, .string body ∈ qs → 10 ∉ body := by
    constructor
    · rintro ⟨ps, hps', hif⟩
      rwa [hqs.unique hps']
    · intro hif
      exact ⟨qs, hqs, hif⟩
  rw [hcounted]
  rcases hrow with ⟨htype, hrow, hlead⟩ | ⟨htype, hrow⟩
  · rw [if_pos htype, hrow, hsame hlead]
  · rw [if_neg htype, hrow, ← quotedNewlines_eq_zero, hquoted, hcount, count_sourceOf hps]
    simp only
    omega

theorem exists_placed {code : Text} {tokens : List Token} (h : tokenize code = .ok tokens) :
    ∃ ps, Pieces code ps ∧ ∃ placed : List (ℕ × Token), placed.map Prod.snd = tokens ∧
      Slices code code.length placed ∧ ∀ r ∈ placed, TokenAt ps r.1 r.2 := by
  obtain ⟨ps, hps⟩ := exists_pieces code
  rw [tokenize_pieces hps] at h
  have hstart : Slices code (sourceOf []).length [] := Slices.nil code
  obtain ⟨placed, hplaced, hslices, hat⟩ := @placed_of_pieces code [] ps tokens hps h [] hstart
  exact ⟨ps, hps, placed, hplaced, hslices, hat⟩

/-- Every token has an offset in the source at which its row is the line exactly when no string in
front of it contains a newline or, for an identifier, when the column is the line. -/
theorem tokenize_rows_iff {code : Text} {tokens : List Token} (h : tokenize code = .ok tokens) :
    ∃ placed : List (ℕ × Token), placed.map Prod.snd = tokens ∧ Slices code code.length placed ∧
      ∀ r ∈ placed, r.2.row = 1+(code.take r.1).count 10 ↔ RowCounted (code.take r.1) r.2 := by
  obtain ⟨ps, hps, placed, hplaced, hslices, hat⟩ := exists_placed h
  exact ⟨placed, hplaced, hslices, fun r hr => (hat r hr).row_iff hps⟩

theorem tokenize_rows_iff_let :
    ∃ placed : List (ℕ × Token),
      placed.map Prod.snd = [⟨.let, text "let", 1, 0⟩, ⟨.identifier, text "x", 4, 0⟩] ∧
      Slices (text "let x") 5 placed ∧
      ∀ r ∈ placed, r.2.row = 1+((text "let x").take r.1).count 10 ↔
        RowCounted ((text "let x").take r.1) r.2 :=
  tokenize_rows_iff rfl

/-- The identifier of the source `ab` has the row 2. -/
theorem identifierRow_not_line :
    ¬∀ code tokens, tokenize code = .ok tokens → ∀ placed : List (ℕ × Token),
      placed.map Prod.snd = tokens → Slices code code.length placed →
        ∀ r ∈ placed, 10 ∉ r.2.text → r.2.row = 1+(code.take r.1).count 10 := by
  intro hall
  have htokens : tokenize (text "ab") = .ok [⟨.identifier, text "ab", 2, 0⟩] := rfl
  obtain ⟨ps, -, placed, hplaced, hslices, -⟩ := exists_placed htokens
  obtain ⟨r, rfl, hr⟩ := List.map_eq_singleton_iff.mp hplaced
  have hrow := hall _ _ htokens [r] hplaced hslices r (by simp) (by rw [hr]; decide)
  have hcount : ((text "ab").take r.1).count 10 = 0 := by
    rw [List.count_eq_zero]
    intro hmem
    have hin : (10 : UInt8) ∈ text "ab" := List.mem_of_mem_take hmem
    exact absurd hin (by decide)
  rw [hr, hcount] at hrow
  simp at hrow

end Reir
