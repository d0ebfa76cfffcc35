import Reir.Parser

/-! Progress of the parser. With fuel proportional to the remaining tokens no function
runs out of fuel or steps past the end, and what it returns leaves fewer tokens. One joint
induction on the fuel covers the mutually recursive constructors. -/
namespace Reir
open StreamParser

variable {α β : Type} {ts : List Token}

theorem ensures_getToken {Q : Token → List Token → Prop} :
    (getToken.run ts).Ensures Q ↔ ∀ t r, ts = t :: r → Q t ts := ensures_get

theorem ensures_expectToken {t : Token} {k : TokenType} {Q : Unit → List Token → Prop} :
    ((expectToken t k).run ts).Ensures Q ↔ (t.type = k → Q () ts) := by
  unfold expectToken
  split_ifs with h
  · simp [h]
  · simp [h]

theorem ensures_expect {k : TokenType} {Q : Unit → List Token → Prop} :
    ((expect k).run ts).Ensures Q ↔ ∀ t r, ts = t :: r → t.type = k → Q () ts := by
  simp only [expect, ensures_bind, ensures_getToken, ensures_expectToken]

theorem ensures_skip {k : TokenType} {Q : Unit → List Token → Prop} :
    ((skip k).run ts).Ensures Q ↔ ∀ t r, ts = t :: r → t.type = k → Q () r := by
  simp only [skip, ensures_bind, ensures_expect, ensures_next]
  constructor
  · intro h t r hts hk
    obtain ⟨t', r', he, hq⟩ := h t r hts hk
    rw [hts] at he
    rw [(List.cons.inj he).2]
    exact hq
  · intro h t r hts hk
    exact ⟨t, r, hts, h t r hts hk⟩

theorem ensures_takeText {Q : Text → List Token → Prop} :
    (takeText.run ts).Ensures Q ↔ ∀ t r, ts = t :: r → Q t.text r := by
  simp only [takeText, ensures_bind, ensures_getToken, ensures_next, ensures_pure]
  constructor
  · intro h t r hts
    obtain ⟨t', r', he, hq⟩ := h t r hts
    rw [hts] at he
    rw [(List.cons.inj he).2]
    exact hq
  · intro h t r hts
    exact ⟨t, r, hts, h t r hts⟩

theorem ensures_takeIdentifier {Q : Text → List Token → Prop} :
    (takeIdentifier.run ts).Ensures Q ↔
      ∀ t r, ts = t :: r → t.type = .identifier → Q t.text r := by
  simp only [takeIdentifier, ensures_bind, ensures_expect, ensures_takeText]
  constructor
  · intro h t r hts hk
    exact h t r hts hk t r hts
  · intro h t r hts hk t' r' hts'
    rw [hts] at hts'
    obtain ⟨rfl, rfl⟩ := List.cons.inj hts'
    exact h _ _ hts hk

theorem ensures_readNumber {t : Text} {Q : Int → List Token → Prop} :
    ((readNumber t).run ts).Ensures Q ↔ ∀ n, stoi t = .ok n → Q n ts := by
  unfold readNumber
  cases h : stoi t with
  | ok n => simp
  | error e => simp

theorem ensures_map {p : ParserM α} {f : α → β} {Q : β → List Token → Prop} :
    ((f <$> p).run ts).Ensures Q ↔ (p.run ts).Ensures (fun a r => Q (f a) r) := by
  change ((p >>= fun a => pure (f a)).run ts).Ensures Q ↔ _
  rw [ensures_bind]
  rfl

/-- At least one token is consumed. -/
def Shorter (ts : List Token) (_ : α) (r : List Token) : Prop := r.length < ts.length

/-- The position does not move back. -/
def NotLonger (ts : List Token) (_ : α) (r : List Token) : Prop := r.length ≤ ts.length

theorem primaryExpression_progress : (primaryExpression.run ts).Ensures (Shorter ts) := by
  simp only [primaryExpression, ensures_bind, ensures_getToken]
  rintro t r rfl
  split
  · simp [ensures_bind, ensures_readNumber, ensures_next, Shorter]
  · simp [Shorter]
  · simp

theorem variableReference_progress : (variableReference.run ts).Ensures (Shorter ts) := by
  simp only [variableReference, ensures_bind, ensures_takeIdentifier, ensures_pure]
  rintro t r rfl _
  simp [Shorter]

theorem memberReference_progress (e : Expression) :
    ((memberReference e).run ts).Ensures (Shorter ts) := by
  simp only [memberReference, ensures_bind, ensures_skip, ensures_takeText, ensures_pure]
  rintro t r rfl _ t' r' rfl
  simp [Shorter]

/-- The fuel each expression parser needs on `ts`, and what it consumes. -/
structure ExprProgress (n : ℕ) : Prop where
  expr : ∀ ts, 4*ts.length+3 ≤ n → ((parseExpr n).run ts).Ensures (Shorter ts)
  tail : ∀ e ts, 4*ts.length+3 ≤ n → ((parseExprPostfix n e).run ts).Ensures (NotLonger ts)
  elements : ∀ k ts, 4*ts.length+4 ≤ n → ((parseElements n k).run ts).Ensures (NotLonger ts)
  call : ∀ e ts, 4*ts.length+1 ≤ n → ((functionCall n e).run ts).Ensures (Shorter ts)
  row : ∀ ts, 4*ts.length+1 ≤ n → ((rowLiteral n).run ts).Ensures (Shorter ts)
  array : ∀ ts, 4*ts.length+1 ≤ n → ((arrayLiteral n).run ts).Ensures (Shorter ts)
  index : ∀ e ts, 4*ts.length+1 ≤ n → ((arrayReference n e).run ts).Ensures (Shorter ts)
  assign : ∀ e ts, 4*ts.length+1 ≤ n → ((assign n e).run ts).Ensures (Shorter ts)

/-- A bracketed list of expressions between two checked tokens. -/
theorem delimited_progress {n : ℕ} (ih : ExprProgress n) (opening closing kind : TokenType)
    (f : List Expression → Expression) {ts : List Token} (hn : 4*ts.length ≤ n) :
    ((do skip opening; let es ← parseElements n kind; skip closing; pure (f es) :
      ParserM Expression).run ts).Ensures (Shorter ts) := by
  simp only [ensures_bind, ensures_skip, ensures_pure]
  rintro t r rfl _
  apply (ih.elements kind r (by simp at hn; omega)).mono
  rintro es r' hr t' r'' rfl _
  simp only [NotLonger, Shorter, List.length_cons] at hr ⊢
  omega

theorem parseOperand_progress {n : ℕ} (ih : ExprProgress n) (t : Token) (r : List Token)
    (hn : 4*r.length+6 ≤ n) :
    ((parseOperand (parseExpr n) (rowLiteral n) (arrayLiteral n) t).run (t :: r)).Ensures
      (Shorter (t :: r)) := by
  have hexpr := ih.expr r (by omega)
  have hlen : 4*(t :: r).length+1 ≤ n := by simp; omega
  unfold parseOperand
  split
  · simp only [ensures_bind, ensures_next, ensures_pure]
    refine ⟨t, r, rfl, hexpr.mono ?_⟩
    intro e r' hr
    simp only [Shorter, List.length_cons] at hr ⊢
    omega
  · exact ih.row _ hlen
  · simp only [ensures_bind, ensures_next, ensures_skip, ensures_pure]
    refine ⟨t, r, rfl, hexpr.mono ?_⟩
    rintro e r' hr t' r'' rfl _
    simp only [Shorter, List.length_cons] at hr ⊢
    omega
  · exact ih.array _ hlen
  · exact variableReference_progress
  · exact primaryExpression_progress
  · exact primaryExpression_progress
  · simp

theorem parseExpr_progress_step {n : ℕ} (ih : ExprProgress n) (ts : List Token)
    (hn : 4*ts.length+3 ≤ n+1) : ((parseExpr (n+1)).run ts).Ensures (Shorter ts) := by
  simp only [parseExpr, ensures_bind, ensures_getToken]
  rintro t r rfl
  apply (parseOperand_progress ih t r (by simp at hn; omega)).mono
  intro e r' hr
  rw [ensures_hasNext]
  split_ifs
  · apply (ih.tail e r' (by simp only [Shorter, List.length_cons] at hr hn; omega)).mono
    intro e' r'' hr'
    simp only [Shorter, NotLonger] at hr hr' ⊢
    omega
  · exact hr

theorem parseExprPostfix_progress_step {n : ℕ} (ih : ExprProgress n) (e : Expression)
    (ts : List Token) (hn : 4*ts.length+3 ≤ n+1) :
    ((parseExprPostfix (n+1) e).run ts).Ensures (NotLonger ts) := by
  have hmore : ∀ (p : ParserM Expression), (p.run ts).Ensures (Shorter ts) →
      ((p >>= parseExprPostfix n).run ts).Ensures (NotLonger ts) := by
    intro p hp
    rw [ensures_bind]
    apply hp.mono
    intro e' r hr
    apply (ih.tail e' r (by simp only [Shorter] at hr; omega)).mono
    intro e'' r' hr'
    simp only [Shorter, NotLonger] at hr hr' ⊢
    omega
  rw [parseExprPostfix, ensures_bind, ensures_hasNext]
  split_ifs with h
  · rw [ensures_bind, ensures_getToken]
    rintro t r rfl
    have hlen : 4*(t :: r).length+1 ≤ n := by omega
    split
    · exact hmore _ (ih.call e _ hlen)
    · exact hmore _ (ih.index _ _ hlen)
    · exact hmore _ (memberReference_progress e)
    · exact hmore _ (ih.assign e _ hlen)
    · split
      · simp only [ensures_bind, ensures_next, ensures_pure]
        refine ⟨t, r, rfl, (ih.expr r (by simp at hn; omega)).mono ?_⟩
        intro e' r' hr
        simp only [Shorter, NotLonger, List.length_cons] at hr ⊢
        omega
      · simp [NotLonger]
  · simp [NotLonger]

theorem parseElements_progress_step {n : ℕ} (ih : ExprProgress n) (k : TokenType)
    (ts : List Token) (hn : 4*ts.length+4 ≤ n+1) :
    ((parseElements (n+1) k).run ts).Ensures (NotLonger ts) := by
  rw [parseElements, ensures_bind, ensures_getToken]
  intro t r hts
  split_ifs
  · simp [NotLonger]
  · rw [ensures_bind]
    apply (ih.expr ts (by omega)).mono
    intro e r' hr
    rw [ensures_bind, ensures_getToken]
    rintro t' r'' rfl
    simp only [Shorter, List.length_cons] at hr
    split_ifs
    · simp only [ensures_pure, NotLonger, List.length_cons]
      omega
    · simp only [ensures_bind, ensures_expectToken, ensures_next, ensures_pure]
      intro _
      refine ⟨t', r'', rfl, (ih.elements k r'' (by omega)).mono ?_⟩
      intro es s hs
      simp only [NotLonger] at hs ⊢
      omega

theorem exprProgress (n : ℕ) : ExprProgress n := by
  induction n with
  | zero =>
    constructor <;> intros <;> omega
  | succ n ih =>
    refine ⟨parseExpr_progress_step ih, parseExprPostfix_progress_step ih,
      parseElements_progress_step ih, ?_, ?_, ?_, ?_, ?_⟩
    · intro e ts hn
      exact delimited_progress ih .openParen .closeParen .closeParen _ (by omega)
    · intro ts hn
      exact delimited_progress ih .openBrace .closeBrace .closeBrace _ (by omega)
    · intro ts hn
      exact delimited_progress ih .openBracket .closeBracket .closeBracket _ (by omega)
    · intro e ts hn
      simp only [arrayReference, ensures_bind, ensures_skip, ensures_pure]
      rintro t r rfl _
      apply (ih.expr r (by simp at hn; omega)).mono
      rintro i r' hr t' r'' rfl _
      simp only [Shorter, List.length_cons] at hr ⊢
      omega
    · intro e ts hn
      simp only [Reir.assign, ensures_bind, ensures_skip, ensures_pure]
      rintro t r rfl _
      apply (ih.expr r (by simp at hn; omega)).mono
      intro v r' hr
      simp only [Shorter, List.length_cons] at hr ⊢
      omega

theorem parseProps_progress (n prop : ℕ) (ts : List Token) (hn : ts.length+1 ≤ n) :
    ((parseProps n prop).run ts).Ensures (NotLonger ts) := by
  induction n generalizing prop ts with
  | zero => omega
  | succ n ih =>
    rw [parseProps, ensures_bind, ensures_getToken]
    rintro t r rfl
    split_ifs
    · split
      · simp only [ensures_bind, ensures_next]
        refine ⟨t, r, rfl, (ih _ r (by simp at hn; omega)).mono ?_⟩
        intro p r' hr
        simp only [NotLonger, List.length_cons] at hr ⊢
        omega
      · simp
    · simp [NotLonger]

theorem parseParam_progress : (parseParam.run ts).Ensures (NotLonger ts) := by
  rw [parseParam, ensures_bind, ensures_getToken]
  rintro t r rfl
  split_ifs
  · simp only [ensures_bind, ensures_next, ensures_expect, ensures_getToken, ensures_readNumber,
      ensures_skip, ensures_pure]
    refine ⟨t, r, rfl, ?_⟩
    rintro t₁ r₁ rfl _ t₂ r₂ h₂ n _
    refine ⟨t₁, r₁, rfl, ?_⟩
    rintro t₃ r₃ rfl _
    simp only [NotLonger, List.length_cons]
    omega
  · simp [NotLonger]

theorem parseColumn_progress (n : ℕ) (ts : List Token) (hn : ts.length ≤ n) :
    ((parseColumn n).run ts).Ensures (Shorter ts) := by
  simp only [parseColumn, ensures_bind, ensures_takeText]
  rintro t r rfl
  apply parseParam_progress.mono
  rintro param r₁ h₁
  simp only [ensures_skip, ensures_takeIdentifier, ensures_pure]
  rintro t₂ r₂ rfl _ t₃ r₃ rfl _
  simp only [NotLonger, List.length_cons] at h₁ hn
  apply (parseProps_progress n 0 r₃ (by omega)).mono
  intro prop r₄ h₄
  simp only [NotLonger, Shorter, List.length_cons] at h₄ ⊢
  omega

theorem parseColumns_progress (n : ℕ) (ts : List Token) (hn : ts.length+1 ≤ n) :
    ((parseColumns n).run ts).Ensures (Shorter ts) := by
  induction n generalizing ts with
  | zero => omega
  | succ n ih =>
    rw [parseColumns, ensures_bind]
    apply (parseColumn_progress n ts (by omega)).mono
    intro c r hr
    rw [ensures_bind, ensures_getToken]
    rintro t r₁ rfl
    split_ifs
    · simp only [ensures_bind, ensures_skip, ensures_pure]
      rintro t₂ r₂ h₂ _
      obtain ⟨rfl, rfl⟩ := List.cons.inj h₂
      simp only [Shorter, List.length_cons] at hr
      apply (ih r₁ (by omega)).mono
      intro cs r₃ h₃
      simp only [Shorter] at h₃ ⊢
      omega
    · exact hr

theorem tupleType_progress (n : ℕ) (ts : List Token) (hn : ts.length ≤ n) :
    ((tupleType n).run ts).Ensures (Shorter ts) := by
  simp only [tupleType, ensures_bind, ensures_skip, ensures_pure]
  rintro t r rfl _
  simp only [List.length_cons] at hn
  apply (parseColumns_progress n r hn).mono
  rintro cs r₁ h₁ t₂ r₂ rfl _
  simp only [Shorter, List.length_cons] at h₁ ⊢
  omega

theorem primaryType_progress : (primaryType.run ts).Ensures (Shorter ts) := by
  simp only [primaryType, ensures_bind, ensures_expect, ensures_getToken]
  rintro t r rfl _ t₂ r₂ _
  split
  · simp [Shorter]
  · simp

theorem parseType_progress (n : ℕ) (ts : List Token) (hn : ts.length+1 ≤ n) :
    ((parseType n).run ts).Ensures (Shorter ts) := by
  induction n generalizing ts with
  | zero => omega
  | succ n ih =>
    rw [parseType, ensures_bind, ensures_getToken]
    rintro t r rfl
    simp only [List.length_cons] at hn
    split
    · simp only [ensures_bind, ensures_skip, ensures_pure]
      rintro t₁ r₁ h₁ _
      obtain ⟨rfl, rfl⟩ := List.cons.inj h₁
      apply (ih r (by omega)).mono
      rintro inner r₂ h₂ t₃ r₃ rfl _
      simp only [Shorter, List.length_cons] at h₂ ⊢
      omega
    · exact tupleType_progress n _ (by simp; omega)
    · exact primaryType_progress

theorem parseRowType_progress (n : ℕ) (ts : List Token) (hn : ts.length ≤ n) :
    ((parseRowType n).run ts).Ensures (Shorter ts) := by
  simp only [parseRowType, ensures_bind, ensures_skip, ensures_pure]
  rintro t r rfl _
  simp only [List.length_cons] at hn
  apply (parseType_progress n r hn).mono
  rintro inner r₁ h₁ t₂ r₂ rfl _
  simp only [Shorter, List.length_cons] at h₁ ⊢
  omega

theorem parseIsolation_progress : (parseIsolation.run ts).Ensures (NotLonger ts) := by
  rw [parseIsolation, ensures_bind, ensures_getToken]
  rintro t r rfl
  split_ifs
  · simp [NotLonger]
  · rw [ensures_takeText]
    rintro t₁ r₁ h₁
    obtain ⟨rfl, rfl⟩ := List.cons.inj h₁
    simp [NotLonger]

theorem parseExpr_progress {n : ℕ} (hn : 4*ts.length+3 ≤ n) :
    ((parseExpr n).run ts).Ensures (Shorter ts) := (exprProgress n).expr ts hn

/-- A keyword that has been checked and skipped, before the rest of a statement. -/
theorem keyword_progress {k : TokenType} {p : ParserM α} {ts : List Token}
    (h : ∀ t r, ts = t :: r → (p.run r).Ensures (NotLonger r)) :
    ((skip k >>= fun _ => p).run ts).Ensures (Shorter ts) := by
  simp only [ensures_bind, ensures_skip]
  rintro t r rfl _
  apply (h t r rfl).mono
  intro a r' hr
  simp only [NotLonger, Shorter, List.length_cons] at hr ⊢
  omega

theorem parseDeclaredType_progress (n : ℕ) (ts : List Token) (hn : ts.length ≤ n) :
    ((parseDeclaredType n).run ts).Ensures (NotLonger ts) := by
  rw [parseDeclaredType, ensures_bind, ensures_getToken]
  intro t r _
  split_ifs
  · rw [ensures_map]
    apply (parseRowType_progress n ts hn).mono
    intro type r' hr
    exact le_of_lt hr
  · simp [NotLonger]

theorem parseLet_progress (n : ℕ) (ts : List Token) (hn : 4*ts.length ≤ n) :
    ((parseLet n).run ts).Ensures (Shorter ts) := by
  apply keyword_progress
  rintro t r rfl
  simp only [List.length_cons] at hn
  rw [ensures_bind]
  apply (parseDeclaredType_progress n r (by omega)).mono
  intro type r₂ h₂
  simp only [ensures_bind, ensures_takeIdentifier, ensures_skip, ensures_pure]
  rintro t₃ r₃ rfl _ t₄ r₄ rfl _
  simp only [NotLonger, List.length_cons] at h₂
  apply (parseExpr_progress (by omega)).mono
  intro e r₅ h₅
  simp only [Shorter, NotLonger] at h₅ ⊢
  omega

theorem parseDefineTuple_progress (n : ℕ) (ts : List Token) (hn : 4*ts.length ≤ n) :
    ((parseDefineTuple n).run ts).Ensures (Shorter ts) := by
  apply keyword_progress
  rintro t r rfl
  simp only [List.length_cons] at hn
  simp only [ensures_bind, ensures_takeIdentifier]
  rintro t₁ r₁ rfl _
  simp only [List.length_cons] at hn
  apply (parseType_progress n r₁ (by omega)).mono
  intro type r₂ h₂
  split_ifs
  · simp only [ensures_pure, Shorter, NotLonger, List.length_cons] at h₂ ⊢
    omega
  · simp

theorem parseDefine_progress (n : ℕ) (ts : List Token) (hn : 4*ts.length ≤ n) :
    ((parseDefine n).run ts).Ensures (Shorter ts) := by
  apply keyword_progress
  rintro t r rfl
  simp only [List.length_cons] at hn
  simp only [ensures_bind]
  apply (parseRowType_progress n r (by omega)).mono
  intro type r₁ h₁
  simp only [ensures_takeIdentifier, ensures_pure]
  rintro t₂ r₂ rfl _
  simp only [Shorter, NotLonger, List.length_cons] at h₁ ⊢
  omega

theorem parseEmit_progress (n : ℕ) (ts : List Token) (hn : 4*ts.length ≤ n) :
    ((parseEmit n).run ts).Ensures (Shorter ts) := by
  apply keyword_progress
  rintro t r rfl
  simp only [List.length_cons] at hn
  simp only [ensures_bind, ensures_pure]
  exact (parseExpr_progress (by omega)).mono fun _ _ h => le_of_lt h

theorem parseInsert_progress (n : ℕ) (ts : List Token) (hn : 4*ts.length ≤ n) :
    ((parseInsert n).run ts).Ensures (Shorter ts) := by
  apply keyword_progress
  rintro t r rfl
  simp only [List.length_cons] at hn
  simp only [ensures_bind, ensures_takeIdentifier, ensures_expect, ensures_pure]
  rintro t₁ r₁ rfl _ t₂ r₂ rfl _
  simp only [List.length_cons] at hn
  apply (parseExpr_progress (by simp; omega)).mono
  intro e r₃ h₃
  simp only [Shorter, NotLonger, List.length_cons] at h₃ ⊢
  omega

theorem parseExprStatement_progress (n : ℕ) (ts : List Token) (hn : 4*ts.length+3 ≤ n) :
    ((parseExprStatement n).run ts).Ensures (Shorter ts) := by
  simp only [parseExprStatement, ensures_bind, ensures_pure]
  exact parseExpr_progress hn

theorem parseHeaderPart_progress {p : ParserM α} (hp : (p.run ts).Ensures (Shorter ts)) :
    ((parseHeaderPart p).run ts).Ensures (NotLonger ts) := by
  rw [parseHeaderPart, ensures_bind, ensures_getToken]
  intro t r _
  split_ifs
  · simp [NotLonger]
  · rw [ensures_map]
    exact hp.mono fun _ _ h => le_of_lt h

/-- A closing brace is next. -/
def AtClose : List Token → Prop
  | [] => False
  | t :: _ => t.type = .closeBrace

/-- What `parse_statement` returns: the null pointer with nothing consumed exactly at a
closing brace, and otherwise a statement of at least one token. -/
def StatementStep (ts : List Token) (s : Option Statement) (r : List Token) : Prop :=
  (s = none ∧ AtClose ts ∧ r = ts) ∨ (∃ s', s = some s') ∧ ¬AtClose ts ∧ r.length < ts.length

theorem StatementStep.notLonger {s : Option Statement} {r : List Token}
    (h : StatementStep ts s r) : r.length ≤ ts.length := by
  rcases h with ⟨_, _, rfl⟩ | ⟨_, _, h⟩
  · exact le_rfl
  · exact le_of_lt h

theorem parseInitPart_progress {p : ParserM (Option Statement)}
    (hp : (p.run ts).Ensures (StatementStep ts)) :
    ((parseInitPart p).run ts).Ensures (NotLonger ts) := by
  rw [parseInitPart, ensures_bind, ensures_getToken]
  intro t r _
  split_ifs
  · simp [NotLonger]
  · rw [ensures_bind]
    apply hp.mono
    intro s r' hr
    split
    · exact hr.notLonger
    · exact hr.notLonger

structure StatementProgress (n : ℕ) : Prop where
  statement : ∀ ts, 4*ts.length+4 ≤ n → ((parseStatement n).run ts).Ensures (StatementStep ts)
  items : ∀ ts, 4*ts.length+5 ≤ n → ((parseItems n).run ts).Ensures (NotLonger ts)
  block : ∀ ts, 4*ts.length+2 ≤ n → ((parseBlock n).run ts).Ensures (Shorter ts)
  transaction : ∀ ts, 4*ts.length+1 ≤ n → ((parseTransaction n).run ts).Ensures (Shorter ts)
  ifStmt : ∀ ts, 4*ts.length+1 ≤ n → ((parseIf n).run ts).Ensures (Shorter ts)
  forStmt : ∀ ts, 4*ts.length+1 ≤ n → ((parseFor n).run ts).Ensures (Shorter ts)
  scan : ∀ ts, 4*ts.length+1 ≤ n → ((parseScan n).run ts).Ensures (Shorter ts)

theorem parseStatement_progress_step {n : ℕ} (ih : StatementProgress n) (ts : List Token)
    (hn : 4*ts.length+4 ≤ n+1) :
    ((parseStatement (n+1)).run ts).Ensures (StatementStep ts) := by
  have hsome : ∀ (p : ParserM Statement), ¬AtClose ts → (p.run ts).Ensures (Shorter ts) →
      ((some <$> p).run ts).Ensures (StatementStep ts) := by
    intro p hclose hp
    rw [ensures_map]
    exact hp.mono fun s _ h => .inr ⟨⟨s, rfl⟩, hclose, h⟩
  rw [parseStatement, ensures_bind, ensures_getToken]
  rintro t r rfl
  have hlen : 4*(t :: r).length ≤ n := by omega
  split <;> rename_i hk
  · exact .inl ⟨rfl, hk, rfl⟩
  · rw [ensures_bind]
    apply (ih.block _ (by omega)).mono
    intro blk r' hr
    exact .inr ⟨⟨_, rfl⟩, by simp [AtClose, hk], hr⟩
  · exact hsome _ (by simp [AtClose, hk]) (ih.transaction _ (by omega))
  · exact hsome _ (by simp [AtClose, hk]) (parseLet_progress _ _ hlen)
  · exact hsome _ (by simp [AtClose, hk]) (ih.ifStmt _ (by omega))
  · exact hsome _ (by simp [AtClose, hk]) (ih.forStmt _ (by omega))
  · exact hsome _ (by simp [AtClose, hk]) (parseDefine_progress _ _ hlen)
  · exact hsome _ (by simp [AtClose, hk]) (parseEmit_progress _ _ hlen)
  · exact hsome _ (by simp [AtClose, hk]) (parseInsert_progress _ _ hlen)
  · exact hsome _ (by simp [AtClose, hk]) (ih.scan _ (by omega))
  · simp [StatementStep, AtClose, hk]
  · simp [StatementStep, AtClose, hk]
  · exact hsome _ (by simp [AtClose, hk]) (parseExprStatement_progress _ _ (by omega))
  · exact hsome _ (by simp [AtClose, hk]) (parseExprStatement_progress _ _ (by omega))
  · exact hsome _ (by simp [AtClose, hk]) (parseExprStatement_progress _ _ (by omega))
  · exact hsome _ (by simp [AtClose, hk]) (parseExprStatement_progress _ _ (by omega))
  · exact hsome _ (by simp [AtClose, hk]) (parseExprStatement_progress _ _ (by omega))
  · exact hsome _ (by simp [AtClose, hk]) (parseDefineTuple_progress _ _ hlen)
  · simp

theorem parseItems_progress_step {n : ℕ} (ih : StatementProgress n) (ts : List Token)
    (hn : 4*ts.length+5 ≤ n+1) : ((parseItems (n+1)).run ts).Ensures (NotLonger ts) := by
  rw [parseItems, ensures_bind, ensures_getToken]
  rintro t r rfl
  split_ifs with hclose
  · simp [NotLonger]
  · rw [ensures_bind]
    apply (ih.statement _ (by omega)).mono
    intro s r₁ h₁
    rcases h₁ with ⟨_, h, _⟩ | ⟨_, _, h₁⟩
    · exact absurd h hclose
    · simp only [ensures_bind, ensures_pure]
      apply (ih.items r₁ (by omega)).mono
      intro ss r₂ h₂
      simp only [NotLonger] at h₂ ⊢
      omega

theorem parseBlock_progress_step {n : ℕ} (ih : StatementProgress n) (ts : List Token)
    (hn : 4*ts.length+2 ≤ n+1) : ((parseBlock (n+1)).run ts).Ensures (Shorter ts) := by
  rw [parseBlock]
  apply keyword_progress
  rintro t r rfl
  simp only [List.length_cons] at hn
  simp only [ensures_bind, ensures_skip, ensures_pure]
  apply (ih.items r (by omega)).mono
  rintro ss r₁ h₁ t₂ r₂ rfl _
  simp only [NotLonger, List.length_cons] at h₁ ⊢
  omega

/-- A block that must start with a brace, as the last part of a statement. -/
theorem body_progress {n : ℕ} (ih : StatementProgress n) {ts : List Token}
    (hn : 4*ts.length+2 ≤ n) (f : List Statement → α) :
    ((do expect .openBrace; let blk ← parseBlock n; pure (f blk) : ParserM α).run ts).Ensures
      (Shorter ts) := by
  simp only [ensures_bind, ensures_expect, ensures_pure]
  intro t r _ _
  exact ih.block ts hn

theorem parseTransaction_progress_step {n : ℕ} (ih : StatementProgress n) (ts : List Token)
    (hn : 4*ts.length+1 ≤ n+1) : ((parseTransaction (n+1)).run ts).Ensures (Shorter ts) := by
  rw [parseTransaction]
  apply keyword_progress
  rintro t r rfl
  simp only [List.length_cons] at hn
  rw [ensures_bind]
  apply parseIsolation_progress.mono
  intro isolation r₁ h₁
  simp only [NotLonger] at h₁
  apply (body_progress ih (by omega) _).mono
  intro s r₂ h₂
  simp only [Shorter, NotLonger] at h₂ ⊢
  omega

theorem parseIf_progress_step {n : ℕ} (ih : StatementProgress n) (ts : List Token)
    (hn : 4*ts.length+1 ≤ n+1) : ((parseIf (n+1)).run ts).Ensures (Shorter ts) := by
  rw [parseIf]
  apply keyword_progress
  rintro t r rfl
  simp only [List.length_cons] at hn
  rw [ensures_bind]
  apply (parseExpr_progress (by omega)).mono
  intro cond r₁ h₁
  simp only [ensures_bind, ensures_expect]
  intro t₂ r₂ _ _
  simp only [Shorter] at h₁
  apply (ih.block r₁ (by omega)).mono
  intro trueBlock r₃ h₃
  simp only [Shorter] at h₃
  rw [ensures_hasNext]
  split_ifs
  · rw [ensures_bind, ensures_getToken]
    rintro t₄ r₄ rfl
    simp only [List.length_cons] at h₃
    split_ifs
    · rw [ensures_bind, ensures_next]
      refine ⟨t₄, r₄, rfl, (body_progress ih (by omega) _).mono ?_⟩
      intro s r₅ h₅
      simp only [Shorter, NotLonger] at h₅ ⊢
      omega
    · simp only [ensures_pure, NotLonger, List.length_cons]
      omega
  · simp only [ensures_pure, NotLonger]
    omega

theorem parseFor_progress_step {n : ℕ} (ih : StatementProgress n) (ts : List Token)
    (hn : 4*ts.length+1 ≤ n+1) : ((parseFor (n+1)).run ts).Ensures (Shorter ts) := by
  rw [parseFor]
  apply keyword_progress
  rintro t r rfl
  simp only [List.length_cons] at hn
  simp only [ensures_bind]
  apply (parseInitPart_progress (ih.statement r (by omega))).mono
  intro init r₁ h₁
  rw [ensures_skip]
  rintro t₂ r₂ rfl _
  simp only [NotLonger, List.length_cons] at h₁
  apply (parseHeaderPart_progress (parseExpr_progress (by omega))).mono
  intro cond r₃ h₃
  rw [ensures_skip]
  rintro t₄ r₄ rfl _
  simp only [NotLonger, List.length_cons] at h₃
  apply (parseHeaderPart_progress (parseExpr_progress (by omega))).mono
  intro every r₅ h₅
  simp only [NotLonger] at h₅
  rw [ensures_expect]
  intro t₆ r₆ _ _
  apply (ih.block r₅ (by omega)).mono
  intro blk r₇ h₇
  simp only [ensures_pure, Shorter, NotLonger] at h₇ ⊢
  omega

theorem parseScan_progress_step {n : ℕ} (ih : StatementProgress n) (ts : List Token)
    (hn : 4*ts.length+1 ≤ n+1) : ((parseScan (n+1)).run ts).Ensures (Shorter ts) := by
  rw [parseScan]
  apply keyword_progress
  rintro t r rfl
  simp only [List.length_cons] at hn
  rw [ensures_bind, ensures_takeIdentifier]
  rintro t₁ r₁ rfl _
  rw [ensures_bind, ensures_skip]
  rintro t₂ r₂ rfl _
  rw [ensures_bind, ensures_takeText]
  rintro t₃ r₃ rfl
  simp only [List.length_cons] at hn
  apply (body_progress ih (by omega) _).mono
  intro s r₄ h₄
  simp only [Shorter, NotLonger, List.length_cons] at h₄ ⊢
  omega

theorem statementProgress (n : ℕ) : StatementProgress n := by
  induction n with
  | zero =>
    constructor <;> intros <;> omega
  | succ n ih =>
    exact ⟨parseStatement_progress_step ih, parseItems_progress_step ih,
      parseBlock_progress_step ih, parseTransaction_progress_step ih, parseIf_progress_step ih,
      parseFor_progress_step ih, parseScan_progress_step ih⟩

end Reir
