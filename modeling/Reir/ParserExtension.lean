import Reir.StreamExtension
import Reir.ParserRoundtrip
import Reir.TokenizeRoundtrip

/-! The parser in front of further tokens. Every function of the parser does the same on a stream
that goes on, for it looks at the end of the stream only behind an expression and behind the first
block of an `if`. Positions of tokens do not matter to it. -/
namespace Reir
open StreamParser

/-- Tokens that differ in their positions only. -/
def SameImage (t t' : Token) : Prop := t.image = t'.image

theorem SameImage.type {t t' : Token} (h : SameImage t t') : t.type = t'.type :=
  congrArg Prod.fst h

theorem SameImage.text {t t' : Token} (h : SameImage t t') : t.text = t'.text :=
  congrArg Prod.snd h

/-- A family that needs one more unit of fuel where further tokens follow. -/
abbrev Extends {α : Type} (vs : List Token) (E : α → Prop) (p q : ParserM α) : Prop :=
  Carries SameImage vs E p q

variable {vs : List Token} {α β : Type}

section Tokens
variable {E : Unit → Prop}

theorem extends_expectToken {t t' : Token} (ht : SameImage t t') (k : TokenType) :
    Extends vs E (expectToken t k) (expectToken t' k) := by
  unfold expectToken
  rw [← ht.type]
  split_ifs
  · exact carries_pure _
  · exact carries_throw

theorem extends_expect (k : TokenType) : Extends vs E (expect k) (expect k) :=
  Carries.get fun _ _ ht => extends_expectToken ht k

theorem extends_skip (k : TokenType) : Extends vs E (skip k) (skip k) :=
  (extends_expect k).bind fun _ => carries_next

theorem needsToken_expect (k : TokenType) : NeedsToken (expect k) := needsToken_get

theorem needsToken_skip (k : TokenType) : NeedsToken (skip k) := (needsToken_expect k).bind

theorem extends_takeText {E : Text → Prop} : Extends vs E takeText takeText := by
  refine Carries.get fun t t' ht => carries_next.bind fun _ => ?_
  rw [← ht.text]
  exact carries_pure _

theorem extends_takeIdentifier {E : Text → Prop} : Extends vs E takeIdentifier takeIdentifier :=
  (extends_expect _).bind fun _ => extends_takeText

theorem extends_readNumber {E : Int → Prop} (t : Text) :
    Extends vs E (readNumber t) (readNumber t) := by
  unfold readNumber
  split
  · exact carries_pure _
  · exact carries_throw

end Tokens

section Expressions
variable {E : Expression → Prop}

theorem extends_primaryExpression : Extends vs E primaryExpression primaryExpression := by
  refine Carries.get fun t t' ht => ?_
  rw [← ht.type, ← ht.text]
  cases t.type with
  | number =>
    exact (extends_readNumber _).bind fun _ => carries_next.bind fun _ => carries_pure _
  | stringLiteral => exact carries_next.bind fun _ => carries_pure _
  | _ => exact carries_throw

theorem extends_variableReference : Extends vs E variableReference variableReference :=
  extends_takeIdentifier.bind fun _ => carries_pure _

theorem extends_memberReference (e : Expression) :
    Extends vs E (memberReference e) (memberReference e) :=
  (extends_skip _).bind fun _ => extends_takeText.bind fun _ => carries_pure _

/-- An expression that was read up to the end of the stream ends there too where `vs` follows. -/
structure ExprExtends (vs : List Token) (n : ℕ) : Prop where
  expr : Extends vs (fun _ => Stops vs) (parseExpr n) (parseExpr (n+1))
  tail : ∀ e, Extends vs (fun _ => Stops vs) (parseExprPostfix n e) (parseExprPostfix (n+1) e)
  elements : ∀ k, Extends vs (fun _ => True) (parseElements n k) (parseElements (n+1) k)
  call : ∀ e, Extends vs (fun _ => True) (functionCall n e) (functionCall (n+1) e)
  row : Extends vs (fun _ => True) (rowLiteral n) (rowLiteral (n+1))
  array : Extends vs (fun _ => True) (arrayLiteral n) (arrayLiteral (n+1))
  index : ∀ e, Extends vs (fun _ => True) (arrayReference n e) (arrayReference (n+1) e)
  assign : ∀ e, Extends vs (fun _ => Stops vs) (assign n e) (assign (n+1) e)

/-- All operands but an address end in a token of their own. -/
theorem parseOperand_closed {n : ℕ} (ih : ExprExtends vs n) {t t' : Token} (ht : SameImage t t')
    (hand : t.type ≠ .and) :
    Extends vs (fun _ => True)
      (parseOperand (parseExpr n) (rowLiteral n) (arrayLiteral n) t)
      (parseOperand (parseExpr (n+1)) (rowLiteral (n+1)) (arrayLiteral (n+1)) t') := by
  unfold parseOperand
  rw [← ht.type, ← ht.text]
  cases hk : t.type with
  | and => exact absurd hk hand
  | openParen =>
    refine carries_next.bind fun _ => ih.expr.bindNeeds (fun _ => (needsToken_skip _).bind) ?_
    exact fun _ => (extends_skip _).bind fun _ => carries_pure _
  | openBrace => exact ih.row
  | openBracket => exact ih.array
  | identifier => exact extends_variableReference
  | stringLiteral => exact extends_primaryExpression
  | number => exact extends_primaryExpression
  | _ => exact carries_throw

theorem parseOperand_extends {n : ℕ} (ih : ExprExtends vs n) {t t' : Token} (ht : SameImage t t') :
    Extends vs (fun _ => Stops vs)
      (parseOperand (parseExpr n) (rowLiteral n) (arrayLiteral n) t)
      (parseOperand (parseExpr (n+1)) (rowLiteral (n+1)) (arrayLiteral (n+1)) t') := by
  by_cases hand : t.type = .and
  · unfold parseOperand
    rw [← ht.type, hand]
    exact carries_next.bind fun _ => ih.expr.bindPure fun _ h => h
  · exact (parseOperand_closed ih ht hand).mono fun _ _ => trivial

theorem parseExprPostfix_nil {n : ℕ} {e a : Expression} {r : List Token}
    (h : (parseExprPostfix n e).run [] = .ok a r) : a = e ∧ r = [] := by
  cases n with
  | zero => simp [parseExprPostfix] at h
  | succ n =>
    obtain ⟨rfl, rfl⟩ := Outcome.ok.inj h
    exact ⟨rfl, rfl⟩

theorem parseExprPostfix_extends {n : ℕ} (ih : ExprExtends vs n) (e : Expression) :
    Extends vs (fun _ => Stops vs) (parseExprPostfix (n+1) e) (parseExprPostfix (n+1+1) e) := by
  have hop : ∀ op, Extends vs (fun _ => Stops vs)
      (do next; let rhs ← parseExpr n; pure (Expression.binary {} e op rhs))
      (do next; let rhs ← parseExpr (n+1); pure (Expression.binary {} e op rhs)) := by
    intro op
    exact carries_next.bind fun _ => ih.expr.bindPure fun _ h => h
  have hend : Stops vs → (parseExprPostfix (n+1+1) e).run vs = .ok e vs :=
    fun h => parseExprPostfix_stops (n+1) e h
  rw [parseExprPostfix] at hend
  rw [parseExprPostfix, parseExprPostfix]
  refine Carries.hasNext (a := e) ?_ rfl hend
  refine Carries.get fun t t' ht => ?_
  rw [← ht.type]
  cases t.type with
  | openParen => exact (ih.call e).bind fun _ => ih.tail _
  | openBracket => exact (ih.index _).bind fun _ => ih.tail _
  | period => exact (extends_memberReference e).bind fun _ => ih.tail _
  | equal =>
    refine (ih.assign e).bindEnd (fun a b r hrun => ?_) fun _ => ih.tail _
    exact ⟨(parseExprPostfix_nil hrun).2, fun h => h⟩
  | _ =>
    first
    | exact hop _
    | exact carries_pure _

theorem parseElements_extends {n : ℕ} (ih : ExprExtends vs n) (k : TokenType) :
    Extends vs (fun _ => True) (parseElements (n+1) k) (parseElements (n+1+1) k) := by
  rw [parseElements, parseElements]
  refine Carries.get fun t t' ht => ?_
  rw [← ht.type]
  refine Carries.ite (carries_pure _) ?_
  refine ih.expr.bindNeeds (fun _ => needsToken_get) fun element => Carries.get fun u u' hu => ?_
  rw [← hu.type]
  refine Carries.ite (carries_pure _) ?_
  refine (extends_expectToken hu _).bind fun _ => carries_next.bind fun _ => ?_
  exact (ih.elements k).bind fun _ => carries_pure _

/-- A literal or a list of arguments between two tokens. -/
theorem delimited_extends {n : ℕ} (ih : ExprExtends vs n) (opening closing : TokenType)
    (f : List Expression → Expression) :
    Extends vs (fun _ => True)
      (do skip opening; let es ← parseElements n closing; skip closing; pure (f es))
      (do skip opening; let es ← parseElements (n+1) closing; skip closing; pure (f es)) :=
  (extends_skip _).bind fun _ => (ih.elements _).bind fun _ => (extends_skip _).bind fun _ =>
    carries_pure _

theorem exprExtends (vs : List Token) (n : ℕ) : ExprExtends vs n := by
  induction n with
  | zero => constructor <;> intros <;> exact carries_timeout
  | succ n ih =>
    refine ⟨?_, parseExprPostfix_extends ih, parseElements_extends ih, ?_, ?_, ?_, ?_, ?_⟩
    · have hend : ∀ ret : Expression, Stops vs →
          (hasNext >>= fun more => if more then parseExprPostfix (n+1) ret else pure ret :
            ParserM Expression).run vs = .ok ret vs := by
        intro ret h
        rw [hasNext_bind]
        split_ifs with hmore
        · exact parseExprPostfix_stops n ret h
        · rfl
      rw [parseExpr, parseExpr]
      refine Carries.get fun t t' ht => ?_
      refine (parseOperand_extends ih ht).bindEnd (fun ret b r hrun => ?_) fun ret => ?_
      · obtain ⟨-, rfl⟩ := Outcome.ok.inj hrun
        exact ⟨rfl, fun h => h⟩
      · exact Carries.hasNext (a := ret) (ih.tail ret) rfl (hend ret)
    · intro e
      rw [functionCall, functionCall]
      exact delimited_extends ih _ _ _
    · rw [rowLiteral, rowLiteral]
      exact delimited_extends ih _ _ _
    · rw [arrayLiteral, arrayLiteral]
      exact delimited_extends ih _ _ _
    · intro e
      rw [arrayReference, arrayReference]
      refine (extends_skip _).bind fun _ => ih.expr.bindNeeds (fun _ => (needsToken_skip _).bind) ?_
      exact fun _ => (extends_skip _).bind fun _ => carries_pure _
    · intro e
      rw [Reir.assign, Reir.assign]
      exact (extends_skip _).bind fun _ => ih.expr.bindPure fun _ h => h

end Expressions

theorem extends_parseProps (n prop : ℕ) :
    Extends vs (fun _ => True) (parseProps n prop) (parseProps (n+1) prop) := by
  induction n generalizing prop with
  | zero => exact carries_timeout
  | succ n ih =>
    rw [parseProps, parseProps]
    refine Carries.get fun t t' ht => ?_
    rw [← ht.type, ← ht.text]
    refine Carries.ite ?_ (carries_pure _)
    cases propertyOf t.text with
    | some p => exact carries_next.bind fun _ => ih _
    | none => exact carries_throw

theorem extends_parseParam : Extends vs (fun _ => True) parseParam parseParam := by
  refine Carries.get fun t t' ht => ?_
  rw [← ht.type]
  refine Carries.ite (carries_next.bind fun _ => (extends_expect _).bind fun _ => ?_)
    (carries_pure _)
  refine Carries.get fun u u' hu => ?_
  rw [← hu.text]
  refine (extends_readNumber _).bind fun _ => carries_next.bind fun _ => ?_
  exact (extends_skip _).bind fun _ => carries_pure _

theorem extends_parseColumn (n : ℕ) :
    Extends vs (fun _ => True) (parseColumn n) (parseColumn (n+1)) :=
  extends_takeText.bind fun _ => extends_parseParam.bind fun _ => (extends_skip _).bind fun _ =>
    extends_takeIdentifier.bind fun _ => (extends_parseProps n 0).bind fun _ => carries_pure _

theorem extends_parseColumns (n : ℕ) :
    Extends vs (fun _ => True) (parseColumns n) (parseColumns (n+1)) := by
  induction n with
  | zero => exact carries_timeout
  | succ n ih =>
    rw [parseColumns, parseColumns]
    refine (extends_parseColumn n).bind fun column => Carries.get fun t t' ht => ?_
    rw [← ht.type]
    refine Carries.ite ?_ (carries_pure _)
    exact (extends_skip _).bind fun _ => ih.bind fun _ => carries_pure _

theorem extends_tupleType (n : ℕ) :
    Extends vs (fun _ => True) (tupleType n) (tupleType (n+1)) :=
  (extends_skip _).bind fun _ => (extends_parseColumns n).bind fun _ => (extends_skip _).bind
    fun _ => carries_pure _

theorem extends_primaryType : Extends vs (fun _ => True) primaryType primaryType := by
  refine (extends_expect _).bind fun _ => Carries.get fun t t' ht => ?_
  rw [← ht.text]
  cases typeParse t.text with
  | some id => exact carries_next.bind fun _ => carries_pure _
  | none => exact carries_throw

theorem extends_parseType (n : ℕ) :
    Extends vs (fun _ => True) (parseType n) (parseType (n+1)) := by
  induction n with
  | zero => exact carries_timeout
  | succ n ih =>
    rw [parseType, parseType]
    refine Carries.get fun t t' ht => ?_
    rw [← ht.type]
    cases t.type with
    | openBracket =>
      exact (extends_skip _).bind fun _ => ih.bind fun _ => (extends_skip _).bind fun _ =>
        carries_pure _
    | openBrace => exact extends_tupleType n
    | _ => exact extends_primaryType

theorem extends_parseRowType (n : ℕ) :
    Extends vs (fun _ => True) (parseRowType n) (parseRowType (n+1)) :=
  (extends_skip _).bind fun _ => (extends_parseType n).bind fun _ => (extends_skip _).bind fun _ =>
    carries_pure _

theorem extends_parseExpr (n : ℕ) :
    Extends vs (fun _ => Stops vs) (parseExpr n) (parseExpr (n+1)) :=
  (exprExtends vs n).expr

theorem extends_parseIsolation : Extends vs (fun _ => True) parseIsolation parseIsolation := by
  refine Carries.get fun t t' ht => ?_
  rw [← ht.type]
  exact Carries.ite (carries_pure _) extends_takeText

theorem extends_parseDeclaredType (n : ℕ) :
    Extends vs (fun _ => True) (parseDeclaredType n) (parseDeclaredType (n+1)) := by
  refine Carries.get fun t t' ht => ?_
  rw [← ht.type]
  exact Carries.ite ((extends_parseRowType n).map fun _ _ => trivial) (carries_pure _)

theorem extends_parseLet (n : ℕ) :
    Extends vs (Statement.StopsBefore · vs) (parseLet n) (parseLet (n+1)) :=
  (extends_skip _).bind fun _ => (extends_parseDeclaredType n).bind fun _ =>
    extends_takeIdentifier.bind fun _ => (extends_skip _).bind fun _ =>
      (extends_parseExpr n).bindPure fun _ h => h.1 rfl

theorem extends_parseDefineTuple (n : ℕ) :
    Extends vs (Statement.StopsBefore · vs) (parseDefineTuple n) (parseDefineTuple (n+1)) := by
  refine (extends_skip _).bind fun _ => extends_takeIdentifier.bind fun name => ?_
  exact (extends_parseType n).bind fun _ => Carries.ite (carries_pure _) carries_throw

theorem extends_parseDefine (n : ℕ) :
    Extends vs (Statement.StopsBefore · vs) (parseDefine n) (parseDefine (n+1)) :=
  (extends_skip _).bind fun _ => (extends_parseRowType n).bind fun _ =>
    extends_takeIdentifier.bind fun _ => carries_pure _

theorem extends_parseEmit (n : ℕ) :
    Extends vs (Statement.StopsBefore · vs) (parseEmit n) (parseEmit (n+1)) :=
  (extends_skip _).bind fun _ => (extends_parseExpr n).bindPure fun _ h => h.1 rfl

theorem extends_parseInsert (n : ℕ) :
    Extends vs (Statement.StopsBefore · vs) (parseInsert n) (parseInsert (n+1)) :=
  (extends_skip _).bind fun _ => extends_takeIdentifier.bind fun _ => (extends_expect _).bind
    fun _ => (extends_parseExpr n).bindPure fun _ h => h.1 rfl

theorem extends_parseExprStatement (n : ℕ) :
    Extends vs (Statement.StopsBefore · vs) (parseExprStatement n) (parseExprStatement (n+1)) :=
  (extends_parseExpr n).bindPure fun _ h => h.1 rfl

theorem extends_parseHeaderPart (n : ℕ) :
    Extends vs (fun _ => Stops vs) (parseHeaderPart (parseExpr n))
      (parseHeaderPart (parseExpr (n+1))) := by
  refine Carries.get fun t t' ht => ?_
  rw [← ht.type]
  exact Carries.ite (carries_pure _) ((extends_parseExpr n).map fun _ h => h)

structure StatementExtends (vs : List Token) (n : ℕ) : Prop where
  statement : Extends vs (fun s => ∀ s', s = some s' → s'.StopsBefore vs) (parseStatement n)
    (parseStatement (n+1))
  items : Extends vs (fun _ => True) (parseItems n) (parseItems (n+1))
  block : Extends vs (fun _ => True) (parseBlock n) (parseBlock (n+1))
  transaction : Extends vs (Statement.StopsBefore · vs) (parseTransaction n) (parseTransaction (n+1))
  ifStmt : Extends vs (Statement.StopsBefore · vs) (parseIf n) (parseIf (n+1))
  forStmt : Extends vs (Statement.StopsBefore · vs) (parseFor n) (parseFor (n+1))
  scan : Extends vs (Statement.StopsBefore · vs) (parseScan n) (parseScan (n+1))

theorem parseStatement_extends {n : ℕ} (ih : StatementExtends vs n) :
    Extends vs (fun s => ∀ s', s = some s' → s'.StopsBefore vs) (parseStatement (n+1))
      (parseStatement (n+1+1)) := by
  have hsome : ∀ (s : Statement), (∀ s', some s = some s' → s'.StopsBefore vs) → s.StopsBefore vs :=
    fun s h => h s rfl
  rw [parseStatement, parseStatement]
  refine Carries.get fun t t' ht => ?_
  rw [← ht.type]
  cases t.type with
  | closeBrace => exact carries_pure _
  | openBrace => exact ih.block.bind fun _ => carries_pure _
  | transaction => exact ih.transaction.map hsome
  | «let» => exact (extends_parseLet n).map hsome
  | «if» => exact ih.ifStmt.map hsome
  | «for» => exact ih.forStmt.map hsome
  | define => exact (extends_parseDefine n).map hsome
  | emit => exact (extends_parseEmit n).map hsome
  | insert => exact (extends_parseInsert n).map hsome
  | scan => exact ih.scan.map hsome
  | «break» => exact carries_next.bind fun _ => carries_pure _
  | «continue» => exact carries_next.bind fun _ => carries_pure _
  | tuple => exact (extends_parseDefineTuple n).map hsome
  | openBracket => exact (extends_parseExprStatement n).map hsome
  | openParen => exact (extends_parseExprStatement n).map hsome
  | number => exact (extends_parseExprStatement n).map hsome
  | stringLiteral => exact (extends_parseExprStatement n).map hsome
  | identifier => exact (extends_parseExprStatement n).map hsome
  | _ => exact carries_throw

theorem parseItems_nil (n : ℕ) : NeedsToken (parseItems n) := by
  cases n with
  | zero =>
    intro a r h
    simp [parseItems] at h
  | succ n => exact needsToken_get

theorem parseIf_extends {n : ℕ} (ih : StatementExtends vs n) :
    Extends vs (Statement.StopsBefore · vs) (parseIf (n+1)) (parseIf (n+1+1)) := by
  rw [parseIf, parseIf]
  refine (extends_skip _).bind fun _ => ?_
  refine (extends_parseExpr n).bindNeeds (fun _ => (needsToken_expect _).bind) fun cond => ?_
  refine (extends_expect _).bind fun _ => ih.block.bind fun trueBlock => ?_
  refine Carries.hasNext (a := .ifStmt cond trueBlock none) ?_ rfl ?_
  · refine Carries.get fun t t' ht => ?_
    rw [← ht.type]
    refine Carries.ite (carries_next.bind fun _ => (extends_expect _).bind fun _ => ?_)
      (carries_pure _)
    exact ih.block.bind fun _ => carries_pure _
  · intro hend
    cases vs with
    | nil => rfl
    | cons t us =>
      have helse : t.type ≠ .else := hend.2
      rw [hasNext_bind, if_pos (by simp), getToken, get_cons_bind, if_neg helse]
      rfl

theorem statementExtends (vs : List Token) (n : ℕ) : StatementExtends vs n := by
  induction n with
  | zero => constructor <;> exact carries_timeout
  | succ n ih =>
    refine ⟨parseStatement_extends ih, ?_, ?_, ?_, parseIf_extends ih, ?_, ?_⟩
    · rw [parseItems, parseItems]
      refine Carries.get fun t t' ht => ?_
      rw [← ht.type]
      refine Carries.ite (carries_pure _) ?_
      refine ih.statement.bindNeeds (fun _ => (parseItems_nil n).bind) fun stmt => ?_
      exact ih.items.bind fun _ => carries_pure _
    · rw [parseBlock, parseBlock]
      exact (extends_skip _).bind fun _ => ih.items.bind fun _ => (extends_skip _).bind fun _ =>
        carries_pure _
    · rw [parseTransaction, parseTransaction]
      exact (extends_skip _).bind fun _ => extends_parseIsolation.bind fun _ =>
        (extends_expect _).bind fun _ => ih.block.bind fun _ => carries_pure _
    · have hpart : Extends vs (fun s => ∀ s', s = Ptr.to s' → s'.StopsBefore vs)
          (parseInitPart (parseStatement n)) (parseInitPart (parseStatement (n+1))) := by
        refine Carries.get fun t t' ht => ?_
        rw [← ht.type]
        refine Carries.ite (carries_pure _) (ih.statement.bindEnd (fun s b r hrun => ?_) ?_)
        · cases s with
          | none =>
            obtain ⟨rfl, rfl⟩ := Outcome.ok.inj hrun
            simp
          | some s =>
            obtain ⟨rfl, rfl⟩ := Outcome.ok.inj hrun
            exact ⟨rfl, fun h s' hs' => h s' (congrArg Ptr.to (Option.some.inj hs'))⟩
        · intro s
          cases s with
          | none => exact carries_pure _
          | some s => exact carries_pure _
      rw [parseFor, parseFor]
      refine (extends_skip _).bind fun _ => hpart.bindNeeds (fun _ => (needsToken_skip _).bind) ?_
      refine fun init => (extends_skip _).bind fun _ => ?_
      refine (extends_parseHeaderPart n).bindNeeds (fun _ => (needsToken_skip _).bind) ?_
      refine fun cond => (extends_skip _).bind fun _ => ?_
      refine (extends_parseHeaderPart n).bindNeeds (fun _ => (needsToken_expect _).bind) ?_
      exact fun every => (extends_expect _).bind fun _ => ih.block.bind fun _ => carries_pure _
    · rw [parseScan, parseScan]
      exact (extends_skip _).bind fun _ => extends_takeIdentifier.bind fun _ =>
        (extends_skip _).bind fun _ => extends_takeText.bind fun _ => (extends_expect _).bind
          fun _ => ih.block.bind fun _ => carries_pure _

theorem skip_eq_ok {k : TokenType} {ts r : List Token} {u : Unit} (h : (skip k).run ts = .ok u r) :
    ∃ t, ts = t :: r ∧ t.type = k := by
  cases ts with
  | nil => exact absurd h (by simp [skip, expect, getToken, run_bind, Outcome.andThen, StreamParser.get])
  | cons t ts =>
    by_cases hk : t.type = k
    · rw [run_skip hk] at h
      obtain ⟨-, rfl⟩ := Outcome.ok.inj h
      exact ⟨t, rfl, hk⟩
    · obtain ⟨_, r₁, hexpect, -⟩ := bind_eq_ok.mp h
      rw [expect, getToken, get_cons_bind, expectToken, if_neg hk] at hexpect
      simp at hexpect

end Reir
