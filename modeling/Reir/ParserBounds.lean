import Reir.StreamPosition
import Reir.ParserTermination

/-! The position of the token stream through the parser: every function that returns has moved the
index forward, and not past the number of tokens. -/
namespace Reir
open StreamParser

/-- `TokenStream`. The index is advanced without a check, and `has_next` compares it with `!=`. -/
structure TokenStream where
  tokens : List Token
  idx : ℕ

namespace TokenStream

/-- `none` is the exception at the end. -/
def get (s : TokenStream) : Option Token :=
  if s.tokens.length ≤ s.idx then none else s.tokens[s.idx]?

def next (s : TokenStream) : TokenStream := { s with idx := s.idx+1 }

def hasNext (s : TokenStream) : Bool := s.idx ≠ s.tokens.length

/-- The tokens from the index on. -/
def rest (s : TokenStream) : List Token := s.tokens.drop s.idx

variable {s : TokenStream}

theorem rest_length (s : TokenStream) : s.rest.length = s.tokens.length - s.idx := by
  simp [rest]

theorem rest_eq_cons (h : s.idx < s.tokens.length) : s.rest = s.tokens[s.idx] :: s.next.rest :=
  List.drop_eq_getElem_cons h

/-- On the tokens that are left, the operations are those on the index, as long as this has not
gone past the end. -/
theorem getToken_rest (s : TokenStream) :
    getToken.run s.rest = match s.get with
      | some t => .ok t s.rest
      | none => .fail .eof := by
  by_cases h : s.tokens.length ≤ s.idx
  · have hrest : s.rest = [] := List.drop_eq_nil_of_le h
    rw [get, if_pos h, hrest]
    rfl
  · have hlt : s.idx < s.tokens.length := not_le.mp h
    rw [get, if_neg h, List.getElem?_eq_getElem hlt, rest_eq_cons hlt]
    rfl

theorem next_rest (s : TokenStream) :
    (StreamParser.next : ParserM Unit).run s.rest =
      if s.next.idx ≤ s.tokens.length then .ok () s.next.rest else .overrun := by
  by_cases hlt : s.idx < s.tokens.length
  · rw [if_pos (show s.next.idx ≤ s.tokens.length from hlt), rest_eq_cons hlt]
    rfl
  · have hrest : s.rest = [] := List.drop_eq_nil_of_le (not_lt.mp hlt)
    rw [if_neg (show ¬s.next.idx ≤ s.tokens.length from hlt), hrest]
    rfl

theorem hasNext_rest (h : s.idx ≤ s.tokens.length) :
    (StreamParser.hasNext : ParserM Bool).run s.rest = .ok s.hasNext s.rest := by
  have hsame : (!s.rest.isEmpty) = s.hasNext := by
    rw [hasNext, rest]
    by_cases hidx : s.idx = s.tokens.length
    · simp [hidx]
    · have hlt : ¬s.tokens.length ≤ s.idx := by omega
      simp [hidx, hlt]
  rw [← hsame]
  rfl

/-- From some fuel on, the function throws, or returns with the index moved as `Q` says and within
the tokens. -/
def Moves {α : Type} (F : ℕ → ParserM α) (s : TokenStream) (Q : ℕ → Prop) : Prop :=
  (∃ e, Settles F s.rest (.fail e)) ∨
    ∃ a j, Q j ∧ j ≤ s.tokens.length ∧ Settles F s.rest (.ok a (rest { s with idx := j }))

/-- A suffix of the tokens that are left is left at a later index. -/
theorem exists_idx {r : List Token} (h : r <:+ s.rest) (hidx : s.idx ≤ s.tokens.length) :
    ∃ j, s.idx ≤ j ∧ j ≤ s.tokens.length ∧ r = rest { s with idx := j } ∧
      r.length + j = s.tokens.length := by
  have hle := h.length_le
  rw [rest_length] at hle
  have hsuffix := h.trans (List.drop_suffix s.idx s.tokens)
  refine ⟨s.tokens.length - r.length, by omega, by omega, ?_, by omega⟩
  exact List.suffix_iff_eq_drop.mp hsuffix

end TokenStream

section Rules
variable {P : ∀ {α : Type}, ParserM α → Prop} (R : StreamRules P)
include R

theorem rules_getToken : P getToken := R.get .eof

theorem rules_expectToken (t : Token) (k : TokenType) : P (expectToken t k) := by
  unfold expectToken
  split_ifs
  · exact R.pure ()
  · exact R.throw _

theorem rules_expect (k : TokenType) : P (expect k) :=
  R.bind (rules_getToken R) fun t => rules_expectToken R t k

theorem rules_skip (k : TokenType) : P (skip k) := R.bind (rules_expect R k) fun _ => R.next

theorem rules_takeText : P takeText :=
  R.bind (rules_getToken R) fun t => R.bind R.next fun _ => R.pure t.text

theorem rules_takeIdentifier : P takeIdentifier :=
  R.bind (rules_expect R .identifier) fun _ => rules_takeText R

theorem rules_readNumber (t : Text) : P (readNumber t) := by
  unfold readNumber
  cases stoi t with
  | ok n => exact R.pure n
  | error e => exact R.throw _

theorem rules_primaryExpression : P primaryExpression := by
  refine R.bind (rules_getToken R) fun t => ?_
  cases t.type with
  | number =>
    exact R.bind (rules_readNumber R _) fun n => R.bind R.next fun _ => R.pure _
  | stringLiteral => exact R.bind R.next fun _ => R.pure _
  | _ => exact R.throw _

theorem rules_memberReference (e : Expression) : P (memberReference e) :=
  R.bind (rules_skip R .period) fun _ => R.bind (rules_takeText R) fun _ => R.pure _

structure ExprRules (P : ∀ {α : Type}, ParserM α → Prop) (n : ℕ) : Prop where
  expr : P (parseExpr n)
  tail : ∀ e, P (parseExprPostfix n e)
  elements : ∀ k, P (parseElements n k)
  call : ∀ e, P (functionCall n e)
  row : P (rowLiteral n)
  array : P (arrayLiteral n)
  index : ∀ e, P (arrayReference n e)
  assign : ∀ e, P (assign n e)

theorem rules_parseOperand {n : ℕ} (ih : ExprRules P n) (t : Token) :
    P (parseOperand (parseExpr n) (rowLiteral n) (arrayLiteral n) t) := by
  unfold parseOperand
  cases t.type with
  | and => exact R.bind R.next fun _ => R.bind ih.expr fun _ => R.pure _
  | openBrace => exact ih.row
  | openParen =>
    exact R.bind R.next fun _ => R.bind ih.expr fun _ => R.bind (rules_skip R _) fun _ => R.pure _
  | openBracket => exact ih.array
  | identifier => exact R.bind (rules_takeIdentifier R) fun _ => R.pure _
  | stringLiteral => exact rules_primaryExpression R
  | number => exact rules_primaryExpression R
  | _ => exact R.throw _

theorem rules_parseExprPostfix {n : ℕ} (ih : ExprRules P n) (e : Expression) :
    P (parseExprPostfix (n+1) e) := by
  rw [parseExprPostfix]
  refine R.bind R.hasNext fun more => ?_
  split_ifs
  · refine R.bind (rules_getToken R) fun t => ?_
    have hop : ∀ op, P (do
        StreamParser.next
        let rhs ← parseExpr n
        pure (Expression.binary {} e op rhs) : ParserM Expression) := by
      intro op
      exact R.bind R.next fun _ => R.bind ih.expr fun _ => R.pure _
    cases t.type with
    | openParen => exact R.bind (ih.call e) fun _ => ih.tail _
    | openBracket => exact R.bind (ih.index _) fun _ => ih.tail _
    | period => exact R.bind (rules_memberReference R e) fun _ => ih.tail _
    | equal => exact R.bind (ih.assign e) fun _ => ih.tail _
    | _ =>
      first
      | exact hop _
      | exact R.pure _
  · exact R.pure _

theorem exprRules (n : ℕ) : ExprRules P n := by
  induction n with
  | zero => constructor <;> intros <;> exact R.timeout
  | succ n ih =>
    refine ⟨?_, rules_parseExprPostfix R ih, ?_, ?_, ?_, ?_, ?_, ?_⟩
    · rw [parseExpr]
      refine R.bind (rules_getToken R) fun t => R.bind (rules_parseOperand R ih t) fun ret => ?_
      refine R.bind R.hasNext fun more => ?_
      split_ifs
      · exact ih.tail ret
      · exact R.pure ret
    · intro k
      rw [parseElements]
      refine R.bind (rules_getToken R) fun t => ?_
      split_ifs
      · exact R.pure _
      refine R.bind ih.expr fun element => R.bind (rules_getToken R) fun u => ?_
      split_ifs
      · exact R.pure _
      · exact R.bind (rules_expectToken R u _) fun _ => R.bind R.next fun _ =>
          R.bind (ih.elements k) fun _ => R.pure _
    · intro e
      exact R.bind (rules_skip R _) fun _ => R.bind (ih.elements _) fun _ =>
        R.bind (rules_skip R _) fun _ => R.pure _
    · exact R.bind (rules_skip R _) fun _ => R.bind (ih.elements _) fun _ =>
        R.bind (rules_skip R _) fun _ => R.pure _
    · exact R.bind (rules_skip R _) fun _ => R.bind (ih.elements _) fun _ =>
        R.bind (rules_skip R _) fun _ => R.pure _
    · intro e
      exact R.bind (rules_skip R _) fun _ => R.bind ih.expr fun _ =>
        R.bind (rules_skip R _) fun _ => R.pure _
    · intro e
      exact R.bind (rules_skip R _) fun _ => R.bind ih.expr fun _ => R.pure _

theorem rules_parseProps (n prop : ℕ) : P (parseProps n prop) := by
  induction n generalizing prop with
  | zero => exact R.timeout
  | succ n ih =>
    rw [parseProps]
    refine R.bind (rules_getToken R) fun t => ?_
    split_ifs
    · cases propertyOf t.text with
      | some p => exact R.bind R.next fun _ => ih _
      | none => exact R.throw _
    · exact R.pure _

theorem rules_parseParam : P parseParam := by
  refine R.bind (rules_getToken R) fun t => ?_
  split_ifs
  · exact R.bind R.next fun _ => R.bind (rules_expect R _) fun _ => R.bind (rules_getToken R) fun u =>
      R.bind (rules_readNumber R _) fun _ => R.bind R.next fun _ => R.bind (rules_skip R _) fun _ =>
        R.pure _
  · exact R.pure _

theorem rules_parseColumn (n : ℕ) : P (parseColumn n) :=
  R.bind (rules_takeText R) fun _ => R.bind (rules_parseParam R) fun _ =>
    R.bind (rules_skip R _) fun _ => R.bind (rules_takeIdentifier R) fun _ =>
      R.bind (rules_parseProps R n 0) fun _ => R.pure _

theorem rules_parseColumns (n : ℕ) : P (parseColumns n) := by
  induction n with
  | zero => exact R.timeout
  | succ n ih =>
    rw [parseColumns]
    refine R.bind (rules_parseColumn R n) fun c => R.bind (rules_getToken R) fun t => ?_
    split_ifs
    · exact R.bind (rules_skip R _) fun _ => R.bind ih fun _ => R.pure _
    · exact R.pure _

theorem rules_tupleType (n : ℕ) : P (tupleType n) :=
  R.bind (rules_skip R _) fun _ => R.bind (rules_parseColumns R n) fun _ =>
    R.bind (rules_skip R _) fun _ => R.pure _

theorem rules_primaryType : P primaryType := by
  refine R.bind (rules_expect R _) fun _ => R.bind (rules_getToken R) fun t => ?_
  cases typeParse t.text with
  | some id => exact R.bind R.next fun _ => R.pure _
  | none => exact R.throw _

theorem rules_parseType (n : ℕ) : P (parseType n) := by
  induction n with
  | zero => exact R.timeout
  | succ n ih =>
    rw [parseType]
    refine R.bind (rules_getToken R) fun t => ?_
    cases t.type with
    | openBracket =>
      exact R.bind (rules_skip R _) fun _ => R.bind ih fun _ => R.bind (rules_skip R _) fun _ => R.pure _
    | openBrace => exact rules_tupleType R n
    | _ => exact rules_primaryType R

theorem rules_parseRowType (n : ℕ) : P (parseRowType n) :=
  R.bind (rules_skip R _) fun _ => R.bind (rules_parseType R n) fun _ =>
    R.bind (rules_skip R _) fun _ => R.pure _

theorem rules_parseExpr (n : ℕ) : P (parseExpr n) := (exprRules R n).expr

theorem rules_parseIsolation : P parseIsolation := by
  refine R.bind (rules_getToken R) fun t => ?_
  split_ifs
  · exact R.pure _
  · exact rules_takeText R

theorem rules_parseLet (n : ℕ) : P (parseLet n) := by
  refine R.bind (rules_skip R _) fun _ => R.bind ?_ fun _ => R.bind (rules_takeIdentifier R) fun _ =>
    R.bind (rules_skip R _) fun _ => R.bind (rules_parseExpr R n) fun _ => R.pure _
  refine R.bind (rules_getToken R) fun t => ?_
  split_ifs
  · exact R.map (rules_parseRowType R n) _
  · exact R.pure _

theorem rules_parseDefineTuple (n : ℕ) : P (parseDefineTuple n) := by
  refine R.bind (rules_skip R _) fun _ => R.bind (rules_takeIdentifier R) fun _ =>
    R.bind (rules_parseType R n) fun t => ?_
  split_ifs
  · exact R.pure _
  · exact R.throw _

theorem rules_parseDefine (n : ℕ) : P (parseDefine n) :=
  R.bind (rules_skip R _) fun _ => R.bind (rules_parseRowType R n) fun _ =>
    R.bind (rules_takeIdentifier R) fun _ => R.pure _

theorem rules_parseEmit (n : ℕ) : P (parseEmit n) :=
  R.bind (rules_skip R _) fun _ => R.bind (rules_parseExpr R n) fun _ => R.pure _

theorem rules_parseInsert (n : ℕ) : P (parseInsert n) :=
  R.bind (rules_skip R _) fun _ => R.bind (rules_takeIdentifier R) fun _ =>
    R.bind (rules_expect R _) fun _ => R.bind (rules_parseExpr R n) fun _ => R.pure _

theorem rules_parseExprStatement (n : ℕ) : P (parseExprStatement n) :=
  R.bind (rules_parseExpr R n) fun _ => R.pure _

theorem rules_parseHeaderPart {α : Type} {p : ParserM α} (h : P p) : P (parseHeaderPart p) := by
  refine R.bind (rules_getToken R) fun t => ?_
  split_ifs
  · exact R.pure _
  · exact R.map h _

theorem rules_parseInitPart {p : ParserM (Option Statement)} (h : P p) : P (parseInitPart p) := by
  refine R.bind (rules_getToken R) fun t => ?_
  split_ifs
  · exact R.pure _
  · refine R.bind h fun s => ?_
    cases s with
    | some s => exact R.pure _
    | none => exact R.pure _

structure StatementRules (P : ∀ {α : Type}, ParserM α → Prop) (n : ℕ) : Prop where
  statement : P (parseStatement n)
  items : P (parseItems n)
  block : P (parseBlock n)
  transaction : P (parseTransaction n)
  ifStmt : P (parseIf n)
  forStmt : P (parseFor n)
  scan : P (parseScan n)

theorem rules_parseStatement {n : ℕ} (ih : StatementRules P n) : P (parseStatement (n+1)) := by
  rw [parseStatement]
  refine R.bind (rules_getToken R) fun t => ?_
  cases t.type with
  | closeBrace => exact R.pure _
  | openBrace => exact R.bind ih.block fun _ => R.pure _
  | transaction => exact R.map ih.transaction _
  | «let» => exact R.map (rules_parseLet R n) _
  | «if» => exact R.map ih.ifStmt _
  | «for» => exact R.map ih.forStmt _
  | define => exact R.map (rules_parseDefine R n) _
  | emit => exact R.map (rules_parseEmit R n) _
  | insert => exact R.map (rules_parseInsert R n) _
  | scan => exact R.map ih.scan _
  | «break» => exact R.bind R.next fun _ => R.pure _
  | «continue» => exact R.bind R.next fun _ => R.pure _
  | tuple => exact R.map (rules_parseDefineTuple R n) _
  | openBracket => exact R.map (rules_parseExprStatement R n) _
  | openParen => exact R.map (rules_parseExprStatement R n) _
  | number => exact R.map (rules_parseExprStatement R n) _
  | stringLiteral => exact R.map (rules_parseExprStatement R n) _
  | identifier => exact R.map (rules_parseExprStatement R n) _
  | _ => exact R.throw _

theorem rules_parseIf {n : ℕ} (ih : StatementRules P n) : P (parseIf (n+1)) := by
  rw [parseIf]
  refine R.bind (rules_skip R _) fun _ => R.bind (rules_parseExpr R n) fun _ =>
    R.bind (rules_expect R _) fun _ => R.bind ih.block fun _ => R.bind R.hasNext fun more => ?_
  split_ifs
  · refine R.bind (rules_getToken R) fun t => ?_
    split_ifs
    · exact R.bind R.next fun _ => R.bind (rules_expect R _) fun _ => R.bind ih.block fun _ => R.pure _
    · exact R.pure _
  · exact R.pure _

theorem statementRules (n : ℕ) : StatementRules P n := by
  induction n with
  | zero => constructor <;> exact R.timeout
  | succ n ih =>
    have hexpr := rules_parseHeaderPart R (rules_parseExpr R n)
    refine ⟨rules_parseStatement R ih, ?_, ?_, ?_, rules_parseIf R ih, ?_, ?_⟩
    · rw [parseItems]
      refine R.bind (rules_getToken R) fun t => ?_
      split_ifs
      · exact R.pure _
      · exact R.bind ih.statement fun _ => R.bind ih.items fun _ => R.pure _
    · rw [parseBlock]
      exact R.bind (rules_skip R _) fun _ => R.bind ih.items fun _ => R.bind (rules_skip R _) fun _ =>
        R.pure _
    · rw [parseTransaction]
      exact R.bind (rules_skip R _) fun _ => R.bind (rules_parseIsolation R) fun _ =>
        R.bind (rules_expect R _) fun _ => R.bind ih.block fun _ => R.pure _
    · rw [parseFor]
      refine R.bind (rules_skip R _) fun _ => R.bind (rules_parseInitPart R ih.statement) fun _ => ?_
      refine R.bind (rules_skip R _) fun _ => R.bind hexpr fun _ => R.bind (rules_skip R _) fun _ => ?_
      exact R.bind hexpr fun _ => R.bind (rules_expect R _) fun _ => R.bind ih.block fun _ => R.pure _
    · rw [parseScan]
      exact R.bind (rules_skip R _) fun _ => R.bind (rules_takeIdentifier R) fun _ =>
        R.bind (rules_skip R _) fun _ => R.bind (rules_takeText R) fun _ =>
          R.bind (rules_expect R _) fun _ => R.bind ih.block fun _ => R.pure _

end Rules

namespace TokenStream
variable {α : Type} {F : ℕ → ParserM α} {s : TokenStream}

/-- Progress counted in tokens, with fuel enough for the run, moves the index. -/
theorem moves_of_ensures {Q : α → List Token → Prop} {M : ℕ → Prop} {N : ℕ}
    (hidx : s.idx ≤ s.tokens.length) (href : ∀ n, Refines (F n) (F (n+1)))
    (hsuffix : ∀ n, (F n).LeavesSuffix) (hrun : ((F N).run s.rest).Ensures Q)
    (hQ : ∀ a r j, Q a r → r.length + j = s.tokens.length → M j) : Moves F s M := by
  cases h : (F N).run s.rest with
  | ok a r =>
    rw [h, ensures_ok] at hrun
    obtain ⟨j, -, hj, hrest, hlen⟩ := exists_idx (hsuffix N h) hidx
    have hsettles := Yields.settles href ⟨N, h⟩
    rw [hrest] at hsettles
    exact .inr ⟨a, j, hQ a r j hrun hlen, hj, hsettles⟩
  | fail e =>
    refine .inl ⟨e, N, fun n hn => ?_⟩
    exact (refines_of_le href hn).eq_fail h
  | overrun =>
    rw [h] at hrun
    exact absurd hrun id
  | timeout =>
    rw [h] at hrun
    exact absurd hrun id

theorem moves_of_shorter {N : ℕ} (hidx : s.idx ≤ s.tokens.length)
    (href : ∀ n, Refines (F n) (F (n+1))) (hsuffix : ∀ n, (F n).LeavesSuffix)
    (hrun : ((F N).run s.rest).Ensures (Shorter s.rest)) : Moves F s (s.idx < ·) := by
  refine moves_of_ensures hidx href hsuffix hrun fun a r j hr hlen => ?_
  simp only [Shorter, rest_length] at hr
  omega

end TokenStream

/-- Every function throws, or returns with the index moved forward within the tokens; the index of
`parse_expr_postfix` may stay. -/
theorem parser_moves (s : TokenStream) (h : s.idx < s.tokens.length) :
    s.Moves parseExpr (s.idx < ·) ∧ s.Moves parseType (s.idx < ·) ∧
      s.Moves parseRowType (s.idx < ·) ∧
      (s.tokens[s.idx].type ≠ .closeBrace → s.Moves parseStatement (s.idx < ·)) ∧
      ∀ e, s.Moves (fun n => parseExprPostfix n e) (s.idx ≤ ·) := by
  have hidx := h.le
  refine ⟨?_, ?_, ?_, fun hclose => ?_, fun e => ?_⟩
  · exact TokenStream.moves_of_shorter hidx parseExpr_refines (rules_parseExpr suffixRules)
      (parseExpr_progress le_rfl)
  · exact TokenStream.moves_of_shorter hidx parseType_refines (rules_parseType suffixRules)
      (parseType_progress _ _ le_rfl)
  · exact TokenStream.moves_of_shorter hidx parseRowType_refines (rules_parseRowType suffixRules)
      (parseRowType_progress _ _ le_rfl)
  · have hstep := (statementProgress _).statement s.rest le_rfl
    refine TokenStream.moves_of_shorter hidx parseStatement_refines
      (fun n => (statementRules suffixRules n).statement) (hstep.mono fun a r hr => ?_)
    rcases hr with ⟨-, hat, -⟩ | ⟨-, -, hlt⟩
    · rw [TokenStream.rest_eq_cons h] at hat
      exact absurd hat hclose
    · exact hlt
  · refine TokenStream.moves_of_ensures hidx (fun n => (exprRefines n).tail e)
      (fun n => (exprRules suffixRules n).tail e) ((exprProgress _).tail e s.rest le_rfl) ?_
    intro a r j hr hlen
    simp only [NotLonger, TokenStream.rest_length] at hr
    omega

/-- `if x < 1 { emit {x} }` -/
def writtenEmit : TokenStream where
  tokens := [⟨.if, text "if", 1, 0⟩, ⟨.identifier, text "x", 1, 3⟩, ⟨.openAngle, text "<", 1, 5⟩,
    ⟨.number, text "1", 1, 7⟩, ⟨.openBrace, [123], 1, 9⟩, ⟨.emit, text "emit", 1, 11⟩,
    ⟨.openBrace, [123], 1, 16⟩, ⟨.identifier, text "x", 1, 17⟩, ⟨.closeBrace, [125], 1, 18⟩,
    ⟨.closeBrace, [125], 1, 20⟩]
  idx := 0

theorem parser_moves_writtenEmit :
    writtenEmit.Moves parseExpr (0 < ·) ∧ writtenEmit.Moves parseStatement (0 < ·) := by
  have h := parser_moves writtenEmit (by decide)
  exact ⟨h.1, h.2.2.2.1 (by decide)⟩

end Reir
