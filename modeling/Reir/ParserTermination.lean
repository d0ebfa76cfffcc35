import Reir.ParserProgress

/-! Termination of `parse`. More fuel never changes a result, so the parser without fuel is
the limit of the runs, and `parse` terminates when some fuel is enough. The loop of a block
stops at a closing brace; the loop of `parse` does not, and a closing brace there is never
consumed. -/
namespace Reir
open StreamParser

structure ExprRefines (n : ℕ) : Prop where
  expr : Refines (parseExpr n) (parseExpr (n+1))
  tail : ∀ e, Refines (parseExprPostfix n e) (parseExprPostfix (n+1) e)
  elements : ∀ k, Refines (parseElements n k) (parseElements (n+1) k)
  call : ∀ e, Refines (functionCall n e) (functionCall (n+1) e)
  row : Refines (rowLiteral n) (rowLiteral (n+1))
  array : Refines (arrayLiteral n) (arrayLiteral (n+1))
  index : ∀ e, Refines (arrayReference n e) (arrayReference (n+1) e)
  assign : ∀ e, Refines (assign n e) (assign (n+1) e)

theorem parseOperand_refines {e₁ e₂ r₁ r₂ a₁ a₂ : ParserM Expression} (he : Refines e₁ e₂)
    (hr : Refines r₁ r₂) (ha : Refines a₁ a₂) (t : Token) :
    Refines (parseOperand e₁ r₁ a₁ t) (parseOperand e₂ r₂ a₂ t) := by
  unfold parseOperand
  cases t.type with
  | and => exact (Refines.refl _).bind fun _ => he.bind fun _ => Refines.refl _
  | openParen => exact (Refines.refl _).bind fun _ => he.bind fun _ => Refines.refl _
  | openBrace => exact hr
  | openBracket => exact ha
  | _ => exact Refines.refl _

theorem parseExprPostfix_refines {n : ℕ} (ih : ExprRefines n) (e : Expression) :
    Refines (parseExprPostfix (n+1) e) (parseExprPostfix (n+1+1) e) := by
  simp only [parseExprPostfix]
  refine (Refines.refl _).bind fun more => Refines.ite ?_ (Refines.refl _)
  refine (Refines.refl _).bind fun token => ?_
  have hop : ∀ op, Refines (do next; let rhs ← parseExpr n; pure (Expression.binary {} e op rhs))
      (do next; let rhs ← parseExpr (n+1); pure (Expression.binary {} e op rhs)) := by
    intro op
    exact (Refines.refl _).bind fun _ => ih.expr.bind fun _ => Refines.refl _
  cases token.type with
  | openParen => exact (ih.call e).bind fun _ => ih.tail _
  | openBracket => exact (ih.index _).bind fun _ => ih.tail _
  | period => exact (Refines.refl _).bind fun _ => ih.tail _
  | equal => exact (ih.assign e).bind fun _ => ih.tail _
  | _ =>
    first
    | exact hop _
    | exact Refines.refl _

theorem exprRefines (n : ℕ) : ExprRefines n := by
  induction n with
  | zero => constructor <;> intros <;> exact Refines.timeout
  | succ n ih =>
    refine ⟨?_, parseExprPostfix_refines ih, ?_, ?_, ?_, ?_, ?_, ?_⟩
    · simp only [parseExpr]
      refine (Refines.refl _).bind fun token => ?_
      refine (parseOperand_refines ih.expr ih.row ih.array token).bind fun ret => ?_
      exact (Refines.refl _).bind fun more => (ih.tail ret).ite (Refines.refl _)
    · intro k
      simp only [parseElements]
      refine (Refines.refl _).bind fun token => (Refines.refl _).ite ?_
      refine ih.expr.bind fun element => ?_
      refine (Refines.refl _).bind fun token => (Refines.refl _).ite ?_
      exact (Refines.refl _).bind fun _ => (Refines.refl _).bind fun _ =>
        (ih.elements k).bind fun _ => Refines.refl _
    · intro e
      simp only [functionCall]
      exact (Refines.refl _).bind fun _ => (ih.elements _).bind fun _ => Refines.refl _
    · simp only [rowLiteral]
      exact (Refines.refl _).bind fun _ => (ih.elements _).bind fun _ => Refines.refl _
    · simp only [arrayLiteral]
      exact (Refines.refl _).bind fun _ => (ih.elements _).bind fun _ => Refines.refl _
    · intro e
      simp only [arrayReference]
      exact (Refines.refl _).bind fun _ => ih.expr.bind fun _ => Refines.refl _
    · intro e
      simp only [Reir.assign]
      exact (Refines.refl _).bind fun _ => ih.expr.bind fun _ => Refines.refl _

theorem parseExpr_refines (n : ℕ) : Refines (parseExpr n) (parseExpr (n+1)) :=
  (exprRefines n).expr

theorem parseProps_refines (n prop : ℕ) :
    Refines (parseProps n prop) (parseProps (n+1) prop) := by
  induction n generalizing prop with
  | zero => exact Refines.timeout
  | succ n ih =>
    simp only [parseProps]
    refine (Refines.refl _).bind fun token => Refines.ite ?_ (Refines.refl _)
    cases propertyOf token.text with
    | some p => exact (Refines.refl _).bind fun _ => ih _
    | none => exact Refines.refl _

theorem parseColumn_refines (n : ℕ) : Refines (parseColumn n) (parseColumn (n+1)) :=
  (Refines.refl _).bind fun _ => (Refines.refl _).bind fun _ => (Refines.refl _).bind fun _ =>
    (Refines.refl _).bind fun _ => (parseProps_refines n 0).bind fun _ => Refines.refl _

theorem parseColumns_refines (n : ℕ) : Refines (parseColumns n) (parseColumns (n+1)) := by
  induction n with
  | zero => exact Refines.timeout
  | succ n ih =>
    rw [parseColumns, parseColumns]
    refine (parseColumn_refines n).bind fun column => (Refines.refl _).bind fun token => ?_
    exact Refines.ite ((Refines.refl _).bind fun _ => ih.bind fun _ => Refines.refl _)
      (Refines.refl _)

theorem tupleType_refines (n : ℕ) : Refines (tupleType n) (tupleType (n+1)) :=
  (Refines.refl _).bind fun _ => (parseColumns_refines n).bind fun _ => Refines.refl _

theorem parseType_refines (n : ℕ) : Refines (parseType n) (parseType (n+1)) := by
  induction n with
  | zero => exact Refines.timeout
  | succ n ih =>
    rw [parseType, parseType]
    refine (Refines.refl _).bind fun token => ?_
    cases token.type with
    | openBracket => exact (Refines.refl _).bind fun _ => ih.bind fun _ => Refines.refl _
    | openBrace => exact tupleType_refines n
    | _ => exact Refines.refl _

theorem parseRowType_refines (n : ℕ) : Refines (parseRowType n) (parseRowType (n+1)) :=
  (Refines.refl _).bind fun _ => (parseType_refines n).bind fun _ => Refines.refl _

theorem parseDeclaredType_refines (n : ℕ) :
    Refines (parseDeclaredType n) (parseDeclaredType (n+1)) :=
  (Refines.refl _).bind fun _ => ((parseRowType_refines n).map some).ite (Refines.refl _)

theorem parseLet_refines (n : ℕ) : Refines (parseLet n) (parseLet (n+1)) :=
  (Refines.refl _).bind fun _ => (parseDeclaredType_refines n).bind fun _ =>
    (Refines.refl _).bind fun _ => (Refines.refl _).bind fun _ =>
      (parseExpr_refines n).bind fun _ => Refines.refl _

theorem parseDefineTuple_refines (n : ℕ) :
    Refines (parseDefineTuple n) (parseDefineTuple (n+1)) :=
  (Refines.refl _).bind fun _ => (Refines.refl _).bind fun _ =>
    (parseType_refines n).bind fun _ => Refines.refl _

theorem parseDefine_refines (n : ℕ) : Refines (parseDefine n) (parseDefine (n+1)) :=
  (Refines.refl _).bind fun _ => (parseRowType_refines n).bind fun _ => Refines.refl _

theorem parseEmit_refines (n : ℕ) : Refines (parseEmit n) (parseEmit (n+1)) :=
  (Refines.refl _).bind fun _ => (parseExpr_refines n).bind fun _ => Refines.refl _

theorem parseInsert_refines (n : ℕ) : Refines (parseInsert n) (parseInsert (n+1)) :=
  (Refines.refl _).bind fun _ => (Refines.refl _).bind fun _ => (Refines.refl _).bind fun _ =>
    (parseExpr_refines n).bind fun _ => Refines.refl _

theorem parseExprStatement_refines (n : ℕ) :
    Refines (parseExprStatement n) (parseExprStatement (n+1)) :=
  (parseExpr_refines n).bind fun _ => Refines.refl _

theorem parseHeaderPart_refines {α : Type} {p q : ParserM α} (h : Refines p q) :
    Refines (parseHeaderPart p) (parseHeaderPart q) :=
  (Refines.refl _).bind fun _ => (Refines.refl _).ite (h.map _)

theorem parseInitPart_refines {p q : ParserM (Option Statement)} (h : Refines p q) :
    Refines (parseInitPart p) (parseInitPart q) :=
  (Refines.refl _).bind fun _ => (Refines.refl _).ite (h.bind fun _ => Refines.refl _)

structure StatementRefines (n : ℕ) : Prop where
  statement : Refines (parseStatement n) (parseStatement (n+1))
  items : Refines (parseItems n) (parseItems (n+1))
  block : Refines (parseBlock n) (parseBlock (n+1))
  transaction : Refines (parseTransaction n) (parseTransaction (n+1))
  ifStmt : Refines (parseIf n) (parseIf (n+1))
  forStmt : Refines (parseFor n) (parseFor (n+1))
  scan : Refines (parseScan n) (parseScan (n+1))

theorem parseStatement_refines_step {n : ℕ} (ih : StatementRefines n) :
    Refines (parseStatement (n+1)) (parseStatement (n+1+1)) := by
  rw [parseStatement, parseStatement]
  refine (Refines.refl _).bind fun token => ?_
  cases token.type with
  | openBrace => exact ih.block.bind fun _ => Refines.refl _
  | transaction => exact ih.transaction.map _
  | «let» => exact (parseLet_refines n).map _
  | «if» => exact ih.ifStmt.map _
  | «for» => exact ih.forStmt.map _
  | define => exact (parseDefine_refines n).map _
  | emit => exact (parseEmit_refines n).map _
  | insert => exact (parseInsert_refines n).map _
  | scan => exact ih.scan.map _
  | tuple => exact (parseDefineTuple_refines n).map _
  | openBracket => exact (parseExprStatement_refines n).map _
  | openParen => exact (parseExprStatement_refines n).map _
  | number => exact (parseExprStatement_refines n).map _
  | stringLiteral => exact (parseExprStatement_refines n).map _
  | identifier => exact (parseExprStatement_refines n).map _
  | _ => exact Refines.refl _

theorem statementRefines (n : ℕ) : StatementRefines n := by
  induction n with
  | zero => constructor <;> exact Refines.timeout
  | succ n ih =>
    have hexpr := parseExpr_refines n
    refine ⟨parseStatement_refines_step ih, ?_, ?_, ?_, ?_, ?_, ?_⟩
    · rw [parseItems, parseItems]
      refine (Refines.refl _).bind fun token => (Refines.refl _).ite ?_
      exact ih.statement.bind fun _ => ih.items.bind fun _ => Refines.refl _
    · rw [parseBlock, parseBlock]
      exact (Refines.refl _).bind fun _ => ih.items.bind fun _ => Refines.refl _
    · rw [parseTransaction, parseTransaction]
      exact (Refines.refl _).bind fun _ => (Refines.refl _).bind fun _ =>
        (Refines.refl _).bind fun _ => ih.block.bind fun _ => Refines.refl _
    · rw [parseIf, parseIf]
      refine (Refines.refl _).bind fun _ => hexpr.bind fun cond => (Refines.refl _).bind fun _ => ?_
      refine ih.block.bind fun trueBlock => (Refines.refl _).bind fun more => ?_
      refine Refines.ite ((Refines.refl _).bind fun token => ?_) (Refines.refl _)
      refine Refines.ite ((Refines.refl _).bind fun _ => (Refines.refl _).bind fun _ => ?_)
        (Refines.refl _)
      exact ih.block.bind fun _ => Refines.refl _
    · rw [parseFor, parseFor]
      refine (Refines.refl _).bind fun _ => (parseInitPart_refines ih.statement).bind fun init => ?_
      refine (Refines.refl _).bind fun _ => (parseHeaderPart_refines hexpr).bind fun cond => ?_
      refine (Refines.refl _).bind fun _ => (parseHeaderPart_refines hexpr).bind fun every => ?_
      exact (Refines.refl _).bind fun _ => ih.block.bind fun _ => Refines.refl _
    · rw [parseScan, parseScan]
      refine (Refines.refl _).bind fun _ => (Refines.refl _).bind fun _ => ?_
      refine (Refines.refl _).bind fun _ => (Refines.refl _).bind fun _ => ?_
      exact (Refines.refl _).bind fun _ => ih.block.bind fun _ => Refines.refl _

theorem parseStatement_refines (n : ℕ) : Refines (parseStatement n) (parseStatement (n+1)) :=
  (statementRefines n).statement

/-- Complete statements read one after another, each by `parse_statement`. -/
inductive Statements : List Token → List Statement → List Token → Prop
  | nil (ts : List Token) : Statements ts [] ts
  | cons {ts r r' : List Token} {s : Statement} {ss : List Statement} :
      Yields parseStatement ts (some s) r → Statements r ss r' → Statements ts (s :: ss) r'

/-- A closing brace that closes no block: it stands directly behind complete statements. -/
def StrayBrace (ts : List Token) : Prop := ∃ ss r, Statements ts ss r ∧ AtClose r

/-- `parse` reaches its callback or throws. -/
def ParseTerminates (code : Text) : Prop :=
  ∃ n, (∃ ss rest, parse n code = .ok ss rest) ∨ ∃ e, parse n code = .fail e

/-- Every iteration of the loop of `parse` consumes a token. -/
def LoopConsumes (ts : List Token) : Prop :=
  ∀ ss r s r', Statements ts ss r → Yields parseStatement r s r' → r'.length < r.length

/-- Every iteration of the loop of a block consumes a token. -/
def BlockLoopConsumes : Prop :=
  ∀ ts s r, ¬AtClose ts → Yields parseStatement ts s r → r.length < ts.length

theorem statementStep_of_yields {ts r : List Token} {s : Option Statement}
    (h : Yields parseStatement ts s r) : StatementStep ts s r := by
  obtain ⟨m, hm⟩ := h
  have hle := refines_of_le parseStatement_refines (le_max_left m (4*ts.length+4))
  have hstep := (statementProgress _).statement ts (le_max_right m (4*ts.length+4))
  exact hstep.of_eq_ok (hle.eq_ok hm)

theorem blockLoopConsumes : BlockLoopConsumes := by
  intro ts s r hclose h
  rcases statementStep_of_yields h with ⟨_, hat, _⟩ | ⟨_, _, hlt⟩
  · exact absurd hat hclose
  · exact hlt

theorem parseStatement_atClose {ts : List Token} (h : AtClose ts) (n : ℕ) :
    (parseStatement (n+1)).run ts = .ok none ts := by
  cases ts with
  | nil => exact absurd h id
  | cons t r =>
    have ht : t.type = .closeBrace := h
    rw [parseStatement, getToken, get_cons_bind, ht]
    rfl

theorem parseLoop_cons (n : ℕ) (t : Token) (r : List Token) :
    (parseLoop (n+1)).run (t :: r) = (do
      let entry ← parseStatement n
      let rest ← parseLoop n
      pure (entry.toList ++ rest) : ParserM (List Statement)).run (t :: r) := rfl

/-- At a closing brace the loop does not move. -/
theorem parseLoop_atClose {ts : List Token} (h : AtClose ts) (n : ℕ) :
    (parseLoop n).run ts = .timeout := by
  induction n with
  | zero => rfl
  | succ n ih =>
    cases ts with
    | nil => exact absurd h id
    | cons t r =>
      rw [parseLoop_cons]
      cases n with
      | zero => rfl
      | succ n =>
        rw [bind_ok (parseStatement_atClose h n), run_bind, ih]
        rfl

theorem parseLoop_statements {ts r : List Token} {ss : List Statement} (h : Statements ts ss r)
    (hr : AtClose r) (n : ℕ) : (parseLoop n).run ts = .timeout := by
  induction h generalizing n with
  | nil ts => exact parseLoop_atClose hr n
  | @cons ts r r' s ss hs _ ih =>
    cases n with
    | zero => rfl
    | succ n =>
      obtain ⟨m, hm⟩ := hs
      cases ts with
      | nil =>
        have hstep := statementStep_of_yields ⟨m, hm⟩
        rcases hstep with ⟨hnone, _, _⟩ | ⟨_, _, hlt⟩
        · exact absurd hnone (by simp)
        · simp at hlt
      | cons t u =>
        rw [parseLoop_cons]
        have hmax := (refines_of_le parseStatement_refines (le_max_left m n)).eq_ok hm
        rcases refines_of_le parseStatement_refines (le_max_right m n) (t :: u) with hn | hn
        · rw [run_bind, hn]
          rfl
        · rw [bind_ok (hn.trans hmax), run_bind, ih hr n]
          rfl

theorem parseLoop_ensures (n : ℕ) (ts : List Token) (hn : 4*ts.length+5 ≤ n)
    (h : ¬StrayBrace ts) : ((parseLoop n).run ts).Ensures fun _ r => r = [] := by
  induction n generalizing ts with
  | zero => omega
  | succ n ih =>
    cases ts with
    | nil => rfl
    | cons t u =>
      rw [parseLoop_cons, ensures_bind]
      cases hrun : (parseStatement n).run (t :: u) with
      | ok s r =>
        have hs : Yields parseStatement (t :: u) s r := ⟨n, hrun⟩
        rcases statementStep_of_yields hs with ⟨_, hclose, _⟩ | ⟨⟨s', rfl⟩, _, hlt⟩
        · exact absurd ⟨[], t :: u, .nil _, hclose⟩ h
        · have hr : ¬StrayBrace r := by
            rintro ⟨ss, r', hss, hclose⟩
            exact h ⟨s' :: ss, r', .cons hs hss, hclose⟩
          rw [ensures_ok, ensures_bind]
          exact (ih r (by omega) hr).mono fun _ _ h => h
      | fail e => trivial
      | overrun =>
        have hp := (statementProgress n).statement (t :: u) (by omega)
        rw [hrun] at hp
        exact hp
      | timeout =>
        have hp := (statementProgress n).statement (t :: u) (by omega)
        rw [hrun] at hp
        exact hp

theorem loopConsumes_of_not_strayBrace {ts : List Token} (h : ¬StrayBrace ts) :
    LoopConsumes ts := by
  intro ss r s r' hss hs
  apply blockLoopConsumes r s r' _ hs
  intro hclose
  exact h ⟨ss, r, hss, hclose⟩

/-- `parse` terminates exactly on the inputs without a stray closing brace. -/
theorem parse_terminates_iff {code : Text} {tokens : List Token}
    (h : tokenize code = .ok tokens) :
    (ParseTerminates code ∧ LoopConsumes tokens ∧ BlockLoopConsumes) ↔ ¬StrayBrace tokens := by
  have hparse : ∀ n, parse n code = (parseLoop n).run tokens := by
    intro n
    simp [parse, h]
  constructor
  · rintro ⟨⟨n, hn⟩, _, _⟩ ⟨ss, r, hss, hclose⟩
    rw [hparse, parseLoop_statements hss hclose n] at hn
    simp at hn
  · intro hstray
    refine ⟨⟨4*tokens.length+5, ?_⟩, loopConsumes_of_not_strayBrace hstray, blockLoopConsumes⟩
    have hloop := parseLoop_ensures _ tokens le_rfl hstray
    rw [hparse]
    cases hrun : (parseLoop (4*tokens.length+5)).run tokens with
    | ok ss r => exact .inl ⟨ss, r, rfl⟩
    | fail e => exact .inr ⟨e, rfl⟩
    | overrun =>
      rw [hrun] at hloop
      exact absurd hloop id
    | timeout =>
      rw [hrun] at hloop
      exact absurd hloop id

theorem parse_terminates_iff_let :
    tokenize (text "let x = 1") = .ok [⟨.let, text "let", 1, 0⟩, ⟨.identifier, text "x", 4, 0⟩,
      ⟨.equal, text "=", 1, 4⟩, ⟨.number, text "1", 1, 4⟩] ∧
    ((ParseTerminates (text "let x = 1") ∧ LoopConsumes [⟨.let, text "let", 1, 0⟩,
      ⟨.identifier, text "x", 4, 0⟩, ⟨.equal, text "=", 1, 4⟩, ⟨.number, text "1", 1, 4⟩] ∧
      BlockLoopConsumes) ↔ ¬StrayBrace [⟨.let, text "let", 1, 0⟩, ⟨.identifier, text "x", 4, 0⟩,
      ⟨.equal, text "=", 1, 4⟩, ⟨.number, text "1", 1, 4⟩]) :=
  ⟨by decide, parse_terminates_iff (by decide)⟩

/-- On a lone closing brace no amount of fuel is enough. -/
theorem parse_diverges_on_brace :
    tokenize (text "\x7d") = .ok [⟨.closeBrace, text "\x7d", 1, 0⟩] ∧
      ¬ParseTerminates (text "\x7d") := by
  have htok : tokenize (text "\x7d") = .ok [⟨.closeBrace, text "\x7d", 1, 0⟩] := by decide
  have hclose : AtClose [⟨.closeBrace, text "\x7d", 1, 0⟩] := rfl
  refine ⟨htok, ?_⟩
  rintro ⟨n, hn⟩
  simp [parse, htok, parseLoop_atClose hclose n] at hn

end Reir
