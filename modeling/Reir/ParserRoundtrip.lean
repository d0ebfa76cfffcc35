import Reir.ParserLookahead
import Reir.Renderer

/-! Printing then parsing is the identity. The induction is over the two syntaxes; an
expression is read back in front of any tokens that do not continue it, and a statement in
front of any tokens that do not continue its last part. -/
namespace Reir
open StreamParser

attribute [local simp] Expression.render renderList Statement.render renderAll

theorem readNumber_decimal {n : ℕ} (h : n < 2^31) (ts : List Token) :
    (readNumber (decimal n)).run ts = .ok (n : Int) ts := by
  rw [readNumber, stoi, stoInt_decimal h]
  rfl

theorem primaryExpression_literal {v : MaybeValue} (h : LiteralPrintable v) (ts : List Token) :
    primaryExpression.run (literalToken v :: ts) = .ok (.primary {} v) ts := by
  match v, h with
  | some (.int v), h =>
    have hv : BitVec.ofInt 64 ((v.toNat : ℕ) : Int) = v := by
      rw [BitVec.ofInt_natCast]
      simp
    have hread := @readNumber_decimal v.toNat h (numberToken v.toNat :: ts)
    change (readNumber (decimal v.toNat) >>= fun n => next >>= fun _ =>
      (pure (.primary {} (some (.int (BitVec.ofInt 64 n)))) : ParserM Expression)).run
        (numberToken v.toNat :: ts) = _
    rw [bind_ok hread, hv]
    rfl
  | some (.varchar s), _ => rfl

/-- The tokens an expression starts with. -/
def startsExpression (k : TokenType) : Bool :=
  match k with
  | .number | .stringLiteral | .identifier | .openParen | .and | .openBrace | .openBracket => true
  | _ => false

theorem render_starts {e : Expression} (h : e.Printable) :
    ∃ t us, e.render = t :: us ∧ startsExpression t.type = true := by
  match e, h with
  | .primary _ (some (.int v)), _ => exact ⟨_, _, rfl, rfl⟩
  | .primary _ (some (.varchar s)), _ => exact ⟨_, _, rfl, rfl⟩
  | .binary _ _ _ _, _ => exact ⟨_, _, rfl, rfl⟩
  | .pointerOf _ _, _ => exact ⟨_, _, rfl, rfl⟩
  | .rowLiteral _ _, _ => exact ⟨_, _, rfl, rfl⟩
  | .arrayLiteral _ _, _ => exact ⟨_, _, rfl, rfl⟩
  | .variable _ _, _ => exact ⟨_, _, rfl, rfl⟩
  | .functionCall _ _ _, _ => exact ⟨_, _, rfl, rfl⟩
  | .arrayReference _ (some _) _, _ => exact ⟨_, _, rfl, rfl⟩
  | .memberReference _ _ _ _, _ => exact ⟨_, _, rfl, rfl⟩
  | .assign _ _ _, _ => exact ⟨_, _, rfl, rfl⟩

/-- The expression is read back in front of tokens that do not continue it. -/
def Reads (e : Expression) : Prop :=
  ∀ rest, Stops rest → Settles parseExpr (e.render ++ rest) (.ok e rest)

/-- An operand without postfix is read back by the switch of `parse_expr`. -/
theorem reads_operand {e : Expression} {t : Token} {us : List Token} (he : e.render = t :: us)
    (h : ∀ rest, ∃ n, ∀ m, n ≤ m →
      (parseOperand (parseExpr m) (rowLiteral m) (arrayLiteral m) t).run (t :: (us ++ rest)) =
        .ok e rest) : Reads e := by
  intro rest hstops
  obtain ⟨n, hn⟩ := h rest
  refine ⟨n+2, ?_⟩
  intro m hm
  obtain ⟨k, rfl⟩ : ∃ k, m = k+2 := ⟨m-2, by omega⟩
  rw [he, List.cons_append, parseExpr_operand (hn (k+1) (by omega)),
    parseExprPostfix_stops _ _ hstops]

/-- Behind a parenthesised expression `parse_expr` goes on with the postfix. -/
theorem parseExpr_parenthesised {e : Expression} (h : Reads e) (rest : List Token) :
    ∃ n, ∀ m, n ≤ m → (parseExpr (m+2)).run (parenthesised e.render ++ rest) =
      (parseExprPostfix (m+1) e).run rest := by
  obtain ⟨n, hn⟩ := h (closeParen :: rest) rfl
  refine ⟨n, ?_⟩
  intro m hm
  have hts : parenthesised e.render ++ rest = openParen :: (e.render ++ closeParen :: rest) := by
    simp [parenthesised]
  rw [hts]
  apply parseExpr_operand
  change (parseExpr (m+1) >>= fun inner => skip .closeParen >>= fun _ =>
    (pure inner : ParserM Expression)).run (e.render ++ closeParen :: rest) = _
  rw [bind_ok (hn (m+1) (by omega)), bind_ok (run_skip (by rfl))]
  rfl

/-- A parenthesised expression is read as the expression itself. -/
theorem parenthesised_settles {e : Expression} (h : Reads e) {rest : List Token}
    (hstops : Stops rest) :
    Settles parseExpr (parenthesised e.render ++ rest) (.ok e rest) := by
  obtain ⟨n, hn⟩ := parseExpr_parenthesised h rest
  refine ⟨n+2, ?_⟩
  intro m hm
  obtain ⟨k, rfl⟩ : ∃ k, m = k+2 := ⟨m-2, by omega⟩
  rw [hn k (by omega), parseExprPostfix_stops _ _ hstops]

theorem reads_primary {v : MaybeValue} (h : LiteralPrintable v) : Reads (.primary {} v) := by
  refine reads_operand rfl fun rest => ⟨0, fun m _ => ?_⟩
  have hrun := primaryExpression_literal h rest
  match v, h with
  | some (.int v), _ => exact hrun
  | some (.varchar s), _ => exact hrun

theorem reads_variable (x : Text) : Reads (.variable {} x) := by
  refine reads_operand rfl fun rest => ⟨0, fun m _ => ?_⟩
  change variableReference.run (identToken x :: rest) = _
  rw [variableReference, bind_ok (run_takeIdentifier (by rfl))]
  rfl

theorem reads_pointerOf {e : Expression} (h : Reads e) : Reads (.pointerOf {} e) := by
  intro rest hstops
  obtain ⟨n, hn⟩ := parenthesised_settles h hstops
  refine ⟨n+2, ?_⟩
  intro m hm
  obtain ⟨k, rfl⟩ : ∃ k, m = k+2 := ⟨m-2, by omega⟩
  rw [Expression.render, List.cons_append]
  have hop : (parseOperand (parseExpr (k+1)) (rowLiteral (k+1)) (arrayLiteral (k+1))
      (symbol .and "&")).run (symbol .and "&" :: (parenthesised e.render ++ rest)) =
      .ok (.pointerOf {} e) rest := by
    change (parseExpr (k+1) >>= fun target =>
      (pure (.pointerOf {} target) : ParserM Expression)).run (parenthesised e.render ++ rest) = _
    rw [bind_ok (hn (k+1) (by omega))]
    rfl
  rw [parseExpr_operand hop, parseExprPostfix_stops _ _ hstops]

theorem operatorSymbol_type {op : Operators} (h : op ≠ .none) :
    binaryOperator (operatorSymbol op).type = some op := by
  cases op with
  | none => exact absurd rfl h
  | _ => rfl

theorem reads_binary {l r : Expression} {op : Operators} (hop : op ≠ .none) (hl : Reads l)
    (hr : Reads r) : Reads (.binary {} l op r) := by
  intro rest hstops
  obtain ⟨n₁, h₁⟩ := parseExpr_parenthesised hl
    (operatorSymbol op :: (parenthesised r.render ++ rest))
  obtain ⟨n₂, h₂⟩ := parenthesised_settles hr hstops
  refine ⟨n₁+n₂+2, ?_⟩
  intro m hm
  obtain ⟨k, rfl⟩ : ∃ k, m = k+2 := ⟨m-2, by omega⟩
  rw [Expression.render, List.append_assoc, List.cons_append, h₁ k (by omega),
    parseExprPostfix_operator k _ (operatorSymbol_type hop), bind_ok (h₂ k (by omega))]
  rfl

theorem reads_memberReference {e : Expression} (h : Reads e) (x : Text) :
    Reads (.memberReference {} e x none) := by
  intro rest hstops
  obtain ⟨n, hn⟩ := parseExpr_parenthesised h (symbol .period "." :: identToken x :: rest)
  refine ⟨n+3, ?_⟩
  intro m hm
  obtain ⟨k, rfl⟩ : ∃ k, m = k+1+2 := ⟨m-3, by omega⟩
  rw [Expression.render, List.append_assoc]
  change (parseExpr (k+1+2)).run
    (parenthesised e.render ++ (symbol .period "." :: identToken x :: rest)) = _
  rw [hn (k+1) (by omega)]
  have hmember : (memberReference e).run (symbol .period "." :: identToken x :: rest) =
      .ok (.memberReference {} e x none) rest := rfl
  rw [parseExprPostfix_member _ _ _ (by rfl), bind_ok hmember, parseExprPostfix_stops _ _ hstops]

theorem reads_assign {t v : Expression} (ht : Reads t) (hv : Reads v) :
    Reads (.assign {} t v) := by
  intro rest hstops
  obtain ⟨n₁, h₁⟩ := parseExpr_parenthesised ht
    (symbol .equal "=" :: (parenthesised v.render ++ rest))
  obtain ⟨n₂, h₂⟩ := parenthesised_settles hv hstops
  refine ⟨n₁+n₂+4, ?_⟩
  intro m hm
  obtain ⟨k, rfl⟩ : ∃ k, m = k+2+2 := ⟨m-4, by omega⟩
  rw [Expression.render, List.append_assoc, List.cons_append, h₁ (k+2) (by omega)]
  have hassign : (assign (k+2) t).run (symbol .equal "=" :: (parenthesised v.render ++ rest)) =
      .ok (.assign {} t v) rest := by
    rw [assign, bind_ok (run_skip (by rfl)), bind_ok (h₂ (k+1) (by omega))]
    rfl
  rw [parseExprPostfix_assign _ _ _ (by rfl), bind_ok hassign, parseExprPostfix_stops _ _ hstops]

theorem reads_arrayReference {i : Expression} (x : Text) (hi : Reads i) :
    Reads (.arrayReference {} (some (.variable {} x)) i) := by
  intro rest hstops
  obtain ⟨n₁, h₁⟩ := parseExpr_parenthesised (reads_variable x)
    (openBracket :: (i.render ++ closeBracket :: rest))
  obtain ⟨n₂, h₂⟩ := hi (closeBracket :: rest) rfl
  refine ⟨n₁+n₂+4, ?_⟩
  intro m hm
  obtain ⟨k, rfl⟩ : ∃ k, m = k+2+2 := ⟨m-4, by omega⟩
  have hts : (Expression.arrayReference {} (some (.variable {} x)) i).render ++ rest =
      parenthesised (Expression.variable {} x).render ++
        openBracket :: (i.render ++ closeBracket :: rest) := by
    simp [Expression.render]
  rw [hts, h₁ (k+2) (by omega)]
  have href : (arrayReference (k+2) (some (.variable {} x))).run
      (openBracket :: (i.render ++ closeBracket :: rest)) =
      .ok (.arrayReference {} (some (.variable {} x)) i) rest := by
    rw [arrayReference, bind_ok (run_skip (by rfl)), bind_ok (h₂ (k+1) (by omega)),
      bind_ok (run_skip (by rfl))]
    rfl
  rw [parseExprPostfix_index _ _ _ (by rfl), Expression.asVariable, bind_ok href, parseExprPostfix_stops _ _ hstops]

/-- A list of elements is read back up to its closing token. -/
def ReadsElements (es : List Expression) : Prop :=
  ∀ (close : Token) (kind : TokenType) (rest : List Token), close.type = kind → kind ≠ .comma →
    continues kind = false → startsExpression kind = false →
    ∃ n, ∀ m, n ≤ m → (parseElements m kind).run
      (commaSeparated (renderList es) ++ close :: rest) = .ok es (close :: rest)

theorem readsElements_nil : ReadsElements [] := by
  intro close kind rest hkind _ _ _
  refine ⟨1, ?_⟩
  intro m hm
  obtain ⟨k, rfl⟩ : ∃ k, m = k+1 := ⟨m-1, by omega⟩
  rw [parseElements, getToken]
  change ((get ParseError.eof) >>= _).run (close :: rest) = _
  rw [get_cons_bind, if_pos hkind]
  rfl

/-- The first token of an element is not the closing token. -/
theorem parseElements_element {e : Expression} (hp : e.Printable) {kind : TokenType}
    (hclose : startsExpression kind = false) (m : ℕ) (ts : List Token) :
    (parseElements (m+1) kind).run (e.render ++ ts) = (do
      let element ← parseExpr m
      let token ← getToken
      if token.type = kind then pure [element]
      else do
        expectToken token .comma
        next
        let rest ← parseElements m kind
        pure (element :: rest) : ParserM (List Expression)).run (e.render ++ ts) := by
  obtain ⟨t, us, hrender, hstarts⟩ := render_starts hp
  have hne : t.type ≠ kind := by
    intro h
    rw [h, hclose] at hstarts
    exact absurd hstarts (by simp)
  rw [hrender, List.cons_append, parseElements, getToken, get_cons_bind, if_neg hne]

theorem readsElements_cons {e : Expression} {es : List Expression} (hp : e.Printable)
    (he : Reads e) (hes : ReadsElements es) : ReadsElements (e :: es) := by
  intro close kind rest hkind hcomma hcont hstart
  cases es with
  | nil =>
    obtain ⟨n, hn⟩ := he (close :: rest) (by rw [Stops, hkind, hcont])
    refine ⟨n+1, ?_⟩
    intro m hm
    obtain ⟨k, rfl⟩ : ∃ k, m = k+1 := ⟨m-1, by omega⟩
    change (parseElements (k+1) kind).run (e.render ++ close :: rest) = _
    rw [parseElements_element hp hstart, bind_ok (hn k (by omega)), getToken, get_cons_bind,
      if_pos hkind]
    rfl
  | cons e' es =>
    obtain ⟨n₁, h₁⟩ := hes close kind rest hkind hcomma hcont hstart
    obtain ⟨n₂, h₂⟩ := he (comma :: (commaSeparated (renderList (e' :: es)) ++ close :: rest)) rfl
    refine ⟨n₁+n₂+1, ?_⟩
    intro m hm
    obtain ⟨k, rfl⟩ : ∃ k, m = k+1 := ⟨m-1, by omega⟩
    have hts : commaSeparated (renderList (e :: e' :: es)) ++ close :: rest =
        e.render ++ comma :: (commaSeparated (renderList (e' :: es)) ++ close :: rest) := by
      simp [renderList, commaSeparated]
    have hne : comma.type ≠ kind := fun h => hcomma h.symm
    rw [hts, parseElements_element hp hstart, bind_ok (h₂ k (by omega)), getToken, get_cons_bind,
      if_neg hne, expectToken, if_pos (by rfl), pure_bind, next_cons_bind, bind_ok (h₁ k (by omega))]
    rfl

theorem rowLiteral_settles {es : List Expression} (h : ReadsElements es) (rest : List Token) :
    Settles rowLiteral ((Expression.rowLiteral {} es).render ++ rest)
      (.ok (.rowLiteral {} es) rest) := by
  obtain ⟨n, hn⟩ := h closeBrace .closeBrace rest rfl (by decide) rfl rfl
  refine Settles.of_succ (n := n) fun m hm => ?_
  have hts : (Expression.rowLiteral {} es).render ++ rest =
      openBrace :: (commaSeparated (renderList es) ++ closeBrace :: rest) := by
    simp [Expression.render]
  rw [hts, rowLiteral, bind_ok (run_skip (by rfl)), bind_ok (hn m hm), bind_ok (run_skip (by rfl))]
  rfl

theorem reads_rowLiteral {es : List Expression} (h : ReadsElements es) :
    Reads (.rowLiteral {} es) := by
  refine reads_operand rfl fun rest => ?_
  obtain ⟨n, hn⟩ := rowLiteral_settles h rest
  exact ⟨n, fun m hm => hn m hm⟩

theorem reads_arrayLiteral {es : List Expression} (h : ReadsElements es) :
    Reads (.arrayLiteral {} es) := by
  refine reads_operand rfl fun rest => ?_
  obtain ⟨n, hn⟩ := h closeBracket .closeBracket rest rfl (by decide) rfl rfl
  refine ⟨n+1, fun m hm => ?_⟩
  obtain ⟨k, rfl⟩ : ∃ k, m = k+1 := ⟨m-1, by omega⟩
  have hts : commaSeparated (renderList es) ++ [closeBracket] ++ rest =
      commaSeparated (renderList es) ++ closeBracket :: rest := by simp
  rw [hts]
  change (arrayLiteral (k+1)).run _ = _
  rw [arrayLiteral, bind_ok (run_skip (by rfl)), bind_ok (hn k (by omega)), bind_ok (run_skip (by rfl))]
  rfl

theorem reads_functionCall {p : Expression} {as : List Expression} (hp : Reads p)
    (h : ReadsElements as) : Reads (.functionCall {} p as) := by
  intro rest hstops
  obtain ⟨n₁, h₁⟩ := parseExpr_parenthesised hp
    (openParen :: (commaSeparated (renderList as) ++ closeParen :: rest))
  obtain ⟨n₂, h₂⟩ := h closeParen .closeParen rest rfl (by decide) rfl rfl
  refine ⟨n₁+n₂+4, ?_⟩
  intro m hm
  obtain ⟨k, rfl⟩ : ∃ k, m = k+2+2 := ⟨m-4, by omega⟩
  have hts : (Expression.functionCall {} p as).render ++ rest = parenthesised p.render ++
      openParen :: (commaSeparated (renderList as) ++ closeParen :: rest) := by
    simp [Expression.render]
  rw [hts, h₁ (k+2) (by omega)]
  have hcall : (functionCall (k+2) p).run
      (openParen :: (commaSeparated (renderList as) ++ closeParen :: rest)) =
      .ok (.functionCall {} p as) rest := by
    rw [functionCall, bind_ok (run_skip (by rfl)), bind_ok (h₂ (k+1) (by omega)), bind_ok (run_skip (by rfl))]
    rfl
  rw [parseExprPostfix_call _ _ _ (by rfl), bind_ok hcall, parseExprPostfix_stops _ _ hstops]

mutual

theorem Expression.reads (e : Expression) (h : e.Printable) : Reads e :=
  match e, h with
  | .primary _ _, ⟨rfl, hv⟩ => reads_primary hv
  | .binary _ l _ r, ⟨rfl, hop, hl, hr⟩ => reads_binary hop (l.reads hl) (r.reads hr)
  | .pointerOf _ t, ⟨rfl, ht⟩ => reads_pointerOf (t.reads ht)
  | .rowLiteral _ es, ⟨rfl, hes⟩ => reads_rowLiteral (readsElements es hes)
  | .arrayLiteral _ es, ⟨rfl, hes⟩ => reads_arrayLiteral (readsElements es hes)
  | .variable _ x, rfl => reads_variable x
  | .functionCall _ p as, ⟨rfl, hp, has⟩ => reads_functionCall (p.reads hp) (readsElements as has)
  | .arrayReference _ (some _) i, ⟨rfl, ⟨x, rfl⟩, hi⟩ => reads_arrayReference x (i.reads hi)
  | .memberReference _ p x _, ⟨rfl, rfl, hp⟩ => reads_memberReference (p.reads hp) x
  | .assign _ t v, ⟨rfl, ht, hv⟩ => reads_assign (t.reads ht) (v.reads hv)

theorem readsElements (es : List Expression) (h : AllPrintable es) : ReadsElements es :=
  match es, h with
  | [], _ => readsElements_nil
  | e :: es, ⟨he, hes⟩ => readsElements_cons he (e.reads he) (readsElements es hes)

end

theorem parseProps_cons {x : Text} {p : ℕ} (h : propertyOf x = some p) (n acc : ℕ)
    (ts : List Token) :
    (parseProps (n+1) acc).run (identToken x :: ts) = (parseProps n (acc ||| p)).run ts := by
  rw [parseProps, getToken, get_cons_bind, if_pos (by rfl), identToken, h]
  rfl

theorem parseProps_stop {t : Token} (h : t.type ≠ .identifier) (n acc : ℕ) (ts : List Token) :
    (parseProps (n+1) acc).run (t :: ts) = .ok acc (t :: ts) := by
  rw [parseProps, getToken, get_cons_bind, if_neg h]
  rfl

theorem parseProps_render {prop : ℕ} (hprop : prop < 8) {t : Token} (ht : t.type ≠ .identifier)
    (n : ℕ) (ts : List Token) :
    (parseProps (n+4) 0).run (renderProps prop ++ t :: ts) = .ok prop (t :: ts) := by
  have hkey : propertyOf (text "key") = some 2 := by decide
  have hnullable : propertyOf (text "nullable") = some 1 := by decide
  have hunique : propertyOf (text "unique") = some 4 := by decide
  interval_cases prop <;>
    simp [renderProps, Nat.testBit, parseProps_cons hkey, parseProps_cons hnullable,
      parseProps_cons hunique, parseProps_stop ht]

theorem parseParam_render {param : Option Int} (h : ∀ p, param = some p → 0 ≤ p ∧ p < 2^31)
    (ts : List Token) : parseParam.run (renderParam param ++ symbol .colon ":" :: ts) =
      .ok param (symbol .colon ":" :: ts) := by
  cases param with
  | none => rfl
  | some p =>
    obtain ⟨h0, hlt⟩ := h p rfl
    have hread := @readNumber_decimal p.toNat (by omega)
      (numberToken p.toNat :: closeParen :: symbol .colon ":" :: ts)
    have hp : ((p.toNat : ℕ) : Int) = p := Int.toNat_of_nonneg h0
    change (readNumber (decimal p.toNat) >>= fun n => next >>= fun _ => skip .closeParen >>= fun _ =>
      (pure (some n) : ParserM (Option Int))).run
        (numberToken p.toNat :: closeParen :: symbol .colon ":" :: ts) = _
    rw [bind_ok hread, hp, next_cons_bind, bind_ok (run_skip (by rfl))]
    rfl

theorem parseColumn_render {c : Column} (h : c.Printable) {t : Token} (ht : t.type ≠ .identifier)
    (n : ℕ) (ts : List Token) :
    (parseColumn (n+4)).run (c.render ++ t :: ts) = .ok c (t :: ts) := by
  have hts : c.render ++ t :: ts = wordToken c.typeName :: (renderParam c.param ++
      symbol .colon ":" :: identToken c.name :: (renderProps c.prop ++ t :: ts)) := by
    simp [Column.render]
  rw [hts, parseColumn, bind_ok run_takeText, bind_ok (parseParam_render h.2 _),
    bind_ok (run_skip (by rfl)), bind_ok (run_takeIdentifier (by rfl)),
    bind_ok (parseProps_render h.1 ht n ts)]
  rfl

theorem parseColumns_render {cs : List Column} (hne : cs ≠ []) (h : ∀ c ∈ cs, c.Printable)
    (rest : List Token) (m : ℕ) (hm : cs.length + 5 ≤ m) :
    (parseColumns m).run (commaSeparated (cs.map Column.render) ++ closeBrace :: rest) =
      .ok cs (closeBrace :: rest) := by
  induction cs generalizing m with
  | nil => exact absurd rfl hne
  | cons c cs ih =>
    have hc : c.Printable := h c (by simp)
    obtain ⟨k, rfl⟩ : ∃ k, m = k+4+1 := ⟨m-5, by simp at hm; omega⟩
    cases cs with
    | nil =>
      change (parseColumns (k+4+1)).run (c.render ++ closeBrace :: rest) = _
      rw [parseColumns, bind_ok (parseColumn_render hc (by decide) k rest), getToken,
        get_cons_bind, if_neg (by decide)]
      rfl
    | cons c' cs =>
      have ih := ih (by simp) (fun x hx => h x (List.mem_cons_of_mem c hx)) (k+4)
        (by simp at hm ⊢; omega)
      have hts : commaSeparated ((c :: c' :: cs).map Column.render) ++ closeBrace :: rest =
          c.render ++ comma :: (commaSeparated ((c' :: cs).map Column.render) ++
            closeBrace :: rest) := by
        simp [commaSeparated]
      rw [hts, parseColumns, bind_ok (parseColumn_render hc (by decide) k _), getToken,
        get_cons_bind, if_pos (by rfl), bind_ok (run_skip (by rfl)), bind_ok ih]
      rfl

theorem tupleType_render {t : NodeType} (h : t.Printable) (rest : List Token) :
    Settles tupleType (t.render ++ rest) (.ok t rest) := by
  obtain ⟨htuple, hne, hall⟩ := h
  refine ⟨t.columns.length + 5, ?_⟩
  intro m hm
  have hts : t.render ++ rest = openBrace ::
      (commaSeparated (t.columns.map Column.render) ++ closeBrace :: rest) := by
    simp [NodeType.render]
  rw [hts, tupleType, bind_ok (run_skip (by rfl)), bind_ok (parseColumns_render hne hall rest m hm),
    bind_ok (run_skip (by rfl)), ← htuple]
  rfl

theorem parseType_render {t : NodeType} (h : t.Printable) (rest : List Token) :
    Settles parseType (t.render ++ rest) (.ok t rest) := by
  obtain ⟨n, hn⟩ := tupleType_render h rest
  refine Settles.of_succ (n := n) fun m hm => ?_
  rw [← hn m hm, parseType]
  rfl

theorem parseRowType_render {t : NodeType} (h : t.Printable) (rest : List Token) :
    Settles parseRowType (renderRowType t ++ rest) (.ok t rest) := by
  obtain ⟨n, hn⟩ := parseType_render h (symbol .closeAngle ">" :: rest)
  refine ⟨n, ?_⟩
  intro m hm
  have hts : renderRowType t ++ rest =
      symbol .openAngle "<" :: (t.render ++ symbol .closeAngle ">" :: rest) := by
    simp [renderRowType]
  rw [hts, parseRowType, bind_ok (run_skip (by rfl)), bind_ok (hn m hm), bind_ok (run_skip (by rfl))]
  rfl

theorem NodeType.Printable.isTuple {t : NodeType} (h : t.Printable) : t.isTuple = true := by
  rw [h.1]
  rfl

/-- The token does not start the `else` part of the statement in front of it. -/
def NotElse : List Token → Prop
  | [] => True
  | t :: _ => t.type ≠ .else

/-- What may stand behind a statement. -/
def Statement.StopsBefore (s : Statement) (rest : List Token) : Prop :=
  (s.endsInExpression = true → Stops rest) ∧ NotElse rest

/-- The statement is read back in front of tokens that do not continue it. -/
def ReadsStatement (s : Statement) : Prop :=
  ∀ rest, s.StopsBefore rest → Settles parseStatement (s.render ++ rest) (.ok (some s) rest)

/-- The statements of a block are read back up to its closing brace. -/
def ReadsItems (ss : List Statement) : Prop :=
  ∀ rest, Settles parseItems (renderAll ss ++ closeBrace :: rest) (.ok ss (closeBrace :: rest))

/-- A keyword hands over to the constructor of its statement. -/
theorem settles_keyword {t : Token} {ts rest : List Token} {s : Statement}
    {p : ℕ → ParserM Statement}
    (hkey : ∀ m, (parseStatement (m+1)).run (t :: ts) = (some <$> p m).run (t :: ts))
    (h : Settles p (t :: ts) (.ok s rest)) :
    Settles parseStatement (t :: ts) (.ok (some s) rest) := by
  obtain ⟨n, hn⟩ := h
  refine Settles.of_succ (n := n) fun m hm => ?_
  rw [hkey, map_ok (hn m hm)]

theorem parseBlock_settles {ss : List Statement} (h : ReadsItems ss) (rest : List Token) :
    Settles parseBlock (openBrace :: (renderAll ss ++ closeBrace :: rest)) (.ok ss rest) := by
  obtain ⟨n, hn⟩ := h rest
  refine Settles.of_succ (n := n) fun m hm => ?_
  rw [parseBlock, bind_ok (run_skip (by rfl)), bind_ok (hn m hm), bind_ok (run_skip (by rfl))]
  rfl

theorem readsStatement_block {ss : List Statement} (h : ReadsItems ss) :
    ReadsStatement (.block ss) := by
  intro rest _
  obtain ⟨n, hn⟩ := parseBlock_settles h rest
  refine Settles.of_succ (n := n) fun m hm => ?_
  have hts : (Statement.block ss).render ++ rest =
      openBrace :: (renderAll ss ++ closeBrace :: rest) := by
    simp [Statement.render]
  rw [hts, parseStatement, getToken, get_cons_bind]
  change (parseBlock m >>= fun blk => (pure (some (.block blk)) : ParserM (Option Statement))).run
    (openBrace :: (renderAll ss ++ closeBrace :: rest)) = _
  rw [bind_ok (hn m hm)]
  rfl

theorem asReserved_ne_openBrace (w : Text) : asReserved w ≠ .openBrace := by
  have hall : ∀ r ∈ reservedWords, r.2 ≠ .openBrace := by decide
  unfold asReserved
  split
  · rename_i r hr
    exact hall r (List.mem_of_find?_eq_some hr)
  · decide

theorem wordToken_ne_openBrace (w : Text) : (wordToken w).type ≠ .openBrace := by
  change (if inReservedWord w then asReserved w else TokenType.identifier) ≠ .openBrace
  split_ifs
  · exact asReserved_ne_openBrace w
  · decide

theorem readsStatement_transaction {ss : List Statement} (isolation : Text) (h : ReadsItems ss) :
    ReadsStatement (.transaction isolation ss) := by
  intro rest _
  obtain ⟨n, hn⟩ := parseBlock_settles h rest
  have hts : (Statement.transaction isolation ss).render ++ rest =
      symbol .transaction "transaction" :: wordToken isolation ::
        openBrace :: (renderAll ss ++ closeBrace :: rest) := by
    simp [Statement.render]
  rw [hts]
  refine settles_keyword (p := parseTransaction) (fun m => by rw [parseStatement]; rfl) ?_
  refine Settles.of_succ (n := n) fun m hm => ?_
  have hiso : parseIsolation.run (wordToken isolation ::
      openBrace :: (renderAll ss ++ closeBrace :: rest)) =
      .ok isolation (openBrace :: (renderAll ss ++ closeBrace :: rest)) := by
    rw [parseIsolation, getToken, get_cons_bind, if_neg (wordToken_ne_openBrace isolation)]
    rfl
  rw [parseTransaction, bind_ok (run_skip (by rfl)), bind_ok hiso, bind_ok (run_expect (by rfl)),
    bind_ok (hn m hm)]
  rfl

theorem readsStatement_define {t : NodeType} (h : t.Printable) (name : Text) :
    ReadsStatement (.define (some t) name) := by
  intro rest _
  obtain ⟨n, hn⟩ := parseRowType_render h (identToken name :: rest)
  have hts : (Statement.define (some t) name).render ++ rest =
      symbol .define "define" :: (renderRowType t ++ identToken name :: rest) := by
    simp [Statement.render]
  rw [hts]
  refine settles_keyword (p := parseDefine) (fun m => by rw [parseStatement]; rfl) ⟨n, ?_⟩
  intro m hm
  rw [parseDefine, bind_ok (run_skip (by rfl)), bind_ok (hn m hm),
    bind_ok (run_takeIdentifier (by rfl)), if_pos h.isTuple]
  rfl

theorem readsStatement_defineTuple {t : NodeType} (h : t.Printable) (name : Text) :
    ReadsStatement (.defineTuple name t) := by
  intro rest _
  obtain ⟨n, hn⟩ := parseType_render h rest
  change Settles parseStatement (symbol .tuple "tuple" :: identToken name :: (t.render ++ rest)) _
  refine settles_keyword (p := parseDefineTuple) (fun m => by rw [parseStatement]; rfl) ⟨n, ?_⟩
  intro m hm
  rw [parseDefineTuple, bind_ok (run_skip (by rfl)), bind_ok (run_takeIdentifier (by rfl)),
    bind_ok (hn m hm), if_pos h.isTuple]
  rfl

theorem readsStatement_emit {e : Expression} (h : Reads e) : ReadsStatement (.emit none e) := by
  intro rest hstops
  obtain ⟨n, hn⟩ := h rest (hstops.1 rfl)
  change Settles parseStatement (symbol .emit "emit" :: (e.render ++ rest)) _
  refine settles_keyword (p := parseEmit) (fun m => by rw [parseStatement]; rfl) ⟨n, ?_⟩
  intro m hm
  rw [parseEmit, bind_ok (run_skip (by rfl)), bind_ok (hn m hm)]
  rfl

theorem readsStatement_insert {e : Expression} (hrow : e.isRowLiteral = true) (h : Reads e)
    (table : Text) : ReadsStatement (.insert table e {}) := by
  intro rest hstops
  obtain ⟨n, hn⟩ := h rest (hstops.1 rfl)
  have hstart : ∃ us, e.render ++ rest = openBrace :: us := by
    match e, hrow with
    | .rowLiteral _ _, _ => exact ⟨_, rfl⟩
  obtain ⟨us, hus⟩ := hstart
  rw [hus] at hn
  change Settles parseStatement (symbol .insert "insert" :: identToken table :: (e.render ++ rest)) _
  rw [hus]
  refine settles_keyword (p := parseInsert) (fun m => by rw [parseStatement]; rfl) ⟨n, ?_⟩
  intro m hm
  rw [parseInsert, bind_ok (run_skip (by rfl)), bind_ok (run_takeIdentifier (by rfl)),
    bind_ok (run_expect (by rfl)), bind_ok (hn m hm)]
  rfl

theorem parseDeclaredType_render {type : Option NodeType} (h : ∀ t, type = some t → t.Printable)
    (name : Text) (rest : List Token) :
    Settles parseDeclaredType ((type.map renderRowType).getD [] ++ identToken name :: rest)
      (.ok type (identToken name :: rest)) := by
  cases type with
  | none => exact ⟨0, fun m _ => rfl⟩
  | some t =>
    obtain ⟨n, hn⟩ := parseRowType_render (h t rfl) (identToken name :: rest)
    refine ⟨n, ?_⟩
    intro m hm
    rw [parseDeclaredType]
    change (some <$> parseRowType m).run (renderRowType t ++ identToken name :: rest) = _
    rw [map_ok (hn m hm)]

theorem readsStatement_let {e : Expression} {type : Option NodeType} (name : Text) (h : Reads e)
    (ht : ∀ t, type = some t → t.Printable) : ReadsStatement (.letStmt name e type) := by
  intro rest hstops
  obtain ⟨n₁, h₁⟩ := h rest (hstops.1 rfl)
  obtain ⟨n₂, h₂⟩ := parseDeclaredType_render ht name (symbol .equal "=" :: (e.render ++ rest))
  have hts : (Statement.letStmt name e type).render ++ rest =
      symbol .let "let" :: ((type.map renderRowType).getD [] ++
        identToken name :: symbol .equal "=" :: (e.render ++ rest)) := by
    simp [Statement.render]
  rw [hts]
  refine settles_keyword (p := parseLet) (fun m => by rw [parseStatement]; rfl) ⟨n₁+n₂, ?_⟩
  intro m hm
  rw [parseLet, bind_ok (run_skip (by rfl)), bind_ok (h₂ m (by omega)),
    bind_ok (run_takeIdentifier (by rfl)), bind_ok (run_skip (by rfl)), bind_ok (h₁ m (by omega))]
  rfl

theorem readsStatement_scan {blk : List Statement} (table rowName : Text) (h : ReadsItems blk) :
    ReadsStatement (.scan table rowName blk {}) := by
  intro rest _
  obtain ⟨n, hn⟩ := parseBlock_settles h rest
  have hts : (Statement.scan table rowName blk {}).render ++ rest =
      symbol .scan "scan" :: identToken table :: comma :: identToken rowName ::
        openBrace :: (renderAll blk ++ closeBrace :: rest) := by
    simp [Statement.render]
  rw [hts]
  refine settles_keyword (p := parseScan) (fun m => by rw [parseStatement]; rfl) ?_
  refine Settles.of_succ (n := n) fun m hm => ?_
  rw [parseScan, bind_ok (run_skip (by rfl)), bind_ok (run_takeIdentifier (by rfl)),
    bind_ok (run_skip (by rfl)), bind_ok run_takeText, bind_ok (run_expect (by rfl)),
    bind_ok (hn m hm)]
  rfl

theorem readsStatement_if {cond : Expression} {trueBlock : List Statement} (hc : Reads cond)
    (ht : ReadsItems trueBlock) : ReadsStatement (.ifStmt cond trueBlock none) := by
  intro rest hstops
  obtain ⟨n₁, h₁⟩ := hc (openBrace :: (renderAll trueBlock ++ closeBrace :: rest)) rfl
  obtain ⟨n₂, h₂⟩ := parseBlock_settles ht rest
  have hts : (Statement.ifStmt cond trueBlock none).render ++ rest =
      symbol .if "if" :: (cond.render ++ openBrace :: (renderAll trueBlock ++ closeBrace :: rest)) := by
    simp [Statement.render]
  rw [hts]
  refine settles_keyword (p := parseIf) (fun m => by rw [parseStatement]; rfl) ?_
  refine Settles.of_succ (n := n₁+n₂) fun m hm => ?_
  rw [parseIf, bind_ok (run_skip (by rfl)), bind_ok (h₁ m (by omega)),
    bind_ok (run_expect (by rfl)), bind_ok (h₂ m (by omega)), hasNext_bind]
  cases rest with
  | nil => rfl
  | cons t ts =>
    have hne : t.type ≠ .else := hstops.2
    rw [if_pos (by simp), getToken, get_cons_bind, if_neg hne]
    rfl

theorem readsStatement_ifElse {cond : Expression} {trueBlock falseBlock : List Statement}
    (hc : Reads cond) (ht : ReadsItems trueBlock) (hf : ReadsItems falseBlock) :
    ReadsStatement (.ifStmt cond trueBlock (some falseBlock)) := by
  intro rest _
  obtain ⟨n₁, h₁⟩ := hc (openBrace :: (renderAll trueBlock ++ closeBrace ::
    symbol .else "else" :: openBrace :: (renderAll falseBlock ++ closeBrace :: rest))) rfl
  obtain ⟨n₂, h₂⟩ := parseBlock_settles ht
    (symbol .else "else" :: openBrace :: (renderAll falseBlock ++ closeBrace :: rest))
  obtain ⟨n₃, h₃⟩ := parseBlock_settles hf rest
  have hts : (Statement.ifStmt cond trueBlock (some falseBlock)).render ++ rest =
      symbol .if "if" :: (cond.render ++ openBrace :: (renderAll trueBlock ++ closeBrace ::
        symbol .else "else" :: openBrace :: (renderAll falseBlock ++ closeBrace :: rest))) := by
    simp [Statement.render]
  rw [hts]
  refine settles_keyword (p := parseIf) (fun m => by rw [parseStatement]; rfl) ?_
  refine Settles.of_succ (n := n₁+n₂+n₃) fun m hm => ?_
  rw [parseIf, bind_ok (run_skip (by rfl)), bind_ok (h₁ m (by omega)),
    bind_ok (run_expect (by rfl)), bind_ok (h₂ m (by omega)), hasNext_bind, if_pos (by simp),
    getToken, get_cons_bind, if_pos (by rfl), next_cons_bind, bind_ok (run_expect (by rfl)),
    bind_ok (h₃ m (by omega))]
  rfl

/-- The tokens a statement starts with. -/
def startsStatement (k : TokenType) : Bool :=
  match k with
  | .openBrace | .transaction | .let | .if | .for | .define | .emit | .insert | .scan | .break
  | .continue | .openBracket | .openParen | .number | .stringLiteral | .identifier | .tuple => true
  | _ => false

/-- An expression statement starts like a statement and not with a brace. -/
theorem renderExprStatement_starts {e : Expression} (h : e.Printable) :
    ∃ t us, renderExprStatement e = t :: us ∧ startsStatement t.type = true ∧
      ∀ m ts, (parseStatement (m+1)).run (t :: ts) =
        (some <$> parseExprStatement m).run (t :: ts) := by
  match e, h with
  | .primary _ (some (.int _)), _ => exact ⟨_, _, rfl, rfl, fun m ts => by rw [parseStatement]; rfl⟩
  | .primary _ (some (.varchar _)), _ =>
    exact ⟨_, _, rfl, rfl, fun m ts => by rw [parseStatement]; rfl⟩
  | .binary _ _ _ _, _ => exact ⟨_, _, rfl, rfl, fun m ts => by rw [parseStatement]; rfl⟩
  | .pointerOf _ _, _ => exact ⟨_, _, rfl, rfl, fun m ts => by rw [parseStatement]; rfl⟩
  | .rowLiteral _ _, _ => exact ⟨_, _, rfl, rfl, fun m ts => by rw [parseStatement]; rfl⟩
  | .arrayLiteral _ _, _ => exact ⟨_, _, rfl, rfl, fun m ts => by rw [parseStatement]; rfl⟩
  | .variable _ _, _ => exact ⟨_, _, rfl, rfl, fun m ts => by rw [parseStatement]; rfl⟩
  | .functionCall _ _ _, _ => exact ⟨_, _, rfl, rfl, fun m ts => by rw [parseStatement]; rfl⟩
  | .arrayReference _ (some _) _, _ =>
    exact ⟨_, _, rfl, rfl, fun m ts => by rw [parseStatement]; rfl⟩
  | .memberReference _ _ _ _, _ => exact ⟨_, _, rfl, rfl, fun m ts => by rw [parseStatement]; rfl⟩
  | .assign _ _ _, _ => exact ⟨_, _, rfl, rfl, fun m ts => by rw [parseStatement]; rfl⟩

theorem renderExprStatement_settles {e : Expression} (h : e.Printable) {rest : List Token}
    (hstops : Stops rest) : Settles parseExpr (renderExprStatement e ++ rest) (.ok e rest) := by
  unfold renderExprStatement
  split
  · exact parenthesised_settles (Expression.reads _ h) hstops
  · exact parenthesised_settles (Expression.reads _ h) hstops
  · exact Expression.reads e h rest hstops

theorem readsStatement_expr {e : Expression} (h : e.Printable) :
    ReadsStatement (.exprStatement none e) := by
  intro rest hstops
  obtain ⟨n, hn⟩ := renderExprStatement_settles h (hstops.1 rfl)
  obtain ⟨t, us, hrender, _, hkey⟩ := renderExprStatement_starts h
  rw [Statement.render]
  rw [hrender, List.cons_append] at hn ⊢
  refine settles_keyword (fun m => hkey m _) ⟨n, ?_⟩
  intro m hm
  rw [parseExprStatement, bind_ok (hn m hm)]
  rfl

theorem Statement.render_starts {s : Statement} (h : s.Printable) :
    ∃ t us, s.render = t :: us ∧ startsStatement t.type = true := by
  match s, h with
  | .block _, _ => exact ⟨_, _, rfl, rfl⟩
  | .transaction _ _, _ => exact ⟨_, _, rfl, rfl⟩
  | .define _ _, _ => exact ⟨_, _, rfl, rfl⟩
  | .forStmt (.to _) _ _ _, _ => exact ⟨_, _, rfl, rfl⟩
  | .jump .breakJump, _ => exact ⟨_, _, rfl, rfl⟩
  | .jump .continueJump, _ => exact ⟨_, _, rfl, rfl⟩
  | .emit _ _, _ => exact ⟨_, _, rfl, rfl⟩
  | .insert _ _ _, _ => exact ⟨_, _, rfl, rfl⟩
  | .scan _ _ _ _, _ => exact ⟨_, _, rfl, rfl⟩
  | .letStmt _ _ _, _ => exact ⟨_, _, rfl, rfl⟩
  | .defineTuple _ _, _ => exact ⟨_, _, rfl, rfl⟩
  | .ifStmt _ _ none, _ => exact ⟨_, _, rfl, rfl⟩
  | .ifStmt _ _ (some _), _ => exact ⟨_, _, rfl, rfl⟩
  | .exprStatement _ e, h =>
    obtain ⟨t, us, hrender, hstarts, _⟩ := renderExprStatement_starts h.2
    exact ⟨t, us, hrender, hstarts⟩

theorem readsStatement_for {init : Statement} {cond every : Expression} {blk : List Statement}
    (hp : init.Printable) (hi : ReadsStatement init) (hpc : cond.Printable) (hc : Reads cond)
    (hpe : every.Printable) (he : Reads every) (hb : ReadsItems blk) :
    ReadsStatement (.forStmt (.to init) (.to cond) (.to every) blk) := by
  have hpart : ∀ {e : Expression} (rest : List Token), e.Printable → Reads e → Stops rest →
      ∃ n, ∀ m, n ≤ m → (parseHeaderPart (parseExpr m)).run (e.render ++ rest) =
        .ok (Ptr.to e) rest := by
    intro e rest hpe he hstops
    obtain ⟨n, hn⟩ := he rest hstops
    obtain ⟨t, us, hrender, hstarts⟩ := Reir.render_starts hpe
    have hne : t.type ≠ .semicolon := by
      intro h
      rw [h] at hstarts
      exact absurd hstarts (by decide)
    refine ⟨n, ?_⟩
    intro m hm
    have hn := hn m hm
    rw [hrender, List.cons_append] at hn ⊢
    rw [parseHeaderPart, getToken, get_cons_bind, if_neg hne, map_ok hn]
  intro rest _
  obtain ⟨n₄, h₄⟩ := parseBlock_settles hb rest
  obtain ⟨n₃, h₃⟩ := hpart (openBrace :: (renderAll blk ++ closeBrace :: rest)) hpe he rfl
  obtain ⟨n₂, h₂⟩ := hpart (semicolon :: (every.render ++
    openBrace :: (renderAll blk ++ closeBrace :: rest))) hpc hc rfl
  obtain ⟨n₁, h₁⟩ := hi (semicolon :: (cond.render ++ semicolon :: (every.render ++
    openBrace :: (renderAll blk ++ closeBrace :: rest)))) ⟨fun _ => rfl, by simp [NotElse, semicolon, symbol]⟩
  have hts : (Statement.forStmt (.to init) (.to cond) (.to every) blk).render ++ rest =
      symbol .for "for" :: (init.render ++ semicolon :: (cond.render ++ semicolon :: (every.render ++
        openBrace :: (renderAll blk ++ closeBrace :: rest)))) := by
    simp [Statement.render, Ptr.renderExpr]
  rw [hts]
  obtain ⟨t, us, hrender, hstarts⟩ := Statement.render_starts hp
  have hne : t.type ≠ .semicolon := by
    intro h
    rw [h] at hstarts
    exact absurd hstarts (by decide)
  refine settles_keyword (p := parseFor) (fun m => by rw [parseStatement]; rfl) ?_
  refine Settles.of_succ (n := n₁+n₂+n₃+n₄) fun m hm => ?_
  have hinit : (parseInitPart (parseStatement m)).run (init.render ++ semicolon :: (cond.render ++
      semicolon :: (every.render ++ openBrace :: (renderAll blk ++ closeBrace :: rest)))) =
      .ok (Ptr.to init) (semicolon :: (cond.render ++ semicolon :: (every.render ++
        openBrace :: (renderAll blk ++ closeBrace :: rest)))) := by
    have h₁ := h₁ m (by omega)
    rw [hrender, List.cons_append] at h₁ ⊢
    rw [parseInitPart, getToken, get_cons_bind, if_neg hne, bind_ok h₁]
    rfl
  rw [parseFor, bind_ok (run_skip (by rfl)), bind_ok hinit, bind_ok (run_skip (by rfl)),
    bind_ok (h₂ m (by omega)), bind_ok (run_skip (by rfl)), bind_ok (h₃ m (by omega)),
    bind_ok (run_expect (by rfl)), bind_ok (h₄ m (by omega))]
  rfl

theorem readsStatement_jump (j : JumpType) : ReadsStatement (.jump j) := by
  intro rest _
  refine Settles.of_succ (n := 0) fun m _ => ?_
  rw [parseStatement]
  cases j with
  | breakJump => rfl
  | continueJump => rfl

/-- The start of a statement continues the one in front of it only as a bracket. -/
theorem continues_eq_startsOpen {k : TokenType} (h : startsStatement k = true)
    (hopen : ¬(k = .openParen ∨ k = .openBracket)) : continues k = false := by
  cases k with
  | openParen => exact absurd (.inl rfl) hopen
  | openBracket => exact absurd (.inr rfl) hopen
  | _ =>
    first
    | rfl
    | exact absurd h (by decide)

/-- Behind a statement of a list stands what follows the list or the next statement. -/
theorem stopsBefore_renderAll {s : Statement} {ss : List Statement}
    (hss : StatementsPrintable ss) (hsep : Separated (s :: ss)) {rest : List Token}
    (hrest : s.StopsBefore rest) : s.StopsBefore (renderAll ss ++ rest) := by
  cases ss with
  | nil => exact hrest
  | cons s' ss =>
    obtain ⟨t, us, hrender, hstarts⟩ := Statement.render_starts hss.1
    obtain ⟨hopen, _⟩ := hsep
    rw [renderAll, hrender, List.cons_append, List.cons_append]
    constructor
    · intro hends
      apply continues_eq_startsOpen hstarts
      intro hk
      exact hopen ⟨hends, by rw [hrender]; simpa [startsOpen] using hk⟩
    · intro helse
      rw [helse] at hstarts
      exact absurd hstarts (by decide)

theorem Separated.tail {s : Statement} {ss : List Statement} (h : Separated (s :: ss)) :
    Separated ss := by
  cases ss with
  | nil => trivial
  | cons s' ss => exact h.2

theorem readsItems_nil : ReadsItems [] := by
  intro rest
  refine Settles.of_succ (n := 0) fun m _ => ?_
  rw [parseItems]
  rfl

theorem readsItems_cons {s : Statement} {ss : List Statement} (hp : s.Printable)
    (hs : ReadsStatement s) (hpss : StatementsPrintable ss) (hsep : Separated (s :: ss))
    (hss : ReadsItems ss) : ReadsItems (s :: ss) := by
  intro rest
  have hstop : s.StopsBefore (closeBrace :: rest) :=
    ⟨fun _ => rfl, by simp [NotElse, closeBrace, symbol]⟩
  obtain ⟨n₁, h₁⟩ := hs _ (stopsBefore_renderAll hpss hsep hstop)
  obtain ⟨n₂, h₂⟩ := hss rest
  obtain ⟨t, us, hrender, hstarts⟩ := Statement.render_starts hp
  have hne : t.type ≠ .closeBrace := by
    intro h
    rw [h] at hstarts
    exact absurd hstarts (by decide)
  refine Settles.of_succ (n := n₁+n₂) fun m hm => ?_
  have h₁ := h₁ m (by omega)
  rw [renderAll, List.append_assoc]
  rw [hrender, List.cons_append] at h₁ ⊢
  rw [parseItems, getToken, get_cons_bind, if_neg hne, bind_ok h₁, bind_ok (h₂ m (by omega))]
  rfl

mutual

theorem Statement.reads (s : Statement) (h : s.Printable) : ReadsStatement s :=
  match s, h with
  | .block ss, ⟨hss, hsep⟩ => readsStatement_block (readsItems ss hss hsep)
  | .transaction isolation ss, ⟨hss, hsep⟩ =>
    readsStatement_transaction isolation (readsItems ss hss hsep)
  | .define _ name, ⟨_, rfl, ht⟩ => readsStatement_define ht name
  | .forStmt (.to init) _ _ blk, ⟨hi, ⟨c, rfl, hc⟩, ⟨e, rfl, he⟩, hb, hsep⟩ =>
    readsStatement_for hi (init.reads hi) hc (c.reads hc) he (e.reads he) (readsItems blk hb hsep)
  | .jump j, _ => readsStatement_jump j
  | .emit _ e, ⟨rfl, he⟩ => readsStatement_emit (e.reads he)
  | .insert table e _, ⟨rfl, hrow, he⟩ => readsStatement_insert hrow (e.reads he) table
  | .scan table rowName blk _, ⟨rfl, hb, hsep⟩ =>
    readsStatement_scan table rowName (readsItems blk hb hsep)
  | .letStmt name e _, ⟨he, ht⟩ => readsStatement_let name (e.reads he) ht
  | .defineTuple name _, ht => readsStatement_defineTuple ht name
  | .ifStmt c tb none, ⟨hc, ht, hsep⟩ => readsStatement_if (c.reads hc) (readsItems tb ht hsep)
  | .ifStmt c tb (some fb), ⟨hc, ht, hsep, hf, hsep'⟩ =>
    readsStatement_ifElse (c.reads hc) (readsItems tb ht hsep) (readsItems fb hf hsep')
  | .exprStatement _ _, ⟨rfl, he⟩ => readsStatement_expr he

theorem readsItems (ss : List Statement) (h : StatementsPrintable ss) (hsep : Separated ss) :
    ReadsItems ss :=
  match ss, h with
  | [], _ => readsItems_nil
  | s :: ss, ⟨hs, hss⟩ =>
    readsItems_cons hs (s.reads hs) hss hsep (readsItems ss hss hsep.tail)

end

theorem parseLoop_render {ss : List Statement} (h : StatementsPrintable ss) (hsep : Separated ss) :
    Settles parseLoop (renderAll ss) (.ok ss []) := by
  induction ss with
  | nil =>
    refine Settles.of_succ (n := 0) fun m _ => ?_
    rw [parseLoop]
    rfl
  | cons s ss ih =>
    have hstop : s.StopsBefore [] := ⟨fun _ => trivial, trivial⟩
    obtain ⟨n₁, h₁⟩ := s.reads h.1 _ (stopsBefore_renderAll h.2 hsep hstop)
    obtain ⟨n₂, h₂⟩ := ih h.2 hsep.tail
    obtain ⟨t, us, hrender, _⟩ := Statement.render_starts h.1
    refine Settles.of_succ (n := n₁+n₂) fun m hm => ?_
    have h₁ := h₁ m (by omega)
    rw [List.append_nil] at h₁
    rw [renderAll]
    rw [hrender, List.cons_append] at h₁ ⊢
    rw [parseLoop_cons, bind_ok h₁, bind_ok (h₂ m (by omega))]
    rfl

/-- The parser run on the rendering of a program returns the program and consumes all
tokens. -/
theorem parse_renderAll (p : Program) :
    Yields parseLoop (renderAll p.statements) p.statements [] :=
  (parseLoop_render p.printable p.separated).yields

/-- `for let i = 0; i < 3; i = i + 1 { if i < 2 { emit {i, "a"} } else { break } } scan t, r { emit {r.x} }` -/
def countingProgram : Program where
  statements :=
    let i : Expression := .variable {} (text "i")
    let int (v : BitVec 64) : Expression := .primary {} (some (.int v))
    [.forStmt (.to (.letStmt (text "i") (int 0) none)) (.to (.binary {} i .lessthan (int 3)))
      (.to (.assign {} i (.binary {} i .plus (int 1))))
      [.ifStmt (.binary {} i .lessthan (int 2))
        [.emit none (.rowLiteral {} [i, .primary {} (some (.varchar (text "a")))])] (some [.jump .breakJump])],
      .scan (text "t") (text "r")
        [.emit none (.rowLiteral {} [.memberReference {} (.variable {} (text "r")) (text "x") none])] {}]
  printable := by
    simp [StatementsPrintable, Statement.Printable, Expression.Printable, AllPrintable, LiteralPrintable,
      Separated]
  separated := by simp [Separated, Statement.endsInExpression]

end Reir
