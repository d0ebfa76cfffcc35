import Reir.ParserLookahead
import Reir.Precedence

/-! Infix expressions. The language document groups them by precedence, from `||` up to
`*`, with operators of one level to the left. The parser has no precedence table: an operator
takes everything behind it as its right operand. The two agree exactly where every operator
binds tighter than all operators to its left. -/
namespace Reir
open StreamParser Precedence

mutual

inductive Operand
  | number (digits : Text)
  | variable (name : Text)
  | paren (e : Infix)

/-- Operands separated by operators. -/
inductive Infix
  | single (o : Operand)
  | step (o : Operand) (op : Operators) (rest : Infix)

end

mutual

/-- The tokens `ts` spell the operand. -/
inductive IsOperand : List Token → Operand → Prop
  | number (t : Token) : t.type = .number → t.text ≠ [] → (∀ b ∈ t.text, isDigit b = true) →
      IsOperand [t] (.number t.text)
  | variable (t : Token) : t.type = .identifier → IsOperand [t] (.variable t.text)
  | paren (l r : Token) {ts : List Token} {e : Infix} : l.type = .openParen →
      r.type = .closeParen → IsInfix ts e → IsOperand (l :: (ts ++ [r])) (.paren e)

inductive IsInfix : List Token → Infix → Prop
  | single {ts : List Token} {o : Operand} : IsOperand ts o → IsInfix ts (.single o)
  | step {ts us : List Token} {o : Operand} {e : Infix} {op : Operators} (t : Token) :
      IsOperand ts o → binaryOperator t.type = some op → IsInfix us e →
      IsInfix (ts ++ t :: us) (.step o op e)

end

/-- The precedence levels, loosest first. -/
def precedence : Operators → ℕ
  | .conditionalOr => 1
  | .conditionalAnd => 2
  | .equal | .notequal => 3
  | .lessthan | .morethan | .lessequal | .moreequal => 4
  | .plus | .minus => 5
  | .multiple | .division | .modulo => 6
  | .none => 0

def binaryExpression (l : Expression) (op : Operators) (r : Expression) : Expression :=
  .binary {} l op r

def intLiteral (digits : Text) : Expression :=
  .primary {} (some (.int (BitVec.ofInt 64 (digitsValue digits))))

mutual

/-- The conventional tree of an operand; parentheses leave no node. -/
def Operand.conventional : Operand → Expression
  | .number ds => intLiteral ds
  | .variable x => .variable {} x
  | .paren e => e.grouped.build binaryExpression

/-- The operands grouped by precedence. -/
def Infix.grouped : Infix → Tree Operators Expression
  | .single o => .leaf o.conventional
  | .step o op e => attach precedence o.conventional op e.grouped

end

def Infix.conventional (e : Infix) : Expression := e.grouped.build binaryExpression

mutual

/-- The tree of the parser: every operator takes the rest of its level. -/
def Operand.parsed : Operand → Expression
  | .number ds => intLiteral ds
  | .variable x => .variable {} x
  | .paren e => e.parsed

def Infix.parsed : Infix → Expression
  | .single o => o.parsed
  | .step o op e => binaryExpression o.parsed op e.parsed

end

mutual

/-- Every literal is an `int` for `std::stoi`. -/
def Operand.InRange : Operand → Prop
  | .number ds => digitsValue ds < 2^31
  | .variable _ => True
  | .paren e => e.InRange

def Infix.InRange : Infix → Prop
  | .single o => o.InRange
  | .step o _ e => o.InRange ∧ e.InRange

end

/-- The operators outside parentheses, in reading order. -/
def Infix.ops : Infix → List Operators
  | .single _ => []
  | .step _ op e => op :: e.ops

mutual

/-- In every pair of parentheses, and outside, each operator binds tighter than all
operators to its left. -/
def Operand.Tightening : Operand → Prop
  | .number _ => True
  | .variable _ => True
  | .paren e => e.Tightening

def Infix.Tightening : Infix → Prop
  | .single o => o.Tightening
  | .step o op e => o.Tightening ∧ (∀ op' ∈ e.ops, precedence op < precedence op') ∧ e.Tightening

end

theorem Infix.grouped_ops (e : Infix) : e.grouped.ops = e.ops :=
  match e with
  | .single _ => rfl
  | .step _ _ e => by rw [Infix.grouped, attach_ops, Infix.grouped_ops e, Infix.ops]

theorem Infix.grouped_wellGrouped (e : Infix) : e.grouped.WellGrouped precedence :=
  match e with
  | .single _ => trivial
  | .step _ _ e => attach_wellGrouped (Infix.grouped_wellGrouped e)

/-- The conventional grouping is the only well grouped tree with these operands and
operators in this order. -/
theorem Infix.grouped_unique (e : Infix) {t : Tree Operators Expression}
    (ht : t.WellGrouped precedence) (hfirst : t.first = e.grouped.first)
    (htail : t.tail = e.grouped.tail) : t = e.grouped := by
  rw [ht.eq_group, e.grouped_wellGrouped.eq_group, hfirst, htail]

/-- The number of operators of a tree. -/
def Expression.operatorCount : Expression → ℕ
  | .binary _ l _ r => l.operatorCount + r.operatorCount + 1
  | _ => 0

theorem operatorCount_attach (a : Expression) (op : Operators) (t : Tree Operators Expression) :
    ((attach precedence a op t).build binaryExpression).operatorCount =
      a.operatorCount + (t.build binaryExpression).operatorCount + 1 := by
  induction t with
  | leaf b => rfl
  | node l op' r ihl _ =>
    unfold attach
    split_ifs
    · simp only [Tree.build, binaryExpression, Expression.operatorCount] at ihl ⊢
      omega
    · rfl

mutual

theorem Operand.operatorCount_eq (o : Operand) :
    o.conventional.operatorCount = o.parsed.operatorCount :=
  match o with
  | .number _ => rfl
  | .variable _ => rfl
  | .paren e => Infix.operatorCount_eq e

theorem Infix.operatorCount_eq (e : Infix) :
    (e.grouped.build binaryExpression).operatorCount = e.parsed.operatorCount :=
  match e with
  | .single o => Operand.operatorCount_eq o
  | .step o op e => by
    rw [Infix.grouped, operatorCount_attach, Operand.operatorCount_eq o, Infix.operatorCount_eq e]
    rfl

end

/-- A tree whose root is the first operator keeps the first operand alone on its left, so
nothing was moved below a looser operator. -/
theorem attach_build_eq_binary {a l r : Expression} {op : Operators}
    {t : Tree Operators Expression} (hw : t.WellGrouped precedence)
    (hcount : a.operatorCount = l.operatorCount)
    (h : (attach precedence a op t).build binaryExpression = binaryExpression l op r) :
    a = l ∧ t.build binaryExpression = r ∧ ∀ op' ∈ t.ops, precedence op < precedence op' := by
  cases t with
  | leaf b =>
    simp only [attach, Tree.build, binaryExpression, Expression.binary.injEq] at h
    exact ⟨h.2.1, h.2.2.2, by simp [Tree.ops]⟩
  | node s op' u =>
    obtain ⟨_, _, hle, hlt⟩ := hw
    unfold attach at h
    split_ifs at h with hop
    · have hl : (attach precedence a op s).build binaryExpression = l := by
        simp only [Tree.build, binaryExpression, Expression.binary.injEq] at h
        exact h.2.1
      have hc := operatorCount_attach a op s
      rw [hl] at hc
      omega
    · have hroot : precedence op < precedence op' := by omega
      simp only [Tree.build, binaryExpression, Expression.binary.injEq] at h
      refine ⟨h.2.1, h.2.2.2, ?_⟩
      intro o ho
      simp only [Tree.ops, List.mem_append, List.mem_cons] at ho
      rcases ho with ho | rfl | ho
      · have := hle o ho
        omega
      · exact hroot
      · have := hlt o ho
        omega

mutual

theorem Operand.conventional_eq_parsed_iff (o : Operand) :
    o.conventional = o.parsed ↔ o.Tightening :=
  match o with
  | .number _ => by simp [Operand.conventional, Operand.parsed, Operand.Tightening]
  | .variable _ => by simp [Operand.conventional, Operand.parsed, Operand.Tightening]
  | .paren e => Infix.conventional_eq_parsed_iff e

theorem Infix.conventional_eq_parsed_iff (e : Infix) :
    e.grouped.build binaryExpression = e.parsed ↔ e.Tightening :=
  match e with
  | .single o => Operand.conventional_eq_parsed_iff o
  | .step o op e => by
    rw [Infix.grouped, Infix.parsed, Infix.Tightening]
    constructor
    · intro h
      obtain ⟨ho, he, hops⟩ :=
        attach_build_eq_binary e.grouped_wellGrouped o.operatorCount_eq h
      rw [Infix.grouped_ops] at hops
      exact ⟨(Operand.conventional_eq_parsed_iff o).mp ho, hops,
        (Infix.conventional_eq_parsed_iff e).mp he⟩
    · rintro ⟨ho, hops, he⟩
      rw [attach_eq_node (by rwa [Infix.grouped_ops]), Tree.build, Tree.build,
        (Operand.conventional_eq_parsed_iff o).mpr ho,
        (Infix.conventional_eq_parsed_iff e).mpr he]

end

/-- A run that returns `v` when every literal is in range and throws otherwise. -/
def ReadsAs (o : Outcome Token ParseError Expression) (inRange : Prop) (v : Expression)
    (rest : List Token) : Prop :=
  (inRange ∧ o = .ok v rest) ∨ (¬inRange ∧ ∃ e, o = .fail e)

/-- With enough fuel the switch of `parse_expr` reads the operand. -/
def ReadsOperand (ts : List Token) (o : Operand) : Prop :=
  ∃ t us, ts = t :: us ∧ ∀ rest, ∃ n, ∀ m, n ≤ m →
    ReadsAs ((parseOperand (parseExpr m) (rowLiteral m) (arrayLiteral m) t).run
      (t :: (us ++ rest))) o.InRange o.parsed rest

def ReadsInfix (ts : List Token) (e : Infix) : Prop :=
  ∀ rest, Stops rest → ∃ n, ∀ m, n ≤ m →
    ReadsAs ((parseExpr m).run (ts ++ rest)) e.InRange e.parsed rest

theorem readsOperand_number {t : Token} (ht : t.type = .number) (hne : t.text ≠ [])
    (hd : ∀ b ∈ t.text, isDigit b = true) : ReadsOperand [t] (.number t.text) := by
  refine ⟨t, [], rfl, fun rest => ⟨0, fun m _ => ?_⟩⟩
  have hrun : (parseOperand (parseExpr m) (rowLiteral m) (arrayLiteral m) t).run (t :: rest) =
      (do let n ← readNumber t.text; next
          pure (.primary {} (some (.int (BitVec.ofInt 64 n)))) : ParserM Expression).run
        (t :: rest) := by
    rw [parseOperand, ht]
    change primaryExpression.run (t :: rest) = _
    rw [primaryExpression, getToken, get_cons_bind, ht]
  rw [List.nil_append, hrun, readNumber, stoi, stoInt_digits 31 hne hd]
  by_cases hlt : digitsValue t.text < 2^31
  · exact .inl ⟨hlt, by rw [if_pos hlt]; rfl⟩
  · exact .inr ⟨hlt, .stoi .outOfRange, by rw [if_neg hlt]; rfl⟩

theorem readsOperand_variable {t : Token} (ht : t.type = .identifier) :
    ReadsOperand [t] (.variable t.text) := by
  refine ⟨t, [], rfl, fun rest => ⟨0, fun m _ => .inl ⟨trivial, ?_⟩⟩⟩
  rw [parseOperand, ht]
  change variableReference.run (t :: rest) = _
  rw [variableReference, bind_ok (run_takeIdentifier ht)]
  rfl

theorem ReadsInfix.paren {l r : Token} {ts : List Token} {e : Infix} (hl : l.type = .openParen)
    (hr : r.type = .closeParen) (h : ReadsInfix ts e) :
    ReadsOperand (l :: (ts ++ [r])) (.paren e) := by
  refine ⟨l, ts ++ [r], rfl, fun rest => ?_⟩
  obtain ⟨n, hn⟩ := h (r :: rest) (by simp [Stops, hr, continues, binaryOperator])
  refine ⟨n, fun m hm => ?_⟩
  have hrun : (parseOperand (parseExpr m) (rowLiteral m) (arrayLiteral m) l).run
      (l :: ((ts ++ [r]) ++ rest)) =
      (do let inner ← parseExpr m; skip .closeParen; pure inner : ParserM Expression).run
        (ts ++ r :: rest) := by
    rw [parseOperand, hl, List.append_assoc]
    rfl
  rw [hrun]
  rcases hn m hm with ⟨hin, hok⟩ | ⟨hout, err, hfail⟩
  · refine .inl ⟨hin, ?_⟩
    rw [bind_ok hok, bind_ok (run_skip hr)]
    rfl
  · exact .inr ⟨hout, err, bind_fail hfail⟩

theorem ReadsOperand.single {ts : List Token} {o : Operand} (h : ReadsOperand ts o) :
    ReadsInfix ts (.single o) := by
  obtain ⟨t, us, rfl, h⟩ := h
  intro rest hstops
  obtain ⟨n, hn⟩ := h rest
  refine ⟨n+2, fun m hm => ?_⟩
  obtain ⟨k, rfl⟩ : ∃ k, m = k+2 := ⟨m-2, by omega⟩
  rcases hn (k+1) (by omega) with ⟨hin, hok⟩ | ⟨hout, err, hfail⟩
  · refine .inl ⟨hin, ?_⟩
    rw [List.cons_append, parseExpr_operand hok, parseExprPostfix_stops _ _ hstops]
    rfl
  · refine .inr ⟨hout, err, ?_⟩
    rw [List.cons_append, parseExpr, getToken, get_cons_bind]
    exact bind_fail hfail

theorem ReadsOperand.step {ts us : List Token} {o : Operand} {e : Infix} {op : Operators}
    {t : Token} (h : ReadsOperand ts o) (hop : binaryOperator t.type = some op)
    (he : ReadsInfix us e) : ReadsInfix (ts ++ t :: us) (.step o op e) := by
  obtain ⟨t₀, ts, rfl, h⟩ := h
  intro rest hstops
  obtain ⟨n, hn⟩ := h (t :: (us ++ rest))
  obtain ⟨k, hk⟩ := he rest hstops
  refine ⟨max n k + 2, fun m hm => ?_⟩
  obtain ⟨m, rfl⟩ : ∃ k, m = k+2 := ⟨m-2, by omega⟩
  have hts : t₀ :: ts ++ t :: us ++ rest = t₀ :: (ts ++ t :: (us ++ rest)) := by simp
  rw [hts]
  rcases hn (m+1) (by omega) with ⟨hin, hok⟩ | ⟨hout, err, hfail⟩
  · rw [parseExpr_operand hok, parseExprPostfix_operator m _ hop]
    rcases hk m (by omega) with ⟨hin', hok'⟩ | ⟨hout', err, hfail'⟩
    · exact .inl ⟨⟨hin, hin'⟩, by rw [bind_ok hok']; rfl⟩
    · exact .inr ⟨fun h => hout' h.2, err, bind_fail hfail'⟩
  · refine .inr ⟨fun h => hout h.1, err, ?_⟩
    rw [parseExpr, getToken, get_cons_bind]
    exact bind_fail hfail

mutual

theorem readsOperand {ts : List Token} {o : Operand} (h : IsOperand ts o) : ReadsOperand ts o :=
  match h with
  | .number _ ht hne hd => readsOperand_number ht hne hd
  | .variable _ ht => readsOperand_variable ht
  | .paren _ _ hl hr he => (readsInfix he).paren hl hr

theorem readsInfix {ts : List Token} {e : Infix} (h : IsInfix ts e) : ReadsInfix ts e :=
  match h with
  | .single ho => (readsOperand ho).single
  | .step _ ho hop he => (readsOperand ho).step hop (readsInfix he)

end

/-- `parse_expr` returns the conventional tree of an infix expression exactly when its
literals are in range and, between any parentheses, its operators bind tighter and tighter. -/
theorem parseExpr_conventional_iff {ts : List Token} {e : Infix} (h : IsInfix ts e) :
    Yields parseExpr ts e.conventional [] ↔ e.InRange ∧ e.Tightening := by
  obtain ⟨n, hn⟩ := readsInfix h [] trivial
  rw [List.append_nil] at hn
  rw [← Infix.conventional_eq_parsed_iff]
  constructor
  · intro hy
    obtain ⟨k, hk⟩ := hy.settles parseExpr_refines
    have hrun := hk (max n k) (le_max_right n k)
    rcases hn (max n k) (le_max_left n k) with ⟨hin, hok⟩ | ⟨_, err, hfail⟩
    · rw [hrun] at hok
      injection hok with hv
      exact ⟨hin, hv⟩
    · rw [hrun] at hfail
      injection hfail
  · rintro ⟨hin, heq⟩
    rcases hn n le_rfl with ⟨_, hok⟩ | ⟨hout, _⟩
    · exact ⟨n, by rw [hok, Infix.conventional, heq]⟩
    · exact absurd hin hout

theorem parseExpr_conventional_iff_sum :
    Yields parseExpr [⟨.number, text "1", 0, 0⟩, ⟨.plus, text "+", 0, 0⟩,
        ⟨.identifier, text "x", 0, 0⟩, ⟨.asterisk, text "*", 0, 0⟩, ⟨.number, text "3", 0, 0⟩]
      (.binary {} (intLiteral (text "1")) .plus
        (.binary {} (.variable {} (text "x")) .multiple (intLiteral (text "3")))) [] ↔
      (Infix.step (.number (text "1")) .plus (.step (.variable (text "x")) .multiple
          (.single (.number (text "3"))))).InRange ∧
        (Infix.step (.number (text "1")) .plus (.step (.variable (text "x")) .multiple
          (.single (.number (text "3"))))).Tightening :=
  parseExpr_conventional_iff
    (.step ⟨.plus, text "+", 0, 0⟩
      (.number ⟨.number, text "1", 0, 0⟩ rfl (by decide) (by simp [text, isDigit]))
      rfl (.step ⟨.asterisk, text "*", 0, 0⟩ (.variable ⟨.identifier, text "x", 0, 0⟩ rfl) rfl
        (.single (.number ⟨.number, text "3", 0, 0⟩ rfl (by decide) (by simp [text, isDigit])))))

/-- The tokens of `8 - 1 - 2`. -/
def subtractions : List Token :=
  [⟨.number, text "8", 1, 0⟩, ⟨.minus, text "-", 1, 2⟩, ⟨.number, text "1", 1, 4⟩,
    ⟨.minus, text "-", 1, 6⟩, ⟨.number, text "2", 1, 8⟩]

/-- `8 - 1 - 2` is read as `8 - (1 - 2)`, and not as `(8 - 1) - 2`. -/
theorem subtractions_not_conventional :
    IsInfix subtractions (.step (.number (text "8")) .minus (.step (.number (text "1")) .minus
        (.single (.number (text "2"))))) ∧
      Yields parseExpr subtractions (.binary {} (intLiteral (text "8")) .minus
        (.binary {} (intLiteral (text "1")) .minus (intLiteral (text "2")))) [] ∧
      (Infix.step (.number (text "8")) .minus (.step (.number (text "1")) .minus
        (.single (.number (text "2"))))).conventional = .binary {} (.binary {}
          (intLiteral (text "8")) .minus (intLiteral (text "1"))) .minus (intLiteral (text "2")) ∧
      ¬Yields parseExpr subtractions (.binary {} (.binary {} (intLiteral (text "8")) .minus
        (intLiteral (text "1"))) .minus (intLiteral (text "2"))) [] := by
  have hyields : Yields parseExpr subtractions (.binary {} (intLiteral (text "8")) .minus
      (.binary {} (intLiteral (text "1")) .minus (intLiteral (text "2")))) [] := ⟨8, rfl⟩
  refine ⟨?_, hyields, rfl, ?_⟩
  · exact .step ⟨.minus, text "-", 1, 2⟩
      (.number ⟨.number, text "8", 1, 0⟩ rfl (by decide) (by simp [text, isDigit])) rfl
      (.step ⟨.minus, text "-", 1, 6⟩
        (.number ⟨.number, text "1", 1, 4⟩ rfl (by decide) (by simp [text, isDigit])) rfl
        (.single (.number ⟨.number, text "2", 1, 8⟩ rfl (by decide) (by simp [text, isDigit]))))
  · intro h
    have heq := (h.unique parseExpr_refines hyields).1
    simp [intLiteral] at heq

end Reir
