import Reir.ParserTermination

/-! Where an expression ends. An operand is followed by postfix forms and operators as
long as the next token is one of those that continue an expression; any other token, or the
end of the stream, stops it. -/
namespace Reir
open StreamParser

section Tokens
variable {α : Type} {t : Token} {ts : List Token} {k : TokenType}

theorem run_expect (h : t.type = k) : (expect k).run (t :: ts) = .ok () (t :: ts) := by
  rw [expect, getToken, get_cons_bind, expectToken, if_pos h]
  rfl

theorem run_skip (h : t.type = k) : (skip k).run (t :: ts) = .ok () ts := by
  rw [skip, bind_ok (run_expect h)]
  rfl

theorem run_takeText : takeText.run (t :: ts) = .ok t.text ts := rfl

theorem run_takeIdentifier (h : t.type = .identifier) :
    takeIdentifier.run (t :: ts) = .ok t.text ts := by
  rw [takeIdentifier, bind_ok (run_expect h), run_takeText]

end Tokens

/-- The tokens on which `parse_expr_postfix` goes on. -/
def continues (k : TokenType) : Bool :=
  match k with
  | .openParen | .openBracket | .period | .equal => true
  | _ => (binaryOperator k).isSome

/-- No token of `ts` is read as part of an expression that ends in front of it. -/
def Stops : List Token → Prop
  | [] => True
  | t :: _ => continues t.type = false

theorem parseExprPostfix_stops (n : ℕ) (e : Expression) {ts : List Token} (h : Stops ts) :
    (parseExprPostfix (n+1) e).run ts = .ok e ts := by
  cases ts with
  | nil => rfl
  | cons t r =>
    have ht : continues t.type = false := h
    rw [parseExprPostfix, hasNext_bind, if_pos (by simp), getToken, get_cons_bind]
    cases hk : t.type with
    | _ =>
      rw [hk] at ht
      first
      | exact absurd ht (by decide)
      | rfl

theorem parseExprPostfix_operator (n : ℕ) (e : Expression) {t : Token} {op : Operators}
    (h : binaryOperator t.type = some op) (ts : List Token) :
    (parseExprPostfix (n+1) e).run (t :: ts) = (do
      let rhs ← parseExpr n
      pure (.binary {} e op rhs) : ParserM Expression).run ts := by
  rw [parseExprPostfix, hasNext_bind, if_pos (by simp), getToken, get_cons_bind]
  cases hk : t.type with
  | _ =>
    rw [hk] at h
    cases h <;> rfl

section Postfix
variable (n : ℕ) (e : Expression) {t : Token} (ts : List Token)

theorem parseExprPostfix_call (h : t.type = .openParen) :
    (parseExprPostfix (n+1) e).run (t :: ts) =
      (functionCall n e >>= parseExprPostfix n).run (t :: ts) := by
  rw [parseExprPostfix, hasNext_bind, if_pos (by simp), getToken, get_cons_bind, h]

theorem parseExprPostfix_index (h : t.type = .openBracket) :
    (parseExprPostfix (n+1) e).run (t :: ts) =
      (arrayReference n e.asVariable >>= parseExprPostfix n).run (t :: ts) := by
  rw [parseExprPostfix, hasNext_bind, if_pos (by simp), getToken, get_cons_bind, h]

theorem parseExprPostfix_member (h : t.type = .period) :
    (parseExprPostfix (n+1) e).run (t :: ts) =
      (memberReference e >>= parseExprPostfix n).run (t :: ts) := by
  rw [parseExprPostfix, hasNext_bind, if_pos (by simp), getToken, get_cons_bind, h]

theorem parseExprPostfix_assign (h : t.type = .equal) :
    (parseExprPostfix (n+1) e).run (t :: ts) =
      (assign n e >>= parseExprPostfix n).run (t :: ts) := by
  rw [parseExprPostfix, hasNext_bind, if_pos (by simp), getToken, get_cons_bind, h]

end Postfix

/-- `parse_expr` is an operand and its postfix; the check between them is that of the postfix. -/
theorem parseExpr_operand {n : ℕ} {t : Token} {ts r : List Token} {v : Expression}
    (h : (parseOperand (parseExpr (n+1)) (rowLiteral (n+1)) (arrayLiteral (n+1)) t).run (t :: ts) =
      .ok v r) :
    (parseExpr (n+2)).run (t :: ts) = (parseExprPostfix (n+1) v).run r := by
  rw [parseExpr, getToken, get_cons_bind, bind_ok h, hasNext_bind]
  split_ifs with hr
  · rfl
  · have hnil : r = [] := by simpa using hr
    subst hnil
    rfl

end Reir
