import Reir.TokenizeRoundtrip
import Reir.Codegen

/-! Integer literals from the source text to the constant in the code: the parser converts them
through an `int`, everything behind it has 64 bits. -/
namespace Reir
open StreamParser

theorem isDigit_of_numbers {b : UInt8} (h : b ∈ numbers) : isDigit b = true := by
  have hall : ∀ c ∈ numbers, isDigit c = true := by decide +kernel
  exact hall b h

/-- A text of digits is one token. -/
theorem tokenize_number {ds : Text} (hne : ds ≠ []) (hdigits : ∀ c ∈ ds, c ∈ numbers) :
    ∃ t : Token, tokenize ds = .ok [t] ∧ t.type = .number ∧ t.text = ds := by
  have hread := tokenize_source {
    lead := []
    items := [(.number ds, [])]
    lead_space := by simp
    wellFormed := by simpa [Lexeme.WellFormed] using ⟨hne, hdigits⟩
    gap_space := by simp
    separated := by simp }
  have htext : TokenSource.textOf [(Lexeme.number ds, [])] = ds := by
    simp [TokenSource.textOf, Lexeme.source]
  simp only [TokenSource.text, htext, List.nil_append, List.map_cons, List.map_nil,
    Lexeme.image] at hread
  cases htok : tokenize ds with
  | error e => simp [htok, Except.map] at hread
  | ok ts =>
    simp only [htok, Except.map, Except.ok.injEq] at hread
    obtain ⟨t, rest, rfl, himage, hrest⟩ := List.map_eq_cons_iff.mp hread
    obtain rfl := List.map_eq_nil_iff.mp hrest
    obtain ⟨htype, htext⟩ := Prod.mk.inj himage
    exact ⟨t, rfl, htype, htext⟩

/-- The operand that a number token is. -/
theorem parseExpr_number {t : Token} (ht : t.type = .number) (n : ℕ) :
    (parseExpr (n+1)).run [t] = (readNumber t.text >>= fun v =>
      (pure (.primary {} (some (.int (BitVec.ofInt 64 v)))) : ParserM Expression)).run [] := by
  have hprimary : primaryExpression.run [t] = (readNumber t.text >>= fun v =>
      (pure (.primary {} (some (.int (BitVec.ofInt 64 v)))) : ParserM Expression)).run [] := by
    simp only [primaryExpression, getToken, get_cons_bind, ht, readNumber]
    cases stoi t.text with
    | ok v => rfl
    | error e => rfl
  simp only [parseExpr, getToken, get_cons_bind, parseOperand, ht]
  rw [run_bind, hprimary]
  simp only [readNumber]
  cases stoi t.text with
  | ok v => rfl
  | error e => rfl

/-- The text is a literal for its number: it is one token list, the parser makes a primary
expression with the number from it, and the code for that is the constant. -/
def LiteralKept (ds : Text) : Prop :=
  ∃ ts, ∃ v : BitVec 64, tokenize ds = .ok ts ∧ v.toInt = digitsValue ds ∧
    (∀ n, (parseExpr (n+1)).run ts = .ok (.primary {} (some (.int v))) []) ∧
    ∀ c, (Expression.primary {} (some (.int v))).getValue.run c = .ok (int64 v, c)

/-- `stoi` reads 31 bits of the 63 that a literal may have. -/
theorem literalKept_iff {ds : Text} (hne : ds ≠ []) (hdigits : ∀ c ∈ ds, c ∈ numbers)
    (hvalue : digitsValue ds ≤ 2^63-1) : LiteralKept ds ↔ digitsValue ds ≤ 2^31-1 := by
  obtain ⟨t, htok, htype, rfl⟩ := tokenize_number hne hdigits
  have hread : stoi t.text = if digitsValue t.text < 2^31 then .ok (digitsValue t.text : Int)
      else .error .outOfRange :=
    stoInt_digits 31 hne fun c hc => isDigit_of_numbers (hdigits c hc)
  constructor
  · rintro ⟨ts, v, hts, -, hparse, -⟩
    obtain rfl : [t] = ts := Except.ok.inj (htok.symm.trans hts)
    by_contra hlarge
    have hfail := hparse 0
    rw [parseExpr_number htype, readNumber, hread, if_neg (by omega)] at hfail
    simp at hfail
  · intro hsmall
    refine ⟨[t], BitVec.ofInt 64 (digitsValue t.text), htok, ?_, fun n => ?_, fun c => rfl⟩
    · rw [BitVec.toInt_ofInt_eq_self (by decide) (by omega) (by omega)]
    · rw [parseExpr_number htype, readNumber, hread, if_pos (by omega)]
      rfl

theorem literalKept_iff_small : LiteralKept (text "0042") ↔ digitsValue (text "0042") ≤ 2^31-1 :=
  literalKept_iff (by decide) (by decide +kernel) (by decide +kernel)

/-- 2147483648 does not fit an `int`. -/
theorem largeLiteral_not_kept : ¬LiteralKept (text "2147483648") := by
  have hdigits : ∀ c ∈ text "2147483648", c ∈ numbers := by decide +kernel
  have hread : stoi (text "2147483648") = .error .outOfRange := by decide +kernel
  obtain ⟨t, htok, htype, htext⟩ := tokenize_number (by decide) hdigits
  rintro ⟨ts, v, hts, -, hparse, -⟩
  obtain rfl : [t] = ts := Except.ok.inj (htok.symm.trans hts)
  have hfail := hparse 0
  rw [parseExpr_number htype, readNumber, htext, hread] at hfail
  simp at hfail

end Reir
