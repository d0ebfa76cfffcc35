import Reir.ParserExtension

/-! The header of a `for`. Each of its three parts may be left out, and the passes behind the parser
test the three members for null. The constructor sets none of them where its part is left out: the
first two keep no value at all, and what stands for the third is read from the brace of the body. -/
namespace Reir
open StreamParser

/-- A part of a header with its member: nothing and the null pointer, or what is written there. -/
inductive HeaderPart {α : Type} (W : List Token → α → Prop) : List Token → Ptr α → Prop
  | omitted : HeaderPart W [] .null
  | written {ts : List Token} {a : α} : W ts a → HeaderPart W ts (.to a)

/-- The tokens are those of the expression. -/
def IsExpression (ts : List Token) (e : Expression) : Prop := Yields parseExpr ts e []

def IsStatement (ts : List Token) (s : Statement) : Prop := Yields parseStatement ts (some s) []

def IsBlock (ts : List Token) (ss : List Statement) : Prop := Yields parseBlock ts ss []

/-- The tokens are those of a `for` statement whose node should have the given members. -/
def IsFor (ts : List Token) (init : Ptr Statement) (cond every : Ptr Expression)
    (blk : List Statement) : Prop :=
  ∃ f ti s tc s' te tb, ts = f :: (ti ++ s :: (tc ++ s' :: (te ++ tb))) ∧
    f.type = .for ∧ s.type = .semicolon ∧ s'.type = .semicolon ∧ HeaderPart IsStatement ti init ∧
    HeaderPart IsExpression tc cond ∧ HeaderPart IsExpression te every ∧ IsBlock tb blk

theorem sameImage_refl (ts : List Token) : List.Forall₂ SameImage ts ts :=
  List.forall₂_same.mpr fun _ _ => rfl

/-- What is read to the end of the stream is read in the same way in front of other tokens. -/
theorem settles_append {α : Type} {F : ℕ → ParserM α} {E : α → Prop} {ts vs : List Token} {a : α}
    (hF : ∀ n, Refines (F n) (F (n+1))) (hext : ∀ n, Extends vs E (F n) (F (n+1)))
    (h : Yields F ts a []) (hE : E a) : Settles F (ts ++ vs) (.ok a vs) := by
  obtain ⟨n, hn⟩ := h
  obtain ⟨r, hrun, hsame⟩ := hext n (sameImage_refl ts) hn fun _ => hE
  obtain rfl := List.forall₂_nil_left_iff.mp hsame
  exact Yields.settles hF ⟨n+1, hrun⟩

section
variable {ts vs : List Token}

theorem IsExpression.settles {e : Expression} (h : IsExpression ts e) (hvs : Stops vs) :
    Settles parseExpr (ts ++ vs) (.ok e vs) :=
  settles_append parseExpr_refines extends_parseExpr h hvs

theorem IsStatement.settles {s : Statement} (h : IsStatement ts s) (hvs : s.StopsBefore vs) :
    Settles parseStatement (ts ++ vs) (.ok (some s) vs) :=
  settles_append parseStatement_refines (fun n => (statementExtends vs n).statement) h
    fun _ hs => Option.some.inj hs ▸ hvs

theorem IsBlock.settles {ss : List Statement} (h : IsBlock ts ss) :
    Settles parseBlock (ts ++ vs) (.ok ss vs) :=
  settles_append (fun n => (statementRefines n).block) (fun n => (statementExtends vs n).block) h
    trivial

/-- No expression starts with a semicolon. -/
theorem IsExpression.starts {e : Expression} (h : IsExpression ts e) :
    ∃ t us, ts = t :: us ∧ t.type ≠ .semicolon := by
  obtain ⟨n, hn⟩ := h
  cases n with
  | zero => simp [parseExpr] at hn
  | succ n =>
    cases ts with
    | nil => simp [parseExpr, getToken] at hn
    | cons t us =>
      refine ⟨t, us, rfl, ?_⟩
      intro ht
      rw [parseExpr, getToken, get_cons_bind, parseOperand, ht, throw_bind] at hn
      simp at hn

theorem IsStatement.starts {s : Statement} (h : IsStatement ts s) :
    ∃ t us, ts = t :: us ∧ t.type ≠ .semicolon := by
  obtain ⟨n, hn⟩ := h
  cases n with
  | zero => simp [parseStatement] at hn
  | succ n =>
    cases ts with
    | nil => simp [parseStatement, getToken] at hn
    | cons t us =>
      refine ⟨t, us, rfl, ?_⟩
      intro ht
      rw [parseStatement, getToken, get_cons_bind, ht] at hn
      simp at hn

theorem IsBlock.starts {ss : List Statement} (h : IsBlock ts ss) :
    ∃ t us, ts = t :: us ∧ t.type = .openBrace := by
  obtain ⟨n, hn⟩ := h
  cases n with
  | zero => simp [parseBlock] at hn
  | succ n =>
    obtain ⟨_, us, hskip, -⟩ := bind_eq_ok.mp hn
    obtain ⟨t, hts, ht⟩ := skip_eq_ok hskip
    exact ⟨t, us, hts, ht⟩

/-- What stands in front of a semicolon is no start of a further part of the expression. -/
theorem stops_semicolon {t : Token} (h : t.type = .semicolon) : Stops (t :: ts) := by
  rw [Stops, h]
  rfl

theorem IsExpression.headerPart {e : Expression} (h : IsExpression ts e) (hvs : Stops vs) :
    Settles (fun n => parseHeaderPart (parseExpr n)) (ts ++ vs) (.ok (.to e) vs) := by
  obtain ⟨n, hn⟩ := h.settles hvs
  obtain ⟨t, us, rfl, ht⟩ := h.starts
  refine ⟨n, fun m hm => ?_⟩
  have hrun := hn m hm
  rw [List.cons_append] at hrun ⊢
  change (parseHeaderPart (parseExpr m)).run _ = _
  rw [parseHeaderPart, getToken, get_cons_bind, if_neg ht, map_ok hrun]

theorem IsStatement.initPart {s : Statement} (h : IsStatement ts s) (hvs : s.StopsBefore vs) :
    Settles (fun n => parseInitPart (parseStatement n)) (ts ++ vs) (.ok (.to s) vs) := by
  obtain ⟨n, hn⟩ := h.settles hvs
  obtain ⟨t, us, rfl, ht⟩ := h.starts
  refine ⟨n, fun m hm => ?_⟩
  have hrun := hn m hm
  rw [List.cons_append] at hrun ⊢
  change (parseInitPart (parseStatement m)).run _ = _
  rw [parseInitPart, getToken, get_cons_bind, if_neg ht, bind_ok hrun]
  rfl

end

/-- A part in front of a semicolon is not read, and its member gets no value. -/
theorem parseInitPart_omitted {t : Token} (h : t.type = .semicolon) (p : ParserM (Option Statement))
    (ts : List Token) : (parseInitPart p).run (t :: ts) = .ok .uninit (t :: ts) := by
  rw [parseInitPart, getToken, get_cons_bind, if_pos h]
  rfl

/-- No branch of the constructor sets the member to null. -/
theorem parseHeaderPart_ne_null {α : Type} (p : ParserM α) :
    (parseHeaderPart p).Gives (· ≠ .null) := by
  refine (gives_true _).bind fun t _ => ?_
  split_ifs
  · exact gives_pure (by simp)
  · exact (gives_true p).map fun a _ => by simp

/-- The three parts of a header that was read, and where the first one was read from. -/
theorem parseFor_eq_ok {n : ℕ} {ts rest : List Token} {s : Statement}
    (h : (parseFor n).run ts = .ok s rest) :
    ∃ init cond every blk, s = .forStmt init cond every blk ∧ cond ≠ .null ∧ every ≠ .null ∧
      ∃ t us p r, ts = t :: us ∧ (parseInitPart p).run us = .ok init r := by
  cases n with
  | zero => simp [parseFor] at h
  | succ n =>
    rw [parseFor] at h
    obtain ⟨_, r₁, hfor, h⟩ := bind_eq_ok.mp h
    obtain ⟨init, r₂, hinit, h⟩ := bind_eq_ok.mp h
    obtain ⟨_, r₃, -, h⟩ := bind_eq_ok.mp h
    obtain ⟨cond, r₄, hcond, h⟩ := bind_eq_ok.mp h
    obtain ⟨_, r₅, -, h⟩ := bind_eq_ok.mp h
    obtain ⟨every, r₆, hevery, h⟩ := bind_eq_ok.mp h
    obtain ⟨_, r₇, -, h⟩ := bind_eq_ok.mp h
    obtain ⟨blk, r₈, -, h⟩ := bind_eq_ok.mp h
    obtain ⟨rfl, -⟩ := Outcome.ok.inj h
    obtain ⟨t, rfl, -⟩ := skip_eq_ok hfor
    exact ⟨init, cond, every, blk, rfl, parseHeaderPart_ne_null _ hcond,
      parseHeaderPart_ne_null _ hevery, t, r₁, _, r₂, rfl, hinit⟩

theorem run_parseStatement_for {t : Token} (h : t.type = .for) (n : ℕ) (ts : List Token) :
    (parseStatement (n+1)).run (t :: ts) = (some <$> parseFor n).run (t :: ts) := by
  rw [parseStatement, getToken, get_cons_bind, h]

/-- A header with all of its parts is read as it is written. -/
theorem parseStatement_for {f s s' : Token} {ti tc te tb rest : List Token} {init : Statement}
    {cond every : Expression} {blk : List Statement} (hf : f.type = .for) (hs : s.type = .semicolon)
    (hs' : s'.type = .semicolon) (hi : IsStatement ti init) (hc : IsExpression tc cond)
    (he : IsExpression te every) (hb : IsBlock tb blk) :
    Yields parseStatement (f :: (ti ++ s :: (tc ++ s' :: (te ++ (tb ++ rest)))))
      (some (.forStmt (.to init) (.to cond) (.to every) blk)) rest := by
  have hbrace : Stops (tb ++ rest) := by
    obtain ⟨t, us, rfl, ht⟩ := hb.starts
    rw [List.cons_append, Stops, ht]
    rfl
  have helse : NotElse (s :: (tc ++ s' :: (te ++ (tb ++ rest)))) := by
    rw [NotElse, hs]
    decide
  obtain ⟨n₁, h₁⟩ := hi.initPart ⟨fun _ => stops_semicolon hs, helse⟩
  have hstops : Stops (s' :: (te ++ (tb ++ rest))) := stops_semicolon hs'
  obtain ⟨n₂, h₂⟩ := hc.headerPart hstops
  obtain ⟨n₃, h₃⟩ := he.headerPart hbrace
  obtain ⟨n₄, h₄⟩ : Settles parseBlock (tb ++ rest) (.ok blk rest) := hb.settles
  obtain ⟨t, us, rfl, ht⟩ := hb.starts
  let m := n₁+n₂+n₃+n₄
  refine ⟨m+1+1, ?_⟩
  have hfor : (parseFor (m+1)).run (f :: (ti ++ s :: (tc ++ s' :: (te ++ (t :: us ++ rest))))) =
      .ok (.forStmt (.to init) (.to cond) (.to every) blk) rest := by
    rw [parseFor, bind_ok (run_skip hf), bind_ok (h₁ m (by omega)), bind_ok (run_skip hs),
      bind_ok (h₂ m (by omega)), bind_ok (run_skip hs'), bind_ok (h₃ m (by omega)),
      List.cons_append, bind_ok (run_expect ht), ← List.cons_append, bind_ok (h₄ m (by omega))]
    rfl
  rw [run_parseStatement_for hf, map_ok hfor]

/-- The parser returns a `for` with the parts that are written, and null for those that are not,
exactly when all three are written. -/
theorem parseFor_written_iff {ts : List Token} {init : Ptr Statement} {cond every : Ptr Expression}
    {blk : List Statement} (h : IsFor ts init cond every blk) (rest : List Token) :
    Yields parseStatement (ts ++ rest) (some (.forStmt init cond every blk)) rest ↔
      init.isTo = true ∧ cond.isTo = true ∧ every.isTo = true := by
  obtain ⟨f, ti, s, tc, s', te, tb, rfl, hf, hs, hs', hi, hc, he, hb⟩ := h
  constructor
  · rintro ⟨n, hn⟩
    cases n with
    | zero => simp [parseStatement] at hn
    | succ n =>
      rw [List.cons_append, run_parseStatement_for hf] at hn
      obtain ⟨stmt, r, hfor, hpure⟩ := bind_eq_ok.mp hn
      obtain ⟨hsome, -⟩ := Outcome.ok.inj hpure
      obtain rfl := Option.some.inj hsome
      obtain ⟨init', cond', every', blk', heq, hcond, hevery, t, us, p, r', hts, hinit⟩ :=
        parseFor_eq_ok hfor
      obtain ⟨rfl, rfl, rfl, rfl⟩ := Statement.forStmt.inj heq
      obtain ⟨rfl, rfl⟩ := List.cons.inj hts
      refine ⟨?_, ?_, ?_⟩
      · cases hi with
        | omitted =>
          rw [List.nil_append, List.cons_append, parseInitPart_omitted hs] at hinit
          simp at hinit
        | written => rfl
      · cases hc with
        | omitted => exact absurd rfl hcond
        | written => rfl
      · cases he with
        | omitted => exact absurd rfl hevery
        | written => rfl
  · rintro ⟨hinit, hcond, hevery⟩
    cases hi with
    | omitted => simp [Ptr.isTo] at hinit
    | written hi =>
      cases hc with
      | omitted => simp [Ptr.isTo] at hcond
      | written hc =>
        cases he with
        | omitted => simp [Ptr.isTo] at hevery
        | written he =>
          have hread : Yields parseStatement (f :: (_ ++ s :: (_ ++ s' :: (_ ++ (tb ++ rest)))))
            (some _) rest := parseStatement_for hf hs hs' hi hc he hb
          simpa using hread

/-- The loop variable `i`, the condition `i < 3` and the step `i = i`. -/
def loopVariable : Expression := .variable {} (text "i")

def loopLimit : Expression :=
  .binary {} loopVariable .lessthan (.primary {} (some (.int 3)))

def loopStep : Expression := .assign {} loopVariable loopVariable

def loopStart : Statement := .letStmt (text "i") (.primary {} (some (.int 0))) none

/-- `for let i = 0; (i) < (3); (i) = (i) { }`, with the first part or without it. -/
def loopTokens (init : List Token) : List Token :=
  symbol .for "for" :: (init ++ semicolon :: (loopLimit.render ++ semicolon ::
    (loopStep.render ++ [openBrace, closeBrace])))

theorem loopTokens_isFor {ti : List Token} {init : Ptr Statement} (h : HeaderPart IsStatement ti init) :
    IsFor (loopTokens ti) init (.to loopLimit) (.to loopStep) [] :=
  ⟨symbol .for "for", ti, semicolon, loopLimit.render, semicolon, loopStep.render,
    [openBrace, closeBrace], rfl, rfl, rfl, rfl, h, .written ⟨8, rfl⟩, .written ⟨8, rfl⟩, ⟨2, rfl⟩⟩

theorem parseFor_written_iff_loop :
    Yields parseStatement (loopTokens loopStart.render ++ [])
      (some (.forStmt (.to loopStart) (.to loopLimit) (.to loopStep) [])) [] ↔
        (Ptr.to loopStart).isTo = true ∧ (Ptr.to loopLimit).isTo = true ∧
          (Ptr.to loopStep).isTo = true :=
  parseFor_written_iff (loopTokens_isFor (.written ⟨4, rfl⟩)) []

/-- Without its first part the loop is read into a node whose `init_` has no value. -/
theorem loopTokens_not_written :
    IsFor (loopTokens []) .null (.to loopLimit) (.to loopStep) [] ∧
      Yields parseStatement (loopTokens [])
        (some (.forStmt .uninit (.to loopLimit) (.to loopStep) [])) [] ∧
      ¬Yields parseStatement (loopTokens [])
        (some (.forStmt .null (.to loopLimit) (.to loopStep) [])) [] := by
  have hyields : Yields parseStatement (loopTokens [])
      (some (.forStmt .uninit (.to loopLimit) (.to loopStep) [])) [] := ⟨10, rfl⟩
  refine ⟨loopTokens_isFor .omitted, hyields, ?_⟩
  intro h
  have heq := (h.unique parseStatement_refines hyields).1
  simp at heq

end Reir
