import Reir.ParserExtension

/-! One source behind another. Where the first ends in an expression and the second starts with an
opening parenthesis or bracket, the expression takes in the first statement of the second source;
everywhere else the statements of the two follow each other. -/
namespace Reir
open StreamParser

/-- The postfix forms of an expression, by the token they start with. -/
def postfixForm (n : ℕ) : TokenType → Option (Expression → ParserM Expression)
  | .openParen => some (functionCall n)
  | .openBracket => some fun e => arrayReference n e.asVariable
  | .period => some memberReference
  | .equal => some (assign n)
  | _ => none

theorem parseExprPostfix_cons (n : ℕ) (e : Expression) (t : Token) (ts : List Token) :
    (parseExprPostfix (n+1) e).run (t :: ts) = match postfixForm n t.type with
      | some form => (form e >>= parseExprPostfix n).run (t :: ts)
      | none =>
        match binaryOperator t.type with
        | some op => (do
            let rhs ← parseExpr n
            pure (.binary {} e op rhs) : ParserM Expression).run ts
        | none => .ok e (t :: ts) := by
  rw [parseExprPostfix, hasNext_bind, if_pos (by simp), getToken, get_cons_bind]
  cases t.type <;> rfl

theorem continues_of_forms {n : ℕ} {k : TokenType} (hform : postfixForm n k = none)
    (hop : binaryOperator k = none) : continues k = false := by
  cases k <;> simp_all [postfixForm, binaryOperator, continues]

/-- An expression ends where nothing goes on with it. -/
structure RestStops (n : ℕ) : Prop where
  expr : ∀ ts a r, (parseExpr n).run ts = .ok a r → Stops r
  tail : ∀ e ts a r, (parseExprPostfix n e).run ts = .ok a r → Stops r

theorem restStops (n : ℕ) : RestStops n := by
  induction n with
  | zero => constructor <;> intros <;> rename_i h <;> simp [parseExpr, parseExprPostfix] at h
  | succ n ih =>
    constructor
    · intro ts a r h
      rw [parseExpr] at h
      obtain ⟨t, r₁, -, h⟩ := bind_eq_ok.mp h
      obtain ⟨ret, r₂, -, h⟩ := bind_eq_ok.mp h
      rw [hasNext_bind] at h
      split_ifs at h with hmore
      · exact ih.tail ret r₂ a r h
      · obtain ⟨-, rfl⟩ := Outcome.ok.inj h
        have hnil : r₂ = [] := by simpa using hmore
        rw [hnil]
        trivial
    · intro e ts a r h
      cases ts with
      | nil =>
        rw [(parseExprPostfix_nil h).2]
        trivial
      | cons t ts =>
        rw [parseExprPostfix_cons] at h
        cases hform : postfixForm n t.type with
        | some form =>
          rw [hform] at h
          obtain ⟨c, r₁, -, h⟩ := bind_eq_ok.mp h
          exact ih.tail c r₁ a r h
        | none =>
          rw [hform] at h
          cases hop : binaryOperator t.type with
          | some op =>
            rw [hop] at h
            obtain ⟨rhs, r₁, hrhs, h⟩ := bind_eq_ok.mp h
            obtain ⟨-, rfl⟩ := Outcome.ok.inj h
            exact ih.expr ts rhs _ hrhs
          | none =>
            rw [hop] at h
            obtain ⟨-, rfl⟩ := Outcome.ok.inj h
            exact continues_of_forms hform hop

/-- Behind a rest that stops an expression nothing is read. -/
theorem parseExprPostfix_rest {n : ℕ} {e a : Expression} {ts r : List Token} (hs : Stops ts)
    (h : (parseExprPostfix n e).run ts = .ok a r) : a = e ∧ r = ts := by
  cases n with
  | zero => simp [parseExprPostfix] at h
  | succ n =>
    rw [parseExprPostfix_stops n e hs] at h
    obtain ⟨rfl, rfl⟩ := Outcome.ok.inj h
    exact ⟨rfl, rfl⟩

theorem postfixForm_rest {n : ℕ} {k : TokenType} {form : Expression → ParserM Expression}
    (hform : postfixForm n k = some form) (e e' : Expression) : SameRest (form e) (form e') := by
  cases k with
  | openParen =>
    obtain rfl := Option.some.inj hform
    cases n with
    | zero => exact sameRest_timeout
    | succ n =>
      rw [functionCall, functionCall]
      exact .bind fun _ => .bind fun _ => .bind fun _ => sameRest_pure _ _
  | openBracket =>
    obtain rfl := Option.some.inj hform
    cases n with
    | zero => exact sameRest_timeout
    | succ n =>
      dsimp only
      rw [arrayReference, arrayReference]
      exact .bind fun _ => .bind fun _ => .bind fun _ => sameRest_pure _ _
  | period =>
    obtain rfl := Option.some.inj hform
    exact .bind fun _ => .bind fun _ => sameRest_pure _ _
  | equal =>
    obtain rfl := Option.some.inj hform
    cases n with
    | zero => exact sameRest_timeout
    | succ n =>
      rw [assign, assign]
      exact .bind fun _ => .bind fun _ => sameRest_pure _ _
  | _ => simp [postfixForm] at hform

theorem parseExprPostfix_sameRest (n : ℕ) (e e' : Expression) :
    SameRest (parseExprPostfix n e) (parseExprPostfix n e') := by
  induction n generalizing e e' with
  | zero => exact sameRest_timeout
  | succ n ih =>
    intro ts a r h
    cases ts with
    | nil =>
      rw [(parseExprPostfix_nil h).2]
      exact ⟨e', rfl⟩
    | cons t ts =>
      rw [parseExprPostfix_cons] at h ⊢
      cases hform : postfixForm n t.type with
      | some form =>
        rw [hform] at h
        obtain ⟨c, r₁, hc, h⟩ := bind_eq_ok.mp h
        obtain ⟨c', hc'⟩ := postfixForm_rest hform e e' hc
        obtain ⟨a', ha'⟩ := ih c c' h
        exact ⟨a', (bind_ok hc').trans ha'⟩
      | none =>
        rw [hform] at h
        cases hop : binaryOperator t.type with
        | some op =>
          rw [hop] at h
          obtain ⟨rhs, r₁, hrhs, h⟩ := bind_eq_ok.mp h
          obtain ⟨-, rfl⟩ := Outcome.ok.inj h
          exact ⟨_, (bind_ok hrhs).trans rfl⟩
        | none =>
          rw [hop] at h
          obtain ⟨-, rfl⟩ := Outcome.ok.inj h
          exact ⟨e', rfl⟩

/-- The postfix reads from `ts` up to `r`, whatever stands in front of it. -/
def Eats (ts r : List Token) : Prop := ∃ n e a, (parseExprPostfix n e).run ts = .ok a r

theorem parseExprPostfix_refines_succ (e : Expression) (n : ℕ) :
    Refines (parseExprPostfix n e) (parseExprPostfix (n+1) e) :=
  (exprRefines n).tail e

theorem Eats.unique {ts r r' : List Token} (h : Eats ts r) (h' : Eats ts r') : r = r' := by
  obtain ⟨n, e, a, hrun⟩ := h
  obtain ⟨m, e', a', hrun'⟩ := h'
  obtain ⟨b, hb⟩ := parseExprPostfix_sameRest m e' e hrun'
  exact (Yields.unique (parseExprPostfix_refines_succ e) ⟨n, hrun⟩ ⟨m, hb⟩).2

theorem Eats.stops {ts r : List Token} (h : Eats ts r) : Stops r := by
  obtain ⟨n, e, a, hrun⟩ := h
  exact (restStops n).tail e ts a r hrun

section Edges
variable {vs : List Token}

theorem postfixForm_agrees {n m : ℕ} {k : TokenType} {form form' : Expression → ParserM Expression}
    (hform : postfixForm n k = some form) (hform' : postfixForm m k = some form')
    (hk : k ≠ .equal) (e : Expression) : Agrees SameImage vs (form e) (form' e) := by
  cases k with
  | openParen =>
    obtain rfl := Option.some.inj hform
    obtain rfl := Option.some.inj hform'
    exact Carries.agrees_of_le (F := fun n => functionCall n e)
      (fun n => (exprRefines n).call e) (fun n => (exprExtends vs n).call e) n m
  | openBracket =>
    obtain rfl := Option.some.inj hform
    obtain rfl := Option.some.inj hform'
    exact Carries.agrees_of_le (F := fun n => arrayReference n e.asVariable)
      (fun n => (exprRefines n).index _) (fun n => (exprExtends vs n).index _) n m
  | period =>
    obtain rfl := Option.some.inj hform
    obtain rfl := Option.some.inj hform'
    exact (extends_memberReference e).agrees
  | equal => exact absurd rfl hk
  | _ => simp [postfixForm] at hform

theorem parseOperand_agrees {t t' : Token} (ht : SameImage t t') (hand : t.type ≠ .and) (n m : ℕ) :
    Agrees SameImage vs (parseOperand (parseExpr n) (rowLiteral n) (arrayLiteral n) t)
      (parseOperand (parseExpr m) (rowLiteral m) (arrayLiteral m) t') := by
  intro us us' a b r r' hsame hrun hq
  obtain ⟨r'', hnext, hrest⟩ := parseOperand_closed (exprExtends vs n) ht hand hsame hrun
    fun _ => trivial
  have hrefines : ∀ n, Refines (parseOperand (parseExpr n) (rowLiteral n) (arrayLiteral n) t')
      (parseOperand (parseExpr (n+1)) (rowLiteral (n+1)) (arrayLiteral (n+1)) t') :=
    fun n => parseOperand_refines (exprRefines n).expr (exprRefines n).row (exprRefines n).array t'
  obtain ⟨rfl, rfl⟩ := Yields.unique hrefines ⟨m, hq⟩ ⟨n+1, hnext⟩
  exact ⟨rfl, r'', rfl, hrest⟩

/-- Where an expression reaches the end of the stream, it goes on with the postfix in `vs`. -/
structure ExprEdge (vs : List Token) (n : ℕ) : Prop where
  expr : ∀ m, Edge SameImage vs (Eats vs) (parseExpr n) (parseExpr m)
  tail : ∀ e e' m, Edge SameImage vs (Eats vs) (parseExprPostfix n e) (parseExprPostfix m e')

theorem assign_edge {n : ℕ} (ih : ExprEdge vs n) (e e' : Expression) (m : ℕ) :
    Edge SameImage vs (Eats vs) (assign (n+1) e) (assign (m+1) e') := by
  rw [assign, assign]
  refine Edge.bind (extends_skip _).agrees fun _ => ?_
  intro us us' a b r' hsame hrun hq
  obtain ⟨v, r₁, hv, hrun⟩ := bind_eq_ok.mp hrun
  obtain ⟨v', r₁', hv', hq⟩ := bind_eq_ok.mp hq
  obtain ⟨-, rfl⟩ := Outcome.ok.inj hrun
  obtain ⟨-, rfl⟩ := Outcome.ok.inj hq
  exact ih.expr m hsame hv hv'

/-- An assignment leaves nothing that goes on with it. -/
theorem assign_stops {n : ℕ} {e c : Expression} {ts r : List Token}
    (h : (assign n e).run ts = .ok c r) : Stops r := by
  cases n with
  | zero => simp [assign] at h
  | succ n =>
    rw [assign] at h
    obtain ⟨_, r₁, -, h⟩ := bind_eq_ok.mp h
    obtain ⟨v, r₂, hv, h⟩ := bind_eq_ok.mp h
    obtain ⟨-, rfl⟩ := Outcome.ok.inj h
    exact (restStops n).expr r₁ v _ hv

theorem parseExprPostfix_edge {n : ℕ} (ih : ExprEdge vs n)
    (hassign : ∀ e e' m, Edge SameImage vs (Eats vs) (assign n e) (assign m e'))
    (e e' : Expression) (m : ℕ) :
    Edge SameImage vs (Eats vs) (parseExprPostfix (n+1) e) (parseExprPostfix m e') := by
  intro us us' a b r' hsame hrun hq
  cases m with
  | zero => simp [parseExprPostfix] at hq
  | succ m =>
    cases hsame with
    | nil => exact ⟨m+1, e', b, hq⟩
    | @cons t t' us us' ht hsame =>
      have hall : List.Forall₂ SameImage (t :: us) (t' :: us') := .cons ht hsame
      rw [List.cons_append, parseExprPostfix_cons, ← ht.type] at hq
      rw [parseExprPostfix_cons] at hrun
      cases hform : postfixForm n t.type with
      | some form =>
        obtain ⟨form', hform'⟩ : ∃ form', postfixForm m t.type = some form' := by
          cases hk : t.type <;> rw [hk] at hform <;> simp_all [postfixForm]
        rw [hform] at hrun
        rw [hform'] at hq
        obtain ⟨c, r₁, hc, htail⟩ := bind_eq_ok.mp hrun
        obtain ⟨c', r₁', hc', htail'⟩ := bind_eq_ok.mp hq
        by_cases hequal : t.type = .equal
        · rw [hequal] at hform hform'
          obtain rfl := Option.some.inj hform
          obtain rfl := Option.some.inj hform'
          have hnil := parseExprPostfix_rest (assign_stops hc) htail
          have hsome := parseExprPostfix_rest (assign_stops hc') htail'
          rw [← hnil.2] at hc
          rw [hsome.2]
          exact hassign e e' m hall hc hc'
        · obtain ⟨d, hd⟩ := postfixForm_rest hform' e' e hc'
          obtain ⟨-, r'', rfl, hrest⟩ := postfixForm_agrees hform hform' hequal e hall hc hd
          exact ih.tail c c' m hrest htail htail'
      | none =>
        have hform' : postfixForm m t.type = none := by
          cases hk : t.type <;> rw [hk] at hform <;> simp_all [postfixForm]
        rw [hform] at hrun
        rw [hform'] at hq
        cases hop : binaryOperator t.type with
        | some op =>
          rw [hop] at hrun hq
          obtain ⟨rhs, r₁, hrhs, hrun⟩ := bind_eq_ok.mp hrun
          obtain ⟨rhs', r₁', hrhs', hq⟩ := bind_eq_ok.mp hq
          obtain ⟨-, rfl⟩ := Outcome.ok.inj hrun
          obtain ⟨-, rfl⟩ := Outcome.ok.inj hq
          exact ih.expr m hsame hrhs hrhs'
        | none =>
          rw [hop] at hrun
          simp at hrun

/-- The address of an expression ends with the expression. -/
theorem pointerOf_edge {n : ℕ} (ih : ExprEdge vs n) (m : ℕ) :
    Edge SameImage vs (Eats vs)
      (do next; let target ← parseExpr n; pure (Expression.pointerOf {} target))
      (do next; let target ← parseExpr m; pure (Expression.pointerOf {} target)) :=
  Edge.bind carries_next.agrees fun _ => (ih.expr m).bindPure

theorem pointerOf_stops {n : ℕ} {c : Expression} {ts r : List Token}
    (h : (do next; let target ← parseExpr n; pure (Expression.pointerOf {} target) :
      ParserM Expression).run ts = .ok c r) : Stops r := by
  obtain ⟨_, r₁, -, h⟩ := bind_eq_ok.mp h
  obtain ⟨v, r₂, hv, h⟩ := bind_eq_ok.mp h
  obtain ⟨-, rfl⟩ := Outcome.ok.inj h
  exact (restStops n).expr r₁ v _ hv

/-- The check for a next token behind an operand is that of the postfix. -/
theorem parseExpr_eq_ok {n : ℕ} {ts r : List Token} {a : Expression}
    (h : (parseExpr (n+1)).run ts = .ok a r) :
    ∃ t us v r₁, ts = t :: us ∧
      (parseOperand (parseExpr n) (rowLiteral n) (arrayLiteral n) t).run ts = .ok v r₁ ∧
      ∃ k, (parseExprPostfix k v).run r₁ = .ok a r ∧ (r₁ ≠ [] → k = n) := by
  cases ts with
  | nil => simp [parseExpr, getToken] at h
  | cons t us =>
    rw [parseExpr, getToken, get_cons_bind] at h
    obtain ⟨v, r₁, hv, h⟩ := bind_eq_ok.mp h
    refine ⟨t, us, v, r₁, rfl, hv, ?_⟩
    rw [hasNext_bind] at h
    split_ifs at h with hmore
    · exact ⟨n, h, fun _ => rfl⟩
    · have hnil : r₁ = [] := by simpa using hmore
      subst hnil
      exact ⟨1, h, fun hne => absurd rfl hne⟩

theorem exprEdge (vs : List Token) (n : ℕ) : ExprEdge vs n := by
  induction n using Nat.strong_induction_on with
  | _ n ih =>
    cases n with
    | zero =>
      constructor <;> intros <;> intro us us' a b r' _ hrun <;>
        simp [parseExpr, parseExprPostfix] at hrun
    | succ n =>
      have ihn := ih n n.lt_succ_self
      constructor
      · intro m us us' a b r' hsame hrun hq
        cases m with
        | zero => simp [parseExpr] at hq
        | succ m =>
          obtain ⟨t, ws, v, r₁, rfl, hv, k, htail, hk⟩ := parseExpr_eq_ok hrun
          cases hsame with
          | @cons _ t' _ us' ht hsame =>
            have hall : List.Forall₂ SameImage (t :: ws) (t' :: us') := .cons ht hsame
            obtain ⟨u, xs, v', r₁', hcons, hv', k', htail', hk'⟩ := parseExpr_eq_ok hq
            obtain ⟨rfl, rfl⟩ := List.cons.inj hcons
            by_cases hand : t.type = .and
            · have hand' : t'.type = .and := ht.type ▸ hand
              unfold parseOperand at hv hv'
              rw [hand] at hv
              rw [hand'] at hv'
              have hnil := parseExprPostfix_rest (pointerOf_stops hv) htail
              have hsome := parseExprPostfix_rest (pointerOf_stops hv') htail'
              rw [← hnil.2] at hv
              rw [hsome.2]
              exact pointerOf_edge ihn m hall hv hv'
            · obtain ⟨rfl, r'', rfl, hrest⟩ := parseOperand_agrees ht hand n m hall hv hv'
              by_cases hne : r₁ = []
              · subst hne
                cases hrest
                exact ⟨k', v', b, htail'⟩
              · rw [hk hne] at htail
                exact ihn.tail v' v' k' hrest htail htail'
      · refine parseExprPostfix_edge ihn ?_
        intro e e' m
        cases n with
        | zero =>
          intro us us' a b r' _ hrun
          simp [assign] at hrun
        | succ n =>
          cases m with
          | zero =>
            intro us us' a b r' _ _ hq
            simp [assign] at hq
          | succ m => exact assign_edge (ih n (by omega)) e e' m

end Edges

theorem parseExpr_not_close {n : ℕ} {t : Token} {ts r : List Token} {e : Expression}
    (h : (parseExpr n).run (t :: ts) = .ok e r) : t.type ≠ .closeParen ∧ t.type ≠ .closeBracket := by
  cases n with
  | zero => simp [parseExpr] at h
  | succ n =>
    obtain ⟨u, us, v, r₁, hcons, hv, -⟩ := parseExpr_eq_ok h
    obtain ⟨rfl, rfl⟩ := List.cons.inj hcons
    constructor
    · intro hk
      simp [parseOperand, hk] at hv
    · intro hk
      simp [parseOperand, hk] at hv

/-- A single element between brackets. -/
theorem parseElements_single {n m : ℕ} {close : TokenType} {ts r r' : List Token} {t : Token}
    {e : Expression} {es : List Expression}
    (hclose : close = .closeParen ∨ close = .closeBracket)
    (he : (parseExpr m).run ts = .ok e (t :: r)) (ht : t.type = close)
    (h : (parseElements n close).run ts = .ok es r') : r' = t :: r := by
  cases n with
  | zero => simp [parseElements] at h
  | succ n =>
    cases ts with
    | nil => simp [parseElements, getToken] at h
    | cons u us =>
      have hfirst : u.type ≠ close := by
        rcases hclose with rfl | rfl
        · exact (parseExpr_not_close he).1
        · exact (parseExpr_not_close he).2
      rw [parseElements, getToken, get_cons_bind, if_neg hfirst] at h
      obtain ⟨e', r₁, he', h⟩ := bind_eq_ok.mp h
      obtain ⟨-, rfl⟩ := Yields.unique parseExpr_refines ⟨m, he⟩ ⟨n, he'⟩
      rw [get_cons_bind, if_pos ht] at h
      obtain ⟨-, rfl⟩ := Outcome.ok.inj h
      rfl

/-- What a postfix makes of an expression in brackets, it reads as far as the expression goes. -/
theorem Eats.eq_rest {n : ℕ} {ts r r' : List Token} {e : Expression} (hopen : startsOpen ts = true)
    (h : (parseExpr n).run ts = .ok e r) (heats : Eats ts r') : r' = r := by
  cases n with
  | zero => simp [parseExpr] at h
  | succ n =>
    obtain ⟨t, us, v, r₁, rfl, hv, k, htail, -⟩ := parseExpr_eq_ok h
    suffices hfinal : Eats r₁ r' from hfinal.unique ⟨k, v, e, htail⟩
    obtain ⟨m, x, a, heats⟩ := heats
    cases m with
    | zero => simp [parseExprPostfix] at heats
    | succ m =>
      have hkind : t.type = .openParen ∨ t.type = .openBracket := by simpa [startsOpen] using hopen
      rw [parseExprPostfix_cons] at heats
      rcases hkind with hkind | hkind
      · rw [hkind] at heats
        obtain ⟨c, r₂, hc, heats⟩ := bind_eq_ok.mp heats
        refine ⟨m, c, a, ?_⟩
        suffices hsame : r₁ = r₂ from hsame ▸ heats
        unfold parseOperand at hv
        rw [hkind] at hv
        obtain ⟨inner, r₃, hinner, hv⟩ := bind_eq_ok.mp (next_cons_bind _ ▸ hv)
        obtain ⟨_, r₄, hskip, hv⟩ := bind_eq_ok.mp hv
        obtain ⟨-, rfl⟩ := Outcome.ok.inj hv
        obtain ⟨p, rfl, hp⟩ := skip_eq_ok hskip
        cases m with
        | zero => simp [functionCall] at hc
        | succ m =>
          rw [functionCall, bind_ok (run_skip hkind)] at hc
          obtain ⟨args, r₅, hargs, hc⟩ := bind_eq_ok.mp hc
          obtain ⟨_, r₆, hskip', hc⟩ := bind_eq_ok.mp hc
          obtain ⟨-, rfl⟩ := Outcome.ok.inj hc
          obtain ⟨p', rfl, -⟩ := skip_eq_ok hskip'
          have hrest := parseElements_single (.inl rfl) hinner hp hargs
          exact (List.cons.inj hrest).2.symm
      · rw [hkind] at heats
        obtain ⟨c, r₂, hc, heats⟩ := bind_eq_ok.mp heats
        refine ⟨m, c, a, ?_⟩
        suffices hsame : r₁ = r₂ from hsame ▸ heats
        unfold parseOperand at hv
        rw [hkind] at hv
        cases n with
        | zero => simp [arrayLiteral] at hv
        | succ n =>
          simp only [arrayLiteral] at hv
          rw [bind_ok (run_skip hkind)] at hv
          obtain ⟨es, r₃, hes, hv⟩ := bind_eq_ok.mp hv
          obtain ⟨_, r₄, hskip, hv⟩ := bind_eq_ok.mp hv
          obtain ⟨-, rfl⟩ := Outcome.ok.inj hv
          obtain ⟨p, rfl, -⟩ := skip_eq_ok hskip
          cases m with
          | zero => simp [arrayReference] at hc
          | succ m =>
            simp only [arrayReference] at hc
            rw [bind_ok (run_skip hkind)] at hc
            obtain ⟨idx, r₅, hidx, hc⟩ := bind_eq_ok.mp hc
            obtain ⟨_, r₆, hskip', hc⟩ := bind_eq_ok.mp hc
            obtain ⟨-, rfl⟩ := Outcome.ok.inj hc
            obtain ⟨p', rfl, hp'⟩ := skip_eq_ok hskip'
            have hrest := parseElements_single (.inr rfl) hidx hp' hes
            exact (List.cons.inj hrest).2

section Statements
variable {vs : List Token}

theorem parseLet_edge (n m : ℕ) : Edge SameImage vs (Eats vs) (parseLet n) (parseLet m) :=
  Edge.bind (extends_skip _).agrees fun _ =>
    Edge.bind (Carries.agrees_of_le parseDeclaredType_refines extends_parseDeclaredType n m) fun _ =>
      Edge.bind extends_takeIdentifier.agrees fun _ => Edge.bind (extends_skip _).agrees fun _ =>
        ((exprEdge vs n).expr m).bindPure

theorem parseEmit_edge (n m : ℕ) : Edge SameImage vs (Eats vs) (parseEmit n) (parseEmit m) :=
  Edge.bind (extends_skip _).agrees fun _ => ((exprEdge vs n).expr m).bindPure

theorem parseInsert_edge (n m : ℕ) : Edge SameImage vs (Eats vs) (parseInsert n) (parseInsert m) :=
  Edge.bind (extends_skip _).agrees fun _ => Edge.bind extends_takeIdentifier.agrees fun _ =>
    Edge.bind (extends_expect _).agrees fun _ => ((exprEdge vs n).expr m).bindPure

theorem parseExprStatement_edge (n m : ℕ) :
    Edge SameImage vs (Eats vs) (parseExprStatement n) (parseExprStatement m) :=
  ((exprEdge vs n).expr m).bindPure

/-- The statements whose constructor ends in a block, a name or a type. -/
def ClosedStatement (s : Statement) : Prop := s.endsInExpression = false

theorem parseDefine_closed (n : ℕ) : (parseDefine n).Gives ClosedStatement :=
  (gives_true _).bind fun _ _ => (gives_true _).bind fun _ _ => (gives_true _).bind fun _ _ =>
    gives_pure rfl

theorem parseDefineTuple_closed (n : ℕ) : (parseDefineTuple n).Gives ClosedStatement := by
  refine (gives_true _).bind fun _ _ => (gives_true _).bind fun _ _ => ?_
  refine (gives_true _).bind fun type _ => ?_
  split_ifs
  · exact gives_pure rfl
  · exact gives_throw

theorem parseTransaction_closed (n : ℕ) : (parseTransaction n).Gives ClosedStatement := by
  cases n with
  | zero => exact gives_timeout
  | succ n =>
    rw [parseTransaction]
    exact (gives_true _).bind fun _ _ => (gives_true _).bind fun _ _ =>
      (gives_true _).bind fun _ _ => (gives_true _).bind fun _ _ => gives_pure rfl

theorem parseIf_closed (n : ℕ) : (parseIf n).Gives ClosedStatement := by
  cases n with
  | zero => exact gives_timeout
  | succ n =>
    rw [parseIf]
    refine (gives_true _).bind fun _ _ => (gives_true _).bind fun cond _ => ?_
    refine (gives_true _).bind fun _ _ => (gives_true _).bind fun trueBlock _ => ?_
    refine (gives_true _).bind fun more _ => ?_
    split_ifs
    · refine (gives_true _).bind fun token _ => ?_
      split_ifs
      · exact (gives_true _).bind fun _ _ => (gives_true _).bind fun _ _ =>
          (gives_true _).bind fun _ _ => gives_pure rfl
      · exact gives_pure rfl
    · exact gives_pure rfl

theorem parseFor_closed (n : ℕ) : (parseFor n).Gives ClosedStatement := by
  cases n with
  | zero => exact gives_timeout
  | succ n =>
    rw [parseFor]
    exact (gives_true _).bind fun _ _ => (gives_true _).bind fun _ _ =>
      (gives_true _).bind fun _ _ => (gives_true _).bind fun _ _ => (gives_true _).bind fun _ _ =>
        (gives_true _).bind fun _ _ => (gives_true _).bind fun _ _ => (gives_true _).bind
          fun _ _ => gives_pure rfl

theorem parseScan_closed (n : ℕ) : (parseScan n).Gives ClosedStatement := by
  cases n with
  | zero => exact gives_timeout
  | succ n =>
    rw [parseScan]
    exact (gives_true _).bind fun _ _ => (gives_true _).bind fun _ _ =>
      (gives_true _).bind fun _ _ => (gives_true _).bind fun _ _ => (gives_true _).bind fun _ _ =>
        (gives_true _).bind fun _ _ => gives_pure rfl

theorem parseStatement_edge {n m : ℕ} {us us' : List Token} {s : Statement}
    (hs : s.endsInExpression = true) (hsame : List.Forall₂ SameImage us us')
    (hrun : (parseStatement n).run us = .ok (some s) []) {b : Option Statement} {r' : List Token}
    (hq : (parseStatement m).run (us' ++ vs) = .ok b r') : Eats vs r' := by
  have hopen : ∀ {p : ParserM Statement} {ts : List Token}, p.Gives ClosedStatement →
      (some <$> p).run ts ≠ .ok (some s) [] := by
    intro p ts hp h
    obtain ⟨s', r, hs', h⟩ := bind_eq_ok.mp h
    obtain ⟨hsome, -⟩ := Outcome.ok.inj h
    have hclosed := hp hs'
    rw [Option.some.inj hsome, ClosedStatement, hs] at hclosed
    simp at hclosed
  cases n with
  | zero => simp [parseStatement] at hrun
  | succ n =>
    cases m with
    | zero => simp [parseStatement] at hq
    | succ m =>
      cases hsame with
      | nil => simp [parseStatement, getToken] at hrun
      | @cons t t' us us' ht hsame =>
        have hall : List.Forall₂ SameImage (t :: us) (t' :: us') := .cons ht hsame
        rw [parseStatement, getToken, get_cons_bind] at hrun
        rw [List.cons_append, parseStatement, getToken, get_cons_bind, ← ht.type] at hq
        cases hk : t.type with
        | «let» =>
          rw [hk] at hrun hq
          exact (parseLet_edge n m).bindPure hall hrun hq
        | emit =>
          rw [hk] at hrun hq
          exact (parseEmit_edge n m).bindPure hall hrun hq
        | insert =>
          rw [hk] at hrun hq
          exact (parseInsert_edge n m).bindPure hall hrun hq
        | openBracket | openParen | number | stringLiteral | identifier =>
          rw [hk] at hrun hq
          exact (parseExprStatement_edge n m).bindPure hall hrun hq
        | openBrace =>
          rw [hk] at hrun
          obtain ⟨blk, r, -, h⟩ := bind_eq_ok.mp hrun
          obtain ⟨hsome, -⟩ := Outcome.ok.inj h
          rw [← Option.some.inj hsome] at hs
          simp [Statement.endsInExpression] at hs
        | «break» =>
          rw [hk] at hrun
          obtain ⟨hsome, -⟩ := Outcome.ok.inj hrun
          rw [← Option.some.inj hsome] at hs
          simp [Statement.endsInExpression] at hs
        | «continue» =>
          rw [hk] at hrun
          obtain ⟨hsome, -⟩ := Outcome.ok.inj hrun
          rw [← Option.some.inj hsome] at hs
          simp [Statement.endsInExpression] at hs
        | transaction =>
          rw [hk] at hrun
          exact absurd hrun (hopen (parseTransaction_closed n))
        | «if» =>
          rw [hk] at hrun
          exact absurd hrun (hopen (parseIf_closed n))
        | «for» =>
          rw [hk] at hrun
          exact absurd hrun (hopen (parseFor_closed n))
        | define =>
          rw [hk] at hrun
          exact absurd hrun (hopen (parseDefine_closed n))
        | scan =>
          rw [hk] at hrun
          exact absurd hrun (hopen (parseScan_closed n))
        | tuple =>
          rw [hk] at hrun
          exact absurd hrun (hopen (parseDefineTuple_closed n))
        | _ =>
          rw [hk] at hrun
          simp at hrun

theorem parseStatement_startsOpen {n : ℕ} {ts r : List Token} {s : Option Statement}
    (hopen : startsOpen ts = true) (h : (parseStatement n).run ts = .ok s r) :
    ∃ m e, (parseExpr m).run ts = .ok e r := by
  cases n with
  | zero => simp [parseStatement] at h
  | succ n =>
    cases ts with
    | nil => simp [startsOpen] at hopen
    | cons t ts =>
      have hkind : t.type = .openParen ∨ t.type = .openBracket := by simpa [startsOpen] using hopen
      have hexpr : (some <$> parseExprStatement n).run (t :: ts) = .ok s r := by
        rw [parseStatement, getToken, get_cons_bind] at h
        rcases hkind with hkind | hkind
        · rw [hkind] at h
          exact h
        · rw [hkind] at h
          exact h
      obtain ⟨s', r₁, hs', hpure⟩ := bind_eq_ok.mp hexpr
      obtain ⟨-, rfl⟩ := Outcome.ok.inj hpure
      obtain ⟨e, r₂, he, hpure'⟩ := bind_eq_ok.mp hs'
      obtain ⟨-, rfl⟩ := Outcome.ok.inj hpure'
      exact ⟨n, e, he⟩

theorem not_yields_nil {s : Option Statement} {r : List Token} :
    ¬ Yields parseStatement [] s r := by
  rintro ⟨n, h⟩
  cases n with
  | zero => simp [parseStatement] at h
  | succ n => simp [parseStatement, getToken] at h

theorem statements_nil_iff {ss : List Statement} {r : List Token} :
    Statements [] ss r ↔ ss = [] ∧ r = [] := by
  constructor
  · intro h
    cases h with
    | nil => exact ⟨rfl, rfl⟩
    | cons hs _ => exact absurd hs not_yields_nil
  · rintro ⟨rfl, rfl⟩
    exact .nil []

theorem Statements.unique {ts : List Token} {ss ss' : List Statement} (h : Statements ts ss [])
    (h' : Statements ts ss' []) : ss = ss' := by
  induction ss generalizing ts ss' with
  | nil =>
    cases h
    exact (statements_nil_iff.mp h').1.symm
  | cons s ss ih =>
    cases h with
    | @cons _ r _ _ _ hs hrest =>
      cases h' with
      | nil => exact absurd hs not_yields_nil
      | cons hs' hrest' =>
        obtain ⟨hsome, rfl⟩ := Yields.unique parseStatement_refines hs hs'
        rw [Option.some.inj hsome, ih hrest hrest']

theorem Statements.extend {us us' r : List Token} {s : Statement}
    (h : Yields parseStatement us (some s) r) (hsame : List.Forall₂ SameImage us us')
    (hend : r = [] → s.StopsBefore vs) :
    ∃ r', Yields parseStatement (us' ++ vs) (some s) (r' ++ vs) ∧ List.Forall₂ SameImage r r' := by
  obtain ⟨n, hn⟩ := h
  have hends : r = [] → ∀ s', some s = some s' → s'.StopsBefore vs := by
    intro hr s' hs'
    rw [← Option.some.inj hs']
    exact hend hr
  obtain ⟨r', hr', hrest⟩ := (statementExtends vs n).statement hsame hn hends
  exact ⟨r', ⟨n+1, hr'⟩, hrest⟩

/-- Statements in front of tokens that do not go on with the last of them. -/
theorem Statements.append {us us' : List Token} {ps qs : List Statement} (hp : Statements us ps [])
    (hsame : List.Forall₂ SameImage us us') (hq : Statements vs qs [])
    (hlast : ∀ s, ps.getLast? = some s → s.StopsBefore vs) :
    Statements (us' ++ vs) (ps ++ qs) [] := by
  induction ps generalizing us us' with
  | nil =>
    cases hp
    cases hsame
    exact hq
  | cons s ss ih =>
    cases hp with
    | @cons _ r _ _ _ hs hrest =>
      have hend : r = [] → s.StopsBefore vs := by
        rintro rfl
        have hss := (statements_nil_iff.mp hrest).1
        exact hlast s (by simp [hss])
      obtain ⟨r', hs', hsame'⟩ := Statements.extend hs hsame hend
      refine .cons hs' (ih hrest hsame' fun s' hs' => hlast s' ?_)
      cases ss with
      | nil => simp at hs'
      | cons s₂ ss => simpa using hs'

/-- A statement that ends in an expression takes in what starts with a bracket behind it. -/
theorem Statements.not_append {us us' : List Token} {ps qs : List Statement} {s : Statement}
    (hp : Statements us ps []) (hsame : List.Forall₂ SameImage us us') (hq : Statements vs qs [])
    (hlast : ps.getLast? = some s) (hs : s.endsInExpression = true)
    (hopen : startsOpen vs = true) : ¬ Statements (us' ++ vs) (ps ++ qs) [] := by
  induction ps generalizing us us' with
  | nil => simp at hlast
  | cons s₁ ss ih =>
    intro hall
    cases hp with
    | @cons _ r _ _ _ hs₁ hrest =>
      cases hall with
      | @cons _ r' _ _ _ hs₁' hrest' =>
        by_cases hr : r = []
        · subst hr
          obtain ⟨rfl, -⟩ := statements_nil_iff.mp hrest
          have hfirst : s₁ = s := by simpa using hlast
          obtain ⟨n, hn⟩ := hs₁
          obtain ⟨m, hm⟩ := hs₁'
          have heats : Eats vs r' := parseStatement_edge (hfirst ▸ hs) hsame hn hm
          cases hq with
          | nil => simp [startsOpen] at hopen
          | @cons _ rq _ q qs hq hqs =>
            obtain ⟨k, hk⟩ := hq
            obtain ⟨k', e, he⟩ := parseStatement_startsOpen hopen hk
            have hsamerest := Eats.eq_rest hopen he heats
            subst hsamerest
            have hlist := Statements.unique hqs hrest'
            simp at hlist
        · obtain ⟨r'', hs₁'', hsame'⟩ := Statements.extend hs₁ hsame fun h => absurd h hr
          obtain ⟨-, rfl⟩ := Yields.unique parseStatement_refines hs₁' hs₁''
          refine ih hrest hsame' ?_ hrest'
          cases ss with
          | nil => exact absurd (by cases hrest; rfl) hr
          | cons s₂ ss => simpa using hlast

end Statements

end Reir
