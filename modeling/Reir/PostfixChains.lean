import Reir.ParserPrecedence
import Reir.ParserRoundtrip

/-! Chains of calls, indices and member accesses behind a primary expression. The parser hands the
tree it has built so far to the constructor of the next form. For an index it goes through a cast to
a variable reference first, so that any other tree is lost there. -/
namespace Reir
open StreamParser

mutual

/-- An expression as it is written: a primary with its postfix operations, an operator or a `=` with
all that stands behind it, or a pointer. -/
inductive Written
  | chain (p : Primary) (ops : List Postfix)
  | operator (p : Primary) (ops : List Postfix) (op : Operators) (rest : Written)
  | assign (p : Primary) (ops : List Postfix) (value : Written)
  | pointerOf (target : Written)

inductive Primary
  | number (digits : Text)
  | string (body : Text)
  | variable (name : Text)
  | row (elements : List Written)
  | array (elements : List Written)
  | paren (e : Written)

inductive Postfix
  | call (args : List Written)
  | index (i : Written)
  | member (name : Text)

end

mutual

/-- The tokens `ts` spell the expression. -/
inductive Spells : List Token → Written → Prop
  | chain {ts us : List Token} {p : Primary} {ops : List Postfix} : SpellsPrimary ts p →
      SpellsOps us ops → Spells (ts ++ us) (.chain p ops)
  | operator {ts us vs : List Token} {p : Primary} {ops : List Postfix} {op : Operators}
      {w : Written} (t : Token) : SpellsPrimary ts p → SpellsOps us ops →
      binaryOperator t.type = some op → Spells vs w →
      Spells (ts ++ (us ++ t :: vs)) (.operator p ops op w)
  | assign {ts us vs : List Token} {p : Primary} {ops : List Postfix} {w : Written} (t : Token) :
      SpellsPrimary ts p → SpellsOps us ops → t.type = .equal → Spells vs w →
      Spells (ts ++ (us ++ t :: vs)) (.assign p ops w)
  | pointerOf {ts : List Token} {w : Written} (t : Token) : t.type = .and → Spells ts w →
      Spells (t :: ts) (.pointerOf w)

inductive SpellsPrimary : List Token → Primary → Prop
  | number (t : Token) : t.type = .number → t.text ≠ [] → (∀ b ∈ t.text, isDigit b = true) →
      SpellsPrimary [t] (.number t.text)
  | string (t : Token) : t.type = .stringLiteral → SpellsPrimary [t] (.string t.text)
  | variable (t : Token) : t.type = .identifier → SpellsPrimary [t] (.variable t.text)
  | row {ts : List Token} {es : List Written} (l r : Token) : l.type = .openBrace →
      r.type = .closeBrace → SpellsList ts es → SpellsPrimary (l :: (ts ++ [r])) (.row es)
  | array {ts : List Token} {es : List Written} (l r : Token) : l.type = .openBracket →
      r.type = .closeBracket → SpellsList ts es → SpellsPrimary (l :: (ts ++ [r])) (.array es)
  | paren {ts : List Token} {w : Written} (l r : Token) : l.type = .openParen →
      r.type = .closeParen → Spells ts w → SpellsPrimary (l :: (ts ++ [r])) (.paren w)

inductive SpellsOps : List Token → List Postfix → Prop
  | nil : SpellsOps [] []
  | call {ts us : List Token} {es : List Written} {ops : List Postfix} (l r : Token) :
      l.type = .openParen → r.type = .closeParen → SpellsList ts es → SpellsOps us ops →
      SpellsOps (l :: (ts ++ r :: us)) (.call es :: ops)
  | index {ts us : List Token} {w : Written} {ops : List Postfix} (l r : Token) :
      l.type = .openBracket → r.type = .closeBracket → Spells ts w → SpellsOps us ops →
      SpellsOps (l :: (ts ++ r :: us)) (.index w :: ops)
  | member {us : List Token} {ops : List Postfix} (dot name : Token) : dot.type = .period →
      SpellsOps us ops → SpellsOps (dot :: name :: us) (.member name.text :: ops)

/-- Elements with a comma between them, and possibly one behind the last. -/
inductive SpellsList : List Token → List Written → Prop
  | nil : SpellsList [] []
  | last {ts : List Token} {w : Written} : Spells ts w → SpellsList ts [w]
  | cons {ts us : List Token} {w : Written} {es : List Written} (t : Token) : t.type = .comma →
      Spells ts w → SpellsList us es → SpellsList (ts ++ t :: us) (w :: es)

end

mutual

/-- The tree of an expression, where each postfix operation has all before it as its parent. -/
def Written.tree : Written → Expression
  | .chain p ops => opsTree p.tree ops
  | .operator p ops op rest => .binary {} (opsTree p.tree ops) op rest.tree
  | .assign p ops value => .assign {} (opsTree p.tree ops) value.tree
  | .pointerOf target => .pointerOf {} target.tree

def Primary.tree : Primary → Expression
  | .number ds => intLiteral ds
  | .string body => .primary {} (some (.varchar body))
  | .variable x => .variable {} x
  | .row es => .rowLiteral {} (trees es)
  | .array es => .arrayLiteral {} (trees es)
  | .paren e => e.tree

def opsTree (parent : Expression) : List Postfix → Expression
  | [] => parent
  | .call args :: ops => opsTree (.functionCall {} parent (trees args)) ops
  | .index i :: ops => opsTree (.arrayReference {} (some parent) i.tree) ops
  | .member x :: ops => opsTree (.memberReference {} parent x none) ops

def trees : List Written → List Expression
  | [] => []
  | e :: es => e.tree :: trees es

end

mutual

/-- The tree of the parser: an index keeps its parent only where that is a variable. -/
def Written.parsed : Written → Expression
  | .chain p ops => opsParsed p.parsed ops
  | .operator p ops op rest => .binary {} (opsParsed p.parsed ops) op rest.parsed
  | .assign p ops value => .assign {} (opsParsed p.parsed ops) value.parsed
  | .pointerOf target => .pointerOf {} target.parsed

def Primary.parsed : Primary → Expression
  | .number ds => intLiteral ds
  | .string body => .primary {} (some (.varchar body))
  | .variable x => .variable {} x
  | .row es => .rowLiteral {} (parsedList es)
  | .array es => .arrayLiteral {} (parsedList es)
  | .paren e => e.parsed

def opsParsed (parent : Expression) : List Postfix → Expression
  | [] => parent
  | .call args :: ops => opsParsed (.functionCall {} parent (parsedList args)) ops
  | .index i :: ops => opsParsed (.arrayReference {} parent.asVariable i.parsed) ops
  | .member x :: ops => opsParsed (.memberReference {} parent x none) ops

def parsedList : List Written → List Expression
  | [] => []
  | e :: es => e.parsed :: parsedList es

end

mutual

/-- Every reference has a parent. -/
def Expression.Parented : Expression → Prop
  | .primary _ _ => True
  | .binary _ l _ r => l.Parented ∧ r.Parented
  | .pointerOf _ t => t.Parented
  | .rowLiteral _ es => AllParented es
  | .arrayLiteral _ es => AllParented es
  | .variable _ _ => True
  | .functionCall _ p as => p.Parented ∧ AllParented as
  | .arrayReference _ none _ => False
  | .arrayReference _ (some p) i => p.Parented ∧ i.Parented
  | .memberReference _ p _ _ => p.Parented
  | .assign _ t v => t.Parented ∧ v.Parented

def AllParented : List Expression → Prop
  | [] => True
  | e :: es => e.Parented ∧ AllParented es

end

/-- Nothing but a name, with or without parentheses around it. -/
def Primary.isName : Primary → Bool
  | .variable _ => true
  | .paren (.chain p []) => p.isName
  | _ => false

mutual

/-- Every literal is an `int` for `std::stoi`. -/
def Written.InRange : Written → Prop
  | .chain p ops => p.InRange ∧ OpsInRange ops
  | .operator p ops _ rest => p.InRange ∧ OpsInRange ops ∧ rest.InRange
  | .assign p ops value => p.InRange ∧ OpsInRange ops ∧ value.InRange
  | .pointerOf target => target.InRange

def Primary.InRange : Primary → Prop
  | .number ds => digitsValue ds < 2^31
  | .string _ => True
  | .variable _ => True
  | .row es => AllInRange es
  | .array es => AllInRange es
  | .paren e => e.InRange

def OpsInRange : List Postfix → Prop
  | [] => True
  | .call args :: ops => AllInRange args ∧ OpsInRange ops
  | .index i :: ops => i.InRange ∧ OpsInRange ops
  | .member _ :: ops => OpsInRange ops

def AllInRange : List Written → Prop
  | [] => True
  | e :: es => e.InRange ∧ AllInRange es

end

mutual

/-- Every index stands directly behind a name. -/
def Written.Anchored : Written → Prop
  | .chain p ops => p.Anchored ∧ OpsAnchored p.isName ops
  | .operator p ops _ rest => p.Anchored ∧ OpsAnchored p.isName ops ∧ rest.Anchored
  | .assign p ops value => p.Anchored ∧ OpsAnchored p.isName ops ∧ value.Anchored
  | .pointerOf target => target.Anchored

def Primary.Anchored : Primary → Prop
  | .number _ => True
  | .string _ => True
  | .variable _ => True
  | .row es => AllAnchored es
  | .array es => AllAnchored es
  | .paren e => e.Anchored

/-- The operations behind a primary, which is a name or is not. -/
def OpsAnchored (name : Bool) : List Postfix → Prop
  | [] => True
  | .call args :: ops => AllAnchored args ∧ OpsAnchored false ops
  | .index i :: ops => name = true ∧ i.Anchored ∧ OpsAnchored false ops
  | .member _ :: ops => OpsAnchored false ops

def AllAnchored : List Written → Prop
  | [] => True
  | e :: es => e.Anchored ∧ AllAnchored es

end

theorem asVariable_eq_some_iff {e e' : Expression} :
    e.asVariable = some e' ↔ e = e' ∧ e.asVariable.isSome = true := by
  cases e <;> simp [Expression.asVariable]

/-- A tree with a postfix operation at its root is no variable, whatever follows. -/
theorem opsParsed_asVariable {e : Expression} (h : e.asVariable = none) (ops : List Postfix) :
    (opsParsed e ops).asVariable = none := by
  induction ops generalizing e with
  | nil => exact h
  | cons op ops ih => cases op <;> exact ih rfl

theorem Primary.isName_eq (p : Primary) : p.parsed.asVariable.isSome = p.isName :=
  match p with
  | .number _ => rfl
  | .string _ => rfl
  | .variable _ => rfl
  | .row _ => rfl
  | .array _ => rfl
  | .paren (.chain p []) => p.isName_eq
  | .paren (.chain p (op :: ops)) => by
    have hnone : (opsParsed p.parsed (op :: ops)).asVariable = none := by
      cases op <;> exact opsParsed_asVariable rfl ops
    rw [Primary.parsed, Written.parsed, hnone, Primary.isName]
    · rfl
    · simp
    · simp
  | .paren (.operator _ _ _ _) => rfl
  | .paren (.assign _ _ _) => rfl
  | .paren (.pointerOf _) => rfl

mutual

theorem Written.parsed_eq_tree_iff (w : Written) : w.parsed = w.tree ↔ w.Anchored :=
  match w with
  | .chain p ops => by
    rw [Written.parsed, Written.tree, opsParsed_eq_iff, p.parsed_eq_tree_iff, p.isName_eq,
      Written.Anchored]
  | .operator p ops op rest => by
    rw [Written.parsed, Written.tree, Expression.binary.injEq, opsParsed_eq_iff,
      p.parsed_eq_tree_iff, p.isName_eq, rest.parsed_eq_tree_iff, Written.Anchored]
    simp [and_assoc]
  | .assign p ops value => by
    rw [Written.parsed, Written.tree, Expression.assign.injEq, opsParsed_eq_iff,
      p.parsed_eq_tree_iff, p.isName_eq, value.parsed_eq_tree_iff, Written.Anchored]
    simp [and_assoc]
  | .pointerOf target => by
    rw [Written.parsed, Written.tree, Expression.pointerOf.injEq, target.parsed_eq_tree_iff,
      Written.Anchored]
    simp

theorem Primary.parsed_eq_tree_iff (p : Primary) : p.parsed = p.tree ↔ p.Anchored :=
  match p with
  | .number _ => by simp [Primary.parsed, Primary.tree, Primary.Anchored]
  | .string _ => by simp [Primary.parsed, Primary.tree, Primary.Anchored]
  | .variable _ => by simp [Primary.parsed, Primary.tree, Primary.Anchored]
  | .row es => by simp [Primary.parsed, Primary.tree, Primary.Anchored, parsedList_eq_iff es]
  | .array es => by simp [Primary.parsed, Primary.tree, Primary.Anchored, parsedList_eq_iff es]
  | .paren e => by rw [Primary.parsed, Primary.tree, Primary.Anchored, e.parsed_eq_tree_iff]

/-- The two chains agree where their parents do and no index loses its own. -/
theorem opsParsed_eq_iff (ops : List Postfix) (e e' : Expression) :
    opsParsed e ops = opsTree e' ops ↔ e = e' ∧ OpsAnchored e.asVariable.isSome ops :=
  match ops with
  | [] => by simp [opsParsed, opsTree, OpsAnchored]
  | .call args :: ops => by
    rw [opsParsed, opsTree, opsParsed_eq_iff ops, Expression.functionCall.injEq,
      parsedList_eq_iff args, OpsAnchored]
    simp [Expression.asVariable, and_assoc]
  | .index i :: ops => by
    rw [opsParsed, opsTree, opsParsed_eq_iff ops, Expression.arrayReference.injEq,
      i.parsed_eq_tree_iff, asVariable_eq_some_iff, OpsAnchored]
    simp [Expression.asVariable, and_assoc]
  | .member x :: ops => by
    rw [opsParsed, opsTree, opsParsed_eq_iff ops, Expression.memberReference.injEq, OpsAnchored]
    simp [Expression.asVariable]

theorem parsedList_eq_iff (es : List Written) : parsedList es = trees es ↔ AllAnchored es :=
  match es with
  | [] => by simp [parsedList, trees, AllAnchored]
  | e :: es => by
    rw [parsedList, trees, List.cons.injEq, e.parsed_eq_tree_iff, parsedList_eq_iff es, AllAnchored]

end

mutual

theorem Written.tree_parented (w : Written) : w.tree.Parented :=
  match w with
  | .chain p ops => opsTree_parented ops p.tree_parented
  | .operator p ops _ rest => ⟨opsTree_parented ops p.tree_parented, rest.tree_parented⟩
  | .assign p ops value => ⟨opsTree_parented ops p.tree_parented, value.tree_parented⟩
  | .pointerOf target => target.tree_parented

theorem Primary.tree_parented (p : Primary) : p.tree.Parented :=
  match p with
  | .number _ => trivial
  | .string _ => trivial
  | .variable _ => trivial
  | .row es => trees_parented es
  | .array es => trees_parented es
  | .paren e => e.tree_parented

theorem opsTree_parented (ops : List Postfix) {e : Expression} (h : e.Parented) :
    (opsTree e ops).Parented :=
  match ops with
  | [] => h
  | .call args :: ops =>
    opsTree_parented ops (e := .functionCall {} e (trees args)) ⟨h, trees_parented args⟩
  | .index i :: ops =>
    opsTree_parented ops (e := .arrayReference {} (some e) i.tree) ⟨h, i.tree_parented⟩
  | .member x :: ops => opsTree_parented ops (e := .memberReference {} e x none) h

theorem trees_parented (es : List Written) : AllParented (trees es) :=
  match es with
  | [] => trivial
  | e :: es => ⟨e.tree_parented, trees_parented es⟩

end

/-- The run returns `v` when `p` holds and throws otherwise. -/
def EndsAs {α : Type} (p : Prop) (v : α) (rest : List Token) (o : Outcome Token ParseError α) : Prop :=
  (p ∧ o = .ok v rest) ∨ (¬p ∧ ∃ e, o = .fail e)

/-- With enough fuel every run of the family on `ts` does. -/
def Decides {α : Type} (F : ℕ → ParserM α) (ts : List Token) (p : Prop) (v : α)
    (rest : List Token) : Prop :=
  ∃ n, ∀ m, n ≤ m → EndsAs p v rest ((F m).run ts)

section
variable {α β : Type} {F : ℕ → ParserM α} {ts r s : List Token} {p q : Prop} {a : α} {b : β}

/-- The fuel that the outermost call uses up itself. -/
theorem Decides.of_succ (h : Decides (fun m => F (m+1)) ts p a r) : Decides F ts p a r := by
  obtain ⟨n, hn⟩ := h
  refine ⟨n+1, fun m hm => ?_⟩
  obtain ⟨k, rfl⟩ : ∃ k, m = k+1 := ⟨m-1, by omega⟩
  exact hn k (by omega)

theorem Decides.of_run {G : ℕ → ParserM α} {us : List Token} (h : Decides G us p a r)
    (hrun : ∀ m, (F m).run ts = (G m).run us) : Decides F ts p a r := by
  obtain ⟨n, hn⟩ := h
  exact ⟨n, fun m hm => hrun m ▸ hn m hm⟩

theorem Decides.bind {G : ℕ → α → ParserM β} (h : Decides F ts p a r)
    (hG : Decides (fun m => G m a) r q b s) :
    Decides (fun m => F m >>= G m) ts (p ∧ q) b s := by
  obtain ⟨n, hn⟩ := h
  obtain ⟨k, hk⟩ := hG
  refine ⟨max n k, fun m hm => ?_⟩
  rcases hn m (le_trans (le_max_left n k) hm) with ⟨hp, hok⟩ | ⟨hp, e, hfail⟩
  · rcases hk m (le_trans (le_max_right n k) hm) with ⟨hq, hok'⟩ | ⟨hq, e, hfail⟩
    · exact .inl ⟨⟨hp, hq⟩, by rw [bind_ok hok, hok']⟩
    · exact .inr ⟨fun h => hq h.2, e, by rw [bind_ok hok, hfail]⟩
  · exact .inr ⟨fun h => hp h.1, e, bind_fail hfail⟩

/-- What follows always returns. -/
theorem Decides.bindOk {G : ℕ → α → ParserM β} (h : Decides F ts p a r)
    (hG : ∀ m, (G m a).run r = .ok b s) : Decides (fun m => F m >>= G m) ts p b s := by
  have hand := h.bind (G := G) (q := True) ⟨0, fun m _ => .inl ⟨trivial, hG m⟩⟩
  rwa [and_true] at hand

theorem Decides.of_ok (hp : p) (h : ∀ m, (F m).run ts = .ok a r) : Decides F ts p a r :=
  ⟨0, fun m _ => .inl ⟨hp, h m⟩⟩

theorem Decides.of_iff (h : Decides F ts p a r) (hpq : p ↔ q) : Decides F ts q a r := by
  rwa [propext hpq] at h

end

/-- The expression is read in front of tokens that do not continue it. -/
structure ReadsWritten (ts : List Token) (w : Written) : Prop where
  starts : ∃ t us, ts = t :: us ∧ startsExpression t.type = true
  reads : ∀ rest, Stops rest → Decides parseExpr (ts ++ rest) w.InRange w.parsed rest

/-- The switch of `parse_expr` reads the primary. -/
def ReadsPrimary (ts : List Token) (p : Primary) : Prop :=
  ∃ t us, ts = t :: us ∧ startsExpression t.type = true ∧ ∀ rest,
    Decides (fun m => parseOperand (parseExpr m) (rowLiteral m) (arrayLiteral m) t)
      (t :: (us ++ rest)) p.InRange p.parsed rest

/-- The operations are read in front of anything that the postfix goes on with. -/
def ReadsOps (us : List Token) (ops : List Postfix) : Prop :=
  ∀ (e v : Expression) (rest s : List Token) (q : Prop),
    Decides (fun m => parseExprPostfix m (opsParsed e ops)) rest q v s →
      Decides (fun m => parseExprPostfix m e) (us ++ rest) (OpsInRange ops ∧ q) v s

/-- The elements are read up to the token that closes the list. -/
def ReadsList (ts : List Token) (es : List Written) : Prop :=
  ∀ (close : Token) (rest : List Token), continues close.type = false →
    startsExpression close.type = false → close.type ≠ .comma →
    Decides (fun m => parseElements m close.type) (ts ++ close :: rest) (AllInRange es)
      (parsedList es) (close :: rest)

theorem readsPrimary_number {t : Token} (ht : t.type = .number) (hne : t.text ≠ [])
    (hd : ∀ b ∈ t.text, isDigit b = true) : ReadsPrimary [t] (.number t.text) := by
  refine ⟨t, [], rfl, by rw [ht]; rfl, fun rest => ?_⟩
  obtain ⟨t', us, hts, hread⟩ := readsOperand_number ht hne hd
  obtain ⟨rfl, rfl⟩ := List.cons.inj hts
  exact hread rest

theorem readsPrimary_string {t : Token} (ht : t.type = .stringLiteral) :
    ReadsPrimary [t] (.string t.text) := by
  refine ⟨t, [], rfl, by rw [ht]; rfl, fun rest => .of_ok trivial fun m => ?_⟩
  rw [parseOperand, ht]
  change primaryExpression.run (t :: rest) = _
  rw [primaryExpression, getToken, get_cons_bind, ht]
  rfl

theorem readsPrimary_variable {t : Token} (ht : t.type = .identifier) :
    ReadsPrimary [t] (.variable t.text) := by
  refine ⟨t, [], rfl, by rw [ht]; rfl, fun rest => ?_⟩
  obtain ⟨t', us, hts, hread⟩ := readsOperand_variable ht
  obtain ⟨rfl, rfl⟩ := List.cons.inj hts
  exact hread rest

theorem readsPrimary_row {l r : Token} {ts : List Token} {es : List Written}
    (hl : l.type = .openBrace) (hr : r.type = .closeBrace) (h : ReadsList ts es) :
    ReadsPrimary (l :: (ts ++ [r])) (.row es) := by
  refine ⟨l, ts ++ [r], rfl, by rw [hl]; rfl, fun rest => ?_⟩
  have hlist := h r rest (by rw [hr]; rfl) (by rw [hr]; rfl) (by rw [hr]; decide)
  rw [hr] at hlist
  have hrow : Decides rowLiteral (l :: (ts ++ r :: rest)) (AllInRange es)
      (.rowLiteral {} (parsedList es)) rest := by
    refine .of_succ (.of_run (hlist.bindOk (G := fun _ elements => do
      skip .closeBrace
      pure (.rowLiteral {} elements)) fun m => ?_) fun m => ?_)
    · rw [bind_ok (run_skip hr)]
      rfl
    · rw [rowLiteral, bind_ok (run_skip hl)]
  refine hrow.of_run fun m => ?_
  rw [parseOperand, hl]
  simp

theorem readsPrimary_array {l r : Token} {ts : List Token} {es : List Written}
    (hl : l.type = .openBracket) (hr : r.type = .closeBracket) (h : ReadsList ts es) :
    ReadsPrimary (l :: (ts ++ [r])) (.array es) := by
  refine ⟨l, ts ++ [r], rfl, by rw [hl]; rfl, fun rest => ?_⟩
  have hlist := h r rest (by rw [hr]; rfl) (by rw [hr]; rfl) (by rw [hr]; decide)
  rw [hr] at hlist
  have harray : Decides arrayLiteral (l :: (ts ++ r :: rest)) (AllInRange es)
      (.arrayLiteral {} (parsedList es)) rest := by
    refine .of_succ (.of_run (hlist.bindOk (G := fun _ elements => do
      skip .closeBracket
      pure (.arrayLiteral {} elements)) fun m => ?_) fun m => ?_)
    · rw [bind_ok (run_skip hr)]
      rfl
    · rw [arrayLiteral, bind_ok (run_skip hl)]
  refine harray.of_run fun m => ?_
  rw [parseOperand, hl]
  simp

theorem readsPrimary_paren {l r : Token} {ts : List Token} {w : Written}
    (hl : l.type = .openParen) (hr : r.type = .closeParen) (h : ReadsWritten ts w) :
    ReadsPrimary (l :: (ts ++ [r])) (.paren w) := by
  refine ⟨l, ts ++ [r], rfl, by rw [hl]; rfl, fun rest => ?_⟩
  have hstops : Stops (r :: rest) := by
    rw [Stops, hr]
    rfl
  refine .of_run ((h.reads (r :: rest) hstops).bindOk (G := fun _ inner => do
    skip .closeParen
    pure inner) fun m => ?_) fun m => ?_
  · rw [bind_ok (run_skip hr)]
    rfl
  · rw [parseOperand, hl, List.append_assoc]
    rfl

theorem ReadsOps.nil : ReadsOps [] [] := by
  intro e v rest s q h
  exact h.of_iff (by simp [OpsInRange])

theorem ReadsOps.call {l r : Token} {ts us : List Token} {es : List Written} {ops : List Postfix}
    (hl : l.type = .openParen) (hr : r.type = .closeParen) (hes : ReadsList ts es)
    (hops : ReadsOps us ops) : ReadsOps (l :: (ts ++ r :: us)) (.call es :: ops) := by
  intro e v rest s q h
  have hlist := hes r (us ++ rest) (by rw [hr]; rfl) (by rw [hr]; rfl) (by rw [hr]; decide)
  rw [hr] at hlist
  have hcall : Decides (fun m => functionCall m e) (l :: (ts ++ r :: (us ++ rest))) (AllInRange es)
      (.functionCall {} e (parsedList es)) (us ++ rest) := by
    refine .of_succ (.of_run (hlist.bindOk (G := fun _ args => do
      skip .closeParen
      pure (.functionCall {} e args)) fun m => ?_) fun m => ?_)
    · rw [bind_ok (run_skip hr)]
      rfl
    · rw [functionCall, bind_ok (run_skip hl)]
  have hrest := hops (.functionCall {} e (parsedList es)) v rest s q h
  refine .of_succ (.of_run ((hcall.bind (G := parseExprPostfix) hrest).of_iff ?_) fun m => ?_)
  · rw [OpsInRange, and_assoc]
  · rw [List.cons_append, parseExprPostfix_call _ _ _ hl]
    simp

theorem ReadsOps.index {l r : Token} {ts us : List Token} {w : Written} {ops : List Postfix}
    (hl : l.type = .openBracket) (hr : r.type = .closeBracket) (hw : ReadsWritten ts w)
    (hops : ReadsOps us ops) : ReadsOps (l :: (ts ++ r :: us)) (.index w :: ops) := by
  intro e v rest s q h
  have hstops : Stops (r :: (us ++ rest)) := by
    rw [Stops, hr]
    rfl
  have hindex : Decides (fun m => arrayReference m e.asVariable) (l :: (ts ++ r :: (us ++ rest)))
      w.InRange (.arrayReference {} e.asVariable w.parsed) (us ++ rest) := by
    refine .of_succ (.of_run ((hw.reads _ hstops).bindOk (G := fun _ idx => do
      skip .closeBracket
      pure (.arrayReference {} e.asVariable idx)) fun m => ?_) fun m => ?_)
    · rw [bind_ok (run_skip hr)]
      rfl
    · rw [arrayReference, bind_ok (run_skip hl)]
  have hrest := hops (.arrayReference {} e.asVariable w.parsed) v rest s q h
  refine .of_succ (.of_run ((hindex.bind (G := parseExprPostfix) hrest).of_iff ?_) fun m => ?_)
  · rw [OpsInRange, and_assoc]
  · rw [List.cons_append, parseExprPostfix_index _ _ _ hl]
    simp

theorem ReadsOps.member {dot name : Token} {us : List Token} {ops : List Postfix}
    (hdot : dot.type = .period) (hops : ReadsOps us ops) :
    ReadsOps (dot :: name :: us) (.member name.text :: ops) := by
  intro e v rest s q h
  have hrest := hops (.memberReference {} e name.text none) v rest s q h
  have hmember : (memberReference e).run (dot :: name :: (us ++ rest)) =
      .ok (.memberReference {} e name.text none) (us ++ rest) := by
    rw [memberReference, bind_ok (run_skip hdot), bind_ok run_takeText]
    rfl
  refine .of_succ (.of_run hrest fun m => ?_)
  rw [List.cons_append, parseExprPostfix_member _ _ _ hdot, List.cons_append, bind_ok hmember]

theorem ReadsList.nil : ReadsList [] [] := by
  intro close rest _ _ _
  refine .of_succ (.of_ok trivial fun m => ?_)
  rw [List.nil_append, parseElements, getToken, get_cons_bind, if_pos rfl]
  rfl

/-- What the loop does behind an element. -/
def behindElement (k : TokenType) (m : ℕ) (element : Expression) : ParserM (List Expression) := do
  let token ← getToken
  if token.type = k then pure [element]
  else do
    expectToken token .comma
    next
    let rest ← parseElements m k
    pure (element :: rest)

/-- An element does not start with the token that closes the list. -/
theorem parseElements_starts {k : TokenType} {ts : List Token}
    (hts : ∃ t us, ts = t :: us ∧ startsExpression t.type = true) (hk : startsExpression k = false)
    (m : ℕ) (rest : List Token) :
    (parseElements (m+1) k).run (ts ++ rest) =
      (parseExpr m >>= behindElement k m).run (ts ++ rest) := by
  obtain ⟨t, us, rfl, ht⟩ := hts
  have hne : t.type ≠ k := by
    intro h
    rw [h, hk] at ht
    exact absurd ht (by simp)
  rw [List.cons_append, parseElements, getToken, get_cons_bind, if_neg hne]
  rfl

theorem ReadsList.last {ts : List Token} {w : Written} (hw : ReadsWritten ts w) :
    ReadsList ts [w] := by
  intro close rest hcont hstart _
  have hread := (hw.reads (close :: rest) hcont).bindOk (b := [w.parsed]) (s := close :: rest)
    (G := behindElement close.type) fun m => by
      rw [behindElement, getToken, get_cons_bind, if_pos rfl]
      rfl
  refine (Decides.of_succ (.of_run hread fun m => ?_)).of_iff (by simp [AllInRange])
  exact parseElements_starts hw.starts hstart m (close :: rest)

theorem ReadsList.cons {t : Token} {ts us : List Token} {w : Written} {es : List Written}
    (ht : t.type = .comma) (hw : ReadsWritten ts w) (hes : ReadsList us es) :
    ReadsList (ts ++ t :: us) (w :: es) := by
  intro close rest hcont hstart hcomma
  have hstops : Stops (t :: (us ++ close :: rest)) := by
    rw [Stops, ht]
    rfl
  have hrest : Decides (fun m => behindElement close.type m w.parsed) (t :: (us ++ close :: rest))
      (AllInRange es) (parsedList (w :: es)) (close :: rest) := by
    refine .of_run ((hes close rest hcont hstart hcomma).bindOk (G := fun _ rest =>
      pure (w.parsed :: rest)) fun m => rfl) fun m => ?_
    have hne : t.type ≠ close.type := fun h => hcomma (h ▸ ht)
    rw [behindElement, getToken, get_cons_bind, if_neg hne, expectToken, if_pos ht, pure_bind,
      next_cons_bind]
  have hread := (hw.reads _ hstops).bind (G := behindElement close.type) hrest
  refine (Decides.of_succ (.of_run hread fun m => ?_)).of_iff (by simp [AllInRange])
  rw [List.append_assoc, List.cons_append]
  exact parseElements_starts hw.starts hstart m _

/-- Behind a primary `parse_expr` goes on with its postfix. -/
theorem ReadsPrimary.chain {ts us : List Token} {p : Primary} {ops : List Postfix}
    (hp : ReadsPrimary ts p) (hops : ReadsOps us ops) {v : Expression} {rest s : List Token} {q : Prop}
    (h : Decides (fun m => parseExprPostfix m (opsParsed p.parsed ops)) rest q v s) :
    Decides parseExpr (ts ++ (us ++ rest)) (p.InRange ∧ OpsInRange ops ∧ q) v s := by
  obtain ⟨t, ts, rfl, -, hread⟩ := hp
  obtain ⟨n, hn⟩ := hread (us ++ rest)
  obtain ⟨k, hk⟩ := hops p.parsed v rest s q h
  refine ⟨max n k+2, fun m hm => ?_⟩
  obtain ⟨m, rfl⟩ : ∃ j, m = j+2 := ⟨m-2, by omega⟩
  have hnm : n ≤ m+1 := by
    have hle := le_max_left n k
    omega
  have hkm : k ≤ m+1 := by
    have hle := le_max_right n k
    omega
  rw [List.cons_append]
  rcases hn (m+1) hnm with ⟨hin, hok⟩ | ⟨hout, e, hfail⟩
  · rw [parseExpr_operand hok]
    exact (hk (m+1) hkm).imp (And.imp_left fun hq => ⟨hin, hq⟩) (And.imp_left fun hq h => hq h.2)
  · refine .inr ⟨fun h => hout h.1, e, ?_⟩
    rw [parseExpr, getToken, get_cons_bind]
    exact bind_fail hfail

theorem ReadsPrimary.starts {ts us : List Token} {p : Primary} (hp : ReadsPrimary ts p) :
    ∃ t vs, ts ++ us = t :: vs ∧ startsExpression t.type = true := by
  obtain ⟨t, ts, rfl, ht, -⟩ := hp
  exact ⟨t, ts ++ us, rfl, ht⟩

theorem readsWritten_chain {ts us : List Token} {p : Primary} {ops : List Postfix}
    (hp : ReadsPrimary ts p) (hops : ReadsOps us ops) : ReadsWritten (ts ++ us) (.chain p ops) where
  starts := hp.starts
  reads rest hstops := by
    have hend : Decides (fun m => parseExprPostfix m (opsParsed p.parsed ops)) rest True
        (opsParsed p.parsed ops) rest :=
      .of_succ (.of_ok trivial fun m => parseExprPostfix_stops m _ hstops)
    rw [List.append_assoc]
    exact (hp.chain hops hend).of_iff (by simp [Written.InRange])

theorem readsWritten_operator {t : Token} {ts us vs : List Token} {p : Primary} {ops : List Postfix}
    {op : Operators} {w : Written} (hp : ReadsPrimary ts p) (hops : ReadsOps us ops)
    (ht : binaryOperator t.type = some op) (hw : ReadsWritten vs w) :
    ReadsWritten (ts ++ (us ++ t :: vs)) (.operator p ops op w) where
  starts := hp.starts
  reads rest hstops := by
    have hend : Decides (fun m => parseExprPostfix m (opsParsed p.parsed ops)) (t :: (vs ++ rest))
        w.InRange (.binary {} (opsParsed p.parsed ops) op w.parsed) rest :=
      .of_succ (.of_run ((hw.reads rest hstops).bindOk (G := fun _ rhs =>
        pure (.binary {} (opsParsed p.parsed ops) op rhs)) fun m => rfl)
        fun m => parseExprPostfix_operator m _ ht _)
    rw [List.append_assoc, List.append_assoc]
    exact hp.chain hops hend

theorem readsWritten_assign {t : Token} {ts us vs : List Token} {p : Primary} {ops : List Postfix}
    {w : Written} (hp : ReadsPrimary ts p) (hops : ReadsOps us ops) (ht : t.type = .equal)
    (hw : ReadsWritten vs w) : ReadsWritten (ts ++ (us ++ t :: vs)) (.assign p ops w) where
  starts := hp.starts
  reads rest hstops := by
    have hassign : Decides (fun m => assign m (opsParsed p.parsed ops)) (t :: (vs ++ rest)) w.InRange
        (.assign {} (opsParsed p.parsed ops) w.parsed) rest := by
      refine .of_succ (.of_run ((hw.reads rest hstops).bindOk (G := fun _ value =>
        pure (.assign {} (opsParsed p.parsed ops) value)) fun m => rfl) fun m => ?_)
      rw [assign, bind_ok (run_skip ht)]
    have hend : Decides (fun m => parseExprPostfix m (opsParsed p.parsed ops)) (t :: (vs ++ rest))
        w.InRange (.assign {} (opsParsed p.parsed ops) w.parsed) rest := by
      have hstop : Decides (fun m => parseExprPostfix m
          (.assign {} (opsParsed p.parsed ops) w.parsed)) rest True _ rest :=
        .of_succ (.of_ok trivial fun m => parseExprPostfix_stops m _ hstops)
      refine .of_succ (.of_run ((hassign.bind (G := parseExprPostfix) hstop).of_iff (by simp)) ?_)
      exact fun m => parseExprPostfix_assign m _ _ ht
    rw [List.append_assoc, List.append_assoc]
    exact hp.chain hops hend

theorem readsWritten_pointerOf {t : Token} {ts : List Token} {w : Written} (ht : t.type = .and)
    (hw : ReadsWritten ts w) : ReadsWritten (t :: ts) (.pointerOf w) where
  starts := ⟨t, ts, rfl, by rw [ht]; rfl⟩
  reads rest hstops := by
    obtain ⟨n, hn⟩ := hw.reads rest hstops
    refine ⟨n+2, fun m hm => ?_⟩
    obtain ⟨m, rfl⟩ : ∃ j, m = j+2 := ⟨m-2, by omega⟩
    have hrun : (parseOperand (parseExpr (m+1)) (rowLiteral (m+1)) (arrayLiteral (m+1)) t).run
        (t :: (ts ++ rest)) = (parseExpr (m+1) >>= fun target =>
          pure (.pointerOf {} target) : ParserM Expression).run (ts ++ rest) := by
      rw [parseOperand, ht]
      rfl
    rw [List.cons_append]
    rcases hn (m+1) (by omega) with ⟨hin, hok⟩ | ⟨hout, e, hfail⟩
    · refine .inl ⟨hin, ?_⟩
      rw [bind_ok hok] at hrun
      rw [parseExpr_operand hrun, parseExprPostfix_stops _ _ hstops]
      rfl
    · refine .inr ⟨hout, e, ?_⟩
      rw [parseExpr, getToken, get_cons_bind]
      exact bind_fail (hrun.trans (bind_fail hfail))

mutual

theorem readsWritten {ts : List Token} {w : Written} (h : Spells ts w) : ReadsWritten ts w :=
  match h with
  | .chain hp hops => readsWritten_chain (readsPrimary hp) (readsOps hops)
  | .operator _ hp hops ht hw =>
    readsWritten_operator (readsPrimary hp) (readsOps hops) ht (readsWritten hw)
  | .assign _ hp hops ht hw =>
    readsWritten_assign (readsPrimary hp) (readsOps hops) ht (readsWritten hw)
  | .pointerOf _ ht hw => readsWritten_pointerOf ht (readsWritten hw)

theorem readsPrimary {ts : List Token} {p : Primary} (h : SpellsPrimary ts p) : ReadsPrimary ts p :=
  match h with
  | .number _ ht hne hd => readsPrimary_number ht hne hd
  | .string _ ht => readsPrimary_string ht
  | .variable _ ht => readsPrimary_variable ht
  | .row _ _ hl hr hes => readsPrimary_row hl hr (readsList hes)
  | .array _ _ hl hr hes => readsPrimary_array hl hr (readsList hes)
  | .paren _ _ hl hr hw => readsPrimary_paren hl hr (readsWritten hw)

theorem readsOps {ts : List Token} {ops : List Postfix} (h : SpellsOps ts ops) : ReadsOps ts ops :=
  match h with
  | .nil => .nil
  | .call _ _ hl hr hes hops => .call hl hr (readsList hes) (readsOps hops)
  | .index _ _ hl hr hw hops => .index hl hr (readsWritten hw) (readsOps hops)
  | .member _ _ hdot hops => .member hdot (readsOps hops)

theorem readsList {ts : List Token} {es : List Written} (h : SpellsList ts es) : ReadsList ts es :=
  match h with
  | .nil => .nil
  | .last hw => .last (readsWritten hw)
  | .cons _ ht hw hes => .cons ht (readsWritten hw) (readsList hes)

end

/-- `parse_expr` returns the tree in which every postfix operation has all before it as its parent,
and no reference without one, exactly when the literals are in range and no index stands behind
anything but a name. -/
theorem parseExpr_postfix_iff {ts us : List Token} {p : Primary} {ops : List Postfix}
    (hp : SpellsPrimary ts p) (hops : SpellsOps us ops) {rest : List Token} (hrest : Stops rest) :
    (Yields parseExpr (ts ++ us ++ rest) (opsTree p.tree ops) rest ∧
        (opsTree p.tree ops).Parented) ↔
      (p.InRange ∧ OpsInRange ops) ∧ p.Anchored ∧ OpsAnchored p.isName ops := by
  obtain ⟨n, hn⟩ := (readsWritten (.chain hp hops)).reads rest hrest
  have htree : (opsParsed p.parsed ops = opsTree p.tree ops) ↔
      p.Anchored ∧ OpsAnchored p.isName ops :=
    (Written.chain p ops).parsed_eq_tree_iff
  rw [← htree]
  constructor
  · rintro ⟨hyields, -⟩
    obtain ⟨k, hk⟩ := hyields.settles parseExpr_refines
    have hrun := hk (max n k) (le_max_right n k)
    rcases hn (max n k) (le_max_left n k) with ⟨hin, hok⟩ | ⟨_, e, hfail⟩
    · rw [hrun] at hok
      injection hok with hv
      exact ⟨hin, hv.symm⟩
    · rw [hrun] at hfail
      injection hfail
  · rintro ⟨hin, heq⟩
    refine ⟨?_, opsTree_parented ops p.tree_parented⟩
    rcases hn n le_rfl with ⟨_, hok⟩ | ⟨hout, _⟩
    · rw [← heq]
      exact ⟨n, hok⟩
    · exact absurd hin hout

theorem digits_zero : ∀ b ∈ (numberToken 0).text, isDigit b = true := decimal_isDigit 0

/-- The operation `[0]`. -/
def indexZero : Postfix := .index (.chain (.number (numberToken 0).text) [])

def indexTokens : List Token := [openBracket, numberToken 0, closeBracket]

theorem spellsOps_indexZero {us : List Token} {ops : List Postfix} (h : SpellsOps us ops) :
    SpellsOps (indexTokens ++ us) (indexZero :: ops) :=
  .index openBracket closeBracket rfl rfl
    (.chain (.number (numberToken 0) rfl (decimal_ne_nil 0) digits_zero) .nil) h

theorem parseExpr_postfix_iff_member :
    (Yields parseExpr ([identToken (text "a")] ++
        (indexTokens ++ [symbol .period ".", identToken (text "b")]) ++ [])
      (opsTree (.variable {} (text "a")) [indexZero, .member (text "b")]) [] ∧
      (opsTree (.variable {} (text "a")) [indexZero, .member (text "b")]).Parented) ↔
      ((Primary.variable (text "a")).InRange ∧ OpsInRange [indexZero, .member (text "b")]) ∧
        (Primary.variable (text "a")).Anchored ∧ OpsAnchored true [indexZero, .member (text "b")] :=
  parseExpr_postfix_iff (.variable (identToken (text "a")) rfl)
    (spellsOps_indexZero (.member (symbol .period ".") (identToken (text "b")) rfl .nil)) trivial

/-- In `a[0][0]` the second index has no parent. -/
theorem indices_not_nested :
    SpellsPrimary [identToken (text "a")] (.variable (text "a")) ∧
      SpellsOps (indexTokens ++ indexTokens) [indexZero, indexZero] ∧
      Yields parseExpr ([identToken (text "a")] ++ (indexTokens ++ indexTokens))
        (.arrayReference {} none (intLiteral (numberToken 0).text)) [] ∧
      ¬Yields parseExpr ([identToken (text "a")] ++ (indexTokens ++ indexTokens))
        (opsTree (.variable {} (text "a")) [indexZero, indexZero]) [] := by
  have hops : SpellsOps (indexTokens ++ indexTokens) [indexZero, indexZero] := by
    have hone := spellsOps_indexZero .nil
    rw [List.append_nil] at hone
    exact spellsOps_indexZero hone
  have hyields : Yields parseExpr ([identToken (text "a")] ++ (indexTokens ++ indexTokens))
      (.arrayReference {} none (intLiteral (numberToken 0).text)) [] := ⟨10, rfl⟩
  refine ⟨.variable (identToken (text "a")) rfl, hops, hyields, ?_⟩
  intro h
  have heq := (h.unique parseExpr_refines hyields).1
  simp [opsTree, indexZero] at heq

end Reir
