import Reir.AnalysisCoverage
import Reir.TableUses

/-! The trees that the parser returns. No pass has annotated them: expressions carry no notes, and
statements no slots and no frames. -/
namespace Reir
open StreamParser

/-- The expression and its parts are as their constructors leave them. -/
def Expression.New (e : Expression) : Prop := e.erase = e

def NewList (es : List Expression) : Prop := eraseList es = es

def Ptr.New (p : Ptr Expression) : Prop := p.erase = p

mutual

def Statement.New : Statement → Prop
  | .block ss => NewAll ss
  | .transaction _ ss => NewAll ss
  | .forStmt init cond every blk => NewInit init ∧ cond.New ∧ every.New ∧ NewAll blk
  | .emit stack e => stack = none ∧ e.New
  | .insert _ e frame => frame = {} ∧ e.New
  | .scan _ _ blk frame => frame = {} ∧ NewAll blk
  | .letStmt _ e _ => e.New
  | .ifStmt cond ts fs => cond.New ∧ NewAll ts ∧ NewElse fs
  | .exprStatement stack e => stack = none ∧ e.New
  | .define _ _ => True
  | .jump _ => True
  | .defineTuple _ _ => True

def NewInit : Ptr Statement → Prop
  | .to s => s.New
  | _ => True

def NewElse : Option (List Statement) → Prop
  | some ss => NewAll ss
  | none => True

def NewAll : List Statement → Prop
  | [] => True
  | s :: ss => s.New ∧ NewAll ss

end

attribute [local simp] Statement.New NewAll

section
variable {n m : ℕ} {e l r : Expression} {es : List Expression}

theorem new_variable (x : Text) : (Expression.variable {} x).New := rfl

theorem new_primary (v : MaybeValue) : (Expression.primary {} v).New := rfl

theorem Expression.New.binary {op : Operators} (hl : l.New) (hr : r.New) :
    (Expression.binary {} l op r).New := by
  unfold New at *
  rw [erase, hl, hr]
  rfl

theorem Expression.New.pointerOf (h : e.New) : (Expression.pointerOf {} e).New := by
  unfold New at *
  rw [erase, h]
  rfl

theorem Expression.New.memberReference (h : e.New) (x : Text) :
    (Expression.memberReference {} e x none).New := by
  unfold New at *
  rw [erase, h]
  rfl

theorem Expression.New.assign (hl : l.New) (hr : r.New) : (Expression.assign {} l r).New := by
  unfold New at *
  rw [erase, hl, hr]
  rfl

theorem Expression.New.functionCall (h : e.New) (hes : NewList es) :
    (Expression.functionCall {} e es).New := by
  unfold New NewList at *
  rw [erase, h, hes]
  rfl

/-- The parent of an array reference is the variable in front of it, or missing. -/
theorem Expression.New.arrayReference (hl : l.New) (hr : r.New) :
    (Expression.arrayReference {} l.asVariable r).New := by
  unfold New at *
  have hparent : eraseParent l.asVariable = l.asVariable := by
    cases l with
    | «variable» n x => exact congrArg some hl
    | _ => rfl
  rw [erase, hparent, hr]
  rfl

theorem NewList.rowLiteral (h : NewList es) : (Expression.rowLiteral {} es).New := by
  unfold NewList at h
  rw [Expression.New, Expression.erase, h]
  rfl

theorem NewList.arrayLiteral (h : NewList es) : (Expression.arrayLiteral {} es).New := by
  unfold NewList at h
  rw [Expression.New, Expression.erase, h]
  rfl

theorem NewList.cons (h : e.New) (hes : NewList es) : NewList (e :: es) :=
  eraseList_cons.mpr ⟨h, hes⟩

end

/-- What the parsers of expressions return with some fuel. -/
structure ParsesNew (n : ℕ) : Prop where
  expr : (parseExpr n).Gives Expression.New
  continued : ∀ e : Expression, e.New → (parseExprPostfix n e).Gives Expression.New
  elements : ∀ close, (parseElements n close).Gives NewList
  call : ∀ e : Expression, e.New → (functionCall n e).Gives Expression.New
  row : (rowLiteral n).Gives Expression.New
  array : (arrayLiteral n).Gives Expression.New
  reference : ∀ e : Expression, e.New → (arrayReference n e.asVariable).Gives Expression.New
  assignment : ∀ e : Expression, e.New → (assign n e).Gives Expression.New

theorem parsesNew_zero : ParsesNew 0 where
  expr := gives_timeout
  continued := fun _ _ => gives_timeout
  elements := fun _ => gives_timeout
  call := fun _ _ => gives_timeout
  row := gives_timeout
  array := gives_timeout
  reference := fun _ _ => gives_timeout
  assignment := fun _ _ => gives_timeout

theorem primaryExpression_new : primaryExpression.Gives Expression.New := by
  refine (gives_true _).bind fun t _ => ?_
  split
  · exact (gives_true _).bind fun k _ => (gives_true _).bind fun _ _ => gives_pure (new_primary _)
  · exact (gives_true _).bind fun _ _ => gives_pure (new_primary _)
  · exact gives_throw

theorem variableReference_new : variableReference.Gives Expression.New :=
  (gives_true _).bind fun x _ => gives_pure (new_variable x)

theorem memberReference_new {e : Expression} (h : e.New) : (memberReference e).Gives Expression.New :=
  (gives_true _).bind fun _ _ => (gives_true _).bind fun x _ => gives_pure (h.memberReference x)

theorem parseOperand_new {n : ℕ} (h : ParsesNew n) (t : Token) :
    (parseOperand (parseExpr n) (rowLiteral n) (arrayLiteral n) t).Gives Expression.New := by
  unfold parseOperand
  split
  · exact (gives_true _).bind fun _ _ => h.expr.bind fun e he => gives_pure he.pointerOf
  · exact h.row
  · exact (gives_true _).bind fun _ _ => h.expr.bind fun e he => (gives_true _).bind fun _ _ => gives_pure he
  · exact h.array
  · exact variableReference_new
  · exact primaryExpression_new
  · exact primaryExpression_new
  · exact gives_throw

theorem parseExprPostfix_new {n : ℕ} (h : ParsesNew n) {e : Expression} (he : e.New) :
    (parseExprPostfix (n+1) e).Gives Expression.New := by
  rw [parseExprPostfix]
  refine (gives_true _).bind fun more _ => ?_
  split_ifs
  · refine (gives_true _).bind fun t _ => ?_
    split
    · exact (h.call e he).bind fun e' he' => h.continued e' he'
    · exact (h.reference e he).bind fun e' he' => h.continued e' he'
    · exact (memberReference_new he).bind fun e' he' => h.continued e' he'
    · exact (h.assignment e he).bind fun e' he' => h.continued e' he'
    · split
      · exact (gives_true _).bind fun _ _ => h.expr.bind fun r hr => gives_pure (he.binary hr)
      · exact gives_pure he
  · exact gives_pure he

theorem parsesNew_succ {n : ℕ} (h : ParsesNew n) : ParsesNew (n+1) where
  expr := by
    rw [parseExpr]
    refine (gives_true _).bind fun t _ => (parseOperand_new h t).bind fun e he =>
      (gives_true _).bind fun more _ => ?_
    split_ifs
    · exact h.continued e he
    · exact gives_pure he
  continued := fun _ he => parseExprPostfix_new h he
  elements := by
    intro close
    rw [parseElements]
    refine (gives_true _).bind fun t _ => ?_
    split_ifs
    · exact gives_pure rfl
    · refine h.expr.bind fun e he => (gives_true _).bind fun t _ => ?_
      split_ifs
      · exact gives_pure (NewList.cons he rfl)
      · exact (gives_true _).bind fun _ _ => (gives_true _).bind fun _ _ =>
          (h.elements close).bind fun es hes => gives_pure (hes.cons he)
  call := by
    intro e he
    rw [functionCall]
    exact (gives_true _).bind fun _ _ => (h.elements _).bind fun es hes => (gives_true _).bind fun _ _ =>
      gives_pure (he.functionCall hes)
  row := by
    rw [rowLiteral]
    exact (gives_true _).bind fun _ _ => (h.elements _).bind fun es hes => (gives_true _).bind fun _ _ =>
      gives_pure hes.rowLiteral
  array := by
    rw [arrayLiteral]
    exact (gives_true _).bind fun _ _ => (h.elements _).bind fun es hes => (gives_true _).bind fun _ _ =>
      gives_pure hes.arrayLiteral
  reference := by
    intro e he
    rw [arrayReference]
    exact (gives_true _).bind fun _ _ => h.expr.bind fun i hi => (gives_true _).bind fun _ _ =>
      gives_pure (he.arrayReference hi)
  assignment := by
    intro e he
    rw [assign]
    exact (gives_true _).bind fun _ _ => h.expr.bind fun v hv => gives_pure (he.assign hv)

theorem parsesNew (n : ℕ) : ParsesNew n := by
  induction n with
  | zero => exact parsesNew_zero
  | succ n ih => exact parsesNew_succ ih

theorem parseHeaderPart_new {p : ParserM Expression} (hp : p.Gives Expression.New) :
    (parseHeaderPart p).Gives Ptr.New := by
  refine (gives_true _).bind fun t _ => ?_
  split_ifs
  · exact gives_pure rfl
  · exact hp.map fun e he => congrArg Ptr.to he

theorem parseInitPart_new {p : ParserM (Option Statement)} (hp : p.Gives fun s => ∀ s' ∈ s, s'.New) :
    (parseInitPart p).Gives NewInit := by
  refine (gives_true _).bind fun t _ => ?_
  split_ifs
  · exact gives_pure trivial
  · refine hp.bind fun s hs => ?_
    cases s with
    | none => exact gives_pure trivial
    | some s => exact gives_pure (hs s rfl)

/-- What the parsers of statements with blocks return with some fuel. -/
structure ParsesNewStatements (n : ℕ) : Prop where
  statement : (parseStatement n).Gives fun s => ∀ s' ∈ s, s'.New
  items : (parseItems n).Gives NewAll
  block : (parseBlock n).Gives NewAll
  transaction : (parseTransaction n).Gives Statement.New
  ifStmt : (parseIf n).Gives Statement.New
  forStmt : (parseFor n).Gives Statement.New
  scan : (parseScan n).Gives Statement.New

theorem parsesNewStatements_zero : ParsesNewStatements 0 where
  statement := gives_timeout
  items := gives_timeout
  block := gives_timeout
  transaction := gives_timeout
  ifStmt := gives_timeout
  forStmt := gives_timeout
  scan := gives_timeout

theorem given_some {p : ParserM Statement} (h : p.Gives Statement.New) :
    (some <$> p).Gives fun s => ∀ s' ∈ s, s'.New :=
  h.map fun _ hs _ hs' => Option.mem_some_iff.mp hs' ▸ hs

theorem newAll_toList {s : Option Statement} {ss : List Statement} (hs : ∀ s' ∈ s, s'.New)
    (hss : NewAll ss) : NewAll (s.toList ++ ss) := by
  cases s with
  | none => exact hss
  | some s => exact ⟨hs s rfl, hss⟩

section
variable (n : ℕ)

theorem parseLet_new : (parseLet n).Gives Statement.New :=
  (gives_true _).bind fun _ _ => (gives_true _).bind fun _ _ => (gives_true _).bind fun _ _ =>
    (gives_true _).bind fun _ _ => (parsesNew n).expr.bind fun _ he => gives_pure (by simpa using he)

theorem parseDefine_new : (parseDefine n).Gives Statement.New :=
  (gives_true _).bind fun _ _ => (gives_true _).bind fun _ _ => (gives_true _).bind fun _ _ =>
    gives_pure (by simp)

theorem parseDefineTuple_new : (parseDefineTuple n).Gives Statement.New := by
  refine (gives_true _).bind fun _ _ => (gives_true _).bind fun _ _ => (gives_true _).bind fun t _ => ?_
  split_ifs
  · exact gives_pure (by simp)
  · exact gives_throw

theorem parseEmit_new : (parseEmit n).Gives Statement.New :=
  (gives_true _).bind fun _ _ => (parsesNew n).expr.bind fun _ he => gives_pure (by simpa using he)

theorem parseInsert_new : (parseInsert n).Gives Statement.New :=
  (gives_true _).bind fun _ _ => (gives_true _).bind fun _ _ => (gives_true _).bind fun _ _ =>
    (parsesNew n).expr.bind fun _ he => gives_pure (by simpa using he)

theorem parseExprStatement_new : (parseExprStatement n).Gives Statement.New :=
  (parsesNew n).expr.bind fun _ he => gives_pure (by simpa using he)

end

theorem parseStatement_new {n : ℕ} (h : ParsesNewStatements n) :
    (parseStatement (n+1)).Gives fun s => ∀ s' ∈ s, s'.New := by
  have hjump : ∀ t, (next >>= fun _ => pure (some (Statement.jump t)) : ParserM (Option Statement)).Gives
      fun s => ∀ s' ∈ s, s'.New :=
    fun t => (gives_true _).bind fun _ _ => gives_pure (by simp)
  rw [parseStatement]
  refine (gives_true _).bind fun t _ => ?_
  split
  · exact gives_pure (by simp)
  · exact h.block.bind fun ss hss => gives_pure (by simpa using hss)
  · exact given_some h.transaction
  · exact given_some (parseLet_new n)
  · exact given_some h.ifStmt
  · exact given_some h.forStmt
  · exact given_some (parseDefine_new n)
  · exact given_some (parseEmit_new n)
  · exact given_some (parseInsert_new n)
  · exact given_some h.scan
  · exact hjump _
  · exact hjump _
  · exact given_some (parseExprStatement_new n)
  · exact given_some (parseExprStatement_new n)
  · exact given_some (parseExprStatement_new n)
  · exact given_some (parseExprStatement_new n)
  · exact given_some (parseExprStatement_new n)
  · exact given_some (parseDefineTuple_new n)
  · exact gives_throw

theorem parseIf_new {n : ℕ} (h : ParsesNewStatements n) : (parseIf (n+1)).Gives Statement.New := by
  rw [parseIf]
  have hnone : ∀ (e : Expression) (ss : List Statement), e.New → NewAll ss →
      (pure (Statement.ifStmt e ss none) : ParserM Statement).Gives Statement.New := by
    intro e ss he hss
    exact gives_pure ⟨he, hss, trivial⟩
  refine (gives_true _).bind fun _ _ => (parsesNew n).expr.bind fun e he => (gives_true _).bind fun _ _ =>
    h.block.bind fun ss hss => (gives_true _).bind fun more _ => ?_
  split_ifs
  · refine (gives_true _).bind fun t _ => ?_
    split_ifs
    · exact (gives_true _).bind fun _ _ => (gives_true _).bind fun _ _ =>
        h.block.bind fun es hes => gives_pure ⟨he, hss, hes⟩
    · exact hnone e ss he hss
  · exact hnone e ss he hss

theorem parsesNewStatements_succ {n : ℕ} (h : ParsesNewStatements n) : ParsesNewStatements (n+1) where
  statement := parseStatement_new h
  items := by
    rw [parseItems]
    refine (gives_true _).bind fun t _ => ?_
    split_ifs
    · exact gives_pure trivial
    · exact h.statement.bind fun s hs => h.items.bind fun ss hss => gives_pure (newAll_toList hs hss)
  block := by
    rw [parseBlock]
    exact (gives_true _).bind fun _ _ => h.items.bind fun ss hss => (gives_true _).bind fun _ _ =>
      gives_pure hss
  transaction := by
    rw [parseTransaction]
    exact (gives_true _).bind fun _ _ => (gives_true _).bind fun _ _ => (gives_true _).bind fun _ _ =>
      h.block.bind fun ss hss => gives_pure (by simpa using hss)
  ifStmt := parseIf_new h
  forStmt := by
    rw [parseFor]
    exact (gives_true _).bind fun _ _ => (parseInitPart_new h.statement).bind fun init hinit =>
      (gives_true _).bind fun _ _ => (parseHeaderPart_new (parsesNew n).expr).bind fun cond hcond =>
        (gives_true _).bind fun _ _ => (parseHeaderPart_new (parsesNew n).expr).bind fun every hevery =>
          (gives_true _).bind fun _ _ => h.block.bind fun ss hss =>
            gives_pure ⟨hinit, hcond, hevery, hss⟩
  scan := by
    rw [parseScan]
    exact (gives_true _).bind fun _ _ => (gives_true _).bind fun _ _ => (gives_true _).bind fun _ _ =>
      (gives_true _).bind fun _ _ => (gives_true _).bind fun _ _ => h.block.bind fun ss hss =>
        gives_pure ⟨rfl, hss⟩

theorem parsesNewStatements (n : ℕ) : ParsesNewStatements n := by
  induction n with
  | zero => exact parsesNewStatements_zero
  | succ n ih => exact parsesNewStatements_succ ih

theorem parseLoop_new (n : ℕ) : (parseLoop n).Gives NewAll := by
  induction n with
  | zero => exact gives_timeout
  | succ n ih =>
    rw [parseLoop]
    refine (gives_true _).bind fun more _ => ?_
    split_ifs
    · exact (parsesNewStatements n).statement.bind fun s hs => ih.bind fun ss hss =>
        gives_pure (newAll_toList hs hss)
    · exact gives_pure trivial

/-- The expressions, the scans and the statements on records of a part of a program are new. -/
structure Unannotated (es : List Expression) (scans : Bool) (us : List TableUse) : Prop where
  expressions : ∀ e ∈ es, e.erase = e
  scans : scans = true
  records : UsesFresh us

namespace Unannotated
variable {es fs : List Expression} {b b' : Bool} {us vs : List TableUse}

theorem nil : Unannotated [] true [] := ⟨by simp, rfl, by simp [UsesFresh]⟩

theorem expression {e : Expression} (h : e.New) : Unannotated [e] true [] := by
  refine ⟨?_, rfl, by simp [UsesFresh]⟩
  intro e' he'
  obtain rfl := List.mem_singleton.mp he'
  exact h

theorem append (h : Unannotated es b us) (h' : Unannotated fs b' vs) :
    Unannotated (es ++ fs) (b && b') (us ++ vs) :=
  ⟨List.forall_mem_append.mpr ⟨h.expressions, h'.expressions⟩, by simp [h.scans, h'.scans],
    usesFresh_append.mpr ⟨h.records, h'.records⟩⟩

theorem ptr {p : Ptr Expression} (h : p.New) : Unannotated p.expressions true [] :=
  match p, h with
  | .null, _ => nil
  | .uninit, _ => nil
  | .to _, h => expression (Ptr.to.inj h)

end Unannotated

theorem unannotated_all_of {ss : List Statement}
    (h : ∀ s ∈ ss, s.New → Unannotated s.expressions s.fresh s.uses) (hss : NewAll ss) :
    Unannotated (expressionsAll ss) (freshAll ss) (usesAll ss) := by
  induction ss with
  | nil => exact .nil
  | cons s ss ih =>
    rw [List.forall_mem_cons] at h
    exact (h.1 hss.1).append (ih h.2 hss.2)

theorem Statement.New.unannotated {s : Statement} (hs : s.New) :
    Unannotated s.expressions s.fresh s.uses := by
  induction s using Statement.induction with
  | block ss ih => exact unannotated_all_of ih hs
  | transaction isolation ss ih => exact unannotated_all_of ih hs
  | forStmt init cond every blk hinit hblk =>
    obtain ⟨hi, hc, he, hb⟩ := hs
    have hinit' : Unannotated (expressionsInit init) (freshInit init) (usesInit init) :=
      match init, hinit, hi with
      | .null, _, _ => .nil
      | .uninit, _, _ => .nil
      | .to s, hinit, hi => hinit s rfl hi
    have hrest := ((Unannotated.ptr hc).append ((Unannotated.ptr he).append (unannotated_all_of hblk hb)))
    exact hinit'.append hrest
  | emit stack e => exact .expression hs.2
  | insert table e frame =>
    obtain ⟨rfl, he⟩ := hs
    exact ⟨(Unannotated.expression he).expressions, rfl, by simp [UsesFresh, uses, TableUse.fresh]⟩
  | scan table rowName blk frame hblk =>
    obtain ⟨rfl, hb⟩ := hs
    have hblk' := unannotated_all_of hblk hb
    exact ⟨hblk'.expressions, by simp [fresh, hblk'.scans],
      List.forall_mem_cons.mpr ⟨by simp [TableUse.fresh], hblk'.records⟩⟩
  | letStmt name e type => exact .expression hs
  | ifStmt cond ts fs hts hfs =>
    obtain ⟨hc, ht, hf⟩ := hs
    have helse : Unannotated (expressionsElse fs) (freshElse fs) (usesElse fs) := by
      cases fs with
      | none => exact .nil
      | some fs => exact unannotated_all_of (hfs fs rfl) hf
    have hblocks := (unannotated_all_of hts ht).append helse
    exact (Unannotated.expression hc).append hblocks
  | exprStatement stack e => exact .expression hs.2
  | define schema name => exact .nil
  | jump t => exact .nil
  | defineTuple name type => exact .nil

theorem parse_newAll {n : ℕ} {code : Text} {ss : List Statement} {rest : List Token}
    (h : parse n code = .ok ss rest) : NewAll ss := by
  unfold parse at h
  split at h
  · exact parseLoop_new n h
  · exact absurd h (by simp)

/-- The parser leaves every annotation to the passes, whatever the source: no expression has a type
or a slot, no `Emit` and no expression statement has a slot, and no `Insert` or `Scan` a frame. -/
theorem parse_new {n : ℕ} {code : Text} {ss : List Statement} {rest : List Token}
    (h : parse n code = .ok ss rest) :
    NewAll ss ∧ Unanalysed ss ∧ freshAll ss = true ∧ UsesFresh (usesAll ss) := by
  have hnew := parse_newAll h
  have hall := unannotated_all_of (fun s _ hs => hs.unannotated) hnew
  exact ⟨hnew, hall.expressions, hall.scans, hall.records⟩

/-- `scan t, r { insert u {r.x} }` -/
def copyScan : Text := text "scan t, r \x7b insert u \x7br.x\x7d \x7d"

theorem parse_new_copyScan : ∃ ss, parse 30 copyScan = .ok ss [] ∧ ss ≠ [] ∧
    NewAll ss ∧ Unanalysed ss ∧ freshAll ss = true ∧ UsesFresh (usesAll ss) := by
  obtain ⟨ss, hparse, hne⟩ : ∃ ss, parse 30 copyScan = .ok ss [] ∧ ss ≠ [] := ⟨_, rfl, by simp⟩
  exact ⟨ss, hparse, hne, parse_new hparse⟩

mutual

/-- No types are declared. -/
def Statement.typeless : Statement → Bool
  | .block ss => typelessAll ss
  | .transaction _ ss => typelessAll ss
  | .forStmt init _ _ blk => typelessInit init && typelessAll blk
  | .scan _ _ blk _ => typelessAll blk
  | .ifStmt _ ts fs => typelessAll ts && typelessElse fs
  | .letStmt _ _ type => type.isNone
  | .define _ _ => false
  | .defineTuple _ _ => false
  | _ => true

def typelessInit : Ptr Statement → Bool
  | .to s => s.typeless
  | _ => true

def typelessElse : Option (List Statement) → Bool
  | some ss => typelessAll ss
  | none => true

def typelessAll : List Statement → Bool
  | [] => true
  | s :: ss => s.typeless && typelessAll ss

end

theorem eraseAll_eq_of {ss : List Statement}
    (h : ∀ s ∈ ss, s.New → s.typeless = true → s.erase = s) (hss : NewAll ss)
    (ht : typelessAll ss = true) : eraseAll ss = ss := by
  induction ss with
  | nil => rfl
  | cons s ss ih =>
    rw [List.forall_mem_cons] at h
    simp only [typelessAll, Bool.and_eq_true] at ht
    rw [eraseAll, h.1 hss.1 ht.1, ih h.2 hss.2 ht.2]

/-- The erasure forgets nothing but annotations and declared types. -/
theorem Statement.New.erase_eq {s : Statement} (hs : s.New) (ht : s.typeless = true) : s.erase = s := by
  induction s using Statement.induction with
  | block ss ih => exact congrArg block (eraseAll_eq_of ih hs ht)
  | transaction isolation ss ih => exact congrArg (transaction isolation) (eraseAll_eq_of ih hs ht)
  | forStmt init cond every blk hinit hblk =>
    obtain ⟨hi, hc, he, hb⟩ := hs
    simp only [typeless, Bool.and_eq_true] at ht
    have hinit' : eraseInit init = init :=
      match init, hinit, hi, ht.1 with
      | .null, _, _, _ => rfl
      | .uninit, _, _, _ => rfl
      | .to s, hinit, hi, ht => congrArg Ptr.to (hinit s rfl hi ht)
    unfold Ptr.New at hc he
    rw [erase, hinit', hc, he, eraseAll_eq_of hblk hb ht.2]
  | emit stack e =>
    obtain ⟨rfl, he⟩ := hs
    exact congrArg (emit none) he
  | insert table e frame =>
    obtain ⟨rfl, he⟩ := hs
    exact congrArg (fun e => insert table e {}) he
  | scan table rowName blk frame hblk =>
    obtain ⟨rfl, hb⟩ := hs
    exact congrArg (fun blk => scan table rowName blk {}) (eraseAll_eq_of hblk hb ht)
  | letStmt name e type =>
    obtain rfl := Option.isNone_iff_eq_none.mp ht
    exact congrArg (fun e => letStmt name e none) hs
  | ifStmt cond ts fs hts hfs =>
    obtain ⟨hc, h₁, h₂⟩ := hs
    simp only [typeless, Bool.and_eq_true] at ht
    have helse : eraseElse fs = fs := by
      cases fs with
      | none => rfl
      | some fs => exact congrArg some (eraseAll_eq_of (hfs fs rfl) h₂ ht.2)
    unfold Expression.New at hc
    rw [erase, hc, eraseAll_eq_of hts h₁ ht.1, helse]
  | exprStatement stack e =>
    obtain ⟨rfl, he⟩ := hs
    exact congrArg (exprStatement none) he
  | define schema name => exact absurd ht (by simp [typeless])
  | jump t => rfl
  | defineTuple name type => exact absurd ht (by simp [typeless])

theorem eraseAll_eq_of_new {ss : List Statement} (h : NewAll ss) (ht : typelessAll ss = true) :
    eraseAll ss = ss :=
  eraseAll_eq_of (fun _ _ hs ht => hs.erase_eq ht) h ht

end Reir
