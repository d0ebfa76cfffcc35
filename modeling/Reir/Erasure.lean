import Reir.Codegen

/-! The passes only annotate the tree. The erasure of a tree forgets what they record; both
passes keep it, so whatever can be read from the erasure of a program holds of the program as
it was written and as code is generated from it. -/
namespace Reir
open Gen

def Note.erase (n : Note) : Note := { node := n.node }

mutual

def Expression.erase : Expression → Expression
  | .primary n v => .primary n.erase v
  | .binary n l op r => .binary n.erase l.erase op r.erase
  | .pointerOf n t => .pointerOf n.erase t.erase
  | .rowLiteral n es => .rowLiteral n.erase (eraseList es)
  | .arrayLiteral n es => .arrayLiteral n.erase (eraseList es)
  | .variable n x => .variable n.erase x
  | .functionCall n p as => .functionCall n.erase p.erase (eraseList as)
  | .arrayReference n p i => .arrayReference n.erase (eraseParent p) i.erase
  | .memberReference n p x _ => .memberReference n.erase p.erase x none
  | .assign n t v => .assign n.erase t.erase v.erase

def eraseList : List Expression → List Expression
  | [] => []
  | e :: es => e.erase :: eraseList es

def eraseParent : Option Expression → Option Expression
  | none => none
  | some p => some p.erase

end

def Ptr.erase : Ptr Expression → Ptr Expression
  | .null => .null
  | .uninit => .uninit
  | .to e => .to e.erase

mutual

def Statement.erase : Statement → Statement
  | .block ss => .block (eraseAll ss)
  | .transaction isolation ss => .transaction isolation (eraseAll ss)
  | .define _ name => .define none name
  | .forStmt init cond every blk => .forStmt (eraseInit init) cond.erase every.erase (eraseAll blk)
  | .jump t => .jump t
  | .emit _ e => .emit none e.erase
  | .insert table e _ => .insert table e.erase {}
  | .scan table rowName blk _ => .scan table rowName (eraseAll blk) {}
  | .letStmt name e _ => .letStmt name e.erase none
  | .defineTuple name _ => .defineTuple name (.primary .noneType)
  | .ifStmt cond ts fs => .ifStmt cond.erase (eraseAll ts) (eraseElse fs)
  | .exprStatement _ e => .exprStatement none e.erase

def eraseInit : Ptr Statement → Ptr Statement
  | .null => .null
  | .uninit => .uninit
  | .to s => .to s.erase

def eraseElse : Option (List Statement) → Option (List Statement)
  | none => none
  | some ss => some (eraseAll ss)

def eraseAll : List Statement → List Statement
  | [] => []
  | s :: ss => s.erase :: eraseAll ss

end

attribute [local simp] Expression.erase eraseList Statement.erase eraseAll

theorem Expression.withNote_erase (e : Expression) {n : Note} (h : n.erase = e.note.erase) :
    (e.withNote n).erase = e.erase := by
  cases e <;> simp_all [Expression.withNote, Expression.erase, Expression.note]

theorem analyzeElements_erase {es : List Expression}
    (h : ∀ e ∈ es, e.analyze.Yields fun e' => e'.erase = e.erase) :
    (analyzeElements es).Yields fun es' => eraseList es' = eraseList es := by
  induction es with
  | nil => exact yields_pure rfl
  | cons e es ih =>
    rw [List.forall_mem_cons] at h
    exact h.1.bind fun e' he => (yields_true _).bind fun _ _ => (ih h.2).bind fun es' hes =>
      yields_pure (by simp [eraseList, he, hes])

theorem analyzeArgs_erase {es : List Expression}
    (h : ∀ e ∈ es, e.analyze.Yields fun e' => e'.erase = e.erase) :
    (analyzeArgs es).Yields fun es' => eraseList es' = eraseList es := by
  induction es with
  | nil => exact yields_pure rfl
  | cons e es ih =>
    rw [List.forall_mem_cons] at h
    exact h.1.bind fun e' he => (ih h.2).bind fun es' hes =>
      yields_pure (by simp [eraseList, he, hes])

theorem Expression.analyze_erase (e : Expression) :
    e.analyze.Yields fun e' => e'.erase = e.erase := by
  induction e using Expression.induction with
  | primary n v => exact (yields_true _).bind fun _ _ => yields_pure rfl
  | binary n l op r hl hr =>
    exact hl.bind fun l' hl' => hr.bind fun r' hr' => (yields_true _).bind fun _ _ =>
      (yields_true _).bind fun _ _ => (yields_true _).bind fun _ _ =>
        yields_pure (by simp [erase, hl', hr', Note.erase])
  | pointerOf n t _ => exact yields_pure rfl
  | rowLiteral n es hes =>
    exact (analyzeElements_erase hes).bind fun es' h => yields_pure (by simp [erase, h, Note.erase])
  | arrayLiteral n es hes =>
    cases es with
    | nil => exact yields_fail _ _
    | cons e es =>
      exact (hes e List.mem_cons_self).bind fun e' he => (yields_true _).bind fun _ _ =>
        yields_pure (by simp [erase, eraseList, he, Note.erase])
  | variableRef n x => exact (yields_true _).bind fun _ _ => yields_pure rfl
  | functionCall n p as _ has =>
    exact (yields_true _).bind fun _ _ => (analyzeArgs_erase has).bind fun as' h =>
      yields_pure (by simp [erase, h, Note.erase])
  | arrayReference n p i hp hi =>
    cases p with
    | none => exact yields_fail _ _
    | some p =>
      exact (hp p rfl).bind fun p' hp' => hi.bind fun i' hi' => (yields_true _).bind fun _ _ =>
        yields_pure (by simp [erase, eraseParent, hp', hi', Note.erase])
  | memberReference n p x o hp =>
    exact hp.bind fun p' hp' => (yields_true _).bind fun _ _ =>
      yields_pure (by simp [erase, hp', Note.erase])
  | assign n t v ht hv =>
    exact ht.bind fun t' ht' => hv.bind fun v' hv' =>
      yields_pure (by simp [erase, ht', hv', Note.erase])

theorem spill_erase (e : Expression) (n : Note) : (spill e n).Yields fun m => m.erase = n.erase := by
  refine (yields_true _).bind fun t _ => ?_
  split_ifs
  · exact (yields_true _).bind fun _ _ => yields_pure rfl
  · exact yields_pure rfl

theorem eachElement_erase {es : List Expression}
    (h : ∀ e ∈ es, ∀ n, n.erase = e.note.erase → (e.eachValue n).Yields fun e' => e'.erase = e.erase) :
    (eachElement es).Yields fun es' => eraseList es' = eraseList es := by
  induction es with
  | nil => exact yields_pure rfl
  | cons e es ih =>
    rw [List.forall_mem_cons] at h
    exact (h.1 _ rfl).bind fun e' he => (ih h.2).bind fun es' hes =>
      yields_pure (by simp [eraseList, he, hes])

theorem eachArg_erase {es : List Expression}
    (h : ∀ e ∈ es, ∀ n, n.erase = e.note.erase → (e.eachValue n).Yields fun e' => e'.erase = e.erase) :
    (eachArg es).Yields fun es' => eraseList es' = eraseList es := by
  induction es with
  | nil => exact yields_pure rfl
  | cons e es ih =>
    rw [List.forall_mem_cons] at h
    exact (spill_erase _ _).bind fun n hn => (h.1 n hn).bind fun e' he =>
      (ih h.2).bind fun es' hes => yields_pure (by simp [eraseList, he, hes])

theorem Expression.eachValue_erase (e : Expression) (n : Note) (hn : n.erase = e.note.erase) :
    (e.eachValue n).Yields fun e' => e'.erase = e.erase := by
  induction e using Expression.induction generalizing n with
  | primary m v => exact yields_pure (by simpa [erase, note] using hn)
  | binary m l op r _ _ => exact yields_pure (by simpa [erase, note] using hn)
  | pointerOf m t _ =>
    exact (spill_erase _ _).bind fun k hk => yields_pure (by
      simpa [erase, note, t.withNote_erase hk] using hn)
  | rowLiteral m es _ => exact yields_pure (by simpa [erase, note] using hn)
  | arrayLiteral m es hes =>
    exact (eachElement_erase hes).bind fun es' h => (spill_erase _ _).bind fun k hk =>
      yields_pure (by simpa [erase, note, h, hk] using hn)
  | variableRef m x =>
    exact (spill_erase _ _).bind fun k hk => yields_pure (by simpa [erase, note, hk] using hn)
  | functionCall m p as _ has =>
    exact (eachArg_erase has).bind fun as' h => yields_pure (by simpa [erase, note, h] using hn)
  | arrayReference m p i hp _ =>
    refine (spill_erase _ _).bind fun k hk => ?_
    have hparent : (eachParent p).Yields fun p' => eraseParent p' = eraseParent p := by
      cases p with
      | none => exact yields_fail _ _
      | some p => exact (hp p rfl _ rfl).bind fun p' h => yields_pure (by simp [eraseParent, h])
    exact hparent.bind fun p' h => yields_pure (by simpa [erase, note, h, hk] using hn)
  | memberReference m p x o hp =>
    exact (spill_erase _ _).bind fun k hk => (hp _ rfl).bind fun p' h =>
      yields_pure (by simpa [erase, note, h, hk] using hn)
  | assign m t v _ hv =>
    exact (spill_erase _ _).bind fun k hk => (hv _ rfl).bind fun v' h =>
      yields_pure (by simpa [erase, note, h, hk] using hn)

theorem analyzeExpr_erase (p : Ptr Expression) : p.analyzeExpr.Yields fun p' => p'.erase = p.erase :=
  match p with
  | .null => yields_pure rfl
  | .uninit => yields_fail _ _
  | .to e => e.analyze_erase.bind fun e' h => yields_pure (by simp [Ptr.erase, h])

theorem analyzeAll_erase_of {ss : List Statement}
    (h : ∀ s ∈ ss, s.analyze.Yields fun s' => s'.erase = s.erase) :
    (analyzeAll ss).Yields fun ss' => eraseAll ss' = eraseAll ss := by
  induction ss with
  | nil => exact yields_pure rfl
  | cons s ss ih =>
    rw [List.forall_mem_cons] at h
    exact h.1.bind fun s' hs => (ih h.2).bind fun ss' hss =>
      yields_pure (by simp [eraseAll, hs, hss])

theorem Statement.analyze_erase (s : Statement) :
    s.analyze.Yields fun s' => s'.erase = s.erase := by
  induction s using Statement.induction with
  | block ss hss =>
    exact (analyzeAll_erase_of hss).bind fun ss' h => yields_pure (by simp [erase, h])
  | transaction isolation ss hss =>
    exact (analyzeAll_erase_of hss).bind fun ss' h => yields_pure (by simp [erase, h])
  | define schema name =>
    exact (yields_true _).bind fun _ _ => (yields_true _).bind fun _ _ =>
      (yields_true _).bind fun _ _ => yields_pure rfl
  | forStmt init cond every blk hinit hblk =>
    have hinit' : (analyzeInit init).Yields fun p => eraseInit p = eraseInit init :=
      match init, hinit with
      | .null, _ => yields_pure rfl
      | .uninit, _ => yields_fail _ _
      | .to s, hinit => (hinit s rfl).bind fun s' h => yields_pure (by simp [eraseInit, h])
    exact hinit'.bind fun init' hi => (analyzeExpr_erase cond).bind fun cond' hc =>
      (analyzeExpr_erase every).bind fun every' he => (analyzeAll_erase_of hblk).bind fun blk' hb =>
        yields_pure (by simp [erase, hi, hc, he, hb])
  | jump t => exact yields_pure rfl
  | emit stack e => exact e.analyze_erase.bind fun e' h => yields_pure (by simp [erase, h])
  | insert table e frame => exact e.analyze_erase.bind fun e' h => yields_pure (by simp [erase, h])
  | scan table rowName blk frame hblk =>
    exact (yields_true _).bind fun _ _ => (yields_true _).bind fun _ _ =>
      (analyzeAll_erase_of hblk).bind fun blk' h => yields_pure (by simp [erase, h])
  | letStmt name e type =>
    exact e.analyze_erase.bind fun e' h => (yields_true _).bind fun _ _ =>
      yields_pure (by simp [erase, h])
  | defineTuple name type =>
    exact (yields_true _).bind fun _ _ => (yields_true _).bind fun _ _ => yields_pure rfl
  | ifStmt cond ts fs hts hfs =>
    have helse : (analyzeElse fs).Yields fun p => eraseElse p = eraseElse fs := by
      cases fs with
      | none => exact yields_pure rfl
      | some fs =>
        exact (analyzeAll_erase_of (hfs fs rfl)).bind fun fs' h => yields_pure (by simp [eraseElse, h])
    exact cond.analyze_erase.bind fun cond' hc => (analyzeAll_erase_of hts).bind fun ts' ht =>
      helse.bind fun fs' hf => yields_pure (by simp [erase, hc, ht, hf])
  | exprStatement stack e => exact e.analyze_erase.bind fun e' h => yields_pure (by simp [erase, h])

theorem analyzeAll_erase (ss : List Statement) :
    (analyzeAll ss).Yields fun ss' => eraseAll ss' = eraseAll ss :=
  analyzeAll_erase_of fun s _ => s.analyze_erase

theorem allocaInit_erase_of {init : Ptr Statement}
    (h : ∀ s, init = .to s → s.allocaStack.Yields fun s' => s'.erase = s.erase) :
    (allocaInit init).Yields fun p => eraseInit p = eraseInit init :=
  match init, h with
  | .null, _ => yields_pure rfl
  | .uninit, _ => yields_fail _ _
  | .to s, h => (h s rfl).bind fun s' hs => yields_pure (by simp [eraseInit, hs])

theorem Statement.allocaStack_erase (s : Statement) :
    s.allocaStack.Yields fun s' => s'.erase = s.erase := by
  induction s using Statement.induction with
  | block ss _ => exact yields_pure rfl
  | transaction isolation ss _ => exact yields_pure rfl
  | define schema name => exact (yields_true _).bind fun _ _ => yields_pure rfl
  | forStmt init cond every blk hinit _ =>
    exact (allocaInit_erase_of hinit).bind fun init' hi => yields_pure (by simp [erase, hi])
  | jump t => exact yields_pure rfl
  | emit stack e =>
    exact (yields_true _).bind fun _ _ => (yields_true _).bind fun _ _ => yields_pure rfl
  | insert table e frame => exact (yields_true _).bind fun _ _ => yields_pure rfl
  | scan table rowName blk frame _ => exact (yields_true _).bind fun _ _ => yields_pure rfl
  | letStmt name e type =>
    exact (yields_true _).bind fun _ _ => (yields_true _).bind fun _ _ =>
      (yields_true _).bind fun _ _ => yields_pure rfl
  | defineTuple name type => exact (yields_true _).bind fun _ _ => yields_pure rfl
  | ifStmt cond ts fs _ _ => exact yields_pure rfl
  | exprStatement stack e =>
    exact (yields_true _).bind fun _ _ => (e.eachValue_erase _ rfl).bind fun e' h =>
      yields_pure (by simp [erase, h])

theorem eachStatement_erase_of {ss : List Statement}
    (h : ∀ s ∈ ss, s.visit.Yields fun s' => s'.erase = s.erase) :
    (eachStatement ss).Yields fun ss' => eraseAll ss' = eraseAll ss := by
  induction ss with
  | nil => exact yields_pure rfl
  | cons s ss ih =>
    rw [List.forall_mem_cons] at h
    exact h.1.bind fun s' hs => (ih h.2).bind fun ss' hss =>
      yields_pure (by simp [eraseAll, hs, hss])

theorem Statement.visit_erase (s : Statement) : s.visit.Yields fun s' => s'.erase = s.erase := by
  have hinit : ∀ init, (allocaInit init).Yields fun p => eraseInit p = eraseInit init :=
    fun init => allocaInit_erase_of fun s _ => s.allocaStack_erase
  induction s using Statement.induction with
  | block ss hss =>
    exact (eachStatement_erase_of hss).bind fun ss' h => yields_pure (by simp [erase, h])
  | transaction isolation ss hss =>
    exact (eachStatement_erase_of hss).bind fun ss' h => yields_pure (by simp [erase, h])
  | forStmt init cond every blk _ hblk =>
    exact (hinit init).bind fun init₁ h₁ => (hinit init₁).bind fun init₂ h₂ =>
      (eachStatement_erase_of hblk).bind fun blk' hb => yields_pure (by simp [erase, h₁, h₂, hb])
  | scan table rowName blk frame hblk =>
    exact (yields_true _).bind fun _ _ => (eachStatement_erase_of hblk).bind fun blk' h =>
      yields_pure (by simp [erase, h])
  | ifStmt cond ts fs hts hfs =>
    have helse : (eachElse fs).Yields fun p => eraseElse p = eraseElse fs := by
      cases fs with
      | none => exact yields_pure rfl
      | some fs =>
        exact (eachStatement_erase_of (hfs fs rfl)).bind fun fs' h =>
          yields_pure (by simp [eraseElse, h])
    exact (eachStatement_erase_of hts).bind fun ts' ht => helse.bind fun fs' hf =>
      yields_pure (by simp [erase, ht, hf])
  | define schema name => exact Statement.allocaStack_erase _
  | jump t => exact Statement.allocaStack_erase _
  | emit stack e => exact Statement.allocaStack_erase _
  | insert table e frame => exact Statement.allocaStack_erase _
  | letStmt name e type => exact Statement.allocaStack_erase _
  | defineTuple name type => exact Statement.allocaStack_erase _
  | exprStatement stack e => exact Statement.allocaStack_erase _

theorem eachStatement_erase (ss : List Statement) :
    (eachStatement ss).Yields fun ss' => eraseAll ss' = eraseAll ss :=
  eachStatement_erase_of fun s _ => s.visit_erase

end Reir
