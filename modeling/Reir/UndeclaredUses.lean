import Reir.TableUses

/-! Uses without a declaration: an `Insert` or a `Scan` of a table that is not defined before it, and
a `break` or a `continue` outside of every `For`. `Insert::alloca_stack` is the only place that
checks; everywhere else the table of schemas or the stack of loops hands out a null pointer that is
followed. -/
namespace Reir
open Gen

mutual

/-- The names of the tables that a statement defines. -/
def Statement.defines : Statement → List Text
  | .block ss => definesAll ss
  | .transaction _ ss => definesAll ss
  | .define _ x => [x]
  | .forStmt init _ _ blk => definesInit init ++ definesAll blk
  | .scan _ _ blk _ => definesAll blk
  | .ifStmt _ ts fs => definesAll ts ++ definesElse fs
  | _ => []

def definesInit : Ptr Statement → List Text
  | .to s => s.defines
  | _ => []

def definesElse : Option (List Statement) → List Text
  | some ss => definesAll ss
  | none => []

def definesAll : List Statement → List Text
  | [] => []
  | s :: ss => s.defines ++ definesAll ss

end

mutual

/-- Some `Insert` or `Scan` is of a table that neither `before` nor the text in front of the
statement defines. -/
def Statement.undeclared (before : List Text) : Statement → Bool
  | .block ss => undeclaredAll before ss
  | .transaction _ ss => undeclaredAll before ss
  | .forStmt init _ _ blk =>
    undeclaredInit before init || undeclaredAll (before ++ definesInit init) blk
  | .insert x _ _ => x ∉ before
  | .scan x _ blk _ => x ∉ before || undeclaredAll before blk
  | .ifStmt _ ts fs => undeclaredAll before ts || undeclaredElse (before ++ definesAll ts) fs
  | _ => false

def undeclaredInit (before : List Text) : Ptr Statement → Bool
  | .to s => s.undeclared before
  | _ => false

def undeclaredElse (before : List Text) : Option (List Statement) → Bool
  | some ss => undeclaredAll before ss
  | none => false

def undeclaredAll (before : List Text) : List Statement → Bool
  | [] => false
  | s :: ss => s.undeclared before || undeclaredAll (before ++ s.defines) ss

end

mutual

/-- Some `break` or `continue` is not in the body of a `For`. -/
def Statement.stray : Statement → Bool
  | .block ss => strayAll ss
  | .transaction _ ss => strayAll ss
  | .forStmt init _ _ _ => strayInit init
  | .jump _ => true
  | .scan _ _ blk _ => strayAll blk
  | .ifStmt _ ts fs => strayAll ts || strayElse fs
  | _ => false

def strayInit : Ptr Statement → Bool
  | .to s => s.stray
  | _ => false

def strayElse : Option (List Statement) → Bool
  | some ss => strayAll ss
  | none => false

def strayAll : List Statement → Bool
  | [] => false
  | s :: ss => s.stray || strayAll ss

end

/-- Running the second step from the second context comes to running `q` from `d`. -/
inductive Gen.ComesTo {β : Type} (q : Gen β) (d : Ctx) : ∀ {α : Type}, Gen α → Ctx → Prop
  | here : ComesTo q d q d
  | first {α γ : Type} {p : Gen α} {f : α → Gen γ} {c : Ctx} (h : ComesTo q d p c) :
    ComesTo q d (p >>= f) c
  | next {α γ : Type} {p : Gen α} {f : α → Gen γ} {c c₁ : Ctx} {a : α}
    (hp : p.run c = .ok (a, c₁)) (h : ComesTo q d (f a) c₁) : ComesTo q d (p >>= f) c

theorem Gen.ComesTo.error {α β : Type} {p : Gen α} {q : Gen β} {c d : Ctx} {f : Failure}
    (h : ComesTo q d p c) (hq : q.run d = .error f) : p.run c = .error f := by
  induction h with
  | here => exact hq
  | first _ ih => exact bind_eq_error.mpr (.inl ih)
  | next hp _ ih => exact bind_eq_error.mpr (.inr ⟨_, _, hp, ih⟩)

/-- A step that leaves the loops as they are and, outside of every loop, returns only if the
proposition holds. -/
def Gen.Level {α : Type} (p : Gen α) (P : Prop) : Prop :=
  ∀ ⦃c a c'⦄, p.run c = .ok (a, c') → c'.loops = c.loops ∧ (c.loops = [] → P)

namespace Gen
variable {α β : Type} {p : Gen α} {f : α → Gen β} {P Q : Prop}

theorem Level.bind (hp : p.Level P) (hf : ∀ a, (f a).Level Q) : (p >>= f).Level (P ∧ Q) := by
  intro c b c' h
  obtain ⟨a, c₁, h₁, h₂⟩ := bind_eq_ok.mp h
  obtain ⟨hl₁, hP⟩ := hp h₁
  obtain ⟨hl₂, hQ⟩ := hf a h₂
  exact ⟨hl₂.trans hl₁, fun hc => ⟨hP hc, hQ (hl₁.trans hc)⟩⟩

theorem Level.mono (hp : p.Level P) (h : P → Q) : p.Level Q := by
  intro c a c' hrun
  obtain ⟨hl, hP⟩ := hp hrun
  exact ⟨hl, fun hc => h (hP hc)⟩

theorem Level.before (hp : p.Level True) (hf : ∀ a, (f a).Level Q) : (p >>= f).Level Q :=
  (hp.bind hf).mono And.right

theorem Level.after (hp : p.Level P) (hf : ∀ a, (f a).Level True) : (p >>= f).Level P :=
  (hp.bind hf).mono And.left

theorem level_of_keeps (hp : Keeps Ctx.loops p) : p.Level True :=
  fun _ _ _ h => ⟨hp h, fun _ => trivial⟩

end Gen

theorem level_emitInstr (i : Instr) : (emitInstr i).Level True :=
  level_of_keeps (keeps_modify fun _ => rfl)

theorem level_createBlock : createBlock.Level True := by
  intro c a c' h
  obtain ⟨rfl, rfl⟩ := createBlock_eq_ok.mp h
  exact ⟨rfl, fun _ => trivial⟩

theorem level_setInsertPoint (b : ℕ) : (setInsertPoint b).Level True :=
  level_of_keeps (keeps_modify fun _ => rfl)

theorem level_getInsertBlock : getInsertBlock.Level True := by
  intro c a c' h
  obtain ⟨rfl, rfl⟩ := getInsertBlock_eq_ok.mp h
  exact ⟨rfl, fun _ => trivial⟩

theorem level_emitResult (mk : ℕ → Instr) (ty : LLType) : (emitResult mk ty).Level True := by
  intro c a c' h
  obtain ⟨rfl, rfl⟩ := emitResult_eq_ok.mp h
  exact ⟨rfl, fun _ => trivial⟩

theorem level_toI1 (v : LLValue) : (toI1 v).Level True := by
  unfold toI1
  split_ifs
  · exact level_of_keeps (keeps_pure v)
  · exact level_emitResult _ _

theorem level_registerRow (ts : List LLType) : (registerRow ts).Level True := by
  refine level_of_keeps ((keeps_modify fun c => ?_).bind fun _ => keeps_pure _)
  split_ifs
  · rfl
  · rfl

theorem levelRules : Rules fun p => p.Level True where
  pure := fun a => level_of_keeps (keeps_pure a)
  fail := fun e => level_of_keeps (keeps_fail e)
  get := level_of_keeps keeps_get
  require := fun e o => level_of_keeps (keeps_require e o)
  bind := Level.before
  registerRow := level_registerRow
  emitInstr := fun i _ => level_emitInstr i
  emitResult := fun mk ty _ => level_emitResult mk ty
  emitLoad := by
    intro p ty c a c' h
    obtain ⟨rfl, rfl⟩ := emitLoad_eq_ok.mp h
    exact ⟨rfl, fun _ => trivial⟩
  conditionalValue := fun hl hr =>
    level_createBlock.before fun _ => level_createBlock.before fun _ => hl.before fun _ =>
      (level_toI1 _).before fun _ => (level_emitInstr _).before fun _ =>
        level_getInsertBlock.before fun _ => (level_setInsertPoint _).before fun _ =>
          hr.before fun _ => (level_toI1 _).before fun _ => (level_emitInstr _).before fun _ =>
            level_getInsertBlock.before fun _ => (level_setInsertPoint _).before fun _ =>
              level_emitResult _ _

theorem level_ifCode {cond : Gen LLValue} {ts fs : Gen Unit} {P Q : Prop} (hc : cond.Level True)
    (ht : ts.Level P) (hf : fs.Level Q) : (ifCode cond ts fs).Level (P ∧ Q) :=
  level_createBlock.before fun _ => level_createBlock.before fun _ =>
    level_createBlock.before fun _ => hc.before fun _ => (level_toI1 _).before fun _ =>
      (level_emitInstr _).before fun _ => (level_setInsertPoint _).before fun _ =>
        ht.bind fun _ => (level_emitInstr _).before fun _ => (level_setInsertPoint _).before fun _ =>
          hf.after fun _ => (level_emitInstr _).before fun _ => level_setInsertPoint _

theorem level_loopCondition (cond : Ptr Expression) (body finish : ℕ) :
    (loopCondition cond body finish).Level True := by
  unfold loopCondition
  split
  · exact levelRules.pure _
  · exact levelRules.fail _
  · exact (levelRules.getValue _).before fun _ => level_emitInstr _

/-- A step that leaves the innermost loop. -/
def Gen.Leaves {α : Type} (p : Gen α) : Prop :=
  ∀ ⦃c a c'⦄, p.run c = .ok (a, c') → c'.loops = c.loops.tail

theorem leaves_exitLoop : exitLoop.Leaves := by
  intro c u c' h
  obtain rfl := exitLoop_eq_ok.mp h
  rfl

theorem Gen.Level.leaves {α β : Type} {p : Gen α} {f : α → Gen β} {P : Prop} (hp : p.Level P)
    (hf : ∀ a, (f a).Leaves) : (p >>= f).Leaves := by
  intro c b c' h
  obtain ⟨a, c₁, h₁, h₂⟩ := bind_eq_ok.mp h
  rw [hf a h₂, (hp h₁).1]

theorem level_enterLoop (l : LoopContext) {α : Type} {f : Unit → Gen α} (hf : ∀ u, (f u).Leaves) :
    (enterLoop l >>= f).Level True := by
  intro c b c' h
  obtain ⟨u, c₁, h₁, h₂⟩ := bind_eq_ok.mp h
  obtain rfl := enterLoop_eq_ok.mp h₁
  exact ⟨hf u h₂, fun _ => trivial⟩

theorem level_forCode {init blk : Gen Unit} {P Q : Prop} (cond every : Ptr Expression)
    (hi : init.Level P) (hb : blk.Level Q) : (forCode init cond every blk).Level P :=
  hi.after fun _ => level_createBlock.before fun _ => level_createBlock.before fun _ =>
    level_createBlock.before fun _ => level_createBlock.before fun _ => level_enterLoop _ fun _ =>
      (level_emitInstr _).leaves fun _ => (level_setInsertPoint _).leaves fun _ =>
        (level_loopCondition _ _ _).leaves fun _ => (level_setInsertPoint _).leaves fun _ =>
          hb.leaves fun _ => (level_emitInstr _).leaves fun _ => (level_setInsertPoint _).leaves fun _ =>
            (levelRules.loopEvery _).leaves fun _ => (level_emitInstr _).leaves fun _ =>
              (level_setInsertPoint _).leaves fun _ => leaves_exitLoop

theorem level_scanCode (x r : Text) (frame : ScanFrame) {blk : Gen Unit} {P : Prop}
    (hb : blk.Level P) : (scanCode x r frame blk).Level P :=
  (levelRules.lookupSchema _ _).before fun _ => levelRules.get.before fun _ =>
    (levelRules.require _ _).before fun _ => (levelRules.scanCursor _ _).before fun _ =>
      level_createBlock.before fun _ => level_createBlock.before fun _ =>
        level_createBlock.before fun _ => (level_emitInstr _).before fun _ =>
          (level_setInsertPoint _).before fun _ => (levelRules.createCall _ _ _).before fun _ =>
            (levelRules.createICmp _ _ _).before fun _ => (level_emitInstr _).before fun _ =>
              (level_setInsertPoint _).before fun _ => (levelRules.scanRow _ _ _ _).before fun _ =>
                hb.after fun _ => (levelRules.createCall _ _ _).before fun _ =>
                  (level_emitInstr _).before fun _ => (level_setInsertPoint _).before fun _ =>
                    (levelRules.createCall _ _ _).before fun _ => levelRules.pure _

/-- Outside of every loop there is none to jump in. -/
theorem level_jumpCode (around : List Frame) (t : JumpType) : (jumpCode around t).Level False := by
  intro c u c' h
  obtain ⟨_, _, hget, h⟩ := bind_eq_ok.mp h
  obtain ⟨rfl, rfl⟩ := get_eq_ok.mp hget
  obtain ⟨l, c₂, hloop, hbr⟩ := bind_eq_ok.mp h
  obtain ⟨hhead, rfl⟩ := require_eq_ok.mp hloop
  obtain rfl := emitInstr_eq_ok.mp hbr
  refine ⟨rfl, fun hnil => ?_⟩
  rw [hnil] at hhead
  exact absurd hhead (by simp)

theorem level_codegenAll_of {around : List Frame} {ss : List Statement}
    (h : ∀ s ∈ ss, ∀ around, (s.codegen around).Level (s.stray = false)) :
    (codegenAll around ss).Level (strayAll ss = false) := by
  induction ss with
  | nil => exact (levelRules.pure _).mono fun _ => rfl
  | cons s ss ih =>
    rw [List.forall_mem_cons] at h
    refine ((h.1 around).bind fun _ => ih h.2).mono ?_
    rintro ⟨hs, hss⟩
    rw [strayAll, hs, hss]
    rfl

/-- Code is generated outside of every loop only if no jump is stray. -/
theorem Statement.level_codegen (s : Statement) (around : List Frame) :
    (s.codegen around).Level (s.stray = false) := by
  induction s using Statement.induction generalizing around with
  | block ss hss => exact level_codegenAll_of hss
  | transaction isolation ss hss =>
    exact (levelRules.createCall _ _ _).before fun _ => (level_codegenAll_of hss).after fun _ =>
      (levelRules.createCall _ _ _).before fun _ => levelRules.pure _
  | forStmt init cond every blk hinit hblk =>
    have hinit' : (codegenInit around init).Level (strayInit init = false) :=
      match init, hinit with
      | .null, _ => (levelRules.pure _).mono fun _ => rfl
      | .uninit, _ => (levelRules.fail _).mono fun _ => rfl
      | .to s, hinit => hinit s rfl around
    exact level_forCode cond every hinit' (level_codegenAll_of hblk)
  | jump t => exact (level_jumpCode around t).mono False.elim
  | scan x r blk frame hblk => exact level_scanCode x r frame (level_codegenAll_of hblk)
  | ifStmt cond ts fs hts hfs =>
    have helse : (codegenElse around fs).Level (strayElse fs = false) := by
      cases fs with
      | none => exact (levelRules.pure _).mono fun _ => rfl
      | some fs => exact level_codegenAll_of (hfs fs rfl)
    refine (level_ifCode (levelRules.getValue cond) (level_codegenAll_of hts) helse).mono ?_
    rintro ⟨ht, hf⟩
    rw [stray, ht, hf]
    rfl
  | define schema name => exact (levelRules.pure _).mono fun _ => rfl
  | emit stack e => exact (levelRules.emitCode _ _).mono fun _ => rfl
  | insert x e frame => exact (levelRules.insertCode _ _ _).mono fun _ => rfl
  | letStmt name e type => exact (levelRules.letCode _ _).mono fun _ => rfl
  | defineTuple name type => exact (levelRules.pure _).mono fun _ => rfl
  | exprStatement stack e =>
    exact ((levelRules.getValue e).before fun _ => levelRules.pure _).mono fun _ => rfl

/-- What a compilation can come to without a declaration: the check of `Insert::alloca_stack`, a
schema that is used unchecked (in `Scan::alloca_stack` and in the code of `Insert` and `Scan`), and
a jump. -/
inductive BareUse
  | insert (table : Text)
  | schema (table : Text)
  | jump (t : JumpType)

/-- The compilation comes to the use, and there is no table or no loop for it. -/
def Meets (ss : List Statement) : BareUse → Prop
  | .insert x => ∃ d, d.schemas x = none ∧
      ComesTo (lookupSchema (.undefinedTable x) x) d (compile ss) Ctx.initial
  | .schema x => ∃ d, d.schemas x = none ∧
      ComesTo (lookupSchema .undefined x) d (compile ss) Ctx.initial
  | .jump t => ∃ around d, d.loops = [] ∧ ComesTo (jumpCode around t) d (compile ss) Ctx.initial

end Reir
