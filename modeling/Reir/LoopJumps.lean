import Reir.UndeclaredUses

/-! The targets of `break` and `continue`. `For::codegen` pushes its blocks on the stack of loops
and `Jump::codegen` takes the top of it, wherever the jump stands. The generator below has the
blocks of a loop handed down to the statements of its body, and its jumps look at no stack: the
code of the compiler is the same. -/
namespace Reir

/-- A `break` leaves for what comes behind the loop, a `continue` for its next round. -/
def LoopContext.target (l : LoopContext) : JumpType → ℕ
  | .continueJump => l.every
  | .breakJump => l.finish

def jumpIn (around : List Frame) (loop : Option LoopContext) (t : JumpType) : Gen Unit := do
  let l ← Gen.require .undefined loop
  createBr ⟨.jump around, 0⟩ (l.target t)

/-- The code of a `for` whose body is given the blocks of the loop. -/
def forCodeIn (init : Gen Unit) (cond every : Ptr Expression) (blk : LoopContext → Gen Unit) :
    Gen Unit := do
  init
  let begin ← createBlock
  let body ← createBlock
  let next ← createBlock
  let finish ← createBlock
  enterLoop ⟨begin, body, next, finish⟩
  createBr ⟨.forStmt, 0⟩ begin
  setInsertPoint begin
  loopCondition cond body finish
  setInsertPoint body
  blk ⟨begin, body, next, finish⟩
  createBr ⟨.forStmt, 0⟩ next
  setInsertPoint next
  loopEvery every
  createBr ⟨.forStmt, 0⟩ begin
  setInsertPoint finish
  exitLoop

mutual

/-- The code of a statement in the body of the given loop, or outside of every loop. -/
def Statement.codeIn (around : List Frame) (loop : Option LoopContext) : Statement → Gen Unit
  | .block ss => codeInAll around loop ss
  | .transaction _ ss => transactionCode around (codeInAll (.transaction :: around) loop ss)
  | .define _ _ => pure ()
  | .forStmt init cond every blk =>
    forCodeIn (codeInInit around loop init) cond every fun l =>
      codeInAll (.loop :: around) (some l) blk
  | .jump t => jumpIn around loop t
  | .emit slot e => emitCode slot e
  | .insert table e frame => insertCode table e frame
  | .scan table rowName blk frame =>
    scanCode table rowName frame (codeInAll (.scan :: around) loop blk)
  | .letStmt name e _ => letCode name e
  | .defineTuple _ _ => pure ()
  | .ifStmt cond trueBlock falseBlock =>
    ifCode cond.getValue (codeInAll around loop trueBlock) (codeInElse around loop falseBlock)
  | .exprStatement _ e => do
    let _ ← e.getValue
    pure ()

def codeInInit (around : List Frame) (loop : Option LoopContext) : Ptr Statement → Gen Unit
  | .null => pure ()
  | .uninit => Gen.fail .undefined
  | .to s => s.codeIn around loop

def codeInElse (around : List Frame) (loop : Option LoopContext) : Option (List Statement) → Gen Unit
  | none => pure ()
  | some ss => codeInAll around loop ss

def codeInAll (around : List Frame) (loop : Option LoopContext) : List Statement → Gen Unit
  | [] => pure ()
  | s :: ss => do
    s.codeIn around loop
    codeInAll around loop ss

end

open Gen

/-- The steps do the same from every context with these loops. -/
def Gen.SameIn {α : Type} (ls : List LoopContext) (p q : Gen α) : Prop :=
  ∀ c, c.loops = ls → p.run c = q.run c

namespace Gen
variable {α β : Type} {p q : Gen α} {f g : α → Gen β} {ls : List LoopContext}

theorem sameIn_refl (p : Gen α) : SameIn ls p p := fun _ _ => rfl

theorem SameIn.first (h : SameIn ls p q) : SameIn ls (p >>= f) (q >>= f) := by
  intro c hc
  rw [run_bind, run_bind, h c hc]

/-- The loops are the same behind a step that leaves them as they are. -/
theorem Level.next {P : Prop} (hp : p.Level P) (h : ∀ a, SameIn ls (f a) (g a)) :
    SameIn ls (p >>= f) (p >>= g) := by
  intro c hc
  rw [run_bind, run_bind]
  cases hrun : p.run c with
  | error e => rfl
  | ok r =>
    obtain ⟨a, c₁⟩ := r
    exact h a c₁ ((hp hrun).1.trans hc)

theorem SameIn.bind {P : Prop} (h : SameIn ls p q) (hp : p.Level P)
    (hf : ∀ a, SameIn ls (f a) (g a)) : SameIn ls (p >>= f) (q >>= g) := by
  intro c hc
  rw [← h.first c hc]
  exact hp.next hf c hc

theorem sameIn_enterLoop {l : LoopContext} {f g : Unit → Gen α}
    (h : ∀ u, SameIn (l :: ls) (f u) (g u)) : SameIn ls (enterLoop l >>= f) (enterLoop l >>= g) := by
  intro c hc
  have hrun : (enterLoop l).run c = .ok ((), c.pushLoop l) := rfl
  rw [bind_ok hrun, bind_ok hrun]
  exact h () _ (by rw [Ctx.pushLoop, hc])

end Gen

section
variable {ls : List LoopContext} {init init' ts ts' fs fs' blk blk' : Gen Unit}

theorem sameIn_ifCode {cond : Gen LLValue} {P : Prop} (hc : cond.Level True)
    (ht : SameIn ls ts ts') (hlevel : ts.Level P) (hf : SameIn ls fs fs') :
    SameIn ls (ifCode cond ts fs) (ifCode cond ts' fs') :=
  level_createBlock.next fun _ => level_createBlock.next fun _ => level_createBlock.next fun _ =>
    hc.next fun _ => (level_toI1 _).next fun _ => (level_emitInstr _).next fun _ =>
      (level_setInsertPoint _).next fun _ => ht.bind hlevel fun _ => (level_emitInstr _).next fun _ =>
        (level_setInsertPoint _).next fun _ => hf.first

theorem sameIn_scanCode (x r : Text) (frame : ScanFrame) (hb : SameIn ls blk blk') :
    SameIn ls (scanCode x r frame blk) (scanCode x r frame blk') :=
  (levelRules.lookupSchema _ _).next fun _ => levelRules.get.next fun _ =>
    (levelRules.require _ _).next fun _ => (levelRules.scanCursor _ _).next fun _ =>
      level_createBlock.next fun _ => level_createBlock.next fun _ => level_createBlock.next fun _ =>
        (level_emitInstr _).next fun _ => (level_setInsertPoint _).next fun _ =>
          (levelRules.createCall _ _ _).next fun _ => (levelRules.createICmp _ _ _).next fun _ =>
            (level_emitInstr _).next fun _ => (level_setInsertPoint _).next fun _ =>
              (levelRules.scanRow _ _ _ _).next fun _ => hb.first

theorem sameIn_transactionCode (around : List Frame) (hb : SameIn ls blk blk') :
    SameIn ls (transactionCode around blk) (transactionCode around blk') :=
  (levelRules.createCall _ _ _).next fun _ => hb.first

/-- The body of a `for` runs with the blocks of the loop on top of the stack. -/
theorem sameIn_forCode {blk' : LoopContext → Gen Unit} {P : Prop} (cond every : Ptr Expression)
    (hi : SameIn ls init init') (hlevel : init.Level P)
    (hb : ∀ l, SameIn (l :: ls) blk (blk' l)) :
    SameIn ls (forCode init cond every blk) (forCodeIn init' cond every blk') :=
  hi.bind hlevel fun _ => level_createBlock.next fun _ => level_createBlock.next fun _ =>
    level_createBlock.next fun _ => level_createBlock.next fun _ => sameIn_enterLoop fun _ =>
      (level_emitInstr _).next fun _ => (level_setInsertPoint _).next fun _ =>
        (level_loopCondition _ _ _).next fun _ => (level_setInsertPoint _).next fun _ =>
          (hb _).first

end

theorem sameIn_jumpCode (around : List Frame) (ls : List LoopContext) (t : JumpType) :
    SameIn ls (jumpCode around t) (jumpIn around ls.head? t) := by
  rintro c rfl
  cases t with
  | continueJump => rfl
  | breakJump => rfl

theorem sameIn_codeInAll_of {around : List Frame} {ls : List LoopContext} {ss : List Statement}
    (h : ∀ s ∈ ss, ∀ around ls, SameIn ls (s.codegen around) (s.codeIn around ls.head?)) :
    SameIn ls (codegenAll around ss) (codeInAll around ls.head? ss) := by
  induction ss with
  | nil => exact sameIn_refl _
  | cons s ss ih =>
    rw [List.forall_mem_cons] at h
    exact (h.1 around ls).bind (s.level_codegen around) fun _ => ih h.2

theorem sameIn_codeInInit_of {around : List Frame} {ls : List LoopContext} {init : Ptr Statement}
    (h : ∀ s, init = .to s → ∀ around ls, SameIn ls (s.codegen around) (s.codeIn around ls.head?)) :
    SameIn ls (codegenInit around init) (codeInInit around ls.head? init) := by
  rcases init with _ | _ | s
  · exact sameIn_refl _
  · exact sameIn_refl _
  · exact h s rfl around ls

theorem level_codegenInit (around : List Frame) (init : Ptr Statement) :
    (codegenInit around init).Level (strayInit init = false) := by
  rcases init with _ | _ | s
  · exact (levelRules.pure _).mono fun _ => rfl
  · exact (levelRules.fail _).mono fun _ => rfl
  · exact s.level_codegen around

theorem level_codegenAll (around : List Frame) (ss : List Statement) :
    (codegenAll around ss).Level (strayAll ss = false) :=
  level_codegenAll_of fun s _ => s.level_codegen

/-- The loop handed down is the one on top of the stack. -/
theorem Statement.sameIn_codeIn (s : Statement) (around : List Frame) (ls : List LoopContext) :
    SameIn ls (s.codegen around) (s.codeIn around ls.head?) := by
  induction s using Statement.induction generalizing around ls with
  | block ss hss => exact sameIn_codeInAll_of hss
  | transaction isolation ss hss =>
    exact sameIn_transactionCode around (sameIn_codeInAll_of hss)
  | forStmt init cond every blk hinit hblk =>
    have hblk' (l : LoopContext) :
        SameIn (l :: ls) (codegenAll (.loop :: around) blk)
          (codeInAll (.loop :: around) (l :: ls).head? blk) :=
      sameIn_codeInAll_of hblk
    rw [codegen, codeIn]
    exact sameIn_forCode cond every (sameIn_codeInInit_of hinit) (level_codegenInit around init) hblk'
  | jump t => exact sameIn_jumpCode around ls t
  | scan x r blk frame hblk => exact sameIn_scanCode x r frame (sameIn_codeInAll_of hblk)
  | ifStmt cond ts fs hts hfs =>
    have helse : SameIn ls (codegenElse around fs) (codeInElse around ls.head? fs) := by
      cases fs with
      | none => exact sameIn_refl _
      | some fs => exact sameIn_codeInAll_of (hfs fs rfl)
    exact sameIn_ifCode (levelRules.getValue cond) (sameIn_codeInAll_of hts)
      (level_codegenAll around ts) helse
  | define schema name => exact sameIn_refl _
  | emit stack e => exact sameIn_refl _
  | insert x e frame => exact sameIn_refl _
  | letStmt name e type => exact sameIn_refl _
  | defineTuple name type => exact sameIn_refl _
  | exprStatement stack e => exact sameIn_refl _

theorem codeInAll_none_of {ss : List Statement}
    (h : ∀ s ∈ ss, s.stray = false → ∀ around loop, s.codeIn around loop = s.codeIn around none)
    (hss : strayAll ss = false) (around : List Frame) (loop : Option LoopContext) :
    codeInAll around loop ss = codeInAll around none ss := by
  induction ss with
  | nil => rfl
  | cons s ss ih =>
    rw [List.forall_mem_cons] at h
    rw [strayAll, Bool.or_eq_false_iff] at hss
    rw [codeInAll, codeInAll, h.1 hss.1 around loop, ih h.2 hss.2]

/-- What is outside of the statement does not matter to its jumps. -/
theorem Statement.codeIn_none {s : Statement} (h : s.stray = false) (around : List Frame)
    (loop : Option LoopContext) : s.codeIn around loop = s.codeIn around none := by
  induction s using Statement.induction generalizing around loop with
  | block ss hss => exact codeInAll_none_of (fun s hs h => hss s hs h) h _ loop
  | transaction isolation ss hss =>
    rw [codeIn, codeIn, codeInAll_none_of (fun s hs h => hss s hs h) h _ loop]
  | forStmt init cond every blk hinit hblk =>
    rcases init with _ | _ | s
    · rfl
    · rfl
    · have hs : s.codeIn around loop = s.codeIn around none := hinit s rfl h around loop
      rw [codeIn, codeIn, codeInInit, codeInInit, hs]
  | jump t => exact absurd h (by simp [stray])
  | scan x r blk frame hblk =>
    rw [codeIn, codeIn, codeInAll_none_of (fun s hs h => hblk s hs h) h _ loop]
  | ifStmt cond ts fs hts hfs =>
    rw [stray, Bool.or_eq_false_iff] at h
    have hthen := codeInAll_none_of (fun s hs h => hts s hs h) h.1 around loop
    cases fs with
    | none => rw [codeIn, codeIn, hthen, codeInElse, codeInElse]
    | some fs =>
      have helse := codeInAll_none_of (fun s hs h => hfs fs rfl s hs h) h.2 around loop
      rw [codeIn, codeIn, hthen, codeInElse, codeInElse, helse]
  | define schema name => rfl
  | emit stack e => rfl
  | insert x e frame => rfl
  | letStmt name e type => rfl
  | defineTuple name type => rfl
  | exprStatement stack e => rfl

/-- The code of a statement leaves the stack of loops as it is, and where every jump is in the body
of a `for`, each goes to the blocks of the innermost `for` around it. -/
theorem codegen_bindsInnermost (s : Statement) (around : List Frame) :
    Keeps Ctx.loops (s.codegen around) ∧
      (s.stray = false → ∀ c, (s.codegen around).run c = (s.codeIn around none).run c) := by
  constructor
  · intro c u c' hrun
    exact (s.level_codegen around hrun).1
  · intro h c
    rw [s.sameIn_codeIn around c.loops c rfl, Statement.codeIn_none h]

/-- `for 1 ; 1 ; 1 { break }` -/
def bodyBreak : Statement :=
  .forStmt (.to (.exprStatement none (.primary {} (some (.int 1)))))
    (.to (.primary {} (some (.int 1)))) (.to (.primary {} (some (.int 1)))) [.jump .breakJump]

theorem codegen_bindsInnermost_bodyBreak : Keeps Ctx.loops (bodyBreak.codegen []) ∧
    ∀ c, (bodyBreak.codegen []).run c = (bodyBreak.codeIn [] none).run c :=
  ⟨(codegen_bindsInnermost bodyBreak []).1, (codegen_bindsInnermost bodyBreak []).2 rfl⟩

/-- `for break ; 1 ; 1 { }`: its only jump lies in the first part of its header. -/
def initBreak : Statement :=
  .forStmt (.to (.jump .breakJump)) (.to (.primary {} (some (.int 1))))
    (.to (.primary {} (some (.int 1)))) []

/-- The first part of a header comes before the loop: the jump finds no loop, and in the body of
another `for` it leaves that one, with block 4 behind it, and not its own, with block 8. -/
theorem initBreak_not_bound :
    (initBreak.codegen []).run Ctx.initial = .error ⟨.undefined, []⟩ ∧
      ∃ c, ((Statement.forStmt .null .null .null [initBreak]).codegen []).run Ctx.initial.newBlock =
        .ok ((), c) ∧ c.blocks[2]? = some [.br ⟨.jump [.loop], 0⟩ 4, .br ⟨.forStmt, 0⟩ 5] := by
  refine ⟨rfl, _, rfl, ?_⟩
  decide

end Reir
