import Reir.Emission
import Reir.Erasure

/-! The control flow of generated code. Every construct closes the block that its parts have
left current; a `Jump` has closed it before, and a `For` without a condition leaves the block
of its test without a branch. -/
namespace Reir
open BlockGraph

/-- One terminator, at the end. -/
abbrev BlockTerminated (b : List Instr) : Prop := Terminated Instr.isTerminator b

namespace Gen
variable {α β : Type}

/-- The code of a step forms a region, clean under the condition `P`. -/
def Builds (p : Gen α) (P : Prop) : Prop :=
  ∀ ⦃c a c'⦄, c.graph.cur < c.graph.size → p.run c = .ok (a, c') →
    Region c.graph c'.graph ∧ (Clean Instr.isTerminator c.graph c'.graph ↔ P)

theorem Builds.bind {p : Gen α} {f : α → Gen β} {P Q : Prop} (hp : p.Builds P)
    (hf : ∀ a, (f a).Builds Q) : (p >>= f).Builds (P ∧ Q) := by
  intro c b c' hc h
  obtain ⟨a, c₁, h₁, h₂⟩ := bind_eq_ok.mp h
  obtain ⟨hr₁, hc₁⟩ := hp hc h₁
  obtain ⟨hr₂, hc₂⟩ := hf a hr₁.valid h₂
  refine ⟨hr₁.trans hr₂, ?_⟩
  rw [clean_trans hc hr₁ hr₂, hc₁, hc₂]

theorem Builds.congr {p : Gen α} {P Q : Prop} (hp : p.Builds P) (h : P ↔ Q) : p.Builds Q := by
  intro c a c' hc hrun
  rw [← h]
  exact hp hc hrun

theorem Builds.seq {p : Gen α} {f : α → Gen β} {Q : Prop} (hp : p.Builds True)
    (hf : ∀ a, (f a).Builds Q) : (p >>= f).Builds Q :=
  (hp.bind hf).congr (iff_of_eq (true_and Q))

/-- A step that leaves the function alone. -/
theorem builds_of_graph_eq {p : Gen α} (h : ∀ c a c', p.run c = .ok (a, c') → c'.graph = c.graph) :
    p.Builds True := by
  intro c a c' hc hrun
  rw [h c a c' hrun]
  exact ⟨Region.refl hc, iff_of_true (clean_refl _) trivial⟩

theorem builds_pure (a : α) : (Pure.pure a : Gen α).Builds True := by
  apply builds_of_graph_eq
  intro c b c' h
  obtain ⟨-, rfl⟩ := pure_eq_ok.mp h
  rfl

theorem builds_fail (e : CompileError) (P : Prop) : (fail e : Gen α).Builds P := by
  intro c a c' _ h
  exact absurd h (by simp)

theorem builds_get : get.Builds True := by
  apply builds_of_graph_eq
  intro c b c' h
  obtain ⟨-, rfl⟩ := get_eq_ok.mp h
  rfl

theorem builds_require (e : CompileError) (o : Option α) : (require e o).Builds True := by
  apply builds_of_graph_eq
  intro c b c' h
  obtain ⟨-, rfl⟩ := require_eq_ok.mp h
  rfl

theorem builds_modify {g : Ctx → Ctx} (h : ∀ c, (g c).graph = c.graph) : (modify g).Builds True := by
  apply builds_of_graph_eq
  intro c u c' hrun
  obtain rfl := modify_eq_ok.mp hrun
  exact h c

end Gen

open Gen

theorem append_region {c : Ctx} (hc : c.graph.cur < c.graph.size) (i : Instr) :
    Region c.graph (c.append i).graph ∧
      (Clean Instr.isTerminator c.graph (c.append i).graph ↔ i.isTerminator = false) :=
  ⟨Region.append hc i, clean_append hc i⟩

theorem append_straight {c : Ctx} (hc : c.graph.cur < c.graph.size) {i : Instr}
    (h : i.isTerminator = false) : Region c.graph (c.append i).graph ∧
      (Clean Instr.isTerminator c.graph (c.append i).graph ↔ True) := by
  have hr := append_region hc i
  rwa [iff_true_intro h] at hr

theorem builds_emitInstr (i : Instr) : (emitInstr i).Builds (i.isTerminator = false) := by
  intro c u c' hc h
  obtain rfl := emitInstr_eq_ok.mp h
  exact append_region hc i

theorem builds_emitResult {mk : ℕ → Instr} (h : ∀ d, (mk d).isTerminator = false) (ty : LLType) :
    (emitResult mk ty).Builds True := by
  intro c v c' hc hrun
  obtain ⟨-, rfl⟩ := emitResult_eq_ok.mp hrun
  exact append_straight hc (h c.nextReg)

theorem builds_emitLoad (p : LLValue) (ty : LLType) : (emitLoad p ty).Builds True := by
  intro c v c' hc hrun
  obtain ⟨-, rfl⟩ := emitLoad_eq_ok.mp hrun
  exact append_straight (i := .load c.nextReg p) hc rfl

theorem builds_createAlloca (ty : LLType) : (createAlloca ty).Builds True := by
  intro c v c' hc hrun
  obtain ⟨-, rfl⟩ := createAlloca_eq_ok.mp hrun
  exact append_straight (i := .alloca c.slots.length) hc rfl

theorem builds_straight {i : Instr} (h : i.isTerminator = false) : (emitInstr i).Builds True :=
  (builds_emitInstr i).congr (iff_true_intro h)

theorem builds_toI1 (v : LLValue) : (toI1 v).Builds True := by
  unfold toI1
  split_ifs
  · exact builds_pure v
  · exact builds_emitResult (fun _ => rfl) _

/-- A fork of the function from `a`, whose blocks but for the pending ones are finished under
the condition `P`. -/
structure Branch (a : Cfg Instr) (c : Ctx) (pending : List ℕ) (P : Prop) : Prop where
  fork : Fork a c.graph pending
  filled : Filled Instr.isTerminator a c.graph pending ↔ P

section
variable {α : Type} {a : Cfg Instr} {c c₁ c₂ c₃ : Ctx} {p : Gen α} {v : α} {P Q : Prop}
  {x : Instr} {i : ℕ} {pending : List ℕ}

theorem Branch.start (ha : a.cur < a.size) (hp : p.Builds P)
    (hc : c.graph = a.reserve pending.length) (hpending : pending = List.range' a.size pending.length)
    (h : p.run c = .ok (v, c₁)) (happ : c₁.append x = c₂) (hx : x.isTerminator = true) :
    Branch a c₂ pending P := by
  have hcur : c.graph.cur < c.graph.size := by
    rw [hc, Cfg.reserve_cur, Cfg.reserve_size]
    omega
  obtain ⟨hr, hclean⟩ := hp hcur h
  rw [hc] at hr hclean
  rw [hpending, ← happ]
  exact ⟨Fork.start ha hr x, (filled_start ha hr hx).trans hclean⟩

theorem Branch.fill (hb : Branch a c (i :: pending) P) (ha : a.cur < a.size) (hi : i ∉ pending)
    (hp : p.Builds Q) (hmove : c.moveTo i = c₁) (h : p.run c₁ = .ok (v, c₂))
    (happ : c₂.append x = c₃) (hx : x.isTerminator = true) : Branch a c₃ pending (P ∧ Q) := by
  subst hmove happ
  have hcur : i < c.graph.size := (hb.fork.pending_new i List.mem_cons_self).2.1
  obtain ⟨hr, hclean⟩ := hp (c := c.moveTo i) hcur h
  refine ⟨hb.fork.fill hi hr x, ?_⟩
  rw [← hb.filled, ← hclean]
  exact hb.fork.filled_fill hi ha hr hx

/-- A reserved block that gets no code. -/
theorem Branch.drop (hb : Branch a c (i :: pending) P) (hi : i ∉ pending) :
    Branch a c pending False :=
  ⟨hb.fork.drop, iff_false_intro (hb.fork.not_filled_drop hi)⟩

theorem Branch.close (hb : Branch a c [i] P) (hmove : c.moveTo i = c₁) :
    Region a c₁.graph ∧ (Clean Instr.isTerminator a c₁.graph ↔ P) := by
  subst hmove
  exact ⟨hb.fork.close, hb.fork.clean_close.trans hb.filled⟩

/-- The insert point does not matter while blocks are pending. -/
theorem Branch.moveTo (hb : Branch a c pending P) (j : ℕ) : Branch a (c.moveTo j) pending P :=
  ⟨hb.fork.moveTo j, hb.filled⟩

end

@[simp] theorem newBlock_graph (c : Ctx) : c.newBlock.graph = c.graph.reserve 1 := rfl

@[simp] theorem popLoop_graph (c : Ctx) : c.popLoop.graph = c.graph := rfl

theorem builds_registerRow (ts : List LLType) : (registerRow ts).Builds True := by
  apply Builds.seq
  · apply builds_modify
    intro c
    split_ifs <;> rfl
  · intro _
    exact builds_pure _

theorem builds_conditionalValue {forAnd : Bool} {lhs rhs : Gen LLValue} (hl : lhs.Builds True)
    (hr : rhs.Builds True) : (conditionalValue forAnd lhs rhs).Builds True := by
  intro c v c' hc h
  simp only [conditionalValue, createCondBr, createBr, bind_eq_ok, createBlock_eq_ok,
    emitInstr_eq_ok, getInsertBlock_eq_ok, setInsertPoint_eq_ok] at h
  obtain ⟨next, _, ⟨hnext, rfl⟩, fin, _, ⟨hfin, rfl⟩, lv, c₁, hlv, lh, c₂, hlh, _, c₃, hcond,
    _, _, ⟨-, rfl⟩, _, c₄, hmove, rv, c₅, hrv, rh, c₆, hrh, _, c₇, hbr, _, _, ⟨-, rfl⟩,
    _, c₈, hlast, hphi⟩ := h
  rw [Ctx.newBlock_length] at hfin
  have hlhs : (lhs >>= toI1).Builds True := hl.seq builds_toI1
  have hrhs : (rhs >>= toI1).Builds True := hr.seq builds_toI1
  have hpend : [next, fin] = List.range' c.graph.size 2 := by
    rw [← hnext, ← hfin]
    rfl
  have hstart := Branch.start hc hlhs (by simp) hpend (bind_eq_ok.mpr ⟨lv, c₁, hlv, hlh⟩) hcond rfl
  have hfill := hstart.fill hc (by simp; omega) hrhs hmove (bind_eq_ok.mpr ⟨rv, c₅, hrv, hrh⟩)
    hbr rfl
  obtain ⟨hr₁, hc₁⟩ := hfill.close hlast
  obtain ⟨hr₂, hc₂⟩ := builds_emitResult (fun _ => rfl) _ hr₁.valid hphi
  refine ⟨hr₁.trans hr₂, ?_⟩
  rw [clean_trans hc hr₁ hr₂, hc₁, hc₂]
  simp

theorem buildsRules : Rules fun p => p.Builds True where
  pure := builds_pure
  fail := fun e => builds_fail e True
  get := builds_get
  require := builds_require
  bind := Builds.seq
  registerRow := builds_registerRow
  emitInstr := fun _ h => builds_straight h
  emitResult := fun _ ty h => builds_emitResult h ty
  emitLoad := builds_emitLoad
  conditionalValue := builds_conditionalValue

theorem builds_createScanRow (rowName : Text) (ts : List LLType) :
    (createScanRow rowName ts).Builds True := by
  apply builds_of_graph_eq
  intro c t c' h
  simp only [createScanRow, Except.ok.injEq, Prod.mk.injEq] at h
  rw [← h.2]
  rfl

theorem buildsPassRules : PassRules fun p => p.Builds True where
  toLookupRules := buildsRules.toLookupRules
  createAlloca := builds_createAlloca
  setVar := fun _ _ => builds_modify (by intro _; rfl)
  setAnalyzeType := fun _ _ => builds_modify (by intro _; rfl)
  setSchema := fun _ _ => builds_modify (by intro _; rfl)
  created := fun _ => builds_modify (by intro _; rfl)
  createScanRow := builds_createScanRow

mutual

/-- No jumps, and a condition in every `For`. -/
def Statement.regular : Statement → Bool
  | .block ss => regularAll ss
  | .transaction _ ss => regularAll ss
  | .forStmt init cond _ blk => regularInit init && cond.isTo && regularAll blk
  | .jump _ => false
  | .scan _ _ blk _ => regularAll blk
  | .ifStmt _ ts fs => regularAll ts && regularElse fs
  | _ => true

def regularInit : Ptr Statement → Bool
  | .to s => s.regular
  | _ => true

def regularElse : Option (List Statement) → Bool
  | some ss => regularAll ss
  | none => true

def regularAll : List Statement → Bool
  | [] => true
  | s :: ss => s.regular && regularAll ss

end

attribute [local simp] Statement.regular regularAll

theorem builds_ifCode {cond : Gen LLValue} {trueCode falseCode : Gen Unit} {P Q : Prop}
    (hcond : cond.Builds True) (ht : trueCode.Builds P) (hf : falseCode.Builds Q) :
    (ifCode cond trueCode falseCode).Builds (P ∧ Q) := by
  intro c u c' hc h
  simp only [ifCode, createCondBr, createBr, bind_eq_ok, createBlock_eq_ok, emitInstr_eq_ok,
    setInsertPoint_eq_ok] at h
  obtain ⟨tb, _, ⟨htb, rfl⟩, fb, _, ⟨hfb, rfl⟩, fin, _, ⟨hfin, rfl⟩, v, c₁, hv, w, c₂, hw,
    _, c₃, hbr, _, c₄, hmove, _, c₅, htrue, _, c₆, hbr', _, c₇, hmove', _, c₈, hfalse,
    _, c₉, hbr'', hlast⟩ := h
  simp only [Ctx.newBlock_length] at hfb hfin
  have hpend : [tb, fb, fin] = List.range' c.graph.size 3 := by
    rw [← htb, ← hfb, ← hfin]
    rfl
  have hstart := Branch.start hc (hcond.seq builds_toI1) (by simp) hpend
    (bind_eq_ok.mpr ⟨v, c₁, hv, hw⟩) hbr rfl
  have hfill := hstart.fill hc (by simp; omega) ht hmove htrue hbr' rfl
  have hfill' := hfill.fill hc (by simp; omega) hf hmove' hfalse hbr'' rfl
  simpa using hfill'.close hlast

/-- The block of the test is finished by its branch, or is left empty. -/
theorem Branch.loopCondition {a : Cfg Instr} {c c₁ c₂ : Ctx} {cond : Ptr Expression} {u : Unit}
    {begin body finish : ℕ} {pending : List ℕ} {P : Prop} (hb : Branch a c (begin :: pending) P)
    (ha : a.cur < a.size) (hi : begin ∉ pending) (hmove : c.moveTo begin = c₁)
    (h : (loopCondition cond body finish).run c₁ = .ok (u, c₂)) :
    Branch a c₂ pending (P ∧ cond.isTo = true) := by
  unfold Reir.loopCondition at h
  split at h
  · obtain ⟨-, rfl⟩ := pure_eq_ok.mp h
    have hdrop := (hb.drop hi).moveTo begin
    rw [hmove] at hdrop
    simpa [Ptr.isTo] using hdrop
  · simp at h
  · obtain ⟨v, c₃, hv, hbr⟩ := bind_eq_ok.mp h
    have hfill := hb.fill ha hi (buildsRules.getValue _) hmove hv
      (emitInstr_eq_ok.mp hbr) rfl
    simpa [Ptr.isTo] using hfill

theorem builds_forCode {init blk : Gen Unit} {cond every : Ptr Expression} {P Q : Prop}
    (hinit : init.Builds P) (hblk : blk.Builds Q) :
    (forCode init cond every blk).Builds (P ∧ cond.isTo = true ∧ Q) := by
  refine hinit.bind fun _ => ?_
  intro c u c' hc h
  simp only [createBr, bind_eq_ok, createBlock_eq_ok, emitInstr_eq_ok, setInsertPoint_eq_ok,
    exitLoop_eq_ok] at h
  obtain ⟨begin, _, ⟨hbegin, rfl⟩, body, _, ⟨hbody, rfl⟩, next, _, ⟨hnext, rfl⟩,
    finish, _, ⟨hfinish, rfl⟩, _, c₁, hloop, _, c₂, hbr, _, c₃, hmove, _, c₄, hcond,
    _, c₅, hmove', _, c₆, hbody', _, c₇, hbr', _, c₈, hmove'', _, c₉, hevery, _, c₁₀, hbr'',
    _, c₁₁, hlast, rfl⟩ := h
  simp only [Ctx.newBlock_length] at hbody hnext hfinish
  have hpend : [begin, body, next, finish] = List.range' c.graph.size 4 := by
    rw [← hbegin, ← hbody, ← hnext, ← hfinish]
    rfl
  have henter : (enterLoop ⟨begin, body, next, finish⟩).Builds True :=
    builds_modify (by intro _; rfl)
  have hstart := Branch.start hc henter (by simp) hpend hloop hbr rfl
  have htest := hstart.loopCondition hc (by simp; omega) hmove hcond
  have hfill := htest.fill hc (by simp; omega) hblk hmove' hbody' hbr' rfl
  have hfill' := hfill.fill hc (by simp; omega) (buildsRules.loopEvery every) hmove'' hevery hbr'' rfl
  rw [popLoop_graph]
  simpa using hfill'.close hlast

theorem builds_jumpCode (around : List Frame) (t : JumpType) : (jumpCode around t).Builds False :=
  builds_get.seq fun _ => (builds_require _ _).seq fun _ =>
    (builds_emitInstr _).congr (by simp [Instr.isTerminator])

theorem builds_scanCode (table rowName : Text) (frame : ScanFrame) {blk : Gen Unit} {P : Prop}
    (hblk : blk.Builds P) : (scanCode table rowName frame blk).Builds P := by
  refine (buildsRules.lookupSchema _ _).seq fun s => builds_get.seq fun _ =>
    (builds_require _ _).seq fun rowType => (buildsRules.scanCursor s frame).seq fun cursor => ?_
  intro c u c' hc h
  simp only [createBr, createCondBr, bind_eq_ok, createBlock_eq_ok, emitInstr_eq_ok,
    setInsertPoint_eq_ok] at h
  obtain ⟨check, _, ⟨hcheck, rfl⟩, begin, _, ⟨hbegin, rfl⟩, fin, _, ⟨hfin, rfl⟩,
    _, c₁, hbr, _, c₂, hmove, valid, c₃, hvalid, cond, c₄, hcond, _, c₅, hbr', _, c₆, hmove',
    _, c₇, hrow, _, c₈, hbody, _, c₉, hnext, _, c₁₀, hbr'', _, c₁₁, hlast, hdestroy⟩ := h
  simp only [Ctx.newBlock_length] at hbegin hfin
  have hpend : [check, begin, fin] = List.range' c.graph.size 3 := by
    rw [← hcheck, ← hbegin, ← hfin]
    rfl
  have hstart := Branch.start hc (builds_pure ()) (by simp) hpend (pure_eq_ok.mpr ⟨rfl, rfl⟩) hbr rfl
  have htest := hstart.fill hc (by simp; omega)
    ((buildsRules.createCall _ _ _).seq fun valid => buildsRules.createICmp .eq valid (int1 true)) hmove
    (bind_eq_ok.mpr ⟨valid, c₃, hvalid, hcond⟩) hbr' rfl
  have hloop : (do
      scanRow s rowType frame cursor
      blk
      createCall ⟨.scan, 0⟩ (text "__cursor_next") [cursor]).Builds P :=
    (buildsRules.scanRow _ _ _ _).seq fun _ =>
      (hblk.bind fun _ => buildsRules.createCall _ _ _).congr (iff_of_eq (and_true P))
  have hfill := htest.fill hc (by simp; omega) hloop hmove'
    (bind_eq_ok.mpr ⟨_, _, hrow, bind_eq_ok.mpr ⟨_, _, hbody, hnext⟩⟩) hbr'' rfl
  obtain ⟨hr₁, hc₁⟩ := hfill.close hlast
  have hdone := (buildsRules.createCall ⟨.scan, 0⟩ (text "__cursor_destroy") [cursor]).seq
    fun _ => builds_pure ()
  obtain ⟨hr₂, hc₂⟩ := hdone hr₁.valid (bind_eq_ok.mpr hdestroy)
  refine ⟨hr₁.trans hr₂, ?_⟩
  rw [clean_trans hc hr₁ hr₂, hc₁, hc₂]
  simp

theorem builds_transactionCode (around : List Frame) {blk : Gen Unit} {P : Prop} (hblk : blk.Builds P) :
    (transactionCode around blk).Builds P :=
  (buildsRules.createCall _ _ _).seq fun _ => (hblk.bind fun _ => (buildsRules.createCall _ _ _).seq
    fun _ => builds_pure _).congr (iff_of_eq (and_true P))

theorem builds_codegenAll {around : List Frame} {ss : List Statement}
    (h : ∀ s ∈ ss, ∀ around, (s.codegen around).Builds (s.regular = true)) :
    (codegenAll around ss).Builds (regularAll ss = true) := by
  induction ss with
  | nil => exact (builds_pure _).congr (by simp [regularAll])
  | cons s ss ih =>
    rw [List.forall_mem_cons] at h
    exact ((h.1 around).bind fun _ => ih h.2).congr (by simp [regularAll])

/-- The code of a statement is clean exactly when the statement is regular. -/
theorem Statement.builds_codegen (s : Statement) (around : List Frame) :
    (s.codegen around).Builds (s.regular = true) := by
  induction s using Statement.induction generalizing around with
  | block ss hss => exact builds_codegenAll hss
  | transaction isolation ss hss => exact builds_transactionCode around (builds_codegenAll hss)
  | define schema name => exact (builds_pure _).congr (by simp [Statement.regular])
  | forStmt init cond every blk hinit hblk =>
    have hcode : (codegenInit around init).Builds (regularInit init = true) :=
      match init, hinit with
      | .null, _ => (builds_pure _).congr (by simp [regularInit])
      | .uninit, _ => builds_fail _ _
      | .to s, hinit => hinit s rfl around
    exact (builds_forCode hcode (builds_codegenAll hblk)).congr (by
      simp [Statement.regular, and_assoc])
  | jump t => exact (builds_jumpCode around t).congr (by simp [Statement.regular])
  | emit stack e => exact (buildsRules.emitCode _ _).congr (by simp [Statement.regular])
  | insert table e frame => exact (buildsRules.insertCode _ _ _).congr (by simp [Statement.regular])
  | scan table rowName blk frame hblk => exact builds_scanCode _ _ _ (builds_codegenAll hblk)
  | letStmt name e type => exact (buildsRules.letCode _ _).congr (by simp [Statement.regular])
  | defineTuple name type => exact (builds_pure _).congr (by simp [Statement.regular])
  | ifStmt cond ts fs hts hfs =>
    have helse : (codegenElse around fs).Builds (regularElse fs = true) := by
      cases fs with
      | none => exact (builds_pure _).congr (by simp [regularElse])
      | some fs => exact builds_codegenAll (hfs fs rfl)
    exact (builds_ifCode (buildsRules.getValue cond) (builds_codegenAll hts) helse).congr (by
      simp [Statement.regular])
  | exprStatement stack e =>
    exact ((buildsRules.getValue e).seq fun _ => builds_pure _).congr (by simp [Statement.regular])

theorem Ptr.isTo_erase (p : Ptr Expression) : p.erase.isTo = p.isTo :=
  match p with
  | .null => rfl
  | .uninit => rfl
  | .to _ => rfl

theorem regularAll_erase_of {ss : List Statement} (h : ∀ s ∈ ss, s.erase.regular = s.regular) :
    regularAll (eraseAll ss) = regularAll ss := by
  induction ss with
  | nil => rfl
  | cons s ss ih =>
    rw [List.forall_mem_cons] at h
    simp [eraseAll, regularAll, h.1, ih h.2]

theorem Statement.regular_erase (s : Statement) : s.erase.regular = s.regular := by
  induction s using Statement.induction with
  | block ss hss => exact regularAll_erase_of hss
  | transaction isolation ss hss => exact regularAll_erase_of hss
  | forStmt init cond every blk hinit hblk =>
    have hinit' : regularInit (eraseInit init) = regularInit init :=
      match init, hinit with
      | .null, _ => rfl
      | .uninit, _ => rfl
      | .to s, hinit => hinit s rfl
    simp [Statement.erase, Statement.regular, hinit', cond.isTo_erase, regularAll_erase_of hblk]
  | scan table rowName blk frame hblk => exact regularAll_erase_of hblk
  | ifStmt cond ts fs hts hfs =>
    have helse : regularElse (eraseElse fs) = regularElse fs := by
      cases fs with
      | none => rfl
      | some fs => exact regularAll_erase_of (hfs fs rfl)
    simp [Statement.erase, Statement.regular, regularAll_erase_of hts, helse]
  | _ => rfl

theorem regularAll_congr {ss ss' : List Statement} (h : eraseAll ss' = eraseAll ss) :
    regularAll ss' = regularAll ss := by
  rw [← regularAll_erase_of fun s _ => s.regular_erase, h,
    regularAll_erase_of fun s _ => s.regular_erase]

/-- A region that starts from an empty block and ends in a terminator makes up the function. -/
theorem function_terminated_iff {a b : Cfg Instr} (ha : a = ⟨[[]], 0⟩) (h : Region a b)
    {x : Instr} (hx : x.isTerminator = true) :
    (∀ blk ∈ (b.append x).blocks, BlockTerminated blk) ↔ Clean Instr.isTerminator a b := by
  have hcode : ∀ i, a.code i = [] := by
    intro i
    subst ha
    cases i with
    | zero => rfl
    | succ i => rfl
  have hadd : ∀ i, added a (b.append x) i = (b.append x).code i := by
    intro i
    simp [added, hcode]
  have hsize : 0 < b.size := by
    have := h.grows.size_le
    subst ha
    exact this
  rw [← sealed_iff h hx]
  constructor
  · intro hall i hi
    have hlt : i < (b.append x).blocks.length := by
      have hlen := Cfg.append_size b x
      rw [Cfg.size] at hlen
      rcases hi with hi | hi
      · subst ha
        rw [hi, hlen]
        exact hsize
      · omega
    rw [hadd]
    have := hall _ (List.getElem_mem hlt)
    simpa [Cfg.code, List.getD, hlt] using this
  · intro hs blk hmem
    obtain ⟨i, hlt, rfl⟩ := List.mem_iff_getElem.mp hmem
    have hown : Owns a b i := by
      have hlen := Cfg.append_size b x
      rw [Cfg.size] at hlen
      subst ha
      cases i with
      | zero => exact Or.inl rfl
      | succ i => exact Or.inr ⟨by change 1 ≤ i+1; omega, by omega⟩
    have := hs i hown
    rw [hadd] at this
    simpa [Cfg.code, List.getD, hlt] using this

/-- The blocks of a compiled program. -/
def compiledBlocks (ss : List Statement) : Option (List (List Instr)) :=
  match (compile ss).run Ctx.initial with
  | .ok (_, c) => some c.blocks
  | .error _ => none

/-- Every block of a compiled program has one terminator, at its end, exactly when the program
has no jumps and a condition in every `For`. -/
theorem compile_terminated_iff {ss : List Statement} {blocks : List (List Instr)}
    (h : compiledBlocks ss = some blocks) :
    (∀ b ∈ blocks, BlockTerminated b) ↔ regularAll ss = true := by
  unfold compiledBlocks at h
  split at h
  case h_2 => simp at h
  rename_i ss' c hcompile
  obtain rfl := Option.some.inj h
  obtain ⟨ss₁, c₁, hanalyze, hgen⟩ := bind_eq_ok.mp hcompile
  simp only [generate, bind_eq_ok, createBlock_eq_ok, setInsertPoint_eq_ok, emitInstr_eq_ok,
    pure_eq_ok] at hgen
  obtain ⟨_, _, ⟨rfl, rfl⟩, _, c₂, hc₂, ss₂, c₃, halloca, _, c₄, hcode, _, _, rfl, rfl, rfl⟩ := hgen
  have hregular₁ := regularAll_congr (analyzeAll_erase ss hanalyze)
  have hregular₂ := regularAll_congr (eachStatement_erase ss₁ halloca)
  have hempty : c₁.blocks = [] := congrArg Ctx.blocks (analyzeAll_keeps ss hanalyze)
  have hstart : c₂.graph = ⟨[[]], 0⟩ := by
    rw [← hc₂]
    simp [Ctx.graph, Ctx.moveTo, Ctx.newBlock, hempty]
  have hcur : c₂.graph.cur < c₂.graph.size := by
    rw [hstart]
    exact Nat.zero_lt_one
  have hbuild := buildsPassRules.eachStatement ss₁ hcur halloca
  have hbuild' := builds_codegenAll (fun s _ => s.builds_codegen) hbuild.1.valid hcode
  have hclean := clean_trans (t := Instr.isTerminator) hcur hbuild.1 hbuild'.1
  rw [hbuild.2, hbuild'.2, true_and, hregular₂, hregular₁] at hclean
  rw [← hclean]
  exact function_terminated_iff hstart (hbuild.1.trans hbuild'.1) rfl

/-- A loop inside of a scan, with a comparison that decides between an insertion and an emitted row. -/
def nestedProgram : List Statement :=
  let i : Expression := .variable {} (text "i")
  let x : Expression := .memberReference {} (.variable {} (text "r")) (text "x") none
  let int (v : BitVec 64) : Expression := .primary {} (some (.int v))
  [.define (some (.tuple .tuple [text "x"] [text "int"] [propKey] [none] [])) (text "t"),
    .scan (text "t") (text "r")
      [.forStmt (.to (.letStmt (text "i") (int 0) none)) (.to (.binary {} i .lessthan (int 3)))
        (.to (.assign {} i (.binary {} i .plus (int 1))))
        [.ifStmt (.binary {} i .lessthan x) [.insert (text "t") (.rowLiteral {} [i]) {}]
          (some [.emit none (.rowLiteral {} [x])])]] {}]

theorem compile_terminated_iff_nested :
    ∃ blocks, compiledBlocks nestedProgram = some blocks ∧
      ((∀ b ∈ blocks, BlockTerminated b) ↔ regularAll nestedProgram = true) := by
  have hsome : (compiledBlocks nestedProgram).isSome = true := by decide +kernel
  obtain ⟨blocks, h⟩ := Option.isSome_iff_exists.mp hsome
  exact ⟨blocks, h, compile_terminated_iff h⟩

/-- The program `loop_control.rir`: the block that its `break` has ended gets the branch to the
end of the `if` as well. -/
def loopControl : List Statement :=
  let x : Expression := .variable {} (text "x")
  let int (v : BitVec 64) : Expression := .primary {} (some (.int v))
  let call (f : Text) (arg : Expression) : Statement :=
    .exprStatement none (.functionCall {} (.variable {} f) [arg])
  [.forStmt (.to (.letStmt (text "x") (int 1) none)) (.to (.binary {} x .lessthan (int 100)))
    (.to (.assign {} x (.binary {} x .plus (int 1))))
    [.ifStmt (.binary {} x .lessthan (int 10)) [call (text "print_int") x] none,
      .ifStmt (.binary {} (int 30) .lessthan x)
        [call (text "print_string") (.primary {} (some (.varchar (text "x is bigger than 30\\n")))),
          .jump .breakJump] none]]

theorem loopControl_not_terminated :
    ∃ blocks, compiledBlocks loopControl = some blocks ∧ ¬∀ b ∈ blocks, BlockTerminated b :=
  ⟨_, rfl, by decide⟩

end Reir
