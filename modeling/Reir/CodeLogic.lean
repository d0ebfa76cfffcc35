import Reir.CodeLayout

/-! Pre- and postconditions for generating steps. A step meets its conditions if the code that it
emits does, in whatever function it ends up. Conditions speak of the data of the machine and of
the registers that have been given out; an index stands for what a precondition and a
postcondition have in common. -/
namespace Reir
open Gen BlockGraph StructuredCode

/-- The registers that have been given out, and the loads among them. -/
structure Emitted where
  nextReg : ℕ
  loads : List (ℕ × LLValue)

def Ctx.emitted (c : Ctx) : Emitted := ⟨c.nextReg, c.loads⟩

namespace Emitted

/-- One more register. -/
def succ (e : Emitted) : Emitted := ⟨e.nextReg+1, e.loads⟩

/-- One more register with the result of a load. -/
def load (e : Emitted) (p : LLValue) : Emitted := ⟨e.nextReg+1, (e.nextReg, p) :: e.loads⟩

end Emitted

/-- A branch gives out no register. -/
theorem branch_emitted (c : Ctx) (i : Instr) (b : ℕ) : ((c.append i).moveTo b).emitted = c.emitted := rfl

/-- An operand that refers to no register that is not given out yet. -/
def LLValue.Below (v : LLValue) (n : ℕ) : Prop := ∀ r, v.op = .reg r → r < n

theorem LLValue.Below.mono {v : LLValue} {m n : ℕ} (h : v.Below m) (hmn : m ≤ n) : v.Below n :=
  fun r hr => (h r hr).trans_le hmn

theorem Data.eval_congr {d d' : Data} {v : LLValue} {n : ℕ} (h : ∀ r < n, d'.regs r = d.regs r)
    (hv : v.Below n) : d'.eval v = d.eval v := by
  unfold Data.eval
  split
  case h_10 r hop => exact h r (hv r hop)
  all_goals rfl

section
variable {c c' : Ctx} {k : Code Instr Cond} {d d' : Data} {x : Exit} {j : Bool}

/-- Code leaves the registers alone that were given out before it. -/
theorem Laid.regs_eq (h : Laid j c c' k) (he : Exec machine k d x d') {r : ℕ} (hr : r < c.nextReg) :
    d'.regs r = d.regs r := by
  refine he.keeps (R := fun d d' => d'.regs r = d.regs r) h.sets k.tests_true (fun _ => rfl) ?_ ?_ ?_
  · intro d d₁ d₂ h₁ h₂
    exact h₂.trans h₁
  · intro i d d' hi hexec
    refine exec_regs hexec fun hdst => ?_
    have hle := (hi r hdst).1
    omega
  · intro v d b d' _ htest
    rw [(test_eq_some htest).2]
    rfl

theorem Laid.eval_eq (h : Laid j c c' k) (he : Exec machine k d x d') {v : LLValue}
    (hv : v.Below c.nextReg) : d'.eval v = d.eval v :=
  Data.eval_congr (fun _ hr => h.regs_eq he hr) hv

/-- Code without jumps comes to its end, if to any. -/
theorem Laid.done (h : Laid false c c' k) (he : Exec machine k d x d') : x.Done := by
  by_cases hx : x = .running
  · exact .inr hx
  · have harrives := he.arrives (s := ⟨c.point.block, c.point.pc, 0, d⟩)
      (h.layout c'.graph (Grows.refl _)) hx ⟨rfl, rfl⟩ rfl
    exact .inl harrives.eq_normal

end

/-- A step that leaves the function and its registers alone. -/
structure Ctx.Same (c c' : Ctx) : Prop where
  emits : Ctx.Emits c c'
  graph : c'.graph = c.graph
  loops : c'.loops = c.loops
  emitted : c'.emitted = c.emitted

theorem Ctx.Same.refl (c : Ctx) : c.Same c := ⟨Relation.ReflTransGen.refl, rfl, rfl, rfl⟩

theorem Ctx.Same.trans {c c₁ c₂ : Ctx} (h : c.Same c₁) (h' : c₁.Same c₂) : c.Same c₂ :=
  ⟨h.emits.trans h'.emits, h'.graph.trans h.graph, h'.loops.trans h.loops,
    h'.emitted.trans h.emitted⟩

def Gen.Quiet {α : Type} (p : Gen α) : Prop := ∀ ⦃c a c'⦄, p.run c = .ok (a, c') → c.Same c'

theorem quietRules : LookupRules Gen.Quiet where
  pure := by
    intro α a c b c' h
    obtain ⟨-, rfl⟩ := pure_eq_ok.mp h
    exact .refl c
  fail := by
    intro α e c b c' h
    exact absurd h (by simp)
  get := by
    intro c b c' h
    obtain ⟨-, rfl⟩ := get_eq_ok.mp h
    exact .refl c
  require := by
    intro α e o c b c' h
    obtain ⟨-, rfl⟩ := require_eq_ok.mp h
    exact .refl c
  bind := by
    intro α β p f hp hf c b c' h
    obtain ⟨a, c₁, h₁, h₂⟩ := bind_eq_ok.mp h
    exact (hp h₁).trans (hf a h₂)
  registerRow := by
    intro ts c t c' h
    have hemits := emits_registerRow ts h
    obtain ⟨u, c₁, h₁, h₂⟩ := bind_eq_ok.mp h
    obtain ⟨-, rfl⟩ := pure_eq_ok.mp h₂
    obtain rfl := modify_eq_ok.mp h₁
    refine ⟨hemits, ?_, ?_, ?_⟩
    all_goals
      split_ifs <;> rfl

section
variable {α : Type} {T : Ctx} {j : Bool}

theorem Gen.Quiet.lays {p : Gen α} (h : p.Quiet) :
    p.Lays T j fun c a c' k => p.run c = .ok (a, c') ∧ c'.emitted = c.emitted ∧ k = .skip := by
  intro c a c' _ _ hc hrun
  have hsame := h hrun
  exact ⟨.skip, Laid.of_graph_eq hc hsame.graph hsame.emits hsame.loops, hrun, hsame.emitted, rfl⟩

theorem lays_fail (e : CompileError) {P : Ctx → α → Ctx → Code Instr Cond → Prop} :
    (fail e : Gen α).Lays T j P := by
  intro c a c' _ _ _ hrun
  exact absurd hrun (by simp)

theorem lays_emitInstr {i : Instr} (hv : i.view = .plain) (hdst : i.dst = none) :
    (emitInstr i).Lays T j fun c _ c' k => c'.emitted = c.emitted ∧ k = .instr i := by
  intro c u c' _ _ hc hrun
  obtain rfl := emitInstr_eq_ok.mp hrun
  refine ⟨.instr i, Laid.append hc hv rfl (Ctx.Update.append c i).emits rfl ?_, rfl, rfl⟩
  intro r hr
  exact absurd hr (by simp [hdst])

theorem lays_emitResult {mk : ℕ → Instr} {ty : LLType} (hv : ∀ r, (mk r).view = .plain)
    (hdst : ∀ r, (mk r).dst = some r) : (emitResult mk ty).Lays T j fun c v c' k =>
      v = ⟨.reg c.nextReg, ty⟩ ∧ c'.emitted = c.emitted.succ ∧ k = .instr (mk c.nextReg) := by
  intro c v c' _ _ hc hrun
  obtain ⟨rfl, rfl⟩ := emitResult_eq_ok.mp hrun
  refine ⟨.instr (mk c.nextReg), Laid.append hc (hv _) rfl (Ctx.Update.result c _).emits rfl ?_,
    rfl, rfl, rfl⟩
  intro r hr
  rw [hdst] at hr
  obtain rfl := Option.mem_some_iff.mp hr
  exact ⟨le_rfl, Nat.lt_succ_self _⟩

theorem lays_emitLoad {p : LLValue} {ty : LLType} : (emitLoad p ty).Lays T j fun c v c' k =>
    v = ⟨.reg c.nextReg, ty⟩ ∧ c'.emitted = c.emitted.load p ∧ k = .instr (.load c.nextReg p) := by
  intro c v c' _ _ hc hrun
  obtain ⟨rfl, rfl⟩ := emitLoad_eq_ok.mp hrun
  refine ⟨.instr (.load c.nextReg p), Laid.append hc rfl rfl (Ctx.Update.loadFrom c p).emits rfl ?_,
    rfl, rfl, rfl⟩
  intro r hr
  obtain rfl := Option.mem_some_iff.mp hr
  exact ⟨le_rfl, Nat.lt_succ_self _⟩

/-- The insert point is in a block, wherever it is moved to in a fork. -/
theorem newBlocks_valid {c : Ctx} (hc : c.graph.cur < c.graph.size) :
    c.newBlock.graph.cur < c.newBlock.graph.size := by
  have hsize : c.newBlock.graph.size = c.graph.size+1 := Ctx.newBlock_length c
  rw [hsize]
  exact Nat.lt_succ_of_lt hc

theorem moveTo_valid {c c' : Ctx} {i : Instr} {b : ℕ} (hb : b < c.blocks.length)
    (h : Ctx.Emits c c') : ((c'.append i).moveTo b).graph.cur < ((c'.append i).moveTo b).graph.size := by
  have hlength := (h.step (.append c' i)).length_le
  exact hb.trans_le hlength

/-- The parts of a short-circuit operator, and what they were emitted with. -/
theorem lays_conditionalValue {forAnd : Bool} {lhs rhs : Gen LLValue}
    {P Q : Ctx → LLValue → Ctx → Code Instr Cond → Prop} (hl : (lhs >>= toI1).Lays T false P)
    (hr : (rhs >>= toI1).Lays T false Q) :
    (conditionalValue forAnd lhs rhs).Lays T false fun c v c' k =>
      ∃ a lh a' k₁ b rh b' k₂, P a lh a' k₁ ∧ Q b rh b' k₂ ∧ a.emitted = c.emitted ∧
        b.emitted = a'.emitted ∧ Ctx.Emits b b' ∧ v = ⟨.reg b'.nextReg, .i1⟩ ∧
        c'.emitted = b'.emitted.succ ∧
        k = .seq k₁ (.short forAnd (⟨.shortCircuit, 0⟩, lh) k₂ (.bitcast b'.nextReg lh)
          (.bitcast b'.nextReg rh)) := by
  intro c v c' hT hbelow hc hrun
  obtain ⟨lv, c₁, lh, c₂, rv, c₃, rh, c₄, h₁, h₂, h₃, h₄, rfl, rfl⟩ :=
    conditionalValue_eq_ok.mp hrun
  have hstart : Ctx.Emits c c.newBlock.newBlock :=
    ((Ctx.Update.newBlock c).emits).step (.newBlock _)
  obtain ⟨k₁, hk₁, hP⟩ := hl (hstart.tables_eq.trans hT) (hstart.loadsBelow hbelow)
    (newBlocks_valid (newBlocks_valid hc)) (bind_eq_ok.mpr ⟨lv, c₁, h₁, h₂⟩)
  have hemits := hstart.trans hk₁.emits
  have hbranch := hemits.trans (emits_branch c₂ (.condBr ⟨.shortCircuit, 0⟩ lh
    (if forAnd then c.blocks.length else c.blocks.length+1)
    (if forAnd then c.blocks.length+1 else c.blocks.length)) c.blocks.length)
  obtain ⟨k₂, hk₂, hQ⟩ := hr (hbranch.tables_eq.trans hT) (hbranch.loadsBelow hbelow)
    (moveTo_valid (by simp [Ctx.newBlock]) hk₁.emits) (bind_eq_ok.mpr ⟨rv, c₃, h₃, h₄⟩)
  refine ⟨_, Laid.shortCircuit (b := forAnd) rfl hc hk₁ rfl hk₂ rfl, _, lh, _, k₁, _, rh, _, k₂,
    hP, hQ, rfl, rfl, hk₂.emits, rfl, rfl, rfl⟩

/-- The parts of an `If`. -/
theorem lays_ifCode {cond : Gen LLValue} {trueCode falseCode : Gen Unit}
    {P : Ctx → LLValue → Ctx → Code Instr Cond → Prop} {Q R : Ctx → Unit → Ctx → Code Instr Cond → Prop}
    (hcond : (cond >>= toI1).Lays T false P) (ht : trueCode.Lays T true Q)
    (hf : falseCode.Lays T true R) :
    (ifCode cond trueCode falseCode).Lays T true fun c _ c' k =>
      ∃ a v a' k₁ b b' k₂ f f' k₃, P a v a' k₁ ∧ Q b () b' k₂ ∧ R f () f' k₃ ∧
        a.emitted = c.emitted ∧ b.emitted = a'.emitted ∧ f.emitted = b'.emitted ∧
        c'.emitted = f'.emitted ∧ k = .seq k₁ (.cond (⟨.ifStmt, 0⟩, v) k₂ k₃) := by
  intro c u c' hT hbelow hc hrun
  simp only [ifCode, createCondBr, createBr, bind_eq_ok, createBlock_eq_ok, emitInstr_eq_ok,
    setInsertPoint_eq_ok] at hrun
  obtain ⟨_, _, ⟨rfl, rfl⟩, _, _, ⟨rfl, rfl⟩, _, _, ⟨rfl, rfl⟩, v, c₁, hv, w, c₂, hw, _, _, rfl, _, _, rfl,
    _, c₃, htrue, _, _, rfl, _, _, rfl, _, c₄, hfalse, _, _, rfl, rfl⟩ := hrun
  simp only [Ctx.newBlock_length] at htrue hfalse ⊢
  have hstart := emits_newBlocks c
  obtain ⟨k₁, hk₁, hP⟩ := hcond (hstart.tables_eq.trans hT) (hstart.loadsBelow hbelow)
    (newBlocks_valid (newBlocks_valid (newBlocks_valid hc))) (bind_eq_ok.mpr ⟨v, c₁, hv, hw⟩)
  have hbranch := (hstart.trans hk₁.emits).trans (emits_branch c₂ (.condBr ⟨.ifStmt, 0⟩ w
    c.blocks.length (c.blocks.length+1)) c.blocks.length)
  have hsize : c.blocks.length+2 < c.newBlock.newBlock.newBlock.blocks.length := by
    simp [Ctx.newBlock]
  obtain ⟨k₂, hk₂, hQ⟩ := ht (hbranch.tables_eq.trans hT) (hbranch.loadsBelow hbelow)
    (moveTo_valid (by omega) hk₁.emits) htrue
  have hbranch' := (hbranch.trans hk₂.emits).trans (emits_branch c₃ (.br ⟨.ifStmt, 0⟩
    (c.blocks.length+1+1)) (c.blocks.length+1))
  have hemits : Ctx.Emits c.newBlock.newBlock.newBlock c₃ :=
    (hk₁.emits.trans (emits_branch _ _ _)).trans hk₂.emits
  obtain ⟨k₃, hk₃, hR⟩ := hf (hbranch'.tables_eq.trans hT) (hbranch'.loadsBelow hbelow)
    (moveTo_valid (by omega) hemits) hfalse
  exact ⟨_, Laid.ifStmt rfl hc hk₁ rfl hk₂ rfl hk₃ rfl, _, w, c₂, k₁, _, c₃, k₂, _, c₄, k₃, hP, hQ, hR,
    rfl, rfl, rfl, rfl, rfl⟩

/-- The loop part of a `Scan`, with the code of its test and of its body. -/
def scanLoop (test : Gen LLValue) (body : Gen Unit) : Gen Unit := do
  let check ← createBlock
  let begin ← createBlock
  let fin ← createBlock
  createBr ⟨.scan, 0⟩ check
  setInsertPoint check
  let cond ← test
  createCondBr ⟨.scan, 0⟩ cond begin fin
  setInsertPoint begin
  body
  createBr ⟨.scan, 0⟩ check
  setInsertPoint fin

theorem Gen.bind_assoc {α β γ : Type} (p : Gen α) (f : α → Gen β) (g : β → Gen γ) :
    p >>= f >>= g = p >>= fun a => f a >>= g := by
  change Gen.mk _ = Gen.mk _
  congr 1
  funext c
  cases h : p.run c with
  | ok r => simp [Gen.run_bind, h]
  | error e => simp [Gen.run_bind, h]

/-- A `Scan` is its loop between the creation of the cursor and its end. -/
theorem scanCode_eq (table rowName : Text) (frame : ScanFrame) (blk : Gen Unit) :
    scanCode table rowName frame blk = (do
      let s ← lookupSchema .undefined table
      let c ← Gen.get
      let rowType ← Gen.require .undefined (c.types rowName)
      let cursor ← scanCursor s frame
      scanLoop (do
          let valid ← createCall ⟨.scan, 0⟩ (text "__cursor_is_valid") [cursor]
          createICmp .eq valid (int1 true))
        (do
          scanRow s rowType frame cursor
          blk
          let _ ← createCall ⟨.scan, 0⟩ (text "__cursor_next") [cursor]
          Pure.pure ())
      let _ ← createCall ⟨.scan, 0⟩ (text "__cursor_destroy") [cursor]
      Pure.pure ()) := by
  simp only [scanCode, scanLoop, Gen.bind_assoc]
  rfl

theorem lays_scanLoop {test : Gen LLValue} {body : Gen Unit}
    {P : Ctx → LLValue → Ctx → Code Instr Cond → Prop} {Q : Ctx → Unit → Ctx → Code Instr Cond → Prop}
    (ht : test.Lays T false P) (hb : body.Lays T true Q) :
    (scanLoop test body).Lays T true fun c _ c' k =>
      ∃ a v a' k₁ b b' k₂, P a v a' k₁ ∧ Q b () b' k₂ ∧ a.emitted = c.emitted ∧
        b.emitted = a'.emitted ∧ Ctx.Emits a a' ∧ c'.emitted = b'.emitted ∧
        k = .loop k₁ (⟨.scan, 0⟩, v) k₂ := by
  intro c u c' hT hbelow hc hrun
  simp only [scanLoop, createCondBr, createBr, bind_eq_ok, createBlock_eq_ok, emitInstr_eq_ok,
    setInsertPoint_eq_ok] at hrun
  obtain ⟨_, _, ⟨rfl, rfl⟩, _, _, ⟨rfl, rfl⟩, _, _, ⟨rfl, rfl⟩, _, _, rfl, _, _, rfl, v, c₁, hv,
    _, _, rfl, _, _, rfl, _, c₂, hbody, _, _, rfl, rfl⟩ := hrun
  simp only [Ctx.newBlock_length] at hv hbody ⊢
  have hstart := (emits_newBlocks c).trans (emits_branch _ (.br ⟨.scan, 0⟩ c.blocks.length)
    c.blocks.length)
  have hsize : c.blocks.length+2 < c.newBlock.newBlock.newBlock.blocks.length := by
    simp [Ctx.newBlock]
  obtain ⟨k₁, hk₁, hP⟩ := ht (hstart.tables_eq.trans hT) (hstart.loadsBelow hbelow)
    (moveTo_valid (by omega) Relation.ReflTransGen.refl) hv
  have hbranch := (hstart.trans hk₁.emits).trans (emits_branch c₁ (.condBr ⟨.scan, 0⟩ v
    (c.blocks.length+1) (c.blocks.length+1+1)) (c.blocks.length+1))
  have hemits : Ctx.Emits c.newBlock.newBlock.newBlock c₁ :=
    (emits_branch _ _ _).trans hk₁.emits
  obtain ⟨k₂, hk₂, hQ⟩ := hb (hbranch.tables_eq.trans hT) (hbranch.loadsBelow hbelow)
    (moveTo_valid (by omega) hemits) hbody
  exact ⟨_, Laid.scanLoop rfl hc rfl hk₁ rfl hk₂ rfl, _, v, c₁, k₁, _, c₂, k₂, hP, hQ, rfl, rfl,
    hk₁.emits, rfl, rfl⟩

/-- The test of a `For` that has a condition. -/
theorem loopCondition_eq_ok {cond : Ptr Expression} {body finish : ℕ} {c c' : Ctx} {u : Unit}
    (hnull : cond ≠ .null) (h : (loopCondition cond body finish).run c = .ok (u, c')) :
    ∃ e v c₁, cond = .to e ∧ e.getValue.run c = .ok (v, c₁) ∧
      c₁.append (.condBr ⟨.forStmt, 0⟩ v body finish) = c' := by
  unfold loopCondition at h
  split at h
  case h_1 => exact absurd rfl hnull
  case h_2 => exact absurd h (by simp)
  case h_3 e =>
    obtain ⟨v, c₁, hv, hbr⟩ := bind_eq_ok.mp h
    exact ⟨e, v, c₁, rfl, hv, emitInstr_eq_ok.mp hbr⟩

theorem loopStart_length (c : Ctx) : c.loopStart.blocks.length = c.blocks.length+4 := by
  simp [Ctx.loopStart, Ctx.newBlock, Ctx.pushLoop]

/-- The part of a `For` behind its init part. -/
def forLoop (cond every : Ptr Expression) (blk : Gen Unit) : Gen Unit := do
  let begin ← createBlock
  let body ← createBlock
  let next ← createBlock
  let finish ← createBlock
  enterLoop ⟨begin, body, next, finish⟩
  createBr ⟨.forStmt, 0⟩ begin
  setInsertPoint begin
  loopCondition cond body finish
  setInsertPoint body
  blk
  createBr ⟨.forStmt, 0⟩ next
  setInsertPoint next
  loopEvery every
  createBr ⟨.forStmt, 0⟩ begin
  setInsertPoint finish
  exitLoop

theorem forLoop_eq_ok {cond every : Ptr Expression} {blk : Gen Unit} {c c' : Ctx} {u : Unit}
    (hnull : cond ≠ .null) (h : (forLoop cond every blk).run c = .ok (u, c')) :
    ∃ e v c₁ c₂ c₃, cond = .to e ∧
      e.getValue.run ((c.loopStart.append (.br ⟨.forStmt, 0⟩ c.blocks.length)).moveTo c.blocks.length) =
        .ok (v, c₁) ∧
      blk.run ((c₁.append (.condBr ⟨.forStmt, 0⟩ v (c.blocks.length+1) (c.blocks.length+3))).moveTo
        (c.blocks.length+1)) = .ok ((), c₂) ∧
      (loopEvery every).run ((c₂.append (.br ⟨.forStmt, 0⟩ (c.blocks.length+2))).moveTo
        (c.blocks.length+2)) = .ok ((), c₃) ∧
      ((c₃.append (.br ⟨.forStmt, 0⟩ c.blocks.length)).moveTo (c.blocks.length+3)).popLoop = c' := by
  simp only [forLoop, createBr, bind_eq_ok, createBlock_eq_ok, emitInstr_eq_ok,
    setInsertPoint_eq_ok, enterLoop_eq_ok, exitLoop_eq_ok] at h
  obtain ⟨begin, _, ⟨hbegin, rfl⟩, body, _, ⟨hbody, rfl⟩, next, _, ⟨hnext, rfl⟩, finish, _, ⟨hfinish, rfl⟩,
    _, _, hloop, _, _, hbr, _, _, hmove, _, c₁, htest, _, _, hmove', _, c₂, hblk, _, _, hbr', _, _, hmove'',
    _, c₃, hev, _, _, hbr'', _, _, hlast, hpop⟩ := h
  simp only [Ctx.newBlock_length] at hbody hnext hfinish
  subst hbegin hbody hnext hfinish hloop hbr hmove hmove' hbr' hmove'' hbr'' hlast hpop
  obtain ⟨e, v, c₄, hto, hv, rfl⟩ := loopCondition_eq_ok hnull htest
  exact ⟨e, v, c₄, c₂, c₃, hto, hv, hblk, hev, rfl⟩

/-- The parts of a `For`. -/
theorem lays_forLoop {blk : Gen Unit} {cond every : Ptr Expression}
    {Q R : Ctx → Unit → Ctx → Code Instr Cond → Prop}
    {S : Ctx → LLValue → Ctx → Code Instr Cond → Prop} (hnull : cond ≠ .null)
    (hcond : ∀ e, cond = .to e → e.getValue.Lays T false S)
    (hblk : blk.Lays T true Q) (hevery : (loopEvery every).Lays T false R) :
    (forLoop cond every blk).Lays T true fun c _ c' k =>
      ∃ a v a' k₁ b b' k₂ f f' k₃, S a v a' k₁ ∧ Q b () b' k₂ ∧ R f () f' k₃ ∧
        a.emitted = c.emitted ∧ b.emitted = a'.emitted ∧ f.emitted = b'.emitted ∧
        c'.emitted = f'.emitted ∧ k = .forLoop k₁ (⟨.forStmt, 0⟩, v) k₂ k₃ := by
  intro c u c' hT hbelow hc hrun
  obtain ⟨e, v, c₁, c₂, c₃, hto, hv, hbody, hev, rfl⟩ := forLoop_eq_ok hnull hrun
  have hsize := loopStart_length c
  have henter := (emits_loopStart c).trans (emits_branch _ (.br ⟨.forStmt, 0⟩ c.blocks.length)
    c.blocks.length)
  obtain ⟨k₁, hk₁, hS⟩ := hcond e hto (henter.tables_eq.trans hT) (henter.loadsBelow hbelow)
    (moveTo_valid (by omega) Relation.ReflTransGen.refl) hv
  have hemits₁ := (emits_branch _ _ _).trans hk₁.emits
  have hbranch := (henter.trans hk₁.emits).trans (emits_branch c₁ (.condBr ⟨.forStmt, 0⟩ v
    (c.blocks.length+1) (c.blocks.length+3)) (c.blocks.length+1))
  obtain ⟨k₂, hk₂, hQ⟩ := hblk (hbranch.tables_eq.trans hT) (hbranch.loadsBelow hbelow)
    (moveTo_valid (by omega) hemits₁) hbody
  have hemits₂ := (hemits₁.trans (emits_branch _ _ _)).trans hk₂.emits
  have hbranch' := (hbranch.trans hk₂.emits).trans (emits_branch c₂ (.br ⟨.forStmt, 0⟩
    (c.blocks.length+2)) (c.blocks.length+2))
  obtain ⟨k₃, hk₃, hR⟩ := hevery (hbranch'.tables_eq.trans hT) (hbranch'.loadsBelow hbelow)
    (moveTo_valid (by omega) hemits₂) hev
  have hlast := branch_emitted c₃ (.br ⟨.forStmt, 0⟩ c.blocks.length) (c.blocks.length+3)
  exact ⟨_, Laid.forStmt hc rfl hk₁ rfl hk₂ rfl hk₃ rfl, _, v, c₁,
    k₁, _, c₂, k₂, _, c₃, k₃, hS, hQ, hR, by exact branch_emitted c.loopStart _ _,
    by exact branch_emitted c₁ _ _, by exact branch_emitted c₂ _ _, hlast, rfl⟩

theorem lays_jumpCode (fs : List Frame) (t : JumpType) :
    (jumpCode fs t).Lays T true fun c _ c' k =>
      c'.emitted = c.emitted ∧ k = .jump (⟨.jump fs, 0⟩, int1 true) (t = .continueJump) := by
  intro c u c' _ _ hc hrun
  simp only [jumpCode, createBr, bind_eq_ok, get_eq_ok, require_eq_ok, emitInstr_eq_ok] at hrun
  obtain ⟨_, _, ⟨rfl, rfl⟩, loop, _, ⟨hloop, rfl⟩, rfl⟩ := hrun
  refine ⟨.jump (⟨.jump fs, 0⟩, int1 true) (t = .continueJump), Laid.jump hc hloop rfl ?_, rfl, rfl⟩
  cases t <;> rfl

end

section
variable {α β ι : Type} {T : Ctx} {j : Bool} {E E' : ι → Exit → Data → Prop} {p : Gen α} {f : α → Gen β}
  {I I' : ι → Emitted → Data → Prop} {Q Q' : ι → α → Emitted → Data → Prop}
  {R : ι → β → Emitted → Data → Prop}

/-- Every run of the code of a step from `I` ends in `Q`, or in the condition of its exit; while it
is running, the condition for that holds. -/
def Gen.Meets (T : Ctx) (j : Bool) (E : ι → Exit → Data → Prop) (p : Gen α)
    (I : ι → Emitted → Data → Prop) (Q : ι → α → Emitted → Data → Prop) : Prop :=
  p.Lays T j fun c a c' k => ∀ x, Triple machine (E x) (fun d => I x c.emitted d ∧ E x .running d) k
    fun d => Q x a c'.emitted d ∧ E x .running d

/-- A step with conditions on the data alone. -/
abbrev Gen.Runs (T : Ctx) (j : Bool) (E : ι → Exit → Data → Prop) (p : Gen α)
    (I Q : ι → Data → Prop) : Prop :=
  p.Meets T j E (fun x _ d => I x d) fun x _ _ d => Q x d

/-- The index may be chosen with the data at hand. -/
theorem Gen.Meets.adapt {κ : Type} {E' : κ → Exit → Data → Prop} {I' : κ → Emitted → Data → Prop}
    {Q' : κ → α → Emitted → Data → Prop} (h : p.Meets T j E I Q)
    (hx : ∀ y e d, I' y e d → E' y .running d → ∃ x, I x e d ∧ E x .running d ∧
      (∀ a e' d', Q x a e' d' → E x .running d' → Q' y a e' d' ∧ E' y .running d') ∧
      ∀ z d', E x z d' → E' y z d') : p.Meets T j E' I' Q' := by
  refine Gen.Lays.mono h fun c a c' k _ hk y d z d' hd he => ?_
  obtain ⟨x, hI, hrunning, hQ, hE⟩ := hx y _ d hd.1 hd.2
  obtain ⟨hnormal, hexit⟩ := hk x d z d' ⟨hI, hrunning⟩ he
  exact ⟨fun hz => hQ _ _ _ (hnormal hz).1 (hnormal hz).2, fun hz => hE _ _ (hexit hz)⟩

theorem Gen.Meets.mono (h : p.Meets T j E I Q) (hI : ∀ x e d, I' x e d → E x .running d → I x e d)
    (hQ : ∀ x a e d, Q x a e d → E x .running d → Q' x a e d) : p.Meets T j E I' Q' := by
  apply h.adapt
  intro x e d hI' hrunning
  refine ⟨x, hI x e d hI' hrunning, hrunning, ?_, fun _ _ hE => hE⟩
  intro a e' d' hq hr
  exact ⟨hQ x a e' d' hq hr, hr⟩

theorem Gen.Meets.bind (hp : p.Meets T j E I Q)
    (hf : ∀ a, (f a).Meets T j E (fun x e d => Q x a e d) R) : (p >>= f).Meets T j E I R := by
  refine Gen.Lays.mono (Gen.Lays.bind hp hf) ?_
  rintro c b c' k - ⟨a, c₁, k₁, k₂, h₁, h₂, rfl⟩ x
  exact (h₁ x).seq (h₂ x)

theorem Gen.Quiet.meets (h : p.Quiet) (hQ : ∀ c a c', c.tables = T → p.run c = .ok (a, c') →
      ∀ x d, I x c.emitted d → E x .running d → Q x a c.emitted d) : p.Meets T j E I Q := by
  intro c a c' hT _ hc hrun
  have hsame := h hrun
  refine ⟨.skip, Laid.of_graph_eq hc hsame.graph hsame.emits hsame.loops, fun x => ?_⟩
  rw [hsame.emitted]
  exact (triple_skip fun d hd => hd.2).mono (fun d hd => hd)
    (fun d hd => ⟨hQ c a c' hT hrun x d hd.1 hd.2, hd.2⟩) fun z d hE => hE

theorem meets_pure (a : α) (hQ : ∀ x e d, I x e d → E x .running d → Q x a e d) :
    (Pure.pure a : Gen α).Meets T j E I Q := by
  refine (quietRules.pure a).meets ?_
  intro c b c' _ hrun x d hI hE
  obtain ⟨rfl, -⟩ := pure_eq_ok.mp hrun
  exact hQ x _ d hI hE

/-- A step that emits one instruction. -/
theorem Gen.Lays.meets_instr {g : Ctx → α → Ctx → Instr → Prop}
    (h : p.Lays T j fun c a c' k => ∃ i, g c a c' i ∧ k = .instr i)
    (hstep : ∀ c a c' i x d d', g c a c' i → I x c.emitted d → E x .running d → i.exec d = some d' →
      Q x a c'.emitted d' ∧ E x .running d') : p.Meets T j E I Q := by
  refine Gen.Lays.mono h ?_
  rintro c a c' k - ⟨i, hi, rfl⟩ x
  exact triple_instr (fun d hd => hd.2) (fun d d' hd hexec => hstep c a c' i x d d' hi hd.1 hd.2 hexec)
    fun d hd => hd.2

end

section
variable {ι : Type} {T : Ctx} {j : Bool} {E : ι → Exit → Data → Prop} {I : ι → Emitted → Data → Prop}

variable {Q : ι → LLValue → Emitted → Data → Prop}

theorem meets_emitResult {mk : ℕ → Instr} {ty : LLType} (hv : ∀ r, (mk r).view = .plain)
    (hdst : ∀ r, (mk r).dst = some r)
    (hstep : ∀ x e d d', I x e d → E x .running d → (mk e.nextReg).exec d = some d' →
      Q x ⟨.reg e.nextReg, ty⟩ e.succ d' ∧ E x .running d') : (emitResult mk ty).Meets T j E I Q := by
  refine Gen.Lays.meets_instr (g := fun c v c' k => v = ⟨.reg c.nextReg, ty⟩ ∧
    c'.emitted = c.emitted.succ ∧ k = mk c.nextReg) ?_ ?_
  · refine (lays_emitResult hv hdst).mono ?_
    rintro c v c' k - ⟨hvalue, hemitted, rfl⟩
    exact ⟨_, ⟨hvalue, hemitted, rfl⟩, rfl⟩
  · rintro c v c' _ x d d' ⟨rfl, hemitted, rfl⟩ hI hE hexec
    rw [hemitted]
    exact hstep x _ d d' hI hE hexec

theorem meets_createCall {tag : Tag} {f : Text} {args : List LLValue}
    (hstep : ∀ x e d ty, functionType f = some ty → I x e d → E x .running d →
      Q x ⟨.reg e.nextReg, ty⟩ e.succ (d.call e.nextReg tag f (args.map d.eval)) ∧
        E x .running (d.call e.nextReg tag f (args.map d.eval))) :
    (createCall tag f args).Meets T j E I Q := by
  have hrequire : (Gen.require .undefined (functionType f)).Meets T j E I
      fun x ty e d => functionType f = some ty ∧ I x e d := by
    refine (quietRules.require _ _).meets ?_
    intro c ty c' _ hrun x d hI _
    exact ⟨(require_eq_ok.mp hrun).1, hI⟩
  refine hrequire.bind fun ty => meets_emitResult (fun _ => rfl) (fun _ => rfl) ?_
  intro x e d d' hI hE hexec
  obtain rfl := Option.some.inj hexec
  exact hstep x e d ty hI.1 hI.2 hE

/-- What a test does to the data: it notes which way it went. -/
theorem machine_test {tag : Tag} {v : LLValue} {d d' : Data} {b : Bool}
    (h : machine.test (tag, v) d = some (b, d')) : d.eval v = .bool b ∧ d' = d.note (.branch tag b) :=
  test_eq_some h

end

section
variable {ι : Type} {T : Ctx} {E : ι → Exit → Data → Prop} {I : ι → Emitted → Data → Prop}
  {J N S S' Q : ι → Data → Prop} {R : ι → LLValue → Emitted → Data → Prop}

theorem meets_ifCode {cond : Gen LLValue} {trueCode falseCode : Gen Unit}
    (hcond : (cond >>= toI1).Meets T false E I R)
    (hbranch : ∀ x v e d b, R x v e d → E x .running d → d.eval v = .bool b →
      E x .running (d.note (.branch ⟨.ifStmt, 0⟩ b)) ∧
        if b then S x (d.note (.branch ⟨.ifStmt, 0⟩ b)) else S' x (d.note (.branch ⟨.ifStmt, 0⟩ b)))
    (ht : trueCode.Runs T true E S Q) (hf : falseCode.Runs T true E S' Q) :
    (ifCode cond trueCode falseCode).Meets T true E I fun x _ _ d => Q x d := by
  refine Gen.Lays.mono (lays_ifCode hcond ht hf) ?_
  rintro c u c' k - ⟨a, v, a', k₁, b, b', k₂, f, f', k₃, h₁, h₂, h₃, ha, -, -, -, rfl⟩ x
  rw [← ha]
  refine (h₁ x).seq (triple_cond (R := fun d => S x d ∧ E x .running d)
    (S := fun d => S' x d ∧ E x .running d) (fun d hd => hd.2) ?_ (h₂ x) (h₃ x))
  intro d z d' hd htest
  obtain ⟨heval, rfl⟩ := machine_test htest
  obtain ⟨hrunning, hz⟩ := hbranch x v _ d z hd.1 hd.2 heval
  cases z with
  | true => exact ⟨hz, hrunning⟩
  | false => exact ⟨hz, hrunning⟩

/-- `J` is the invariant of a `For` before its test, and `N` holds before its every part. -/
theorem meets_forLoop {cond every : Ptr Expression} {blk : Gen Unit} (hnull : cond ≠ .null)
    (hcond : ∀ e, cond = .to e → e.getValue.Meets T false E (fun x _ d => J x d) R)
    (hbranch : ∀ x v e d b, R x v e d → E x .running d → d.eval v = .bool b →
      E x .running (d.note (.branch ⟨.forStmt, 0⟩ b)) ∧
        if b then S x (d.note (.branch ⟨.forStmt, 0⟩ b)) else Q x (d.note (.branch ⟨.forStmt, 0⟩ b)))
    (hblk : blk.Runs T true (fun x => loopExits (E x) (fun d => Q x d ∧ E x .running d)
      fun d => N x d ∧ E x .running d) S N)
    (hevery : (loopEvery every).Runs T false E N J) :
    (forLoop cond every blk).Runs T true E J Q := by
  refine Gen.Lays.mono (lays_forLoop hnull hcond hblk hevery) ?_
  rintro c u c' k - ⟨a, v, a', k₁, b, b', k₂, f, f', k₃, h₁, h₂, h₃, -, -, -, -, rfl⟩ x
  refine triple_for (h₁ x) ?_ (h₂ x) (h₃ x) fun d hd => hd.2
  intro d z d' hd htest
  obtain ⟨heval, rfl⟩ := machine_test htest
  obtain ⟨hrunning, hz⟩ := hbranch x v _ d z hd.1 hd.2 heval
  cases z with
  | true => exact ⟨hz, hrunning⟩
  | false => exact ⟨hz, hrunning⟩

/-- `J` is the invariant of the loop of a `Scan` before its test; an operand from before the loop
stays one. -/
theorem meets_scanLoop {test : Gen LLValue} {body : Gen Unit} {w : LLValue}
    (htest : test.Meets T false E (fun x e d => w.Below e.nextReg ∧ J x d) R)
    (hbranch : ∀ x v e d b, R x v e d → E x .running d → d.eval v = .bool b →
      E x .running (d.note (.branch ⟨.scan, 0⟩ b)) ∧
        if b then S x (d.note (.branch ⟨.scan, 0⟩ b)) else Q x (d.note (.branch ⟨.scan, 0⟩ b)))
    (hbody : body.Meets T true E (fun x e d => w.Below e.nextReg ∧ S x d) fun x _ _ d => J x d) :
    (scanLoop test body).Meets T true E (fun x e d => w.Below e.nextReg ∧ J x d)
      fun x _ e d => w.Below e.nextReg ∧ Q x d := by
  intro c u c' hT hbelow hc hrun
  obtain ⟨k, hk, a, v, a', k₁, b, b', k₂, h₁, h₂, ha, hb, hemits, -, rfl⟩ :=
    lays_scanLoop htest hbody hT hbelow hc hrun
  refine ⟨_, hk, fun x => ?_⟩
  by_cases hw : w.Below c.nextReg
  · have hwa : w.Below a.emitted.nextReg := by
      rw [ha]
      exact hw
    have hwb : w.Below b.emitted.nextReg := by
      rw [hb]
      exact hwa.mono hemits.nextReg_le
    have hw' : w.Below c'.emitted.nextReg := hw.mono hk.emits.nextReg_le
    refine (triple_loop (I := fun d => J x d ∧ E x .running d)
      (S := fun d => S x d ∧ E x .running d) (Q := fun d => Q x d ∧ E x .running d)
      ((h₁ x).mono (fun d hd => ⟨⟨hwa, hd.1⟩, hd.2⟩) (fun d hd => hd) fun z d hz => hz) ?_
      ((h₂ x).mono (fun d hd => ⟨⟨hwb, hd.1⟩, hd.2⟩) (fun d hd => hd) fun z d hz => hz)
      fun d hd => hd.2).mono (fun d hd => ⟨hd.1.2, hd.2⟩) (fun d hd => ⟨⟨hw', hd.1⟩, hd.2⟩)
        fun z d hz => hz
    intro d z d' hd htest'
    obtain ⟨heval, rfl⟩ := machine_test htest'
    obtain ⟨hrunning, hz⟩ := hbranch x v _ d z hd.1 hd.2 heval
    cases z with
    | true => exact ⟨hz, hrunning⟩
    | false => exact ⟨hz, hrunning⟩
  · exact fun d z d' hd _ => absurd hd.1.1 hw

theorem meets_jumpCode {fs : List Frame} {t : JumpType}
    (hexit : ∀ x d, J x d → E x .running d →
      E x (jumpExit (t = .continueJump)) (d.note (.branch ⟨.jump fs, 0⟩ true))) :
    (jumpCode fs t).Runs T true E J Q := by
  refine Gen.Lays.mono (lays_jumpCode fs t) ?_
  rintro c u c' k - ⟨-, rfl⟩ x
  refine triple_jump (fun d hd => hd.2) fun d b d' hd htest => ?_
  obtain ⟨hb, rfl⟩ := machine_test htest
  obtain rfl := Val.bool.inj hb
  exact hexit x d hd.1 hd.2

end

/-- A step keeps the value of an operand from before it. -/
theorem Gen.Meets.frame {α ι : Type} {T : Ctx} {j : Bool} {E : ι → Exit → Data → Prop} {p : Gen α}
    {I : ι → Emitted → Data → Prop} {Q : ι → α → Emitted → Data → Prop} (h : p.Meets T j E I Q)
    (w : LLValue) (v : ι → Val) :
    p.Meets T j E (fun x e d => w.Below e.nextReg ∧ d.eval w = v x ∧ I x e d)
      fun x a e d => w.Below e.nextReg ∧ d.eval w = v x ∧ Q x a e d := by
  refine Gen.Lays.mono h fun c a c' k hlaid hk x d z d' hd he => ?_
  obtain ⟨⟨hw, heval, hI⟩, hE⟩ := hd
  obtain ⟨hnormal, hexit⟩ := hk x d z d' ⟨hI, hE⟩ he
  refine ⟨fun hz => ⟨⟨?_, ?_, (hnormal hz).1⟩, (hnormal hz).2⟩, hexit⟩
  · exact hw.mono hlaid.emits.nextReg_le
  · rw [hlaid.eval_eq he hw, heval]

theorem Instr.Straight.view {S : Origin → Text → Prop} {i : Instr} (h : i.Straight S) : i.view = .plain := by
  cases i with
  | phi r incoming => exact absurd h (by simp [Instr.Straight])
  | br tag t => exact absurd h (by simp [Instr.Straight])
  | condBr tag v t f => exact absurd h (by simp [Instr.Straight])
  | ret v => exact absurd h (by simp [Instr.Straight])
  | _ => rfl

/-- Code without branches but those of short circuits that calls functions of a set only. -/
def StraightCode (S : Origin → Text → Prop) (k : Code Instr Cond) : Prop :=
  k.All (Instr.Straight S) ∧ k.Tests fun v => v.1.origin = .shortCircuit

/-- A step whose code calls functions of a set only. -/
def Gen.Calls {α : Type} (T : Ctx) (S : Origin → Text → Prop) (p : Gen α) : Prop :=
  p.Lays T false fun _ _ _ k => StraightCode S k

theorem straightRules (T : Ctx) (S : Origin → Text → Prop) : CallRules S (Gen.Calls T S) := by
  have hquiet : ∀ {α : Type} {p : Gen α}, p.Quiet → p.Calls T S := by
    intro α p h
    refine h.lays.mono ?_
    rintro c a c' k - ⟨-, -, rfl⟩
    exact ⟨trivial, trivial⟩
  have hbind : ∀ {α β : Type} {p : Gen α} {f : α → Gen β}, p.Calls T S → (∀ a, (f a).Calls T S) →
      (p >>= f).Calls T S := by
    intro α β p f hp hf
    refine Gen.Lays.mono (Gen.Lays.bind hp hf) ?_
    rintro c b c' k - ⟨a, c₁, k₁, k₂, h₁, h₂, rfl⟩
    exact ⟨⟨h₁.1, h₂.1⟩, h₁.2, h₂.2⟩
  have hresult : ∀ (mk : ℕ → Instr) (ty : LLType), (∀ d, (mk d).Straight S) →
      (∀ d, (mk d).dst = some d) → (emitResult mk ty).Calls T S := by
    intro mk ty hmk hdst
    refine (lays_emitResult (fun r => (hmk r).view) hdst).mono ?_
    rintro c v c' k - ⟨-, -, rfl⟩
    exact ⟨hmk _, trivial⟩
  have htoI1 : ∀ v, (toI1 v).Calls T S := by
    intro v
    unfold toI1
    split_ifs
    · exact hquiet (quietRules.pure v)
    · exact hresult _ _ (fun _ => trivial) fun _ => rfl
  constructor
  case toLookupRules =>
    exact ⟨fun a => hquiet (quietRules.pure a), fun e => hquiet (quietRules.fail e),
      hquiet quietRules.get, fun e o => hquiet (quietRules.require e o), hbind,
      fun ts => hquiet (quietRules.registerRow ts)⟩
  case emitInstr =>
    intro i hi hdst
    refine (lays_emitInstr hi.view hdst).mono ?_
    rintro c u c' k - ⟨-, rfl⟩
    exact ⟨hi, trivial⟩
  case emitResult => exact hresult
  case emitLoad =>
    intro p ty
    refine lays_emitLoad.mono ?_
    rintro c v c' k - ⟨-, -, rfl⟩
    exact ⟨trivial, trivial⟩
  case conditionalValue =>
    intro forAnd lhs rhs hl hr
    refine (lays_conditionalValue (hbind hl htoI1) (hbind hr htoI1)).mono ?_
    rintro c v c' k - ⟨a, lh, a', k₁, b, rh, b', k₂, h₁, h₂, -, -, -, -, -, rfl⟩
    exact ⟨⟨h₁.1, h₂.1, trivial, trivial⟩, h₁.2, rfl, h₂.2⟩

/-- What straight-line instructions and branches keep, the code of a step keeps. -/
theorem Gen.Calls.runs {α ι : Type} {T : Ctx} {S : Origin → Text → Prop} {p : Gen α} {j : Bool}
    {E : ι → Exit → Data → Prop} {J : ι → Data → Prop}
    (h : p.Calls T S)
    (hinstr : ∀ (x : ι) (i : Instr) (d d' : Data), i.Straight S → i.exec d = some d' → J x d → J x d')
    (htest : ∀ x d tag b, tag.origin = .shortCircuit → J x d → J x (d.note (.branch tag b)))
    (hE : ∀ x d, J x d → E x .running d) : p.Runs T j E J J := by
  refine Gen.Lays.weaken (Gen.Lays.mono h fun c a c' k hlaid hk x d z d' hd he => ?_) j
  have hJ : J x d' := by
    refine he.keeps (R := fun d d' => J x d → J x d') hk.1 hk.2 (fun _ h => h)
      (fun _ _ _ h₁ h₂ h => h₂ (h₁ h)) ?_ ?_ hd.1
    · exact fun i d d' hi hexec => hinstr x i d d' hi hexec
    · intro v d b d' horigin hv
      rw [(test_eq_some hv).2]
      exact htest x d v.1 b horigin
  have hrunning := hE x d' hJ
  exact Triple.of_done (Q := fun d => J x d ∧ E x .running d) (hlaid.done he) ⟨hJ, hrunning⟩ hrunning

/-- The function that an event is a call of. -/
def Event.callee : Event → Option Text
  | .call _ f _ _ _ => some f
  | _ => none

/-- An event that is no branch, and no call but of functions of the set. -/
def Event.Straight (S : Origin → Text → Prop) : Event → Prop
  | .call tag f _ _ _ => S tag.origin f
  | .branch _ _ => False
  | _ => True

/-- The events of a straight-line instruction. -/
theorem exec_trace {S : Origin → Text → Prop} {i : Instr} {d d' : Data} (hi : i.Straight S)
    (h : i.exec d = some d') :
    ∃ es, d'.trace = d.trace ++ es ∧ ∀ e ∈ es, e.Straight S := by
  have hput : ∀ (d : Data) (x p : Val), (d.put x p).trace = d.trace := by
    intro d x p
    cases p <;> rfl
  have hscribble : ∀ (d : Data) (p : Val), (d.scribble p).trace = d.trace ++ [.write p.slot] := by
    intro d p
    unfold Data.scribble
    split <;> rfl
  cases i with
  | alloca s => exact absurd hi (by simp [Instr.Straight])
  | binary s op a b =>
    obtain ⟨v, -, rfl⟩ := Option.map_eq_some_iff.mp h
    exact ⟨[], by simp [Data.setReg], by simp⟩
  | load s p =>
    simp only [Instr.exec, Data.load, Option.ite_none_right_eq_some] at h
    obtain ⟨-, h⟩ := h
    obtain rfl := Option.some.inj h
    exact ⟨[.load (d.eval p).slot], rfl, by simp [Event.Straight]⟩
  | store tag v p =>
    simp only [Instr.exec, Data.store, Option.ite_none_right_eq_some] at h
    obtain ⟨-, h⟩ := h
    obtain rfl := Option.some.inj h
    exact ⟨[.store tag (d.eval p).slot], by simp [Data.note, hput], by simp [Event.Straight]⟩
  | call s tag f args =>
    obtain rfl := Option.some.inj h
    unfold Data.call
    dsimp only
    split
    case h_1 p _ _ =>
      refine ⟨[.call tag f (args.map d.eval) ((args.map d.eval).map d.behind) (d.result f),
        .write p.slot], ?_, ?_⟩
      · rw [hscribble]
        simp [Data.note, Data.setReg]
      · simpa [Event.Straight, Instr.Straight] using hi
    case h_2 =>
      exact ⟨[.call tag f (args.map d.eval) ((args.map d.eval).map d.behind) (d.result f)], rfl,
        by simpa [Event.Straight, Instr.Straight] using hi⟩
  | memcpy dst src n =>
    obtain rfl := Option.some.inj h
    refine ⟨[.load (d.eval src).slot, .write (d.eval dst).slot], ?_, by simp [Event.Straight]⟩
    rw [hscribble]
    simp [Data.note]
  | icmp s p a b =>
    obtain rfl := Option.some.inj h
    exact ⟨[], by simp [Data.setReg], by simp⟩
  | gep s base indices =>
    obtain rfl := Option.some.inj h
    exact ⟨[], by simp [Data.setReg], by simp⟩
  | bitcast s v =>
    obtain rfl := Option.some.inj h
    exact ⟨[], by simp [Data.setReg], by simp⟩
  | insertValue s tag agg v n =>
    obtain rfl := Option.some.inj h
    exact ⟨[], by simp [Data.setReg], by simp⟩
  | phi s incoming => exact absurd hi (by simp [Instr.Straight])
  | br tag t => exact absurd hi (by simp [Instr.Straight])
  | condBr tag v t f => exact absurd hi (by simp [Instr.Straight])
  | ret v => exact absurd hi (by simp [Instr.Straight])

end Reir
