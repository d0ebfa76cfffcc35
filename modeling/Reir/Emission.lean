import Mathlib.Logic.Relation
import Reir.BlockGraph
import Reir.CodegenRules

/-! What code generation does to the context. Whatever it emits is a sequence of a few kinds of
updates, and no update touches the tables that the allocation pass has filled. -/
namespace Reir
open Gen BlockGraph

inductive Ctx.Update : Ctx → Ctx → Prop
  | append (c : Ctx) (i : Instr) : Update c (c.append i)
  | result (c : Ctx) (i : Instr) : Update c (c.result i)
  | loadFrom (c : Ctx) (p : LLValue) : Update c (c.loadFrom p)
  | newBlock (c : Ctx) : Update c c.newBlock
  | moveTo (c : Ctx) (b : ℕ) : Update c (c.moveTo b)
  | pushLoop (c : Ctx) (l : LoopContext) : Update c (c.pushLoop l)
  | popLoop (c : Ctx) : Update c c.popLoop
  | register (c : Ctx) (ts : List LLType) : Update c { c with rowTypes := ts :: c.rowTypes }

/-- Any number of updates. -/
def Ctx.Emits : Ctx → Ctx → Prop := Relation.ReflTransGen Ctx.Update

theorem Ctx.Update.emits {c c' : Ctx} (h : Ctx.Update c c') : Ctx.Emits c c' :=
  Relation.ReflTransGen.single h

/-- The context without the function under construction and the types of rows. -/
def Ctx.tables (c : Ctx) : Ctx :=
  { c with rowTypes := [], blocks := [], cur := 0, nextReg := 0, loads := [], loops := [] }

/-- The function under construction. -/
def Ctx.graph (c : Ctx) : Cfg Instr := ⟨c.blocks, c.cur⟩

namespace Ctx.Emits
variable {c c' : Ctx}

theorem tables_eq (h : Ctx.Emits c c') : c'.tables = c.tables := by
  induction h with
  | refl => rfl
  | tail _ hstep ih =>
    rw [← ih]
    cases hstep <;> rfl

theorem vars_eq (h : Ctx.Emits c c') : c'.vars = c.vars := by
  have htables := congrArg Ctx.vars h.tables_eq
  exact htables

theorem slots_eq (h : Ctx.Emits c c') : c'.slots = c.slots := by
  have htables := congrArg Ctx.slots h.tables_eq
  exact htables

/-- A known row type stays known. -/
theorem rowTypes_subset (h : Ctx.Emits c c') : c.rowTypes ⊆ c'.rowTypes := by
  induction h with
  | refl => exact List.Subset.refl _
  | tail _ hstep ih =>
    cases hstep with
    | register ts => exact List.subset_cons_of_subset ts ih
    | _ => exact ih

theorem append_grows (c : Ctx) (i : Instr) : Grows c.graph (c.append i).graph := by
  by_cases hcur : c.graph.cur < c.graph.size
  · exact (Grows.refl c.graph).append hcur i
  · have hblocks : (c.append i).blocks = c.blocks := by
      apply List.modify_eq_self
      exact Nat.le_of_not_lt hcur
    have hgraph : (c.append i).graph = c.graph := congrArg (Cfg.mk · c.cur) hblocks
    rw [hgraph]
    exact Grows.refl _

theorem grows (h : Ctx.Emits c c') : Grows c.graph c'.graph := by
  induction h with
  | refl => exact Grows.refl _
  | @tail b d _ hstep ih =>
    refine ih.trans ?_
    cases hstep with
    | append i => exact append_grows b i
    | result i => exact append_grows b i
    | loadFrom p => exact append_grows b _
    | newBlock => exact ⟨by simp [Cfg.size, Ctx.graph, Ctx.newBlock], fun i => by
        change b.graph.code i <+: (b.graph.reserve 1).code i
        rw [Cfg.reserve_code]⟩
    | moveTo j => exact ⟨le_rfl, fun _ => List.prefix_rfl⟩
    | pushLoop l => exact Grows.refl _
    | popLoop => exact Grows.refl _
    | register ts => exact Grows.refl _

theorem length_le (h : Ctx.Emits c c') : c.blocks.length ≤ c'.blocks.length := h.grows.size_le

theorem nextReg_le (h : Ctx.Emits c c') : c.nextReg ≤ c'.nextReg := by
  induction h with
  | refl => exact le_rfl
  | tail _ hstep ih =>
    refine ih.trans ?_
    cases hstep <;> simp [Ctx.append, Ctx.result, Ctx.loadFrom, Ctx.newBlock, Ctx.moveTo,
      Ctx.pushLoop, Ctx.popLoop]

end Ctx.Emits

/-- The pointer operand of the load with the given result. -/
def Ctx.loadOf (c : Ctx) (r : ℕ) : Option LLValue := (c.loads.find? fun l => l.1 == r).map Prod.snd

/-- Every load that is remembered has been emitted. -/
def Ctx.LoadsBelow (c : Ctx) : Prop := ∀ l ∈ c.loads, l.1 < c.nextReg

namespace Ctx.Emits
variable {c c' : Ctx}

theorem loadsBelow (h : Ctx.Emits c c') (hc : c.LoadsBelow) : c'.LoadsBelow := by
  induction h with
  | refl => exact hc
  | tail _ hstep ih =>
    cases hstep with
    | result i => exact fun l hl => Nat.lt_succ_of_lt (ih l hl)
    | loadFrom p =>
      intro l hl
      rcases List.mem_cons.mp hl with rfl | hl
      · exact Nat.lt_succ_self _
      · exact Nat.lt_succ_of_lt (ih l hl)
    | _ => exact ih

/-- What is known about a load does not change. -/
theorem loadOf_eq (h : Ctx.Emits c c') {r : ℕ} (hr : r < c.nextReg) : c'.loadOf r = c.loadOf r := by
  induction h with
  | refl => rfl
  | @tail b d hbefore hstep ih =>
    rw [← ih]
    cases hstep with
    | loadFrom p =>
      have hne : (b.nextReg == r) = false := by
        have hle := nextReg_le hbefore
        simp only [beq_eq_false_iff_ne]
        omega
      simp [Ctx.loadOf, Ctx.loadFrom, hne]
    | _ => rfl

end Ctx.Emits

theorem Ctx.LoadsBelow.loadOf_none {c : Ctx} (h : c.LoadsBelow) {r : ℕ} (hr : c.nextReg ≤ r) :
    c.loadOf r = none := by
  rw [Ctx.loadOf, Option.map_eq_none_iff, List.find?_eq_none]
  intro l hl
  have := h l hl
  simp only [beq_iff_eq]
  omega

/-- A step that only emits. -/
def Gen.Emits {α : Type} (p : Gen α) : Prop :=
  ∀ ⦃c a c'⦄, p.run c = .ok (a, c') → Ctx.Emits c c'

namespace Gen
variable {α β : Type} {p : Gen α} {f : α → Gen β}

theorem emits_pure (a : α) : (Pure.pure a : Gen α).Emits := by
  intro c b c' h
  obtain ⟨-, rfl⟩ := pure_eq_ok.mp h
  exact Relation.ReflTransGen.refl

theorem emits_fail (e : CompileError) : (fail e : Gen α).Emits := by
  intro c b c' h
  exact absurd h (by simp)

theorem emits_get : get.Emits := by
  intro c b c' h
  obtain ⟨-, rfl⟩ := get_eq_ok.mp h
  exact Relation.ReflTransGen.refl

theorem emits_require (e : CompileError) (o : Option α) : (require e o).Emits := by
  intro c b c' h
  obtain ⟨-, rfl⟩ := require_eq_ok.mp h
  exact Relation.ReflTransGen.refl

theorem Emits.bind (hp : p.Emits) (hf : ∀ a, (f a).Emits) : (p >>= f).Emits := by
  intro c b c' h
  obtain ⟨a, c₁, h₁, h₂⟩ := bind_eq_ok.mp h
  exact (hp h₁).trans (hf a h₂)

end Gen

/-- A step that keeps a property of the context. -/
def Gen.Preserves {α : Type} (P : Ctx → Prop) (p : Gen α) : Prop :=
  ∀ ⦃c a c'⦄, p.run c = .ok (a, c') → P c → P c'

theorem preserves_modify {P : Ctx → Prop} {g : Ctx → Ctx} (h : ∀ c, P c → P (g c)) :
    (modify g).Preserves P := by
  intro c u c' hrun
  obtain rfl := modify_eq_ok.mp hrun
  exact h c

/-- What is known about the function under construction holds after the allocation pass if the
allocation of a slot keeps it. -/
theorem preservesPass {P : Ctx → Prop}
    (hsame : ∀ c c' : Ctx, c'.graph = c.graph → c'.nextReg = c.nextReg → c'.loads = c.loads →
      c'.loops = c.loops → P c → P c')
    (halloca : ∀ c ty, P c → P (c.newSlot ty)) : PassRules (Gen.Preserves P) where
  pure := fun a c b c' h hc => (pure_eq_ok.mp h).2 ▸ hc
  fail := fun e c b c' h => absurd h (by simp)
  get := fun c b c' h hc => (get_eq_ok.mp h).2 ▸ hc
  require := fun e o c b c' h hc => (require_eq_ok.mp h).2 ▸ hc
  bind := by
    intro α β p f hp hf c b c' h hc
    obtain ⟨a, c₁, h₁, h₂⟩ := bind_eq_ok.mp h
    exact hf a h₂ (hp h₁ hc)
  registerRow := by
    intro ts c t c' h
    obtain ⟨_, c₁, h₁, h₂⟩ := bind_eq_ok.mp h
    rw [← (pure_eq_ok.mp h₂).2, ← modify_eq_ok.mp h₁]
    split_ifs
    · exact id
    · exact hsame _ _ rfl rfl rfl rfl
  createAlloca := by
    intro ty c i c' h hc
    obtain ⟨-, rfl⟩ := createAlloca_eq_ok.mp h
    exact halloca c ty hc
  setVar := fun x slot => preserves_modify fun c => hsame _ _ rfl rfl rfl rfl
  setAnalyzeType := fun x t => preserves_modify fun c => hsame _ _ rfl rfl rfl rfl
  setSchema := fun x s => preserves_modify fun c => hsame _ _ rfl rfl rfl rfl
  created := fun t => preserves_modify fun c => hsame _ _ rfl rfl rfl rfl
  createScanRow := by
    intro x ts c t c' h
    simp only [createScanRow, Except.ok.injEq, Prod.mk.injEq] at h
    rw [← h.2]
    exact hsame _ _ rfl rfl rfl rfl

theorem emits_registerRow (ts : List LLType) : (registerRow ts).Emits := by
  refine Emits.bind ?_ fun _ => emits_pure _
  intro c u c' h
  rw [← modify_eq_ok.mp h]
  split_ifs
  · exact Relation.ReflTransGen.refl
  · exact (Ctx.Update.register c ts).emits

theorem emits_emitInstr (i : Instr) : (emitInstr i).Emits := by
  intro c u c' h
  obtain rfl := emitInstr_eq_ok.mp h
  exact (Ctx.Update.append c i).emits

theorem emits_emitResult (mk : ℕ → Instr) (ty : LLType) : (emitResult mk ty).Emits := by
  intro c v c' h
  obtain ⟨-, rfl⟩ := emitResult_eq_ok.mp h
  exact (Ctx.Update.result c _).emits

theorem emits_emitLoad (p : LLValue) (ty : LLType) : (emitLoad p ty).Emits := by
  intro c v c' h
  obtain ⟨-, rfl⟩ := emitLoad_eq_ok.mp h
  exact (Ctx.Update.loadFrom c p).emits

theorem emits_createBlock : createBlock.Emits := by
  intro c v c' h
  obtain ⟨-, rfl⟩ := createBlock_eq_ok.mp h
  exact (Ctx.Update.newBlock c).emits

theorem emits_setInsertPoint (b : ℕ) : (setInsertPoint b).Emits := by
  intro c u c' h
  obtain rfl := setInsertPoint_eq_ok.mp h
  exact (Ctx.Update.moveTo c b).emits

theorem emits_getInsertBlock : getInsertBlock.Emits := by
  intro c v c' h
  obtain ⟨-, rfl⟩ := getInsertBlock_eq_ok.mp h
  exact Relation.ReflTransGen.refl

theorem emits_enterLoop (l : LoopContext) : (enterLoop l).Emits := by
  intro c u c' h
  obtain rfl := enterLoop_eq_ok.mp h
  exact (Ctx.Update.pushLoop c l).emits

theorem emits_exitLoop : exitLoop.Emits := by
  intro c u c' h
  obtain rfl := exitLoop_eq_ok.mp h
  exact (Ctx.Update.popLoop c).emits

theorem emitsCode : CodeRules Gen.Emits where
  pure := emits_pure
  fail := emits_fail
  get := emits_get
  require := emits_require
  bind := Emits.bind
  registerRow := emits_registerRow
  emitInstr := emits_emitInstr
  emitResult := emits_emitResult
  emitLoad := emits_emitLoad
  createBlock := emits_createBlock
  setInsertPoint := emits_setInsertPoint
  getInsertBlock := emits_getInsertBlock
  enterLoop := emits_enterLoop
  exitLoop := emits_exitLoop

theorem emitsRules : Rules Gen.Emits := emitsCode.rules

theorem emits_toI1 (v : LLValue) : (toI1 v).Emits := emitsCode.toI1 v

theorem codegenAll_emits (around : List Frame) (ss : List Statement) : (codegenAll around ss).Emits :=
  emitsCode.codegenAll around ss

end Reir
