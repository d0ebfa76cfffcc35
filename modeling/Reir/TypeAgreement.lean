import Reir.ControlFlow
import Reir.TypeRules

/-! Types in generated code. The LLVM type of the value of an expression, the type `get_type`
computes for it and the types of the instructions that use it agree exactly in programs that
follow the typing rules. -/
namespace Reir
open Gen BlockGraph

/-- The instructions in question: stores of `Let` and of assignments, insertions into row and
array literals, and the branches of `If` and `For`. -/
def Instr.wellTyped : Instr → Bool
  | .store tag v p =>
    if tag.origin = .letStmt ∨ tag.origin = .assign then p.ty == .ptr v.ty else true
  | .insertValue _ tag agg v i =>
    if tag.origin = .rowLiteral ∨ tag.origin = .arrayLiteral then agg.ty.fieldAt i == some v.ty
    else true
  | .condBr tag v _ _ =>
    if tag.origin = .ifStmt ∨ tag.origin = .forStmt then v.ty == .i1 else true
  | _ => true

/-- A context that code is generated in: the insert point is in a block, and the types are
those of `Γ`. -/
structure Ready (Γ : TypeEnv) (d : Ctx) : Prop where
  cur : d.graph.cur < d.graph.size
  loads : d.LoadsBelow
  env : d.typeEnv = Γ

/-- Wherever the value of the expression is generated, it has the type that `get_type` gives. -/
def Agrees (Γ : TypeEnv) (e : Expression) : Prop :=
  ∀ ⦃d v d'⦄, Ready Γ d → e.getValue.run d = .ok (v, d') → ∃ d'', e.getType.run d = .ok (v.ty, d'')

/-- Every instruction that was added is well typed. -/
def NewTyped (d d' : Ctx) : Prop := ∀ i, ∀ x ∈ added d.graph d'.graph i, x.wellTyped = true

theorem newTyped_refl (d : Ctx) : NewTyped d d := by
  intro i x hx
  simp at hx

theorem newTyped_trans {a b c : Ctx} (h : Ctx.Emits a b) (k : Ctx.Emits b c) :
    NewTyped a c ↔ NewTyped a b ∧ NewTyped b c := by
  unfold NewTyped
  rw [← forall_and]
  apply forall_congr'
  intro i
  rw [h.grows.added_trans k.grows, List.forall_mem_append]

theorem newTyped_append {d : Ctx} (h : d.graph.cur < d.graph.size) (x : Instr) :
    NewTyped d (d.append x) ↔ x.wellTyped = true := by
  have hadd : ∀ i, added d.graph (d.append x).graph i = if i = d.cur then [x] else [] := by
    intro i
    rw [show (d.append x).graph = d.graph.append x from rfl, (Grows.refl d.graph).added_append h,
      added_self, List.nil_append]
    rfl
  constructor
  · intro hnew
    exact hnew d.cur x (by simp [hadd])
  · intro hx i y hy
    rw [hadd] at hy
    split_ifs at hy
    · rw [List.mem_singleton.mp hy]
      exact hx
    · simp at hy

/-- Moves and new blocks add nothing. -/
theorem newTyped_of_code {a b : Ctx} (h : ∀ i, b.graph.code i = a.graph.code i) :
    NewTyped a b := by
  intro i x hx
  simp [added, h] at hx

namespace Gen
variable {α β : Type} {Γ : TypeEnv} {n : ℕ} {p : Gen α} {f : α → Gen β} {A B P Q : Prop}

/-- In a function of at least `n` blocks, the code of a step is well typed and the agreements
`A` hold exactly under `P`. -/
def Judged (Γ : TypeEnv) (n : ℕ) (p : Gen α) (A P : Prop) : Prop :=
  ∀ ⦃d a d'⦄, Ready Γ d → n ≤ d.graph.size → p.run d = .ok (a, d') →
    Ready Γ d' ∧ Ctx.Emits d d' ∧ (NewTyped d d' ∧ A ↔ P)

theorem Judged.bindYields {Y : α → Prop} (hp : p.Judged Γ n A P) (hy : p.Yields Y)
    (hf : ∀ a, Y a → (f a).Judged Γ n B Q) : (p >>= f).Judged Γ n (A ∧ B) (P ∧ Q) := by
  intro d b d' hd hn h
  obtain ⟨a, d₁, h₁, h₂⟩ := bind_eq_ok.mp h
  obtain ⟨hd₁, he₁, hp'⟩ := hp hd hn h₁
  obtain ⟨hd₂, he₂, hf'⟩ := hf a (hy h₁) hd₁ (hn.trans he₁.length_le) h₂
  refine ⟨hd₂, he₁.trans he₂, ?_⟩
  rw [newTyped_trans he₁ he₂, ← hp', ← hf']
  tauto

theorem Judged.bind (hp : p.Judged Γ n A P) (hf : ∀ a, (f a).Judged Γ n B Q) :
    (p >>= f).Judged Γ n (A ∧ B) (P ∧ Q) :=
  hp.bindYields (yields_true p) fun a _ => hf a

theorem Judged.congr (hp : p.Judged Γ n A P) (hA : A ↔ B) (hP : P ↔ Q) : p.Judged Γ n B Q := by
  intro d a d' hd hn h
  rw [← hA, ← hP]
  exact hp hd hn h

theorem Judged.seq (hp : p.Judged Γ n True True) (hf : ∀ a, (f a).Judged Γ n B Q) :
    (p >>= f).Judged Γ n B Q :=
  (hp.bind hf).congr (iff_of_eq (true_and B)) (iff_of_eq (true_and Q))

/-- The step comes first, and nothing is in question after it. -/
theorem Judged.seq_left (hp : p.Judged Γ n A P) (hf : ∀ a, (f a).Judged Γ n True True) :
    (p >>= f).Judged Γ n A P :=
  (hp.bind hf).congr (iff_of_eq (and_true A)) (iff_of_eq (and_true P))

theorem Judged.mono {m : ℕ} (hp : p.Judged Γ m A P) (h : m ≤ n) : p.Judged Γ n A P := by
  intro d a d' hd hn hrun
  exact hp hd (h.trans hn) hrun

/-- A step that emits nothing. -/
theorem judged_of_graph_eq (he : p.Emits)
    (h : ∀ ⦃d a d'⦄, p.run d = .ok (a, d') → d'.graph = d.graph) : p.Judged Γ n True True := by
  intro d a d' hd _ hrun
  have hemits := he hrun
  have hgraph := h hrun
  refine ⟨⟨by rw [hgraph]; exact hd.cur, hemits.loadsBelow hd.loads,
    hemits.typeEnv_eq.trans hd.env⟩, hemits, ?_⟩
  exact iff_of_true ⟨newTyped_of_code fun i => by rw [hgraph], trivial⟩ trivial

/-- A step that emits one instruction. -/
theorem judged_of_append (he : p.Emits)
    (h : ∀ ⦃d a d'⦄, p.run d = .ok (a, d') →
      ∃ x, d'.graph = d.graph.append x ∧ (x.wellTyped = true ↔ P)) : p.Judged Γ n True P := by
  intro d a d' hd _ hrun
  have hemits := he hrun
  obtain ⟨x, hgraph, hx⟩ := h hrun
  refine ⟨⟨by rw [hgraph]; simpa using hd.cur, hemits.loadsBelow hd.loads,
    hemits.typeEnv_eq.trans hd.env⟩, hemits, ?_⟩
  have hadded : NewTyped d d' ↔ NewTyped d (d.append x) := by
    unfold NewTyped
    rw [hgraph]
    rfl
  rw [and_true, hadded, newTyped_append hd.cur, hx]

end Gen

section
variable {Γ : TypeEnv} {n : ℕ}

theorem judgedLookup : LookupRules fun p => p.Judged Γ n True True where
  pure := fun a => judged_of_graph_eq (emits_pure a) fun _ _ _ h => by rw [(pure_eq_ok.mp h).2]
  fail := fun e => judged_of_graph_eq (emits_fail e) fun _ _ _ h => absurd h (by simp)
  get := judged_of_graph_eq emits_get fun _ _ _ h => by rw [(get_eq_ok.mp h).2]
  require := fun e o => judged_of_graph_eq (emits_require e o) fun _ _ _ h => by
    rw [(require_eq_ok.mp h).2]
  bind := Judged.seq
  registerRow := fun ts => judged_of_graph_eq (emits_registerRow ts) fun d _ d' h => by
    obtain ⟨_, d₁, h₁, h₂⟩ := bind_eq_ok.mp h
    rw [← (pure_eq_ok.mp h₂).2, ← modify_eq_ok.mp h₁]
    split_ifs <;> rfl

theorem judged_emitInstr (x : Instr) : (emitInstr x).Judged Γ n True (x.wellTyped = true) := by
  apply judged_of_append (emits_emitInstr x)
  intro d u d' h
  exact ⟨x, by rw [← emitInstr_eq_ok.mp h]; rfl, Iff.rfl⟩

theorem judged_emitResult {mk : ℕ → Instr} {P : Prop} (h : ∀ r, (mk r).wellTyped = true ↔ P)
    (ty : LLType) : (emitResult mk ty).Judged Γ n True P := by
  apply judged_of_append (emits_emitResult mk ty)
  intro d v d' hrun
  obtain ⟨-, rfl⟩ := emitResult_eq_ok.mp hrun
  exact ⟨mk d.nextReg, rfl, h _⟩

theorem judged_neutral {x : Instr} (h : x.wellTyped = true) : (emitInstr x).Judged Γ n True True :=
  (judged_emitInstr x).congr Iff.rfl (iff_of_true h trivial)

theorem judged_result {mk : ℕ → Instr} (h : ∀ r, (mk r).wellTyped = true) (ty : LLType) :
    (emitResult mk ty).Judged Γ n True True :=
  judged_emitResult (fun r => iff_of_true (h r) trivial) ty

theorem judged_createLoad (p : LLValue) : (createLoad p).Judged Γ n True True := by
  refine (judgedLookup.pointee p.ty).seq fun t => judged_of_append (emits_emitLoad p t) ?_
  intro d v d' h
  obtain ⟨-, rfl⟩ := emitLoad_eq_ok.mp h
  exact ⟨.load d.nextReg p, rfl, by simp [Instr.wellTyped]⟩

theorem judged_createCall (tag : Tag) (f : Text) (args : List LLValue) :
    (createCall tag f args).Judged Γ n True True :=
  (judgedLookup.require _ _).seq fun _ => judged_result (fun _ => rfl) _

theorem judged_createBitCast (v : LLValue) (ty : LLType) :
    (createBitCast v ty).Judged Γ n True True := by
  unfold createBitCast
  split_ifs
  · exact judgedLookup.pure v
  · exact judged_result (fun _ => rfl) _

theorem judged_toI1 (v : LLValue) : (toI1 v).Judged Γ n True True := by
  unfold toI1
  split_ifs
  · exact judgedLookup.pure v
  · exact judged_result (fun _ => rfl) _

theorem toI1_yields (v : LLValue) : (toI1 v).Yields fun w => w.ty = .i1 := by
  intro d w d' h
  unfold toI1 at h
  split_ifs at h with hty
  · rw [← (pure_eq_ok.mp h).1]
    exact hty
  · rw [← (emitResult_eq_ok.mp h).1]

/-- A new block: it is there for what follows. -/
theorem judged_createBlock {β : Type} {f : ℕ → Gen β} {A P : Prop}
    (h : ∀ b, n ≤ b → (f b).Judged Γ (b+1) A P) : (createBlock >>= f).Judged Γ n A P := by
  intro d a d' hd hn hrun
  obtain ⟨b, d₁, h₁, h₂⟩ := bind_eq_ok.mp hrun
  obtain ⟨rfl, rfl⟩ := createBlock_eq_ok.mp h₁
  have hemits := (Ctx.Update.newBlock d).emits
  have hcur : d.newBlock.graph.cur < d.newBlock.graph.size := by
    have := hd.cur
    simp only [newBlock_graph, Cfg.reserve_cur, Cfg.reserve_size]
    omega
  have hready : Ready Γ d.newBlock :=
    ⟨hcur, hemits.loadsBelow hd.loads, hemits.typeEnv_eq.trans hd.env⟩
  obtain ⟨hd', he, hiff⟩ := h d.blocks.length hn hready (by simp [Cfg.size, Ctx.graph]) h₂
  refine ⟨hd', hemits.trans he, ?_⟩
  have hnone : NewTyped d d.newBlock := newTyped_of_code fun i => by simp
  rw [newTyped_trans hemits he, ← hiff, and_iff_right hnone]

theorem judged_setInsertPoint {b : ℕ} (h : b < n) : (setInsertPoint b).Judged Γ n True True := by
  intro d u d' hd hn hrun
  obtain rfl := setInsertPoint_eq_ok.mp hrun
  have hemits := (Ctx.Update.moveTo d b).emits
  refine ⟨⟨h.trans_le hn, hemits.loadsBelow hd.loads, hemits.typeEnv_eq.trans hd.env⟩, hemits, ?_⟩
  exact iff_of_true ⟨newTyped_of_code fun i => rfl, trivial⟩ trivial

theorem judged_getInsertBlock : getInsertBlock.Judged Γ n True True :=
  judged_of_graph_eq emits_getInsertBlock fun _ _ _ h => by rw [(getInsertBlock_eq_ok.mp h).2]

theorem judged_conditionalValue {forAnd : Bool} {lhs rhs : Gen LLValue} {A B P Q : Prop}
    (hl : lhs.Judged Γ n A P) (hr : rhs.Judged Γ n B Q) :
    (conditionalValue forAnd lhs rhs).Judged Γ n (A ∧ B) (P ∧ Q) := by
  refine judged_createBlock fun next hnext => judged_createBlock fun fin hfin => ?_
  refine (hl.mono (by omega)).bind fun lv => (judged_toI1 lv).seq fun lh =>
    (judged_neutral rfl).seq fun _ => judged_getInsertBlock.seq fun _ =>
      (judged_setInsertPoint (by omega)).seq fun _ => ?_
  refine (hr.mono (by omega)).seq_left fun rv => (judged_toI1 rv).seq fun rh =>
    (judged_neutral rfl).seq fun _ => judged_getInsertBlock.seq fun _ =>
      (judged_setInsertPoint (by omega)).seq fun _ => judged_result (fun _ => rfl) _

end

theorem Ready.step {α : Type} {Γ : TypeEnv} {p : Gen α} {R : Prop} {d d' : Ctx} {a : α}
    (hd : Ready Γ d) (hb : p.Builds R) (he : p.Emits) (h : p.run d = .ok (a, d')) : Ready Γ d' :=
  ⟨(hb hd.cur h).1.valid, (he h).loadsBelow hd.loads, (he h).typeEnv_eq.trans hd.env⟩

/-- A pointer that is not the result of a load. -/
def Plain (c : Ctx) (p : LLValue) : Prop := ∀ r, p.op = .reg r → r < c.nextReg ∧ c.loadOf r = none

/-- A value of which the compiler knows the pointer it was loaded from, if it was loaded. -/
def Held (c : Ctx) (v : LLValue) : Prop :=
  ∀ r, v.op = .reg r → r < c.nextReg ∧ ∀ p, c.loadOf r = some p → p.ty = .ptr v.ty ∧ Plain c p

theorem Plain.mono {c c' : Ctx} {p : LLValue} (h : Plain c p) (he : Ctx.Emits c c') :
    Plain c' p := by
  intro r hr
  obtain ⟨hlt, hnone⟩ := h r hr
  exact ⟨hlt.trans_le he.nextReg_le, by rw [he.loadOf_eq hlt, hnone]⟩

theorem Held.mono {c c' : Ctx} {v : LLValue} (h : Held c v) (he : Ctx.Emits c c') : Held c' v := by
  intro r hr
  obtain ⟨hlt, hload⟩ := h r hr
  refine ⟨hlt.trans_le he.nextReg_le, fun p hp => ?_⟩
  rw [he.loadOf_eq hlt] at hp
  exact ⟨(hload p hp).1, (hload p hp).2.mono he⟩

theorem Plain.held {c : Ctx} {p : LLValue} (h : Plain c p) : Held c p := by
  intro r hr
  obtain ⟨hlt, hnone⟩ := h r hr
  exact ⟨hlt, fun q hq => by simp [hnone] at hq⟩

theorem plain_of_op {c : Ctx} {v : LLValue} (h : ∀ r, v.op ≠ .reg r) : Plain c v :=
  fun r hr => absurd hr (h r)

theorem emitResult_plain {mk : ℕ → Instr} {ty : LLType} {d d' : Ctx} {v : LLValue}
    (hd : d.LoadsBelow) (h : (emitResult mk ty).run d = .ok (v, d')) : v.ty = ty ∧ Plain d' v := by
  obtain ⟨rfl, rfl⟩ := emitResult_eq_ok.mp h
  refine ⟨rfl, ?_⟩
  intro r hr
  obtain rfl := Op.reg.inj hr
  exact ⟨Nat.lt_succ_self _, hd.loadOf_none le_rfl⟩

theorem createLoad_held {p v : LLValue} {d d' : Ctx} (hp : Plain d p)
    (h : (createLoad p).run d = .ok (v, d')) : p.ty = .ptr v.ty ∧ Held d' v := by
  obtain ⟨t, d₁, h₁, h₂⟩ := bind_eq_ok.mp h
  obtain ⟨rfl, rfl⟩ := emitLoad_eq_ok.mp h₂
  have hty : p.ty = .ptr t ∧ d = d₁ := by
    revert h₁
    cases p.ty <;> simp [pointee]
  obtain ⟨hty, rfl⟩ := hty
  refine ⟨hty, ?_⟩
  intro r hr
  obtain rfl := Op.reg.inj hr
  refine ⟨Nat.lt_succ_self _, fun q hq => ?_⟩
  have hload : (d.loadFrom p).loadOf d.nextReg = some p := by
    simp [Ctx.loadOf, Ctx.loadFrom]
  rw [hload, Option.some.injEq] at hq
  rw [← hq]
  exact ⟨hty, hp.mono (Ctx.Update.loadFrom d p).emits⟩

theorem pointee_eq_ok {t u : LLType} {c c' : Ctx} :
    (pointee t).run c = .ok (u, c') ↔ t = .ptr u ∧ c = c' := by
  cases t <;> simp [pointee]

theorem pointerOperand_plain {v p : LLValue} {d d' : Ctx} (hv : Held d v)
    (h : (pointerOperand v).run d = .ok (p, d')) : p.ty = .ptr v.ty ∧ Plain d' p ∧ d' = d := by
  obtain ⟨_, _, hget, h⟩ := bind_eq_ok.mp h
  obtain ⟨rfl, rfl⟩ := get_eq_ok.mp hget
  cases hop : v.op with
  | reg r =>
    simp only [hop] at h
    obtain ⟨hload, rfl⟩ := require_eq_ok.mp h
    obtain ⟨hty, hplain⟩ := (hv r hop).2 p hload
    exact ⟨hty, hplain, rfl⟩
  | _ => simp [hop] at h

/-- The value of a step has the type `o`, if there is one. -/
def ValueTyped (Γ : TypeEnv) (p : Gen LLValue) (o : Option LLType) : Prop :=
  ∀ ⦃d v d'⦄, Ready Γ d → p.run d = .ok (v, d') →
    Ready Γ d' ∧ Held d' v ∧ ∀ t, o = some t → v.ty = t

/-- The same for a pointer to a value of that type. -/
def RefTyped (Γ : TypeEnv) (p : Gen LLValue) (o : Option LLType) : Prop :=
  ∀ ⦃d v d'⦄, Ready Γ d → p.run d = .ok (v, d') →
    Ready Γ d' ∧ Plain d' v ∧ ∀ t, o = some t → v.ty = .ptr t

section
variable {Γ : TypeEnv}

theorem refTyped_load {p : Gen LLValue} {o : Option LLType} (hp : RefTyped Γ p o) :
    ValueTyped Γ (p >>= createLoad) o := by
  intro d v d' hd h
  obtain ⟨ref, d₁, h₁, h₂⟩ := bind_eq_ok.mp h
  obtain ⟨hd₁, hplain, hty⟩ := hp hd h₁
  obtain ⟨hload, hheld⟩ := createLoad_held hplain h₂
  refine ⟨hd₁.step (buildsRules.createLoad ref) (emitsRules.createLoad ref) h₂, hheld, ?_⟩
  intro t ht
  rw [hty t ht, LLType.ptr.injEq] at hload
  exact hload.symm

theorem refTyped_fail (e : CompileError) (o : Option LLType) : RefTyped Γ (fail e) o := by
  intro d v d' _ h
  simp at h

theorem refTyped_findVar (x : Text) : RefTyped Γ (findVar x) (Γ.slot x) := by
  intro d p d' hd h
  obtain ⟨i, t, rfl, ht, rfl⟩ := findVar_typed h
  refine ⟨hd, plain_of_op (by simp [slotPtr]), ?_⟩
  intro u hu
  rw [← hd.env, ht, Option.some.injEq] at hu
  simp [slotPtr, hu]

theorem arrayElementType_eq_ok {t u : LLType} {c c' : Ctx} :
    (arrayElementType t).run c = .ok (u, c') ↔ elementOf t = some u ∧ c = c' := by
  cases t <;> simp [arrayElementType, elementOf]

theorem gepIndex_eq_ok {i v : LLValue} {c c' : Ctx} :
    (gepIndex i).run c = .ok (v, c') ↔ i.ty.isInteger = true ∧ i = v ∧ c = c' := by
  unfold gepIndex
  split_ifs with hi
  · rw [pure_eq_ok]
    exact (and_iff_right hi).symm
  · exact iff_of_false (by simp) fun h => hi h.1

/-- The value behind an array reference is an array. -/
theorem arrayRef_element {array idx : Gen LLValue} {o : Option LLType} (ha : ValueTyped Γ array o)
    (he : idx.Emits) {d d' : Ctx} {p : LLValue} (hd : Ready Γ d)
    (h : (arrayRef array idx).run d = .ok (p, d')) :
    Plain d' p ∧ ∀ t, o = some t → ∃ u, elementOf t = some u ∧ p.ty = .ptr u := by
  obtain ⟨arr, d₁, h₁, h⟩ := bind_eq_ok.mp h
  obtain ⟨i, d₂, h₂, h⟩ := bind_eq_ok.mp h
  obtain ⟨base, d₃, h₃, h⟩ := bind_eq_ok.mp h
  obtain ⟨t, d₄, h₄, h⟩ := bind_eq_ok.mp h
  obtain ⟨elem, d₅, h₅, h⟩ := bind_eq_ok.mp h
  obtain ⟨_, d₆, h₆, h⟩ := bind_eq_ok.mp h
  obtain ⟨-, -, rfl⟩ := gepIndex_eq_ok.mp h₆
  obtain ⟨hd₁, hheld, hty⟩ := ha hd h₁
  obtain ⟨hbase, -, rfl⟩ := pointerOperand_plain (hheld.mono (he h₂)) h₃
  obtain ⟨hptr, rfl⟩ := pointee_eq_ok.mp h₄
  obtain ⟨helem, rfl⟩ := arrayElementType_eq_ok.mp h₅
  obtain ⟨hp, hplain⟩ := emitResult_plain ((he h₂).loadsBelow hd₁.loads) h
  refine ⟨hplain, fun u hu => ⟨elem, ?_, hp⟩⟩
  rw [hbase, LLType.ptr.injEq, hty u hu] at hptr
  rw [hptr, helem]

theorem refTyped_arrayRef {array idx : Gen LLValue} {o q : Option LLType} {R : Prop}
    (ha : ValueTyped Γ array o) (hb : (arrayRef array idx).Builds R) (he : idx.Emits)
    (he' : (arrayRef array idx).Emits) :
    RefTyped Γ (arrayRef array idx) (do
      let t ← o
      let _ ← q
      elementOf t) := by
  intro d p d' hd h
  obtain ⟨hplain, hty⟩ := arrayRef_element ha he hd h
  refine ⟨hd.step hb he' h, hplain, fun u hu => ?_⟩
  obtain ⟨t, ht, hu⟩ := Option.bind_eq_some_iff.mp hu
  obtain ⟨_, -, hu⟩ := Option.bind_eq_some_iff.mp hu
  obtain ⟨u', hu', hp⟩ := hty t ht
  rw [hu, Option.some.injEq] at hu'
  rw [hp, hu']

theorem memberRef_typed {p : Expression} {o : Option ℕ} {v : LLValue} {d d' : Ctx}
    (hd : Ready Γ d) (h : (memberRef p o).run d = .ok (v, d')) :
    ∃ f, Γ.field p o = some f ∧ v.ty = .ptr f ∧ Plain d' v := by
  obtain ⟨base, d₁, h₁, h⟩ := bind_eq_ok.mp h
  obtain ⟨i, d₂, h₂, h⟩ := bind_eq_ok.mp h
  obtain ⟨t, d₃, h₃, h⟩ := bind_eq_ok.mp h
  obtain ⟨f, d₄, h₄, h⟩ := bind_eq_ok.mp h
  obtain ⟨hi, rfl⟩ := require_eq_ok.mp h₂
  obtain ⟨hptr, rfl⟩ := pointee_eq_ok.mp h₃
  obtain ⟨hf, rfl⟩ := require_eq_ok.mp h₄
  unfold memberBase at h₁
  split at h₁
  · rename_i n x
    simp only [bind_eq_ok, get_eq_ok, require_eq_ok, pure_eq_ok] at h₁
    obtain ⟨_, _, ⟨rfl, rfl⟩, slot, _, ⟨hslot, rfl⟩, ty, _, ⟨hty, rfl⟩, rfl, rfl⟩ := h₁
    obtain ⟨hp, hplain⟩ := emitResult_plain hd.loads h
    refine ⟨f, ?_, hp, hplain⟩
    obtain rfl := LLType.ptr.inj hptr
    have hx : Γ.slot x = some ty := by
      rw [← hd.env]
      simp [Ctx.typeEnv, hslot, hty]
    simp [TypeEnv.field, hx, hi, hf]
  · simp at h₁

theorem refTyped_memberRef (p : Expression) (o : Option ℕ) :
    RefTyped Γ (memberRef p o) (Γ.field p o) := by
  intro d v d' hd h
  obtain ⟨f, hf, hty, hplain⟩ := memberRef_typed hd h
  refine ⟨hd.step (buildsRules.memberRef p o) (emitsRules.memberRef p o) h, hplain, ?_⟩
  intro t ht
  rw [hf, Option.some.injEq] at ht
  rw [hty, ht]

theorem createInsertValue_typed {tag : Tag} {agg v w : LLValue} {i : ℕ} {d d' : Ctx}
    (hd : d.LoadsBelow) (h : (createInsertValue tag agg v i).run d = .ok (w, d')) :
    w.ty = agg.ty ∧ Plain d' w := by
  obtain ⟨_, d₁, h₁, h₂⟩ := bind_eq_ok.mp h
  obtain ⟨-, rfl⟩ := require_eq_ok.mp h₁
  exact emitResult_plain hd h₂

theorem rowElements_typed {es : List Expression}
    (h : ∀ e ∈ es, ValueTyped Γ e.getValue (e.infer Γ)) {i : ℕ} {prev v : LLValue} {d d' : Ctx}
    (hd : Ready Γ d) (hprev : Plain d prev) (hrun : (rowElements es i prev).run d = .ok (v, d')) :
    v.ty = prev.ty ∧ Plain d' v := by
  induction es generalizing i prev d with
  | nil =>
    obtain ⟨rfl, rfl⟩ := pure_eq_ok.mp hrun
    exact ⟨rfl, hprev⟩
  | cons e es ih =>
    rw [List.forall_mem_cons] at h
    obtain ⟨probe, d₁, h₁, hrun⟩ := bind_eq_ok.mp hrun
    obtain ⟨value, d₂, h₂, hrun⟩ := bind_eq_ok.mp hrun
    obtain ⟨field, d₃, h₃, hrun⟩ := bind_eq_ok.mp hrun
    obtain ⟨next, d₄, h₄, hrun⟩ := bind_eq_ok.mp hrun
    have hd₂ := (h.1 (h.1 hd h₁).1 h₂).1
    have hd₃ := hd₂.step (buildsRules.rowField _ _) (emitsRules.rowField _ _) h₃
    have hd₄ := hd₃.step (buildsRules.createInsertValue _ _ _ _)
      (emitsRules.createInsertValue _ _ _ _) h₄
    obtain ⟨hty, hplain⟩ := createInsertValue_typed hd₃.loads h₄
    obtain ⟨hv, hplain'⟩ := ih h.2 hd₄ hplain hrun
    exact ⟨hv.trans hty, hplain'⟩

theorem arrayElements_typed {es : List Expression}
    (h : ∀ e ∈ es, ValueTyped Γ e.getValue (e.infer Γ)) {i : ℕ} {prev v : LLValue} {d d' : Ctx}
    (hd : Ready Γ d) (hprev : Plain d prev) (hrun : (arrayElements es i prev).run d = .ok (v, d')) :
    v.ty = prev.ty ∧ Plain d' v := by
  induction es generalizing i prev d with
  | nil =>
    obtain ⟨rfl, rfl⟩ := pure_eq_ok.mp hrun
    exact ⟨rfl, hprev⟩
  | cons e es ih =>
    rw [List.forall_mem_cons] at h
    obtain ⟨value, d₁, h₁, hrun⟩ := bind_eq_ok.mp hrun
    obtain ⟨next, d₂, h₂, hrun⟩ := bind_eq_ok.mp hrun
    have hd₁ := (h.1 hd h₁).1
    have hd₂ := hd₁.step (buildsRules.createInsertValue _ _ _ _)
      (emitsRules.createInsertValue _ _ _ _) h₂
    obtain ⟨hty, hplain⟩ := createInsertValue_typed hd₁.loads h₂
    obtain ⟨hv, hplain'⟩ := ih h.2 hd₂ hplain hrun
    exact ⟨hv.trans hty, hplain'⟩

/-- The type that the result of an operator has in LLVM. -/
theorem strictOperator_typed {op : Operators} {l r v : LLValue} {d d' : Ctx} (hd : d.LoadsBelow)
    (h : (strictOperator op l r).run d = .ok (v, d')) :
    v.ty = (if op.isArithmetic then l.ty else .i1) ∧ Plain d' v := by
  cases op with
  | plus | minus | multiple | division | modulo =>
    rw [strictOperator, createBinary] at h
    exact emitResult_plain hd h
  | equal | notequal | lessthan | lessequal | morethan | moreequal =>
    rw [strictOperator, createICmp] at h
    exact emitResult_plain hd h
  | conditionalAnd | conditionalOr | none => simp [strictOperator] at h

theorem conditionalValue_typed {forAnd : Bool} {lhs rhs : Gen LLValue} (hl : lhs.Emits)
    (hr : rhs.Emits) {v : LLValue} {d d' : Ctx} (hd : d.LoadsBelow)
    (h : (conditionalValue forAnd lhs rhs).run d = .ok (v, d')) : v.ty = .i1 ∧ Plain d' v := by
  obtain ⟨lv, d₁, lh, d₂, rv, d₃, rh, d₄, h₁, h₂, h₃, h₄, rfl, rfl⟩ := conditionalValue_eq_ok.mp h
  have hloads₂ := (emits_toI1 lv h₂).loadsBelow ((hl h₁).loadsBelow hd)
  have hloads₄ := (emits_toI1 rv h₄).loadsBelow ((hr h₃).loadsBelow hloads₂)
  refine ⟨rfl, ?_⟩
  intro r hr
  obtain rfl := Op.reg.inj hr
  exact ⟨Nat.lt_succ_self _, hloads₄.loadOf_none le_rfl⟩

theorem calleeName_eq_ok {p : Expression} {f : Text} {c c' : Ctx} :
    (calleeName p).run c = .ok (f, c') ↔ (∃ n, p = .variable n f) ∧ c = c' := by
  unfold calleeName
  split
  · simp
  · rename_i hne
    simp only [fail_eq_ok, false_iff, not_and]
    rintro ⟨n, hp⟩
    exact absurd hp (hne n f)

theorem calleeType_eq {p : Expression} {f : Text} (h : ∃ n, p = .variable n f) :
    calleeType p = functionType f := by
  obtain ⟨n, rfl⟩ := h
  rfl

theorem requireRow_eq_ok {ts : List LLType} {t : LLType} {c c' : Ctx} :
    (requireRow ts).run c = .ok (t, c') ↔ ts ∈ c.rowTypes ∧ .row ts = t ∧ c = c' := by
  simp only [requireRow, bind_eq_ok, get_eq_ok]
  constructor
  · rintro ⟨_, _, ⟨rfl, rfl⟩, h⟩
    split_ifs at h with hmem
    · exact ⟨hmem, pure_eq_ok.mp h⟩
    · simp at h
  · rintro ⟨hmem, rfl, rfl⟩
    exact ⟨c, c, ⟨rfl, rfl⟩, by simp [hmem]⟩

theorem getTypes_inferAll {es : List Expression} {ts us : List LLType} {d d' : Ctx}
    (hd : d.typeEnv = Γ) (h : (getTypes es).run d = .ok (ts, d')) (hus : inferAll Γ es = some us) :
    ts = us := by
  obtain ⟨d'', hrun⟩ := inferAll_getTypes_of (fun e _ t ht => e.infer_getType ht) hus hd
  rw [h] at hrun
  simp only [Except.ok.injEq, Prod.mk.injEq] at hrun
  exact hrun.1

/-- The LLVM type of the value of a typed expression. -/
theorem Expression.valueTyped (e : Expression) :
    ValueTyped Γ e.getValue (e.infer Γ) ∧ RefTyped Γ e.getRef (e.inferRef Γ) := by
  have hstep : ∀ {d v d'} (e : Expression), Ready Γ d → e.getValue.run d = .ok (v, d') → Ready Γ d' :=
    fun e hd h => hd.step (buildsRules.getValue e) (emitsRules.getValue e) h
  induction e using Expression.induction with
  | primary n v =>
    refine ⟨?_, refTyped_fail _ _⟩
    intro d w d' hd h
    refine ⟨hstep _ hd h, ?_⟩
    match v, h with
    | some (.int i), h =>
      obtain ⟨rfl, rfl⟩ := pure_eq_ok.mp h
      exact ⟨(plain_of_op (by simp [int64])).held, fun t ht => Option.some.inj ht⟩
    | some (.varchar x), h =>
      obtain ⟨u, d₁, h₁, h₂⟩ := bind_eq_ok.mp h
      obtain ⟨hu, rfl⟩ := stringType_eq_ok.mp h₁
      obtain ⟨rfl, rfl⟩ := pure_eq_ok.mp h₂
      refine ⟨(plain_of_op (by simp)).held, fun t ht => ?_⟩
      rw [hd.env] at hu
      exact Option.some.inj (hu.symm.trans ht)
    | some (.float b), h => exact absurd h (by simp [Expression.getValue, valueEmitter])
    | some .unknown, h => exact absurd h (by simp [Expression.getValue, valueEmitter])
    | none, h =>
      obtain ⟨rfl, rfl⟩ := pure_eq_ok.mp h
      exact ⟨(plain_of_op (by simp)).held, fun t ht => absurd ht (by simp [infer, TypeEnv.literal])⟩
  | binary n l op r hl hr =>
    refine ⟨?_, refTyped_fail _ _⟩
    intro d w d' hd h
    refine ⟨hstep _ hd h, ?_⟩
    have hcond : ∀ forAnd, (conditionalValue forAnd l.getValue r.getValue).run d = .ok (w, d') →
        op.isArithmetic = false → Held d' w ∧ ∀ t, (binary n l op r).infer Γ = some t → w.ty = t := by
      intro forAnd hrun hop
      obtain ⟨hty, hplain⟩ := conditionalValue_typed (emitsRules.getValue l) (emitsRules.getValue r)
        hd.loads hrun
      refine ⟨hplain.held, fun t ht => ?_⟩
      obtain ⟨lt, -, ht⟩ := Option.bind_eq_some_iff.mp ht
      obtain ⟨rt, -, ht⟩ := Option.bind_eq_some_iff.mp ht
      rw [operatorType, hop] at ht
      simp only [Bool.false_eq_true, if_false, Option.ite_none_right_eq_some, Option.some.injEq] at ht
      rw [hty, ht.2]
    have hstrict : (do
        let lh ← l.getValue
        let rh ← r.getValue
        strictOperator op lh rh).run d = .ok (w, d') →
        Held d' w ∧ ∀ t, (binary n l op r).infer Γ = some t → w.ty = t := by
      intro hrun
      obtain ⟨lh, d₁, h₁, hrun⟩ := bind_eq_ok.mp hrun
      obtain ⟨rh, d₂, h₂, h₃⟩ := bind_eq_ok.mp hrun
      obtain ⟨hd₁, -, hlty⟩ := hl.1 hd h₁
      obtain ⟨hd₂, -, -⟩ := hr.1 hd₁ h₂
      obtain ⟨hty, hplain⟩ := strictOperator_typed hd₂.loads h₃
      refine ⟨hplain.held, fun t ht => ?_⟩
      obtain ⟨lt, hlt, ht⟩ := Option.bind_eq_some_iff.mp ht
      obtain ⟨rt, -, ht⟩ := Option.bind_eq_some_iff.mp ht
      rw [hty, hlty lt hlt]
      unfold operatorType at ht
      split_ifs at ht with harith
      · simpa [harith] using ht
      · simpa [harith] using ht
    cases op with
    | conditionalAnd => exact hcond true h rfl
    | conditionalOr => exact hcond false h rfl
    | _ => exact hstrict h
  | pointerOf n t ht =>
    refine ⟨?_, refTyped_fail _ _⟩
    intro d w d' hd h
    refine ⟨hstep _ hd h, ?_⟩
    obtain ⟨v, d₁, h₁, h₂⟩ := bind_eq_ok.mp h
    obtain ⟨-, hheld, hty⟩ := ht.1 hd h₁
    obtain ⟨hptr, hplain, -⟩ := pointerOperand_plain hheld h₂
    refine ⟨hplain.held, ?_⟩
    intro t' ht'
    obtain ⟨u, hu, rfl⟩ := Option.map_eq_some_iff.mp ht'
    rw [hptr, hty u hu]
  | rowLiteral n es hes =>
    refine ⟨?_, refTyped_fail _ _⟩
    intro d w d' hd h
    refine ⟨hstep _ hd h, ?_⟩
    obtain ⟨ts, d₁, h₁, h⟩ := bind_eq_ok.mp h
    obtain ⟨ty, d₂, h₂, h⟩ := bind_eq_ok.mp h
    have hd₁ := hd.step (buildsRules.getTypes _) (emitsRules.getTypes _) h₁
    obtain ⟨-, rfl, rfl⟩ := requireRow_eq_ok.mp h₂
    obtain ⟨hty, hplain⟩ := rowElements_typed (fun e he => (hes e he).1) hd₁
      (plain_of_op (by simp)) h
    refine ⟨hplain.held, ?_⟩
    intro t ht
    obtain ⟨us, hus, ht⟩ := Option.bind_eq_some_iff.mp ht
    unfold rowLiteralType at ht
    split_ifs at ht
    rw [hty, ← Option.some.inj ht, getTypes_inferAll hd.env h₁ hus]
  | arrayLiteral n es hes =>
    refine ⟨?_, refTyped_fail _ _⟩
    intro d w d' hd h
    refine ⟨hstep _ hd h, ?_⟩
    obtain ⟨ty, d₁, h₁, h⟩ := bind_eq_ok.mp h
    have hd₁ := hd.step (buildsRules.getType _) (emitsRules.getType _) h₁
    obtain ⟨hty, hplain⟩ := arrayElements_typed (fun e he => (hes e he).1) hd₁
      (plain_of_op (by simp)) h
    refine ⟨hplain.held, ?_⟩
    intro t ht
    obtain ⟨d'', hget, -⟩ := (Expression.arrayLiteral {} es).infer_getType ht d hd.env
    rw [arrayLiteralType, hget] at h₁
    simp only [Except.ok.injEq, Prod.mk.injEq] at h₁
    rw [hty, h₁.1]
  | variableRef n x => exact ⟨refTyped_load (refTyped_findVar x), refTyped_findVar x⟩
  | functionCall n p as _ has =>
    refine ⟨?_, refTyped_fail _ _⟩
    intro d w d' hd h
    refine ⟨hstep _ hd h, ?_⟩
    obtain ⟨f, d₁, h₁, h⟩ := bind_eq_ok.mp h
    obtain ⟨t, d₂, h₂, h⟩ := bind_eq_ok.mp h
    obtain ⟨vs, d₃, h₃, h⟩ := bind_eq_ok.mp h
    obtain ⟨u, d₄, h₄, h⟩ := bind_eq_ok.mp h
    obtain ⟨hf, rfl⟩ := calleeName_eq_ok.mp h₁
    obtain ⟨ht, rfl⟩ := require_eq_ok.mp h₂
    obtain ⟨hu, rfl⟩ := require_eq_ok.mp h₄
    have hd₃ := hd.step (buildsRules.callRules.getArgs_of fun e _ => buildsRules.getValue e)
      (emitsRules.callRules.getArgs_of fun e _ => emitsRules.getValue e) h₃
    obtain ⟨hty, hplain⟩ := emitResult_plain hd₃.loads h
    refine ⟨hplain.held, ?_⟩
    intro t' ht'
    obtain ⟨_, -, ht'⟩ := Option.bind_eq_some_iff.mp ht'
    rw [calleeType_eq hf, hu, Option.some.injEq] at ht'
    rw [hty, ht']
  | arrayReference n p i hp hi =>
    cases p with
    | none =>
      refine ⟨?_, refTyped_fail _ _⟩
      intro d w d' hd h
      exact absurd h (by simp [Expression.getValue])
    | some p =>
      have href := refTyped_arrayRef (q := i.infer Γ) (hp p rfl).1
        (buildsRules.callRules.arrayRef (buildsRules.getValue p) (buildsRules.getValue i))
        (emitsRules.getValue i)
        (emitsRules.callRules.arrayRef (emitsRules.getValue p) (emitsRules.getValue i))
      exact ⟨refTyped_load href, href⟩
  | memberReference n p x o _ =>
    refine ⟨?_, refTyped_memberRef p o⟩
    intro d w d' hd h
    obtain ⟨hd', hheld, hty⟩ := refTyped_load (refTyped_memberRef p o) hd h
    refine ⟨hd', hheld, ?_⟩
    intro t ht
    obtain ⟨f, hf, ht⟩ := Option.bind_eq_some_iff.mp ht
    obtain ⟨u, -, ht⟩ := Option.bind_eq_some_iff.mp ht
    split_ifs at ht
    obtain rfl := Option.some.inj ht
    exact hty f hf
  | assign n t v ht hv =>
    refine ⟨?_, refTyped_fail _ _⟩
    intro d w d' hd h
    refine ⟨hstep _ hd h, ?_⟩
    obtain ⟨target, d₁, h₁, h⟩ := bind_eq_ok.mp h
    obtain ⟨value, d₂, h₂, h⟩ := bind_eq_ok.mp h
    obtain ⟨_, d₃, h₃, h₄⟩ := bind_eq_ok.mp h
    obtain ⟨hd₁, hplain, hty⟩ := ht.2 hd h₁
    have hplain₃ := (hplain.mono (emitsRules.getValue v h₂)).mono (emitsRules.createStore _ _ _ h₃)
    obtain ⟨hptr, hheld⟩ := createLoad_held hplain₃ h₄
    refine ⟨hheld, ?_⟩
    intro u hu
    obtain ⟨u', hu', hu⟩ := Option.bind_eq_some_iff.mp hu
    obtain ⟨vt, -, hu⟩ := Option.bind_eq_some_iff.mp hu
    split_ifs at hu
    obtain rfl := Option.some.inj hu
    rw [hty u' hu', LLType.ptr.injEq] at hptr
    exact hptr.symm

variable (Γ) in
def AllAgree (es : List Expression) : Prop := ∀ e ∈ es, Agrees Γ e

@[simp] theorem allAgree_nil : AllAgree Γ [] := by simp [AllAgree]

@[simp] theorem allAgree_cons {e : Expression} {es : List Expression} :
    AllAgree Γ (e :: es) ↔ Agrees Γ e ∧ AllAgree Γ es := List.forall_mem_cons

@[simp] theorem allAgree_append {es fs : List Expression} :
    AllAgree Γ (es ++ fs) ↔ AllAgree Γ es ∧ AllAgree Γ fs := List.forall_mem_append

theorem agrees_of_infer {e : Expression} {t : LLType} (h : e.infer Γ = some t) : Agrees Γ e := by
  intro d v d' hd hrun
  obtain ⟨d'', hget, -⟩ := e.infer_getType h d hd.env
  rw [(e.valueTyped.1 hd hrun).2.2 t h]
  exact ⟨d'', hget⟩

/-- Values of these types fit into an aggregate from an index on. -/
def Fits (t : LLType) : ℕ → List LLType → Prop
  | _, [] => True
  | i, u :: us => t.fieldAt i = some u ∧ Fits t (i+1) us

/-- The type of what is inserted into a row for an element. -/
def insertedType : LLType → LLType
  | .ptr t => t
  | t => t

theorem insertedType_eq_iff (t : LLType) : insertedType t = t ↔ t.isPointer = false := by
  cases t with
  | ptr t =>
    have hne : t ≠ .ptr t := by
      intro h
      have := congrArg sizeOf h
      simp at this
    simp [insertedType, LLType.isPointer, hne]
  | _ => simp [insertedType, LLType.isPointer]

theorem fits_row (us ts : List LLType) :
    Fits (.row (us ++ ts)) us.length (ts.map insertedType) ↔ ts.any LLType.isPointer = false := by
  induction ts generalizing us with
  | nil => simp [Fits]
  | cons t ts ih =>
    have hfield : (LLType.row (us ++ t :: ts)).fieldAt us.length = some t := by
      simp [LLType.fieldAt, LLType.fields]
    have hrest := ih (us ++ [t])
    rw [List.append_assoc, List.singleton_append, List.length_append, List.length_singleton] at hrest
    rw [List.map_cons, Fits, hfield, hrest, Option.some.injEq, eq_comm, insertedType_eq_iff,
      List.any_cons, Bool.or_eq_false_iff]

theorem fits_array {t : LLType} {m i : ℕ} {ts : List LLType} (h : i + ts.length ≤ m) :
    Fits (.array t m) i ts ↔ ts.all (· = t) = true := by
  induction ts generalizing i with
  | nil => simp [Fits]
  | cons u ts ih =>
    rw [List.length_cons] at h
    have hfield : (LLType.array t m).fieldAt i = some t := by
      simp only [LLType.fieldAt]
      rw [if_pos (by omega)]
    rw [Fits, hfield, ih (by omega), Option.some.injEq, List.all_cons, Bool.and_eq_true,
      decide_eq_true_iff, eq_comm]

theorem judged_createInsertValue (tag : Tag)
    (h : tag.origin = .rowLiteral ∨ tag.origin = .arrayLiteral) (n : ℕ) (agg v : LLValue) (i : ℕ) :
    (createInsertValue tag agg v i).Judged Γ n True (agg.ty.fieldAt i = some v.ty) := by
  refine (judgedLookup.require _ _).seq fun _ => judged_emitResult (fun r => ?_) _
  rw [Instr.wellTyped, if_pos h, beq_iff_eq]

theorem rowField_typed {probe value field : LLValue} {t : LLType} {d d' : Ctx} (hp : probe.ty = t)
    (hv : value.ty = t) (h : (rowField probe value).run d = .ok (field, d')) :
    field.ty = insertedType t := by
  unfold rowField at h
  split_ifs at h with hptr
  · obtain ⟨u, d₁, h₁, h₂⟩ := bind_eq_ok.mp h
    obtain ⟨hu, -⟩ := pointee_eq_ok.mp h₁
    rw [← (emitLoad_eq_ok.mp h₂).1]
    rw [← hv, hu]
    rfl
  · obtain ⟨rfl, -⟩ := pure_eq_ok.mp h
    rw [hv, (insertedType_eq_iff t).mpr]
    rw [← hp]
    simpa using hptr

theorem judged_rowField (n : ℕ) (probe value : LLValue) :
    (rowField probe value).Judged Γ n True True := by
  unfold rowField
  split_ifs
  · exact judged_createLoad value
  · exact judgedLookup.pure value

variable (Γ) in
/-- The value of the expression is judged by the typing rules. -/
def ValueJudged (e : Expression) : Prop :=
  e.getValue.Judged Γ 0 (AllAgree Γ e.evaluated) ((e.infer Γ).isSome = true)

theorem judged_rowElements {es : List Expression} (h : ∀ e ∈ es, ValueJudged Γ e) (i : ℕ)
    (prev : LLValue) : (rowElements es i prev).Judged Γ 0 (AllAgree Γ (evaluatedAll es))
      (∃ ts, inferAll Γ es = some ts ∧ Fits prev.ty i (ts.map insertedType)) := by
  induction es generalizing i prev with
  | nil =>
    refine (judgedLookup.pure prev).congr ?_ ?_
    · simp [evaluatedAll]
    · simp [inferAll, Fits]
  | cons e es ih =>
    rw [List.forall_mem_cons] at h
    intro d v d' hd hn hrun
    obtain ⟨probe, d₁, h₁, hrun⟩ := bind_eq_ok.mp hrun
    obtain ⟨value, d₂, h₂, hrun⟩ := bind_eq_ok.mp hrun
    obtain ⟨field, d₃, h₃, hrun⟩ := bind_eq_ok.mp hrun
    obtain ⟨next, d₄, h₄, hrun⟩ := bind_eq_ok.mp hrun
    obtain ⟨hd₁, he₁, hiff₁⟩ := h.1 hd (Nat.zero_le _) h₁
    obtain ⟨hd₂, he₂, hiff₂⟩ := h.1 hd₁ (Nat.zero_le _) h₂
    obtain ⟨hd₃, he₃, hiff₃⟩ := judged_rowField 0 probe value hd₂ (Nat.zero_le _) h₃
    obtain ⟨hd₄, he₄, hiff₄⟩ := judged_createInsertValue ⟨.rowLiteral, 0⟩ (.inl rfl) 0 prev field
      i hd₃ (Nat.zero_le _) h₄
    obtain ⟨hd', he', hiff⟩ := ih h.2 (i+1) next hd₄ (Nat.zero_le _) hrun
    refine ⟨hd', he₁.trans (he₂.trans (he₃.trans (he₄.trans he'))), ?_⟩
    have hnext : next.ty = prev.ty := (createInsertValue_typed hd₃.loads h₄).1
    have hfield : ∀ t, e.infer Γ = some t → field.ty = insertedType t := fun t ht =>
      rowField_typed ((e.valueTyped.1 hd h₁).2.2 t ht) ((e.valueTyped.1 hd₁ h₂).2.2 t ht) h₃
    rw [newTyped_trans he₁ (he₂.trans (he₃.trans (he₄.trans he'))),
      newTyped_trans he₂ (he₃.trans (he₄.trans he')), newTyped_trans he₃ (he₄.trans he'),
      newTyped_trans he₄ he', evaluatedAll, allAgree_append]
    rw [and_true] at hiff₃ hiff₄
    rw [hnext] at hiff
    constructor
    · intro ⟨⟨hnew₁, hnew₂, hnew₃, hnew₄, hnew⟩, hagree, hagrees⟩
      obtain ⟨t, ht⟩ := Option.isSome_iff_exists.mp (hiff₁.mp ⟨hnew₁, hagree⟩)
      obtain ⟨ts, hts, hfits⟩ := hiff.mp ⟨hnew, hagrees⟩
      refine ⟨t :: ts, by simp [inferAll, ht, hts], ?_⟩
      exact ⟨by rw [hiff₄.mp hnew₄, hfield t ht], hfits⟩
    · intro ⟨us, hus, hfits⟩
      obtain ⟨t, ht, hus⟩ := Option.bind_eq_some_iff.mp hus
      obtain ⟨ts, hts, hret⟩ := Option.bind_eq_some_iff.mp hus
      obtain rfl := Option.some.inj hret
      have hsome : (e.infer Γ).isSome = true := by simp [ht]
      obtain ⟨hnew₁, hagree⟩ := hiff₁.mpr hsome
      obtain ⟨hnew, hagrees⟩ := hiff.mpr ⟨ts, hts, hfits.2⟩
      refine ⟨⟨hnew₁, (hiff₂.mpr hsome).1, hiff₃.mpr trivial, hiff₄.mpr ?_, hnew⟩, hagree, hagrees⟩
      rw [hfield t ht]
      exact hfits.1

theorem judged_arrayElements {es : List Expression} (h : ∀ e ∈ es, ValueJudged Γ e) (i : ℕ)
    (prev : LLValue) : (arrayElements es i prev).Judged Γ 0 (AllAgree Γ (evaluatedAll es))
      (∃ ts, inferAll Γ es = some ts ∧ Fits prev.ty i ts) := by
  induction es generalizing i prev with
  | nil =>
    refine (judgedLookup.pure prev).congr ?_ ?_
    · simp [evaluatedAll]
    · simp [inferAll, Fits]
  | cons e es ih =>
    rw [List.forall_mem_cons] at h
    intro d v d' hd hn hrun
    obtain ⟨value, d₁, h₁, hrun⟩ := bind_eq_ok.mp hrun
    obtain ⟨next, d₂, h₂, hrun⟩ := bind_eq_ok.mp hrun
    obtain ⟨hd₁, he₁, hiff₁⟩ := h.1 hd (Nat.zero_le _) h₁
    obtain ⟨hd₂, he₂, hiff₂⟩ := judged_createInsertValue ⟨.arrayLiteral, 0⟩ (.inr rfl) 0 prev
      value i hd₁ (Nat.zero_le _) h₂
    obtain ⟨hd', he', hiff⟩ := ih h.2 (i+1) next hd₂ (Nat.zero_le _) hrun
    refine ⟨hd', he₁.trans (he₂.trans he'), ?_⟩
    have hnext : next.ty = prev.ty := (createInsertValue_typed hd₁.loads h₂).1
    have hvalue : ∀ t, e.infer Γ = some t → value.ty = t := (e.valueTyped.1 hd h₁).2.2
    rw [newTyped_trans he₁ (he₂.trans he'), newTyped_trans he₂ he', evaluatedAll, allAgree_append]
    rw [and_true] at hiff₂
    rw [hnext] at hiff
    constructor
    · intro ⟨⟨hnew₁, hnew₂, hnew⟩, hagree, hagrees⟩
      obtain ⟨t, ht⟩ := Option.isSome_iff_exists.mp (hiff₁.mp ⟨hnew₁, hagree⟩)
      obtain ⟨ts, hts, hfits⟩ := hiff.mp ⟨hnew, hagrees⟩
      refine ⟨t :: ts, by simp [inferAll, ht, hts], ?_⟩
      exact ⟨by rw [hiff₂.mp hnew₂, hvalue t ht], hfits⟩
    · intro ⟨us, hus, hfits⟩
      obtain ⟨t, ht, hus⟩ := Option.bind_eq_some_iff.mp hus
      obtain ⟨ts, hts, hret⟩ := Option.bind_eq_some_iff.mp hus
      obtain rfl := Option.some.inj hret
      obtain ⟨hnew₁, hagree⟩ := hiff₁.mpr (by simp [ht])
      obtain ⟨hnew, hagrees⟩ := hiff.mpr ⟨ts, hts, hfits.2⟩
      refine ⟨⟨hnew₁, hiff₂.mpr ?_, hnew⟩, hagree, hagrees⟩
      rw [hvalue t ht]
      exact hfits.1

theorem judged_getArgs {es : List Expression} (h : ∀ e ∈ es, ValueJudged Γ e) :
    (getArgs es).Judged Γ 0 (AllAgree Γ (evaluatedAll es)) ((inferAll Γ es).isSome = true) := by
  induction es with
  | nil => exact (judgedLookup.pure _).congr (by simp [evaluatedAll]) (by simp [inferAll])
  | cons e es ih =>
    rw [List.forall_mem_cons] at h
    have hpass : ∀ v, (passArgument e.note.stack v).Judged Γ 0 True True := by
      intro v
      unfold passArgument
      split
      · split_ifs
        · exact judged_createLoad v
        · exact judgedLookup.pure v
      · split_ifs
        · exact judgedLookup.pure v
        · exact (judgedLookup.require _ _).seq fun _ => judgedLookup.get.seq fun _ =>
            (judgedLookup.require _ _).seq fun _ => (judged_neutral (by simp [Instr.wellTyped])).seq
              fun _ => judgedLookup.pure _
        · exact judgedLookup.fail _
    refine (h.1.bind fun v => (hpass v).seq fun _ => (ih h.2).seq_left fun _ =>
      judgedLookup.pure _).congr ?_ ?_
    · rw [evaluatedAll, allAgree_append]
    · cases hinfer : e.infer Γ <;> cases hall : inferAll Γ es <;> simp [inferAll, hinfer, hall]

/-- What remains for an expression when its parts are judged: the agreement at the run itself
gives the rule of its form. -/
theorem judged_of_parts {e : Expression} {parts : List Expression} {P : Prop}
    (hparts : e.evaluated = e :: parts) (hp : e.getValue.Judged Γ 0 (AllAgree Γ parts) P)
    (hmp : ∀ ⦃d v d'⦄, Ready Γ d → e.getValue.run d = .ok (v, d') → P →
      (∃ d'', e.getType.run d = .ok (v.ty, d'')) → (e.infer Γ).isSome = true)
    (hmpr : (e.infer Γ).isSome = true → P) : ValueJudged Γ e := by
  intro d v d' hd hn h
  obtain ⟨hd', he, hiff⟩ := hp hd hn h
  refine ⟨hd', he, ?_⟩
  rw [hparts, allAgree_cons]
  constructor
  · intro ⟨hnew, hagree, hagrees⟩
    exact hmp hd h (hiff.mp ⟨hnew, hagrees⟩) (hagree hd h)
  · intro hsome
    obtain ⟨t, ht⟩ := Option.isSome_iff_exists.mp hsome
    obtain ⟨hnew, hagrees⟩ := hiff.mpr (hmpr hsome)
    exact ⟨hnew, agrees_of_infer ht, hagrees⟩

theorem getType_of_infer {e : Expression} {t u : LLType} {d d' : Ctx} (ht : e.infer Γ = some t)
    (hd : d.typeEnv = Γ) (h : e.getType.run d = .ok (u, d')) : u = t := by
  obtain ⟨d'', hrun, -⟩ := e.infer_getType ht d hd
  rw [h] at hrun
  simp only [Except.ok.injEq, Prod.mk.injEq] at hrun
  exact hrun.1

theorem operatorType_isSome {op : Operators} {l r t : LLType} (hl : t = l) (hr : t = r)
    (h : t = if op.isArithmetic then l else .i1) : (operatorType op l r).isSome = true := by
  subst hl hr
  unfold operatorType
  cases harith : op.isArithmetic with
  | true => simp
  | false =>
    rw [harith, if_neg (by simp)] at h
    simp [h]

theorem Expression.judged_binary {n : Note} {l r : Expression} {op : Operators}
    (hp : (binary n l op r).getValue.Judged Γ 0 (AllAgree Γ l.evaluated ∧ AllAgree Γ r.evaluated)
      ((l.infer Γ).isSome = true ∧ (r.infer Γ).isSome = true))
    (hty : ∀ ⦃d v d'⦄, Ready Γ d → (binary n l op r).getValue.run d = .ok (v, d') →
      ∀ t, l.infer Γ = some t → v.ty = if op.isArithmetic then t else .i1) :
    ValueJudged Γ (binary n l op r) := by
  refine judged_of_parts rfl (hp.congr allAgree_append.symm Iff.rfl) ?_ ?_
  · intro d v d' hd h ⟨hl, hr⟩ ⟨d'', hget⟩
    obtain ⟨lt, hlt⟩ := Option.isSome_iff_exists.mp hl
    obtain ⟨rt, hrt⟩ := Option.isSome_iff_exists.mp hr
    obtain ⟨rt', d₁, h₁, hget⟩ := bind_eq_ok.mp hget
    obtain ⟨lt', d₂, h₂, hget⟩ := bind_eq_ok.mp hget
    obtain rfl := getType_of_infer hrt hd.env h₁
    obtain rfl := getType_of_infer hlt ((getType_typeEnv h₁).trans hd.env) h₂
    split_ifs at hget with hne
    · simp at hget
    · obtain ⟨hv, -⟩ := pure_eq_ok.mp hget
      rw [ne_eq, not_not] at hne
      simp only [infer, hlt, hrt, Option.bind_eq_bind, Option.bind_some]
      exact operatorType_isSome (hv.symm.trans hne) hv.symm (hty hd h _ hlt)
  · intro hsome
    obtain ⟨t, ht⟩ := Option.isSome_iff_exists.mp hsome
    obtain ⟨lt, hlt, ht⟩ := Option.bind_eq_some_iff.mp ht
    obtain ⟨rt, hrt, -⟩ := Option.bind_eq_some_iff.mp ht
    simp [hlt, hrt]

theorem judged_strictOperator (op : Operators) (l r : LLValue) :
    (strictOperator op l r).Judged Γ 0 True True := by
  have hbinary : ∀ o, (createBinary o l r).Judged Γ 0 True True := fun _ =>
    judged_result (fun _ => rfl) _
  have hicmp : ∀ o, (createICmp o l r).Judged Γ 0 True True := fun _ =>
    judged_result (fun _ => rfl) _
  cases op with
  | plus | minus | multiple | division | modulo => exact hbinary _
  | equal | notequal | lessthan | lessequal | morethan | moreequal => exact hicmp _
  | conditionalAnd | conditionalOr | none => exact judgedLookup.fail _

theorem judged_arrayRef {p i : Expression} (hp : ValueJudged Γ p) (hi : ValueJudged Γ i) :
    (arrayRef p.getValue i.getValue).Judged Γ 0 (AllAgree Γ p.evaluated ∧ AllAgree Γ i.evaluated)
      ((do
        let pt ← p.infer Γ
        let _ ← i.infer Γ
        elementOf pt).isSome = true) := by
  intro d v d' hd hn h
  have hparts : (arrayRef p.getValue i.getValue).Judged Γ 0
      (AllAgree Γ p.evaluated ∧ AllAgree Γ i.evaluated)
      ((p.infer Γ).isSome = true ∧ (i.infer Γ).isSome = true) :=
    hp.bind fun arr => hi.seq_left fun _ => (judgedLookup.pointerOperand arr).seq fun base =>
      (judgedLookup.pointee base.ty).seq fun t => (judgedLookup.arrayElementType t).seq fun _ =>
        (judgedLookup.gepIndex _).seq fun _ => judged_result (fun _ => rfl) _
  obtain ⟨hd', he, hiff⟩ := hparts hd hn h
  refine ⟨hd', he, hiff.trans ?_⟩
  obtain ⟨-, hty⟩ := arrayRef_element p.valueTyped.1 (emitsRules.getValue i) hd h
  cases hpt : p.infer Γ with
  | none => simp
  | some pt =>
    obtain ⟨u, hu, -⟩ := hty pt hpt
    cases hit : i.infer Γ <;> simp [hu]

variable (Γ) in
def RefJudged (e : Expression) : Prop :=
  e.getRef.Judged Γ 0 (AllAgree Γ e.evaluatedRef) ((e.inferRef Γ).isSome = true)

theorem refJudged_fail {e : Expression} (h : e.getRef = fail .undefined) : RefJudged Γ e := by
  intro d v d' hd hn hrun
  rw [h] at hrun
  simp at hrun

theorem judged_findVar (x : Text) : (findVar x).Judged Γ 0 True ((Γ.slot x).isSome = true) := by
  intro d p d' hd hn h
  obtain ⟨i, t, rfl, ht, rfl⟩ := findVar_typed h
  refine ⟨hd, Relation.ReflTransGen.refl, ?_⟩
  rw [hd.env] at ht
  exact iff_of_true ⟨newTyped_refl _, trivial⟩ (by simp [ht])

theorem judged_memberRef (p : Expression) (o : Option ℕ) :
    (memberRef p o).Judged Γ 0 True ((Γ.field p o).isSome = true) := by
  intro d v d' hd hn h
  obtain ⟨f, hf, -⟩ := memberRef_typed hd h
  have hneutral : (memberRef p o).Judged Γ 0 True True :=
    (judgedLookup.memberBase p).seq fun base => (judgedLookup.require _ _).seq fun _ =>
      (judgedLookup.pointee base.ty).seq fun _ => (judgedLookup.require _ _).seq fun _ =>
        judged_result (fun _ => rfl) _
  obtain ⟨hd', he, hiff⟩ := hneutral hd hn h
  exact ⟨hd', he, hiff.trans (by simp [hf])⟩

theorem Expression.judged_primary (n : Note) (v : MaybeValue) : ValueJudged Γ (.primary n v) := by
  have hvalue : (primary n v).getValue.Judged Γ 0 (AllAgree Γ []) True :=
    (judgedLookup.valueEmitter v).congr (by simp) Iff.rfl
  refine judged_of_parts rfl hvalue ?_ (fun _ => trivial)
  intro d w d' hd h _ ⟨d'', hget⟩
  match v, h, hget with
  | some (.int i), h, hget => rfl
  | some (.varchar x), h, hget =>
    obtain ⟨hu, -⟩ := stringType_eq_ok.mp hget
    rw [hd.env] at hu
    simp [infer, TypeEnv.literal, hu]
  | some (.float b), h, hget => exact absurd h (by simp [Expression.getValue, valueEmitter])
  | some .unknown, h, hget => exact absurd h (by simp [Expression.getValue, valueEmitter])
  | none, h, hget =>
    obtain ⟨rfl, -⟩ := pure_eq_ok.mp h
    exact absurd (pure_eq_ok.mp hget).1 (by simp)

theorem Expression.judged_rowLiteral {n : Note} {es : List Expression}
    (h : ∀ e ∈ es, ValueJudged Γ e) : ValueJudged Γ (.rowLiteral n es) := by
  have hparts : (rowLiteral n es).getValue.Judged Γ 0 (AllAgree Γ (evaluatedAll es))
      (((inferAll Γ es).bind rowLiteralType).isSome = true) := by
    intro d v d' hd hn hrun
    obtain ⟨ts, d₁, h₁, hrun⟩ := bind_eq_ok.mp hrun
    obtain ⟨ty, d₂, h₂, hrun⟩ := bind_eq_ok.mp hrun
    obtain ⟨hd₁, he₁, hiff₁⟩ := judgedLookup.getTypes es hd hn h₁
    obtain ⟨-, rfl, rfl⟩ := requireRow_eq_ok.mp h₂
    obtain ⟨hd', he, hiff⟩ := judged_rowElements h 0 ⟨.undef, .row ts⟩ hd₁ (Nat.zero_le _) hrun
    refine ⟨hd', he₁.trans he, ?_⟩
    rw [newTyped_trans he₁ he, and_iff_right (hiff₁.mpr trivial).1, hiff]
    have htypes : ∀ us, inferAll Γ es = some us → us = ts := fun us hus =>
      (getTypes_inferAll hd.env h₁ hus).symm
    cases hinfer : inferAll Γ es with
    | none => simp
    | some us =>
      obtain rfl := htypes us hinfer
      have hfits := fits_row [] us
      rw [List.nil_append, List.length_nil] at hfits
      simp only [Option.some.injEq, exists_eq_left', Option.bind_some, hfits, rowLiteralType]
      cases us.any LLType.isPointer <;> simp
  exact judged_of_parts rfl hparts (fun _ _ _ _ _ hsome _ => hsome) id

theorem Expression.judged_arrayLiteral {n : Note} {es : List Expression}
    (h : ∀ e ∈ es, ValueJudged Γ e) : ValueJudged Γ (.arrayLiteral n es) := by
  have hparts : (arrayLiteral n es).getValue.Judged Γ 0 (AllAgree Γ (evaluatedAll es))
      (((inferAll Γ es).bind arrayLiteralOf).isSome = true) := by
    intro d v d' hd hn hrun
    obtain ⟨ty, d₁, h₁, hrun⟩ := bind_eq_ok.mp hrun
    obtain ⟨hd₁, he₁, hiff₁⟩ := judgedLookup.getType (.arrayLiteral {} es) hd hn h₁
    obtain ⟨hd', he, hiff⟩ := judged_arrayElements h 0 ⟨.undef, ty⟩ hd₁ (Nat.zero_le _) hrun
    refine ⟨hd', he₁.trans he, ?_⟩
    rw [newTyped_trans he₁ he, and_iff_right (hiff₁.mpr trivial).1, hiff]
    cases hinfer : inferAll Γ es with
    | none => simp
    | some us =>
      cases es with
      | nil => exact absurd h₁ (by simp [arrayLiteralType, Expression.getType])
      | cons e es =>
        obtain ⟨t, ht, hus⟩ := Option.bind_eq_some_iff.mp hinfer
        obtain ⟨ts, hts, hret⟩ := Option.bind_eq_some_iff.mp hus
        obtain rfl := Option.some.inj hret
        obtain ⟨t', d₂, h₂, h₃⟩ := bind_eq_ok.mp h₁
        obtain rfl := getType_of_infer ht hd.env h₂
        obtain ⟨rfl, -⟩ := pure_eq_ok.mp h₃
        have hlen := inferAll_length hts
        simp only [Option.some.injEq, exists_eq_left', Option.bind_some, arrayLiteralOf]
        rw [fits_array (by simp [hlen]), List.all_cons]
        cases ts.all (· = t') <;> simp
  exact judged_of_parts rfl hparts (fun _ _ _ _ _ hsome _ => hsome) id

theorem Expression.judged_assign {n : Note} {t v : Expression} (ht : RefJudged Γ t)
    (hv : ValueJudged Γ v) : ValueJudged Γ (.assign n t v) := by
  have hparts : (assign n t v).getValue.Judged Γ 0 (AllAgree Γ (t.evaluatedRef ++ v.evaluated))
      (((assign n t v).infer Γ).isSome = true) := by
    intro d w d' hd hn h
    obtain ⟨target, d₁, h₁, h⟩ := bind_eq_ok.mp h
    obtain ⟨value, d₂, h₂, h⟩ := bind_eq_ok.mp h
    obtain ⟨_, d₃, h₃, h₄⟩ := bind_eq_ok.mp h
    obtain ⟨hd₁, he₁, hiff₁⟩ := ht hd hn h₁
    obtain ⟨hd₂, he₂, hiff₂⟩ := hv hd₁ (Nat.zero_le _) h₂
    obtain ⟨hd₃, he₃, hiff₃⟩ := judged_emitInstr _ hd₂ (Nat.zero_le _) h₃
    obtain ⟨hd₄, he₄, hiff₄⟩ := judged_createLoad target hd₃ (Nat.zero_le _) h₄
    refine ⟨hd₄, he₁.trans (he₂.trans (he₃.trans he₄)), ?_⟩
    have htarget := (t.valueTyped.2 hd h₁).2.2
    have hvalue := (v.valueTyped.1 hd₁ h₂).2.2
    rw [newTyped_trans he₁ (he₂.trans (he₃.trans he₄)), newTyped_trans he₂ (he₃.trans he₄),
      newTyped_trans he₃ he₄, allAgree_append]
    have hstore : NewTyped d₂ d₃ ↔ target.ty = .ptr value.ty := by
      rw [and_true] at hiff₃
      simpa [Instr.wellTyped] using hiff₃
    rw [hstore, and_iff_left (hiff₄.mpr trivial).1]
    constructor
    · intro ⟨⟨hnew₁, hnew₂, hty⟩, hagree₁, hagree₂⟩
      obtain ⟨u, hu⟩ := Option.isSome_iff_exists.mp (hiff₁.mp ⟨hnew₁, hagree₁⟩)
      obtain ⟨vt, hvt⟩ := Option.isSome_iff_exists.mp (hiff₂.mp ⟨hnew₂, hagree₂⟩)
      rw [htarget u hu, hvalue vt hvt, LLType.ptr.injEq] at hty
      simp [infer, hu, hvt, hty]
    · intro hsome
      obtain ⟨r, hr⟩ := Option.isSome_iff_exists.mp hsome
      obtain ⟨u, hu, hr⟩ := Option.bind_eq_some_iff.mp hr
      obtain ⟨vt, hvt, hr⟩ := Option.bind_eq_some_iff.mp hr
      split_ifs at hr with heq
      obtain ⟨hnew₁, hagree₁⟩ := hiff₁.mpr (by simp [hu])
      obtain ⟨hnew₂, hagree₂⟩ := hiff₂.mpr (by simp [hvt])
      refine ⟨⟨hnew₁, hnew₂, ?_⟩, hagree₁, hagree₂⟩
      rw [htarget u hu, hvalue vt hvt, heq]
  exact judged_of_parts rfl hparts (fun _ _ _ _ _ hsome _ => hsome) id

/-- The code of an expression is well typed, and all that it evaluates agrees, exactly when the
expression is typed. -/
theorem Expression.judged (e : Expression) : ValueJudged Γ e ∧ RefJudged Γ e := by
  induction e using Expression.induction with
  | primary n v => exact ⟨judged_primary n v, refJudged_fail rfl⟩
  | binary n l op r hl hr =>
    refine ⟨?_, refJudged_fail rfl⟩
    have hcond : ∀ forAnd, op.isArithmetic = false →
        (binary n l op r).getValue = conditionalValue forAnd l.getValue r.getValue →
        ValueJudged Γ (binary n l op r) := by
      intro forAnd hop hcode
      refine judged_binary (hcode ▸ judged_conditionalValue hl.1 hr.1) ?_
      intro d v d' hd h t _
      rw [hcode] at h
      rw [hop, (conditionalValue_typed (emitsRules.getValue l) (emitsRules.getValue r) hd.loads h).1]
      rfl
    have hstrict : (binary n l op r).getValue = (do
        let lh ← l.getValue
        let rh ← r.getValue
        strictOperator op lh rh) → ValueJudged Γ (binary n l op r) := by
      intro hcode
      refine judged_binary ?_ ?_
      · rw [hcode]
        exact hl.1.bind fun lh => hr.1.seq_left fun rh => judged_strictOperator op lh rh
      · intro d v d' hd h t ht
        rw [hcode] at h
        obtain ⟨lh, d₁, h₁, h⟩ := bind_eq_ok.mp h
        obtain ⟨rh, d₂, h₂, h₃⟩ := bind_eq_ok.mp h
        obtain ⟨hd₁, -, hlty⟩ := l.valueTyped.1 hd h₁
        obtain ⟨hd₂, -, -⟩ := r.valueTyped.1 hd₁ h₂
        rw [(strictOperator_typed hd₂.loads h₃).1, hlty t ht]
    cases op with
    | conditionalAnd => exact hcond true rfl rfl
    | conditionalOr => exact hcond false rfl rfl
    | _ => exact hstrict rfl
  | pointerOf n t ht =>
    refine ⟨?_, refJudged_fail rfl⟩
    refine judged_of_parts rfl (ht.1.seq_left judgedLookup.pointerOperand) ?_ ?_
    · intro _ _ _ _ _ hsome _
      simpa [infer] using hsome
    · intro hsome
      simpa [infer] using hsome
  | rowLiteral n es hes => exact ⟨judged_rowLiteral fun e he => (hes e he).1, refJudged_fail rfl⟩
  | arrayLiteral n es hes => exact ⟨judged_arrayLiteral fun e he => (hes e he).1, refJudged_fail rfl⟩
  | variableRef n x =>
    have hvar : (findVar x).Judged Γ 0 (AllAgree Γ []) ((Γ.slot x).isSome = true) :=
      (judged_findVar x).congr (by simp) Iff.rfl
    exact ⟨judged_of_parts rfl (hvar.seq_left judged_createLoad) (fun _ _ _ _ _ hsome _ => hsome) id,
      hvar⟩
  | functionCall n p as _ has =>
    refine ⟨?_, refJudged_fail rfl⟩
    have hparts : (functionCall n p as).getValue.Judged Γ 0 (AllAgree Γ (evaluatedAll as))
        ((inferAll Γ as).isSome = true) :=
      (judgedLookup.calleeName p).seq fun f => (judgedLookup.require _ _).seq fun _ =>
        (judged_getArgs fun e he => (has e he).1).seq_left fun _ => judged_createCall _ _ _
    refine judged_of_parts rfl hparts ?_ ?_
    · intro d v d' hd h hsome _
      obtain ⟨f, d₁, h₁, h⟩ := bind_eq_ok.mp h
      obtain ⟨t, d₂, h₂, -⟩ := bind_eq_ok.mp h
      obtain ⟨ts, hts⟩ := Option.isSome_iff_exists.mp hsome
      simp [infer, hts, calleeType_eq (calleeName_eq_ok.mp h₁).1, (require_eq_ok.mp h₂).1]
    · intro hsome
      obtain ⟨t, ht⟩ := Option.isSome_iff_exists.mp hsome
      obtain ⟨ts, hts, -⟩ := Option.bind_eq_some_iff.mp ht
      simp [hts]
  | arrayReference n p i hp hi =>
    cases p with
    | none =>
      refine ⟨?_, refJudged_fail rfl⟩
      intro d v d' hd hn h
      exact absurd h (by simp [Expression.getValue])
    | some p =>
      have href := (judged_arrayRef (hp p rfl).1 hi.1).congr allAgree_append.symm Iff.rfl
      exact ⟨judged_of_parts rfl (href.seq_left judged_createLoad)
        (fun _ _ _ _ _ hsome _ => hsome) id, href⟩
  | memberReference n p x o _ =>
    have href : (memberRef p o).Judged Γ 0 (AllAgree Γ []) ((Γ.field p o).isSome = true) :=
      (judged_memberRef p o).congr (by simp) Iff.rfl
    refine ⟨?_, href⟩
    refine judged_of_parts rfl (href.seq_left judged_createLoad) ?_ ?_
    · intro d v d' hd h hsome ⟨d'', hget⟩
      obtain ⟨f, hf⟩ := Option.isSome_iff_exists.mp hsome
      obtain ⟨t, d₁, h₁, h₂⟩ := bind_eq_ok.mp hget
      obtain ⟨ht, rfl⟩ := require_eq_ok.mp h₁
      obtain ⟨hconv, -⟩ := convertType_eq_ok.mp h₂
      rw [hd.env, (refTyped_load (refTyped_memberRef p o) hd h).2.2 f hf] at hconv
      simp [infer, hf, ht, hconv]
    · intro hsome
      obtain ⟨t, ht⟩ := Option.isSome_iff_exists.mp hsome
      obtain ⟨f, hf, -⟩ := Option.bind_eq_some_iff.mp ht
      simp [hf]
  | assign n t v ht hv => exact ⟨judged_assign ht.2 hv.1, refJudged_fail rfl⟩

end

end Reir
