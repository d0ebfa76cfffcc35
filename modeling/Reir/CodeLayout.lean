import Reir.ControlFlow
import Reir.Machine

/-! Generated code as structured code. Whatever a generating step emits is laid out in every
function that the construction can grow to, from the insert point before the step to the insert
point behind it. -/
namespace Reir
open Gen BlockGraph StructuredCode

/-- The insert point. -/
def Ctx.point (c : Ctx) : Point := ⟨c.cur, (c.graph.code c.cur).length⟩

/-- Where jumps go, if code may jump. -/
def Ctx.exits (jumps : Bool) (c : Ctx) : Option Targets :=
  if jumps then c.loops.head?.map fun l => ⟨l.finish, l.every⟩ else none

/-- An instruction sets a register of a range, if any. -/
def Instr.Sets (lo hi : ℕ) (i : Instr) : Prop := ∀ r ∈ i.dst, lo ≤ r ∧ r < hi

/-- The code `k` is what was emitted between two contexts. -/
structure Laid (jumps : Bool) (c c' : Ctx) (k : Code Instr Cond) : Prop where
  region : Region c.graph c'.graph
  emits : Ctx.Emits c c'
  loops : c'.loops = c.loops
  sets : k.All (Instr.Sets c.nextReg c'.nextReg)
  layout : ∀ F : Cfg Instr, Grows c'.graph F →
    Layout machine F.code (c.exits jumps) c.point k c'.point

theorem get_of_grows {g F : Cfg Instr} (h : Grows g F) {p : Point} {i : Instr}
    (hi : (g.code p.block)[p.pc]? = some i) : Blocks.get F.code p = some i := by
  obtain ⟨ys, hys⟩ := h.code_le p.block
  rw [Blocks.get, ← hys]
  exact List.getElem?_append_left (List.getElem?_eq_some_iff.mp hi).1 ▸ hi

section
variable {c : Ctx} {i : Instr}

theorem append_code_cur (h : c.graph.cur < c.graph.size) :
    (c.append i).graph.code c.cur = c.graph.code c.cur ++ [i] := by
  have hcode := Cfg.append_code h i c.graph.cur
  rw [if_pos rfl] at hcode
  exact hcode

theorem append_point (h : c.graph.cur < c.graph.size) :
    (c.append i).point = ⟨c.cur, (c.graph.code c.cur).length+1⟩ := by
  have hcode := append_code_cur (i := i) h
  change (⟨c.cur, ((c.append i).graph.code c.cur).length⟩ : Point) = _
  rw [hcode, List.length_append, List.length_singleton]

/-- The instruction that was appended is at the insert point. -/
theorem get_append (h : c.graph.cur < c.graph.size) {F : Cfg Instr}
    (hF : Grows (c.append i).graph F) : Blocks.get F.code c.point = some i := by
  apply get_of_grows hF
  change ((c.append i).graph.code c.cur)[(c.graph.code c.cur).length]? = some i
  rw [append_code_cur h]
  simp

end

namespace Laid
variable {j : Bool} {c c₁ c₂ : Ctx} {k k' : Code Instr Cond}

theorem exits_eq (h : Laid j c c₁ k) : c₁.exits j = c.exits j := by
  simp only [Ctx.exits, h.loops]

theorem trans (h : Laid j c c₁ k) (h' : Laid j c₁ c₂ k') : Laid j c c₂ (.seq k k') where
  region := h.region.trans h'.region
  emits := Relation.ReflTransGen.trans h.emits h'.emits
  loops := h'.loops.trans h.loops
  sets := by
    have hle := h.emits.nextReg_le
    have hle' := h'.emits.nextReg_le
    constructor
    · refine h.sets.mono fun i hi r hr => ?_
      have hbound := hi r hr
      exact ⟨hbound.1, by omega⟩
    · refine h'.sets.mono fun i hi r hr => ?_
      have hbound := hi r hr
      exact ⟨by omega, hbound.2⟩
  layout := by
    intro F hF
    have hk' := h'.layout F hF
    rw [h.exits_eq] at hk'
    exact .seq (h.layout F (h'.region.grows.trans hF)) hk'

theorem weaken (h : Laid false c c₁ k) (j : Bool) : Laid j c c₁ k where
  region := h.region
  emits := h.emits
  loops := h.loops
  sets := h.sets
  layout := fun F hF => (h.layout F hF).weaken _

/-- A step that leaves the function alone. -/
theorem of_graph_eq (hc : c.graph.cur < c.graph.size) (hgraph : c₁.graph = c.graph)
    (hemits : Ctx.Emits c c₁) (hloops : c₁.loops = c.loops) : Laid j c c₁ .skip where
  region := by
    rw [hgraph]
    exact Region.refl hc
  emits := hemits
  loops := hloops
  sets := trivial
  layout := by
    intro F _
    have hpoint : c₁.point = c.point := by
      have hcur : c₁.cur = c.cur := congrArg Cfg.cur hgraph
      rw [Ctx.point, Ctx.point, hgraph, hcur]
    rw [hpoint]
    exact .skip

theorem append {i : Instr} {c₁ : Ctx} (hc : c.graph.cur < c.graph.size) (hv : i.view = .plain)
    (hgraph : c₁.graph = (c.append i).graph) (hemits : Ctx.Emits c c₁) (hloops : c₁.loops = c.loops)
    (hsets : i.Sets c.nextReg c₁.nextReg) : Laid j c c₁ (.instr i) where
  region := by
    rw [hgraph]
    exact Region.append hc i
  emits := hemits
  loops := hloops
  sets := hsets
  layout := by
    intro F hF
    rw [hgraph] at hF
    have hpoint : c₁.point = (c.append i).point := by
      have hcur : c₁.cur = (c.append i).cur := congrArg Cfg.cur hgraph
      rw [Ctx.point, Ctx.point, hgraph, hcur]
    rw [hpoint, append_point hc]
    exact .instr (get_append hc hF) hv

end Laid

/-- The code of a step from a context with the given tables, with a property of the contexts, of
the result and of the code. -/
def Gen.Lays {α : Type} (T : Ctx) (jumps : Bool) (p : Gen α)
    (P : Ctx → α → Ctx → Code Instr Cond → Prop) : Prop :=
  ∀ ⦃c a c'⦄, c.tables = T → c.LoadsBelow → c.graph.cur < c.graph.size → p.run c = .ok (a, c') →
    ∃ k, Laid jumps c c' k ∧ P c a c' k

section
variable {α β : Type} {T : Ctx} {j : Bool} {p : Gen α} {f : α → Gen β}
  {P P' : Ctx → α → Ctx → Code Instr Cond → Prop} {Q : α → Ctx → β → Ctx → Code Instr Cond → Prop}

theorem Gen.Lays.mono (h : p.Lays T j P)
    (hP : ∀ c a c' k, Laid j c c' k → P c a c' k → P' c a c' k) : p.Lays T j P' := by
  intro c a c' hT hl hc hrun
  obtain ⟨k, hk, hp⟩ := h hT hl hc hrun
  exact ⟨k, hk, hP _ _ _ _ hk hp⟩

theorem Gen.Lays.weaken (h : p.Lays T false P) (j : Bool) : p.Lays T j P := by
  intro c a c' hT hl hc hrun
  obtain ⟨k, hk, hp⟩ := h hT hl hc hrun
  exact ⟨k, hk.weaken j, hp⟩

theorem Gen.Lays.bind (hp : p.Lays T j P) (hf : ∀ a, (f a).Lays T j (Q a)) :
    (p >>= f).Lays T j fun c b c' k => ∃ a c₁ k₁ k₂, P c a c₁ k₁ ∧ Q a c₁ b c' k₂ ∧ k = .seq k₁ k₂ := by
  intro c b c' hT hl hc hrun
  obtain ⟨a, c₁, h₁, h₂⟩ := bind_eq_ok.mp hrun
  obtain ⟨k₁, hk₁, hP⟩ := hp hT hl hc h₁
  obtain ⟨k₂, hk₂, hQ⟩ := hf a (hk₁.emits.tables_eq.trans hT) (hk₁.emits.loadsBelow hl)
    hk₁.region.valid h₂
  exact ⟨.seq k₁ k₂, hk₁.trans hk₂, a, c₁, k₁, k₂, hP, hQ, rfl⟩

end

theorem exits_of_loops {j : Bool} {c c' : Ctx} (h : c'.loops = c.loops) : c'.exits j = c.exits j := by
  simp only [Ctx.exits, h]

theorem Ctx.Emits.trans {c c₁ c₂ : Ctx} (h : Ctx.Emits c c₁) (h' : Ctx.Emits c₁ c₂) :
    Ctx.Emits c c₂ :=
  Relation.ReflTransGen.trans h h'

theorem Ctx.Emits.step {c c₁ c₂ : Ctx} (h : Ctx.Emits c c₁) (h' : Ctx.Update c₁ c₂) :
    Ctx.Emits c c₂ :=
  Relation.ReflTransGen.tail h h'

theorem emits_branch (c : Ctx) (i : Instr) (b : ℕ) : Ctx.Emits c ((c.append i).moveTo b) :=
  (Ctx.Update.append c i).emits.step (.moveTo _ b)

theorem emits_newBlocks (c : Ctx) : Ctx.Emits c c.newBlock.newBlock.newBlock :=
  ((Ctx.Update.newBlock c).emits.step (.newBlock _)).step (.newBlock _)

@[simp] theorem newBlock_nextReg (c : Ctx) : c.newBlock.nextReg = c.nextReg := rfl

@[simp] theorem append_nextReg (c : Ctx) (i : Instr) : (c.append i).nextReg = c.nextReg := rfl

@[simp] theorem moveTo_nextReg (c : Ctx) (b : ℕ) : (c.moveTo b).nextReg = c.nextReg := rfl

@[simp] theorem pushLoop_nextReg (c : Ctx) (l : LoopContext) : (c.pushLoop l).nextReg = c.nextReg := rfl

@[simp] theorem popLoop_nextReg (c : Ctx) : c.popLoop.nextReg = c.nextReg := rfl

@[simp] theorem newBlock_point (c : Ctx) : c.newBlock.point = c.point := by
  change (⟨c.cur, ((c.graph.reserve 1).code c.cur).length⟩ : Point) = _
  rw [Cfg.reserve_code]
  rfl

theorem moveTo_point {c : Ctx} {b : ℕ} (h : c.graph.code b = []) : (c.moveTo b).point = ⟨b, 0⟩ := by
  change (⟨b, (c.graph.code b).length⟩ : Point) = _
  rw [h]
  rfl

theorem sets_widen {k : Code Instr Cond} {lo hi lo' hi' : ℕ} (h : k.All (Instr.Sets lo hi))
    (hlo : lo' ≤ lo) (hhi : hi ≤ hi') : k.All (Instr.Sets lo' hi') := by
  refine h.mono fun i hi r hr => ?_
  have hbound := hi r hr
  omega

/-- The function keeps the code that was emitted before the insert point was moved. -/
theorem Laid.grows_moved {j : Bool} {c c' : Ctx} {b : ℕ} {k : Code Instr Cond} {F : Cfg Instr}
    (h : Laid j (c.moveTo b) c' k) (hF : Grows c'.graph F) : Grows c.graph F :=
  ((Ctx.Update.moveTo c b).emits.grows).trans (h.region.grows.trans hF)

/-- The layout of code that starts in an empty block. -/
theorem Laid.layout_at {j : Bool} {c c' : Ctx} (c₀ : Ctx) {b : ℕ} {k : Code Instr Cond}
    {F : Cfg Instr} (h : Laid j (c.moveTo b) c' k) (hF : Grows c'.graph F) (hloops : c.loops = c₀.loops)
    (hcode : c.graph.code b = []) : Layout machine F.code (c₀.exits j) ⟨b, 0⟩ k c'.point := by
  have hlayout := h.layout F hF
  rw [moveTo_point hcode] at hlayout
  have hexits : (c.moveTo b).exits j = c₀.exits j := exits_of_loops hloops
  rwa [hexits] at hlayout

section
variable {c c₁ c₂ c₃ : Ctx} {k kt kb ke : Code Instr Cond} {v : Cond} {i j l m : Instr} {n : ℕ}

/-- A two-way branch to two of three reserved blocks, which both go on to the third. -/
theorem Laid.ifStmt (hn : n = c.blocks.length) (hc : c.graph.cur < c.graph.size)
    (h₁ : Laid false c.newBlock.newBlock.newBlock c₁ k) (hi : i.view = .condBr v n (n+1))
    (h₂ : Laid true ((c₁.append i).moveTo n) c₂ kt) (hj : j.view = .br (n+2))
    (h₃ : Laid true ((c₂.append j).moveTo (n+1)) c₃ kb) (hl : l.view = .br (n+2)) :
    Laid true c ((c₃.append l).moveTo (n+2)) (.seq k (.cond v kt kb)) := by
  subst hn
  have hregion : Region (c.graph.reserve 3) c₁.graph := by simpa using h₁.region
  have hfork₁ : Fork c.graph (c₁.append i).graph
      [c.blocks.length, c.blocks.length+1, c.blocks.length+2] := Fork.start hc hregion i
  have hfork₂ : Fork c.graph (c₂.append j).graph [c.blocks.length+1, c.blocks.length+2] :=
    hfork₁.fill (by simp) h₂.region j
  have hfork₃ : Fork c.graph (c₃.append l).graph [c.blocks.length+2] :=
    hfork₂.fill (by simp) h₃.region l
  have hemits₁ : Ctx.Emits c c₁ := (emits_newBlocks c).trans h₁.emits
  have hemits₂ : Ctx.Emits c₁ c₂ := (emits_branch _ _ _).trans h₂.emits
  have hemits₃ : Ctx.Emits c₂ c₃ := (emits_branch _ _ _).trans h₃.emits
  have hle₁ := hemits₁.nextReg_le
  have hle₂ := hemits₂.nextReg_le
  have hle₃ := hemits₃.nextReg_le
  have hloops₁ : c₁.loops = c.loops := h₁.loops
  have hloops₂ : c₂.loops = c.loops := h₂.loops.trans hloops₁
  constructor
  · exact hfork₃.close
  · exact ((hemits₁.trans hemits₂).trans hemits₃).trans (emits_branch _ _ _)
  · exact h₃.loops.trans hloops₂
  · exact ⟨sets_widen h₁.sets le_rfl (hle₂.trans hle₃), sets_widen h₂.sets hle₁ hle₃,
      sets_widen h₃.sets (hle₁.trans hle₂) le_rfl⟩
  · intro F hF
    have hF₃' := ((Ctx.Update.moveTo (c₃.append l) _).emits.grows).trans hF
    have hF₃ := (Ctx.Emits.append_grows c₃ l).trans hF₃'
    have hF₂' := h₃.grows_moved hF₃
    have hF₂ := (Ctx.Emits.append_grows c₂ j).trans hF₂'
    have hF₁' := h₂.grows_moved hF₂
    have hk := (h₁.layout F ((Ctx.Emits.append_grows c₁ i).trans hF₁')).weaken (c.exits true)
    simp only [newBlock_point] at hk
    have hkt := h₂.layout_at c hF₂ hloops₁ (hfork₁.code_nil (by simp))
    have hkb := h₃.layout_at c hF₃ hloops₂ (hfork₂.code_nil (by simp))
    rw [moveTo_point (hfork₃.code_nil (by simp))]
    exact .seq hk (.cond (get_append h₁.region.valid hF₁') hi hkt
      (get_append h₂.region.valid hF₂') hj hkb (get_append h₃.region.valid hF₃') hl)

/-- The second operand of a short circuit ends in another block than the first. -/
theorem Laid.cur_ne (hn : n = c.blocks.length) (hc : c.graph.cur < c.graph.size)
    (h₁ : Laid false c.newBlock.newBlock c₁ k) (h₂ : Laid false ((c₁.append i).moveTo n) c₂ kt) :
    c₁.cur ≠ c₂.cur := by
  have hsize : c₁.cur < c₁.graph.size := h₁.region.valid
  have hcur : c.cur < c.blocks.length := hc
  have hmoved₁ : c₁.cur = c.cur ∨ c.blocks.length+2 ≤ c₁.cur := by
    rcases h₁.region.moved with hm | hm
    · exact .inl hm
    · refine .inr (le_trans (le_of_eq ?_) hm.1)
      simp [Cfg.size, Ctx.graph, Ctx.newBlock]
  have hmoved₂ : c₂.cur = n ∨ c₁.graph.size ≤ c₂.cur := by
    rcases h₂.region.moved with hm | hm
    · exact .inl hm
    · refine .inr (le_trans (le_of_eq ?_) hm.1)
      exact (Cfg.append_size c₁.graph i).symm
  omega

/-- The second operand of a short circuit has the first of two reserved blocks, and both operands
go on to the phi node in the second. -/
theorem Laid.shortCircuit {b : Bool} {v' w : LLValue} (hn : n = c.blocks.length)
    (hc : c.graph.cur < c.graph.size) (h₁ : Laid false c.newBlock.newBlock c₁ k)
    (hi : i.view = .condBr v (if b then n else n+1) (if b then n+1 else n))
    (h₂ : Laid false ((c₁.append i).moveTo n) c₂ kt) (hj : j.view = .br (n+1)) :
    Laid false c (((c₂.append j).moveTo (n+1)).result
        (.phi c₂.nextReg [(v', c₁.cur), (w, c₂.cur)]))
      (.seq k (.short b v kt (.bitcast c₂.nextReg v') (.bitcast c₂.nextReg w))) := by
  have hne := Laid.cur_ne hn hc h₁ h₂
  subst hn
  have hregion : Region (c.graph.reserve 2) c₁.graph := by simpa using h₁.region
  have hfork₁ : Fork c.graph (c₁.append i).graph [c.blocks.length, c.blocks.length+1] :=
    Fork.start hc hregion i
  have hfork₂ : Fork c.graph (c₂.append j).graph [c.blocks.length+1] :=
    hfork₁.fill (by simp) h₂.region j
  have hemits₁ : Ctx.Emits c c₁ :=
    (((Ctx.Update.newBlock c).emits).step (.newBlock _)).trans h₁.emits
  have hemits₂ : Ctx.Emits c₁ c₂ := (emits_branch _ _ _).trans h₂.emits
  have hle₁ := hemits₁.nextReg_le
  have hle₂ := hemits₂.nextReg_le
  have hclose : Region c.graph ((c₂.append j).moveTo (c.blocks.length+1)).graph := hfork₂.close
  have hcode := hfork₂.code_nil (List.mem_singleton_self _)
  constructor
  · exact hclose.trans (Region.append hclose.valid _)
  · have hbranch : Ctx.Emits c ((c₂.append j).moveTo (c.blocks.length+1)) :=
      (hemits₁.trans hemits₂).trans (emits_branch _ _ _)
    exact hbranch.step (.result _ _)
  · exact h₂.loops.trans h₁.loops
  · have hresult : ∀ x, (Instr.bitcast c₂.nextReg x).Sets c.nextReg (c₂.nextReg+1) := by
      intro x r hr
      obtain rfl := Option.mem_some_iff.mp hr
      omega
    exact ⟨sets_widen h₁.sets le_rfl (Nat.le_succ_of_le hle₂),
      sets_widen h₂.sets hle₁ (Nat.le_succ _), hresult v', hresult w⟩
  · intro F hF
    have hphi := get_append (c := (c₂.append j).moveTo (c.blocks.length+1)) hclose.valid hF
    rw [moveTo_point hcode] at hphi
    have hF₂' := ((Ctx.Update.moveTo (c₂.append j) (c.blocks.length+1)).emits.grows).trans
      ((Ctx.Emits.append_grows _ _).trans hF)
    have hF₂ := (Ctx.Emits.append_grows c₂ j).trans hF₂'
    have hF₁' := h₂.grows_moved hF₂
    have hk := h₁.layout F ((Ctx.Emits.append_grows c₁ i).trans hF₁')
    simp only [newBlock_point] at hk
    have hkt := h₂.layout_at c hF₂ h₁.loops (hfork₁.code_nil (by simp))
    have hpoint : (((c₂.append j).moveTo (c.blocks.length+1)).result
        (.phi c₂.nextReg [(v', c₁.cur), (w, c₂.cur)])).point = ⟨c.blocks.length+1, 1⟩ := by
      have happend := append_point (c := (c₂.append j).moveTo (c.blocks.length+1))
        (i := .phi c₂.nextReg [(v', c₁.cur), (w, c₂.cur)]) hclose.valid
      have hcode' : ((c₂.append j).moveTo (c.blocks.length+1)).graph.code (c.blocks.length+1) = [] :=
        hcode
      refine happend.trans ?_
      change (⟨c.blocks.length+1, _⟩ : Point) = _
      rw [show ((c₂.append j).moveTo (c.blocks.length+1)).cur = c.blocks.length+1 from rfl, hcode']
      rfl
    rw [hpoint]
    refine .seq hk (.short (get_append h₁.region.valid hF₁') hi hkt
      (get_append h₂.region.valid hF₂') hj hphi rfl ?_ ?_)
    · simp [Ctx.point]
    · have hbeq : (c₁.cur == c₂.cur) = false := by simpa using hne
      simp [Ctx.point, hbeq]

/-- A loop whose test has the first of three reserved blocks, its body the second. -/
theorem Laid.scanLoop (hn : n = c.blocks.length) (hc : c.graph.cur < c.graph.size)
    (hi : i.view = .br n)
    (h₁ : Laid false ((c.newBlock.newBlock.newBlock.append i).moveTo n) c₁ kt)
    (hj : j.view = .condBr v (n+1) (n+2)) (h₂ : Laid true ((c₁.append j).moveTo (n+1)) c₂ kb)
    (hl : l.view = .br n) :
    Laid true c ((c₂.append l).moveTo (n+2)) (.loop kt v kb) := by
  subst hn
  have hvalid : (c.graph.reserve 3).cur < (c.graph.reserve 3).size := by
    rw [Cfg.reserve_cur, Cfg.reserve_size]
    omega
  have hgraph : c.newBlock.newBlock.newBlock.graph = c.graph.reserve 3 := by simp
  have hfork₁ : Fork c.graph (c.newBlock.newBlock.newBlock.append i).graph
      [c.blocks.length, c.blocks.length+1, c.blocks.length+2] := by
    have hfork := Fork.start hc (Region.refl hvalid) i
    rw [← hgraph] at hfork
    exact hfork
  have hfork₂ : Fork c.graph (c₁.append j).graph [c.blocks.length+1, c.blocks.length+2] :=
    hfork₁.fill (by simp) h₁.region j
  have hfork₃ : Fork c.graph (c₂.append l).graph [c.blocks.length+2] :=
    hfork₂.fill (by simp) h₂.region l
  have hemits₁ : Ctx.Emits c c₁ :=
    ((emits_newBlocks c).trans (emits_branch _ _ _)).trans h₁.emits
  have hemits₂ : Ctx.Emits c₁ c₂ := (emits_branch _ _ _).trans h₂.emits
  have hle₁ := hemits₁.nextReg_le
  have hle₂ := hemits₂.nextReg_le
  have hloops₁ : c₁.loops = c.loops := h₁.loops
  constructor
  · exact hfork₃.close
  · exact (hemits₁.trans hemits₂).trans (emits_branch _ _ _)
  · exact h₂.loops.trans hloops₁
  · exact ⟨sets_widen h₁.sets le_rfl hle₂, sets_widen h₂.sets hle₁ le_rfl⟩
  · intro F hF
    have hF₂' := ((Ctx.Update.moveTo (c₂.append l) _).emits.grows).trans hF
    have hF₂ := (Ctx.Emits.append_grows c₂ l).trans hF₂'
    have hF₁' := h₂.grows_moved hF₂
    have hF₁ := (Ctx.Emits.append_grows c₁ j).trans hF₁'
    have hF₀' := h₁.grows_moved hF₁
    have hkt := h₁.layout_at c hF₁ rfl (hfork₁.code_nil (by simp))
    have hkb := h₂.layout_at c hF₂ hloops₁ (hfork₂.code_nil (by simp))
    have henter := get_append (c := c.newBlock.newBlock.newBlock) (by rw [hgraph]; exact hvalid) hF₀'
    simp only [newBlock_point] at henter
    rw [moveTo_point (hfork₃.code_nil (by simp))]
    exact .loop henter hi hkt (get_append h₁.region.valid hF₁') hj hkb
      (get_append h₂.region.valid hF₂') hl

/-- The context of a loop with its four reserved blocks, before the branch to its test. -/
def Ctx.loopStart (c : Ctx) : Ctx :=
  c.newBlock.newBlock.newBlock.newBlock.pushLoop
    ⟨c.blocks.length, c.blocks.length+1, c.blocks.length+2, c.blocks.length+3⟩

@[simp] theorem loopStart_nextReg (c : Ctx) : c.loopStart.nextReg = c.nextReg := rfl

theorem emits_loopStart (c : Ctx) : Ctx.Emits c c.loopStart :=
  ((emits_newBlocks c).step (.newBlock _)).step (.pushLoop _ _)

/-- A loop of its own context, with its test, its body, its every part and what comes behind it in
the four reserved blocks. -/
theorem Laid.forStmt (hc : c.graph.cur < c.graph.size) (hi : i.view = .br c.blocks.length)
    (h₁ : Laid false ((c.loopStart.append i).moveTo c.blocks.length) c₁ kt)
    (hj : j.view = .condBr v (c.blocks.length+1) (c.blocks.length+3))
    (h₂ : Laid true ((c₁.append j).moveTo (c.blocks.length+1)) c₂ kb)
    (hl : l.view = .br (c.blocks.length+2))
    (h₃ : Laid false ((c₂.append l).moveTo (c.blocks.length+2)) c₃ ke)
    (hm : m.view = .br c.blocks.length) :
    Laid true c ((c₃.append m).moveTo (c.blocks.length+3)).popLoop (.forLoop kt v kb ke) := by
  have hvalid : (c.graph.reserve 4).cur < (c.graph.reserve 4).size := by
    rw [Cfg.reserve_cur, Cfg.reserve_size]
    omega
  have hgraph : c.loopStart.graph = c.graph.reserve 4 := by
    change c.newBlock.newBlock.newBlock.newBlock.graph = _
    simp
  have hfork₁ : Fork c.graph (c.loopStart.append i).graph
      [c.blocks.length, c.blocks.length+1, c.blocks.length+2, c.blocks.length+3] := by
    have hfork := Fork.start hc (Region.refl hvalid) i
    rw [← hgraph] at hfork
    exact hfork
  have hfork₂ : Fork c.graph (c₁.append j).graph
      [c.blocks.length+1, c.blocks.length+2, c.blocks.length+3] :=
    hfork₁.fill (by simp) h₁.region j
  have hfork₃ : Fork c.graph (c₂.append l).graph [c.blocks.length+2, c.blocks.length+3] :=
    hfork₂.fill (by simp) h₂.region l
  have hfork₄ : Fork c.graph (c₃.append m).graph [c.blocks.length+3] :=
    hfork₃.fill (by simp) h₃.region m
  have hemits₁ : Ctx.Emits c c₁ := ((emits_loopStart c).trans (emits_branch _ _ _)).trans h₁.emits
  have hemits₂ : Ctx.Emits c₁ c₂ := (emits_branch _ _ _).trans h₂.emits
  have hemits₃ : Ctx.Emits c₂ c₃ := (emits_branch _ _ _).trans h₃.emits
  have hemits₄ : Ctx.Emits c₃ ((c₃.append m).moveTo (c.blocks.length+3)).popLoop :=
    (emits_branch _ _ _).step (.popLoop _)
  have hle₁ := hemits₁.nextReg_le
  have hle₂ := hemits₂.nextReg_le
  have hle₃ := hemits₃.nextReg_le
  have hloops₁ : c₁.loops = c.loopStart.loops := h₁.loops
  have hloops₂ : c₂.loops = c.loopStart.loops := h₂.loops.trans hloops₁
  have hloops₃ : c₃.loops = c.loopStart.loops := h₃.loops.trans hloops₂
  constructor
  · exact hfork₄.close
  · exact ((hemits₁.trans hemits₂).trans hemits₃).trans hemits₄
  · exact congrArg List.tail hloops₃
  · have hsets₁ := h₁.sets
    have hsets₂ := h₂.sets
    have hsets₃ := h₃.sets
    simp only [moveTo_nextReg, append_nextReg, loopStart_nextReg] at hsets₁ hsets₂ hsets₃
    exact ⟨sets_widen hsets₁ le_rfl (hle₂.trans hle₃), sets_widen hsets₂ hle₁ hle₃,
      sets_widen hsets₃ (hle₁.trans hle₂) le_rfl⟩
  · intro F hF
    have hF₃' : Grows (c₃.append m).graph F :=
      ((Ctx.Update.moveTo (c₃.append m) (c.blocks.length+3)).emits.grows).trans hF
    have hF₃ := (Ctx.Emits.append_grows c₃ m).trans hF₃'
    have hF₂' := h₃.grows_moved hF₃
    have hF₂ := (Ctx.Emits.append_grows c₂ l).trans hF₂'
    have hF₁' := h₂.grows_moved hF₂
    have hF₁ := (Ctx.Emits.append_grows c₁ j).trans hF₁'
    have hF₀' := h₁.grows_moved hF₁
    have hkt := h₁.layout_at c.loopStart hF₁ rfl (hfork₁.code_nil (by simp))
    have hkb := h₂.layout_at c.loopStart hF₂ hloops₁ (hfork₂.code_nil (by simp))
    have hke := h₃.layout_at c.loopStart hF₃ hloops₂ (hfork₃.code_nil (by simp))
    have henter := get_append (c := c.loopStart) (by rw [hgraph]; exact hvalid) hF₀'
    have hpoint : c.loopStart.point = c.point := by
      change c.newBlock.newBlock.newBlock.newBlock.point = c.point
      simp only [newBlock_point]
    rw [hpoint] at henter
    have hempty : (c₃.append m).graph.code (c.blocks.length+3) = [] := hfork₄.code_nil (by simp)
    have hend : ((c₃.append m).moveTo (c.blocks.length+3)).popLoop.point = ⟨c.blocks.length+3, 0⟩ :=
      moveTo_point hempty
    rw [hend]
    exact .forLoop henter hi hkt (get_append h₁.region.valid hF₁') hj hkb
      (get_append h₂.region.valid hF₂') hl hke (get_append h₃.region.valid hF₃') hm

theorem Laid.jump {toNext : Bool} {loop : LoopContext} {t : ℕ} (hc : c.graph.cur < c.graph.size)
    (hloop : c.loops.head? = some loop) (hi : i.view = .condBr v t t)
    (ht : t = if toNext then loop.every else loop.finish) :
    Laid true c (c.append i) (.jump v toNext) where
  region := Region.append hc i
  emits := (Ctx.Update.append c i).emits
  loops := rfl
  sets := trivial
  layout := by
    intro F hF
    have hexits : c.exits true = some ⟨loop.finish, loop.every⟩ := by simp [Ctx.exits, hloop]
    rw [hexits]
    exact .jump (get_append hc hF) hi ht

end

end Reir
