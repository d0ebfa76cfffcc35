import Reir.CompiledRuns
import Reir.TypeAgreement

/-! The phi nodes of short circuits. A generating step branches to blocks that it has made itself,
and jumps to those of the loops around it, so that the predecessors of a block stay what they are
when the block is finished. -/
namespace Reir
open Gen BlockGraph

/-- The blocks that an instruction goes on in. -/
def Instr.targets : Instr → List ℕ
  | .br _ t => [t]
  | .condBr _ _ t f => [t, f]
  | _ => []

/-- Some instruction of the code goes on in the block. -/
def GoesTo (code : List Instr) (b : ℕ) : Prop := ∃ x ∈ code, b ∈ x.targets

theorem goesTo_append {xs ys : List Instr} {b : ℕ} :
    GoesTo (xs ++ ys) b ↔ GoesTo xs b ∨ GoesTo ys b := by
  simp only [GoesTo, List.mem_append, or_and_right, exists_or]

theorem goesTo_singleton {x : Instr} {b : ℕ} : GoesTo [x] b ↔ b ∈ x.targets := by
  simp [GoesTo]

theorem not_goesTo_nil (b : ℕ) : ¬GoesTo [] b := by
  simp [GoesTo]

/-- The blocks with a branch to a block. -/
def Predecessor (g : Cfg Instr) (p b : ℕ) : Prop := GoesTo (g.code p) b

theorem Instr.Straight.targets {S : Origin → Text → Prop} {i : Instr} (h : i.Straight S) : i.targets = [] := by
  cases i with
  | br tag t => exact h.elim
  | condBr tag v t f => exact h.elim
  | _ => rfl

theorem Instr.Straight.not_phi {S : Origin → Text → Prop} {i : Instr} (h : i.Straight S) (d : ℕ)
    (ins : List (LLValue × ℕ)) : i ≠ .phi d ins := by
  rintro rfl
  exact h

/-- A run of `get_conditional_value`, with the runs on its operands, while `c` grows to `c'`. -/
structure ConditionalRun (c c' : Ctx) where
  forAnd : Bool
  lhs : Expression
  rhs : Expression
  start : Ctx
  leftStart : Ctx
  left : LLValue
  leftEnd : Ctx
  rightStart : Ctx
  right : LLValue
  rightEnd : Ctx
  phi : ℕ
  finish : Ctx
  before : Ctx.Emits c start
  run : (conditionalValue forAnd lhs.getValue rhs.getValue).run start = .ok (⟨.reg phi, .i1⟩, finish)
  enterLeft : Ctx.Emits start leftStart
  runLeft : (lhs.getValue >>= toI1).run leftStart = .ok (left, leftEnd)
  enterRight : Ctx.Emits leftEnd rightStart
  runRight : (rhs.getValue >>= toI1).run rightStart = .ok (right, rightEnd)
  leave : Ctx.Emits rightEnd finish
  behind : Ctx.Emits finish c'

namespace ConditionalRun
variable {b c c' d : Ctx}

/-- The operands with the blocks that their code ends in. -/
def incoming (r : ConditionalRun c c') : List (LLValue × ℕ) :=
  [(r.left, r.leftEnd.cur), (r.right, r.rightEnd.cur)]

/-- The run ends in the block `i`; its operands are of type `i1`, and their code ends in two
blocks. -/
structure Proper (r : ConditionalRun c c') (i : ℕ) : Prop where
  block : r.finish.cur = i
  left : r.left.ty = .i1
  right : r.right.ty = .i1
  blocks : r.leftEnd.cur ≠ r.rightEnd.cur

def widen (r : ConditionalRun c c') (h : Ctx.Emits b c) (h' : Ctx.Emits c' d) : ConditionalRun b d :=
  { r with before := Relation.ReflTransGen.trans h r.before
           behind := Relation.ReflTransGen.trans r.behind h' }

end ConditionalRun

/-- What is emitted between two contexts branches to new blocks and to those of `A`, and its phi
nodes are those of conditional expressions, in new blocks that are entered from where the operands
end. -/
structure Wired (A : List ℕ) (c c' : Ctx) : Prop where
  emits : Ctx.Emits c c'
  targets : ∀ b t, GoesTo (added c.graph c'.graph b) t →
    t ∈ A ∨ c.graph.size ≤ t ∧ t < c'.graph.size
  phis : ∀ i d ins, .phi d ins ∈ added c.graph c'.graph i →
    c.graph.size ≤ i ∧ ∃ r : ConditionalRun c c', r.phi = d ∧ r.incoming = ins ∧ r.Proper i ∧
      ∀ b, GoesTo (added c.graph c'.graph b) i ↔ b = r.leftEnd.cur ∨ b = r.rightEnd.cur

namespace Wired
variable {A B : List ℕ} {c c₁ c₂ : Ctx}

theorem mono (h : Wired A c c₁) (hAB : ∀ t ∈ A, t ∈ B) : Wired B c c₁ where
  emits := h.emits
  targets b t ht := (h.targets b t ht).imp_left (hAB t)
  phis := h.phis

/-- Nothing is emitted, but the insert point may move. -/
theorem of_code_eq (hemits : Ctx.Emits c c₁) (hcode : ∀ i, c₁.graph.code i = c.graph.code i) :
    Wired A c c₁ := by
  have hnil : ∀ i, added c.graph c₁.graph i = [] := by
    intro i
    simp [added, hcode]
  constructor
  · exact hemits
  · intro b t ht
    rw [hnil] at ht
    exact absurd ht (not_goesTo_nil t)
  · intro i d ins hi
    rw [hnil] at hi
    simp at hi

theorem refl (A : List ℕ) (c : Ctx) : Wired A c c :=
  of_code_eq Relation.ReflTransGen.refl fun _ => rfl

theorem moveTo (A : List ℕ) (c : Ctx) (b : ℕ) : Wired A c (c.moveTo b) :=
  of_code_eq (Ctx.Update.moveTo c b).emits fun _ => rfl

/-- An instruction other than a phi node, that branches to `A` if at all. -/
theorem append {x : Instr} (hc : c.graph.cur < c.graph.size) (hemits : Ctx.Emits c c₁)
    (hgraph : c₁.graph = (c.append x).graph) (htargets : ∀ t ∈ x.targets, t ∈ A)
    (hphi : ∀ d ins, x ≠ .phi d ins) : Wired A c c₁ := by
  have hadded : ∀ i, added c.graph c₁.graph i = if i = c.graph.cur then [x] else [] := by
    intro i
    have happend := (Grows.refl c.graph).added_append hc x i
    rw [added_self, List.nil_append] at happend
    rw [hgraph]
    exact happend
  constructor
  · exact hemits
  · intro b t ht
    rw [hadded] at ht
    split_ifs at ht
    · exact .inl (htargets t (goesTo_singleton.mp ht))
    · exact absurd ht (not_goesTo_nil t)
  · intro i d ins hi
    rw [hadded] at hi
    split_ifs at hi
    · exact absurd (List.mem_singleton.mp hi).symm (hphi d ins)
    · simp at hi

/-- Code behind other code does not branch into the blocks of that. -/
theorem trans (hA : ∀ t ∈ A, t < c.graph.size) (h : Wired A c c₁) (h' : Wired A c₁ c₂) :
    Wired A c c₂ := by
  have hadded := h.emits.grows.added_trans h'.emits.grows
  have hsize := h.emits.grows.size_le
  have hsize' := h'.emits.grows.size_le
  constructor
  · exact Relation.ReflTransGen.trans h.emits h'.emits
  · intro b t ht
    rw [hadded, goesTo_append] at ht
    rcases ht with ht | ht
    · refine (h.targets b t ht).imp_right fun hnew => ?_
      omega
    · refine (h'.targets b t ht).imp_right fun hnew => ?_
      omega
  · intro i d ins hi
    rw [hadded, List.mem_append] at hi
    rcases hi with hi | hi
    · obtain ⟨hle, r, hd, hins, hproper, hentered⟩ := h.phis i d ins hi
      have hlt : i < c₁.graph.size := by
        by_contra hout
        rw [Grows.added_out (not_lt.mp hout)] at hi
        simp at hi
      refine ⟨hle, r.widen Relation.ReflTransGen.refl h'.emits, hd, hins,
        ⟨hproper.block, hproper.left, hproper.right, hproper.blocks⟩, fun b => ?_⟩
      have hlater : ¬GoesTo (added c₁.graph c₂.graph b) i := by
        intro hgoes
        rcases h'.targets b i hgoes with hmem | hnew
        · have := hA i hmem
          omega
        · omega
      rw [hadded, goesTo_append, or_iff_left hlater]
      exact hentered b
    · obtain ⟨hle, r, hd, hins, hproper, hentered⟩ := h'.phis i d ins hi
      refine ⟨by omega, r.widen h.emits Relation.ReflTransGen.refl, hd, hins,
        ⟨hproper.block, hproper.left, hproper.right, hproper.blocks⟩, fun b => ?_⟩
      have hearlier : ¬GoesTo (added c.graph c₁.graph b) i := by
        intro hgoes
        rcases h.targets b i hgoes with hmem | hnew
        · have := hA i hmem
          omega
        · omega
      rw [hadded, goesTo_append, or_iff_right hearlier]
      exact hentered b

/-- Blocks that were reserved for the code are among its new ones. -/
theorem reserve {n : ℕ} (hgraph : c₁.graph = c.graph.reserve n) (hemits : Ctx.Emits c c₁)
    (hB : ∀ t ∈ B, t ∈ A ∨ c.graph.size ≤ t ∧ t < c.graph.size+n) (h : Wired B c₁ c₂) :
    Wired A c c₂ := by
  have hadded : ∀ i, added c.graph c₂.graph i = added c₁.graph c₂.graph i := by
    intro i
    rw [hgraph]
    exact (Grows.added_congr (fun j => (c.graph.reserve_code n j)) (fun _ => rfl) i).symm
  have hsize : c₁.graph.size = c.graph.size+n := by rw [hgraph, Cfg.reserve_size]
  have hle := h.emits.grows.size_le
  constructor
  · exact Relation.ReflTransGen.trans hemits h.emits
  · intro b t ht
    rw [hadded] at ht
    rcases h.targets b t ht with hmem | hnew
    · refine (hB t hmem).imp_right fun hreserved => ?_
      omega
    · exact .inr (by omega)
  · intro i d ins hi
    rw [hadded] at hi
    obtain ⟨hi, r, hd, hins, hproper, hentered⟩ := h.phis i d ins hi
    refine ⟨by omega, r.widen hemits Relation.ReflTransGen.refl, hd, hins,
      ⟨hproper.block, hproper.left, hproper.right, hproper.blocks⟩, fun b => ?_⟩
    rw [hadded]
    exact hentered b

end Wired

/-- A step wires its code, with jumps to the blocks that `J` takes from the loops around it. -/
def Gen.Wires {α : Type} (J : List LoopContext → List ℕ) (p : Gen α) : Prop :=
  ∀ ⦃c a c'⦄, c.graph.cur < c.graph.size → (∀ t ∈ J c.loops, t < c.graph.size) →
    p.run c = .ok (a, c') →
      Wired (J c.loops) c c' ∧ c'.loops = c.loops ∧ c'.graph.cur < c'.graph.size

section
variable {α β : Type} {J : List LoopContext → List ℕ} {p : Gen α} {f : α → Gen β}

theorem Gen.Wires.bind (hp : p.Wires J) (hf : ∀ a, (f a).Wires J) : (p >>= f).Wires J := by
  intro c b c' hc hJ h
  obtain ⟨a, c₁, h₁, h₂⟩ := bind_eq_ok.mp h
  obtain ⟨hw₁, hl₁, hc₁⟩ := hp hc hJ h₁
  have hJ₁ : ∀ t ∈ J c₁.loops, t < c₁.graph.size := by
    intro t ht
    rw [hl₁] at ht
    exact (hJ t ht).trans_le hw₁.emits.grows.size_le
  obtain ⟨hw₂, hl₂, hc₂⟩ := hf a hc₁ hJ₁ h₂
  rw [hl₁] at hw₂
  exact ⟨hw₁.trans hJ hw₂, hl₂.trans hl₁, hc₂⟩

/-- A step that leaves the function and the loops alone. -/
theorem wires_of_graph_eq (h : ∀ c a c', p.run c = .ok (a, c') →
    c'.graph = c.graph ∧ c'.loops = c.loops ∧ Ctx.Emits c c') : p.Wires J := by
  intro c a c' hc _ hrun
  obtain ⟨hgraph, hloops, hemits⟩ := h c a c' hrun
  refine ⟨Wired.of_code_eq hemits fun i => by rw [hgraph], hloops, ?_⟩
  rw [hgraph]
  exact hc

/-- A step that appends one instruction without a branch. -/
theorem wires_of_append {x : Ctx → Instr} (hx : ∀ c, (x c).Straight fun _ _ => True)
    (hemits : p.Emits) (h : ∀ c a c', p.run c = .ok (a, c') →
      c'.graph = (c.append (x c)).graph ∧ c'.loops = c.loops) : p.Wires J := by
  intro c a c' hc _ hrun
  obtain ⟨hgraph, hloops⟩ := h c a c' hrun
  have hw : Wired (J c.loops) c c' := by
    refine Wired.append hc (hemits hrun) hgraph ?_ (hx c).not_phi
    rw [(hx c).targets]
    simp
  refine ⟨hw, hloops, ?_⟩
  rw [hgraph]
  exact (Region.append hc _).valid

end

/-- The branch behind the first operand. -/
def shortBranch (forAnd : Bool) (lh : LLValue) (n : ℕ) : Instr :=
  .condBr ⟨.shortCircuit, 0⟩ lh (if forAnd then n else n+1) (if forAnd then n+1 else n)

theorem mem_shortBranch {forAnd : Bool} {lh : LLValue} {n t : ℕ} :
    t ∈ (shortBranch forAnd lh n).targets ↔ t = n ∨ t = n+1 := by
  cases forAnd with
  | true => simp [shortBranch, Instr.targets]
  | false => simp [shortBranch, Instr.targets, or_comm]

section
variable {c c₂ c₄ : Ctx} {A : List ℕ} {forAnd : Bool} {lh : LLValue} {n : ℕ}

theorem newBlocks_graph (c : Ctx) : c.newBlock.newBlock.graph = c.graph.reserve 2 := by
  rw [newBlock_graph, newBlock_graph, Cfg.reserve_reserve]

theorem newBlocks_size (c : Ctx) : c.newBlock.newBlock.graph.size = c.graph.size+2 := by
  rw [newBlocks_graph, Cfg.reserve_size]

theorem emits_twoBlocks (c : Ctx) : Ctx.Emits c c.newBlock.newBlock :=
  (Ctx.Update.newBlock c).emits.tail (.newBlock _)

/-- The code of both operands and the branches behind them. -/
theorem Wired.operands (hn : n = c.graph.size) (hA : ∀ t ∈ A, t < c.graph.size)
    (hl : Wired A c.newBlock.newBlock c₂) (hc₂ : c₂.graph.cur < c₂.graph.size)
    (hr : Wired A ((c₂.append (shortBranch forAnd lh n)).moveTo n) c₄)
    (hc₄ : c₄.graph.cur < c₄.graph.size) :
    Wired A c ((c₄.append (.br ⟨.shortCircuit, 0⟩ (n+1))).moveTo (n+1)) := by
  have hB : ∀ t ∈ A ++ [n, n+1], t < c.newBlock.newBlock.graph.size := by
    intro t ht
    rw [newBlocks_size]
    rcases List.mem_append.mp ht with ht | ht
    · exact (hA t ht).trans (Nat.lt_add_of_pos_right (by decide))
    · simp only [List.mem_cons, List.not_mem_nil, or_false] at ht
      omega
  have hsub : ∀ t ∈ A, t ∈ A ++ [n, n+1] := fun t ht => List.mem_append_left _ ht
  have hbranch : Wired (A ++ [n, n+1]) c₂ (c₂.append (shortBranch forAnd lh n)) := by
    refine Wired.append hc₂ (Ctx.Update.append c₂ _).emits rfl (fun t ht => ?_) fun _ _ => by
      simp [shortBranch]
    simpa using .inr (mem_shortBranch.mp ht)
  have hbranch' : Wired (A ++ [n, n+1]) c₄ (c₄.append (.br ⟨.shortCircuit, 0⟩ (n+1))) := by
    refine Wired.append hc₄ (Ctx.Update.append c₄ _).emits rfl (fun t ht => ?_) fun _ _ => by simp
    obtain rfl := List.mem_singleton.mp ht
    simp
  have h₁ := (hl.mono hsub).trans hB hbranch
  have h₂ := h₁.trans hB (Wired.moveTo _ _ n)
  have h₃ := h₂.trans hB (hr.mono hsub)
  have h₄ := (h₃.trans hB hbranch').trans hB (Wired.moveTo _ _ (n+1))
  refine Wired.reserve (newBlocks_graph c) (emits_twoBlocks c) (fun t ht => ?_) h₄
  refine (List.mem_append.mp ht).imp_right fun ht => ?_
  simp only [List.mem_cons, List.not_mem_nil, or_false] at ht
  omega

/-- The last block is entered from the ends of the operands. -/
theorem operands_entered (hn : n = c.graph.size) (hA : ∀ t ∈ A, t < c.graph.size)
    (hl : Wired A c.newBlock.newBlock c₂) (hc₂ : c₂.graph.cur < c₂.graph.size)
    (hr : Wired A ((c₂.append (shortBranch forAnd lh n)).moveTo n) c₄)
    (hc₄ : c₄.graph.cur < c₄.graph.size) (b : ℕ) :
    GoesTo (added c.graph (c₄.append (.br ⟨.shortCircuit, 0⟩ (n+1))).graph b) (n+1) ↔
      b = c₂.cur ∨ b = c₄.cur := by
  have hgrowl := hl.emits.grows
  have hle := hgrowl.size_le
  rw [newBlocks_size] at hle
  have hsize : ((c₂.append (shortBranch forAnd lh n)).moveTo n).graph.size = c₂.graph.size :=
    Cfg.append_size c₂.graph _
  have hgrowr : Grows (c₂.append (shortBranch forAnd lh n)).graph c₄.graph :=
    ((Ctx.Update.moveTo _ n).emits.grows).trans hr.emits.grows
  have hbranch := hgrowl.append hc₂ (shortBranch forAnd lh n)
  have hleft : ¬GoesTo (added c.newBlock.newBlock.graph c₂.graph b) (n+1) := by
    intro hgoes
    rcases hl.targets b _ hgoes with hmem | hnew
    · have := hA _ hmem
      omega
    · rw [newBlocks_size] at hnew
      omega
  have hright : ¬GoesTo (added (c₂.graph.append (shortBranch forAnd lh n)) c₄.graph b) (n+1) := by
    intro hgoes
    rcases hr.targets b _ hgoes with hmem | hnew
    · have := hA _ hmem
      omega
    · omega
  have hreserved : added c.graph (c₄.append (.br ⟨.shortCircuit, 0⟩ (n+1))).graph b =
      added c.newBlock.newBlock.graph (c₄.append (.br ⟨.shortCircuit, 0⟩ (n+1))).graph b := by
    rw [newBlocks_graph]
    exact (Grows.added_congr (fun j => c.graph.reserve_code 2 j) (fun _ => rfl) b).symm
  have hsplit := (hbranch.trans hgrowr).added_append hc₄ (.br ⟨.shortCircuit, 0⟩ (n+1)) b
  rw [hbranch.added_trans hgrowr, hgrowl.added_append hc₂] at hsplit
  rw [hreserved]
  change GoesTo (added _ (c₄.graph.append _) b) _ ↔ _
  rw [hsplit, goesTo_append, goesTo_append, goesTo_append, or_iff_right hleft, or_iff_left hright]
  refine or_congr ?_ ?_
  · change GoesTo (if b = c₂.cur then _ else _) _ ↔ _
    split_ifs with hb
    · simp [hb, goesTo_singleton, mem_shortBranch]
    · simp [hb, not_goesTo_nil]
  · change GoesTo (if b = c₄.cur then _ else _) _ ↔ _
    split_ifs with hb
    · simp [hb, goesTo_singleton, Instr.targets]
    · simp [hb, not_goesTo_nil]

/-- The operands of a short circuit end in different blocks. -/
theorem operands_cur_ne (hn : n = c.graph.size) (hc : c.graph.cur < c.graph.size)
    (hl : Region c.newBlock.newBlock.graph c₂.graph)
    (hr : Region ((c₂.append (shortBranch forAnd lh n)).moveTo n).graph c₄.graph) :
    c₂.cur ≠ c₄.cur := by
  have hcur : c.cur < c.graph.size := hc
  have hvalid : c₂.cur < c₂.graph.size := hl.valid
  have hle := hl.grows.size_le
  have hmoved : c₂.cur = c.cur ∨ c.newBlock.newBlock.graph.size ≤ c₂.cur :=
    hl.moved.imp id fun hm => hm.1
  have hmoved' : c₄.cur = n ∨ c₂.graph.size ≤ c₄.cur := by
    refine hr.moved.imp id fun hm => ?_
    rw [← Cfg.append_size c₂.graph (shortBranch forAnd lh n)]
    exact hm.1
  rw [newBlocks_size] at hle hmoved
  omega

/-- The phi node of a run behind code that is wired. -/
theorem Wired.phi {c₅ : Ctx} {d : ℕ} {ins : List (LLValue × ℕ)} (h : Wired A c c₅)
    (hc₅ : c₅.graph.cur < c₅.graph.size) (hnew : c.graph.size ≤ c₅.cur)
    (r : ConditionalRun c (c₅.result (.phi d ins))) (hd : r.phi = d) (hins : r.incoming = ins)
    (hproper : r.Proper c₅.cur)
    (hentered : ∀ b, GoesTo (added c.graph c₅.graph b) c₅.cur ↔
      b = r.leftEnd.cur ∨ b = r.rightEnd.cur) : Wired A c (c₅.result (.phi d ins)) := by
  have hemits : Ctx.Emits c₅ (c₅.result (.phi d ins)) := (Ctx.Update.result c₅ _).emits
  have hadded : ∀ i, added c.graph (c₅.result (.phi d ins)).graph i =
      added c.graph c₅.graph i ++ if i = c₅.cur then [.phi d ins] else [] :=
    fun i => h.emits.grows.added_append hc₅ (.phi d ins) i
  have hgoes : ∀ i t, GoesTo (added c.graph (c₅.result (.phi d ins)).graph i) t ↔
      GoesTo (added c.graph c₅.graph i) t := by
    intro i t
    have hnone : ¬GoesTo (if i = c₅.cur then [Instr.phi d ins] else []) t := by
      split_ifs
      · simp [goesTo_singleton, Instr.targets]
      · exact not_goesTo_nil t
    rw [hadded, goesTo_append, or_iff_left hnone]
  have hsize : (c₅.result (.phi d ins)).graph.size = c₅.graph.size := Cfg.append_size c₅.graph _
  constructor
  · exact h.emits.trans hemits
  · intro b t ht
    rw [hgoes] at ht
    rw [hsize]
    exact h.targets b t ht
  · intro i d' ins' hi
    simp only [hgoes]
    rw [hadded, List.mem_append] at hi
    rcases hi with hi | hi
    · obtain ⟨hle, r', hd', hins', hproper', hentered'⟩ := h.phis i d' ins' hi
      exact ⟨hle, r'.widen Relation.ReflTransGen.refl hemits, hd', hins',
        ⟨hproper'.block, hproper'.left, hproper'.right, hproper'.blocks⟩, hentered'⟩
    · split_ifs at hi with hcur
      · obtain ⟨rfl, rfl⟩ := Instr.phi.inj (List.mem_singleton.mp hi)
        rw [hcur]
        exact ⟨hnew, r, hd, hins, hproper, hentered⟩
      · simp at hi

end

theorem wires_conditionalValue {J : List LoopContext → List ℕ} {forAnd : Bool} {l r : Expression}
    (hl : (l.getValue >>= toI1).Wires J) (hr : (r.getValue >>= toI1).Wires J) :
    (conditionalValue forAnd l.getValue r.getValue).Wires J := by
  intro c v c' hc hJ hrun
  have hrun' := hrun
  obtain ⟨lv, c₁, lh, c₂, rv, c₃, rh, c₄, h₁, h₂, h₃, h₄, rfl, rfl⟩ := conditionalValue_eq_ok.mp hrun
  have hlrun := bind_eq_ok.mpr ⟨lv, c₁, h₁, h₂⟩
  have hrrun := bind_eq_ok.mpr ⟨rv, c₃, h₃, h₄⟩
  have hn : c.blocks.length = c.graph.size := rfl
  have hsize := newBlocks_size c
  have hc₀ : c.newBlock.newBlock.graph.cur < c.newBlock.newBlock.graph.size :=
    hc.trans (by rw [hsize]; omega)
  have hJ₀ : ∀ t ∈ J c.newBlock.newBlock.loops, t < c.newBlock.newBlock.graph.size :=
    fun t ht => (hJ t ht).trans (by rw [hsize]; omega)
  obtain ⟨hwl, hloops₂, hc₂⟩ := hl hc₀ hJ₀ hlrun
  have hle := hwl.emits.grows.size_le
  have hbranch := Cfg.append_size c₂.graph (shortBranch forAnd lh c.blocks.length)
  have hd : ((c₂.append (shortBranch forAnd lh c.blocks.length)).moveTo c.blocks.length).graph.cur <
      ((c₂.append (shortBranch forAnd lh c.blocks.length)).moveTo c.blocks.length).graph.size := by
    change c.graph.size < (c₂.graph.append _).size
    omega
  have hJd : ∀ t ∈ J c₂.loops, t < (c₂.graph.append (shortBranch forAnd lh c.blocks.length)).size := by
    intro t ht
    rw [hloops₂] at ht
    rw [hbranch]
    exact (hJ₀ t ht).trans_le hle
  obtain ⟨hwr, hloops₄, hc₄⟩ := hr hd hJd hrrun
  have hwr' : Wired (J c.loops) ((c₂.append (shortBranch forAnd lh c.blocks.length)).moveTo
      c.blocks.length) c₄ := by
    have hloops : J c₂.loops = J c.loops := by rw [hloops₂]; rfl
    rw [← hloops]
    exact hwr
  have hemits₁ := (emits_twoBlocks c).trans hwl.emits
  have hemits₂ := hemits₁.trans (emits_branch c₂ (shortBranch forAnd lh c.blocks.length) c.blocks.length)
  have hemits₃ := hemits₂.trans hwr'.emits
  have hleave := emits_branch c₄ (.br ⟨.shortCircuit, 0⟩ (c.blocks.length+1)) (c.blocks.length+1)
  let c₅ := (c₄.append (.br ⟨.shortCircuit, 0⟩ (c.blocks.length+1))).moveTo (c.blocks.length+1)
  have hlast : Ctx.Emits c₅ (c₅.result (.phi c₄.nextReg [(lh, c₂.cur), (rh, c₄.cur)])) :=
    (Ctx.Update.result c₅ _).emits
  have hwired : Wired (J c.loops) c c₅ := Wired.operands hn hJ hwl hc₂ hwr' hc₄
  have hc₅ : c₅.graph.cur < c₅.graph.size := by
    have hle₄ := hemits₃.grows.size_le
    change c.graph.size+1 < (c₄.graph.append _).size
    have hsize₄ := Cfg.append_size c₄.graph (.br ⟨.shortCircuit, 0⟩ (c.blocks.length+1))
    have hwr_le := hwr'.emits.grows.size_le
    change (c₂.graph.append _).size ≤ _ at hwr_le
    omega
  let run : ConditionalRun c (c₅.result (.phi c₄.nextReg [(lh, c₂.cur), (rh, c₄.cur)])) :=
    { forAnd := forAnd, lhs := l, rhs := r, start := c, leftStart := c.newBlock.newBlock
      left := lh, leftEnd := c₂
      rightStart := (c₂.append (shortBranch forAnd lh c.blocks.length)).moveTo c.blocks.length
      right := rh, rightEnd := c₄, phi := c₄.nextReg
      finish := c₅.result (.phi c₄.nextReg [(lh, c₂.cur), (rh, c₄.cur)])
      before := Relation.ReflTransGen.refl
      run := hrun'
      enterLeft := emits_twoBlocks c
      runLeft := hlrun
      enterRight := emits_branch c₂ _ _
      runRight := hrrun
      leave := hleave.trans hlast
      behind := Relation.ReflTransGen.refl }
  have hproper : run.Proper (c.blocks.length+1) := by
    constructor
    · rfl
    · exact toI1_yields lv h₂
    · exact toI1_yields rv h₄
    · have hlbuild := (buildsRules.getValue l).seq builds_toI1
      have hrbuild := (buildsRules.getValue r).seq builds_toI1
      exact operands_cur_ne hn hc (hlbuild hc₀ hlrun).1 (hrbuild hd hrrun).1
  have hentered := operands_entered hn hJ hwl hc₂ hwr' hc₄
  refine ⟨hwired.phi hc₅ (Nat.le_succ _) run rfl rfl hproper hentered, hloops₄.trans hloops₂, ?_⟩
  exact (Region.append hc₅ _).valid

section
variable {α : Type} {J : List LoopContext → List ℕ}

theorem wires_pure (a : α) : (Pure.pure a : Gen α).Wires J := by
  apply wires_of_graph_eq
  intro c b c' h
  obtain ⟨-, rfl⟩ := pure_eq_ok.mp h
  exact ⟨rfl, rfl, Relation.ReflTransGen.refl⟩

theorem wires_fail (e : CompileError) : (fail e : Gen α).Wires J := by
  intro c a c' _ _ h
  exact absurd h (by simp)

theorem wires_get : get.Wires J := by
  apply wires_of_graph_eq
  intro c b c' h
  obtain ⟨-, rfl⟩ := get_eq_ok.mp h
  exact ⟨rfl, rfl, Relation.ReflTransGen.refl⟩

theorem wires_require (e : CompileError) (o : Option α) : (require e o).Wires J := by
  apply wires_of_graph_eq
  intro c b c' h
  obtain ⟨-, rfl⟩ := require_eq_ok.mp h
  exact ⟨rfl, rfl, Relation.ReflTransGen.refl⟩

theorem wires_registerRow (ts : List LLType) : (registerRow ts).Wires J := by
  apply wires_of_graph_eq
  intro c t c' h
  refine ⟨?_, ?_, emits_registerRow ts h⟩
  all_goals
    obtain ⟨_, c₁, h₁, h₂⟩ := bind_eq_ok.mp h
    rw [← (pure_eq_ok.mp h₂).2, ← modify_eq_ok.mp h₁]
    split_ifs <;> rfl

theorem wires_emitResult {mk : ℕ → Instr} (hmk : ∀ d, (mk d).Straight fun _ _ => True) (ty : LLType) :
    (emitResult mk ty).Wires J := by
  refine wires_of_append (fun c => hmk c.nextReg) (emits_emitResult mk ty) fun c v c' h => ?_
  obtain ⟨-, rfl⟩ := emitResult_eq_ok.mp h
  exact ⟨rfl, rfl⟩

theorem wires_toI1 (v : LLValue) : (toI1 v).Wires J := by
  unfold toI1
  split_ifs
  · exact wires_pure v
  · apply wires_emitResult
    exact fun _ => trivial

theorem wiresRules : CallRules (fun _ _ => True) (Gen.Wires J) where
  pure := wires_pure
  fail := wires_fail
  get := wires_get
  require := wires_require
  bind := Gen.Wires.bind
  registerRow := wires_registerRow
  emitInstr := by
    intro i hi _
    refine wires_of_append (fun _ => hi) (emits_emitInstr i) fun c u c' h => ?_
    obtain rfl := emitInstr_eq_ok.mp h
    exact ⟨rfl, rfl⟩
  emitResult := fun _ ty hmk _ => wires_emitResult hmk ty
  emitLoad := by
    intro p ty
    refine wires_of_append (x := fun c => .load c.nextReg p) (fun _ => trivial) (emits_emitLoad p ty)
      fun c v c' h => ?_
    obtain ⟨-, rfl⟩ := emitLoad_eq_ok.mp h
    exact ⟨rfl, rfl⟩
  conditionalValue := fun hl hr => wires_conditionalValue (hl.bind wires_toI1) (hr.bind wires_toI1)

end

/-- The blocks that a `Jump` may go to. -/
def jumpTargets (ls : List LoopContext) : List ℕ := ls.flatMap fun l => [l.every, l.finish]

/-- A step that wires its code, with branches to blocks of `B` that have been made for it, and
leaves `g` of the loops around it. -/
def Gen.Links {α : Type} (B : List ℕ) (g : List LoopContext → List LoopContext) (p : Gen α) : Prop :=
  ∀ ⦃c a c'⦄, c.graph.cur < c.graph.size → (∀ t ∈ B, t < c.graph.size) →
    (∀ t ∈ jumpTargets c.loops, t ∈ B) → p.run c = .ok (a, c') →
      Wired B c c' ∧ c'.loops = g c.loops ∧ c'.graph.cur < c'.graph.size

section
variable {α β : Type} {B : List ℕ} {g : List LoopContext → List LoopContext} {p : Gen α} {f : α → Gen β}

theorem Gen.Wires.links (h : p.Wires jumpTargets) : p.Links B id := by
  intro c a c' hc hB hjumps hrun
  obtain ⟨hw, hrest⟩ := h hc (fun t ht => hB t (hjumps t ht)) hrun
  exact ⟨hw.mono hjumps, hrest⟩

theorem Gen.Links.bind (hp : p.Links B id) (hf : ∀ a, (f a).Links B g) : (p >>= f).Links B g := by
  intro c b c' hc hB hjumps h
  obtain ⟨a, c₁, h₁, h₂⟩ := bind_eq_ok.mp h
  obtain ⟨hw₁, hl₁, hc₁⟩ := hp hc hB hjumps h₁
  have hB₁ : ∀ t ∈ B, t < c₁.graph.size := fun t ht => (hB t ht).trans_le hw₁.emits.grows.size_le
  have hjumps₁ : ∀ t ∈ jumpTargets c₁.loops, t ∈ B := by rwa [hl₁]
  obtain ⟨hw₂, hl₂, hc₂⟩ := hf a hc₁ hB₁ hjumps₁ h₂
  rw [hl₁] at hl₂
  exact ⟨hw₁.trans hB hw₂, hl₂, hc₂⟩

theorem links_emitInstr {x : Instr} (htargets : ∀ t ∈ x.targets, t ∈ B)
    (hphi : ∀ d ins, x ≠ .phi d ins) : (emitInstr x).Links B id := by
  intro c u c' hc _ _ hrun
  obtain rfl := emitInstr_eq_ok.mp hrun
  have hw := Wired.append hc (Ctx.Update.append c x).emits rfl htargets hphi
  exact ⟨hw, rfl, (Region.append hc x).valid⟩

theorem links_createBr {tag : Tag} {t : ℕ} (ht : t ∈ B) : (createBr tag t).Links B id := by
  apply links_emitInstr
  · simpa [Instr.targets] using ht
  · simp

theorem links_createCondBr {tag : Tag} {v : LLValue} {t f : ℕ} (ht : t ∈ B) (hf : f ∈ B) :
    (createCondBr tag v t f).Links B id := by
  apply links_emitInstr
  · simpa [Instr.targets] using ⟨ht, hf⟩
  · simp

theorem links_setInsertPoint {b : ℕ} (hb : b ∈ B) : (setInsertPoint b).Links B id := by
  intro c u c' _ hB _ hrun
  obtain rfl := setInsertPoint_eq_ok.mp hrun
  exact ⟨Wired.moveTo B c b, rfl, hB b hb⟩

theorem links_exitLoop : exitLoop.Links B List.tail := by
  intro c u c' hc _ _ hrun
  obtain rfl := exitLoop_eq_ok.mp hrun
  exact ⟨Wired.of_code_eq (Ctx.Update.popLoop c).emits fun _ => rfl, rfl, hc⟩

end

theorem wires_getValue {J : List LoopContext → List ℕ} (e : Expression) : e.getValue.Wires J :=
  wiresRules.getValue fun _ _ => trivial

theorem wires_loopEvery {J : List LoopContext → List ℕ} (every : Ptr Expression) :
    (loopEvery every).Wires J :=
  wiresRules.loopEvery fun _ _ _ _ => trivial

theorem wires_createCall {J : List LoopContext → List ℕ} (tag : Tag) (f : Text) (args : List LLValue) :
    (createCall tag f args).Wires J :=
  wiresRules.createCall trivial args

theorem mem_newBlocks (c : Ctx) {i n : ℕ} (hi : i < n) :
    c.blocks.length+i ∈ jumpTargets c.loops ++ List.range' c.graph.size n := by
  refine List.mem_append_right _ (List.mem_range'_1.mpr ⟨Nat.le_add_right _ _, ?_⟩)
  exact Nat.add_lt_add_left hi _

/-- A step that links its code behind new blocks. -/
theorem Gen.Links.wired {α : Type} {c c₀ c' : Ctx} {p : Gen α} {a : α} {n : ℕ}
    {g : List LoopContext → List LoopContext}
    (hp : p.Links (jumpTargets c.loops ++ List.range' c.graph.size n) g)
    (hc : c.graph.cur < c.graph.size) (hJ : ∀ t ∈ jumpTargets c.loops, t < c.graph.size)
    (hgraph : c₀.graph = c.graph.reserve n) (hemits : Ctx.Emits c c₀) (hloops : g c₀.loops = c.loops)
    (hjumps : ∀ t ∈ jumpTargets c₀.loops, t ∈ jumpTargets c.loops ++ List.range' c.graph.size n)
    (hrun : p.run c₀ = .ok (a, c')) :
    Wired (jumpTargets c.loops) c c' ∧ c'.loops = c.loops ∧ c'.graph.cur < c'.graph.size := by
  have hsize : c₀.graph.size = c.graph.size+n := by rw [hgraph, Cfg.reserve_size]
  have hcur : c₀.graph.cur = c.graph.cur := by rw [hgraph, Cfg.reserve_cur]
  have hB : ∀ t ∈ jumpTargets c.loops ++ List.range' c.graph.size n,
      t ∈ jumpTargets c.loops ∨ c.graph.size ≤ t ∧ t < c.graph.size+n := by
    intro t ht
    simpa [List.mem_range'_1] using ht
  have hsizes : ∀ t ∈ jumpTargets c.loops ++ List.range' c.graph.size n, t < c₀.graph.size := by
    intro t ht
    rcases hB t ht with hmem | hnew
    · have := hJ t hmem
      omega
    · omega
  obtain ⟨hw, hl, hc'⟩ := hp (by omega) hsizes hjumps hrun
  exact ⟨Wired.reserve hgraph hemits hB hw, hl.trans hloops, hc'⟩

theorem wires_ifCode {cond : Gen LLValue} {trueCode falseCode : Gen Unit}
    (hcond : cond.Wires jumpTargets) (ht : trueCode.Wires jumpTargets)
    (hf : falseCode.Wires jumpTargets) : (ifCode cond trueCode falseCode).Wires jumpTargets := by
  intro c u c' hc hJ hrun
  obtain ⟨trueBlock, _, h₁, hrun⟩ := bind_eq_ok.mp hrun
  obtain ⟨falseBlock, _, h₂, hrun⟩ := bind_eq_ok.mp hrun
  obtain ⟨fin, c₀, h₃, hrun⟩ := bind_eq_ok.mp hrun
  obtain ⟨rfl, rfl⟩ := createBlock_eq_ok.mp h₁
  obtain ⟨rfl, rfl⟩ := createBlock_eq_ok.mp h₂
  obtain ⟨rfl, rfl⟩ := createBlock_eq_ok.mp h₃
  have hgraph : c.newBlock.newBlock.newBlock.graph = c.graph.reserve 3 := by simp
  refine Gen.Links.wired (g := id) ?_ hc hJ hgraph (emits_newBlocks c) rfl (fun t ht => ?_) hrun
  · simp only [Ctx.newBlock_length]
    have htrue := mem_newBlocks c (n := 3) (i := 0) (by decide)
    have hfalse := mem_newBlocks c (n := 3) (i := 1) (by decide)
    have hfin := mem_newBlocks c (n := 3) (i := 2) (by decide)
    refine hcond.links.bind fun v => wires_toI1 v |>.links.bind fun w =>
      (links_createCondBr htrue hfalse).bind fun _ => (links_setInsertPoint htrue).bind fun _ =>
      ht.links.bind fun _ => (links_createBr hfin).bind fun _ => (links_setInsertPoint hfalse).bind
      fun _ => hf.links.bind fun _ => (links_createBr hfin).bind fun _ => links_setInsertPoint hfin
  · exact List.mem_append_left _ ht

theorem links_loopCondition {B : List ℕ} {body finish : ℕ} (cond : Ptr Expression) (hbody : body ∈ B)
    (hfinish : finish ∈ B) : (loopCondition cond body finish).Links B id := by
  cases cond with
  | null => exact (wires_pure ()).links
  | uninit => exact (wires_fail _).links
  | «to» e => exact (wires_getValue e).links.bind fun _ => links_createCondBr hbody hfinish

theorem wires_forCode {init blk : Gen Unit} (cond every : Ptr Expression)
    (hinit : init.Wires jumpTargets) (hblk : blk.Wires jumpTargets) :
    (forCode init cond every blk).Wires jumpTargets := by
  refine hinit.bind fun _ => ?_
  intro c u c' hc hJ hrun
  obtain ⟨begin, _, h₁, hrun⟩ := bind_eq_ok.mp hrun
  obtain ⟨body, _, h₂, hrun⟩ := bind_eq_ok.mp hrun
  obtain ⟨next, _, h₃, hrun⟩ := bind_eq_ok.mp hrun
  obtain ⟨finish, _, h₄, hrun⟩ := bind_eq_ok.mp hrun
  obtain ⟨_, c₀, h₅, hrun⟩ := bind_eq_ok.mp hrun
  obtain ⟨rfl, rfl⟩ := createBlock_eq_ok.mp h₁
  obtain ⟨rfl, rfl⟩ := createBlock_eq_ok.mp h₂
  obtain ⟨rfl, rfl⟩ := createBlock_eq_ok.mp h₃
  obtain ⟨rfl, rfl⟩ := createBlock_eq_ok.mp h₄
  obtain rfl := enterLoop_eq_ok.mp h₅
  simp only [Ctx.newBlock_length] at hrun
  have hgraph : c.loopStart.graph = c.graph.reserve 4 := by
    change c.newBlock.newBlock.newBlock.newBlock.graph = _
    simp
  refine Gen.Links.wired (g := List.tail) ?_ hc hJ hgraph (emits_loopStart c) rfl ?_ hrun
  all_goals
    have hbegin := mem_newBlocks c (n := 4) (i := 0) (by decide)
    have hbody := mem_newBlocks c (n := 4) (i := 1) (by decide)
    have hnext := mem_newBlocks c (n := 4) (i := 2) (by decide)
    have hfinish := mem_newBlocks c (n := 4) (i := 3) (by decide)
  · exact (links_createBr hbegin).bind fun _ => (links_setInsertPoint hbegin).bind fun _ =>
      (links_loopCondition cond hbody hfinish).bind fun _ => (links_setInsertPoint hbody).bind
      fun _ => hblk.links.bind fun _ => (links_createBr hnext).bind fun _ =>
      (links_setInsertPoint hnext).bind fun _ => (wires_loopEvery every).links.bind fun _ =>
      (links_createBr hbegin).bind fun _ => (links_setInsertPoint hfinish).bind fun _ => links_exitLoop
  · intro t ht
    simp only [jumpTargets, Ctx.loopStart, Ctx.pushLoop, List.flatMap_cons, List.cons_append, List.nil_append,
      List.mem_cons] at ht
    rcases ht with rfl | rfl | ht
    · exact hnext
    · exact hfinish
    · exact List.mem_append_left _ ht

theorem wires_jumpCode (around : List Frame) (t : JumpType) : (jumpCode around t).Wires jumpTargets := by
  intro c u c' hc hJ hrun
  obtain ⟨c₁, _, h₁, hrun⟩ := bind_eq_ok.mp hrun
  obtain ⟨l, c₂, h₂, hrun⟩ := bind_eq_ok.mp hrun
  obtain ⟨rfl, rfl⟩ := get_eq_ok.mp h₁
  obtain ⟨hl, rfl⟩ := require_eq_ok.mp h₂
  have hmem : ∀ t ∈ [l.every, l.finish], t ∈ jumpTargets c.loops := fun t ht =>
    List.mem_flatMap.mpr ⟨l, List.mem_of_mem_head? hl, ht⟩
  refine (links_createBr ?_) hc hJ (fun _ => id) hrun
  cases t with
  | continueJump => exact hmem _ List.mem_cons_self
  | breakJump => exact hmem _ (List.mem_cons_of_mem _ List.mem_cons_self)

theorem wires_scanCode (table rowName : Text) (frame : ScanFrame) {blk : Gen Unit}
    (hblk : blk.Wires jumpTargets) : (scanCode table rowName frame blk).Wires jumpTargets := by
  refine (wiresRules.lookupSchema _ _).bind fun s => wires_get.bind fun _ =>
    (wires_require _ _).bind fun rowType => (wiresRules.scanCursor trivial s frame).bind fun cursor => ?_
  intro c u c' hc hJ hrun
  obtain ⟨check, _, h₁, hrun⟩ := bind_eq_ok.mp hrun
  obtain ⟨begin, _, h₂, hrun⟩ := bind_eq_ok.mp hrun
  obtain ⟨fin, c₀, h₃, hrun⟩ := bind_eq_ok.mp hrun
  obtain ⟨rfl, rfl⟩ := createBlock_eq_ok.mp h₁
  obtain ⟨rfl, rfl⟩ := createBlock_eq_ok.mp h₂
  obtain ⟨rfl, rfl⟩ := createBlock_eq_ok.mp h₃
  have hgraph : c.newBlock.newBlock.newBlock.graph = c.graph.reserve 3 := by simp
  refine Gen.Links.wired (g := id) ?_ hc hJ hgraph (emits_newBlocks c) rfl (fun t ht => ?_) hrun
  · simp only [Ctx.newBlock_length]
    have hcheck := mem_newBlocks c (n := 3) (i := 0) (by decide)
    have hbegin := mem_newBlocks c (n := 3) (i := 1) (by decide)
    have hfin := mem_newBlocks c (n := 3) (i := 2) (by decide)
    exact (links_createBr hcheck).bind fun _ => (links_setInsertPoint hcheck).bind fun _ =>
      (wires_createCall _ _ _).links.bind fun valid =>
      (wiresRules.createICmp .eq valid (int1 true)).links.bind fun _ =>
      (links_createCondBr hbegin hfin).bind fun _ => (links_setInsertPoint hbegin).bind fun _ =>
      (wiresRules.scanRow trivial trivial s rowType frame cursor).links.bind fun _ =>
      hblk.links.bind fun _ => (wires_createCall _ _ _).links.bind fun _ =>
      (links_createBr hcheck).bind fun _ => (links_setInsertPoint hfin).bind fun _ =>
      (wires_createCall _ _ _).links.bind fun _ => (wires_pure ()).links
  · exact List.mem_append_left _ ht

theorem wires_codegenAll {around : List Frame} {ss : List Statement}
    (h : ∀ s ∈ ss, ∀ around, (s.codegen around).Wires jumpTargets) :
    (codegenAll around ss).Wires jumpTargets := by
  induction ss with
  | nil => exact wires_pure _
  | cons s ss ih =>
    rw [List.forall_mem_cons] at h
    exact (h.1 around).bind fun _ => ih h.2

theorem Statement.wires_codegen (s : Statement) (around : List Frame) :
    (s.codegen around).Wires jumpTargets := by
  induction s using Statement.induction generalizing around with
  | block ss hss => exact wires_codegenAll hss
  | transaction isolation ss hss =>
    exact (wires_createCall _ _ _).bind fun _ => (wires_codegenAll hss).bind fun _ =>
      (wires_createCall _ _ _).bind fun _ => wires_pure _
  | define schema name => exact wires_pure _
  | forStmt init cond every blk hinit hblk =>
    have hcode : (codegenInit around init).Wires jumpTargets :=
      match init, hinit with
      | .null, _ => wires_pure _
      | .uninit, _ => wires_fail _
      | .to s, hinit => hinit s rfl around
    exact wires_forCode _ _ hcode (wires_codegenAll hblk)
  | jump t => exact wires_jumpCode around t
  | emit stack e => exact wiresRules.emitCode trivial stack fun _ _ => trivial
  | insert table e frame => exact wiresRules.insertCode trivial table (fun _ _ => trivial) frame
  | scan table rowName blk frame hblk => exact wires_scanCode _ _ _ (wires_codegenAll hblk)
  | letStmt name e type => exact wiresRules.letCode name fun _ _ => trivial
  | defineTuple name type => exact wires_pure _
  | ifStmt cond ts fs hts hfs =>
    have helse : (codegenElse around fs).Wires jumpTargets := by
      cases fs with
      | none => exact wires_pure _
      | some fs => exact wires_codegenAll (hfs fs rfl)
    exact wires_ifCode (wires_getValue cond) (wires_codegenAll hts) helse
  | exprStatement stack e => exact (wires_getValue e).bind fun _ => wires_pure _

/-- The insert point is a block, and branches go to blocks. -/
structure Ctx.Formed (c : Ctx) : Prop where
  valid : c.graph.cur < c.graph.size
  closed : ∀ p b, Predecessor c.graph p b → b < c.graph.size

/-- The phi node `d` in block `i` is the result of a conditional expression. It has an incoming
block for each predecessor of its block, and the values with them are the operands whose code ends
there. -/
structure ConditionalRun.Matches {c c' : Ctx} (r : ConditionalRun c c') (i d : ℕ)
    (ins : List (LLValue × ℕ)) : Prop where
  phi : r.phi = d
  incoming : r.incoming = ins
  proper : r.Proper i
  predecessors : ∀ p, Predecessor c'.graph p i ↔ p ∈ ins.map Prod.snd

theorem Wired.phis_match {A : List ℕ} {c c' : Ctx} (hc : c.Formed) (h : Wired A c c') {i d : ℕ}
    {ins : List (LLValue × ℕ)} (hmem : .phi d ins ∈ added c.graph c'.graph i) :
    ∃ r : ConditionalRun c c', r.Matches i d ins := by
  obtain ⟨hnew, r, hd, hins, hproper, hentered⟩ := h.phis i d ins hmem
  refine ⟨r, hd, hins, hproper, fun p => ?_⟩
  have hbefore : ¬GoesTo (c.graph.code p) i := by
    intro hp
    have := hc.closed p i hp
    omega
  rw [Predecessor, h.emits.grows.code_eq, goesTo_append, or_iff_right hbefore, hentered, ← hins]
  simp [ConditionalRun.incoming]

/-- Before code generation there are slots only. -/
theorem Entry.alloca {c : Ctx} (h : Entry c) {i : ℕ} {x : Instr} (hx : x ∈ c.graph.code i) :
    ∃ s, x = .alloca s := by
  obtain ⟨is, hgraph, hall⟩ := h.graph
  rw [hgraph] at hx
  cases i with
  | zero => exact hall x hx
  | succ i => exact absurd hx (by simp [Cfg.code])

theorem Entry.not_phi {c : Ctx} (h : Entry c) (i d : ℕ) (ins : List (LLValue × ℕ)) :
    .phi d ins ∉ c.graph.code i := by
  intro hx
  obtain ⟨s, hs⟩ := h.alloca hx
  simp at hs

theorem Entry.formed {c : Ctx} (h : Entry c) : c.Formed := by
  constructor
  · obtain ⟨is, hgraph, -⟩ := h.graph
    rw [hgraph]
    exact Nat.zero_lt_one
  · rintro p b ⟨x, hx, hb⟩
    obtain ⟨s, rfl⟩ := h.alloca hx
    simp [Instr.targets] at hb

/-- The phi nodes of an expression, and those of a program in the finished function. -/
theorem phi_predecessors :
    (∀ (e : Expression) (c c' : Ctx) (v : LLValue), c.Formed → e.getValue.run c = .ok (v, c') →
      ∀ i d ins, .phi d ins ∈ added c.graph c'.graph i → ∃ r : ConditionalRun c c', r.Matches i d ins) ∧
    ∀ (ss ss' ss'' : List Statement) (c c' : Ctx), (passes ss).run Ctx.initial = .ok (ss', c) →
      (compile ss).run Ctx.initial = .ok (ss'', c') →
        ∀ i d ins, .phi d ins ∈ c'.graph.code i → ∃ r : ConditionalRun c c', r.Matches i d ins := by
  constructor
  · intro e c c' v hc hrun i d ins hmem
    have hw := (wires_getValue (J := fun _ => []) e) hc.valid (by simp) hrun
    exact hw.1.phis_match hc hmem
  · intro ss ss' ss'' c c' hpasses hcompile i d ins hmem
    obtain ⟨-, c₁, hcode, rfl⟩ := compile_passes hpasses hcompile
    have hentry := passes_entry hpasses
    have hjumps : jumpTargets c.loops = [] := by
      rw [hentry.loops]
      rfl
    have hwires := (wires_codegenAll fun s _ => s.wires_codegen) hentry.formed.valid
      (by simp [hjumps]) hcode
    obtain ⟨hw, -, hcur⟩ := hwires
    have hret : Wired [] c₁ (c₁.append (.ret (int1 true))) :=
      Wired.append hcur (Ctx.Update.append c₁ _).emits rfl (by simp [Instr.targets]) (by simp)
    rw [hjumps] at hw
    have hall := hw.trans (by simp) hret
    rw [hall.emits.grows.code_eq, List.mem_append, or_iff_right (hentry.not_phi i d ins)] at hmem
    exact hall.phis_match hentry.formed hmem

/-- `1 && (2 || 3)` -/
def nestedCondition : Expression :=
  .binary {} (.primary {} (some (.int 1))) .conditionalAnd
    (.binary {} (.primary {} (some (.int 2))) .conditionalOr (.primary {} (some (.int 3))))

theorem phi_predecessors_nestedCondition :
    (∃ v c', nestedCondition.getValue.run (Ctx.initial.newBlock.moveTo 0) = .ok (v, c') ∧
      ∃ r : ConditionalRun (Ctx.initial.newBlock.moveTo 0) c',
        r.Matches 2 4 [(⟨.reg 0, .i1⟩, 0), (⟨.reg 3, .i1⟩, 4)]) ∧
    ∃ ss' c ss'' c', (passes [.exprStatement none nestedCondition]).run Ctx.initial = .ok (ss', c) ∧
      (compile [.exprStatement none nestedCondition]).run Ctx.initial = .ok (ss'', c') ∧
        ∃ r : ConditionalRun c c', r.Matches 2 4 [(⟨.reg 0, .i1⟩, 0), (⟨.reg 3, .i1⟩, 4)] := by
  have hentry : Entry (Ctx.initial.newBlock.moveTo 0) := ⟨⟨[], rfl, by simp⟩, rfl, rfl, rfl⟩
  constructor
  · exact ⟨_, _, rfl, phi_predecessors.1 nestedCondition _ _ _ hentry.formed rfl 2 4 _ (by decide)⟩
  · exact ⟨_, _, _, _, rfl, rfl, phi_predecessors.2 [.exprStatement none nestedCondition] _ _ _ _ rfl rfl
      2 4 _ (by decide)⟩

end Reir
