import Mathlib.Tactic

/-! Structured code and its layout in a control-flow graph. A machine runs the graph one
instruction at a time, with the first terminator of a block deciding where it goes on. Code that
is laid out in the graph is run the way its structure says: the machine follows an execution of
the code to one of its exits. -/
namespace StructuredCode

/-- What an instruction means for control: an instruction picked by the block the machine came
from stands for a phi node. -/
inductive View (ι κ : Type)
  | plain
  | phi (pick : ℕ → Option ι)
  | br (target : ℕ)
  | condBr (v : κ) (t f : ℕ)
  | ret

/-- Instructions and conditions over the data of a machine; what is undefined has no result. -/
structure Lang (ι κ δ : Type) where
  view : ι → View ι κ
  exec : ι → δ → Option δ
  test : κ → δ → Option (Bool × δ)

structure Point where
  block : ℕ
  pc : ℕ

structure State (δ : Type) where
  block : ℕ
  pc : ℕ
  prev : ℕ
  data : δ

variable {ι κ δ : Type}

def State.At (s : State δ) (p : Point) : Prop := s.block = p.block ∧ s.pc = p.pc

/-- The code of the blocks of a function. -/
abbrev Blocks (ι : Type) := ℕ → List ι

def Blocks.get (F : Blocks ι) (p : Point) : Option ι := (F p.block)[p.pc]?

def State.point (s : State δ) : Point := ⟨s.block, s.pc⟩

namespace Lang

def step (L : Lang ι κ δ) (F : Blocks ι) (s : State δ) : Option (State δ) :=
  match F.get s.point with
  | none => none
  | some i =>
    match L.view i with
    | .plain => (L.exec i s.data).map fun d => ⟨s.block, s.pc+1, s.prev, d⟩
    | .phi pick => (pick s.prev).bind fun j =>
        (L.exec j s.data).map fun d => ⟨s.block, s.pc+1, s.prev, d⟩
    | .br t => some ⟨t, 0, s.block, s.data⟩
    | .condBr v t f => (L.test v s.data).map fun r => ⟨if r.1 then t else f, 0, s.block, r.2⟩
    | .ret => none

def steps (L : Lang ι κ δ) (F : Blocks ι) : ℕ → State δ → Option (State δ)
  | 0, s => some s
  | n+1, s => (L.step F s).bind (L.steps F n)

inductive Run (L : Lang ι κ δ) (F : Blocks ι) : ℕ → State δ → State δ → Prop
  | zero (s : State δ) : Run L F 0 s s
  | succ {n : ℕ} {s s₁ s' : State δ} : L.step F s = some s₁ → Run L F n s₁ s' → Run L F (n+1) s s'

/-- The machine stands at an instruction that returns. -/
def Returns (L : Lang ι κ δ) (F : Blocks ι) (s : State δ) : Prop :=
  ∃ i, F.get s.point = some i ∧ L.view i = .ret

/-- The machine stands at an instruction that does not return. -/
def Inside (L : Lang ι κ δ) (F : Blocks ι) (s : State δ) : Prop :=
  ∃ i, F.get s.point = some i ∧ L.view i ≠ .ret

variable {L : Lang ι κ δ} {F : Blocks ι}

theorem steps_eq_some {n : ℕ} {s s' : State δ} : L.steps F n s = some s' ↔ L.Run F n s s' := by
  induction n generalizing s with
  | zero =>
    constructor
    · intro h
      obtain rfl := Option.some.inj h
      exact .zero s
    · intro h
      cases h
      rfl
  | succ n ih =>
    rw [steps, Option.bind_eq_some_iff]
    constructor
    · rintro ⟨s₁, hstep, hrest⟩
      exact .succ hstep (ih.mp hrest)
    · intro h
      cases h with
      | succ hstep hrest => exact ⟨_, hstep, ih.mpr hrest⟩

theorem Run.trans {m n : ℕ} {s s₁ s' : State δ} (h : L.Run F m s s₁) (k : L.Run F n s₁ s') :
    L.Run F (m+n) s s' := by
  induction h with
  | zero => simpa using k
  | succ hstep _ ih =>
    have hrest := Run.succ hstep (ih k)
    rwa [Nat.add_right_comm]

theorem Inside.not_returns {s : State δ} (h : L.Inside F s) : ¬L.Returns F s := by
  rintro ⟨i, hi, hret⟩
  obtain ⟨j, hj, hne⟩ := h
  rw [hi] at hj
  obtain rfl := Option.some.inj hj
  exact hne hret

section
variable {s s₁ : State δ} {i j : ι}

theorem step_plain (hi : F.get s.point = some i) (hv : L.view i = .plain) :
    L.step F s = (L.exec i s.data).map fun d => ⟨s.block, s.pc+1, s.prev, d⟩ := by
  simp only [step, hi, hv]

theorem step_phi {pick : ℕ → Option ι} (hi : F.get s.point = some i) (hv : L.view i = .phi pick)
    (hj : pick s.prev = some j) :
    L.step F s = (L.exec j s.data).map fun d => ⟨s.block, s.pc+1, s.prev, d⟩ := by
  simp only [step, hi, hv, hj, Option.bind_some]

theorem step_br {t : ℕ} (hi : F.get s.point = some i) (hv : L.view i = .br t) :
    L.step F s = some ⟨t, 0, s.block, s.data⟩ := by
  simp only [step, hi, hv]

theorem step_condBr {v : κ} {t f : ℕ} (hi : F.get s.point = some i)
    (hv : L.view i = .condBr v t f) :
    L.step F s = (L.test v s.data).map fun r => ⟨if r.1 then t else f, 0, s.block, r.2⟩ := by
  simp only [step, hi, hv]

end

end Lang

/-- How an execution of code ends; a run that has not come to an end is running. -/
inductive Exit
  | normal | brk | cont | running
  deriving DecidableEq, Repr

/-- An exit behind the last instruction: the run may still have to leave the block. -/
def Exit.Done (x : Exit) : Prop := x = .normal ∨ x = .running

/-- `short b v p l r` runs `p` and then `r` if the condition is `b`, and `l` otherwise. A `loop`
passes the exits of its body on, a `forLoop` takes them for its own. -/
inductive Code (ι κ : Type)
  | skip
  | instr (i : ι)
  | seq (p q : Code ι κ)
  | cond (v : κ) (p q : Code ι κ)
  | short (b : Bool) (v : κ) (p : Code ι κ) (l r : ι)
  | loop (t : Code ι κ) (v : κ) (p : Code ι κ)
  | forLoop (t : Code ι κ) (v : κ) (p e : Code ι κ)
  | jump (v : κ) (toNext : Bool)

def jumpExit (toNext : Bool) : Exit := if toNext then .cont else .brk

inductive Exec (L : Lang ι κ δ) : Code ι κ → δ → Exit → δ → Prop
  | skip {d x} : x.Done → Exec L .skip d x d
  | wait {i d} : Exec L (.instr i) d .running d
  | instr {i d d₁ x} : L.exec i d = some d₁ → x.Done → Exec L (.instr i) d x d₁
  | seq {p q d d₁ x d₂} : Exec L p d .normal d₁ → Exec L q d₁ x d₂ → Exec L (.seq p q) d x d₂
  | seqExit {p q d x d₁} : Exec L p d x d₁ → x ≠ .normal → Exec L (.seq p q) d x d₁
  | condWait {v p q d} : Exec L (.cond v p q) d .running d
  | cond {v p q d c d₁ x d₂} : L.test v d = some (c, d₁) → Exec L (if c then p else q) d₁ x d₂ →
      Exec L (.cond v p q) d x d₂
  | shortWait {b v p l r d} : Exec L (.short b v p l r) d .running d
  | shortLeave {b v p l r d d₁} : L.test v d = some (!b, d₁) →
      Exec L (.short b v p l r) d .running d₁
  | shortLeft {b v p l r d d₁ d₂ x} : L.test v d = some (!b, d₁) → L.exec l d₁ = some d₂ → x.Done →
      Exec L (.short b v p l r) d x d₂
  | shortExit {b v p l r d d₁ x d₂} : L.test v d = some (b, d₁) → Exec L p d₁ x d₂ → x ≠ .normal →
      Exec L (.short b v p l r) d x d₂
  | shortRight {b v p l r d d₁ d₂ d₃ x} : L.test v d = some (b, d₁) → Exec L p d₁ .normal d₂ →
      L.exec r d₂ = some d₃ → x.Done → Exec L (.short b v p l r) d x d₃
  | loopExit {t v p d x d₁} : Exec L t d x d₁ → x ≠ .normal → Exec L (.loop t v p) d x d₁
  | loopDone {t v p d d₁ d₂ x} : Exec L t d .normal d₁ → L.test v d₁ = some (false, d₂) → x.Done →
      Exec L (.loop t v p) d x d₂
  | loopLeave {t v p d d₁ d₂ x d₃} : Exec L t d .normal d₁ → L.test v d₁ = some (true, d₂) →
      Exec L p d₂ x d₃ → x ≠ .normal → Exec L (.loop t v p) d x d₃
  | loopNext {t v p d d₁ d₂ d₃ x d₄} : Exec L t d .normal d₁ → L.test v d₁ = some (true, d₂) →
      Exec L p d₂ .normal d₃ → Exec L (.loop t v p) d₃ x d₄ → Exec L (.loop t v p) d x d₄
  | forExit {t v p e d x d₁} : Exec L t d x d₁ → x ≠ .normal → Exec L (.forLoop t v p e) d x d₁
  | forDone {t v p e d d₁ d₂ x} : Exec L t d .normal d₁ → L.test v d₁ = some (false, d₂) → x.Done →
      Exec L (.forLoop t v p e) d x d₂
  | forBreak {t v p e d d₁ d₂ d₃ x} : Exec L t d .normal d₁ → L.test v d₁ = some (true, d₂) →
      Exec L p d₂ .brk d₃ → x.Done → Exec L (.forLoop t v p e) d x d₃
  | forStop {t v p e d d₁ d₂ d₃} : Exec L t d .normal d₁ → L.test v d₁ = some (true, d₂) →
      Exec L p d₂ .running d₃ → Exec L (.forLoop t v p e) d .running d₃
  | forEvery {t v p e d d₁ d₂ y d₃ x d₄} : Exec L t d .normal d₁ → L.test v d₁ = some (true, d₂) →
      Exec L p d₂ y d₃ → y = .normal ∨ y = .cont → Exec L e d₃ x d₄ → x ≠ .normal →
        Exec L (.forLoop t v p e) d x d₄
  | forNext {t v p e d d₁ d₂ y d₃ d₄ x d₅} : Exec L t d .normal d₁ → L.test v d₁ = some (true, d₂) →
      Exec L p d₂ y d₃ → y = .normal ∨ y = .cont → Exec L e d₃ .normal d₄ →
      Exec L (.forLoop t v p e) d₄ x d₅ → Exec L (.forLoop t v p e) d x d₅
  | jumpWait {v j d} : Exec L (.jump v j) d .running d
  | jump {v j d c d'} : L.test v d = some (c, d') → Exec L (.jump v j) d (jumpExit j) d'

theorem Exec.start {L : Lang ι κ δ} (k : Code ι κ) (d : δ) : Exec L k d .running d := by
  induction k with
  | skip => exact .skip (.inr rfl)
  | instr i => exact .wait
  | seq p q hp _ => exact .seqExit hp (by simp)
  | cond v p q _ _ => exact .condWait
  | short b v p l r _ => exact .shortWait
  | loop t v p ht _ => exact .loopExit ht (by simp)
  | forLoop t v p e ht _ _ => exact .forExit ht (by simp)
  | jump v j => exact .jumpWait

/-- Code that has come to its end may still be left. -/
theorem Exec.late {L : Lang ι κ δ} {k : Code ι κ} {d d' : δ} (h : Exec L k d .normal d') :
    Exec L k d .running d' := by
  generalize hx : Exit.normal = x at h
  induction h with
  | skip _ => exact .skip (.inr rfl)
  | wait => exact absurd hx (by simp)
  | instr hi _ => exact .instr hi (.inr rfl)
  | seq hp _ _ ihq => exact .seq hp (ihq hx)
  | seqExit _ hne _ => exact absurd hx.symm hne
  | condWait => exact absurd hx (by simp)
  | cond ht _ ih => exact .cond ht (ih hx)
  | shortWait => exact absurd hx (by simp)
  | shortLeave => exact absurd hx (by simp)
  | shortLeft ht hl _ => exact .shortLeft ht hl (.inr rfl)
  | shortExit _ _ hne _ => exact absurd hx.symm hne
  | shortRight ht hp hr _ _ => exact .shortRight ht hp hr (.inr rfl)
  | loopExit _ hne _ => exact absurd hx.symm hne
  | loopDone ht hv _ _ => exact .loopDone ht hv (.inr rfl)
  | loopLeave _ _ _ hne _ _ => exact absurd hx.symm hne
  | loopNext ht hv hp _ _ _ ih => exact .loopNext ht hv hp (ih hx)
  | forExit _ hne _ => exact absurd hx.symm hne
  | forDone ht hv _ _ => exact .forDone ht hv (.inr rfl)
  | forBreak ht hv hp _ _ _ => exact .forBreak ht hv hp (.inr rfl)
  | forStop => exact absurd hx (by simp)
  | forEvery _ _ _ _ _ hne _ _ _ => exact absurd hx.symm hne
  | forNext ht hv hp hy he _ _ _ _ ih => exact .forNext ht hv hp hy he (ih hx)
  | jumpWait => exact absurd hx (by simp)
  | @jump _ j _ _ _ _ => exact absurd hx (by cases j <;> simp [jumpExit])

section
variable {L : Lang ι κ δ} {d d' : δ}

theorem exec_skip_iff : Exec L (.skip : Code ι κ) d .normal d' ↔ d = d' := by
  constructor
  · intro h
    cases h
    rfl
  · rintro rfl
    exact .skip (.inl rfl)

theorem exec_instr_iff {i : ι} : Exec L (.instr i : Code ι κ) d .normal d' ↔ L.exec i d = some d' := by
  constructor
  · intro h
    cases h with
    | instr hi _ => exact hi
  · intro h
    exact .instr h (.inl rfl)

theorem exec_seq_iff {p q : Code ι κ} : Exec L (.seq p q) d .normal d' ↔
    ∃ d₁, Exec L p d .normal d₁ ∧ Exec L q d₁ .normal d' := by
  constructor
  · intro h
    cases h with
    | seq hp hq => exact ⟨_, hp, hq⟩
    | seqExit _ hne => exact absurd rfl hne
  · rintro ⟨d₁, hp, hq⟩
    exact .seq hp hq

theorem exec_cond_iff {v : κ} {p q : Code ι κ} : Exec L (.cond v p q) d .normal d' ↔
    ∃ c d₁, L.test v d = some (c, d₁) ∧ Exec L (if c then p else q) d₁ .normal d' := by
  constructor
  · intro h
    cases h with
    | cond ht hk => exact ⟨_, _, ht, hk⟩
  · rintro ⟨c, d₁, ht, hk⟩
    exact .cond ht hk

theorem exec_short_iff {b : Bool} {v : κ} {p : Code ι κ} {l r : ι} :
    Exec L (.short b v p l r) d .normal d' ↔
      (∃ d₁, L.test v d = some (!b, d₁) ∧ L.exec l d₁ = some d') ∨
        ∃ d₁ d₂, L.test v d = some (b, d₁) ∧ Exec L p d₁ .normal d₂ ∧ L.exec r d₂ = some d' := by
  constructor
  · intro h
    cases h with
    | shortLeft ht hl _ => exact .inl ⟨_, ht, hl⟩
    | shortExit _ _ hne => exact absurd rfl hne
    | shortRight ht hp hr _ => exact .inr ⟨_, _, ht, hp, hr⟩
  · rintro (⟨d₁, ht, hl⟩ | ⟨d₁, d₂, ht, hp, hr⟩)
    · exact .shortLeft ht hl (.inl rfl)
    · exact .shortRight ht hp hr (.inl rfl)

end

/-- Every instruction of the code has the property. -/
def Code.All (P : ι → Prop) : Code ι κ → Prop
  | .skip => True
  | .instr i => P i
  | .seq p q => p.All P ∧ q.All P
  | .cond _ p q => p.All P ∧ q.All P
  | .short _ _ p l r => p.All P ∧ P l ∧ P r
  | .loop t _ p => t.All P ∧ p.All P
  | .forLoop t _ p e => t.All P ∧ p.All P ∧ e.All P
  | .jump _ _ => True

theorem Code.All.mono {P Q : ι → Prop} {k : Code ι κ} (h : k.All P) (hPQ : ∀ i, P i → Q i) :
    k.All Q := by
  induction k with
  | skip => trivial
  | instr i => exact hPQ i h
  | seq p q ihp ihq => exact ⟨ihp h.1, ihq h.2⟩
  | cond v p q ihp ihq => exact ⟨ihp h.1, ihq h.2⟩
  | short b v p l r ihp => exact ⟨ihp h.1, hPQ _ h.2.1, hPQ _ h.2.2⟩
  | loop t v p iht ihp => exact ⟨iht h.1, ihp h.2⟩
  | forLoop t v p e iht ihp ihe => exact ⟨iht h.1, ihp h.2.1, ihe h.2.2⟩
  | jump v j => trivial

/-- Every condition of the code has the property. -/
def Code.Tests (P : κ → Prop) : Code ι κ → Prop
  | .skip => True
  | .instr _ => True
  | .seq p q => p.Tests P ∧ q.Tests P
  | .cond v p q => P v ∧ p.Tests P ∧ q.Tests P
  | .short _ v p _ _ => P v ∧ p.Tests P
  | .loop t v p => t.Tests P ∧ P v ∧ p.Tests P
  | .forLoop t v p e => t.Tests P ∧ P v ∧ p.Tests P ∧ e.Tests P
  | .jump v _ => P v

theorem Code.tests_true (k : Code ι κ) : k.Tests fun _ => True := by
  induction k with
  | skip => trivial
  | instr i => trivial
  | seq p q ihp ihq => exact ⟨ihp, ihq⟩
  | cond v p q ihp ihq => exact ⟨trivial, ihp, ihq⟩
  | short b v p l r ihp => exact ⟨trivial, ihp⟩
  | loop t v p iht ihp => exact ⟨iht, trivial, ihp⟩
  | forLoop t v p e iht ihp ihe => exact ⟨iht, trivial, ihp, ihe⟩
  | jump v j => trivial

/-- What every instruction and every test of the code keeps, an execution keeps. -/
theorem Exec.keeps {L : Lang ι κ δ} {P : ι → Prop} {Q : κ → Prop} {R : δ → δ → Prop} {k : Code ι κ}
    {d d' : δ} {x : Exit} (h : Exec L k d x d') (hk : k.All P) (hq : k.Tests Q) (hrefl : ∀ d, R d d)
    (htrans : ∀ d d₁ d₂, R d d₁ → R d₁ d₂ → R d d₂)
    (hinstr : ∀ i d d', P i → L.exec i d = some d' → R d d')
    (htest : ∀ v d c d', Q v → L.test v d = some (c, d') → R d d') : R d d' := by
  induction h with
  | skip _ => exact hrefl _
  | wait => exact hrefl _
  | instr hi _ => exact hinstr _ _ _ hk hi
  | seq _ _ ihp ihq => exact htrans _ _ _ (ihp hk.1 hq.1) (ihq hk.2 hq.2)
  | seqExit _ _ ih => exact ih hk.1 hq.1
  | condWait => exact hrefl _
  | @cond v p q d c d₁ x d₂ ht _ ih =>
    refine htrans _ _ _ (htest _ _ _ _ hq.1 ht) ?_
    cases c with
    | true => exact ih hk.1 hq.2.1
    | false => exact ih hk.2 hq.2.2
  | shortWait => exact hrefl _
  | shortLeave ht => exact htest _ _ _ _ hq.1 ht
  | shortLeft ht hl _ => exact htrans _ _ _ (htest _ _ _ _ hq.1 ht) (hinstr _ _ _ hk.2.1 hl)
  | shortExit ht _ _ ih => exact htrans _ _ _ (htest _ _ _ _ hq.1 ht) (ih hk.1 hq.2)
  | shortRight ht _ hr _ ih =>
    exact htrans _ _ _ (htest _ _ _ _ hq.1 ht)
      (htrans _ _ _ (ih hk.1 hq.2) (hinstr _ _ _ hk.2.2 hr))
  | loopExit _ _ ih => exact ih hk.1 hq.1
  | loopDone _ hv _ iht => exact htrans _ _ _ (iht hk.1 hq.1) (htest _ _ _ _ hq.2.1 hv)
  | loopLeave _ hv _ _ iht ih =>
    exact htrans _ _ _ (iht hk.1 hq.1) (htrans _ _ _ (htest _ _ _ _ hq.2.1 hv) (ih hk.2 hq.2.2))
  | loopNext _ hv _ _ iht ih ihloop =>
    exact htrans _ _ _ (iht hk.1 hq.1) (htrans _ _ _ (htest _ _ _ _ hq.2.1 hv)
      (htrans _ _ _ (ih hk.2 hq.2.2) (ihloop hk hq)))
  | forExit _ _ ih => exact ih hk.1 hq.1
  | forDone _ hv _ iht => exact htrans _ _ _ (iht hk.1 hq.1) (htest _ _ _ _ hq.2.1 hv)
  | forBreak _ hv _ _ iht ih =>
    exact htrans _ _ _ (iht hk.1 hq.1) (htrans _ _ _ (htest _ _ _ _ hq.2.1 hv) (ih hk.2.1 hq.2.2.1))
  | forStop _ hv _ iht ih =>
    exact htrans _ _ _ (iht hk.1 hq.1) (htrans _ _ _ (htest _ _ _ _ hq.2.1 hv) (ih hk.2.1 hq.2.2.1))
  | forEvery _ hv _ _ _ _ iht ih ihe =>
    exact htrans _ _ _ (iht hk.1 hq.1) (htrans _ _ _ (htest _ _ _ _ hq.2.1 hv)
      (htrans _ _ _ (ih hk.2.1 hq.2.2.1) (ihe hk.2.2 hq.2.2.2)))
  | forNext _ hv _ _ _ _ iht ih ihe ihloop =>
    exact htrans _ _ _ (iht hk.1 hq.1) (htrans _ _ _ (htest _ _ _ _ hq.2.1 hv)
      (htrans _ _ _ (ih hk.2.1 hq.2.2.1) (htrans _ _ _ (ihe hk.2.2 hq.2.2.2) (ihloop hk hq))))
  | jumpWait => exact hrefl _
  | jump ht => exact htest _ _ _ _ hq ht

/-- Where the jumps of a loop go. -/
structure Targets where
  brk : ℕ
  cont : ℕ

/-- Code is laid out in a graph from a point to the point behind it. -/
inductive Layout (L : Lang ι κ δ) (F : Blocks ι) : Option Targets → Point → Code ι κ → Point → Prop
  | skip {lp p} : Layout L F lp p .skip p
  | instr {lp b n i} : F.get ⟨b, n⟩ = some i → L.view i = .plain →
      Layout L F lp ⟨b, n⟩ (.instr i) ⟨b, n+1⟩
  | seq {lp p q r k k'} : Layout L F lp p k q → Layout L F lp q k' r → Layout L F lp p (.seq k k') r
  | cond {lp p q q' i j j' v t f fin k k'} : F.get p = some i → L.view i = .condBr v t f →
      Layout L F lp ⟨t, 0⟩ k q → F.get q = some j → L.view j = .br fin →
      Layout L F lp ⟨f, 0⟩ k' q' → F.get q' = some j' → L.view j' = .br fin →
        Layout L F lp p (.cond v k k') ⟨fin, 0⟩
  | short {lp p q i j m b v next fin k l r pick} : F.get p = some i →
      L.view i = .condBr v (if b then next else fin) (if b then fin else next) →
      Layout L F lp ⟨next, 0⟩ k q → F.get q = some j → L.view j = .br fin →
      F.get ⟨fin, 0⟩ = some m → L.view m = .phi pick → pick p.block = some l →
      pick q.block = some r → Layout L F lp p (.short b v k l r) ⟨fin, 1⟩
  | loop {lp p q r i j m v test body fin t k} : F.get p = some i → L.view i = .br test →
      Layout L F none ⟨test, 0⟩ t q → F.get q = some j → L.view j = .condBr v body fin →
      Layout L F lp ⟨body, 0⟩ k r → F.get r = some m → L.view m = .br test →
        Layout L F lp p (.loop t v k) ⟨fin, 0⟩
  | forLoop {lp p q r u i j m n v test body next fin t k e} : F.get p = some i →
      L.view i = .br test → Layout L F none ⟨test, 0⟩ t q → F.get q = some j →
      L.view j = .condBr v body fin → Layout L F (some ⟨fin, next⟩) ⟨body, 0⟩ k r →
      F.get r = some m → L.view m = .br next → Layout L F none ⟨next, 0⟩ e u →
      F.get u = some n → L.view n = .br test → Layout L F lp p (.forLoop t v k e) ⟨fin, 0⟩
  | jump {l p q i v t toNext} : F.get p = some i → L.view i = .condBr v t t →
      t = (if toNext then l.cont else l.brk) → Layout L F (some l) p (.jump v toNext) q

/-- Code without jumps is laid out the same under any targets. -/
theorem Layout.weaken {L : Lang ι κ δ} {F : Blocks ι} {p q : Point} {k : Code ι κ}
    (h : Layout L F none p k q) (lp : Option Targets) : Layout L F lp p k q := by
  generalize hn : (none : Option Targets) = l at h
  induction h with
  | skip => exact .skip
  | instr hi hv => exact .instr hi hv
  | seq _ _ ih ih' => exact .seq (ih hn) (ih' hn)
  | cond hi hv _ hj hv' _ hj' hv'' ih ih' => exact .cond hi hv (ih hn) hj hv' (ih' hn) hj' hv''
  | short hi hv _ hj hv' hm hphi hl hr ih => exact .short hi hv (ih hn) hj hv' hm hphi hl hr
  | loop hi hv ht hj hv' _ hm hv'' _ ih => exact .loop hi hv ht hj hv' (ih hn) hm hv''
  | forLoop hi hv ht hj hv' hk hm hv'' he hn' hv''' _ _ _ =>
    exact .forLoop hi hv ht hj hv' hk hm hv'' he hn' hv'''
  | jump => exact absurd hn (by simp)

/-- Where the machine stands behind an exit. -/
def AtExit (lp : Option Targets) (q : Point) (s : State δ) : Exit → Prop
  | .normal => s.At q
  | .brk => ∃ l ∈ lp, s.At ⟨l.brk, 0⟩
  | .cont => ∃ l ∈ lp, s.At ⟨l.cont, 0⟩
  | .running => False

section
variable {L : Lang ι κ δ} {F : Blocks ι} {lp : Option Targets} {p q r : Point} {k k' : Code ι κ}
  {s s' : State δ} {n : ℕ} {i : ι}

theorem State.At.get (hs : s.At p) (hi : F.get p = some i) : F.get s.point = some i := by
  obtain ⟨hb, hpc⟩ := hs
  rw [State.point, hb, hpc]
  exact hi

/-- A run of `n` steps from `s` to `s'` is a part of an execution of the code, or passes one of
its exits. -/
def Followed (L : Lang ι κ δ) (F : Blocks ι) (lp : Option Targets) (q : Point) (k : Code ι κ)
    (s : State δ) (n : ℕ) (s' : State δ) : Prop :=
  (Exec L k s.data .running s'.data ∧ L.Inside F s') ∨
    ∃ m ≤ n, ∃ x s₁, Exec L k s.data x s₁.data ∧ AtExit lp q s₁ x ∧ L.Run F m s₁ s'

theorem Followed.mono {s₀ : State δ} {n₀ : ℕ} (h : Followed L F lp q k s n s') (hn : n ≤ n₀)
    (hk : ∀ x d, Exec L k s.data x d → Exec L k' s₀.data x d) :
    Followed L F lp q k' s₀ n₀ s' := by
  rcases h with ⟨he, hin⟩ | ⟨m, hm, x, s₁, he, hx, hrun⟩
  · exact .inl ⟨hk _ _ he, hin⟩
  · exact .inr ⟨m, hm.trans hn, x, s₁, hk _ _ he, hx, hrun⟩

/-- The run goes on behind the normal exit of the code. -/
theorem Followed.bind (h : Followed L F lp q k s n s')
    (hk : ∀ m ≤ n, ∀ s₁, Exec L k s.data .normal s₁.data → s₁.At q → L.Run F m s₁ s' →
      Followed L F lp r k' s m s')
    (hexit : ∀ x d, x ≠ .normal → Exec L k s.data x d → Exec L k' s.data x d) :
    Followed L F lp r k' s n s' := by
  rcases h with ⟨he, hin⟩ | ⟨m, hm, x, s₁, he, hx, hrun⟩
  · exact .inl ⟨hexit _ _ (by simp) he, hin⟩
  · cases x with
    | normal => exact (hk m hm s₁ he hx hrun).mono hm fun _ _ h => h
    | brk => exact .inr ⟨m, hm, .brk, s₁, hexit _ _ (by simp) he, hx, hrun⟩
    | cont => exact .inr ⟨m, hm, .cont, s₁, hexit _ _ (by simp) he, hx, hrun⟩
    | running => exact absurd hx (by simp [AtExit])

/-- The machine stands at a branch: the run ends here, or goes on in the target. -/
theorem run_br {t : ℕ} (hs : s.At p) (hi : F.get p = some i) (hv : L.view i = .br t)
    (hrun : L.Run F n s s') : (s' = s ∧ L.Inside F s') ∨
      ∃ m, n = m+1 ∧ L.Run F m ⟨t, 0, s.block, s.data⟩ s' := by
  have hget := hs.get hi
  cases hrun with
  | zero => exact .inl ⟨rfl, i, hget, by simp [hv]⟩
  | @succ m _ s₁ _ hstep hrest =>
    rw [Lang.step_br hget hv] at hstep
    obtain rfl := Option.some.inj hstep
    exact .inr ⟨m, rfl, hrest⟩

theorem run_condBr {v : κ} {t f : ℕ} (hs : s.At p) (hi : F.get p = some i)
    (hv : L.view i = .condBr v t f) (hrun : L.Run F n s s') : (s' = s ∧ L.Inside F s') ∨
      ∃ m c d, n = m+1 ∧ L.test v s.data = some (c, d) ∧
        L.Run F m ⟨if c then t else f, 0, s.block, d⟩ s' := by
  have hget := hs.get hi
  cases hrun with
  | zero => exact .inl ⟨rfl, i, hget, by simp [hv]⟩
  | @succ m _ s₁ _ hstep hrest =>
    rw [Lang.step_condBr hget hv, Option.map_eq_some_iff] at hstep
    obtain ⟨⟨c, d⟩, htest, rfl⟩ := hstep
    exact .inr ⟨m, c, d, rfl, htest, hrest⟩

theorem follow_instr {j : ι} (hs : s.At p) (hi : F.get p = some i)
    (hv : L.view i ≠ .ret)
    (hstep : L.step F s = (L.exec j s.data).map fun d => ⟨s.block, s.pc+1, s.prev, d⟩)
    (hrun : L.Run F n s s') : Followed L F lp ⟨p.block, p.pc+1⟩ (.instr j) s n s' := by
  have hget := hs.get hi
  cases hrun with
  | zero => exact .inl ⟨.wait, i, hget, hv⟩
  | @succ m _ s₁ _ hfirst hrest =>
    rw [hstep, Option.map_eq_some_iff] at hfirst
    obtain ⟨d, hexec, rfl⟩ := hfirst
    refine .inr ⟨m, Nat.le_succ m, .normal, ⟨s.block, s.pc+1, s.prev, d⟩, .instr hexec (.inl rfl), ?_, hrest⟩
    exact ⟨hs.1, congrArg (·+1) hs.2⟩

/-- Behind its normal exit the code is left by a branch. -/
theorem Followed.branch {t : ℕ} (h : Followed L F lp q k s n s') (hi : F.get q = some i)
    (hv : L.view i = .br t) : Followed L F lp ⟨t, 0⟩ k s n s' := by
  refine h.bind ?_ fun _ _ _ h => h
  intro m _ s₁ he hs₁ hrun
  rcases run_br hs₁ hi hv hrun with ⟨rfl, hin⟩ | ⟨m', rfl, hrest⟩
  · exact .inl ⟨he.late, hin⟩
  · exact .inr ⟨m', Nat.le_succ m', .normal, ⟨t, 0, s₁.block, s₁.data⟩, he, ⟨rfl, rfl⟩, hrest⟩

theorem follow_seq (h : Followed L F lp q k s n s')
    (hk : ∀ m s₁, s₁.At q → L.Run F m s₁ s' → Followed L F lp r k' s₁ m s') :
    Followed L F lp r (.seq k k') s n s' := by
  refine h.bind ?_ fun x d hx he => .seqExit he hx
  intro m _ s₁ he hs₁ hrun
  exact (hk m s₁ hs₁ hrun).mono le_rfl fun x d he' => .seq he he'

theorem follow_cond {v : κ} {t f : ℕ} (hs : s.At p) (hi : F.get p = some i)
    (hv : L.view i = .condBr v t f) (hrun : L.Run F n s s')
    (ht : ∀ m s₁, s₁.At ⟨t, 0⟩ → L.Run F m s₁ s' → Followed L F lp q k s₁ m s')
    (hf : ∀ m s₁, s₁.At ⟨f, 0⟩ → L.Run F m s₁ s' → Followed L F lp q k' s₁ m s') :
    Followed L F lp q (.cond v k k') s n s' := by
  rcases run_condBr hs hi hv hrun with ⟨rfl, hin⟩ | ⟨m, c, d, rfl, htest, hrest⟩
  · exact .inl ⟨.condWait, hin⟩
  · cases c with
    | true => exact (ht m _ ⟨rfl, rfl⟩ hrest).mono (Nat.le_succ m) fun x d he => .cond htest he
    | false => exact (hf m _ ⟨rfl, rfl⟩ hrest).mono (Nat.le_succ m) fun x d he => .cond htest he

/-- The phi node behind a short circuit is reached from the block of the test or from the block
that the second operand ends in. -/
theorem follow_phi {fin : ℕ} {j : ι} {pick : ℕ → Option ι} (hs : s.At ⟨fin, 0⟩)
    (hi : F.get ⟨fin, 0⟩ = some i) (hv : L.view i = .phi pick) (hj : pick s.prev = some j)
    (hrun : L.Run F n s s') : Followed L F lp ⟨fin, 1⟩ (.instr j) s n s' :=
  follow_instr hs hi (by simp [hv]) (Lang.step_phi (hs.get hi) hv hj) hrun

theorem shortTarget_same (b : Bool) (next fin : ℕ) :
    (if b then if b then next else fin else if b then fin else next) = next := by
  cases b <;> rfl

theorem shortTarget_not (b : Bool) (next fin : ℕ) :
    (if !b then if b then next else fin else if b then fin else next) = fin := by
  cases b <;> rfl

theorem follow_short {b : Bool} {v : κ} {next fin : ℕ} {j m l r' : ι} {pick : ℕ → Option ι}
    (hs : s.At p) (hi : F.get p = some i)
    (hv : L.view i = .condBr v (if b then next else fin) (if b then fin else next))
    (hk : ∀ m s₁, s₁.At ⟨next, 0⟩ → L.Run F m s₁ s' → Followed L F lp q k s₁ m s')
    (hj : F.get q = some j) (hv' : L.view j = .br fin) (hm : F.get ⟨fin, 0⟩ = some m)
    (hphi : L.view m = .phi pick) (hl : pick p.block = some l) (hr : pick q.block = some r')
    (hrun : L.Run F n s s') : Followed L F lp ⟨fin, 1⟩ (.short b v k l r') s n s' := by
  rcases run_condBr hs hi hv hrun with ⟨rfl, hin⟩ | ⟨m₁, c, d, rfl, htest, hrest⟩
  · exact .inl ⟨.shortWait, hin⟩
  by_cases hc : c = b
  · subst hc
    rw [shortTarget_same] at hrest
    refine Followed.mono (s := ⟨next, 0, s.block, d⟩) (k := .seq k (.instr r')) ?_ (Nat.le_succ m₁) ?_
    · refine (hk m₁ _ ⟨rfl, rfl⟩ hrest).bind ?_ fun x d hx he => .seqExit he hx
      intro m₂ _ s₂ he hs₂ hrun₂
      rcases run_br hs₂ hj hv' hrun₂ with ⟨rfl, hin⟩ | ⟨m₃, rfl, hrest₃⟩
      · exact .inl ⟨.seqExit he.late (by simp), hin⟩
      · have hprev : pick s₂.block = some r' := by
          rw [hs₂.1]
          exact hr
        have hphi' : Followed L F lp ⟨fin, 1⟩ (.instr r') ⟨fin, 0, s₂.block, s₂.data⟩ m₃ s' :=
          follow_phi ⟨rfl, rfl⟩ hm hphi hprev hrest₃
        exact hphi'.mono (Nat.le_succ m₃) fun x d he' => .seq he he'
    · intro x d' he
      cases he with
      | seqExit he hx => exact .shortExit htest he hx
      | seq hp hr =>
        cases hr with
        | wait => exact .shortExit htest hp.late (by simp)
        | instr hexec hx => exact .shortRight htest hp hexec hx
  · have hnot : c = !b := by
      cases c <;> cases b <;> simp_all
    subst hnot
    rw [shortTarget_not] at hrest
    have hprev : pick s.block = some l := by
      rw [hs.1]
      exact hl
    have hdirect : Followed L F lp ⟨fin, 1⟩ (.instr l) ⟨fin, 0, s.block, d⟩ m₁ s' :=
      follow_phi ⟨rfl, rfl⟩ hm hphi hprev hrest
    refine hdirect.mono (Nat.le_succ m₁) ?_
    intro x d' he
    cases he with
    | wait => exact .shortLeave htest
    | instr hexec hx => exact .shortLeft htest hexec hx

theorem Followed.weaken (h : Followed L F none q k s n s') : Followed L F lp q k s n s' := by
  rcases h with hrunning | ⟨m, hm, x, s₁, he, hx, hrun⟩
  · exact .inl hrunning
  · cases x with
    | normal => exact .inr ⟨m, hm, .normal, s₁, he, hx, hrun⟩
    | brk => exact absurd hx (by simp [AtExit])
    | cont => exact absurd hx (by simp [AtExit])
    | running => exact absurd hx (by simp [AtExit])

section
variable {v : κ} {test body fin : ℕ} {t : Code ι κ} {j m : ι}
  (ht : ∀ n s, s.At ⟨test, 0⟩ → L.Run F n s s' → Followed L F none q t s n s')
  (hj : F.get q = some j) (hv : L.view j = .condBr v body fin)
include ht hj hv

theorem follow_loop_test (hk : ∀ n s, s.At ⟨body, 0⟩ → L.Run F n s s' → Followed L F lp r k s n s')
    (hm : F.get r = some m) (hv' : L.view m = .br test) (hs : s.At ⟨test, 0⟩)
    (hrun : L.Run F n s s') : Followed L F lp ⟨fin, 0⟩ (.loop t v k) s n s' := by
  induction n using Nat.strong_induction_on generalizing s with
  | _ n ih =>
    refine (ht n s hs hrun).weaken.bind ?_ fun x d hx he => .loopExit he hx
    intro n₁ hn₁ s₁ he hs₁ hrun₁
    rcases run_condBr hs₁ hj hv hrun₁ with ⟨rfl, hin⟩ | ⟨n₂, c, d, rfl, htest, hrun₂⟩
    · exact .inl ⟨.loopExit he.late (by simp), hin⟩
    cases c with
    | false =>
      refine .inr ⟨n₂, Nat.le_succ n₂, .normal, ⟨fin, 0, s₁.block, d⟩, ?_, ⟨rfl, rfl⟩, hrun₂⟩
      exact .loopDone he htest (.inl rfl)
    | true =>
      have hbody := (hk n₂ ⟨body, 0, s₁.block, d⟩ ⟨rfl, rfl⟩ hrun₂).branch hm hv'
      have hseq : Followed L F lp ⟨fin, 0⟩ (.seq k (.loop t v k)) ⟨body, 0, s₁.block, d⟩ n₂ s' := by
        refine hbody.bind ?_ fun x d hx he => .seqExit he hx
        intro n₃ hn₃ s₃ he₃ hs₃ hrun₃
        exact (ih n₃ (by omega) hs₃ hrun₃).mono le_rfl fun x d he' => .seq he₃ he'
      refine hseq.mono (Nat.le_succ n₂) ?_
      intro x d' he'
      cases he' with
      | seq hp hrest => exact .loopNext he htest hp hrest
      | seqExit hp hne => exact .loopLeave he htest hp hne

theorem follow_for_test {next : ℕ} {u : Point} {e : Code ι κ} {l : ι}
    (hk : ∀ n s, s.At ⟨body, 0⟩ → L.Run F n s s' → Followed L F (some ⟨fin, next⟩) r k s n s')
    (hm : F.get r = some m) (hv' : L.view m = .br next)
    (he : ∀ n s, s.At ⟨next, 0⟩ → L.Run F n s s' → Followed L F none u e s n s')
    (hl : F.get u = some l) (hv'' : L.view l = .br test) (hs : s.At ⟨test, 0⟩)
    (hrun : L.Run F n s s') : Followed L F lp ⟨fin, 0⟩ (.forLoop t v k e) s n s' := by
  induction n using Nat.strong_induction_on generalizing s with
  | _ n ih =>
    refine (ht n s hs hrun).weaken.bind ?_ fun x d hx he => .forExit he hx
    intro n₁ hn₁ s₁ he₁ hs₁ hrun₁
    rcases run_condBr hs₁ hj hv hrun₁ with ⟨rfl, hin⟩ | ⟨n₂, c, d, rfl, htest, hrun₂⟩
    · exact .inl ⟨.forExit he₁.late (by simp), hin⟩
    cases c with
    | false =>
      refine .inr ⟨n₂, Nat.le_succ n₂, .normal, ⟨fin, 0, s₁.block, d⟩, ?_, ⟨rfl, rfl⟩, hrun₂⟩
      exact .forDone he₁ htest (.inl rfl)
    | true =>
      have hevery : ∀ n₃ ≤ n₂, ∀ (s₃ : State δ) y, Exec L k d y s₃.data → y = .normal ∨ y = .cont →
          s₃.At ⟨next, 0⟩ → L.Run F n₃ s₃ s' →
            Followed L F lp ⟨fin, 0⟩ (.forLoop t v k e) s (n₂+1) s' := by
        intro n₃ hn₃ s₃ y he₃ hy hs₃ hrun₃
        have hlast : Followed L F lp _ e s₃ n₃ s' := (he n₃ s₃ hs₃ hrun₃).weaken
        have hback := hlast.branch hl hv''
        have hseq : Followed L F lp ⟨fin, 0⟩ (.seq e (.forLoop t v k e)) s₃ n₃ s' := by
          refine hback.bind ?_ fun x d hx he => .seqExit he hx
          intro n₄ hn₄ s₄ he₄ hs₄ hrun₄
          exact (ih n₄ (by omega) hs₄ hrun₄).mono le_rfl fun x d he' => .seq he₄ he'
        refine hseq.mono (by omega) ?_
        intro x d' he'
        cases he' with
        | seq hp hrest => exact .forNext he₁ htest he₃ hy hp hrest
        | seqExit hp hne => exact .forEvery he₁ htest he₃ hy hp hne
      rcases (hk n₂ ⟨body, 0, s₁.block, d⟩ ⟨rfl, rfl⟩ hrun₂).branch hm hv' with
        ⟨he₃, hin⟩ | ⟨n₃, hn₃, x, s₃, he₃, hx, hrun₃⟩
      · exact .inl ⟨.forStop he₁ htest he₃, hin⟩
      · cases x with
        | normal => exact hevery n₃ hn₃ s₃ .normal he₃ (.inl rfl) hx hrun₃
        | brk =>
          obtain ⟨l, hl, hs₃⟩ := hx
          obtain rfl := Option.mem_some_iff.mp hl
          exact .inr ⟨n₃, by omega, .normal, s₃, .forBreak he₁ htest he₃ (.inl rfl), hs₃, hrun₃⟩
        | cont =>
          obtain ⟨l, hl, hs₃⟩ := hx
          obtain rfl := Option.mem_some_iff.mp hl
          exact hevery n₃ hn₃ s₃ .cont he₃ (.inr rfl) hs₃ hrun₃
        | running => exact absurd hx (by simp [AtExit])

end

/-- A loop is entered by a branch to its test. -/
theorem follow_enter {test : ℕ} (hs : s.At p) (hi : F.get p = some i) (hv : L.view i = .br test)
    (hrun : L.Run F n s s')
    (hk : ∀ m s₁, s₁.At ⟨test, 0⟩ → L.Run F m s₁ s' → Followed L F lp q k s₁ m s') :
    Followed L F lp q k s n s' := by
  rcases run_br hs hi hv hrun with ⟨rfl, hin⟩ | ⟨m, rfl, hrest⟩
  · exact .inl ⟨.start k s'.data, hin⟩
  · exact (hk m _ ⟨rfl, rfl⟩ hrest).mono (Nat.le_succ m) fun _ _ he => he

/-- The machine follows the code that is laid out where it stands. -/
theorem Layout.follow (h : Layout L F lp p k q) (hs : s.At p) (hrun : L.Run F n s s') :
    Followed L F lp q k s n s' := by
  induction h generalizing s n with
  | skip => exact .inr ⟨n, le_rfl, .normal, s, .skip (.inl rfl), hs, hrun⟩
  | instr hi hv => exact follow_instr hs hi (by simp [hv]) (Lang.step_plain (hs.get hi) hv) hrun
  | seq _ _ ih ih' => exact follow_seq (ih hs hrun) fun m s₁ hs₁ hrun₁ => ih' hs₁ hrun₁
  | cond hi hv _ hj hv' _ hj' hv'' ih ih' =>
    exact follow_cond hs hi hv hrun (fun m s₁ hs₁ hrun₁ => (ih hs₁ hrun₁).branch hj hv')
      fun m s₁ hs₁ hrun₁ => (ih' hs₁ hrun₁).branch hj' hv''
  | short hi hv _ hj hv' hm hphi hl hr ih =>
    exact follow_short hs hi hv (fun m s₁ hs₁ hrun₁ => ih hs₁ hrun₁) hj hv' hm hphi hl hr hrun
  | loop hi hv _ hj hv' _ hm hv'' iht ih =>
    exact follow_enter hs hi hv hrun fun m s₁ hs₁ hrun₁ => follow_loop_test
      (fun _ _ hs hrun => iht hs hrun) hj hv' (fun _ _ hs hrun => ih hs hrun) hm hv'' hs₁ hrun₁
  | forLoop hi hv _ hj hv' _ hm hv'' _ hl hv''' iht ih ihe =>
    exact follow_enter hs hi hv hrun fun m s₁ hs₁ hrun₁ => follow_for_test
      (fun _ _ hs hrun => iht hs hrun) hj hv' (fun _ _ hs hrun => ih hs hrun) hm hv''
      (fun _ _ hs hrun => ihe hs hrun) hl hv''' hs₁ hrun₁
  | @jump l p q i v t toNext hi hv ht =>
    rcases run_condBr hs hi hv hrun with ⟨rfl, hin⟩ | ⟨m, c, d, rfl, htest, hrest⟩
    · exact .inl ⟨.jumpWait, hin⟩
    · rw [ite_self, ht] at hrest
      refine .inr ⟨m, Nat.le_succ m, jumpExit toNext, _, .jump htest, ?_, hrest⟩
      cases toNext with
      | true => exact ⟨l, rfl, rfl, rfl⟩
      | false => exact ⟨l, rfl, rfl, rfl⟩

/-- The machine comes to an exit of the code with the given data. -/
def Arrives (L : Lang ι κ δ) (F : Blocks ι) (lp : Option Targets) (q : Point) (s : State δ)
    (x : Exit) (d : δ) : Prop :=
  ∃ n s₁, L.Run F n s s₁ ∧ s₁.data = d ∧ AtExit lp q s₁ x

theorem Arrives.trans {s₁ : State δ} {x : Exit} {d : δ} (h : L.Run F n s s₁)
    (hk : Arrives L F lp q s₁ x d) : Arrives L F lp q s x d := by
  obtain ⟨m, s₂, hrun, hdata, hx⟩ := hk
  exact ⟨n+m, s₂, h.trans hrun, hdata, hx⟩

theorem arrives_here {d : δ} (hs : s.At q) (hd : s.data = d) : Arrives L F lp q s .normal d :=
  ⟨0, s, .zero s, hd, hs⟩

theorem Arrives.bind {x : Exit} {d d' : δ} (h : Arrives L F lp q s .normal d)
    (hk : ∀ s₁ : State δ, s₁.At q → s₁.data = d → Arrives L F lp r s₁ x d') :
    Arrives L F lp r s x d' := by
  obtain ⟨n, s₁, hrun, hdata, hs₁⟩ := h
  exact (hk s₁ hs₁ hdata).trans hrun

theorem arrives_br {t : ℕ} {x : Exit} {d : δ} (hs : s.At p) (hi : F.get p = some i)
    (hv : L.view i = .br t) (hk : ∀ s₁ : State δ, s₁.At ⟨t, 0⟩ → s₁.data = s.data →
      s₁.prev = s.block → Arrives L F lp q s₁ x d) : Arrives L F lp q s x d :=
  (hk ⟨t, 0, s.block, s.data⟩ ⟨rfl, rfl⟩ rfl rfl).trans
    (.succ (Lang.step_br (hs.get hi) hv) (.zero _))

theorem arrives_condBr {v : κ} {t f : ℕ} {c : Bool} {x : Exit} {d d₁ : δ} (hs : s.At p)
    (hi : F.get p = some i) (hv : L.view i = .condBr v t f) (ht : L.test v s.data = some (c, d₁))
    (hk : ∀ s₁ : State δ, s₁.At ⟨if c then t else f, 0⟩ → s₁.data = d₁ → s₁.prev = s.block →
      Arrives L F lp q s₁ x d) : Arrives L F lp q s x d := by
  refine (hk ⟨if c then t else f, 0, s.block, d₁⟩ ⟨rfl, rfl⟩ rfl rfl).trans (.succ ?_ (.zero _))
  rw [Lang.step_condBr (hs.get hi) hv, ht]
  rfl

theorem arrives_phi {fin : ℕ} {j : ι} {pick : ℕ → Option ι} {d : δ} (hs : s.At ⟨fin, 0⟩)
    (hi : F.get ⟨fin, 0⟩ = some i) (hv : L.view i = .phi pick) (hj : pick s.prev = some j)
    (hexec : L.exec j s.data = some d) : Arrives L F lp ⟨fin, 1⟩ s .normal d := by
  refine ⟨1, ⟨s.block, s.pc+1, s.prev, d⟩, .succ ?_ (.zero _), rfl, hs.1, congrArg (·+1) hs.2⟩
  rw [Lang.step_phi (hs.get hi) hv hj, hexec]
  rfl

/-- An exit other than the normal one does not depend on the point behind the code. -/
theorem Arrives.exit {x : Exit} {d : δ} (h : Arrives L F lp q s x d) (hx : x ≠ .normal) :
    Arrives L F lp r s x d := by
  obtain ⟨n, s₁, hrun, hdata, hexit⟩ := h
  refine ⟨n, s₁, hrun, hdata, ?_⟩
  cases x with
  | normal => exact absurd rfl hx
  | brk => exact hexit
  | cont => exact hexit
  | running => exact hexit

theorem Arrives.branch {t : ℕ} {x : Exit} {d : δ} (h : Arrives L F lp q s x d)
    (hi : F.get q = some i) (hv : L.view i = .br t) : Arrives L F lp ⟨t, 0⟩ s x d := by
  by_cases hx : x = .normal
  · subst hx
    refine h.bind fun s₁ hs₁ hd₁ => arrives_br hs₁ hi hv fun s₂ hs₂ hd₂ _ => ?_
    exact arrives_here hs₂ (hd₂.trans hd₁)
  · exact h.exit hx

/-- Code without targets has only the normal exit. -/
theorem Arrives.eq_normal {x : Exit} {d : δ} (h : Arrives L F none q s x d) : x = .normal := by
  obtain ⟨n, s₁, hrun, hdata, hexit⟩ := h
  cases x with
  | normal => rfl
  | brk => exact absurd hexit (by simp [AtExit])
  | cont => exact absurd hexit (by simp [AtExit])
  | running => exact absurd hexit (by simp [AtExit])

theorem Arrives.weaken {d : δ} (h : Arrives L F none q s .normal d) : Arrives L F lp q s .normal d :=
  h

theorem Exit.Done.normal {x : Exit} (h : x.Done) (hx : x ≠ .running) : x = .normal :=
  h.resolve_right hx

theorem ne_running_of {y : Exit} (hy : y = .normal ∨ y = .cont) : y ≠ .running := by
  rcases hy with rfl | rfl <;> simp

/-- The body of a `forLoop` comes to the block behind it by its end or by a jump. -/
theorem arrives_next {y : Exit} {d : δ} {next fin : ℕ} (h : Arrives L F (some ⟨fin, next⟩) q s y d)
    (hy : y = .normal ∨ y = .cont) (hi : F.get q = some i) (hv : L.view i = .br next) :
    ∃ n s₁, L.Run F n s s₁ ∧ s₁.data = d ∧ s₁.At ⟨next, 0⟩ := by
  rcases hy with rfl | rfl
  · exact h.branch hi hv
  · obtain ⟨n, s₁, hrun, hdata, l, hl, hs₁⟩ := h
    obtain rfl := Option.mem_some_iff.mp hl
    exact ⟨n, s₁, hrun, hdata, hs₁⟩

/-- The machine runs code that is laid out to the exit of an execution. -/
theorem Exec.arrives {d d' : δ} {x : Exit} (h : Exec L k d x d') (hlayout : Layout L F lp p k q)
    (hx : x ≠ .running) (hs : s.At p) (hd : s.data = d) : Arrives L F lp q s x d' := by
  induction h generalizing lp p q s with
  | skip hdone =>
    cases hlayout
    obtain rfl := hdone.normal hx
    exact arrives_here hs hd
  | wait => exact absurd rfl hx
  | @instr i d d₁ x hexec hdone =>
    cases hlayout with
    | instr hi hv =>
      obtain rfl := hdone.normal hx
      subst hd
      refine ⟨1, ⟨s.block, s.pc+1, s.prev, d₁⟩, .succ ?_ (.zero _), rfl, hs.1, congrArg (·+1) hs.2⟩
      rw [Lang.step_plain (hs.get hi) hv, hexec]
      rfl
  | seq _ _ ih ih' =>
    cases hlayout with
    | seq hk hk' => exact (ih hk (by simp) hs hd).bind fun s₁ hs₁ hd₁ => ih' hk' hx hs₁ hd₁
  | seqExit _ hne ih =>
    cases hlayout with
    | seq hk hk' => exact (ih hk hx hs hd).exit hne
  | condWait => exact absurd rfl hx
  | @cond v k k' d c d₁ x d₂ htest _ ih =>
    cases hlayout with
    | cond hi hv hk hj hv' hk' hj' hv'' =>
      subst hd
      refine arrives_condBr hs hi hv htest fun s₁ hs₁ hd₁ _ => ?_
      cases c with
      | true => exact (ih hk hx hs₁ hd₁).branch hj hv'
      | false => exact (ih hk' hx hs₁ hd₁).branch hj' hv''
  | shortWait => exact absurd rfl hx
  | shortLeave => exact absurd rfl hx
  | @shortLeft b v k l r d d₁ d₂ x htest hexec hdone =>
    cases hlayout with
    | short hi hv hk hj hv' hm hphi hl hr =>
      obtain rfl := hdone.normal hx
      subst hd
      refine arrives_condBr hs hi hv htest fun s₁ hs₁ hd₁ hprev => ?_
      rw [shortTarget_not] at hs₁
      refine arrives_phi hs₁ hm hphi ?_ (by rw [hd₁]; exact hexec)
      rw [hprev, hs.1]
      exact hl
  | @shortExit b v k l r d d₁ x d₂ htest _ hne ih =>
    cases hlayout with
    | short hi hv hk hj hv' hm hphi hl hr =>
      subst hd
      refine arrives_condBr hs hi hv htest fun s₁ hs₁ hd₁ _ => ?_
      rw [shortTarget_same] at hs₁
      exact (ih hk hx hs₁ hd₁).exit hne
  | @shortRight b v k l r d d₁ d₂ d₃ x htest _ hexec hdone ih =>
    cases hlayout with
    | short hi hv hk hj hv' hm hphi hl hr =>
      obtain rfl := hdone.normal hx
      subst hd
      refine arrives_condBr hs hi hv htest fun s₁ hs₁ hd₁ _ => ?_
      rw [shortTarget_same] at hs₁
      refine (ih hk (by simp) hs₁ hd₁).bind fun s₂ hs₂ hd₂ => ?_
      refine arrives_br hs₂ hj hv' fun s₃ hs₃ hd₃ hprev => ?_
      refine arrives_phi hs₃ hm hphi ?_ (by rw [hd₃, hd₂]; exact hexec)
      rw [hprev, hs₂.1]
      exact hr
  | loopExit _ hne ih =>
    cases hlayout with
    | loop hi hv ht hj hv' hk hm hv'' =>
      refine arrives_br hs hi hv fun s₁ hs₁ hd₁ _ => ?_
      exact absurd (ih ht hx hs₁ (hd₁.trans hd)).eq_normal hne
  | @loopDone t v k d d₁ d₂ x _ htest hdone iht =>
    cases hlayout with
    | loop hi hv ht hj hv' hk hm hv'' =>
      obtain rfl := hdone.normal hx
      refine arrives_br hs hi hv fun s₁ hs₁ hd₁ _ => ?_
      refine (iht ht (by simp) hs₁ (hd₁.trans hd)).weaken.bind fun s₂ hs₂ hd₂ => ?_
      refine arrives_condBr hs₂ hj hv' (by rw [hd₂]; exact htest) fun s₃ hs₃ hd₃ _ => ?_
      exact arrives_here hs₃ hd₃
  | @loopLeave t v k d d₁ d₂ x d₃ _ htest _ hne iht ih =>
    cases hlayout with
    | loop hi hv ht hj hv' hk hm hv'' =>
      refine arrives_br hs hi hv fun s₁ hs₁ hd₁ _ => ?_
      refine (iht ht (by simp) hs₁ (hd₁.trans hd)).weaken.bind fun s₂ hs₂ hd₂ => ?_
      refine arrives_condBr hs₂ hj hv' (by rw [hd₂]; exact htest) fun s₃ hs₃ hd₃ _ => ?_
      exact (ih hk hx hs₃ hd₃).exit hne
  | @loopNext t v k d d₁ d₂ d₃ x d₄ _ htest _ _ iht ih ihloop =>
    cases hlayout with
    | loop hi hv ht hj hv' hk hm hv'' =>
      refine arrives_br hs hi hv fun s₁ hs₁ hd₁ _ => ?_
      refine (iht ht (by simp) hs₁ (hd₁.trans hd)).weaken.bind fun s₂ hs₂ hd₂ => ?_
      refine arrives_condBr hs₂ hj hv' (by rw [hd₂]; exact htest) fun s₃ hs₃ hd₃ _ => ?_
      refine (ih hk (by simp) hs₃ hd₃).bind fun s₄ hs₄ hd₄ => ?_
      exact ihloop (.loop hm hv'' ht hj hv' hk hm hv'') hx hs₄ hd₄
  | forExit _ hne ih =>
    cases hlayout with
    | forLoop hi hv ht hj hv' hk hm hv'' he hl hv''' =>
      refine arrives_br hs hi hv fun s₁ hs₁ hd₁ _ => ?_
      exact absurd (ih ht hx hs₁ (hd₁.trans hd)).eq_normal hne
  | @forDone t v k e d d₁ d₂ x _ htest hdone iht =>
    cases hlayout with
    | forLoop hi hv ht hj hv' hk hm hv'' he hl hv''' =>
      obtain rfl := hdone.normal hx
      refine arrives_br hs hi hv fun s₁ hs₁ hd₁ _ => ?_
      refine (iht ht (by simp) hs₁ (hd₁.trans hd)).weaken.bind fun s₂ hs₂ hd₂ => ?_
      refine arrives_condBr hs₂ hj hv' (by rw [hd₂]; exact htest) fun s₃ hs₃ hd₃ _ => ?_
      exact arrives_here hs₃ hd₃
  | @forBreak t v k e d d₁ d₂ d₃ x _ htest _ hdone iht ih =>
    cases hlayout with
    | forLoop hi hv ht hj hv' hk hm hv'' he hl hv''' =>
      obtain rfl := hdone.normal hx
      refine arrives_br hs hi hv fun s₁ hs₁ hd₁ _ => ?_
      refine (iht ht (by simp) hs₁ (hd₁.trans hd)).weaken.bind fun s₂ hs₂ hd₂ => ?_
      refine arrives_condBr hs₂ hj hv' (by rw [hd₂]; exact htest) fun s₃ hs₃ hd₃ _ => ?_
      obtain ⟨n, s₄, hrun, hd₄, l, hl, hs₄⟩ := ih hk (by simp) hs₃ hd₃
      obtain rfl := Option.mem_some_iff.mp hl
      exact ⟨n, s₄, hrun, hd₄, hs₄⟩
  | forStop => exact absurd rfl hx
  | @forEvery t v k e d d₁ d₂ y d₃ x d₄ _ htest _ hy _ hne iht ihk ihe =>
    cases hlayout with
    | forLoop hi hv ht hj hv' hk hm hv'' he hl hv''' =>
      refine arrives_br hs hi hv fun s₁ hs₁ hd₁ _ => ?_
      refine (iht ht (by simp) hs₁ (hd₁.trans hd)).weaken.bind fun s₂ hs₂ hd₂ => ?_
      refine arrives_condBr hs₂ hj hv' (by rw [hd₂]; exact htest) fun s₃ hs₃ hd₃ _ => ?_
      obtain ⟨n, s₄, hrun, hd₄, hs₄⟩ := arrives_next (ihk hk (ne_running_of hy) hs₃ hd₃) hy hm hv''
      exact absurd (ihe he hx hs₄ hd₄).eq_normal hne
  | @forNext t v k e d d₁ d₂ y d₃ d₄ x d₅ _ htest _ hy _ _ iht ihk ihe ihloop =>
    cases hlayout with
    | forLoop hi hv ht hj hv' hk hm hv'' he hl hv''' =>
      refine arrives_br hs hi hv fun s₁ hs₁ hd₁ _ => ?_
      refine (iht ht (by simp) hs₁ (hd₁.trans hd)).weaken.bind fun s₂ hs₂ hd₂ => ?_
      refine arrives_condBr hs₂ hj hv' (by rw [hd₂]; exact htest) fun s₃ hs₃ hd₃ _ => ?_
      obtain ⟨n, s₄, hrun, hd₄, hs₄⟩ := arrives_next (ihk hk (ne_running_of hy) hs₃ hd₃) hy hm hv''
      have hloop : Layout L F lp _ (.forLoop t v k e) _ :=
        .forLoop hl hv''' ht hj hv' hk hm hv'' he hl hv'''
      refine Arrives.trans hrun ((ihe he (by simp) hs₄ hd₄).weaken.bind fun s₅ hs₅ hd₅ => ?_)
      exact ihloop hloop hx hs₅ hd₅
  | jumpWait => exact absurd rfl hx
  | @jump v toNext d c d' htest =>
    cases hlayout with
    | @jump l _ _ i _ t _ hi hv ht =>
      refine arrives_condBr hs hi hv (by rw [hd]; exact htest) fun s₁ hs₁ hd₁ _ => ?_
      rw [ite_self, ht] at hs₁
      refine ⟨0, s₁, .zero s₁, hd₁, ?_⟩
      cases toNext with
      | true => exact ⟨l, rfl, hs₁⟩
      | false => exact ⟨l, rfl, hs₁⟩

end

/-- Every execution from `I` ends in `Q` if it ends normally, and in the condition of its exit
otherwise. -/
def Triple (L : Lang ι κ δ) (E : Exit → δ → Prop) (I : δ → Prop) (k : Code ι κ) (Q : δ → Prop) : Prop :=
  ∀ d x d', I d → Exec L k d x d' → (x = .normal → Q d') ∧ (x ≠ .normal → E x d')

section
variable {L : Lang ι κ δ} {E E' : Exit → δ → Prop} {I J Q R S : δ → Prop} {k p q t e : Code ι κ}
  {v : κ}

theorem Triple.mono (h : Triple L E I k Q) (hI : ∀ d, J d → I d) (hQ : ∀ d, Q d → R d)
    (hE : ∀ x d, E x d → E' x d) : Triple L E' J k R := by
  intro d x d' hd he
  obtain ⟨hnormal, hexit⟩ := h d x d' (hI d hd) he
  exact ⟨fun hx => hQ _ (hnormal hx), fun hx => hE _ _ (hexit hx)⟩

theorem Triple.of_done {d : δ} {x : Exit} (hx : x.Done) (hQ : Q d) (hE : E .running d) :
    (x = .normal → Q d) ∧ (x ≠ .normal → E x d) := by
  rcases hx with rfl | rfl
  · exact ⟨fun _ => hQ, fun hne => absurd rfl hne⟩
  · exact ⟨fun heq => absurd heq (by simp), fun _ => hE⟩

theorem Triple.of_running {d : δ} (hE : E .running d) :
    (Exit.running = .normal → Q d) ∧ (Exit.running ≠ .normal → E .running d) :=
  ⟨fun heq => absurd heq (by simp), fun _ => hE⟩

theorem triple_skip (hI : ∀ d, I d → E .running d) : Triple L E I .skip I := by
  intro d x d' hd he
  cases he with
  | skip hdone => exact Triple.of_done hdone hd (hI _ hd)

theorem triple_instr {i : ι} (hI : ∀ d, I d → E .running d)
    (hstep : ∀ d d', I d → L.exec i d = some d' → Q d') (hQ : ∀ d, Q d → E .running d) :
    Triple L E I (.instr i) Q := by
  intro d x d' hd he
  cases he with
  | wait => exact Triple.of_running (hI _ hd)
  | instr hexec hdone =>
    have hq := hstep d d' hd hexec
    exact Triple.of_done hdone hq (hQ _ hq)

theorem Triple.seq (hp : Triple L E I p R) (hq : Triple L E R q Q) : Triple L E I (.seq p q) Q := by
  intro d x d' hd he
  cases he with
  | seq hexec hrest => exact hq _ _ _ ((hp _ _ _ hd hexec).1 rfl) hrest
  | seqExit hexec hne => exact ⟨fun heq => absurd heq hne, (hp _ _ _ hd hexec).2⟩

theorem triple_cond (hI : ∀ d, I d → E .running d)
    (htest : ∀ d c d', I d → L.test v d = some (c, d') → if c then R d' else S d')
    (hp : Triple L E R p Q) (hq : Triple L E S q Q) : Triple L E I (.cond v p q) Q := by
  intro d x d' hd he
  cases he with
  | condWait => exact Triple.of_running (hI _ hd)
  | @cond _ _ _ _ c d₁ _ _ ht hexec =>
    have hbranch := htest d c d₁ hd ht
    cases c with
    | true => exact hp _ _ _ hbranch hexec
    | false => exact hq _ _ _ hbranch hexec

/-- `I` is the invariant of the loop, before its test. -/
theorem triple_loop (ht : Triple L E I t R)
    (htest : ∀ d c d', R d → L.test v d = some (c, d') → if c then S d' else Q d')
    (hp : Triple L E S p I) (hQ : ∀ d, Q d → E .running d) : Triple L E I (.loop t v p) Q := by
  intro d x d' hd he
  generalize hk : Code.loop t v p = k at he
  induction he with
  | loopExit hexec hne _ =>
    obtain ⟨rfl, rfl, rfl⟩ := Code.loop.inj hk
    exact ⟨fun heq => absurd heq hne, (ht _ _ _ hd hexec).2⟩
  | loopDone hexec hv hdone _ =>
    obtain ⟨rfl, rfl, rfl⟩ := Code.loop.inj hk
    have hq : Q _ := htest _ _ _ ((ht _ _ _ hd hexec).1 rfl) hv
    exact Triple.of_done hdone hq (hQ _ hq)
  | loopLeave hexec hv hbody hne _ _ =>
    obtain ⟨rfl, rfl, rfl⟩ := Code.loop.inj hk
    have hs : S _ := htest _ _ _ ((ht _ _ _ hd hexec).1 rfl) hv
    exact ⟨fun heq => absurd heq hne, (hp _ _ _ hs hbody).2⟩
  | loopNext hexec hv hbody _ _ _ ih =>
    obtain ⟨rfl, rfl, rfl⟩ := Code.loop.inj hk
    have hs : S _ := htest _ _ _ ((ht _ _ _ hd hexec).1 rfl) hv
    exact ih ((hp _ _ _ hs hbody).1 rfl) rfl
  | _ => exact absurd hk (by simp)

/-- The conditions of the exits of the body of a `forLoop`: a `break` ends in `Q`, a `continue` in
`N`. -/
def loopExits (E : Exit → δ → Prop) (Q N : δ → Prop) : Exit → δ → Prop
  | .brk => Q
  | .cont => N
  | x => E x

/-- `I` is the invariant of the loop, before its test, and `N` holds before its every part. -/
theorem triple_for (ht : Triple L E I t R)
    (htest : ∀ d c d', R d → L.test v d = some (c, d') → if c then S d' else Q d')
    (hp : Triple L (loopExits E Q J) S p J) (he : Triple L E J e I) (hQ : ∀ d, Q d → E .running d) :
    Triple L E I (.forLoop t v p e) Q := by
  have hnext : ∀ {d₂ y d₃}, S d₂ → Exec L p d₂ y d₃ → y = .normal ∨ y = .cont → J d₃ := by
    intro d₂ y d₃ hs hbody hy
    rcases hy with rfl | rfl
    · exact (hp _ _ _ hs hbody).1 rfl
    · exact (hp _ _ _ hs hbody).2 (by simp)
  intro d x d' hd hrun
  generalize hk : Code.forLoop t v p e = k at hrun
  induction hrun with
  | forExit hexec hne _ =>
    obtain ⟨rfl, rfl, rfl, rfl⟩ := Code.forLoop.inj hk
    exact ⟨fun heq => absurd heq hne, (ht _ _ _ hd hexec).2⟩
  | forDone hexec hv hdone _ =>
    obtain ⟨rfl, rfl, rfl, rfl⟩ := Code.forLoop.inj hk
    have hq : Q _ := htest _ _ _ ((ht _ _ _ hd hexec).1 rfl) hv
    exact Triple.of_done hdone hq (hQ _ hq)
  | forBreak hexec hv hbody hdone _ _ =>
    obtain ⟨rfl, rfl, rfl, rfl⟩ := Code.forLoop.inj hk
    have hs : S _ := htest _ _ _ ((ht _ _ _ hd hexec).1 rfl) hv
    have hq : Q _ := (hp _ _ _ hs hbody).2 (by simp)
    exact Triple.of_done hdone hq (hQ _ hq)
  | forStop hexec hv hbody _ _ =>
    obtain ⟨rfl, rfl, rfl, rfl⟩ := Code.forLoop.inj hk
    have hs : S _ := htest _ _ _ ((ht _ _ _ hd hexec).1 rfl) hv
    exact Triple.of_running ((hp _ _ _ hs hbody).2 (by simp))
  | forEvery hexec hv hbody hy hevery hne _ _ _ =>
    obtain ⟨rfl, rfl, rfl, rfl⟩ := Code.forLoop.inj hk
    have hs : S _ := htest _ _ _ ((ht _ _ _ hd hexec).1 rfl) hv
    exact ⟨fun heq => absurd heq hne, (he _ _ _ (hnext hs hbody hy) hevery).2⟩
  | forNext hexec hv hbody hy hevery _ _ _ _ ih =>
    obtain ⟨rfl, rfl, rfl, rfl⟩ := Code.forLoop.inj hk
    have hs : S _ := htest _ _ _ ((ht _ _ _ hd hexec).1 rfl) hv
    exact ih ((he _ _ _ (hnext hs hbody hy) hevery).1 rfl) rfl
  | _ => exact absurd hk (by simp)

theorem triple_jump {toNext : Bool} (hI : ∀ d, I d → E .running d)
    (hexit : ∀ d c d', I d → L.test v d = some (c, d') → E (jumpExit toNext) d') :
    Triple L E I (.jump v toNext) Q := by
  intro d x d' hd he
  cases he with
  | jumpWait => exact Triple.of_running (hI _ hd)
  | jump htest =>
    refine ⟨fun heq => absurd heq (by cases toNext <;> simp [jumpExit]), fun _ => ?_⟩
    exact hexit _ _ _ hd htest

end

end StructuredCode
