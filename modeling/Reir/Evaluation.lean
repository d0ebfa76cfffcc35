import Reir.CodeLogic
import Reir.TypeAgreement

/-! A direct evaluation of expressions over the memory of the machine. It has no registers, no
blocks and no phi nodes; the code of an expression computes what its evaluation gives. The code asks
for the value of an element of a row literal twice, and so does the evaluation. -/
namespace Reir
open Gen BlockGraph StructuredCode

namespace Data

def bare (d : Data) : Data := { d with regs := fun _ => .undef }

variable (d : Data)

@[simp] theorem bare_bare : d.bare.bare = d.bare := rfl

@[simp] theorem bare_setReg (r : ℕ) (v : Val) : (d.setReg r v).bare = d.bare := rfl

@[simp] theorem mem_bare : d.bare.mem = d.mem := rfl

@[simp] theorem trace_bare : d.bare.trace = d.trace := rfl

@[simp] theorem answers_bare : d.bare.answers = d.answers := rfl

@[simp] theorem fetch_bare (p : Val) : d.bare.fetch p = d.fetch p := rfl

@[simp] theorem result_bare (f : Text) : d.bare.result f = d.result f := rfl

@[simp] theorem behind_bare : d.bare.behind = d.behind := rfl

theorem bare_put (x p : Val) : (d.put x p).bare = d.bare.put x p := by
  cases p <;> rfl

theorem bare_scribble (p : Val) : (d.scribble p).bare = d.bare.scribble p := by
  unfold scribble
  split <;> rfl

/-- What a call does to the data does not depend on the register of its result. -/
theorem bare_call (r s : ℕ) (tag : Tag) (f : Text) (args : List Val) :
    (d.call r tag f args).bare = (d.bare.call s tag f args).bare := by
  unfold call
  dsimp only
  split
  · rw [bare_scribble, bare_scribble]
    rfl
  · rfl

end Data

/-- What the compiler looks at in the type of a value. -/
inductive Kind
  | bit | integer | pointer (toInteger : Bool) | struct | other
  deriving DecidableEq

def LLType.kind (t : LLType) : Kind :=
  match t with
  | .i1 => .bit
  | .ptr t => .pointer t.isInteger
  | t => if t.isInteger then .integer else if t.isStruct then .struct else .other

/-- The kind of the value of an expression without references into arrays and rows. -/
def Expression.kind (T : Ctx) : Expression → Kind
  | .primary _ (some (.varchar _)) => ((T.types (text "string")).map LLType.kind).getD .other
  | .primary _ _ => .integer
  | .binary _ l op _ => if op.isArithmetic then l.kind T else .bit
  | .rowLiteral _ _ => .struct
  | .variable _ x => ((T.typeEnv.slot x).map LLType.kind).getD .other
  | .functionCall _ p _ => ((calleeType p).map LLType.kind).getD .other
  | .assign _ t _ => t.kind T
  | _ => .other

def MaybeValue.val : MaybeValue → Val
  | some (.int v) => .int v
  | some (.varchar s) => .text s
  | _ => .byte 0

def Operators.apply : Operators → Val → Val → Option Val
  | .plus, a, b => BinOp.add.apply a b
  | .minus, a, b => BinOp.sub.apply a b
  | .multiple, a, b => BinOp.mul.apply a b
  | .division, a, b => BinOp.sdiv.apply a b
  | .modulo, a, b => BinOp.srem.apply a b
  | .equal, a, b => some (Pred.eq.apply a b)
  | .notequal, a, b => some (Pred.ne.apply a b)
  | .lessthan, a, b => some (Pred.slt.apply a b)
  | .lessequal, a, b => some (Pred.sle.apply a b)
  | .morethan, a, b => some (Pred.sgt.apply a b)
  | .moreequal, a, b => some (Pred.sge.apply a b)
  | _, _, _ => Option.none

/-- A value as a truth value. -/
def Val.toBit (k : Kind) (v : Val) : Val := if k = .bit then v else Pred.ne.apply v (.int 0)

/-- The value of a row or an array. -/
def Val.tuple : List Val → Val
  | [] => .undef
  | v :: vs => .agg (v :: vs)

namespace Data

/-- The contents of memory at an address. -/
def deref (d : Data) (p : Val) : Option (Val × Data) :=
  if p.isAddress then some (d.fetch p, d.note (.load p.slot)) else none

/-- The value that is inserted for an element: a pointer is followed. -/
def field (d : Data) (k : Kind) (v : Val) : Option (Val × Data) :=
  match k with
  | .pointer _ => d.deref v
  | _ => some (v, d)

/-- The value that is passed for an argument: a pointer to an integer is followed, and a struct is
put into a slot. -/
def pass (d : Data) (k : Kind) (stack : Option ℕ) (v : Val) : Option (Val × Data) :=
  match k with
  | .pointer true => d.deref v
  | .struct => stack.map fun s => (.ptr s [], (d.setMem s v).note (.store ⟨.argument, 0⟩ (some s)))
  | _ => some (v, d)

/-- The second operand is evaluated if the first is `forAnd`. -/
def shortCircuit (forAnd : Bool) (l r : Data → Option (Val × Data)) (d : Data) :
    Option (Val × Data) := do
  let (a, d) ← l d
  match a with
  | .bool b =>
    if b = forAnd then r (d.note (.branch ⟨.shortCircuit, 0⟩ b))
    else some (.bool b, d.note (.branch ⟨.shortCircuit, 0⟩ b))
  | _ => none

end Data

theorem shortCircuit_eq_some {forAnd : Bool} {l r : Data → Option (Val × Data)} {d s : Data} {w : Val} :
    d.shortCircuit forAnd l r = some (w, s) ↔
      (∃ d₁, l d = some (.bool (!forAnd), d₁) ∧ w = .bool (!forAnd) ∧
        s = d₁.note (.branch ⟨.shortCircuit, 0⟩ (!forAnd))) ∨
      ∃ d₁, l d = some (.bool forAnd, d₁) ∧
        r (d₁.note (.branch ⟨.shortCircuit, 0⟩ forAnd)) = some (w, s) := by
  unfold Data.shortCircuit
  cases hl : l d with
  | none => simp
  | some v =>
    obtain ⟨a, d₁⟩ := v
    cases a with
    | bool b =>
      by_cases hb : b = forAnd
      · simp [hb]
      · obtain rfl := Bool.eq_not_of_ne hb
        simp [eq_comm]
    | _ => simp

/-- The value of an operand as a truth value. -/
def bitOf (k : Kind) (f : Data → Option (Val × Data)) (d : Data) : Option (Val × Data) :=
  (f d).map fun r => (r.1.toBit k, r.2)

mutual

def Expression.evaluate (T : Ctx) : Expression → Data → Option (Val × Data)
  | .primary _ v, d => some (v.val, d)
  | .binary _ l .conditionalAnd r, d =>
    d.shortCircuit true (bitOf (l.kind T) (l.evaluate T)) (bitOf (r.kind T) (r.evaluate T))
  | .binary _ l .conditionalOr r, d =>
    d.shortCircuit false (bitOf (l.kind T) (l.evaluate T)) (bitOf (r.kind T) (r.evaluate T))
  | .binary _ l op r, d => do
    let (a, d) ← l.evaluate T d
    let (b, d) ← r.evaluate T d
    let v ← op.apply a b
    some (v, d)
  | .rowLiteral _ es, d => do
    let (vs, d) ← evaluateRow T es d
    some (Val.tuple vs, d)
  | .arrayLiteral _ es, d => do
    let (vs, d) ← evaluateAll T es d
    some (Val.tuple vs, d)
  | .variable _ x, d => do
    let i ← (T.vars x).join
    some (d.mem i, d.note (.load (some i)))
  | .functionCall n (.variable _ f) as, d => do
    let (args, d) ← evaluateArgs T as d
    some (d.result f, (d.call 0 ⟨.functionCall, n.node⟩ f args).bare)
  | .assign n (.variable _ x) v, d => do
    let i ← (T.vars x).join
    let (a, d) ← v.evaluate T d
    some (a, ((d.setMem i a).note (.store ⟨.assign, n.node⟩ (some i))).note (.load (some i)))
  | _, _ => none

/-- The values of the elements of a row literal. -/
def evaluateRow (T : Ctx) : List Expression → Data → Option (List Val × Data)
  | [], d => some ([], d)
  | e :: es, d => do
    let (_, d) ← e.evaluate T d
    let (v, d) ← e.evaluate T d
    let (w, d) ← d.field (e.kind T) v
    let (ws, d) ← evaluateRow T es d
    some (w :: ws, d)

def evaluateAll (T : Ctx) : List Expression → Data → Option (List Val × Data)
  | [], d => some ([], d)
  | e :: es, d => do
    let (v, d) ← e.evaluate T d
    let (vs, d) ← evaluateAll T es d
    some (v :: vs, d)

def evaluateArgs (T : Ctx) : List Expression → Data → Option (List Val × Data)
  | [], d => some ([], d)
  | e :: es, d => do
    let (v, d) ← e.evaluate T d
    let (w, d) ← d.pass (e.kind T) e.note.stack v
    let (ws, d) ← evaluateArgs T es d
    some (w :: ws, d)

end

mutual

/-- Built from literals, variables, binary operators, assignments to variables, calls, array
literals and row literals. -/
def Expression.plain : Expression → Bool
  | .primary _ _ => true
  | .binary _ l _ r => l.plain && r.plain
  | .rowLiteral _ es => plainAll es
  | .arrayLiteral _ es => plainAll es
  | .variable _ _ => true
  | .functionCall _ p as => p.asVariable.isSome && plainAll as
  | .assign _ t v => t.asVariable.isSome && v.plain
  | _ => false

def plainAll : List Expression → Bool
  | [] => true
  | e :: es => e.plain && plainAll es

end

/-- A reading of the data that only looks at registers that have been given out. -/
def Stable {γ : Type} (n : ℕ) (read : Data → γ) : Prop :=
  ∀ d d' : Data, (∀ r < n, d'.regs r = d.regs r) → read d' = read d

/-- The code of a step computes what is read off from its result, from what is read off before it
and from the data without registers. -/
def Gen.Acts {α β γ : Type} (T : Ctx) (read : Data → γ) (p : Gen α) (out : α → Data → β) (P : α → Prop)
    (f : γ → Data → Option (β × Data)) : Prop :=
  p.Lays T false fun c a c' k => P a ∧ (Stable c.nextReg read → Stable c'.nextReg (out a) ∧ ∀ d w s,
    (∃ d', Exec machine k d .normal d' ∧ d'.bare = s ∧ out a d' = w) ↔ f (read d) d.bare = some (w, s))

/-- The code of a step computes a value of a kind. -/
abbrev Gen.Denotes (T : Ctx) (p : Gen LLValue) (κ : Kind) (f : Data → Option (Val × Data)) : Prop :=
  p.Acts T (fun _ => ()) (fun v d => d.eval v) (fun v => v.ty.kind = κ) fun _ => f

theorem stable_eval {n : ℕ} {v : LLValue} (h : v.Below n) : Stable n fun d => d.eval v :=
  fun _ _ hregs => Data.eval_congr hregs h

theorem stable_const {γ : Type} (n : ℕ) (x : γ) : Stable n fun _ => x := fun _ _ _ => rfl

theorem Stable.mono {γ : Type} {m n : ℕ} {read : Data → γ} (h : Stable m read) (hmn : m ≤ n) :
    Stable n read :=
  fun d d' hregs => h d d' fun r hr => hregs r (hr.trans_le hmn)

theorem below_reg (r : ℕ) (ty : LLType) : (⟨.reg r, ty⟩ : LLValue).Below (r+1) := by
  intro s hs
  obtain rfl := Op.reg.inj hs
  exact Nat.lt_succ_self r

@[simp] theorem eval_setReg (d : Data) (r : ℕ) (ty : LLType) (v : Val) :
    (d.setReg r v).eval ⟨.reg r, ty⟩ = v := by
  simp [Data.eval, Data.setReg]

namespace Gen.Acts
variable {α α' β β' γ γ' : Type} {T : Ctx} {read : Data → γ} {p : Gen α} {q : α → Gen α'}
  {out : α → Data → β} {out' : α' → Data → β'} {P P' : α → Prop} {Q : α' → Prop}
  {f : γ → Data → Option (β × Data)}

theorem congr {f' : γ → Data → Option (β × Data)} (h : p.Acts T read out P f)
    (hf : ∀ x d, f x d = f' x d) : p.Acts T read out P f' := by
  obtain rfl : f = f' := funext fun x => funext (hf x)
  exact h

theorem weaken (h : p.Acts T read out P f) (hP : ∀ a, P a → P' a) : p.Acts T read out P' f := by
  refine Gen.Lays.mono h ?_
  rintro c a c' k - ⟨ha, hk⟩
  exact ⟨hP a ha, hk⟩

/-- More may be read off before the step. -/
theorem comap {read' : Data → γ'} (h : p.Acts T read out P f) (g : γ' → γ)
    (hread : ∀ d, read d = g (read' d)) : p.Acts T read' out P fun x => f (g x) := by
  refine Gen.Lays.mono h ?_
  rintro c a c' k - ⟨ha, hk⟩
  refine ⟨ha, fun hstable => ?_⟩
  have hread' : Stable c.nextReg read := by
    intro d d' hregs
    rw [hread, hread, hstable d d' hregs]
  obtain ⟨hout, hf⟩ := hk hread'
  refine ⟨hout, fun d w s => ?_⟩
  rw [hf d w s, hread]

/-- What is read off before the step is known. -/
theorem const {x : γ} (h : p.Acts T read out P f) (hread : ∀ d, read d = x) :
    p.Acts T (fun _ => ()) out P fun _ => f x :=
  h.comap (fun _ => x) hread

theorem bind {g : γ × β → Data → Option (β' × Data)} (hp : p.Acts T read out P f)
    (hq : ∀ a, P a → (q a).Acts T (fun d => (read d, out a d)) out' Q g) :
    (p >>= q).Acts T read out' Q fun x d => (f x d).bind fun r => g (x, r.1) r.2 := by
  intro c b c' hT hl hc hrun
  obtain ⟨a, c₁, h₁, h₂⟩ := bind_eq_ok.mp hrun
  obtain ⟨k₁, hk₁, ha, hp'⟩ := hp hT hl hc h₁
  obtain ⟨k₂, hk₂, hb, hq'⟩ := hq a ha (hk₁.emits.tables_eq.trans hT)
    (hk₁.emits.loadsBelow hl) hk₁.region.valid h₂
  refine ⟨.seq k₁ k₂, hk₁.trans hk₂, hb, fun hread => ?_⟩
  obtain ⟨hout, hf⟩ := hp' hread
  have hread₁ : Stable c₁.nextReg read := hread.mono hk₁.emits.nextReg_le
  have hboth : Stable c₁.nextReg fun d => (read d, out a d) := by
    intro d d' hregs
    dsimp only
    rw [hread₁ d d' hregs, hout d d' hregs]
  obtain ⟨hout', hg⟩ := hq' hboth
  refine ⟨hout', fun d w s => ?_⟩
  have hkeep : ∀ {d d₁ : Data}, Exec machine k₁ d .normal d₁ → read d₁ = read d :=
    fun he => hread _ _ fun r hr => hk₁.regs_eq he hr
  simp only [exec_seq_iff, Option.bind_eq_some_iff]
  constructor
  · rintro ⟨d', ⟨d₁, he₁, he₂⟩, hs, hw⟩
    refine ⟨(out a d₁, d₁.bare), (hf d _ _).mp ⟨d₁, he₁, rfl, rfl⟩, ?_⟩
    rw [← hkeep he₁]
    exact (hg d₁ w s).mp ⟨d', he₂, hs, hw⟩
  · rintro ⟨⟨x, s₁⟩, hx, hrest⟩
    obtain ⟨d₁, he₁, rfl, rfl⟩ := (hf d x s₁).mpr hx
    rw [← hkeep he₁] at hrest
    obtain ⟨d', he₂, hs, hw⟩ := (hg d₁ w s).mpr hrest
    exact ⟨d', ⟨d₁, he₁, he₂⟩, hs, hw⟩

end Gen.Acts

section
variable {α β γ : Type} {T : Ctx} {read : Data → γ} {p : Gen α} {out : α → Data → β} {P : α → Prop}

/-- A step that emits nothing before another one. -/
theorem Gen.Quiet.bindActs {α' β' : Type} {q : α → Gen α'} {out : α' → Data → β'} {Q : α' → Prop}
    {g : γ → Data → Option (β' × Data)} (h : p.Quiet)
    (hq : ∀ c a c', c.tables = T → p.run c = .ok (a, c') → (q a).Acts T read out Q g) :
    (p >>= q).Acts T read out Q g := by
  intro c b c' hT hl hc hrun
  obtain ⟨a, c₁, h₁, h₂⟩ := bind_eq_ok.mp hrun
  have hsame := h h₁
  have hc₁ : c₁.graph.cur < c₁.graph.size := by rwa [hsame.graph]
  have hnext : c₁.nextReg = c.nextReg := congrArg Emitted.nextReg hsame.emitted
  obtain ⟨k, hk, hb, hacts⟩ := hq c a c₁ hT h₁ (hsame.emits.tables_eq.trans hT)
    (hsame.emits.loadsBelow hl) hc₁ h₂
  have hskip : Laid false c c₁ .skip := Laid.of_graph_eq hc hsame.graph hsame.emits hsame.loops
  refine ⟨.seq .skip k, hskip.trans hk, hb, fun hread => ?_⟩
  rw [← hnext] at hread
  obtain ⟨hout, hg⟩ := hacts hread
  refine ⟨hout, fun d w s => ?_⟩
  rw [← hg d w s]
  simp only [exec_seq_iff, exec_skip_iff, exists_eq_left']

theorem acts_fail {e : CompileError} {f : γ → Data → Option (β × Data)} :
    (fail e : Gen α).Acts T read out P f :=
  lays_fail e

/-- A step that returns what can be read off before it. -/
theorem acts_pure {a : α} {h : γ → β} (ha : P a) (hread : ∀ d, out a d = h (read d)) :
    (Pure.pure a : Gen α).Acts T read out P fun x d => some (h x, d) := by
  refine Gen.Lays.mono (quietRules.pure a).lays ?_
  rintro c b c' k - ⟨hrun, -, rfl⟩
  obtain ⟨rfl, rfl⟩ := pure_eq_ok.mp hrun
  refine ⟨ha, fun hstable => ⟨?_, ?_⟩⟩
  · intro d d' hregs
    rw [hread, hread, hstable d d' hregs]
  · intro d w s
    simp only [exec_skip_iff, hread, Option.some.injEq, Prod.mk.injEq]
    constructor
    · rintro ⟨_, rfl, rfl, rfl⟩
      exact ⟨rfl, rfl⟩
    · rintro ⟨rfl, rfl⟩
      exact ⟨d, rfl, rfl, rfl⟩

theorem acts_emitInstr {i : Instr} {f : γ → Data → Option (Unit × Data)} (hv : i.view = .plain)
    (hdst : i.dst = none) (hf : ∀ d, (i.exec d).map (fun d' => ((), d'.bare)) = f (read d) d.bare) :
    (emitInstr i).Acts T read (fun _ _ => ()) (fun _ => True) f := by
  refine Gen.Lays.mono (lays_emitInstr hv hdst) ?_
  rintro c u c' k - ⟨-, rfl⟩
  refine ⟨trivial, fun _ => ⟨stable_const _ (), fun d w s => ?_⟩⟩
  rw [← hf, Option.map_eq_some_iff]
  simp only [exec_instr_iff, Prod.mk.injEq]
  constructor
  · rintro ⟨d', hd', rfl, -⟩
    exact ⟨d', hd', trivial, rfl⟩
  · rintro ⟨d', hd', -, rfl⟩
    exact ⟨d', hd', rfl, trivial⟩

/-- The property of a step that emits an instruction with a result. -/
theorem Gen.Lays.acts {p : Gen LLValue} {ty : LLType} {f : γ → Data → Option (Val × Data)}
    (mk : ℕ → Instr) (h : p.Lays T false fun c v c' k =>
      v = ⟨.reg c.nextReg, ty⟩ ∧ c'.nextReg = c.nextReg+1 ∧ k = .instr (mk c.nextReg))
    (hf : ∀ r d, ((mk r).exec d).map (fun d' => (d'.regs r, d'.bare)) = f (read d) d.bare) :
    p.Acts T read (fun v d => d.eval v) (fun v => v.ty = ty) f := by
  refine Gen.Lays.mono h ?_
  rintro c v c' k - ⟨rfl, hnext, rfl⟩
  refine ⟨rfl, fun _ => ⟨?_, fun d w s => ?_⟩⟩
  · rw [hnext]
    exact stable_eval (below_reg _ _)
  · rw [← hf c.nextReg, Option.map_eq_some_iff]
    simp only [exec_instr_iff, Prod.mk.injEq]
    constructor
    · rintro ⟨d', hd', rfl, rfl⟩
      exact ⟨d', hd', rfl, rfl⟩
    · rintro ⟨d', hd', rfl, rfl⟩
      exact ⟨d', hd', rfl, rfl⟩

theorem acts_emitResult {mk : ℕ → Instr} {ty : LLType} {f : γ → Data → Option (Val × Data)}
    (hv : ∀ r, (mk r).view = .plain) (hdst : ∀ r, (mk r).dst = some r)
    (hf : ∀ r d, ((mk r).exec d).map (fun d' => (d'.regs r, d'.bare)) = f (read d) d.bare) :
    (emitResult mk ty).Acts T read (fun v d => d.eval v) (fun v => v.ty = ty) f := by
  have hlays : (emitResult mk ty).Lays T false fun c v c' k =>
      v = ⟨.reg c.nextReg, ty⟩ ∧ c'.nextReg = c.nextReg+1 ∧ k = .instr (mk c.nextReg) := by
    refine (lays_emitResult hv hdst).mono ?_
    rintro c v c' k - ⟨hvalue, hemitted, rfl⟩
    exact ⟨hvalue, congrArg Emitted.nextReg hemitted, rfl⟩
  exact hlays.acts mk hf

/-- A load from an address that has been read off. -/
theorem acts_createLoad {p : LLValue} {h : γ → Val} (hread : ∀ d, d.eval p = h (read d)) :
    (createLoad p).Acts T read (fun v d => d.eval v) (fun v => p.ty = .ptr v.ty) fun x d =>
      d.deref (h x) := by
  unfold createLoad
  cases hp : p.ty with
  | ptr t =>
    refine Gen.Acts.weaken (P := fun v => v.ty = t) ?_ fun v hv => by rw [hv]
    have hlays : (emitLoad p t).Lays T false fun c v c' k =>
        v = ⟨.reg c.nextReg, t⟩ ∧ c'.nextReg = c.nextReg+1 ∧ k = .instr (.load c.nextReg p) := by
      refine lays_emitLoad.mono ?_
      rintro c v c' k - ⟨hvalue, hemitted, rfl⟩
      exact ⟨hvalue, congrArg Emitted.nextReg hemitted, rfl⟩
    have hload : (emitLoad p t).Acts T read (fun v d => d.eval v) (fun v => v.ty = t)
        fun x d => d.deref (h x) := by
      refine hlays.acts (fun r => .load r p) fun r d => ?_
      simp only [Instr.exec, Data.load, Data.deref, ← hread]
      split_ifs
      · simp [Data.setReg, Data.bare, Data.note, Data.fetch, Data.answer]
      · rfl
    exact hload
  | _ => exact lays_fail _

/-- A store of what has been read off, to an address that has been read off. -/
theorem acts_createStore {tag : Tag} {v p : LLValue} {h h' : γ → Val} (hv : ∀ d, d.eval v = h (read d))
    (hp : ∀ d, d.eval p = h' (read d)) : (createStore tag v p).Acts T read (fun _ _ => ())
      (fun _ => True) fun x d => (d.store tag (h x) (h' x)).map fun d => ((), d) := by
  refine acts_emitInstr rfl rfl fun d => ?_
  simp only [Instr.exec, Data.store, ← hv, ← hp]
  split_ifs
  · rw [Option.map_some, Option.map_some, ← Data.bare_put]
    rfl
  · rfl

theorem kind_eq_bit {t : LLType} : t.kind = .bit ↔ t = .i1 := by
  cases t <;> simp [LLType.kind, LLType.isInteger, LLType.isStruct]

theorem acts_toI1 {v : LLValue} {κ : Kind} (hκ : v.ty.kind = κ) : (toI1 v).Acts T
    (fun d => ((), d.eval v)) (fun v d => d.eval v) (fun v => v.ty = .i1)
      fun x d => some (x.2.toBit κ, d) := by
  subst hκ
  unfold toI1
  split_ifs with hv
  · have hpure : (Pure.pure v : Gen LLValue).Acts T (fun d => ((), d.eval v)) (fun v d => d.eval v)
        (fun v => v.ty = .i1) fun x d => some (x.2, d) := acts_pure hv fun d => rfl
    refine hpure.congr fun x d => ?_
    rw [Val.toBit, if_pos (kind_eq_bit.mpr hv)]
  · refine acts_emitResult (fun _ => rfl) (fun _ => rfl) fun r d => ?_
    rw [Val.toBit, if_neg (mt kind_eq_bit.mp hv)]
    simp [Instr.exec, Data.setReg, Data.bare, int64, Data.eval]

theorem Gen.Denotes.bit {p : Gen LLValue} {κ : Kind} {f : Data → Option (Val × Data)}
    (h : p.Denotes T κ f) : (p >>= toI1).Denotes T .bit (bitOf κ f) := by
  refine ((h.bind fun v hv => acts_toI1 hv).weaken fun v hv => ?_).congr fun x d => ?_
  · rw [hv]
    rfl
  · rw [bitOf]
    cases f d <;> rfl

theorem acts_strictOperator {op : Operators} {l r : LLValue} {κ : Kind} (hκ : l.ty.kind = κ) :
    (strictOperator op l r).Acts T (fun d => (((), d.eval l), d.eval r)) (fun v d => d.eval v)
      (fun v => v.ty.kind = if op.isArithmetic then κ else .bit)
      fun x d => (op.apply x.1.2 x.2).map fun v => (v, d) := by
  have hbinary : ∀ o, (createBinary o l r).Acts T (fun d => (((), d.eval l), d.eval r))
      (fun v d => d.eval v) (fun v => v.ty.kind = κ)
      fun x d => (o.apply x.1.2 x.2).map fun v => (v, d) := by
    intro o
    refine (acts_emitResult (fun _ => rfl) (fun _ => rfl) fun r' d => ?_).weaken fun v hv => ?_
    · rw [Instr.exec, Option.map_map]
      congr 1
      funext v
      simp [Data.setReg, Data.bare]
    · rw [hv, hκ]
  have hicmp : ∀ o, (createICmp o l r).Acts T (fun d => (((), d.eval l), d.eval r))
      (fun v d => d.eval v) (fun v => v.ty.kind = .bit)
      fun x d => (some (o.apply x.1.2 x.2)).map fun v => (v, d) := by
    intro o
    refine (acts_emitResult (fun _ => rfl) (fun _ => rfl) fun r' d => ?_).weaken fun v hv => ?_
    · simp [Instr.exec, Data.setReg, Data.bare]
    · rw [hv]
      rfl
  cases op with
  | plus => exact hbinary .add
  | minus => exact hbinary .sub
  | multiple => exact hbinary .mul
  | division => exact hbinary .sdiv
  | modulo => exact hbinary .srem
  | equal => exact hicmp .eq
  | notequal => exact hicmp .ne
  | lessthan => exact hicmp .slt
  | lessequal => exact hicmp .sle
  | morethan => exact hicmp .sgt
  | moreequal => exact hicmp .sge
  | _ => exact acts_fail

theorem denotes_conditionalValue {forAnd : Bool} {lhs rhs : Gen LLValue}
    {f g : Data → Option (Val × Data)} (hl : (lhs >>= toI1).Denotes T .bit f)
    (hr : (rhs >>= toI1).Denotes T .bit g) :
    (conditionalValue forAnd lhs rhs).Denotes T .bit fun d => d.shortCircuit forAnd f g := by
  refine Gen.Lays.mono (lays_conditionalValue hl hr) ?_
  rintro c v c' k - ⟨a, lh, a', k₁, b, rh, b', k₂, ⟨-, h₁⟩, ⟨-, h₂⟩, -, -, -, rfl, hc', rfl⟩
  obtain ⟨-, hf⟩ := h₁ (stable_const _ ())
  obtain ⟨-, hg⟩ := h₂ (stable_const _ ())
  have hnext : c'.nextReg = b'.nextReg+1 := congrArg Emitted.nextReg hc'
  refine ⟨rfl, fun _ => ⟨?_, fun d w s => ?_⟩⟩
  · rw [hnext]
    exact stable_eval (below_reg _ _)
  have htest : ∀ (d d' : Data) (z : Bool), machine.test (⟨.shortCircuit, 0⟩, lh) d = some (z, d') ↔
      d.eval lh = .bool z ∧ d' = d.note (.branch ⟨.shortCircuit, 0⟩ z) := by
    intro d d' z
    constructor
    · exact machine_test
    · rintro ⟨heval, rfl⟩
      change Cond.test _ d = _
      simp [Cond.test, heval]
  have hbitcast : ∀ (x : LLValue) (d : Data),
      machine.exec (.bitcast b'.nextReg x) d = some (d.setReg b'.nextReg (d.eval x)) := fun _ _ => rfl
  simp only [exec_seq_iff, exec_short_iff, htest, hbitcast, Option.some.injEq, shortCircuit_eq_some]
  constructor
  · rintro ⟨_, ⟨d₁, he₁, ⟨_, ⟨heval, rfl⟩, rfl⟩ | ⟨_, d₂, ⟨heval, rfl⟩, he₂, rfl⟩⟩, rfl, rfl⟩
    · refine .inl ⟨d₁.bare, (hf d _ _).mp ⟨d₁, he₁, rfl, heval⟩, ?_, rfl⟩
      rw [eval_setReg, ← heval]
      rfl
    · refine .inr ⟨d₁.bare, (hf d _ _).mp ⟨d₁, he₁, rfl, heval⟩, ?_⟩
      rw [eval_setReg]
      exact (hg _ _ _).mp ⟨d₂, he₂, rfl, rfl⟩
  · rintro (⟨s₁, hs₁, rfl, rfl⟩ | ⟨s₁, hs₁, hs⟩)
    · obtain ⟨d₁, he₁, rfl, heval⟩ := (hf d _ _).mpr hs₁
      refine ⟨_, ⟨d₁, he₁, .inl ⟨_, ⟨heval, rfl⟩, rfl⟩⟩, rfl, ?_⟩
      rw [eval_setReg, ← heval]
      rfl
    · obtain ⟨d₁, he₁, rfl, heval⟩ := (hf d _ _).mpr hs₁
      obtain ⟨d₂, he₂, rfl, rfl⟩ := (hg (d₁.note (.branch ⟨.shortCircuit, 0⟩ forAnd)) w s).mpr hs
      exact ⟨_, ⟨d₁, he₁, .inr ⟨_, d₂, ⟨heval, rfl⟩, he₂, rfl⟩⟩, rfl, eval_setReg _ _ _ _⟩

theorem Gen.Denotes.reads {p : Gen LLValue} {κ : Kind} {f : Data → Option (Val × Data)}
    (h : p.Denotes T κ f) :
    p.Acts T read (fun v d => d.eval v) (fun v => v.ty.kind = κ) fun _ => f :=
  h.comap (fun _ => ()) fun _ => rfl

theorem isPointer_kind {t : LLType} : t.isPointer = true ↔ ∃ b, t.kind = .pointer b := by
  cases t <;> simp [LLType.isPointer, LLType.kind, LLType.isInteger, LLType.isStruct]

theorem acts_rowField {probe value : LLValue} {κ : Kind} (hκ : probe.ty.kind = κ) {h : γ → Val}
    (hread : ∀ d, d.eval value = h (read d)) :
    (rowField probe value).Acts T read (fun v d => d.eval v) (fun _ => True) fun x d =>
      d.field κ (h x) := by
  unfold rowField
  split_ifs with hp
  · obtain ⟨b, hb⟩ := isPointer_kind.mp hp
    obtain rfl := hκ.symm.trans hb
    exact ((acts_createLoad hread).weaken fun _ _ => trivial).congr fun _ _ => rfl
  · refine (acts_pure (P := fun _ => True) trivial hread).congr fun x d => ?_
    cases κ with
    | pointer b => exact absurd (isPointer_kind.mpr ⟨b, hκ⟩) hp
    | _ => rfl

theorem acts_createInsertValue {tag : Tag} {agg v : LLValue} {i : ℕ} {h h' : γ → Val}
    (hagg : ∀ d, d.eval agg = h (read d)) (hv : ∀ d, d.eval v = h' (read d)) :
    (createInsertValue tag agg v i).Acts T read (fun v d => d.eval v) (fun v => v.ty = agg.ty)
      fun x d => some (Val.insert agg.ty.arity i (h' x) (h x), d) := by
  refine (quietRules.require _ _).bindActs fun _ _ _ _ _ => ?_
  refine acts_emitResult (fun _ => rfl) (fun _ => rfl) fun r d => ?_
  simp [Instr.exec, Data.setReg, Data.bare, ← hagg, ← hv]

/-- Insert values one behind the other. -/
def Val.fill (n : ℕ) : ℕ → Val → List Val → Val
  | _, v, [] => v
  | i, v, w :: ws => Val.fill n (i+1) (Val.insert n i w v) ws

theorem Val.fill_agg {n : ℕ} (vs ws : List Val) (hn : vs.length+ws.length = n) :
    Val.fill n vs.length (.agg (vs ++ List.replicate ws.length Val.undef)) ws = .agg (vs ++ ws) := by
  induction ws generalizing vs with
  | nil => simp [fill]
  | cons w ws ih =>
    have hset : (vs ++ List.replicate (ws.length+1) Val.undef).set vs.length w =
        (vs ++ [w]) ++ List.replicate ws.length Val.undef := by
      rw [List.set_append_right _ _ le_rfl, Nat.sub_self, List.replicate_succ, List.set_cons_zero,
        List.append_assoc]
      rfl
    rw [List.length_cons, fill, insert, hset]
    have hih := ih (vs ++ [w]) (by simp at hn ⊢; omega)
    rw [List.length_append, List.length_singleton] at hih
    rw [hih, List.append_assoc]
    rfl

/-- Insert all the fields of a row. -/
theorem Val.fill_tuple (ws : List Val) : Val.fill ws.length 0 .undef ws = Val.tuple ws := by
  cases ws with
  | nil => rfl
  | cons w ws =>
    have hfill := Val.fill_agg (n := (w :: ws).length) [w] ws (by simp; omega)
    rw [List.length_singleton, List.singleton_append] at hfill
    have hset : insert (ws.length+1) 0 w .undef = .agg (w :: List.replicate ws.length .undef) := rfl
    rw [fill, List.length_cons, hset]
    exact hfill

theorem acts_rowElements {es : List Expression}
    (hes : ∀ e ∈ es, e.getValue.Denotes T (e.kind T) (e.evaluate T)) (i : ℕ) (prev : LLValue) :
    (rowElements es i prev).Acts T (fun d => d.eval prev) (fun v d => d.eval v)
      (fun v => v.ty = prev.ty) fun x d =>
        (evaluateRow T es d).map fun r => (Val.fill prev.ty.arity i x r.1, r.2) := by
  induction es generalizing i prev with
  | nil => exact acts_pure (h := fun x => x) rfl fun _ => rfl
  | cons e es ih =>
    rw [List.forall_mem_cons] at hes
    have hinsert : ∀ probe value field, (createInsertValue ⟨.rowLiteral, 0⟩ prev field i).Acts T
        (fun d => (((d.eval prev, d.eval probe), d.eval value), d.eval field)) (fun v d => d.eval v)
        (fun v => v.ty = prev.ty) fun x d =>
          some (Val.insert prev.ty.arity i x.2 x.1.1.1, d) :=
      fun _ _ _ => acts_createInsertValue (fun _ => rfl) fun _ => rfl
    have hfield : ∀ probe value, probe.ty.kind = e.kind T → (rowField probe value).Acts T
        (fun d => ((d.eval prev, d.eval probe), d.eval value)) (fun v d => d.eval v) (fun _ => True)
        fun x d => d.field (e.kind T) x.2 :=
      fun _ _ hκ => acts_rowField hκ fun _ => rfl
    have hrest : ∀ next, next.ty = prev.ty → (rowElements es (i+1) next).Acts T
        (fun d => d.eval next) (fun v d => d.eval v) (fun v => v.ty = prev.ty) fun x d =>
          (evaluateRow T es d).map fun r => (Val.fill prev.ty.arity (i+1) x r.1, r.2) := by
      intro next hnext
      have hih := ih hes.2 (i+1) next
      rwa [hnext] at hih
    refine (hes.1.reads.bind fun probe hprobe => hes.1.reads.bind fun value _ =>
      (hfield probe value hprobe).bind fun field _ => (hinsert probe value field).bind
        fun next hnext => (hrest next hnext).comap Prod.snd fun _ => rfl).congr fun x d => ?_
    simp only [evaluateRow, Option.bind_eq_bind, Option.map_eq_bind,
      Option.bind_assoc, Option.bind_some, Function.comp_def, Val.fill]

theorem acts_arrayElements {es : List Expression}
    (hes : ∀ e ∈ es, e.getValue.Denotes T (e.kind T) (e.evaluate T)) (i : ℕ) (prev : LLValue) :
    (arrayElements es i prev).Acts T (fun d => d.eval prev) (fun v d => d.eval v)
      (fun v => v.ty = prev.ty) fun x d =>
        (evaluateAll T es d).map fun r => (Val.fill prev.ty.arity i x r.1, r.2) := by
  induction es generalizing i prev with
  | nil => exact acts_pure (h := fun x => x) rfl fun _ => rfl
  | cons e es ih =>
    rw [List.forall_mem_cons] at hes
    have hinsert : ∀ value, (createInsertValue ⟨.arrayLiteral, 0⟩ prev value i).Acts T
        (fun d => (d.eval prev, d.eval value)) (fun v d => d.eval v) (fun v => v.ty = prev.ty)
        fun x d => some (Val.insert prev.ty.arity i x.2 x.1, d) :=
      fun _ => acts_createInsertValue (fun _ => rfl) fun _ => rfl
    have hrest : ∀ next, next.ty = prev.ty → (arrayElements es (i+1) next).Acts T
        (fun d => d.eval next) (fun v d => d.eval v) (fun v => v.ty = prev.ty) fun x d =>
          (evaluateAll T es d).map fun r => (Val.fill prev.ty.arity (i+1) x r.1, r.2) := by
      intro next hnext
      have hih := ih hes.2 (i+1) next
      rwa [hnext] at hih
    refine (hes.1.reads.bind fun value _ => (hinsert value).bind fun next hnext =>
      (hrest next hnext).comap Prod.snd fun _ => rfl).congr fun x d => ?_
    simp only [evaluateAll, Option.bind_eq_bind, Option.map_eq_bind, Option.bind_assoc,
      Option.bind_some, Function.comp_def, Val.fill]

/-- A struct is put into the slot that it was given. -/
theorem acts_spilled (stack : Option ℕ) (v : LLValue) : Gen.Acts T (fun d => d.eval v) (do
      let slot ← Gen.require .undefined stack
      let c ← Gen.get
      let ty ← Gen.require .undefined c.slots[slot]?
      createStore ⟨.argument, 0⟩ v (slotPtr slot ty)
      Pure.pure (slotPtr slot ty)) (fun v d => d.eval v) (fun _ => True)
      fun x d => d.pass .struct stack x := by
  refine (quietRules.require _ _).bindActs fun c s c' _ hstack => ?_
  obtain rfl := (require_eq_ok.mp hstack).1
  refine quietRules.get.bindActs fun _ c _ _ _ => (quietRules.require _ _).bindActs fun _ ty _ _ _ => ?_
  have hstore : (createStore ⟨.argument, 0⟩ v (slotPtr s ty)).Acts T (fun d => d.eval v)
      (fun _ _ => ()) (fun _ => True) fun x d =>
        (d.store ⟨.argument, 0⟩ x (.ptr s [])).map fun d => ((), d) :=
    acts_createStore (fun _ => rfl) fun _ => rfl
  have hpure : (Pure.pure (slotPtr s ty) : Gen LLValue).Acts T (fun d => (d.eval v, ()))
      (fun v d => d.eval v) (fun _ => True) fun _ d => some (.ptr s [], d) :=
    acts_pure trivial fun _ => rfl
  exact (hstore.bind fun _ _ => hpure).congr fun _ _ => rfl

theorem acts_passArgument {v : LLValue} {κ : Kind} (hκ : v.ty.kind = κ) (stack : Option ℕ) :
    (passArgument stack v).Acts T (fun d => d.eval v) (fun v d => d.eval v) (fun _ => True)
      fun x d => d.pass κ stack x := by
  subst hκ
  have hpure : (Pure.pure v : Gen LLValue).Acts T (fun d => d.eval v) (fun v d => d.eval v)
      (fun _ => True) fun x d => some (x, d) := acts_pure trivial fun _ => rfl
  have hload : (createLoad v).Acts T (fun d => d.eval v) (fun v d => d.eval v) (fun _ => True)
      fun x d => d.deref x :=
    (acts_createLoad (h := fun x => x) fun _ => rfl).weaken fun _ _ => trivial
  have hstruct := acts_spilled (T := T) stack v
  cases hty : v.ty with
  | ptr t =>
    simp only [passArgument, hty, LLType.kind]
    split_ifs with ht
    · rw [ht]
      exact hload
    · rw [Bool.not_eq_true] at ht
      rw [ht]
      exact hpure
  | i1 | i8 | i32 | i64 =>
    simp only [passArgument, hty]
    exact hpure
  | string | row ts | scanRow i ts =>
    simp only [passArgument, hty]
    exact hstruct
  | _ =>
    simp only [passArgument, hty]
    exact acts_fail

theorem acts_getArgs {es : List Expression}
    (hes : ∀ e ∈ es, e.getValue.Denotes T (e.kind T) (e.evaluate T)) :
    (getArgs es).Acts T read (fun vs d => vs.map d.eval) (fun _ => True) fun _ => evaluateArgs T es := by
  induction es with
  | nil => exact (acts_pure (h := fun _ => []) trivial fun _ => rfl).congr fun _ _ => rfl
  | cons e es ih =>
    rw [List.forall_mem_cons] at hes
    have hpass : ∀ value, value.ty.kind = e.kind T → (passArgument e.note.stack value).Acts T
        (fun d => (read d, d.eval value)) (fun v d => d.eval v) (fun _ => True)
        fun x d => d.pass (e.kind T) e.note.stack x.2 :=
      fun value hκ => (acts_passArgument hκ e.note.stack).comap Prod.snd fun _ => rfl
    have hrest : ∀ value arg : LLValue, (getArgs es).Acts T
        (fun d => ((read d, d.eval value), d.eval arg)) (fun vs d => vs.map d.eval) (fun _ => True)
        fun _ => evaluateArgs T es :=
      fun _ _ => (ih hes.2).comap (fun x => x.1.1) fun _ => rfl
    have hcons : ∀ (value arg : LLValue) (args : List LLValue),
        (Pure.pure (arg :: args) : Gen (List LLValue)).Acts T
          (fun d => (((read d, d.eval value), d.eval arg), args.map d.eval)) (fun vs d => vs.map d.eval)
          (fun _ => True) fun x d => some (x.1.2 :: x.2, d) :=
      fun _ _ _ => acts_pure trivial fun _ => rfl
    refine (hes.1.reads.bind fun value hκ => (hpass value hκ).bind fun arg _ =>
      (hrest value arg).bind fun args _ => hcons value arg args).congr fun x d => ?_
    simp only [evaluateArgs, Option.bind_eq_bind]

end

section
variable {T : Ctx}

theorem plainAll_iff {es : List Expression} : plainAll es = true ↔ ∀ e ∈ es, e.plain = true := by
  induction es with
  | nil => simp [plainAll]
  | cons e es ih => simp [plainAll, ih]

theorem getTypes_length {es : List Expression} {ts : List LLType} {c c' : Ctx}
    (h : (getTypes es).run c = .ok (ts, c')) : ts.length = es.length := by
  induction es generalizing ts c c' with
  | nil =>
    obtain ⟨rfl, -⟩ := pure_eq_ok.mp h
    rfl
  | cons e es ih =>
    obtain ⟨t, c₁, -, h⟩ := bind_eq_ok.mp h
    obtain ⟨ts', c₂, hts, h⟩ := bind_eq_ok.mp h
    obtain ⟨rfl, -⟩ := pure_eq_ok.mp h
    exact congrArg (·+1) (ih hts)

theorem evaluateRow_length {es : List Expression} {d d' : Data} {vs : List Val}
    (h : evaluateRow T es d = some (vs, d')) : vs.length = es.length := by
  induction es generalizing d d' vs with
  | nil =>
    obtain ⟨rfl, -⟩ := Prod.mk.inj (Option.some.inj h)
    rfl
  | cons e es ih =>
    simp only [evaluateRow, Option.bind_eq_bind, Option.bind_eq_some_iff] at h
    obtain ⟨r, -, v, -, w, -, ⟨ws, d₁⟩, hws, h⟩ := h
    obtain ⟨rfl, -⟩ := Prod.mk.inj (Option.some.inj h)
    exact congrArg (·+1) (ih hws)

theorem evaluateAll_length {es : List Expression} {d d' : Data} {vs : List Val}
    (h : evaluateAll T es d = some (vs, d')) : vs.length = es.length := by
  induction es generalizing d d' vs with
  | nil =>
    obtain ⟨rfl, -⟩ := Prod.mk.inj (Option.some.inj h)
    rfl
  | cons e es ih =>
    simp only [evaluateAll, Option.bind_eq_bind, Option.bind_eq_some_iff] at h
    obtain ⟨r, -, ⟨ws, d₁⟩, hws, h⟩ := h
    obtain ⟨rfl, -⟩ := Prod.mk.inj (Option.some.inj h)
    exact congrArg (·+1) (ih hws)

/-- The slot of a variable, and the kind of its contents. -/
theorem findVar_slot {x : Text} {v : LLValue} {c c' : Ctx} (hT : c.tables = T)
    (h : (findVar x).run c = .ok (v, c')) : ∃ i t, (T.vars x).join = some i ∧
      T.typeEnv.slot x = some t ∧ v = slotPtr i t := by
  subst hT
  simp only [findVar, bind_eq_ok, get_eq_ok, require_eq_ok, pure_eq_ok] at h
  obtain ⟨_, _, ⟨rfl, rfl⟩, entry, _, ⟨hentry, rfl⟩, i, _, ⟨rfl, rfl⟩, t, _, ⟨ht, rfl⟩, rfl, rfl⟩ := h
  have hjoin : (c.vars x).join = some i := by rw [hentry, Option.join_some]
  refine ⟨i, t, hjoin, ?_, rfl⟩
  change (c.vars x).join.bind _ = _
  rw [hjoin]
  exact ht

theorem denotes_literal (n : Note) (v : MaybeValue) : (Expression.primary n v).getValue.Denotes T
    ((Expression.primary n v).kind T) ((Expression.primary n v).evaluate T) := by
  cases v with
  | none =>
    change (Pure.pure ⟨.int8 0, .i8⟩ : Gen LLValue).Denotes T _ _
    exact acts_pure (h := fun _ => Val.byte 0) rfl fun _ => rfl
  | some w =>
    cases w with
    | int v =>
      change (Pure.pure (int64 v) : Gen LLValue).Denotes T _ _
      exact acts_pure (h := fun _ => Val.int v) rfl fun _ => rfl
    | varchar s =>
      refine quietRules.stringType.bindActs fun c t c' hT ht => ?_
      have hstring : T.types (text "string") = some t := by
        subst hT
        exact (stringType_eq_ok.mp ht).1
      refine acts_pure (h := fun _ => Val.text s) ?_ fun _ => rfl
      simp [Expression.kind, hstring]
    | float v => exact acts_fail
    | unknown => exact acts_fail

theorem denotes_variable (n : Note) (x : Text) :
    (Expression.variable n x).getValue.Denotes T ((Expression.variable n x).kind T)
      ((Expression.variable n x).evaluate T) := by
  refine (quietRules.findVar x).bindActs fun c p c' hT hp => ?_
  obtain ⟨i, t, hi, ht, rfl⟩ := findVar_slot hT hp
  have hload : (createLoad (slotPtr i t)).Acts T (fun _ => ()) (fun v d => d.eval v)
      (fun v => (slotPtr i t).ty = .ptr v.ty) fun _ d => d.deref (.ptr i []) :=
    acts_createLoad fun _ => rfl
  refine (hload.weaken fun v hv => ?_).congr fun _ d => ?_
  · obtain rfl := LLType.ptr.inj hv
    simp [Expression.kind, ht]
  · simp only [Expression.evaluate, hi]
    rfl

theorem denotes_assign {v : Expression} (hv : v.getValue.Denotes T (v.kind T) (v.evaluate T))
    (n m : Note) (x : Text) :
    (Expression.assign n (.variable m x) v).getValue.Denotes T
      ((Expression.assign n (.variable m x) v).kind T)
      ((Expression.assign n (.variable m x) v).evaluate T) := by
  refine (quietRules.findVar x).bindActs fun c p c' hT hp => ?_
  obtain ⟨i, t, hi, ht, rfl⟩ := findVar_slot hT hp
  have hstore : ∀ value, (createStore ⟨.assign, n.node⟩ value (slotPtr i t)).Acts T
      (fun d => ((), d.eval value)) (fun _ _ => ()) (fun _ => True) fun x d =>
        (d.store ⟨.assign, n.node⟩ x.2 (.ptr i [])).map fun d => ((), d) :=
    fun _ => acts_createStore (fun _ => rfl) fun _ => rfl
  have hload : ∀ value : LLValue, (createLoad (slotPtr i t)).Acts T
      (fun d => (((), d.eval value), ())) (fun v d => d.eval v)
      (fun v => (slotPtr i t).ty = .ptr v.ty) fun _ d => d.deref (.ptr i []) :=
    fun _ => acts_createLoad fun _ => rfl
  refine ((hv.bind fun value _ => (hstore value).bind fun _ _ => hload value).weaken
    fun w hw => ?_).congr fun _ d => ?_
  · obtain rfl := LLType.ptr.inj hw
    simp [Expression.kind, ht]
  · simp only [Expression.evaluate, hi]
    cases v.evaluate T d with
    | none => rfl
    | some r =>
      simp [Data.store, Val.isAddress, Data.deref, Data.put, Val.set, Data.fetch, Val.get,
        Data.setMem, Data.note, Val.slot]

theorem denotes_functionCall {as : List Expression}
    (has : ∀ e ∈ as, e.getValue.Denotes T (e.kind T) (e.evaluate T)) (n m : Note) (f : Text) :
    (Expression.functionCall n (.variable m f) as).getValue.Denotes T
      ((Expression.functionCall n (.variable m f) as).kind T)
      ((Expression.functionCall n (.variable m f) as).evaluate T) := by
  refine (quietRules.calleeName _).bindActs fun c g c' _ hg => ?_
  obtain ⟨rfl, -⟩ := pure_eq_ok.mp hg
  refine (quietRules.require _ _).bindActs fun c ty c' _ hty => ?_
  have htype := (require_eq_ok.mp hty).1
  have hcall : ∀ vs, (createCall ⟨.functionCall, n.node⟩ f vs).Acts T
      (fun d => ((), vs.map d.eval)) (fun v d => d.eval v) (fun v => v.ty = ty) fun x d =>
        some (d.result f, (d.call 0 ⟨.functionCall, n.node⟩ f x.2).bare) := by
    intro vs
    refine (quietRules.require _ _).bindActs fun c ty' c' _ hty' => ?_
    obtain rfl := Option.some.inj (htype.symm.trans (require_eq_ok.mp hty').1)
    refine acts_emitResult (fun _ => rfl) (fun _ => rfl) fun r d => ?_
    simp [Instr.exec, Data.call_regs, d.bare_call r 0]
  refine (((acts_getArgs has).bind fun vs _ => hcall vs).weaken fun v hv => ?_).congr fun _ d => ?_
  · rw [hv]
    simp [Expression.kind, calleeType, htype]
  · simp only [Expression.evaluate, Option.bind_eq_bind]

theorem denotes_rowLiteral {es : List Expression}
    (hes : ∀ e ∈ es, e.getValue.Denotes T (e.kind T) (e.evaluate T)) (n : Note) :
    (Expression.rowLiteral n es).getValue.Denotes T ((Expression.rowLiteral n es).kind T)
      ((Expression.rowLiteral n es).evaluate T) := by
  refine (quietRules.getTypes es).bindActs fun c ts c' _ hts => ?_
  refine (quietRules.requireRow ts).bindActs fun _ t _ _ ht => ?_
  obtain ⟨-, rfl, -⟩ := requireRow_eq_ok.mp ht
  have hlength := getTypes_length hts
  have hrow := (acts_rowElements hes 0 ⟨.undef, .row ts⟩).const (x := .undef) fun _ => rfl
  refine (hrow.weaken fun v hv => by rw [hv]; rfl).congr fun _ d => ?_
  simp only [Expression.evaluate, Option.bind_eq_bind]
  cases hrun : evaluateRow T es d with
  | none => rfl
  | some r =>
    have harity : (LLType.row ts).arity = r.1.length := hlength.trans (evaluateRow_length hrun).symm
    simp only [Option.map_some, Option.bind_some, harity, Val.fill_tuple]

theorem arrayLiteralType_eq_ok {es : List Expression} {t : LLType} {c c' : Ctx}
    (h : (arrayLiteralType es).run c = .ok (t, c')) : ∃ u, t = .array u es.length := by
  cases es with
  | nil => exact absurd h (by simp [arrayLiteralType, Expression.getType])
  | cons e es =>
    obtain ⟨u, c₁, -, h⟩ := bind_eq_ok.mp h
    obtain ⟨rfl, -⟩ := pure_eq_ok.mp h
    exact ⟨u, rfl⟩

theorem denotes_arrayLiteral {es : List Expression}
    (hes : ∀ e ∈ es, e.getValue.Denotes T (e.kind T) (e.evaluate T)) (n : Note) :
    (Expression.arrayLiteral n es).getValue.Denotes T ((Expression.arrayLiteral n es).kind T)
      ((Expression.arrayLiteral n es).evaluate T) := by
  refine (quietRules.getType _).bindActs fun c t c' _ ht => ?_
  obtain ⟨u, rfl⟩ := arrayLiteralType_eq_ok ht
  have hall := (acts_arrayElements hes 0 ⟨.undef, .array u es.length⟩).const (x := .undef) fun _ => rfl
  refine (hall.weaken fun v hv => by rw [hv]; rfl).congr fun _ d => ?_
  simp only [Expression.evaluate, Option.bind_eq_bind]
  cases hrun : evaluateAll T es d with
  | none => rfl
  | some r =>
    have harity : (LLType.array u es.length).arity = r.1.length := (evaluateAll_length hrun).symm
    simp only [Option.map_some, Option.bind_some, harity, Val.fill_tuple]

theorem evaluate_strict {op : Operators} (hand : op ≠ .conditionalAnd) (hor : op ≠ .conditionalOr)
    (n : Note) (l r : Expression) (d : Data) : (Expression.binary n l op r).evaluate T d =
      (l.evaluate T d).bind fun a => (r.evaluate T a.2).bind fun b =>
        (op.apply a.1 b.1).map fun v => (v, b.2) := by
  cases op with
  | conditionalAnd => exact absurd rfl hand
  | conditionalOr => exact absurd rfl hor
  | _ =>
    simp only [Expression.evaluate, Option.bind_eq_bind, Option.map_eq_bind]
    rfl

/-- The code of an expression computes what its evaluation gives. -/
theorem Expression.denotes {e : Expression} (he : e.plain = true) :
    e.getValue.Denotes T (e.kind T) (e.evaluate T) := by
  induction e using Expression.induction with
  | primary n v => exact denotes_literal n v
  | binary n l op r hl hr =>
    obtain ⟨hpl, hpr⟩ := Bool.and_eq_true_iff.mp he
    have hstrict : op ≠ .conditionalAnd → op ≠ .conditionalOr → (do
        let lh ← l.getValue
        let rh ← r.getValue
        strictOperator op lh rh).Denotes T (if op.isArithmetic then l.kind T else .bit) fun d =>
          (l.evaluate T d).bind fun a => (r.evaluate T a.2).bind fun b =>
            (op.apply a.1 b.1).map fun v => (v, b.2) := by
      intro _ _
      exact ((hl hpl).bind fun lh hlh => (hr hpr).reads.bind fun rh _ =>
        acts_strictOperator hlh).congr fun _ _ => rfl
    cases op with
    | conditionalAnd => exact denotes_conditionalValue (hl hpl).bit (hr hpr).bit
    | conditionalOr => exact denotes_conditionalValue (hl hpl).bit (hr hpr).bit
    | _ =>
      exact (hstrict (by simp) (by simp)).congr fun _ d =>
        (evaluate_strict (by simp) (by simp) n l r d).symm
  | rowLiteral n es hes =>
    exact denotes_rowLiteral (fun e h => hes e h (plainAll_iff.mp he e h)) n
  | arrayLiteral n es hes =>
    exact denotes_arrayLiteral (fun e h => hes e h (plainAll_iff.mp he e h)) n
  | variableRef n x => exact denotes_variable n x
  | functionCall n p as _ has =>
    obtain ⟨hp, has'⟩ := Bool.and_eq_true_iff.mp he
    cases p with
    | «variable» m f => exact denotes_functionCall (fun e h => has e h (plainAll_iff.mp has' e h)) n m f
    | _ => exact absurd hp (by simp [Expression.asVariable])
  | assign n t v _ hv =>
    obtain ⟨ht, hv'⟩ := Bool.and_eq_true_iff.mp he
    cases t with
    | «variable» m x => exact denotes_assign (hv hv') n m x
    | _ => exact absurd ht (by simp [Expression.asVariable])
  | pointerOf n t _ => exact absurd he (by simp [Expression.plain])
  | arrayReference n p i _ _ => exact absurd he (by simp [Expression.plain])
  | memberReference n p x o _ => exact absurd he (by simp [Expression.plain])

end

/-- The machine comes from the insert point before the code of a step to the one behind it. -/
def CodeRun (c c' : Ctx) (d d' : Data) : Prop :=
  ∃ n s s', s.At c.point ∧ s'.At c'.point ∧ machine.Run c'.graph.code n s s' ∧ s.data = d ∧ s'.data = d'

/-- Nothing has been emitted at the insert point, where the run ends. -/
theorem Laid.exec {c c' : Ctx} {k : Code Instr Cond} {d d' : Data} (h : Laid false c c' k)
    (hrun : CodeRun c c' d d') : Exec machine k d .normal d' := by
  obtain ⟨n, s, s', hs, hs', hrun, rfl, rfl⟩ := hrun
  have hend : ∀ t : State Data, t.At c'.point → Blocks.get c'.graph.code t.point = none := by
    rintro t ⟨hblock, hpc⟩
    rw [State.point, hblock, hpc]
    simp [Blocks.get, Ctx.point]
  have hfollow := (h.layout c'.graph (Grows.refl _)).follow hs hrun
  rcases hfollow with ⟨-, i, hi, -⟩ | ⟨m, -, x, t, he, hx, hrest⟩
  · rw [hend s' hs'] at hi
    simp at hi
  · cases x with
    | normal =>
      cases hrest with
      | zero => exact he
      | succ hstep _ =>
        rw [Lang.step, hend t hx] at hstep
        simp at hstep
    | brk => simp [AtExit, Ctx.exits] at hx
    | cont => simp [AtExit, Ctx.exits] at hx
    | running => exact absurd hx (by simp [AtExit])

end Reir
