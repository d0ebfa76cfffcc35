import Reir.CodegenRules
import Reir.StructuredCode

/-! The machine that generated code runs on. A stack slot holds one value; the bytes of the key and
value areas are not interpreted, so that a load from among them gives any value. What outside code
answers comes with the data, one answer for each event. -/
namespace Reir
open StructuredCode

/-- An address is a slot and the fields on the way into its value, or is somewhere among the bytes
of a slot. -/
inductive Val
  | int (v : BitVec 64)
  | bool (b : Bool)
  | byte (v : BitVec 8)
  | word (v : BitVec 32)
  | text (s : Text)
  | ptr (slot : ℕ) (path : List ℕ)
  | bytes (slot : ℕ)
  | global (s : Text)
  | host
  | heap (n : ℕ)
  | cursor (n : ℕ)
  | agg (fields : List Val)
  | undef

namespace Val

/-- The part of a value at the end of a path. -/
def get : List ℕ → Val → Option Val
  | [], v => some v
  | i :: path, .agg vs => vs[i]?.bind (get path)
  | _, _ => none

/-- Replace the part at the end of a path; what has no such part is lost. -/
def set (x : Val) : List ℕ → Val → Val
  | [], _ => x
  | i :: path, .agg vs => .agg (vs.modify i (set x path))
  | _, _ => Val.undef

/-- `insertvalue` into an aggregate with `n` parts. -/
def insert (n i : ℕ) (x : Val) : Val → Val
  | .agg vs => .agg (vs.set i x)
  | _ => .agg ((List.replicate n .undef).set i x)

/-- The slot that an address lies in. -/
def slot : Val → Option ℕ
  | .ptr s _ => some s
  | .bytes s => some s
  | _ => none

def isAddress : Val → Bool
  | .ptr _ _ => true
  | .bytes _ => true
  | .global _ => true
  | .host => true
  | .heap _ => true
  | .cursor _ => true
  | _ => false

def index : Val → Option ℕ
  | .int v => some v.toNat
  | .word v => some v.toNat
  | _ => none

/-- `getelementptr`. A single index counts bytes. -/
def offset (indices : List Val) : Val → Val
  | .ptr s path =>
    match indices with
    | _ :: i :: rest =>
      match (i :: rest).mapM index with
      | some is => .ptr s (path ++ is)
      | none => .bytes s
    | _ => .bytes s
  | v => v

end Val

/-- Division by zero and the quotient that does not fit have no result. -/
def BinOp.apply : BinOp → Val → Val → Option Val
  | .add, .int a, .int b => some (.int (a+b))
  | .sub, .int a, .int b => some (.int (a-b))
  | .mul, .int a, .int b => some (.int (a*b))
  | .sdiv, .int a, .int b =>
    if b = 0 ∨ a = BitVec.intMin 64 ∧ b = -1 then none else some (.int (a.sdiv b))
  | .srem, .int a, .int b =>
    if b = 0 ∨ a = BitVec.intMin 64 ∧ b = -1 then none else some (.int (a.srem b))
  | _, _, _ => some .undef

def Pred.holds {n : ℕ} (p : Pred) (a b : BitVec n) : Bool :=
  match p with
  | .eq => a == b
  | .ne => a != b
  | .slt => a.slt b
  | .sle => a.sle b
  | .sgt => b.slt a
  | .sge => b.sle a

def Pred.apply (p : Pred) : Val → Val → Val
  | .int a, .int b => .bool (p.holds a b)
  | .bool a, .bool b => .bool (p.holds (BitVec.ofBool a) (BitVec.ofBool b))
  | _, _ => Val.undef

/-- What a run has done, in order. A load or a store names its slot if its address lies in one. A
call has its arguments, what they point to, and its result. -/
inductive Event
  | load (slot : Option ℕ)
  | store (tag : Tag) (slot : Option ℕ)
  | write (slot : Option ℕ)
  | branch (tag : Tag) (b : Bool)
  | call (tag : Tag) (func : Text) (args behind : List Val) (result : Val)

structure Data where
  regs : ℕ → Val
  mem : ℕ → Val
  answers : ℕ → BitVec 64
  trace : List Event

def LLType.arity : LLType → ℕ
  | .array _ n => n
  | t => (t.fields.getD []).length

namespace Data

def note (d : Data) (e : Event) : Data := { d with trace := d.trace ++ [e] }

def setReg (d : Data) (r : ℕ) (v : Val) : Data := { d with regs := Function.update d.regs r v }

def setMem (d : Data) (s : ℕ) (v : Val) : Data := { d with mem := Function.update d.mem s v }

/-- The answer of outside code to the next event. -/
def answer (d : Data) : BitVec 64 := d.answers d.trace.length

def eval (d : Data) (v : LLValue) : Val :=
  match v.op with
  | .int v => .int v
  | .bool b => .bool b
  | .int8 v => .byte v
  | .int32 v => .word v
  | .text s => .text s
  | .undef => .undef
  | .slot i => .ptr i []
  | .global s => .global s
  | .host => .host
  | .reg r => d.regs r

/-- The contents of memory at an address. -/
def fetch (d : Data) : Val → Val
  | .ptr s path => ((d.mem s).get path).getD (.int d.answer)
  | _ => .int d.answer

def load (d : Data) (r : ℕ) (p : Val) : Option Data :=
  if p.isAddress then some ((d.note (.load p.slot)).setReg r (d.fetch p)) else none

/-- Overwrite memory at an address with a value, or lose what a slot holds. -/
def put (d : Data) (x : Val) : Val → Data
  | .ptr s path => d.setMem s (Val.set x path (d.mem s))
  | .bytes s => d.setMem s .undef
  | _ => d

def store (d : Data) (tag : Tag) (x p : Val) : Option Data :=
  if p.isAddress then some ((d.put x p).note (.store tag p.slot)) else none

/-- Outside code, or a copy of bytes, writes into a slot. -/
def scribble (d : Data) (p : Val) : Data :=
  match p.slot with
  | some s => (d.setMem s .undef).note (.write p.slot)
  | none => d.note (.write p.slot)

/-- What a call returns; a cursor is told apart from all others by the time of its creation. -/
def result (d : Data) (f : Text) : Val :=
  match functionType f with
  | some .i1 => .bool (d.answer.getLsbD 0)
  | some .i64 => .int d.answer
  | some (.ptr _) => if f = text "__get_cursor" then .cursor d.trace.length else .heap d.trace.length
  | _ => Val.undef

/-- The value that an argument points to, or the argument itself. -/
def behind (d : Data) (v : Val) : Val :=
  match v with
  | .ptr _ _ => d.fetch v
  | v => v

/-- The functions that write through their second argument. -/
def writesBuffer (f : Text) : Bool :=
  f == text "__cursor_copy_key" || f == text "__cursor_copy_value"

def call (d : Data) (r : ℕ) (tag : Tag) (f : Text) (args : List Val) : Data :=
  let d' := (d.note (.call tag f args (args.map d.behind) (d.result f))).setReg r (d.result f)
  match writesBuffer f, args[1]? with
  | true, some p => d'.scribble p
  | _, _ => d'

end Data

/-- A condition and the construct it was emitted for. -/
abbrev Cond := Tag × LLValue

def Instr.exec (i : Instr) (d : Data) : Option Data :=
  match i with
  | .alloca _ => some d
  | .binary r op a b => (op.apply (d.eval a) (d.eval b)).map (d.setReg r)
  | .icmp r p a b => some (d.setReg r (p.apply (d.eval a) (d.eval b)))
  | .load r p => d.load r (d.eval p)
  | .store tag v p => d.store tag (d.eval v) (d.eval p)
  | .gep r base indices => some (d.setReg r ((d.eval base).offset (indices.map d.eval)))
  | .bitcast r v => some (d.setReg r (d.eval v))
  | .insertValue r _ agg v i =>
    some (d.setReg r (Val.insert agg.ty.arity i (d.eval v) (d.eval agg)))
  | .call r tag f args => some (d.call r tag f (args.map d.eval))
  | .memcpy dst src _ => some ((d.note (.load (d.eval src).slot)).scribble (d.eval dst))
  | _ => none

/-- A branch on what is no truth value is undefined. -/
def Cond.test (v : Cond) (d : Data) : Option (Bool × Data) :=
  match d.eval v.2 with
  | .bool b => some (b, d.note (.branch v.1 b))
  | _ => none

/-- A phi node copies the value for the block the machine came from. A jump of the program is noted
in the trace, as a branch to its one target. -/
def Instr.view : Instr → View Instr Cond
  | .br ⟨.jump fs, n⟩ t => .condBr (⟨.jump fs, n⟩, int1 true) t t
  | .br _ t => .br t
  | .condBr tag v t f => .condBr (tag, v) t f
  | .ret _ => .ret
  | .phi r incoming =>
    .phi fun prev => (incoming.find? fun v => v.2 == prev).map fun v => .bitcast r v.1
  | _ => .plain

def machine : Lang Instr Cond Data where
  view := Instr.view
  exec := Instr.exec
  test := Cond.test

@[simp] theorem Data.put_regs (d : Data) (x p : Val) : (d.put x p).regs = d.regs := by
  cases p <;> rfl

@[simp] theorem Data.scribble_regs (d : Data) (p : Val) : (d.scribble p).regs = d.regs := by
  unfold Data.scribble
  split <;> rfl

theorem Data.call_regs (d : Data) (r : ℕ) (tag : Tag) (f : Text) (args : List Val) :
    (d.call r tag f args).regs = Function.update d.regs r (d.result f) := by
  unfold Data.call
  dsimp only
  split
  · rw [Data.scribble_regs]
    rfl
  · rfl

/-- A call is one event, unless the function writes into a buffer. -/
theorem Data.call_trace (d : Data) (r : ℕ) (tag : Tag) {f : Text} (args : List Val)
    (hf : Data.writesBuffer f = false) :
    (d.call r tag f args).trace = d.trace ++ [.call tag f args (args.map d.behind) (d.result f)] := by
  unfold Data.call
  rw [hf]
  rfl

/-- A function that writes into a buffer has done so behind the call. -/
theorem Data.call_trace_append (d : Data) (r : ℕ) (tag : Tag) (f : Text) (args : List Val) :
    ∃ ws, (d.call r tag f args).trace =
        d.trace ++ [.call tag f args (args.map d.behind) (d.result f)] ++ ws ∧
      ∀ e ∈ ws, ∃ s, e = .write s := by
  unfold Data.call
  dsimp only
  split
  case h_1 p _ _ =>
    refine ⟨[.write p.slot], ?_, by simp⟩
    unfold Data.scribble
    split <;> rfl
  case h_2 => exact ⟨[], (List.append_nil _).symm, by simp⟩

/-- An instruction sets its own register only. -/
theorem exec_regs {i : Instr} {d d' : Data} (h : i.exec d = some d') {r : ℕ} (hr : r ∉ i.dst) :
    d'.regs r = d.regs r := by
  have hset : ∀ (e : Data) (s : ℕ) (v : Val), r ≠ s → (e.setReg s v).regs r = e.regs r := by
    intro e s v hne
    simp [Data.setReg, hne]
  cases i with
  | alloca s =>
    obtain rfl := Option.some.inj h
    rfl
  | binary s op a b =>
    obtain ⟨v, -, rfl⟩ := Option.map_eq_some_iff.mp h
    exact hset _ _ _ fun heq => hr (by simp [Instr.dst, heq])
  | load s p =>
    simp only [Instr.exec, Data.load, Option.ite_none_right_eq_some] at h
    obtain ⟨-, h⟩ := h
    obtain rfl := Option.some.inj h
    exact hset _ _ _ fun heq => hr (by simp [Instr.dst, heq])
  | store tag v p =>
    simp only [Instr.exec, Data.store, Option.ite_none_right_eq_some] at h
    obtain ⟨-, h⟩ := h
    obtain rfl := Option.some.inj h
    exact congrFun (Data.put_regs d _ _) r
  | call s tag f args =>
    obtain rfl := Option.some.inj h
    rw [Data.call_regs]
    exact Function.update_of_ne (fun heq => hr (by simp [Instr.dst, heq])) _ _
  | memcpy dst src n =>
    obtain rfl := Option.some.inj h
    rw [Data.scribble_regs]
    rfl
  | icmp s p a b =>
    obtain rfl := Option.some.inj h
    exact hset _ _ _ fun heq => hr (by simp [Instr.dst, heq])
  | gep s base indices =>
    obtain rfl := Option.some.inj h
    exact hset _ _ _ fun heq => hr (by simp [Instr.dst, heq])
  | bitcast s v =>
    obtain rfl := Option.some.inj h
    exact hset _ _ _ fun heq => hr (by simp [Instr.dst, heq])
  | insertValue s tag agg v n =>
    obtain rfl := Option.some.inj h
    exact hset _ _ _ fun heq => hr (by simp [Instr.dst, heq])
  | phi s incoming => exact absurd h (by simp [Instr.exec])
  | br tag t => exact absurd h (by simp [Instr.exec])
  | condBr tag v t f => exact absurd h (by simp [Instr.exec])
  | ret v => exact absurd h (by simp [Instr.exec])

theorem test_eq_some {v : Cond} {d d' : Data} {b : Bool} (h : v.test d = some (b, d')) :
    d.eval v.2 = .bool b ∧ d' = d.note (.branch v.1 b) := by
  unfold Cond.test at h
  split at h
  case h_1 b' heval =>
    obtain ⟨rfl, rfl⟩ := Prod.mk.inj (Option.some.inj h)
    exact ⟨heval, rfl⟩
  case h_2 => exact absurd h (by simp)

end Reir
