import Reir.CodegenRules
import Reir.RowStore

/-! `Insert` and `Scan` on bytes. The code that both emit for one record has no jumps; it is run here on
the areas of bytes that its addresses lead into. -/
namespace Reir
open Gen ByteMemory

/-- What a register holds: an address in an area, a global text, a word, or a row of words, of which the
fields that were not inserted are undefined. -/
inductive Item
  | unknown
  | addr (area off : ℕ)
  | chars (s : Text)
  | word (v : BitVec 64)
  | row (fields : ℕ → Option (BitVec 64))

/-- The registers, the areas, the record that the cursor stands on and the records that `__insert` has
been given so far. -/
structure Bytes where
  regs : ℕ → Item
  area : ℕ → Memory
  current : Text × Text
  inserted : List (Text × Text)

namespace Bytes

def setReg (d : Bytes) (r : ℕ) (x : Item) : Bytes := { d with regs := Function.update d.regs r x }

def setArea (d : Bytes) (s : ℕ) (m : Memory) : Bytes := { d with area := Function.update d.area s m }

def eval (d : Bytes) (v : LLValue) : Item :=
  match v.op with
  | .int v => .word v
  | .slot i => .addr i 0
  | .reg r => d.regs r
  | .global s => .chars s
  | .undef => .row fun _ => none
  | _ => .unknown

/-- The calls that move a record: `__insert` is given one, and the two copies of a cursor write the key
and the value of the current one. -/
def host (d : Bytes) (f : Text) (args : List Item) : Option Bytes :=
  if f = text "__insert" then
    match args with
    | [_, .addr k ko, .word kn, .addr v vo, .word vn] =>
      some { d with inserted :=
        d.inserted ++ [(read (d.area k) ko kn.toNat, read (d.area v) vo vn.toNat)] }
    | _ => none
  else if f = text "__cursor_copy_key" then
    match args with
    | [_, .addr s o] => some (d.setArea s (write (d.area s) o d.current.1))
    | _ => none
  else if f = text "__cursor_copy_value" then
    match args with
    | [_, .addr s o] => some (d.setArea s (write (d.area s) o d.current.2))
    | _ => none
  else none

end Bytes

/-- A constant index; indices are signed. -/
def constIndex (v : LLValue) : Option ℕ :=
  match v.op with
  | .int32 v => if v.msb then none else some v.toNat
  | .int v => if v.msb then none else some v.toNat
  | _ => none

/-- The bytes that indices lead over: from a pointer to bytes directly, from a pointer to an array of
bytes behind the index of the array. -/
def byteOffset : LLType → List LLValue → Option ℕ
  | .ptr .i8, [i] => constIndex i
  | .ptr (.array .i8 _), [z, i] => if constIndex z = some 0 then constIndex i else none
  | _, _ => none

/-- The words of a row of a type without padding. -/
def rowWords (t : LLType) (f : ℕ → Option (BitVec 64)) : Option (List (BitVec 64)) :=
  match t.fields with
  | some ts => if ts.all (· = .i64) then (List.range ts.length).mapM f else none
  | none => none

/-- An instruction that addresses, copies, loads, stores, assembles or calls the host. -/
def Instr.move (i : Instr) (d : Bytes) : Option Bytes :=
  match i with
  | .gep r base is =>
    match d.eval base, byteOffset base.ty is with
    | .addr s o, some k => some (d.setReg r (.addr s (k+o)))
    | _, _ => none
  | .bitcast r v => some (d.setReg r (d.eval v))
  | .load r p =>
    match d.eval p, p.ty with
    | .addr s o, .ptr .i64 => some (d.setReg r (.word (wordOf (read (d.area s) o 8))))
    | _, _ => none
  | .store _ v p =>
    match d.eval v, d.eval p with
    | .row f, .addr s o =>
      (rowWords v.ty f).map fun ws => d.setArea s (write (d.area s) o (ws.flatMap wordBytes))
    | _, _ => none
  | .insertValue r _ agg v i =>
    match d.eval agg, d.eval v with
    | .row f, .word w => some (d.setReg r (.row (Function.update f i (some w))))
    | _, _ => none
  | .memcpy dst src n =>
    match d.eval dst, d.eval src with
    | .addr s o, .addr s' o' => some (d.setArea s (ByteMemory.memcpy (d.area s) o (d.area s') o' n))
    | .addr s o, .chars t => if n ≤ t.length then some (d.setArea s (write (d.area s) o (t.take n))) else none
    | _, _ => none
  | .call r _ f args => (d.host f (args.map d.eval)).map fun d => d.setReg r .unknown
  | _ => none

def moveAll : List Instr → Bytes → Option Bytes
  | [], d => some d
  | i :: is, d => (i.move d).bind (moveAll is)

theorem moveAll_append {is js : List Instr} {d d₁ d₂ : Bytes} (h : moveAll is d = some d₁)
    (h' : moveAll js d₁ = some d₂) : moveAll (is ++ js) d = some d₂ := by
  induction is generalizing d with
  | nil =>
    obtain rfl := Option.some.inj h
    exact h'
  | cons i is ih =>
    obtain ⟨d', hi, his⟩ := Option.bind_eq_some_iff.mp h
    rw [List.cons_append, moveAll, hi]
    exact ih his

theorem mapM_range' {α : Type} {f : ℕ → Option α} {xs : List α} {k : ℕ}
    (h : ∀ i < xs.length, f (k+i) = xs[i]?) : (List.range' k xs.length).mapM f = some xs := by
  induction xs generalizing k with
  | nil => rfl
  | cons x xs ih =>
    have hhead : f k = some x := h 0 (by simp)
    have htail : ∀ i < xs.length, f (k+1+i) = xs[i]? := by
      intro i hi
      rw [Nat.add_right_comm, Nat.add_assoc]
      exact h (i+1) (by simpa using hi)
    rw [List.length_cons, List.range'_succ, List.mapM_cons, hhead, ih htail]
    rfl

theorem rowWords_getElem? {t : LLType} {ws : List (BitVec 64)}
    (ht : t.fields = some (List.replicate ws.length .i64)) : rowWords t (fun i => ws[i]?) = some ws := by
  have hwords : (List.range ws.length).mapM (fun i => ws[i]?) = some ws := by
    rw [List.range_eq_range']
    exact mapM_range' fun i _ => by rw [Nat.zero_add]
  simp [rowWords, ht, hwords]

theorem write_tuple (m : Memory) (ws : List (BitVec 64)) :
    write m 0 (ws.flatMap wordBytes) = tupleMemory ws fun a => m (8*ws.length+a) := by
  have hlen : (ws.flatMap wordBytes).length = 8*ws.length := by
    simp [List.length_flatMap, Nat.mul_comm]
  funext a
  simp only [write, tupleMemory, Nat.zero_le, if_true, Nat.sub_zero]
  by_cases ha : a < 8*ws.length
  · rw [List.getElem?_eq_getElem (by omega)]
    rfl
  · rw [List.getElem?_eq_none (by omega), Nat.add_sub_cancel' (by omega)]

/-- The code between two contexts is straight and takes one state to another; older registers keep
what they hold. -/
structure Moves (c c' : Ctx) (d d' : Bytes) : Prop where
  cur : c'.cur = c.cur
  slots : c'.slots = c.slots
  schemas : c'.schemas = c.schemas
  rowTypes : c.rowTypes ⊆ c'.rowTypes
  code : ∃ is, c'.blocks = c.blocks.modify c.cur (· ++ is) ∧ moveAll is d = some d'
  next : c.nextReg ≤ c'.nextReg
  regs : ∀ r < c.nextReg, d'.regs r = d.regs r

/-- The value is known in a context. -/
structure Known (c : Ctx) (d : Bytes) (v : LLValue) (x : Item) : Prop where
  eval : d.eval v = x
  old : ∀ r, v.op = .reg r → r < c.nextReg

/-- The step returns a value that is known to be the item, by code that changes registers only. -/
def Gen.Puts (p : Gen LLValue) (c : Ctx) (d : Bytes) (ty : LLType) (x : Item) : Prop :=
  ∃ v c' d', p.run c = .ok (v, c') ∧ v.ty = ty ∧ Moves c c' d d' ∧ Known c' d' v x ∧
    d' = { d with regs := d'.regs }

section
variable {c c' c'' : Ctx} {d d' d'' : Bytes} {v w base : LLValue} {x : Item} {i : Instr}

/-- A context that differs in its tables only. -/
theorem moves_of_code_eq (hcur : c'.cur = c.cur) (hslots : c'.slots = c.slots)
    (hschemas : c'.schemas = c.schemas) (hrows : c.rowTypes ⊆ c'.rowTypes)
    (hblocks : c'.blocks = c.blocks) (hnext : c'.nextReg = c.nextReg) (d : Bytes) : Moves c c' d d := by
  refine ⟨hcur, hslots, hschemas, hrows, ⟨[], ?_, rfl⟩, hnext.ge, fun _ _ => rfl⟩
  have hid : (fun is : List Instr => is ++ []) = id := by
    funext is
    simp
  rw [hid, List.modify_id, hblocks]

theorem Moves.refl (c : Ctx) (d : Bytes) : Moves c c d d :=
  moves_of_code_eq rfl rfl rfl (List.Subset.refl _) rfl rfl d

theorem Moves.trans (h : Moves c c' d d') (h' : Moves c' c'' d' d'') : Moves c c'' d d'' := by
  obtain ⟨is, hcode, his⟩ := h.code
  obtain ⟨js, hcode', hjs⟩ := h'.code
  refine ⟨h'.cur.trans h.cur, h'.slots.trans h.slots, h'.schemas.trans h.schemas,
    List.Subset.trans h.rowTypes h'.rowTypes, ⟨is ++ js, ?_, moveAll_append his hjs⟩,
    h.next.trans h'.next, ?_⟩
  · rw [hcode', hcode, h.cur, List.modify_modify_eq]
    congr 1
    funext ks
    simp
  · intro r hr
    rw [h'.regs r (hr.trans_le h.next), h.regs r hr]

theorem Moves.append (h : i.move d = some d') (hregs : d'.regs = d.regs) : Moves c (c.append i) d d' :=
  ⟨rfl, rfl, rfl, List.Subset.refl _, ⟨[i], rfl, by simp [moveAll, h]⟩, le_rfl, fun _ _ => by rw [hregs]⟩

theorem Moves.result (h : i.move d = some (d'.setReg c.nextReg x)) (hregs : d'.regs = d.regs) :
    Moves c (c.result i) d (d'.setReg c.nextReg x) := by
  refine ⟨rfl, rfl, rfl, List.Subset.refl _, ⟨[i], rfl, by simp [moveAll, h]⟩, Nat.le_succ _, ?_⟩
  intro r hr
  rw [← hregs]
  exact Function.update_of_ne hr.ne _ _

theorem Known.mono (h : Known c d v x) (hm : Moves c c' d d') : Known c' d' v x := by
  have hold := h.old
  refine ⟨?_, fun r hr => (hold r hr).trans_le hm.next⟩
  rw [← h.eval]
  unfold Bytes.eval
  cases hop : v.op with
  | reg r => exact hm.regs r (hold r hop)
  | _ => rfl

theorem known_result (ty : LLType) :
    Known (c.result i) (d.setReg c.nextReg x) ⟨.reg c.nextReg, ty⟩ x := by
  refine ⟨Function.update_self _ _ _, ?_⟩
  intro r hr
  obtain rfl := Op.reg.inj hr
  exact Nat.lt_succ_self _

theorem known_slot (c : Ctx) (d : Bytes) (s : ℕ) (ty : LLType) : Known c d (slotPtr s ty) (.addr s 0) :=
  ⟨rfl, fun _ h => absurd h (by simp [slotPtr])⟩

theorem puts_emitResult {mk : ℕ → Instr} {ty : LLType}
    (h : (mk c.nextReg).move d = some (d.setReg c.nextReg x)) : (emitResult mk ty).Puts c d ty x :=
  ⟨_, _, _, rfl, rfl, .result h rfl, known_result ty, rfl⟩

theorem puts_createGEP {is : List LLValue} {ty : LLType} {s o k : ℕ} (hb : Known c d base (.addr s o))
    (hk : byteOffset base.ty is = some k) : (createGEP base is ty).Puts c d (.ptr ty) (.addr s (k+o)) :=
  puts_emitResult (by simp [Instr.move, hb.eval, hk])

theorem puts_createBitCast (hv : Known c d v x) (ty : LLType) : (createBitCast v ty).Puts c d ty x := by
  unfold createBitCast
  split_ifs with hty
  · exact ⟨v, c, d, rfl, hty, .refl c d, hv, rfl⟩
  · exact puts_emitResult (by simp [Instr.move, hv.eval])

theorem puts_createLoad {s o : ℕ} (hv : Known c d v (.addr s o)) (hty : v.ty = .ptr .i64) :
    (createLoad v).Puts c d .i64 (.word (wordOf (read (d.area s) o 8))) := by
  have hmove : (Instr.load c.nextReg v).move d =
      some (d.setReg c.nextReg (.word (wordOf (read (d.area s) o 8)))) := by
    simp [Instr.move, hv.eval, hty]
  have hmoves := Moves.result hmove rfl
  have hnew : Known (c.result (.load c.nextReg v))
      (d.setReg c.nextReg (.word (wordOf (read (d.area s) o 8)))) ⟨.reg c.nextReg, .i64⟩
      (.word (wordOf (read (d.area s) o 8))) := known_result .i64
  have hpointee : (pointee v.ty).run c = .ok (.i64, c) := by
    rw [hty]
    rfl
  exact ⟨_, c.loadFrom v, _, Gen.bind_eq_ok.mpr ⟨_, _, hpointee, rfl⟩, rfl,
    ⟨rfl, rfl, rfl, hmoves.rowTypes, hmoves.code, hmoves.next, hmoves.regs⟩, ⟨hnew.eval, hnew.old⟩, rfl⟩

theorem puts_createInsertValue (tag : Tag) {f : ℕ → Option (BitVec 64)} {u : BitVec 64} {i : ℕ}
    {t : LLType} (hv : Known c d v (.row f)) (hw : Known c d w (.word u)) (ht : v.ty.fieldAt i = some t) :
    (createInsertValue tag v w i).Puts c d v.ty (.row (Function.update f i (some u))) := by
  have hmove : (Instr.insertValue c.nextReg tag v w i).move d =
      some (d.setReg c.nextReg (.row (Function.update f i (some u)))) := by
    simp [Instr.move, hv.eval, hw.eval]
  have hfield : (Gen.require .assertion (v.ty.fieldAt i)).run c = .ok (t, c) := by simp [ht]
  exact ⟨_, _, _, Gen.bind_eq_ok.mpr ⟨_, _, hfield, rfl⟩, rfl, .result hmove rfl, known_result _, rfl⟩

theorem moves_memcpy {s o s' o' : ℕ} (n : ℕ) (hv : Known c d v (.addr s o))
    (hw : Known c d w (.addr s' o')) : ∃ c', (emitInstr (.memcpy v w n)).run c = .ok ((), c') ∧
      Moves c c' d (d.setArea s (ByteMemory.memcpy (d.area s) o (d.area s') o' n)) :=
  ⟨_, rfl, .append (by simp [Instr.move, hv.eval, hw.eval]) rfl⟩

theorem moves_globalText {s o : ℕ} (t : Text) (hv : Known c d v (.addr s o)) :
    ∃ c' d', (emitInstr (.memcpy v (globalText t) t.length)).run c = .ok ((), c') ∧ Moves c c' d d' ∧
      d' = d.setArea s (write (d.area s) o t) := by
  have ht : d.eval (globalText t) = .chars t := rfl
  refine ⟨_, d.setArea s (write (d.area s) o t), rfl, .append ?_ rfl, rfl⟩
  simp [Instr.move, hv.eval, ht]

/-- A stored row and what lies behind it. -/
theorem moves_createStore (tag : Tag) {s : ℕ} {ws : List (BitVec 64)}
    (hv : Known c d v (.row fun i => ws[i]?)) (hw : Known c d w (.addr s 0))
    (hty : v.ty.fields = some (List.replicate ws.length .i64)) :
    ∃ c' d', (createStore tag v w).run c = .ok ((), c') ∧ Moves c c' d d' ∧
      d' = d.setArea s (tupleMemory ws fun a => d.area s (8*ws.length+a)) := by
  refine ⟨_, d.setArea s (tupleMemory ws fun a => d.area s (8*ws.length+a)), rfl, .append ?_ rfl, rfl⟩
  simp [Instr.move, hv.eval, hw.eval, rowWords_getElem? hty, write_tuple]

theorem moves_call (tag : Tag) (c : Ctx) {f : Text} {args : List LLValue} {ty : LLType}
    (hty : functionType f = some ty) (hhost : d.host f (args.map d.eval) = some d')
    (hregs : d'.regs = d.regs) : ∃ v c', (createCall tag f args).run c = .ok (v, c') ∧
      Moves c c' d (d'.setReg c.nextReg .unknown) := by
  have hrequire : (Gen.require .undefined (functionType f)).run c = .ok (ty, c) := by simp [hty]
  exact ⟨_, _, Gen.bind_eq_ok.mpr ⟨_, _, hrequire, rfl⟩,
    .result (by simp [Instr.move, hhost]) hregs⟩

theorem moves_copyKey {tag : Tag} {s o : ℕ} (cursor : LLValue) (hv : Known c d v (.addr s o)) :
    ∃ r c' d', (createCall tag (text "__cursor_copy_key") [cursor, v]).run c = .ok (r, c') ∧
      Moves c c' d d' ∧
      d' = (d.setArea s (write (d.area s) o d.current.1)).setReg c.nextReg .unknown := by
  have hhost : d.host (text "__cursor_copy_key") ([cursor, v].map d.eval) =
      some (d.setArea s (write (d.area s) o d.current.1)) := by
    simp only [List.map_cons, List.map_nil, hv.eval]
    rfl
  obtain ⟨r, c', hrun, hm⟩ := moves_call tag c rfl hhost rfl
  exact ⟨r, c', _, hrun, hm, rfl⟩

theorem moves_copyValue {tag : Tag} {s o : ℕ} (cursor : LLValue) (hv : Known c d v (.addr s o)) :
    ∃ r c' d', (createCall tag (text "__cursor_copy_value") [cursor, v]).run c = .ok (r, c') ∧
      Moves c c' d d' ∧
      d' = (d.setArea s (write (d.area s) o d.current.2)).setReg c.nextReg .unknown := by
  have hhost : d.host (text "__cursor_copy_value") ([cursor, v].map d.eval) =
      some (d.setArea s (write (d.area s) o d.current.2)) := by
    simp only [List.map_cons, List.map_nil, hv.eval]
    rfl
  obtain ⟨r, c', hrun, hm⟩ := moves_call tag c rfl hhost rfl
  exact ⟨r, c', _, hrun, hm, rfl⟩

theorem run_slotOf {s : ℕ} {ty : LLType} (h : c.slots[s]? = some ty) :
    (slotOf (some s)).run c = .ok (slotPtr s ty, c) := by
  have hty : (Gen.require .undefined c.slots[s]?).run c = .ok (ty, c) := by simp [h]
  exact Gen.bind_eq_ok.mpr ⟨s, c, rfl, Gen.bind_eq_ok.mpr ⟨c, c, rfl,
    Gen.bind_eq_ok.mpr ⟨ty, c, hty, rfl⟩⟩⟩

end

theorem constIndex_int32 {n : ℕ} (h : n < 2^31) : constIndex (int32 n) = some n := by
  simp [constIndex, int32, BitVec.msb_eq_decide]
  omega

theorem toNat_int64 {n : ℕ} (h : n < 2^31) : (n : BitVec 64).toNat = n := by
  simp
  omega

theorem byteOffset_array {z i : LLValue} (hz : constIndex z = some 0) (m : ℕ) :
    byteOffset (.ptr (.array .i8 m)) [z, i] = constIndex i := if_pos hz

/-- Everything but the set of row types. -/
def Ctx.withoutRows (c : Ctx) : Ctx := { c with rowTypes := [] }

/-- The contexts differ in nothing but new row types. -/
structure Ctx.Widens (c c' : Ctx) : Prop where
  rest : c'.withoutRows = c.withoutRows
  rows : c.rowTypes ⊆ c'.rowTypes

theorem Ctx.Widens.of_eq {c c' : Ctx} (h : c = c') : c.Widens c' :=
  h ▸ ⟨rfl, List.Subset.refl _⟩

theorem Ctx.Widens.slots_eq {c c' : Ctx} (h : c.Widens c') : c'.slots = c.slots :=
  show c'.withoutRows.slots = c.withoutRows.slots by rw [h.rest]

theorem lookup_widens : LookupRules fun p => ∀ ⦃c a c'⦄, p.run c = .ok (a, c') → c.Widens c' where
  pure := fun a _ _ _ h => .of_eq (pure_eq_ok.mp h).2
  fail := fun e _ _ _ h => absurd h (by simp)
  get := fun _ _ _ h => .of_eq (get_eq_ok.mp h).2
  require := fun e o _ _ _ h => .of_eq (require_eq_ok.mp h).2
  bind := by
    intro α β p f hp hf c b c' h
    obtain ⟨a, c₁, h₁, h₂⟩ := bind_eq_ok.mp h
    exact ⟨(hf a h₂).rest.trans (hp h₁).rest, List.Subset.trans (hp h₁).rows (hf a h₂).rows⟩
  registerRow := by
    intro ts c t c' h
    obtain ⟨u, c₁, h₁, h₂⟩ := bind_eq_ok.mp h
    rw [← (pure_eq_ok.mp h₂).2, ← modify_eq_ok.mp h₁]
    split_ifs
    · exact .of_eq rfl
    · exact ⟨rfl, List.subset_cons_self ts c.rowTypes⟩

/-- `get_type` emits no code. -/
theorem getType_moves {e : Expression} {ty : LLType} {c c' : Ctx} (h : e.getType.run c = .ok (ty, c'))
    (d : Bytes) : Moves c c' d d := by
  have hwidens := lookup_widens.getType e h
  have hrest := hwidens.rest
  have hcur : c'.cur = c.cur := show c'.withoutRows.cur = c.withoutRows.cur by rw [hrest]
  have hschemas : c'.schemas = c.schemas := show c'.withoutRows.schemas = c.withoutRows.schemas by rw [hrest]
  have hblocks : c'.blocks = c.blocks := show c'.withoutRows.blocks = c.withoutRows.blocks by rw [hrest]
  have hnext : c'.nextReg = c.nextReg := show c'.withoutRows.nextReg = c.withoutRows.nextReg by rw [hrest]
  exact moves_of_code_eq hcur hwidens.slots_eq hschemas hwidens.rows hblocks hnext d

/-- The areas of an insertion; the tuple is addressed as bytes, the other two as arrays of bytes. -/
structure InsertAreas (c : Ctx) (d : Bytes) (buff key value : LLValue) (t k v : ℕ) : Prop where
  atBuff : Known c d buff (.addr t 0)
  atKey : Known c d key (.addr k 0)
  atValue : Known c d value (.addr v 0)
  buffTy : buff.ty = .ptr .i8
  keyTy : ∃ n, key.ty = .ptr (.array .i8 n)
  valueTy : ∃ n, value.ty = .ptr (.array .i8 n)
  apartKey : t ≠ k
  apartValue : t ≠ v
  apart : k ≠ v

section
variable {c c' : Ctx} {d d' : Bytes} {buff key value : LLValue} {t k v : ℕ}

theorem InsertAreas.mono (h : InsertAreas c d buff key value t k v) (hm : Moves c c' d d') :
    InsertAreas c' d' buff key value t k v :=
  { h with atBuff := h.atBuff.mono hm, atKey := h.atKey.mono hm, atValue := h.atValue.mono hm }

/-- The destination of a copy. -/
theorem InsertAreas.puts_dst (h : InsertAreas c d buff key value t k v) (toKey : Bool) {n : ℕ}
    (hn : n < 2^31) :
    (createGEP (if toKey then key else value) [if toKey then int64 0 else int32 0, int32 n] .i8).Puts
      c d (.ptr .i8) (.addr (if toKey then k else v) n) := by
  cases toKey with
  | true =>
    obtain ⟨m, hty⟩ := h.keyTy
    refine puts_createGEP h.atKey ?_
    rw [hty]
    exact (byteOffset_array rfl m).trans (constIndex_int32 hn)
  | false =>
    obtain ⟨m, hty⟩ := h.valueTy
    refine puts_createGEP h.atValue ?_
    rw [hty]
    exact (byteOffset_array rfl m).trans (constIndex_int32 hn)

/-- The state with the key and the value area replaced. -/
def Bytes.setBoth (d : Bytes) (k v : ℕ) (bufs : Memory × Memory) : Bytes :=
  (d.setArea k bufs.1).setArea v bufs.2

theorem setBoth_setArea (d : Bytes) {k v : ℕ} (h : k ≠ v) (toKey : Bool) (m : Memory)
    (bufs : Memory × Memory) : (d.setArea (if toKey then k else v) m).setBoth k v bufs =
      d.setBoth k v bufs := by
  cases toKey with
  | true => simp [Bytes.setBoth, Bytes.setArea]
  | false => simp [Bytes.setBoth, Bytes.setArea, Function.update_comm h]

/-- The loop of copies leaves in the two areas what the copies make of them, and nothing changes
elsewhere. -/
theorem copyCells_moves (cs : List CellCopy) (hcs : ∀ x ∈ cs, x.src < 2^31 ∧ x.dst < 2^31)
    (h : InsertAreas c d buff key value t k v) :
    ∃ c' d', (copyCells buff key value cs).run c = .ok ((), c') ∧ Moves c c' d d' ∧
      d' = { d.setBoth k v (runCopies (d.area t) cs (d.area k, d.area v)) with regs := d'.regs } := by
  induction cs generalizing c d with
  | nil => exact ⟨c, d, rfl, .refl c d, by simp [runCopies, Bytes.setBoth, Bytes.setArea]⟩
  | cons x cs ih =>
    obtain ⟨hsrc, hdst⟩ := hcs x List.mem_cons_self
    have hindex : byteOffset buff.ty [int32 x.src] = some x.src := by
      rw [h.buffTy]
      exact constIndex_int32 hsrc
    have hput : (createGEP buff [int32 x.src] .i8).Puts c d (.ptr .i8) (.addr t x.src) :=
      puts_createGEP h.atBuff hindex
    obtain ⟨src, c₁, d₁, hrun₁, -, hm₁, hk₁, hd₁⟩ := hput
    obtain ⟨dst, c₂, d₂, hrun₂, -, hm₂, hk₂, hd₂⟩ := (h.mono hm₁).puts_dst x.toKey hdst
    obtain ⟨c₃, hrun₃, hm₃⟩ := moves_memcpy x.len hk₂ (hk₁.mono hm₂)
    have hm := (hm₁.trans hm₂).trans hm₃
    obtain ⟨c', d', hrun, hm', hareas⟩ :=
      ih (fun y hy => hcs y (List.mem_cons_of_mem x hy)) (h.mono hm)
    refine ⟨c', d', ?_, hm.trans hm', ?_⟩
    · rw [copyCells, Gen.bind_ok hrun₁, Gen.bind_ok hrun₂, Gen.bind_ok hrun₃]
      exact hrun
    · have hk := h.apartKey
      have hv := h.apartValue
      have hkv := h.apart
      rw [hareas, setBoth_setArea _ hkv, hd₂, hd₁]
      cases hx : x.toKey with
      | true => simp [runCopies, hx, Bytes.setBoth, Bytes.setArea, hk, hkv.symm]
      | false => simp [runCopies, hx, Bytes.setBoth, Bytes.setArea, hv, hkv]

end

/-- No copy leads further than the prefix and all columns together, and neither length is larger. -/
theorem insertCopies_bound (cs : List Cell) {k v o n : ℕ} (hk : k+(cs.map Cell.size).sum ≤ n)
    (hv : v+(cs.map Cell.size).sum ≤ n) (ho : o+(cs.map Cell.size).sum ≤ n) :
    (∀ x ∈ (insertCopies cs k v o).1, x.src ≤ n ∧ x.dst ≤ n) ∧
      (insertCopies cs k v o).2.1 ≤ n ∧ (insertCopies cs k v o).2.2 ≤ n := by
  induction cs generalizing k v o with
  | nil => simpa [insertCopies] using And.intro hk hv
  | cons x cs ih =>
    rw [List.map_cons, List.sum_cons] at hk hv ho
    cases hx : x.isKey with
    | true =>
      obtain ⟨hcopies, hlens⟩ := @ih (k+x.size) v (o+x.size) (by omega) (by omega) (by omega)
      simp only [insertCopies, hx, if_true, List.forall_mem_cons]
      exact ⟨⟨⟨by omega, by omega⟩, hcopies⟩, hlens⟩
    | false =>
      obtain ⟨hcopies, hlens⟩ := @ih k (v+x.size) (o+x.size) (by omega) (by omega) (by omega)
      simp only [insertCopies, hx, Bool.false_eq_true, if_false, List.forall_mem_cons]
      exact ⟨⟨⟨by omega, by omega⟩, hcopies⟩, hlens⟩

/-- The slots of a statement that moves records, as the allocation pass makes them. -/
structure RecordSlots (c : Ctx) (rowType : LLType) (k v t : ℕ) : Prop where
  key : ∃ n, c.slots[k]? = some (.array .i8 n)
  value : ∃ n, c.slots[v]? = some (.array .i8 n)
  tuple : c.slots[t]? = some rowType
  apart : k ≠ v

/-- What the allocation pass makes of a context for a statement that defines no table. -/
structure Ctx.Allots (c c' : Ctx) : Prop where
  schemas : c'.schemas = c.schemas
  slots : c.slots <+: c'.slots
  rows : c.rowTypes ⊆ c'.rowTypes

theorem Ctx.Allots.trans {c c₁ c' : Ctx} (h : c.Allots c₁) (h' : c₁.Allots c') : c.Allots c' :=
  ⟨h'.schemas.trans h.schemas, h.slots.trans h'.slots, List.Subset.trans h.rows h'.rows⟩

section
variable {c c' c₁ c₂ : Ctx} {d d' : Bytes} {rowType : LLType} {k v t : ℕ}

theorem Ctx.Allots.slot {i : ℕ} {ty : LLType} (h : c.Allots c') (hi : c.slots[i]? = some ty) :
    c'.slots[i]? = some ty := by
  obtain ⟨rest, hrest⟩ := h.slots
  obtain ⟨hlt, -⟩ := List.getElem?_eq_some_iff.mp hi
  rw [← hrest, List.getElem?_append_left hlt, hi]

theorem RecordSlots.later (h : RecordSlots c rowType k v t) (ha : c.Allots c') :
    RecordSlots c' rowType k v t where
  key := h.key.imp fun _ => ha.slot
  value := h.value.imp fun _ => ha.slot
  tuple := ha.slot h.tuple
  apart := h.apart

theorem RecordSlots.mono (h : RecordSlots c rowType k v t) (hm : Moves c c' d d') :
    RecordSlots c' rowType k v t := by
  have hslots := hm.slots
  exact ⟨hslots ▸ h.key, hslots ▸ h.value, hslots ▸ h.tuple, h.apart⟩

/-- A row lies in an area of its own. -/
theorem RecordSlots.tuple_ne {ts : List LLType} {i n : ℕ} (h : RecordSlots c rowType k v t)
    (hfields : rowType.fields = some ts) (hi : c.slots[i]? = some (.array .i8 n)) : t ≠ i := by
  rintro rfl
  rw [h.tuple] at hi
  rw [Option.some.inj hi] at hfields
  exact absurd hfields (by simp [LLType.fields])

/-- `alloca_stack` of an `Insert` leaves such slots. -/
theorem allocaInsert_slots {table : Text} {e : Expression} {frame frame' : InsertFrame}
    (h : (allocaInsert table e frame).run c = .ok (frame', c')) :
    ∃ s rowType k v t c₁ c₂, c.schemas table = some s ∧
      frame' = ⟨some s.getKeyPrefix, some k, some v, some t⟩ ∧
      e.getType.run c₁ = .ok (rowType, c₂) ∧ c'.rowTypes = c₂.rowTypes ∧
      RecordSlots c' rowType k v t ∧ c.Allots c' := by
  obtain ⟨s, c₁, hlookup, h⟩ := bind_eq_ok.mp h
  obtain ⟨_, _, hget, hlookup⟩ := bind_eq_ok.mp hlookup
  obtain ⟨rfl, rfl⟩ := get_eq_ok.mp hget
  obtain ⟨hschema, rfl⟩ := require_eq_ok.mp hlookup
  obtain ⟨areas, c₂, hareas, h⟩ := bind_eq_ok.mp h
  obtain ⟨rowType, c₃, htype, h⟩ := bind_eq_ok.mp h
  obtain ⟨t, c₄, htuple, h⟩ := bind_eq_ok.mp h
  obtain ⟨rfl, rfl⟩ := pure_eq_ok.mp h
  obtain ⟨rfl, rfl⟩ := createAlloca_eq_ok.mp htuple
  unfold allocaRecord at hareas
  split_ifs at hareas
  · exact absurd hareas (by simp)
  · exact absurd hareas (by simp)
  obtain ⟨keyLen, c₅, hkeyLen, hareas⟩ := bind_eq_ok.mp hareas
  obtain ⟨-, rfl⟩ := require_eq_ok.mp hkeyLen
  obtain ⟨valueLen, c₆, hvalueLen, hareas⟩ := bind_eq_ok.mp hareas
  obtain ⟨-, rfl⟩ := require_eq_ok.mp hvalueLen
  obtain ⟨k, c₇, hkey, hareas⟩ := bind_eq_ok.mp hareas
  obtain ⟨rfl, rfl⟩ := createAlloca_eq_ok.mp hkey
  obtain ⟨v, c₈, hvalue, hareas⟩ := bind_eq_ok.mp hareas
  obtain ⟨rfl, rfl⟩ := createAlloca_eq_ok.mp hvalue
  obtain ⟨rfl, rfl⟩ := pure_eq_ok.mp hareas
  have hwidens := lookup_widens.getType e htype
  have hslots := hwidens.slots_eq
  have hschemas := congrArg Ctx.schemas hwidens.rest
  refine ⟨s, rowType, _, _, _, _, c₃, hschema, rfl, htype, rfl, ⟨⟨keyLen, ?_⟩, ⟨valueLen, ?_⟩, ?_, ?_⟩,
    hschemas, ?_, hwidens.rows⟩
  · simp [Ctx.newSlot, hslots]
  · simp [Ctx.newSlot, hslots]
  · simp [Ctx.newSlot]
  · simp [Ctx.newSlot]
  · simp [Ctx.newSlot, hslots]

/-- `Insert` on a row of words passes on the record of the row. -/
theorem insertCode_record {table : Text} {e : Expression} {s : Schema} {cells : List Cell} {row : LLValue}
    {ws : List (BitVec 64)} (hvalue : e.getValue.run c = .ok (row, c₁))
    (hschema : c₁.schemas table = some s) (htype : e.getType.run c₁ = .ok (rowType, c₂))
    (hfields : rowType.fields = some (List.replicate ws.length .i64))
    (hlen : ws.length = s.attrs.length) (hcells : s.attrs.mapM Attribute.cell = some cells)
    (hsize : s.getKeyPrefix.length+(cells.map Cell.size).sum < 2^31)
    (hslots : RecordSlots c₁ rowType k v t) (hrowTy : row.ty = rowType)
    (hrow : Known c₁ d row (.row fun i => ws[i]?)) :
    ∃ c' d' record, (insertCode table e ⟨some s.getKeyPrefix, some k, some v, some t⟩).run c = .ok ((), c') ∧
      Moves c₁ c' d d' ∧
      insertRecord s ws (fun a => d.area t (8*ws.length+a)) (d.area k) (d.area v) = some record ∧
      d'.inserted = d.inserted ++ [record] ∧
      ∀ a, d'.area t (8*ws.length+a) = d.area t (8*ws.length+a) := by
  have hm₂ := getType_moves htype d
  obtain ⟨nk, hk⟩ := (hslots.mono hm₂).key
  obtain ⟨nv, hv⟩ := (hslots.mono hm₂).value
  obtain ⟨plan, hplan⟩ : ∃ plan, insertCopies cells s.getKeyPrefix.length 0 0 = plan := ⟨_, rfl⟩
  have hzero : 0+(cells.map Cell.size).sum ≤ s.getKeyPrefix.length+(cells.map Cell.size).sum := by omega
  obtain ⟨hcopies, hkeyLen, hvalueLen⟩ := insertCopies_bound cells le_rfl hzero hzero
  rw [hplan] at hcopies hkeyLen hvalueLen
  have htk := (hslots.mono hm₂).tuple_ne hfields hk
  have htv := (hslots.mono hm₂).tuple_ne hfields hv
  have hkv := hslots.apart
  rw [← hrowTy] at hfields
  obtain ⟨c₃, d₃, hrun₃, hm₃, hd₃⟩ :=
    moves_createStore ⟨.insert, 0⟩ (hrow.mono hm₂) (known_slot c₂ d t rowType) hfields
  obtain ⟨buff, c₄, d₄, hrun₄, hbuffTy, hm₄, hbuff, hd₄⟩ :=
    puts_createBitCast (known_slot c₃ d₃ t rowType) (.ptr .i8)
  obtain ⟨c₅, d₅, hrun₅, hm₅, hd₅⟩ :=
    moves_globalText s.getKeyPrefix (known_slot c₄ d₄ k (.array .i8 nk))
  have hareas : InsertAreas c₅ d₅ buff (slotPtr k (.array .i8 nk)) (slotPtr v (.array .i8 nv)) t k v :=
    ⟨hbuff.mono hm₅, known_slot c₅ d₅ k _, known_slot c₅ d₅ v _, hbuffTy, ⟨nk, rfl⟩, ⟨nv, rfl⟩, htk, htv,
      hkv⟩
  obtain ⟨c₆, d₆, hrun₆, hm₆, hd₆⟩ := copyCells_moves plan.1
    (fun x hx => ⟨(hcopies x hx).1.trans_lt hsize, (hcopies x hx).2.trans_lt hsize⟩) hareas
  obtain ⟨keyBuf, c₇, d₇, hrun₇, -, hm₇, hkeyBuf, hd₇⟩ :=
    puts_createBitCast (known_slot c₆ d₆ k (.array .i8 nk)) (.ptr .i8)
  obtain ⟨valueBuf, c₈, d₈, hrun₈, -, hm₈, hvalueBuf, hd₈⟩ :=
    puts_createBitCast (known_slot c₇ d₇ v (.array .i8 nv)) (.ptr .i8)
  have harea : d₈.area = d₆.area := by rw [hd₈, hd₇]
  have hinserted : d₈.inserted = d.inserted := by
    rw [hd₈, hd₇, hd₆, hd₅, hd₄, hd₃]
    rfl
  have hbufs : runCopies (tupleMemory ws fun a => d.area t (8*ws.length+a)) plan.1
      (write (d.area k) 0 s.getKeyPrefix, d.area v) = (d₆.area k, d₆.area v) := by
    rw [hd₆, hd₅, hd₄, hd₃]
    simp [Bytes.setBoth, Bytes.setArea, htk, hkv, htk.symm, htv.symm, hkv.symm]
  have hrecord : insertRecord s ws (fun a => d.area t (8*ws.length+a)) (d.area k) (d.area v) =
      some (read (d₆.area k) 0 plan.2.1, read (d₆.area v) 0 plan.2.2) := by
    simp [insertRecord, hcells, hplan, hbufs]
  have hhost : d₈.host (text "__insert")
      ([hostPtr, keyBuf, int64 plan.2.1, valueBuf, int64 plan.2.2].map d₈.eval) =
      some { d₈ with inserted :=
        d.inserted ++ [(read (d₆.area k) 0 plan.2.1, read (d₆.area v) 0 plan.2.2)] } := by
    have hkey₈ := (hkeyBuf.mono hm₈).eval
    have hlenKey := toNat_int64 (hkeyLen.trans_lt hsize)
    have hlenValue := toNat_int64 (hvalueLen.trans_lt hsize)
    simp only [List.map_cons, List.map_nil, hkey₈, hvalueBuf.eval]
    simp only [Bytes.host, Bytes.eval, hostPtr, int64, if_true, hlenKey, hlenValue, harea, hinserted]
  obtain ⟨r, c', hrun₉, hm₉⟩ := moves_call ⟨.insert, 0⟩ c₈ rfl hhost rfl
  have hm := ((((((hm₂.trans hm₃).trans hm₄).trans hm₅).trans hm₆).trans hm₇).trans hm₈).trans hm₉
  have htuple : d₈.area t = tupleMemory ws fun a => d.area t (8*ws.length+a) := by
    rw [hd₈, hd₇, hd₆, hd₅, hd₄, hd₃]
    simp [Bytes.setBoth, Bytes.setArea, htk, htv]
  have hbehind : ∀ a, d₈.area t (8*ws.length+a) = d.area t (8*ws.length+a) := by
    intro a
    rw [htuple, tupleMemory_after]
  refine ⟨c', _, _, ?_, hm, hrecord, rfl, hbehind⟩
  have hlookup : (lookupSchema .undefined table).run c₁ = .ok (s, c₁) :=
    Gen.bind_eq_ok.mpr ⟨c₁, c₁, rfl, by simp [hschema]⟩
  have hstruct : (structFields .nonRowInsert rowType).run c₂ = .ok (List.replicate ws.length .i64, c₂) := by
    rw [← hrowTy]
    simp [structFields, hfields]
  have hprefix : (Gen.require .undefined (some s.getKeyPrefix)).run c₄ = .ok (s.getKeyPrefix, c₄) := rfl
  have hinsertCells : (insertCells s (List.replicate ws.length LLType.i64).length).run c₅ =
      .ok (cells, c₅) := by
    simp [insertCells, hlen, hcells]
  rw [insertCode, Gen.bind_ok hvalue, Gen.bind_ok hlookup, Gen.bind_ok htype, Gen.bind_ok hstruct,
    Gen.bind_ok (run_slotOf (hslots.mono hm₂).tuple), Gen.bind_ok (run_slotOf hk),
    Gen.bind_ok (run_slotOf hv), Gen.bind_ok hrun₃, Gen.bind_ok hrun₄, Gen.bind_ok hprefix,
    Gen.bind_ok hrun₅, Gen.bind_ok hinsertCells]
  rw [hplan, Gen.bind_ok hrun₆, Gen.bind_ok hrun₇, Gen.bind_ok hrun₈, Gen.bind_ok hrun₉]
  rfl

end

/-- No load begins further than the prefix and eight bytes for each column. -/
theorem scanLoads_lt (as : List Attribute) {k v n : ℕ} (hk : k+8*as.length ≤ n) (hv : v+8*as.length ≤ n) :
    ∀ l ∈ scanLoads as k v, l.2 < n := by
  induction as generalizing k v with
  | nil => simp [scanLoads]
  | cons a as ih =>
    rw [List.length_cons] at hk hv
    cases ha : a.isKey with
    | true =>
      simp only [scanLoads, ha, if_true, List.forall_mem_cons]
      exact ⟨by omega, ih (by omega) (by omega)⟩
    | false =>
      simp only [scanLoads, ha, Bool.false_eq_true, if_false, List.forall_mem_cons]
      exact ⟨by omega, ih (by omega) (by omega)⟩

theorem scanLoads_length (as : List Attribute) (k v : ℕ) : (scanLoads as k v).length = as.length := by
  induction as generalizing k v with
  | nil => rfl
  | cons a as ih =>
    cases ha : a.isKey with
    | true => simp [scanLoads, ha, ih]
    | false => simp [scanLoads, ha, ih]

theorem fieldAt_of_fields {t : LLType} {n i : ℕ} (h : t.fields = some (List.replicate n .i64)) (hi : i < n) :
    t.fieldAt i = some .i64 := by
  cases t with
  | array a m => exact absurd h (by simp [LLType.fields])
  | _ => simp [LLType.fieldAt, h, hi]

theorem getElem?_append_singleton (pre : List (BitVec 64)) (w : BitVec 64) :
    Function.update (fun i => pre[i]?) pre.length (some w) = fun i => (pre ++ [w])[i]? := by
  funext i
  by_cases hi : i = pre.length
  · subst hi
    simp
  · rw [Function.update_of_ne hi]
    by_cases hlt : i < pre.length
    · simp [List.getElem?_append_left hlt]
    · rw [List.getElem?_eq_none (by omega), List.getElem?_eq_none (by simp; omega)]

section
variable {c : Ctx} {d : Bytes} {rowType : LLType} {key value prev : LLValue} {k v t n m : ℕ}

theorem puts_scanColumn (hkey : Known c d key (.addr k 0)) (hkeyTy : key.ty = .ptr .i8)
    (hvalue : Known c d value (.addr v 0)) (hvalueTy : value.ty = .ptr (.array .i8 n)) {l : Bool × ℕ}
    (hl : l.2 < 2^31) :
    (scanColumn key value l).Puts c d (.ptr .i8) (.addr (if l.1 then k else v) l.2) := by
  obtain ⟨inKey, off⟩ := l
  cases inKey with
  | true =>
    refine puts_createGEP hkey ?_
    rw [hkeyTy]
    exact constIndex_int32 hl
  | false =>
    refine puts_createGEP hvalue ?_
    rw [hvalueTy]
    exact (byteOffset_array rfl n).trans (constIndex_int32 hl)

/-- The loop of loads appends the words of the two areas to the fields that are there already. -/
theorem scanFields_puts (ls : List (Bool × ℕ)) {pre : List (BitVec 64)} (hls : ∀ l ∈ ls, l.2 < 2^31)
    (hkey : Known c d key (.addr k 0)) (hkeyTy : key.ty = .ptr .i8) (hvalue : Known c d value (.addr v 0))
    (hvalueTy : value.ty = .ptr (.array .i8 n)) (hprev : Known c d prev (.row fun i => pre[i]?))
    (hfields : prev.ty.fields = some (List.replicate m .i64)) (hlen : pre.length+ls.length ≤ m) :
    (scanFields key value ls pre.length prev).Puts c d prev.ty
      (.row fun i => (pre ++ ls.map fun l => wordOf (read (d.area (if l.1 then k else v)) l.2 8))[i]?) := by
  induction ls generalizing c d prev pre with
  | nil => exact ⟨prev, c, d, rfl, rfl, .refl c d, by simpa using hprev, rfl⟩
  | cons l ls ih =>
    rw [List.length_cons] at hlen
    obtain ⟨hl, hls⟩ := List.forall_mem_cons.mp hls
    obtain ⟨offset, c₁, d₁, hrun₁, -, hm₁, hoffset, hd₁⟩ := puts_scanColumn hkey hkeyTy hvalue hvalueTy hl
    obtain ⟨ptr, c₂, d₂, hrun₂, hptrTy, hm₂, hptr, hd₂⟩ := puts_createBitCast hoffset (.ptr .i64)
    obtain ⟨record, c₃, d₃, hrun₃, -, hm₃, hrecord, hd₃⟩ := puts_createLoad hptr hptrTy
    have hm₁₃ := (hm₁.trans hm₂).trans hm₃
    have hfield : prev.ty.fieldAt pre.length = some .i64 := fieldAt_of_fields hfields (by omega)
    obtain ⟨row, c₄, d₄, hrun₄, hrowTy, hm₄, hrow, hd₄⟩ :=
      puts_createInsertValue ⟨.scan, 0⟩ (hprev.mono hm₁₃) hrecord hfield
    rw [getElem?_append_singleton] at hrow
    have hm := hm₁₃.trans hm₄
    have harea : d₄.area = d.area := by rw [hd₄, hd₃, hd₂, hd₁]
    have harea₂ : d₂.area = d.area := by rw [hd₂, hd₁]
    have hrest := ih hls (hkey.mono hm) (hvalue.mono hm) hrow (by rw [hrowTy, hfields]) (by simp; omega)
    obtain ⟨last, c', d', hrun, hty, hm', hlast, hd'⟩ := hrest
    refine ⟨last, c', d', ?_, hty.trans hrowTy, hm.trans hm', ?_, ?_⟩
    · rw [scanFields, Gen.bind_ok hrun₁, Gen.bind_ok hrun₂, Gen.bind_ok hrun₃, Gen.bind_ok hrun₄]
      simpa using hrun
    · rw [harea, harea₂] at hlast
      simpa using hlast
    · rw [hd', hd₄, hd₃, hd₂, hd₁]

/-- The body of a `Scan` begins with the row of the record that the cursor stands on. -/
theorem scanRow_record (s : Schema) (start stop : Option Text) (cursor : LLValue) (d : Bytes)
    (hslots : RecordSlots c rowType k v t)
    (hfields : rowType.fields = some (List.replicate s.attrs.length .i64))
    (hsize : s.getKeyPrefix.length+8*s.attrs.length ≤ 2^31) :
    ∃ c' d', (scanRow s rowType ⟨start, stop, some k, some v, some t⟩ cursor).run c = .ok ((), c') ∧
      Moves c c' d d' ∧ d'.area t = tupleMemory (scanRecord s d.current (d.area k) (d.area v))
        (fun a => d.area t (8*s.attrs.length+a)) ∧
      d'.current = d.current ∧ d'.inserted = d.inserted := by
  obtain ⟨nk, hk⟩ := hslots.key
  obtain ⟨nv, hv⟩ := hslots.value
  have htk := hslots.tuple_ne hfields hk
  have htv := hslots.tuple_ne hfields hv
  have hkv := hslots.apart
  obtain ⟨key, c₁, d₁, hrun₁, hkeyTy, hm₁, hkey, hd₁⟩ :=
    puts_createBitCast (known_slot c d k (.array .i8 nk)) (.ptr .i8)
  obtain ⟨r₁, c₂, d₂, hrun₂, hm₂, hd₂⟩ := moves_copyKey cursor hkey
  obtain ⟨value, c₃, d₃, hrun₃, -, hm₃, hvalue, hd₃⟩ :=
    puts_createBitCast (known_slot c₂ d₂ v (.array .i8 nv)) (.ptr .i8)
  obtain ⟨r₂, c₄, d₄, hrun₄, hm₄, hd₄⟩ := moves_copyValue cursor hvalue
  have hslots₂ := hslots.mono (hm₁.trans hm₂)
  have hm₁₄ := ((hm₁.trans hm₂).trans hm₃).trans hm₄
  have hundef : Known c₄ d₄ ⟨.undef, rowType⟩ (.row fun i => ([] : List (BitVec 64))[i]?) :=
    ⟨rfl, fun _ h => absurd h (by simp)⟩
  have hbound : ∀ l ∈ scanLoads s.attrs s.getKeyPrefix.length 0, l.2 < 2^31 :=
    scanLoads_lt s.attrs hsize (by omega)
  obtain ⟨row, c₅, d₅, hrun₅, hrowTy, hm₅, hrow, hd₅⟩ :=
    scanFields_puts (scanLoads s.attrs s.getKeyPrefix.length 0) hbound
      (hkey.mono ((hm₂.trans hm₃).trans hm₄)) hkeyTy (known_slot c₄ d₄ v (.array .i8 nv)) rfl hundef hfields
      (by simp [scanLoads_length])
  rw [List.length_nil] at hrun₅
  have hrecord : ([] ++ (scanLoads s.attrs s.getKeyPrefix.length 0).map fun l =>
      wordOf (read (d₄.area (if l.1 then k else v)) l.2 8)) =
        scanRecord s d.current (d.area k) (d.area v) := by
    have hareaKey : d₄.area k = write (d.area k) 0 d.current.1 := by
      rw [hd₄, hd₃, hd₂, hd₁]
      simp [Bytes.setReg, Bytes.setArea, hkv]
    have hareaValue : d₄.area v = write (d.area v) 0 d.current.2 := by
      rw [hd₄, hd₃, hd₂, hd₁]
      simp [Bytes.setReg, Bytes.setArea, hkv.symm]
    rw [List.nil_append, scanRecord]
    apply List.map_congr_left
    intro l _
    cases l.1 with
    | true => simp [hareaKey]
    | false => simp [hareaValue]
  rw [hrecord] at hrow
  have hlen : (scanRecord s d.current (d.area k) (d.area v)).length = s.attrs.length := by
    simp [scanRecord, scanLoads_length]
  have hslots₅ := hslots.mono (hm₁₄.trans hm₅)
  obtain ⟨c₆, d₆, hrun₆, hm₆, hd₆⟩ := moves_createStore ⟨.scan, 0⟩ hrow (known_slot c₅ d₅ t rowType)
    (by rw [hrowTy, hlen, hfields])
  have harea : d₅.area t = d.area t := by
    rw [hd₅, hd₄, hd₃, hd₂, hd₁]
    simp [Bytes.setReg, Bytes.setArea, htk, htv]
  refine ⟨c₆, d₆, ?_, (hm₁₄.trans hm₅).trans hm₆, ?_, ?_, ?_⟩
  · rw [scanRow, Gen.bind_ok (run_slotOf hk), Gen.bind_ok hrun₁, Gen.bind_ok hrun₂,
      Gen.bind_ok (run_slotOf (hm₂.slots.trans hm₁.slots ▸ hv)), Gen.bind_ok hrun₃, Gen.bind_ok hrun₄,
      Gen.bind_ok hrun₅, Gen.bind_ok (run_slotOf hslots₅.tuple)]
    exact hrun₆
  · rw [hd₆, hlen, harea]
    simp [Bytes.setArea]
  · rw [hd₆, hd₅, hd₄, hd₃, hd₂, hd₁]
    rfl
  · rw [hd₆, hd₅, hd₄, hd₃, hd₂, hd₁]
    rfl

end

/-- A row literal of integer literals. -/
def Expression.WordsRow (e : Expression) (ws : List (BitVec 64)) : Prop :=
  ∃ n es, e = .rowLiteral n es ∧ List.Forall₂ (fun x w => ∃ m, x = .primary m (some (.int w))) es ws

section
variable {c : Ctx} {d : Bytes}

theorem run_getTypes {es : List Expression} {ws : List (BitVec 64)}
    (h : List.Forall₂ (fun x w => ∃ m, x = .primary m (some (.int w))) es ws) :
    (getTypes es).run c = .ok (List.replicate ws.length .i64, c) := by
  induction h with
  | nil => rfl
  | @cons x w es ws hx _ ih =>
    obtain ⟨m, rfl⟩ := hx
    have htype : (Expression.primary m (some (.int w))).getType.run c = .ok (.i64, c) := rfl
    rw [getTypes, Gen.bind_ok htype, Gen.bind_ok ih]
    rfl

theorem rowElements_puts {es : List Expression} {ws pre : List (BitVec 64)} {prev : LLValue} {m : ℕ}
    (h : List.Forall₂ (fun x w => ∃ m, x = .primary m (some (.int w))) es ws)
    (hprev : Known c d prev (.row fun i => pre[i]?))
    (hfields : prev.ty.fields = some (List.replicate m .i64)) (hlen : pre.length+ws.length ≤ m) :
    (rowElements es pre.length prev).Puts c d prev.ty (.row fun i => (pre ++ ws)[i]?) := by
  induction h generalizing c d prev pre with
  | nil => exact ⟨prev, c, d, rfl, rfl, .refl c d, by simpa using hprev, rfl⟩
  | @cons x w es ws hx _ ih =>
    obtain ⟨n, rfl⟩ := hx
    rw [List.length_cons] at hlen
    have hvalue : (Expression.primary n (some (.int w))).getValue.run c = .ok (int64 w, c) := rfl
    have hfield : (rowField (int64 w) (int64 w)).run c = .ok (int64 w, c) := rfl
    have hword : Known c d (int64 w) (.word w) := ⟨rfl, fun _ h => absurd h (by simp [int64])⟩
    have hat : prev.ty.fieldAt pre.length = some .i64 := fieldAt_of_fields hfields (by omega)
    obtain ⟨row, c₁, d₁, hrun₁, hrowTy, hm₁, hrow, hd₁⟩ :=
      puts_createInsertValue ⟨.rowLiteral, 0⟩ hprev hword hat
    rw [getElem?_append_singleton] at hrow
    obtain ⟨last, c', d', hrun, hty, hm', hlast, hd'⟩ := ih hrow (by rw [hrowTy, hfields]) (by simp; omega)
    refine ⟨last, c', d', ?_, hty.trans hrowTy, hm₁.trans hm', by simpa using hlast, ?_⟩
    · rw [rowElements, Gen.bind_ok hvalue, Gen.bind_ok hvalue, Gen.bind_ok hfield, Gen.bind_ok hrun₁]
      simpa using hrun
    · rw [hd', hd₁]

theorem Expression.WordsRow.puts {e : Expression} {ws : List (BitVec 64)} (h : e.WordsRow ws)
    (hrow : List.replicate ws.length .i64 ∈ c.rowTypes) :
    e.getValue.Puts c d (.row (List.replicate ws.length .i64)) (.row fun i => ws[i]?) := by
  obtain ⟨n, es, rfl, hes⟩ := h
  have hundef : Known c d ⟨.undef, .row (List.replicate ws.length .i64)⟩
      (.row fun i => ([] : List (BitVec 64))[i]?) := ⟨rfl, fun _ h => absurd h (by simp)⟩
  obtain ⟨row, c', d', hrun, hty, hm, hknown, hd⟩ := rowElements_puts hes hundef rfl (by simp)
  have hrequire : (requireRow (List.replicate ws.length .i64)).run c =
      .ok (.row (List.replicate ws.length .i64), c) := by
    rw [requireRow, Gen.bind_ok (show Gen.get.run c = .ok (c, c) from rfl), if_pos hrow]
    rfl
  refine ⟨row, c', d', ?_, hty, hm, by simpa using hknown, hd⟩
  rw [Expression.getValue, Gen.bind_ok (run_getTypes hes), Gen.bind_ok hrequire]
  exact hrun

theorem Expression.WordsRow.run_getType {e : Expression} {ws : List (BitVec 64)} (h : e.WordsRow ws)
    (hrow : List.replicate ws.length .i64 ∈ c.rowTypes) :
    e.getType.run c = .ok (.row (List.replicate ws.length .i64), c) := by
  obtain ⟨n, es, rfl, hes⟩ := h
  rw [Expression.getType, Gen.bind_ok (run_getTypes hes), registerRow]
  refine Gen.bind_eq_ok.mpr ⟨(), c, ?_, rfl⟩
  simp [hrow]

theorem Expression.WordsRow.getType_eq {e : Expression} {ws : List (BitVec 64)} {ty : LLType}
    (h : e.WordsRow ws) (hrun : e.getType.run c = .ok (ty, c')) :
    ty = .row (List.replicate ws.length .i64) ∧ List.replicate ws.length .i64 ∈ c'.rowTypes := by
  obtain ⟨n, es, rfl, hes⟩ := h
  rw [Expression.getType, Gen.bind_ok (run_getTypes hes), registerRow] at hrun
  obtain ⟨_, c₁, h₁, h₂⟩ := bind_eq_ok.mp hrun
  obtain ⟨rfl, rfl⟩ := pure_eq_ok.mp h₂
  obtain rfl := modify_eq_ok.mp h₁
  refine ⟨rfl, ?_⟩
  split_ifs with hmem
  · exact hmem
  · exact List.mem_cons_self

end

/-- An insertion of a row of integer literals with the slots that it was given. -/
structure RowInsert where
  table : Text
  schema : Schema
  row : Expression
  words : List (BitVec 64)
  key : ℕ
  value : ℕ
  tuple : ℕ

namespace RowInsert

def rowType (r : RowInsert) : LLType := .row (List.replicate r.words.length .i64)

def frame (r : RowInsert) : InsertFrame :=
  ⟨some r.schema.getKeyPrefix, some r.key, some r.value, some r.tuple⟩

def statement (r : RowInsert) : Statement := .insert r.table r.row r.frame

/-- The insertion before it has been given its slots. -/
def source (r : RowInsert) : Statement := .insert r.table r.row {}

/-- The insertion as the store sees it, with what the areas hold before it. -/
def insertion (r : RowInsert) (d : Bytes) : Insertion :=
  ⟨r.schema, r.words, fun a => d.area r.tuple (8*r.words.length+a), d.area r.key, d.area r.value⟩

/-- The table of the insertion is defined, over integers, and the row has one word for each column. -/
structure Written (r : RowInsert) (c : Ctx) : Prop where
  schema : c.schemas r.table = some r.schema
  row : r.row.WordsRow r.words
  length : r.words.length = r.schema.attrs.length
  ints : r.schema.IntColumns
  size : r.schema.getKeyPrefix.length+9*r.schema.attrs.length < 2^31

/-- The allocation pass has prepared the insertion. -/
structure Ready (r : RowInsert) (c : Ctx) : Prop extends r.Written c where
  registered : List.replicate r.words.length .i64 ∈ c.rowTypes
  slots : RecordSlots c r.rowType r.key r.value r.tuple

theorem Written.later {r : RowInsert} {c c' : Ctx} (h : r.Written c) (ha : c.Allots c') : r.Written c' :=
  { h with schema := ha.schemas ▸ h.schema }

theorem Ready.later {r : RowInsert} {c c' : Ctx} (h : r.Ready c) (ha : c.Allots c') : r.Ready c' :=
  ⟨h.toWritten.later ha, ha.rows h.registered, h.slots.later ha⟩

/-- `alloca_stack` prepares an insertion. -/
theorem Written.ready {r : RowInsert} {c c' : Ctx} (h : r.Written c)
    (hrun : (allocaInsert r.table r.row {}).run c = .ok (r.frame, c')) : r.Ready c' ∧ c.Allots c' := by
  obtain ⟨s, rowType, k, v, t, c₁, c₂, hschema, hframe, htype, hrows, hslots, ha⟩ := allocaInsert_slots hrun
  obtain ⟨rfl, hmem⟩ := h.row.getType_eq htype
  simp only [frame, InsertFrame.mk.injEq, Option.some.injEq] at hframe
  obtain ⟨-, rfl, rfl, rfl⟩ := hframe
  exact ⟨⟨h.later ha, hrows ▸ hmem, hslots⟩, ha⟩

/-- The allocation pass prepares any sequence of insertions. -/
theorem ready_of_allocation (rs : List RowInsert) {c c' : Ctx} (h : ∀ r ∈ rs, r.Written c)
    (hrun : (eachStatement (rs.map source)).run c = .ok (rs.map statement, c')) :
    (∀ r ∈ rs, r.Ready c') ∧ c.Allots c' := by
  induction rs generalizing c with
  | nil =>
    obtain ⟨-, rfl⟩ := pure_eq_ok.mp hrun
    exact ⟨by simp, rfl, List.prefix_rfl, List.Subset.refl _⟩
  | cons r rs ih =>
    rw [List.forall_mem_cons] at h
    obtain ⟨s, c₁, hvisit, hrun⟩ := bind_eq_ok.mp hrun
    obtain ⟨ss, c₂, hrest, hret⟩ := bind_eq_ok.mp hrun
    obtain ⟨hcons, rfl⟩ := pure_eq_ok.mp hret
    obtain ⟨rfl, rfl⟩ := List.cons.inj hcons
    obtain ⟨frame', c₃, halloca, hret⟩ := bind_eq_ok.mp hvisit
    obtain ⟨hstatement, rfl⟩ := pure_eq_ok.mp hret
    obtain ⟨-, -, rfl⟩ := Statement.insert.inj hstatement
    obtain ⟨hready, ha⟩ := h.1.ready halloca
    obtain ⟨hready', ha'⟩ := ih (fun x hx => (h.2 x hx).later ha) hrest
    exact ⟨List.forall_mem_cons.mpr ⟨hready.later ha', hready'⟩, ha.trans ha'⟩

theorem Ready.mono {r : RowInsert} {c c' : Ctx} {d d' : Bytes} (h : r.Ready c) (hm : Moves c c' d d') :
    r.Ready c' :=
  { h with schema := hm.schemas ▸ h.schema, registered := hm.rowTypes h.registered,
           slots := h.slots.mono hm }

theorem sum_intCell_le (as : List Attribute) : ((as.map intCell).map Cell.size).sum ≤ 9*as.length := by
  induction as with
  | nil => exact le_rfl
  | cons a as ih =>
    have hsize : (intCell a).size ≤ 9 := by
      cases ha : a.isNullable <;> simp [intCell, ha]
    simp only [List.map_cons, List.sum_cons, List.length_cons] at ih ⊢
    omega

/-- One insertion passes on the record of its row. -/
theorem Ready.codegen {r : RowInsert} {c : Ctx} (h : r.Ready c) (d : Bytes) :
    ∃ c' d' record, (r.statement.codegen []).run c = .ok ((), c') ∧ Moves c c' d d' ∧
      insertRecord r.schema r.words (fun a => d.area r.tuple (8*r.words.length+a)) (d.area r.key)
        (d.area r.value) = some record ∧
      d'.inserted = d.inserted ++ [record] := by
  have hput : r.row.getValue.Puts c d r.rowType (.row fun i => r.words[i]?) := h.row.puts h.registered
  obtain ⟨row, c₁, d₁, hvalue, hrowTy, hm₁, hrow, hd₁⟩ := hput
  have h₁ := h.mono hm₁
  have hsum := sum_intCell_le r.schema.attrs
  have hlt := h.size
  obtain ⟨c', d', record, hrun, hm', hrecord, hinserted, -⟩ :=
    insertCode_record hvalue h₁.schema (h₁.row.run_getType h₁.registered) rfl h.length (mapM_cell h.ints)
      (by omega) h₁.slots hrowTy hrow
  refine ⟨c', d', record, ?_, hm₁.trans hm', ?_, ?_⟩
  · rw [statement, Statement.codegen]
    exact hrun
  · rw [hd₁] at hrecord
    exact hrecord
  · rw [hinserted, hd₁]

end RowInsert

/-- Any sequence of insertions passes on one record for each of them, in their order. -/
theorem codegenAll_records (rs : List RowInsert) {c : Ctx} (h : ∀ r ∈ rs, r.Ready c) (d : Bytes) :
    ∃ c' d' inserts, (codegenAll [] (rs.map RowInsert.statement)).run c = .ok ((), c') ∧ Moves c c' d d' ∧
      List.Forall₂ (fun r (i : Insertion) => i.table = r.schema ∧ i.row = r.words) rs inserts ∧
      d'.inserted.map some = d.inserted.map some ++ inserts.map Insertion.record := by
  induction rs generalizing c d with
  | nil => exact ⟨c, d, [], rfl, .refl c d, .nil, by simp⟩
  | cons r rs ih =>
    rw [List.forall_mem_cons] at h
    obtain ⟨c₁, d₁, record, hrun₁, hm₁, hrecord, hinserted₁⟩ := h.1.codegen d
    obtain ⟨c', d', inserts, hrun', hm', hinserts, hinserted'⟩ := ih (fun q hq => (h.2 q hq).mono hm₁) d₁
    have hinsert : (r.insertion d).record = some record := hrecord
    refine ⟨c', d', r.insertion d :: inserts, ?_, hm₁.trans hm', .cons ⟨rfl, rfl⟩ hinserts, ?_⟩
    · rw [List.map_cons, codegenAll, Gen.bind_ok hrun₁]
      exact hrun'
    · simp [hinserted', hinserted₁, hinsert]

theorem runInserts_of_records {inserts : List Insertion} {records : List (Text × Text)}
    (h : records.map some = inserts.map Insertion.record) (st : Store) :
    inserts.foldl (fun st i => match i.record with
      | some record => st.insert record
      | none => st) st = records.foldl Store.insert st := by
  induction inserts generalizing records st with
  | nil =>
    obtain rfl := List.map_eq_nil_iff.mp h
    rfl
  | cons i inserts ih =>
    obtain ⟨record, rest, rfl, hrecord, hrest⟩ := List.map_eq_cons_iff.mp h
    rw [List.foldl_cons, List.foldl_cons, ← hrecord]
    exact ih hrest _

/-- The emitted code of any sequence of insertions passes on the record of each row, in their order, and
fills the store as the insertions of the rows do. -/
theorem codegenAll_inserts (rs : List RowInsert) {c : Ctx} (h : ∀ r ∈ rs, r.Ready c) {d : Bytes}
    (hd : d.inserted = []) :
    ∃ c' d' inserts, (codegenAll [] (rs.map RowInsert.statement)).run c = .ok ((), c') ∧ Moves c c' d d' ∧
      List.Forall₂ (fun r (i : Insertion) => i.table = r.schema ∧ i.row = r.words) rs inserts ∧
      d'.inserted.map some = inserts.map Insertion.record ∧
      d'.inserted.foldl Store.insert (fun _ => none) = runInserts inserts := by
  obtain ⟨c', d', inserts, hrun, hm, hinserts, hinserted⟩ := codegenAll_records rs h d
  rw [hd, List.map_nil, List.nil_append] at hinserted
  exact ⟨c', d', inserts, hrun, hm, hinserts, hinserted, (runInserts_of_records hinserted _).symm⟩

/-- A table with a key and a nullable column. -/
def pairTable : Schema :=
  ⟨text "t", [⟨text "k", ⟨.integer, 0⟩, propKey⟩, ⟨text "v", ⟨.integer, 0⟩, propNullable⟩]⟩

def pairRow (element row : Option NodeType) (a b : BitVec 64) : Expression :=
  .rowLiteral { type := row } [.primary { type := element } (some (.int a)),
    .primary { type := element } (some (.int b))]

/-- An analysed insertion. -/
def pairInsert (a b : BitVec 64) (slot : ℕ) : RowInsert where
  table := text "t"
  schema := pairTable
  row := pairRow (some (.primary .integer))
    (some (anonymousTuple [some (.primary .integer), some (.primary .integer)])) a b
  words := [a, b]
  key := slot
  value := slot+1
  tuple := slot+2

def pairs : List RowInsert := [pairInsert 1 2 0, pairInsert 3 4 3]

/-- The definition of the table, with the types that the analysis finds for its columns. -/
def pairDefinition (types : List (Option NodeType)) : Statement :=
  .define (some (.tuple .tuple [text "k", text "v"] [text "int", text "int"] [propKey, propNullable]
    [none, none] types)) (text "t")

/-- `define<{int:k key, int:v nullable}> t insert t {1, 2} insert t {3, 4}` -/
def pairProgram : List Statement :=
  [pairDefinition [], .insert (text "t") (pairRow none none 1 2) {},
    .insert (text "t") (pairRow none none 3 4) {}]

/-- The same behind the passes. -/
def pairStatements : List Statement :=
  pairDefinition [some (.primary .integer), some (.primary .integer)] :: pairs.map RowInsert.statement

def contextBehind {α : Type} (p : Gen α) : Ctx :=
  match p.run Ctx.initial with
  | .ok (_, c) => c
  | .error _ => Ctx.initial

/-- The context behind the definition of the table. -/
def pairDefined : Ctx := contextBehind do
  let ss ← analyzeAll pairProgram
  let entry ← createBlock
  setInsertPoint entry
  eachStatement (ss.take 1)

def pairCtx : Ctx := contextBehind (passes pairProgram)

def freshBytes : Bytes := ⟨fun _ => .unknown, fun _ _ => 0, ([], []), []⟩

theorem pairInsert_written (a b : BitVec 64) (slot : ℕ) : (pairInsert a b slot).Written pairDefined where
  schema := rfl
  row := ⟨_, _, rfl, .cons ⟨_, rfl⟩ (.cons ⟨_, rfl⟩ .nil)⟩
  length := rfl
  ints := by simp [Schema.IntColumns, pairInsert, pairTable]
  size := show pairTable.getKeyPrefix.length+9*2 < 2^31 by decide

theorem pairs_ready : ∀ r ∈ pairs, r.Ready pairCtx := by
  have hrun : (eachStatement (pairs.map RowInsert.source)).run pairDefined =
      .ok (pairs.map RowInsert.statement, pairCtx) := rfl
  exact (RowInsert.ready_of_allocation pairs (by simp [pairs, pairInsert_written]) hrun).1

theorem codegenAll_inserts_pairs : ∃ c' d' inserts,
    (passes pairProgram).run Ctx.initial = .ok (pairStatements, pairCtx) ∧
      (codegenAll [] (pairs.map RowInsert.statement)).run pairCtx = .ok ((), c') ∧
      Moves pairCtx c' freshBytes d' ∧
      List.Forall₂ (fun (r : RowInsert) (i : Insertion) => i.table = r.schema ∧ i.row = r.words)
        pairs inserts ∧
      d'.inserted.map some = inserts.map Insertion.record ∧
      d'.inserted.foldl Store.insert (fun _ => none) = runInserts inserts := by
  obtain ⟨c', d', inserts, h⟩ := codegenAll_inserts pairs (d := freshBytes) pairs_ready rfl
  exact ⟨c', d', inserts, rfl, h⟩

/-- The body of a scan that stands on the record of a row begins with the row. -/
theorem scanRow_words {i : Insertion} {record : Text × Text} (hrecord : i.record = some record)
    (hints : i.table.IntColumns) (hu : UniformAfterNullable i.table.attrs)
    (hlen : i.row.length = i.table.attrs.length)
    (hsize : i.table.getKeyPrefix.length+8*i.table.attrs.length ≤ 2^31) (c : Ctx) (d : Bytes) (id k v t : ℕ)
    (start stop : Option Text) (cursor : LLValue)
    (hslots : RecordSlots c (.scanRow id (List.replicate i.row.length .i64)) k v t)
    (hcurrent : d.current = record) :
    ∃ c' d', (scanRow i.table (.scanRow id (List.replicate i.row.length .i64))
        ⟨start, stop, some k, some v, some t⟩ cursor).run c = .ok ((), c') ∧ Moves c c' d d' ∧
      d'.area t = tupleMemory i.row fun a => d.area t (8*i.row.length+a) := by
  have hfields : (LLType.scanRow id (List.replicate i.row.length .i64)).fields =
      some (List.replicate i.table.attrs.length .i64) := by
    rw [← hlen]
    rfl
  obtain ⟨c', d', hrun, hm, harea, -, -⟩ :=
    scanRow_record i.table start stop cursor d hslots hfields hsize
  refine ⟨c', d', hrun, hm, ?_⟩
  obtain ⟨record', hrecord', hscan⟩ := scan_insert hints i.row i.after i.key i.value (d.area k) (d.area v)
  rw [← Insertion.record, hrecord] at hrecord'
  obtain rfl := Option.some.inj hrecord'
  have hwords : scanRecord i.table record (d.area k) (d.area v) = i.row := by
    rw [hscan, (aligned_start _ _).loadWords_eq hu, ← hlen, tupleWords_tupleMemory]
  rw [harea, hcurrent, hwords, hlen]

/-- The store holds nothing but what was inserted. -/
theorem foldl_insert_some {records : List (Text × Text)} {st : Store} {k v : Text}
    (h : records.foldl Store.insert st k = some v) : st k = some v ∨ (k, v) ∈ records := by
  induction records generalizing st with
  | nil => exact .inl h
  | cons record records ih =>
    obtain hst | hmem := ih h
    · unfold Store.insert at hst
      split_ifs at hst with hk
      · obtain rfl := Option.some.inj hst
        obtain ⟨rfl, -⟩ := hk
        exact .inr List.mem_cons_self
      · exact .inl hst
    · exact .inr (List.mem_cons_of_mem record hmem)

theorem exists_of_forall₂ {α β : Type} {R : α → β → Prop} {xs : List α} {ys : List β}
    (h : List.Forall₂ R xs ys) {y : β} (hy : y ∈ ys) : ∃ x ∈ xs, R x y := by
  induction h with
  | nil => exact absurd hy (by simp)
  | @cons x z xs ys hx _ ih =>
    obtain rfl | hy := List.mem_cons.mp hy
    · exact ⟨x, List.mem_cons_self, hx⟩
    · obtain ⟨x', hx', hR⟩ := ih hy
      exact ⟨x', List.mem_cons_of_mem x hx', hR⟩

/-- What the emitted insertions store comes back: every record of the store is the one of an inserted row,
and when the cursor of a scan of its table stands on it, the body of the scan begins with that row. -/
theorem scanRow_stored (rs : List RowInsert) {c : Ctx} (h : ∀ r ∈ rs, r.Ready c)
    (hu : ∀ r ∈ rs, UniformAfterNullable r.schema.attrs) {d : Bytes} (hd : d.inserted = []) :
    ∃ c' d', (codegenAll [] (rs.map RowInsert.statement)).run c = .ok ((), c') ∧ Moves c c' d d' ∧
      ∀ key value, d'.inserted.foldl Store.insert (fun _ => none) key = some value →
        ∃ r ∈ rs, r.schema.getKeyPrefix <+: key ∧
          ∀ (c₁ : Ctx) (d₁ : Bytes) (id k v t : ℕ) (start stop : Option Text) (cursor : LLValue),
            RecordSlots c₁ (.scanRow id (List.replicate r.words.length .i64)) k v t →
            d₁.current = (key, value) →
            ∃ c₂ d₂, (scanRow r.schema (.scanRow id (List.replicate r.words.length .i64))
                ⟨start, stop, some k, some v, some t⟩ cursor).run c₁ = .ok ((), c₂) ∧ Moves c₁ c₂ d₁ d₂ ∧
              d₂.area t = tupleMemory r.words fun a => d₁.area t (8*r.words.length+a) := by
  obtain ⟨c', d', inserts, hrun, hm, hinserts, hinserted⟩ := codegenAll_records rs h d
  rw [hd, List.map_nil, List.nil_append] at hinserted
  refine ⟨c', d', hrun, hm, ?_⟩
  intro key value hstored
  have hmem : (key, value) ∈ d'.inserted := by
    obtain hnone | hmem := foldl_insert_some hstored
    · exact absurd hnone (by simp)
    · exact hmem
  have hsome : some (key, value) ∈ inserts.map Insertion.record := by
    rw [← hinserted]
    exact List.mem_map_of_mem hmem
  obtain ⟨i, hi, hrecord⟩ := List.mem_map.mp hsome
  obtain ⟨r, hr, htable, hrow⟩ := exists_of_forall₂ hinserts hi
  have hready := h r hr
  have hlt := hready.size
  refine ⟨r, hr, ?_, ?_⟩
  · have heq := insertRecord_eq (mapM_cell hready.ints) i.row i.after i.key i.value
    rw [← htable, ← Insertion.record, hrecord, Option.some.injEq, Prod.mk.injEq] at heq
    rw [← htable, heq.1]
    exact List.prefix_append _ _
  · rw [← htable, ← hrow]
    rw [← htable] at hlt
    exact scanRow_words hrecord (htable ▸ hready.ints) (htable ▸ hu r hr)
      (by rw [hrow, htable, hready.length]) (by omega)

theorem scanRow_stored_pairs : ∃ c' d',
    (passes pairProgram).run Ctx.initial = .ok (pairStatements, pairCtx) ∧
      (codegenAll [] (pairs.map RowInsert.statement)).run pairCtx = .ok ((), c') ∧
      Moves pairCtx c' freshBytes d' ∧
      ∀ key value, d'.inserted.foldl Store.insert (fun _ => none) key = some value →
        ∃ r ∈ pairs, r.schema.getKeyPrefix <+: key ∧
          ∀ (c₁ : Ctx) (d₁ : Bytes) (id k v t : ℕ) (start stop : Option Text) (cursor : LLValue),
            RecordSlots c₁ (.scanRow id (List.replicate r.words.length .i64)) k v t →
            d₁.current = (key, value) →
            ∃ c₂ d₂, (scanRow r.schema (.scanRow id (List.replicate r.words.length .i64))
                ⟨start, stop, some k, some v, some t⟩ cursor).run c₁ = .ok ((), c₂) ∧ Moves c₁ c₂ d₁ d₂ ∧
              d₂.area t = tupleMemory r.words fun a => d₁.area t (8*r.words.length+a) := by
  have huniform : ∀ a b slot, UniformAfterNullable (pairInsert a b slot).schema.attrs := fun a b slot =>
    ⟨fun h => absurd h (by decide), fun _ _ hb => absurd hb (by simp), trivial⟩
  obtain ⟨c', d', h⟩ :=
    scanRow_stored pairs (d := freshBytes) pairs_ready (by simp [pairs, huniform]) rfl
  exact ⟨c', d', rfl, h⟩

end Reir
