import Reir.IntegerPasses
import Reir.ParsedTrees

/-! The compiled code of integer programs runs the way their direct semantics says. -/
namespace Reir
open Gen BlockGraph StructuredCode

theorem Expression.number_plain {e : Expression} {t : Number} (h : e.number = some t) :
    e.plain = true ∧ e.callees = [] := by
  induction e using Expression.induction generalizing t with
  | primary n v => exact ⟨rfl, rfl⟩
  | binary n l op r hl hr =>
    simp only [number, Option.bind_eq_bind, Option.bind_eq_some_iff] at h
    obtain ⟨o, -, l', hl', r', hr', -⟩ := h
    simp [plain, callees, hl hl', hr hr']
  | variableRef n x => exact ⟨rfl, rfl⟩
  | assign n target v _ hv =>
    cases target with
    | «variable» m x =>
      simp only [number, Option.bind_eq_bind, Option.bind_eq_some_iff] at h
      obtain ⟨v', hv', -⟩ := h
      simp [plain, callees, asVariable, hv hv']
    | _ => exact absurd h (by simp [number])
  | _ => exact absurd h (by simp [number])

theorem Expression.truth_plain {e : Expression} {c : Condition} (h : e.truth = some c) :
    e.plain = true ∧ e.callees = [] := by
  induction e using Expression.induction generalizing c with
  | binary n l op r hl hr =>
    have hoperand : ∀ {a : Expression} {b : Condition},
        (∀ {c}, a.truth = some c → a.plain = true ∧ a.callees = []) → a.condition = some b →
          a.plain = true ∧ a.callees = [] := by
      intro a b ih hb
      rcases Expression.condition_eq_some hb with htruth | ⟨t, ht, -⟩
      · exact ih htruth
      · exact a.number_plain ht
    have hparts : (l.plain = true ∧ l.callees = []) ∧ r.plain = true ∧ r.callees = [] := by
      cases op with
      | conditionalAnd | conditionalOr =>
        simp only [truth, Option.bind_eq_bind, Option.bind_eq_some_iff] at h
        obtain ⟨l', hl', r', hr', -⟩ := h
        exact ⟨hoperand hl hl', hoperand hr hr'⟩
      | _ =>
        simp only [truth, Option.bind_eq_bind, Option.bind_eq_some_iff] at h
        obtain ⟨o, -, l', hl', r', hr', -⟩ := h
        exact ⟨l.number_plain hl', r.number_plain hr'⟩
    simp [plain, callees, hparts]
  | _ => exact absurd h (by simp [truth])

theorem Expression.condition_plain {e : Expression} {c : Condition} (h : e.condition = some c) :
    e.plain = true ∧ e.callees = [] := by
  rcases Expression.condition_eq_some h with htruth | ⟨t, ht, -⟩
  · exact e.truth_plain htruth
  · exact e.number_plain ht

theorem calls_none {T : Ctx} {e : Expression} (h : e.callees = []) : e.getValue.Calls T fun _ _ => False := by
  apply (straightRules T _).getValue
  intro f hf
  rw [h] at hf
  exact absurd hf (by simp)

theorem exec_store_slot (d : Data) (tag : Tag) (v : LLValue) (i : ℕ) (ty : LLType) :
    (Instr.store tag v (slotPtr i ty)).exec d = some ((d.setMem i (d.eval v)).note (.store tag (some i))) :=
  rfl

/-- The value of a result is known, next to those of the variables. -/
abbrev Holding {α : Type} (T : Ctx) (rel : α → Val → Prop) (v : LLValue) (r : α × Env) (d : Data) : Prop :=
  rel r.1 (d.eval v) ∧ Represents T r.2 d

section
variable {T : Ctx} {j : Bool} (hT : Numbered T)
include hT

/-- The code of a number leaves its value in the result. -/
theorem behaves_number {e : Expression} {t : Number} (h : e.number = some t) (hvars : T.Binds t.vars) :
    e.getValue.Behaves T j (Represents T) (Holding T IsNumber) (.silent t.run) := by
  obtain ⟨hplain, hcallees⟩ := e.number_plain h
  exact (e.denotes hplain).behaves (calls_none hcallees) (e.follows_number hT h hvars)

theorem behaves_truth {e : Expression} {c : Condition} (h : e.truth = some c) (hvars : T.Binds c.vars) :
    e.getValue.Behaves T j (Represents T) (Holding T IsBit) (.silent c.run) := by
  obtain ⟨hplain, hcallees⟩ := e.truth_plain h
  exact (e.denotes hplain).behaves (calls_none hcallees) (e.follows_truth hT h hvars).2

/-- The test of an `If`. -/
theorem tests_condition {e : Expression} {c : Condition} (h : e.condition = some c)
    (hvars : T.Binds c.vars) (tag : Tag) : (e.getValue >>= toI1).Lays T false fun _ v _ k =>
      Tests machine Data.outputs (Represents T) k (tag, v) c.run := by
  obtain ⟨hplain, hcallees⟩ := e.condition_plain h
  have hcalls : (e.getValue >>= toI1).Calls T fun _ _ => False :=
    (straightRules T _).bind (calls_none hcallees) (straightRules T _).toI1
  exact (e.denotes hplain).bit.tests hcalls (e.follows_condition hT h hvars) tag

/-- The test of a `For`. -/
theorem tests_truth {e : Expression} {c : Condition} (h : e.truth = some c) (hvars : T.Binds c.vars)
    (tag : Tag) : e.getValue.Lays T false fun _ v _ k =>
      Tests machine Data.outputs (Represents T) k (tag, v) c.run := by
  obtain ⟨hplain, hcallees⟩ := e.truth_plain h
  exact (e.denotes hplain).tests (calls_none hcallees) (e.follows_truth hT h hvars).2 tag

theorem behaves_letCode {e : Expression} {t : Number} (h : e.number = some t) (hvars : T.Binds t.vars)
    (x : Text) : (letCode x e).Behaves T j (Represents T) (fun _ => Represents T)
      (.step (Init.letVar x t).run) := by
  refine (quietRules.getType e).bindBehaves fun _ _ _ _ _ => ?_
  refine quietRules.get.bindBehaves fun _ c _ htables hget => ?_
  obtain ⟨rfl, -⟩ := get_eq_ok.mp hget
  refine (quietRules.require _ _).bindBehaves fun _ i _ _ hrequire => ?_
  have hi : (T.vars x).join = some i := by
    rw [← htables]
    exact (require_eq_ok.mp hrequire).1
  refine (quietRules.slotOf _).bindBehaves fun _ stack _ _ hslot => ?_
  obtain ⟨_, ty, hsome, -, rfl, -⟩ := slotOf_eq_ok.mp hslot
  obtain rfl := Option.some.inj hsome
  have hstore : ∀ v, (createStore ⟨.letStmt, 0⟩ v (slotPtr i ty)).Behaves T j
      (Holding T IsNumber v) (fun _ => Represents T)
      (.step fun r => some (Function.update r.2 x r.1, [])) := by
    intro v
    refine behaves_emitInstr rfl rfl ?_ fun _ _ _ hnone => absurd hnone (by simp)
    rintro ⟨n, ρ⟩ d s' os ⟨hn, hd⟩ hs'
    obtain ⟨rfl, rfl⟩ := Prod.mk.inj (Option.some.inj hs')
    refine ⟨(d.setMem i (.int n)).note (.store ⟨.letStmt, 0⟩ (some i)), ?_, hd.setMem hT hi n, ?_⟩
    · have heval : d.eval v = .int n := hn
      rw [exec_store_slot, heval]
    · rw [Data.outputs_note_none _ rfl, List.append_nil, Data.outputs_setMem]
  refine ((behaves_number hT h hvars).bindStep hstore).congr fun _ _ _ => ?_
  have hrun : (fun ρ => (t.run ρ).bind fun r => some (Function.update r.2 x r.1, ([] : List Output))) =
      (Init.letVar x t).run := by
    funext ρ
    simp only [Init.run, Option.map_eq_bind]
    rfl
  rw [hrun]

omit hT in
/-- A value that is thrown away. -/
theorem behaves_discard {α : Type} {e : Expression} {f : Env → Option (α × Env)} {rel : α → Val → Prop}
    (h : e.getValue.Behaves T j (Represents T) (Holding T rel) (.silent f)) :
    (e.getValue >>= fun _ => (Pure.pure () : Gen Unit)).Behaves T j (Represents T) (fun _ => Represents T)
      (.step fun ρ => (f ρ).map fun r => (r.2, [])) := by
  have hpure : ∀ v, (Pure.pure () : Gen Unit).Behaves T j (Holding T rel v) (fun _ => Represents T)
      (.silent fun r => some r.2) := fun v => behaves_pure fun _ _ hd => hd.2
  refine (h.bindStep hpure).congr fun _ _ _ => ?_
  have hmap : (fun ρ => (f ρ).bind fun r => (some r.2).map fun ρ' => (ρ', ([] : List Output))) =
      fun ρ => (f ρ).map fun r => (r.2, []) := by
    funext ρ
    rw [Option.map_eq_bind]
    rfl
  rw [hmap]

/-- The arguments of a call that prints a number. -/
theorem behaves_printArgs {e : Expression} {t : Number} (h : e.number = some t) (hvars : T.Binds t.vars) :
    (getArgs [e]).Behaves T j (Represents T)
      (fun vs r d => vs.map d.eval = [.int r.1] ∧ Represents T r.2 d) (.silent t.run) := by
  obtain ⟨hplain, hcallees⟩ := e.number_plain h
  have hdenotes : ∀ a ∈ [e], a.getValue.Denotes T (a.kind T) (a.evaluate T) := by
    intro a ha
    obtain rfl := List.mem_singleton.mp ha
    exact a.denotes hplain
  have hcalls : (getArgs [e]).Calls T fun _ _ => False := by
    refine (straightRules T _).getArgs_of fun a ha => ?_
    obtain rfl := List.mem_singleton.mp ha
    exact calls_none hcallees
  have hargs : ∀ v w, IsNumber v w → Follows T (fun v ws => ws = [Val.int v]) (fun ρ => some (v, ρ))
      fun d => some ([w], d) := by
    intro v w hw
    obtain rfl := hw
    exact follows_pure rfl
  have hfollows : Follows T (fun v ws => ws = [Val.int v]) t.run (evaluateArgs T [e]) := by
    refine ((e.follows_number hT h hvars).bind hargs).congr (fun ρ => ?_) fun d => ?_
    · cases t.run ρ <;> rfl
    · simp only [evaluateArgs, e.kind_number hT h hvars, Data.pass, Option.bind_eq_bind]
      rfl
  exact (acts_getArgs hdenotes).behaves hcalls hfollows

omit hT in
/-- A call that is put out. -/
theorem behaves_call {α : Type} {R : α → Data → Prop} {ρ : α → Env} {o : α → Output} {tag : Tag} {f : Text}
    {vs : List LLValue} (hf : Data.writesBuffer f = false) (hrep : ∀ s d, R s d → Represents T (ρ s) d)
    (hout : ∀ s d, R s d → (Event.call tag f (vs.map d.eval) ((vs.map d.eval).map d.behind)
      (d.result f)).output = some (o s)) :
    (createCall tag f vs).Behaves T j R (fun _ => Represents T) (.step fun s => some (ρ s, [o s])) := by
  refine (quietRules.require _ _).bindBehaves fun _ ty _ _ _ => ?_
  refine behaves_emitResult (fun _ => rfl) (fun _ => rfl) ?_ fun _ _ _ _ hnone => absurd hnone (by simp)
  intro r s d s' os hs hstep
  obtain ⟨rfl, rfl⟩ := Prod.mk.inj (Option.some.inj hstep)
  have hcall : d.call r tag f (vs.map d.eval) = (d.note (.call tag f (vs.map d.eval)
      ((vs.map d.eval).map d.behind) (d.result f))).setReg r (d.result f) := by
    simp only [Data.call, hf]
  refine ⟨_, rfl, ?_, ?_⟩
  · rw [hcall]
    exact hrep s d hs
  · rw [hcall, Data.outputs_setReg, Data.outputs_note, hout s d hs]
    rfl

theorem behaves_print {e : Expression} {t : Number} (h : e.printed = some t) (hvars : T.Binds t.vars) :
    e.getValue.Behaves T j (Represents T) (fun _ => Represents T) (.step (Action.print t).run) := by
  unfold Expression.printed at h
  split at h
  case h_2 => exact absurd h (by simp)
  rename_i n m f a
  split_ifs at h with hf
  subst hf
  refine (quietRules.calleeName _).bindBehaves fun _ f _ _ hname => ?_
  obtain ⟨rfl, -⟩ := pure_eq_ok.mp hname
  refine (quietRules.require _ _).bindBehaves fun _ _ _ _ _ => ?_
  have hcall : ∀ vs, (createCall ⟨.functionCall, n.node⟩ (text "print_int") vs).Behaves T j
      (fun (r : BitVec 64 × Env) d => vs.map d.eval = [.int r.1] ∧ Represents T r.2 d)
      (fun _ => Represents T) (.step fun r => some (r.2, [.print r.1])) := by
    intro vs
    refine behaves_call rfl (fun _ _ hd => hd.2) ?_
    rintro r d ⟨hargs, -⟩
    rw [hargs]
    rfl
  refine ((behaves_printArgs hT h hvars).bindStep hcall).congr fun _ _ _ => ?_
  have hrun : (fun ρ => (t.run ρ).bind fun r => some (r.2, [Output.print r.1])) = (Action.print t).run := by
    funext ρ
    simp only [Action.run, Option.map_eq_bind]
    rfl
  rw [hrun]

omit hT in
theorem behaves_skip {α : Type} (v : α) : (Pure.pure v : Gen α).Behaves T j (Represents T)
    (fun _ => Represents T) (.silent some) :=
  behaves_pure fun _ _ hd => hd

/-- The code of an expression statement, and of the last part of the header of a loop. -/
theorem behaves_action {e : Expression} {a : Action} (h : e.action = some a) (hvars : T.Binds a.vars) :
    (e.getValue >>= fun _ => (Pure.pure () : Gen Unit)).Behaves T j (Represents T) (fun _ => Represents T)
      (.step a.run) := by
  rcases Expression.action_eq_some h with ⟨t, ht, rfl⟩ | ⟨t, ht, rfl⟩ | ⟨c, hc, rfl⟩
  · exact ((behaves_print hT ht hvars).bind fun _ => behaves_skip ()).congr fun _ _ _ =>
      Behaviour.step_seq_skip
  · exact behaves_discard (behaves_number hT ht hvars)
  · exact behaves_discard (behaves_truth hT hc hvars)

end

theorem Number.run_pure {t : Number} (h : t.isPure = true) {ρ ρ' : Env} {v : BitVec 64}
    (hrun : t.run ρ = some (v, ρ')) : ρ' = ρ := by
  induction t generalizing ρ ρ' v with
  | literal v => exact (Prod.mk.inj (Option.some.inj hrun)).2.symm
  | «variable» x => exact (Prod.mk.inj (Option.some.inj hrun)).2.symm
  | arith op l r hl hr =>
    obtain ⟨hpl, hpr⟩ := Bool.and_eq_true_iff.mp h
    simp only [run, Option.bind_eq_bind, Option.bind_eq_some_iff] at hrun
    obtain ⟨⟨a, ρ₁⟩, h₁, ⟨b, ρ₂⟩, h₂, w, -, hw⟩ := hrun
    obtain ⟨-, rfl⟩ := Prod.mk.inj (Option.some.inj hw)
    rw [hr hpr h₂, hl hpl h₁]
  | assign x e _ => exact absurd h (by simp [isPure])

def AreNumbers (n : ℕ) (vs : List (BitVec 64)) (ws : List Val) : Prop :=
  ws = vs.map Val.int ∧ vs.length = n

/-- The value of a row of so many numbers. -/
def IsRow (n : ℕ) (vs : List (BitVec 64)) (w : Val) : Prop := w = Val.tuple (vs.map Val.int) ∧ vs.length = n

theorem asRow_tuple (vs : List (BitVec 64)) : (Val.tuple (vs.map Val.int)).asRow = some vs := by
  have hmap : ∀ vs : List (BitVec 64), (vs.map Val.int).mapM Val.asNumber = some vs := by
    intro vs
    induction vs with
    | nil => rfl
    | cons v vs ih =>
      rw [List.map_cons, List.mapM_cons, ih]
      rfl
  cases vs with
  | nil => rfl
  | cons v vs => exact hmap (v :: vs)

/-- All of a row is captured if its length is handed over. -/
theorem captured_tuple {vs : List (BitVec 64)} {length : BitVec 64} (h : length.toNat / 8 = vs.length) :
    (Val.tuple (vs.map Val.int)).captured length = some vs := by
  simp [Val.captured, asRow_tuple, h]

theorem pureNumbers_cons {e : Expression} {es : List Expression} {ts : List Number}
    (h : pureNumbers (e :: es) = some ts) : ∃ t ts', e.number = some t ∧ t.isPure = true ∧
      pureNumbers es = some ts' ∧ ts = t :: ts' := by
  simp only [pureNumbers, Option.bind_eq_bind, Option.bind_eq_some_iff, Option.ite_none_right_eq_some] at h
  obtain ⟨t, ht, ts', hts', hpure, h⟩ := h
  exact ⟨t, ts', ht, hpure, hts', (Option.some.inj h).symm⟩

theorem pureNumbers_plain {es : List Expression} {ts : List Number} (h : pureNumbers es = some ts) :
    plainAll es = true ∧ calleesAll es = [] := by
  induction es generalizing ts with
  | nil => exact ⟨rfl, rfl⟩
  | cons e es ih =>
    obtain ⟨t, ts', ht, -, hts', -⟩ := pureNumbers_cons h
    obtain ⟨hplain, hcallees⟩ := e.number_plain ht
    obtain ⟨hplain', hcallees'⟩ := ih hts'
    simp [plainAll, calleesAll, hplain, hcallees, hplain', hcallees']

section
variable {T : Ctx} {j : Bool} (hT : Numbered T)
include hT

/-- Each element is evaluated twice, to the same value. -/
theorem follows_row {es : List Expression} {ts : List Number} (h : pureNumbers es = some ts)
    (hvars : T.Binds (ts.flatMap Number.vars)) :
    Follows T (AreNumbers es.length) (fun ρ => (rowValues ts ρ).map fun vs => (vs, ρ)) (evaluateRow T es) := by
  induction es generalizing ts with
  | nil =>
    obtain rfl := Option.some.inj h
    have hnil : Follows T (AreNumbers 0) (fun ρ => some ([], ρ)) fun d => some ([], d) :=
      follows_pure ⟨rfl, rfl⟩
    exact hnil
  | cons e es ih =>
    obtain ⟨t, ts', ht, hpure, hts', rfl⟩ := pureNumbers_cons h
    rw [List.flatMap_cons, Ctx.Binds.append] at hvars
    have hnumber := e.follows_number hT ht hvars.1
    have hcons : ∀ v w vs ws, IsNumber v w → AreNumbers es.length vs ws →
        Follows T (AreNumbers (es.length+1)) (fun ρ => some (v :: vs, ρ)) fun d => some (w :: ws, d) := by
      intro v w vs ws hw hws
      obtain rfl := hw
      obtain ⟨rfl, hlength⟩ := hws
      exact follows_pure ⟨rfl, congrArg (·+1) hlength⟩
    have hrest : ∀ v w, IsNumber v w → Follows T (AreNumbers (es.length+1))
        (fun ρ => ((rowValues ts' ρ).map fun vs => (vs, ρ)).bind fun r => some (v :: r.1, r.2))
        fun d => (evaluateRow T es d).bind fun r => some (w :: r.1, r.2) :=
      fun v w hw => (ih hts' hvars.2).bind fun vs ws hws => hcons v w vs ws hw hws
    refine (hnumber.bind fun _ _ _ => hnumber.bind hrest).congr (fun ρ => ?_) fun d => ?_
    · simp only [rowValues, Option.bind_eq_bind, Option.map_bind]
      cases hrun : t.run ρ with
      | none => rfl
      | some r =>
        obtain ⟨v, ρ'⟩ := r
        obtain rfl := t.run_pure hpure hrun
        simp only [hrun, Option.bind_some]
        cases rowValues ts' ρ' <;> rfl
    · simp only [evaluateRow, e.kind_number hT ht hvars.1, Data.field, Option.bind_eq_bind,
        Option.bind_some]

/-- The code of a row literal leaves the row in its result. -/
theorem behaves_row {es : List Expression} {ts : List Number} (h : pureNumbers es = some ts)
    (hvars : T.Binds (ts.flatMap Number.vars)) (n : Note) :
    (Expression.rowLiteral n es).getValue.Behaves T j (Represents T) (Holding T (IsRow es.length))
      (.silent fun ρ => (rowValues ts ρ).map fun vs => (vs, ρ)) := by
  obtain ⟨hplain, hcallees⟩ := pureNumbers_plain h
  have hcalls : (Expression.rowLiteral n es).getValue.Calls T fun _ _ => False := calls_none hcallees
  have htuple : ∀ vs ws, AreNumbers es.length vs ws →
      Follows T (IsRow es.length) (fun ρ => some (vs, ρ)) fun d => some (Val.tuple ws, d) := by
    intro vs ws hws
    obtain ⟨rfl, hlength⟩ := hws
    exact follows_pure ⟨rfl, hlength⟩
  have hfollows : Follows T (IsRow es.length) (fun ρ => (rowValues ts ρ).map fun vs => (vs, ρ))
      ((Expression.rowLiteral n es).evaluate T) := by
    refine ((follows_row hT h hvars).bind htuple).congr (fun ρ => ?_) fun d => ?_
    · cases rowValues ts ρ <;> rfl
    · simp only [Expression.evaluate, Option.bind_eq_bind]
  have hacts := Expression.denotes (T := T) (e := .rowLiteral n es) hplain
  exact hacts.behaves hcalls hfollows

omit hT in
/-- A row is put into a slot of its own. -/
theorem behaves_storeRow {i n : ℕ} (hspare : ∀ x, (T.vars x).join ≠ some i) (v : LLValue) (ty : LLType) :
    (createStore ⟨.emit, 0⟩ v (slotPtr i ty)).Behaves T j (Holding T (IsRow n) v)
      (fun _ (r : List (BitVec 64) × Env) d => IsRow n r.1 (d.mem i) ∧ Represents T r.2 d)
      (.silent some) := by
  refine behaves_emitInstr rfl rfl ?_ fun _ _ _ hnone => absurd hnone (by simp)
  rintro r d s' os ⟨hrow, hd⟩ hs'
  obtain ⟨rfl, rfl⟩ := Prod.mk.inj (Option.some.inj hs')
  refine ⟨_, exec_store_slot d _ v i ty, ⟨?_, hd.setSpare hspare _⟩, ?_⟩
  · simpa [Data.note, Data.setMem] using hrow
  · rw [Data.outputs_note_none _ rfl, List.append_nil, Data.outputs_setMem]

omit hT in
/-- The address of the slot. -/
theorem behaves_castSlot (i n : ℕ) (ty : LLType) :
    (createBitCast (slotPtr i ty) (.ptr .i8)).Behaves T j
      (fun (r : List (BitVec 64) × Env) d => IsRow n r.1 (d.mem i) ∧ Represents T r.2 d)
      (fun src r d => d.eval src = .ptr i [] ∧ IsRow n r.1 (d.mem i) ∧ Represents T r.2 d)
      (.silent some) := by
  unfold createBitCast
  split_ifs
  · exact behaves_pure fun _ _ hd => ⟨rfl, hd⟩
  · refine behaves_emitResult (fun _ => rfl) (fun _ => rfl) ?_ fun _ _ _ _ hnone => absurd hnone (by simp)
    intro r s d s' os hd hs'
    obtain ⟨rfl, rfl⟩ := Prod.mk.inj (Option.some.inj hs')
    refine ⟨_, rfl, ⟨eval_setReg _ _ _ _, hd⟩, ?_⟩
    rw [Data.outputs_setReg, List.append_nil]

omit hT in
/-- The row in the slot is handed to the outside, with its length in bytes. -/
theorem behaves_handRow (i : ℕ) {n : ℕ} (hn : 8*n < 2^64) (src : LLValue) :
    (createCall ⟨.emit, 0⟩ (text "__emit_func") [hostPtr, src, int64 ((8*n : ℕ) : BitVec 64)]).Behaves T j
      (fun (r : List (BitVec 64) × Env) d =>
        d.eval src = .ptr i [] ∧ IsRow n r.1 (d.mem i) ∧ Represents T r.2 d)
      (fun _ => Represents T) (.step fun r => some (r.2, [.row r.1])) := by
  refine behaves_call rfl (fun _ _ hd => hd.2.2) ?_
  rintro r d ⟨hsrc, ⟨hrow, hlength⟩, -⟩
  have hbehind : d.behind (d.eval src) = Val.tuple (r.1.map Val.int) := by
    rw [hsrc]
    exact hrow
  have hwords : ((8*n : ℕ) : BitVec 64).toNat / 8 = r.1.length := by
    rw [BitVec.natCast_eq_ofNat, BitVec.toNat_ofNat, Nat.mod_eq_of_lt hn, hlength]
    exact Nat.mul_div_cancel_left n (by decide)
  change some ((((d.behind (d.eval src)).captured ((8*n : ℕ) : BitVec 64)).map Output.row).getD .invalid) = _
  rw [hbehind, captured_tuple hwords]
  rfl

omit hT in
theorem primitiveBytes_numbers (es : List Expression) :
    ((es.map fun _ => LLType.i64).map LLType.primitiveBytes).sum = 8*es.length := by
  induction es with
  | nil => rfl
  | cons e es ih =>
    rw [List.map_cons, List.map_cons, List.sum_cons, ih, List.length_cons]
    change 8+8*es.length = 8*(es.length+1)
    omega

theorem behaves_emitCode {es : List Expression} {ts : List Number} (h : pureNumbers es = some ts)
    (hlength : 8*es.length < 2^64) (hvars : T.Binds (ts.flatMap Number.vars)) (n : Note) {slot : Option ℕ}
    (hslot : ∀ i ∈ slot, ∀ x, (T.vars x).join ≠ some i) :
    (emitCode slot (.rowLiteral n es)).Behaves T j (Represents T) (fun _ => Represents T)
      (Command.emit ts).does := by
  refine (quietRules.getType _).bindBehaves fun c t c' hc hrun => ?_
  have htype : (Expression.rowLiteral n es).typeIn c.typeEnv = some (.row (es.map fun _ => .i64)) := by
    have henv : c.typeEnv = T.typeEnv := by rw [← hc]; rfl
    simp [Expression.typeIn, henv, typesIn_numbers hT h hvars]
  have ht := ((Expression.rowLiteral n es).computes_getType.ok_iff c t).mp ⟨c', hrun⟩
  obtain rfl := Option.some.inj (htype.symm.trans ht)
  refine (quietRules.require _ _).bindBehaves fun _ fields _ _ hfields => ?_
  obtain rfl : (es.map fun _ => LLType.i64) = fields := Option.some.inj (require_eq_ok.mp hfields).1
  rw [primitiveBytes_numbers]
  have hrest : ∀ v, (do
      let stack ← slotOf slot
      createStore ⟨.emit, 0⟩ v stack
      let src ← createBitCast stack (.ptr .i8)
      let _ ← createCall ⟨.emit, 0⟩ (text "__emit_func")
        [hostPtr, src, int64 ((8*es.length : ℕ) : BitVec 64)]
      Pure.pure () : Gen Unit).Behaves T j (Holding T (IsRow es.length) v) (fun _ => Represents T)
        (.step fun r => some (r.2, [.row r.1])) := by
    intro v
    refine (quietRules.slotOf _).bindBehaves fun c stack c' _ hstack => ?_
    cases slot with
    | none =>
      obtain ⟨i, _, hi, -⟩ := bind_eq_ok.mp hstack
      exact absurd (require_eq_ok.mp hi).1 (by simp)
    | some i =>
      obtain ⟨_, ty, hsome, -, rfl, -⟩ := slotOf_eq_ok.mp hstack
      obtain rfl := Option.some.inj hsome
      exact (behaves_storeRow (hslot i rfl) v ty).bindStep fun _ => (behaves_castSlot i _ ty).bindStep
        fun src => ((behaves_handRow i hlength src).bind fun _ => behaves_skip ()).congr fun _ _ _ =>
          Behaviour.step_seq_skip
  refine ((behaves_row hT h hvars n).bindStep hrest).congr fun _ _ _ => ?_
  have hrun : (fun ρ => ((rowValues ts ρ).map fun vs => (vs, ρ)).bind fun r =>
      some (r.2, [Output.row r.1])) = fun ρ => (rowValues ts ρ).map fun vs => (ρ, [.row vs]) := by
    funext ρ
    cases rowValues ts ρ <;> rfl
  rw [hrun]
  rfl

end

section
variable {T : Ctx} (hT : Numbered T)
include hT

theorem behaves_ifCode {e : Expression} {c : Condition} (h : e.condition = some c)
    (hvars : T.Binds c.vars) {trueCode falseCode : Gen Unit} {A B : Behaviour Env Env Output}
    (ht : trueCode.Behaves T true (Represents T) (fun _ => Represents T) A)
    (hf : falseCode.Behaves T true (Represents T) (fun _ => Represents T) B) :
    (ifCode e.getValue trueCode falseCode).Behaves T true (Represents T) (fun _ => Represents T)
      (.branch c.run A B) := by
  refine Gen.Lays.mono (lays_ifCode (tests_condition hT h hvars ⟨.ifStmt, 0⟩) ht hf) ?_
  rintro _ _ _ k - ⟨_, v, _, k₁, _, _, k₂, _, _, k₃, htest, hA, hB, -, -, -, -, rfl⟩
  exact Realises.branch htest hA hB

theorem behaves_forLoop {e e' : Expression} {c : Condition} {a : Action} (h : e.truth = some c)
    (hvars : T.Binds c.vars) (ha : e'.action = some a) (hvars' : T.Binds a.vars) {blk : Gen Unit}
    {A : Behaviour Env Env Output}
    (hblk : blk.Behaves T true (Represents T) (fun _ => Represents T) A) :
    (forLoop (.to e) (.to e') blk).Behaves T true (Represents T) (fun _ => Represents T)
      (.loop c.run (A.seq (.step a.run))) := by
  have hcond : ∀ e₁, Ptr.to e = .to e₁ → e₁.getValue.Lays T false fun _ v _ k =>
      Tests machine Data.outputs (Represents T) k (⟨.forStmt, 0⟩, v) c.run := by
    intro e₁ he₁
    obtain rfl := Ptr.to.inj he₁
    exact tests_truth hT h hvars _
  refine Gen.Lays.mono (lays_forLoop (by simp) hcond hblk (behaves_action hT ha hvars')) ?_
  rintro _ _ _ k - ⟨_, v, _, k₁, _, _, k₂, _, _, k₃, htest, hA, hevery, -, -, -, -, rfl⟩
  exact Realises.loop htest hA hevery

/-- The code of a step is generated, and does what a behaviour of the variables says. -/
structure Implements (T : Ctx) (p : Gen Unit) (B : Behaviour Env Env Output) : Prop where
  generates : p.Generates T fun _ => True
  behaves : p.Behaves T true (Represents T) (fun _ => Represents T) B

omit hT in
theorem Implements.seq {p q : Gen Unit} {A B : Behaviour Env Env Output} (hp : Implements T p A)
    (hq : Implements T q B) : Implements T (p >>= fun _ => q) (A.seq B) :=
  ⟨hp.generates.bind fun _ _ => hq.generates, hp.behaves.bind fun _ => hq.behaves⟩

omit hT in
theorem implements_skip : Implements T (Pure.pure ()) (.silent some) :=
  ⟨generates_pure trivial, behaves_skip ()⟩

theorem implements_init {s : Statement} {i : Init} (h : s.init = some i) {xs ys : List Text}
    (hscope : i.scope xs = some ys) (hbinds : T.Binds ys) (around : List Frame) :
    Implements T (s.codegen around) (.step i.run) := by
  cases s with
  | letStmt x e type =>
    obtain ⟨t, ht, rfl⟩ := Option.map_eq_some_iff.mp h
    obtain ⟨hvars, hys⟩ := Option.ite_none_right_eq_some.mp hscope
    obtain rfl := Option.some.inj hys
    obtain ⟨hx, hxs⟩ := Ctx.Binds.cons.mp hbinds
    have ht' : T.Binds t.vars := fun y hy => hxs y (hvars hy)
    exact ⟨generates_letCode hT ht ht' hx, behaves_letCode hT ht ht' x⟩
  | exprStatement stack e =>
    obtain ⟨a, ha, rfl⟩ := Option.map_eq_some_iff.mp h
    obtain ⟨hvars, hys⟩ := Option.ite_none_right_eq_some.mp hscope
    obtain rfl := Option.some.inj hys
    have ha' : T.Binds a.vars := fun y hy => hbinds y (hvars hy)
    exact ⟨generates_action hT ha ha', behaves_action hT ha ha'⟩
  | _ => exact absurd h (by simp [Statement.init])

end

theorem Init.scope_subset {i : Init} {xs ys : List Text} (h : i.scope xs = some ys) : xs ⊆ ys := by
  cases i with
  | letVar x e =>
    obtain ⟨-, hys⟩ := Option.ite_none_right_eq_some.mp h
    obtain rfl := Option.some.inj hys
    exact List.subset_cons_self _ _
  | action a =>
    obtain ⟨-, hys⟩ := Option.ite_none_right_eq_some.mp h
    obtain rfl := Option.some.inj hys
    exact List.Subset.refl _

theorem scopeAll_subset_of {ss : List Statement} {ps : List Command}
    (h : ∀ s ∈ ss, ∀ {xs ys : List Text} {p : Command}, s.command = some p → p.scope xs = some ys → xs ⊆ ys)
    (hps : commands ss = some ps) {xs ys : List Text} (hscope : scopeAll xs ps = some ys) : xs ⊆ ys := by
  induction ss generalizing ps xs with
  | nil =>
    obtain rfl := Option.some.inj hps
    obtain rfl := Option.some.inj hscope
    exact List.Subset.refl _
  | cons s ss ih =>
    rw [List.forall_mem_cons] at h
    simp only [commands, Option.bind_eq_bind, Option.bind_eq_some_iff] at hps
    obtain ⟨p, hp, ps', hps', hps⟩ := hps
    obtain rfl := Option.some.inj hps
    obtain ⟨zs, hzs, hys⟩ := Option.bind_eq_some_iff.mp hscope
    exact List.Subset.trans (h.1 hp hzs) (ih h.2 hps' hys)

/-- What is in scope stays in scope. -/
theorem scope_subset (s : Statement) {xs ys : List Text} {p : Command} (h : s.command = some p)
    (hscope : p.scope xs = some ys) : xs ⊆ ys := by
  induction s using Statement.induction generalizing xs ys p with
  | block ss hss =>
    obtain ⟨ps, hps, rfl⟩ := Option.map_eq_some_iff.mp h
    exact scopeAll_subset_of (fun s hs => hss s hs) hps hscope
  | forStmt init cond every blk _ hblk =>
    obtain ⟨s, c, e, i, t, a, ps, rfl, rfl, rfl, -, -, -, hps, rfl⟩ := command_forStmt h
    obtain ⟨zs, hzs, hscope⟩ := Option.bind_eq_some_iff.mp hscope
    obtain ⟨-, hscope⟩ := Option.ite_none_right_eq_some.mp hscope
    exact List.Subset.trans (Init.scope_subset hzs) (scopeAll_subset_of (fun s hs => hblk s hs) hps hscope)
  | emit stack e =>
    obtain ⟨n, es, ts, rfl, -, -, rfl⟩ := command_emit h
    obtain ⟨-, hys⟩ := Option.ite_none_right_eq_some.mp hscope
    obtain rfl := Option.some.inj hys
    exact List.Subset.refl _
  | ifStmt cond ts fs hts hfs =>
    obtain ⟨c, ps, qs, -, hps, hqs, rfl⟩ := command_ifStmt h
    obtain ⟨-, hscope⟩ := Option.ite_none_right_eq_some.mp hscope
    obtain ⟨zs, hzs, hys⟩ := Option.bind_eq_some_iff.mp hscope
    refine List.Subset.trans (scopeAll_subset_of (fun s hs => hts s hs) hps hzs) ?_
    cases fs with
    | none =>
      obtain rfl := Option.some.inj hqs
      obtain rfl := Option.some.inj hys
      exact List.Subset.refl _
    | some ss => exact scopeAll_subset_of (fun s hs => hfs ss rfl s hs) hqs hys
  | letStmt x e type =>
    obtain ⟨i, -, rfl⟩ := Option.map_eq_some_iff.mp h
    exact Init.scope_subset hscope
  | exprStatement stack e =>
    obtain ⟨i, -, rfl⟩ := Option.map_eq_some_iff.mp h
    exact Init.scope_subset hscope
  | _ => exact absurd h (by simp [Statement.command, Statement.init])

section
variable {T : Ctx} (hT : Numbered T)
include hT

omit hT in
theorem implements_all_of (around : List Frame) {ss : List Statement} {ps : List Command}
    (h : ∀ s ∈ ss, ∀ {xs ys : List Text} {p : Command} {around : List Frame}, s.command = some p →
      p.scope xs = some ys → T.Binds ys → (∀ i ∈ s.emitSlots, T.Spare i) →
        Implements T (s.codegen around) p.does)
    (hps : commands ss = some ps) {xs ys : List Text} (hscope : scopeAll xs ps = some ys)
    (hbinds : T.Binds ys) (hspare : ∀ i ∈ emitSlotsAll ss, T.Spare i) :
    Implements T (codegenAll around ss) (doesAll ps) := by
  induction ss generalizing ps xs with
  | nil =>
    obtain rfl := Option.some.inj hps
    exact implements_skip
  | cons s ss ih =>
    rw [List.forall_mem_cons] at h
    simp only [commands, Option.bind_eq_bind, Option.bind_eq_some_iff] at hps
    obtain ⟨p, hp, ps', hps', hps⟩ := hps
    obtain rfl := Option.some.inj hps
    obtain ⟨zs, hzs, hys⟩ := Option.bind_eq_some_iff.mp hscope
    have hbinds' : T.Binds zs := by
      intro x hx
      exact hbinds x (scopeAll_subset_of (fun s _ => scope_subset s) hps' hys hx)
    obtain ⟨hs, hss⟩ := List.forall_mem_append.mp hspare
    exact (h.1 hp hzs hbinds' hs).seq (ih h.2 hps' hys hss)

/-- The code of a statement does what the command does. -/
theorem implements_statement (s : Statement) {xs ys : List Text} {p : Command} {around : List Frame}
    (h : s.command = some p) (hscope : p.scope xs = some ys) (hbinds : T.Binds ys)
    (hspare : ∀ i ∈ s.emitSlots, T.Spare i) : Implements T (s.codegen around) p.does := by
  induction s using Statement.induction generalizing xs ys p around with
  | block ss hss =>
    obtain ⟨ps, hps, rfl⟩ := Option.map_eq_some_iff.mp h
    exact implements_all_of _ (fun s hs => hss s hs) hps hscope hbinds hspare
  | forStmt init cond every blk _ hblk =>
    obtain ⟨s, c, e, i, t, a, ps, rfl, rfl, rfl, hi, ht, ha, hps, rfl⟩ := command_forStmt h
    obtain ⟨zs, hzs, hscope⟩ := Option.bind_eq_some_iff.mp hscope
    obtain ⟨⟨hvt, hva⟩, hscope⟩ := Option.ite_none_right_eq_some.mp hscope
    have hzs' : T.Binds zs := by
      intro x hx
      exact hbinds x (scopeAll_subset_of (fun s _ => scope_subset s) hps hscope hx)
    have ht' : T.Binds t.vars := fun x hx => hzs' x (hvt hx)
    have ha' : T.Binds a.vars := fun x hx => hzs' x (hva hx)
    have hinit := implements_init hT hi hzs hzs' around
    have hbody := implements_all_of (.loop :: around) (fun s hs => hblk s hs) hps hscope hbinds hspare
    refine ⟨?_, hinit.behaves.bind fun _ => behaves_forLoop hT ht ht' ha ha' hbody.behaves⟩
    exact generates_forCode hinit.generates (generates_truth hT ht ht') (generates_action hT ha ha')
      hbody.generates
  | emit slot e =>
    obtain ⟨n, es, ts, rfl, hlength, hts, rfl⟩ := command_emit h
    obtain ⟨hvars, hys⟩ := Option.ite_none_right_eq_some.mp hscope
    obtain rfl := Option.some.inj hys
    have hts' : T.Binds (ts.flatMap Number.vars) := fun x hx => hbinds x (hvars hx)
    obtain ⟨i, rfl, hlt, hnone⟩ := hspare slot (List.mem_singleton_self slot)
    refine ⟨generates_emitCode hT hts hts' n hlt, behaves_emitCode hT hts hlength hts' n ?_⟩
    intro j hj
    obtain rfl := Option.mem_some_iff.mp hj
    exact hnone
  | ifStmt cond ts fs hts hfs =>
    obtain ⟨c, ps, qs, hc, hps, hqs, rfl⟩ := command_ifStmt h
    obtain ⟨hvars, hscope⟩ := Option.ite_none_right_eq_some.mp hscope
    obtain ⟨zs, hzs, hys⟩ := Option.bind_eq_some_iff.mp hscope
    obtain ⟨hspare, hspare'⟩ := List.forall_mem_append.mp hspare
    have helse : zs ⊆ ys ∧ Implements T (codegenElse around fs) (doesAll qs) := by
      cases fs with
      | none =>
        obtain rfl := Option.some.inj hqs
        obtain rfl := Option.some.inj hys
        exact ⟨List.Subset.refl _, implements_skip⟩
      | some ss => exact ⟨scopeAll_subset_of (fun s _ => scope_subset s) hqs hys,
          implements_all_of _ (fun s hs => hfs ss rfl s hs) hqs hys hbinds hspare'⟩
    have hzs' : T.Binds zs := fun x hx => hbinds x (helse.1 hx)
    have hc' : T.Binds c.vars := by
      intro x hx
      exact hzs' x (scopeAll_subset_of (fun s _ => scope_subset s) hps hzs (hvars hx))
    have hthen := implements_all_of around (fun s hs => hts s hs) hps hzs hzs' hspare
    exact ⟨generates_ifCode (generates_condition hT hc hc') hthen.generates helse.2.generates,
      behaves_ifCode hT hc hc' hthen.behaves helse.2.behaves⟩
  | letStmt x e type =>
    obtain ⟨i, hi, rfl⟩ := Option.map_eq_some_iff.mp h
    exact implements_init hT hi hscope hbinds around
  | exprStatement stack e =>
    obtain ⟨i, hi, rfl⟩ := Option.map_eq_some_iff.mp h
    exact implements_init hT hi hscope hbinds around
  | _ => exact absurd h (by simp [Statement.command, Statement.init])

end

theorem compile_of_passes {ss ss' : List Statement} {c c₁ : Ctx}
    (hp : (passes ss).run Ctx.initial = .ok (ss', c))
    (hcode : (codegenAll [] ss').run c = .ok ((), c₁)) :
    (compile ss).run Ctx.initial = .ok (ss', c₁.append (.ret (int1 true))) := by
  simp only [passes, bind_eq_ok, createBlock_eq_ok, setInsertPoint_eq_ok] at hp
  obtain ⟨ss₁, c₂, hanalyze, _, _, ⟨rfl, rfl⟩, _, c₃, rfl, halloca⟩ := hp
  simp only [compile, generate, bind_eq_ok, createBlock_eq_ok, setInsertPoint_eq_ok, emitInstr_eq_ok,
    pure_eq_ok]
  exact ⟨ss₁, c₂, hanalyze, _, _, ⟨rfl, rfl⟩, (), _, rfl, ss', c, halloca, (), c₁, hcode, (), _, rfl, rfl, rfl⟩

theorem exec_allocaCode {is : List Instr} (hs : ∀ i ∈ is, ∃ s, i = .alloca s) (d : Data) :
    Exec machine (allocaCode is) d .normal d := by
  induction is with
  | nil => exact .skip (.inl rfl)
  | cons i is ih =>
    rw [List.forall_mem_cons] at hs
    obtain ⟨s, rfl⟩ := hs.1
    exact .seq (.instr rfl (.inl rfl)) (ih hs.2)

/-- The slots hold what they held before they were allocated. -/
theorem allocaCode_stays {is : List Instr} (hs : ∀ i ∈ is, ∃ s, i = .alloca s) {d d' : Data} {x : Exit}
    (h : Exec machine (allocaCode is) d x d') : x.Done ∧ d' = d := by
  induction is generalizing d with
  | nil =>
    cases h with
    | skip hdone => exact ⟨hdone, rfl⟩
  | cons i is ih =>
    rw [List.forall_mem_cons] at hs
    have hfirst : ∀ {y d₁}, Exec machine (.instr i) d y d₁ → y.Done ∧ d₁ = d := by
      intro y d₁ he
      obtain ⟨s, rfl⟩ := hs.1
      cases he with
      | wait => exact ⟨.inr rfl, rfl⟩
      | instr hexec hdone => exact ⟨hdone, (Option.some.inj hexec).symm⟩
    cases h with
    | seq h₁ h₂ =>
      obtain ⟨-, rfl⟩ := hfirst h₁
      exact ih hs.2 h₂
    | seqExit h₁ _ => exact hfirst h₁

/-- The blocks of a function do what a behaviour of the variables says, from any contents of their
slots, and all of it. -/
structure RunsAs (T : Ctx) (F : Blocks Instr) (B : Behaviour Env Env Output) : Prop where
  returns : ∀ {ρ d ρ' os}, Represents T ρ d → B ρ (some ρ') os → ∃ n s, machine.Run F n (startOf d) s ∧
    machine.Returns F s ∧ Represents T ρ' s.data ∧ s.data.outputs = d.outputs ++ os
  returned : ∀ {ρ d n s}, Represents T ρ d → machine.Run F n (startOf d) s → machine.Returns F s →
    ∃ ρ' os, B ρ (some ρ') os ∧ Represents T ρ' s.data ∧ s.data.outputs = d.outputs ++ os
  runs : ∀ {ρ d os}, Represents T ρ d → B ρ none os →
    ∃ n s, machine.Run F n (startOf d) s ∧ s.data.outputs = d.outputs ++ os
  ran : ∀ {ρ d n s}, Represents T ρ d → machine.Run F n (startOf d) s →
    ∃ os, B ρ none os ∧ s.data.outputs = d.outputs ++ os

theorem runsAs_of_layout {T : Ctx} {F : Blocks Instr} {B : Behaviour Env Env Output} {k : Code Instr Cond}
    {q : Point} {i : Instr} (hk : Realises machine Data.outputs (Represents T) (Represents T) k B)
    (hlayout : Layout machine F none ⟨0, 0⟩ k q) (hi : F.get q = some i) (hret : i.view = .ret) :
    RunsAs T F B where
  returns := by
    intro ρ d ρ' os hd hB
    obtain ⟨d', he, hd', hos⟩ := hk.reaches hd hB
    obtain ⟨n, s, hrun, rfl, hs⟩ := he.arrives (s := startOf d) hlayout (by simp) ⟨rfl, rfl⟩ rfl
    exact ⟨n, s, hrun, ⟨i, State.At.get hs hi, hret⟩, hd', hos⟩
  returned := by
    intro ρ d n s hd hrun hreturns
    rcases run_exec hlayout hi hret hrun with ⟨-, hnot⟩ | he
    · exact absurd hreturns hnot
    · exact hk.ends hd he
  runs := by
    intro ρ d os hd hB
    obtain ⟨d', he, hos⟩ := hk.passes hd hB
    obtain ⟨n, s, hrun, rfl⟩ := he.stops (s := startOf d) hlayout rfl ⟨rfl, rfl⟩ rfl
    exact ⟨n, s, hrun, hos⟩
  ran := by
    intro ρ d n s hd hrun
    rcases run_exec hlayout hi hret hrun with ⟨he, -⟩ | he
    · exact hk.runs hd he
    · exact hk.runs hd he.late

/-- The blocks of a program that the passes have been through. -/
theorem compile_runs_of_passes {ss ss' : List Statement} {ps : List Command} {xs : List Text} {c : Ctx}
    (hp : (passes ss).run Ctx.initial = .ok (ss', c)) (hps : commands ss' = some ps)
    (hscope : scopeAll [] ps = some xs) (hslotted : Slotted xs (emitSlotsAll ss') c) :
    ∃ c', (compile ss).run Ctx.initial = .ok (ss', c') ∧ Numbered c' ∧ c'.Binds xs ∧
      RunsAs c' (functionOf c'.blocks) (doesAll ps) := by
  have hT : Numbered c.tables := ⟨hslotted.numbered.integer, hslotted.numbered.injective⟩
  have himplements := implements_all_of [] (fun s _ => implements_statement hT s) hps hscope
    hslotted.binds hslotted.spare
  obtain ⟨_, c₁, hcode, -⟩ := himplements.generates rfl
  have hcompile := compile_of_passes hp hcode
  obtain ⟨is, k, _, i, q, hall, hk, -, hlayout, hi, hret⟩ := compile_code hp hcompile himplements.behaves
  have hrealises := hk.after (allocaCode_stays hall) (exec_allocaCode hall)
  have hemits : Ctx.Emits c (c₁.append (.ret (int1 true))) :=
    (codegenAll_emits [] ss' hcode).step (.append _ _)
  have hslotted' := hslotted.of_eq hemits.vars_eq hemits.slots_eq
  have hrep : Represents (c₁.append (.ret (int1 true))) = Represents c.tables := by
    funext ρ d
    rw [Represents, hemits.vars_eq]
    rfl
  refine ⟨_, hcompile, hslotted'.numbered, hslotted'.binds, ?_⟩
  have hruns := runsAs_of_layout hrealises hlayout hi hret
  constructor
  · rw [hrep]
    exact hruns.returns
  · rw [hrep]
    exact hruns.returned
  · rw [hrep]
    exact hruns.runs
  · rw [hrep]
    exact hruns.ran

/-- A program over integers that uses no variable before its declaration is compiled, its variables
have slots, and its code runs the way the program says. -/
theorem compile_correct {ss : List Statement} {ps : List Command} {xs : List Text}
    (hfresh : eraseAll ss = ss) (hps : commands ss = some ps) (hscope : scopeAll [] ps = some xs) :
    ∃ ss' c, (compile ss).run Ctx.initial = .ok (ss', c) ∧ Numbered c ∧ c.Binds xs ∧
      RunsAs c (functionOf c.blocks) (doesAll ps) := by
  obtain ⟨ss', c, hp, hps', hslotted⟩ := passes_returns hfresh hps hscope
  exact ⟨ss', compile_runs_of_passes hp hps' hscope hslotted⟩

/-- `let s = 0`, then a loop over `i` below 3 that adds `i` to `s` and prints it. -/
def partialSums : List Statement :=
  let s : Expression := .variable {} (text "s")
  let i : Expression := .variable {} (text "i")
  let number (v : BitVec 64) : Expression := .primary {} (some (.int v))
  [.letStmt (text "s") (number 0) none,
    .forStmt (.to (.letStmt (text "i") (number 0) none)) (.to (.binary {} i .lessthan (number 3)))
      (.to (.assign {} i (.binary {} i .plus (number 1))))
      [.exprStatement none (.assign {} s (.binary {} s .plus i)),
        .exprStatement none (.functionCall {} (.variable {} (text "print_int")) [s])]]

theorem compile_correct_partialSums : ∃ ps ss' c, commands partialSums = some ps ∧
    (compile partialSums).run Ctx.initial = .ok (ss', c) ∧ Numbered c ∧
      c.Binds [text "i", text "s"] ∧ RunsAs c (functionOf c.blocks) (doesAll ps) := by
  obtain ⟨ps, hps, hscope⟩ : ∃ ps, commands partialSums = some ps ∧
      scopeAll [] ps = some [text "i", text "s"] := ⟨_, rfl, rfl⟩
  obtain ⟨ss', c, h⟩ := compile_correct rfl hps hscope
  exact ⟨ps, ss', c, hps, h⟩

/-- The same of a source text without declared types that the parser reads as such a program. -/
theorem source_correct {n : ℕ} {code : Text} {ss : List Statement} {rest : List Token}
    {ps : List Command} {xs : List Text} (h : parse n code = .ok ss rest)
    (ht : typelessAll ss = true) (hps : commands ss = some ps) (hscope : scopeAll [] ps = some xs) :
    ∃ ss' c, (compile ss).run Ctx.initial = .ok (ss', c) ∧ Numbered c ∧ c.Binds xs ∧
      RunsAs c (functionOf c.blocks) (doesAll ps) := by
  obtain ⟨ss', c, hp, hps', hslotted⟩ :=
    passes_returns (eraseAll_eq_of_new (parse_newAll h) ht) hps hscope
  exact ⟨ss', compile_runs_of_passes hp hps' hscope hslotted⟩

def countdown : Text := text
  "let n = 3 for n = 3; n > 0; n = n - 1 \x7b print_int(n) emit \x7b n, 2 * n \x7d \x7d"

theorem source_correct_countdown : ∃ ss rest ps xs ss' c, parse 40 countdown = .ok ss rest ∧
    commands ss = some ps ∧ scopeAll [] ps = some xs ∧ (compile ss).run Ctx.initial = .ok (ss', c) ∧
      Numbered c ∧ c.Binds xs ∧ RunsAs c (functionOf c.blocks) (doesAll ps) := by
  have hcheck : (parse 40 countdown).returnsWith (fun ss => typelessAll ss &&
      ((commands ss).bind (scopeAll [])).isSome) = true := by decide +kernel
  obtain ⟨ss, rest, hparse, hcheck⟩ := StreamParser.Outcome.returnsWith_iff.mp hcheck
  obtain ⟨ht, hcheck⟩ := Bool.and_eq_true_iff.mp hcheck
  obtain ⟨xs, hxs⟩ := Option.isSome_iff_exists.mp hcheck
  obtain ⟨ps, hps, hscope⟩ := Option.bind_eq_some_iff.mp hxs
  obtain ⟨ss', c, h⟩ := source_correct hparse ht hps hscope
  exact ⟨ss, rest, ps, xs, ss', c, hparse, hps, hscope, h⟩

end Reir
