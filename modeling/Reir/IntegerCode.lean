import Reir.CompiledRuns
import Reir.Evaluation
import Reir.IntegerPrograms

/-! The code of integer programs. The slot of a variable holds its value; the code of a number, a
condition or a command does what the direct semantics says, and all of it. -/
namespace Reir
open Gen BlockGraph StructuredCode

def Val.asNumber : Val → Option (BitVec 64)
  | .int v => some v
  | _ => none

/-- The numbers of a row; a row without elements is never written to. -/
def Val.asRow : Val → Option (List (BitVec 64))
  | .agg vs => vs.mapM Val.asNumber
  | .undef => some []
  | _ => none

/-- The words that `RawRow` copies of what an emitted pointer points to. -/
def Val.captured (v : Val) (length : BitVec 64) : Option (List (BitVec 64)) := do
  let vs ← v.asRow
  if length.toNat / 8 ≤ vs.length then some (vs.take (length.toNat / 8)) else none

/-- What a call hands to the outside. -/
def Event.output : Event → Option Output
  | .call _ f args behind _ =>
    if f = text "print_int" then
      match args with
      | [.int v] => some (.print v)
      | _ => some .invalid
    else if f = text "__emit_func" then
      match args, behind with
      | [_, _, .int length], [_, v, _] => some (((v.captured length).map .row).getD .invalid)
      | _, _ => some .invalid
    else none
  | _ => none

def Data.outputs (d : Data) : List Output := d.trace.filterMap Event.output

namespace Data
variable (d : Data)

theorem outputs_note (e : Event) : (d.note e).outputs = d.outputs ++ e.output.toList := by
  rw [outputs, note, List.filterMap_append, outputs]
  cases h : e.output <;> simp [h]

theorem outputs_note_none {e : Event} (h : e.output = none) : (d.note e).outputs = d.outputs := by
  rw [outputs_note, h]
  exact List.append_nil _

@[simp] theorem outputs_bare : d.bare.outputs = d.outputs := rfl

@[simp] theorem outputs_setMem (s : ℕ) (v : Val) : (d.setMem s v).outputs = d.outputs := rfl

@[simp] theorem outputs_setReg (r : ℕ) (v : Val) : (d.setReg r v).outputs = d.outputs := rfl

end Data

/-- The slots of variables hold integers, each its own. -/
structure Numbered (T : Ctx) : Prop where
  integer : ∀ x i, (T.vars x).join = some i → T.slots[i]? = some .i64
  injective : ∀ x y i, (T.vars x).join = some i → (T.vars y).join = some i → x = y

def Ctx.Binds (T : Ctx) (xs : List Text) : Prop := ∀ x ∈ xs, ∃ i, (T.vars x).join = some i

/-- The slots of the variables hold their values. -/
def Represents (T : Ctx) (ρ : Env) (d : Data) : Prop :=
  ∀ x i, (T.vars x).join = some i → d.mem i = .int (ρ x)

theorem Ctx.Binds.append {T : Ctx} {xs ys : List Text} :
    T.Binds (xs ++ ys) ↔ T.Binds xs ∧ T.Binds ys := List.forall_mem_append

theorem Ctx.Binds.cons {T : Ctx} {x : Text} {xs : List Text} :
    T.Binds (x :: xs) ↔ (∃ i, (T.vars x).join = some i) ∧ T.Binds xs := List.forall_mem_cons

section
variable {T : Ctx} {ρ : Env} {d : Data}

theorem Represents.note (h : Represents T ρ d) (e : Event) : Represents T ρ (d.note e) := h

/-- A value is written to the slot of a variable. -/
theorem Represents.setMem (hT : Numbered T) (h : Represents T ρ d) {x : Text} {i : ℕ}
    (hi : (T.vars x).join = some i) (v : BitVec 64) :
    Represents T (Function.update ρ x v) (d.setMem i (.int v)) := by
  intro y j hj
  by_cases hij : j = i
  · subst hij
    obtain rfl := hT.injective x y j hi hj
    simp [Data.setMem]
  · have hyx : y ≠ x := by
      rintro rfl
      exact hij (Option.some.inj (hj.symm.trans hi))
    simp [Data.setMem, Function.update_of_ne hij, Function.update_of_ne hyx, h y j hj]

/-- A value is written to a slot of no variable. -/
theorem Represents.setSpare (h : Represents T ρ d) {i : ℕ} (hi : ∀ x, (T.vars x).join ≠ some i)
    (v : Val) : Represents T ρ (d.setMem i v) := by
  intro y j hj
  have hij : j ≠ i := by
    rintro rfl
    exact hi y hj
  simp [Data.setMem, Function.update_of_ne hij, h y j hj]

end

/-- An evaluation over the data of the machine gives what one over variables gives, without
output. -/
def Follows {α β : Type} (T : Ctx) (rel : α → β → Prop) (f : Env → Option (α × Env))
    (g : Data → Option (β × Data)) : Prop :=
  ∀ ρ d, Represents T ρ d →
    (f ρ = none ∧ g d = none) ∨ ∃ a ρ' b d', f ρ = some (a, ρ') ∧ g d = some (b, d') ∧ rel a b ∧
      Represents T ρ' d' ∧ d'.outputs = d.outputs

/-- The value of a number. -/
def IsNumber (v : BitVec 64) (w : Val) : Prop := w = .int v

def IsBit (b : Bool) (w : Val) : Prop := w = .bool b

section
variable {α β α' β' : Type} {T : Ctx} {rel : α → β → Prop} {rel' : α' → β' → Prop}
  {f : Env → Option (α × Env)} {g : Data → Option (β × Data)}

theorem Follows.congr {f' : Env → Option (α × Env)} {g' : Data → Option (β × Data)}
    (h : Follows T rel f g) (hf : ∀ ρ, f ρ = f' ρ) (hg : ∀ d, g d = g' d) : Follows T rel f' g' := by
  obtain rfl : f = f' := funext hf
  obtain rfl : g = g' := funext hg
  exact h

theorem Follows.bind {f' : α → Env → Option (α' × Env)} {g' : β → Data → Option (β' × Data)}
    (h : Follows T rel f g) (h' : ∀ a b, rel a b → Follows T rel' (f' a) (g' b)) :
    Follows T rel' (fun ρ => (f ρ).bind fun r => f' r.1 r.2)
      fun d => (g d).bind fun r => g' r.1 r.2 := by
  intro ρ d hd
  rcases h ρ d hd with ⟨hf, hg⟩ | ⟨a, ρ₁, b, d₁, hf, hg, hab, hd₁, hout₁⟩
  · simp [hf, hg]
  · simp only [hf, hg, Option.bind_some]
    rcases h' a b hab ρ₁ d₁ hd₁ with hnone | ⟨a', ρ', b', d', hf', hg', hab', hd', hout⟩
    · exact .inl hnone
    · exact .inr ⟨a', ρ', b', d', hf', hg', hab', hd', hout.trans hout₁⟩

theorem follows_pure {a : α} {b : β} (h : rel a b) :
    Follows T rel (fun ρ => some (a, ρ)) fun d => some (b, d) :=
  fun ρ d hd => .inr ⟨a, ρ, b, d, rfl, rfl, h, hd, rfl⟩

theorem follows_none : Follows T rel (fun _ => none) fun _ => none := fun _ _ _ => .inl ⟨rfl, rfl⟩

/-- Nothing happens but an event that puts out nothing. -/
theorem Follows.behind {e : Event} (h : Follows T rel f g) (he : e.output = none) :
    Follows T rel f fun d => g (d.note e) := by
  intro ρ d hd
  rcases h ρ (d.note e) (hd.note e) with hnone | ⟨a, ρ', b, d', hf, hg, hab, hd', hout⟩
  · exact .inl hnone
  · exact .inr ⟨a, ρ', b, d', hf, hg, hab, hd', hout.trans (d.outputs_note_none he)⟩

theorem follows_arith {op : Operators} {o : Arith} (h : op.arith = some o) (a b : BitVec 64) :
    Follows T IsNumber (fun ρ => (o.apply a b).map fun v => (v, ρ))
      fun d => (op.apply (.int a) (.int b)).map fun v => (v, d) := by
  have happly : op.apply (.int a) (.int b) = (o.apply a b).map Val.int := by
    cases op with
    | plus | minus | multiple =>
      obtain rfl := Option.some.inj h
      rfl
    | division | modulo =>
      obtain rfl := Option.some.inj h
      simp only [Operators.apply, BinOp.apply, Arith.apply]
      split_ifs <;> rfl
    | _ => exact absurd h (by simp [Operators.arith])
  rw [happly]
  cases o.apply a b with
  | none => exact follows_none
  | some v => exact follows_pure rfl

theorem comparison_apply {op : Operators} {o : Comparison} (h : op.comparison = some o)
    (a b : BitVec 64) : op.apply (.int a) (.int b) = some (.bool (o.holds a b)) := by
  cases op with
  | equal | notequal | lessthan | lessequal | morethan | moreequal =>
    obtain rfl := Option.some.inj h
    simp [Operators.apply, Pred.apply, Pred.holds, Comparison.holds, BitVec.slt, BitVec.sle,
      beq_eq_decide, bne]
  | _ => exact absurd h (by simp [Operators.comparison])

end

section
variable {T : Ctx} (hT : Numbered T)
include hT

theorem slot_number {x : Text} {i : ℕ} (hi : (T.vars x).join = some i) :
    T.typeEnv.slot x = some .i64 := by
  change (T.vars x).join.bind _ = _
  rw [hi]
  exact hT.integer x i hi

theorem Expression.kind_number {e : Expression} {t : Number} (h : e.number = some t)
    (hvars : T.Binds t.vars) : e.kind T = .integer := by
  have hvariable : ∀ (n : Note) (x : Text), T.Binds [x] → (Expression.variable n x).kind T = .integer := by
    intro n x hx
    obtain ⟨i, hi⟩ := hx x (List.mem_singleton_self x)
    simp [kind, slot_number hT hi, LLType.kind, LLType.isInteger]
  induction e using Expression.induction generalizing t with
  | primary n v =>
    cases v with
    | none => exact absurd h (by simp [number])
    | some w =>
      cases w with
      | int v => rfl
      | _ => exact absurd h (by simp [number])
  | binary n l op r hl _ =>
    simp only [number, Option.bind_eq_bind, Option.bind_eq_some_iff] at h
    obtain ⟨o, ho, l', hl', r', -, h⟩ := h
    obtain rfl := Option.some.inj h
    have hop : op.isArithmetic = true := by
      cases op with
      | plus | minus | multiple | division | modulo => rfl
      | _ => exact absurd ho (by simp [Operators.arith])
    rw [kind, if_pos hop]
    exact hl hl' (Ctx.Binds.append.mp hvars).1
  | variableRef n x =>
    obtain rfl := Option.some.inj h
    exact hvariable n x hvars
  | assign n target v _ _ =>
    cases target with
    | «variable» m x =>
      simp only [number, Option.bind_eq_bind, Option.bind_eq_some_iff] at h
      obtain ⟨v', -, h⟩ := h
      obtain rfl := Option.some.inj h
      obtain ⟨hx, -⟩ := Ctx.Binds.cons.mp hvars
      rw [kind]
      exact hvariable m x (by simpa [Ctx.Binds] using hx)
    | _ => exact absurd h (by simp [number])
  | _ => exact absurd h (by simp [number])

theorem Expression.follows_number {e : Expression} {t : Number} (h : e.number = some t)
    (hvars : T.Binds t.vars) : Follows T IsNumber t.run (e.evaluate T) := by
  induction e using Expression.induction generalizing t with
  | primary n v =>
    cases v with
    | none => exact absurd h (by simp [number])
    | some w =>
      cases w with
      | int v =>
        obtain rfl := Option.some.inj h
        exact (follows_pure (a := v) (b := Val.int v) rfl).congr (fun _ => rfl) fun _ => rfl
      | _ => exact absurd h (by simp [number])
  | binary n l op r hl hr =>
    simp only [number, Option.bind_eq_bind, Option.bind_eq_some_iff] at h
    obtain ⟨o, ho, l', hl', r', hr', h⟩ := h
    obtain rfl := Option.some.inj h
    obtain ⟨hvl, hvr⟩ := Ctx.Binds.append.mp hvars
    have hand : op ≠ .conditionalAnd := by
      rintro rfl
      exact absurd ho (by simp [Operators.arith])
    have hor : op ≠ .conditionalOr := by
      rintro rfl
      exact absurd ho (by simp [Operators.arith])
    have happly : ∀ a b w, IsNumber b w → Follows T IsNumber
        (fun ρ => (o.apply a b).map fun v => (v, ρ))
        fun d => (op.apply (.int a) w).map fun v => (v, d) := by
      intro a b w hw
      obtain rfl := hw
      exact follows_arith ho a b
    have hright : ∀ a w, IsNumber a w → Follows T IsNumber
        (fun ρ => (r'.run ρ).bind fun b => (o.apply a b.1).map fun v => (v, b.2))
        fun d => (r.evaluate T d).bind fun b => (op.apply w b.1).map fun v => (v, b.2) := by
      intro a w hw
      obtain rfl := hw
      exact (hr hr' hvr).bind (happly a)
    refine ((hl hl' hvl).bind hright).congr (fun ρ => ?_) fun d =>
      (evaluate_strict hand hor n l r d).symm
    simp only [Number.run, Option.bind_eq_bind, Option.map_eq_bind]
    rfl
  | variableRef n x =>
    obtain rfl := Option.some.inj h
    obtain ⟨i, hi⟩ := hvars x (List.mem_singleton_self x)
    intro ρ d hd
    refine .inr ⟨ρ x, ρ, d.mem i, d.note (.load (some i)), rfl, ?_, hd x i hi, hd, ?_⟩
    · simp [evaluate, hi]
    · exact d.outputs_note_none rfl
  | assign n target v _ hv =>
    cases target with
    | «variable» m x =>
      simp only [number, Option.bind_eq_bind, Option.bind_eq_some_iff] at h
      obtain ⟨v', hv', h⟩ := h
      obtain rfl := Option.some.inj h
      obtain ⟨⟨i, hi⟩, hvars'⟩ := Ctx.Binds.cons.mp hvars
      have hstore : ∀ a w, IsNumber a w → Follows T IsNumber
          (fun ρ => some (a, Function.update ρ x a)) fun d =>
            some (w, ((d.setMem i w).note (.store ⟨.assign, n.node⟩ (some i))).note (.load (some i))) := by
        intro a w hw ρ d hd
        obtain rfl := hw
        refine .inr ⟨a, _, _, _, rfl, rfl, rfl, hd.setMem hT hi a, ?_⟩
        rw [Data.outputs_note_none _ rfl, Data.outputs_note_none _ rfl, Data.outputs_setMem]
      refine ((hv hv' hvars').bind hstore).congr (fun ρ => ?_) fun d => ?_
      · simp only [Number.run, Option.bind_eq_bind]
      · simp only [evaluate, hi, Option.bind_eq_bind, Option.bind_some]
    | _ => exact absurd h (by simp [number])
  | _ => exact absurd h (by simp [number])

theorem follows_nonzero {e : Expression} {t : Number} (h : e.number = some t)
    (hvars : T.Binds t.vars) :
    Follows T IsBit (Condition.nonzero t).run (bitOf (e.kind T) (e.evaluate T)) := by
  rw [e.kind_number hT h hvars]
  have hbit : ∀ v w, IsNumber v w → Follows T IsBit (fun ρ => some (decide (v ≠ 0), ρ))
      fun d => some (w.toBit .integer, d) := by
    intro v w hw
    obtain rfl := hw
    refine follows_pure ?_
    simp [IsBit, Val.toBit, Pred.apply, Pred.holds, bne, beq_eq_decide]
  refine ((e.follows_number hT h hvars).bind hbit).congr (fun ρ => ?_) fun d => ?_
  · simp only [Condition.run, Option.bind_eq_bind]
  · simp only [bitOf, Option.map_eq_bind]
    rfl

/-- What a short circuit goes on with behind the value of its first operand. -/
def Data.shortRest (forAnd : Bool) (r : Data → Option (Val × Data)) (a : Val) (d : Data) :
    Option (Val × Data) :=
  match a with
  | .bool b =>
    if b = forAnd then r (d.note (.branch ⟨.shortCircuit, 0⟩ b))
    else some (.bool b, d.note (.branch ⟨.shortCircuit, 0⟩ b))
  | _ => none

omit hT in
/-- The second operand is evaluated only if the first one does not decide. -/
theorem follows_shortCircuit {f f' : Env → Option (Bool × Env)} {g g' : Data → Option (Val × Data)}
    (h : Follows T IsBit f g) (h' : Follows T IsBit f' g') (forAnd : Bool) :
    Follows T IsBit (fun ρ => (f ρ).bind fun r => if r.1 = forAnd then f' r.2 else some (r.1, r.2))
      fun d => d.shortCircuit forAnd g g' := by
  have hsecond : ∀ b w, IsBit b w → Follows T IsBit
      (fun ρ => if b = forAnd then f' ρ else some (b, ρ)) (Data.shortRest forAnd g' w) := by
    intro b w hw
    obtain rfl := hw
    unfold Data.shortRest
    dsimp only
    split_ifs
    · exact h'.behind rfl
    · have hpure : Follows T IsBit (fun ρ => some (b, ρ)) fun d => some (Val.bool b, d) :=
        follows_pure rfl
      exact hpure.behind rfl
  exact (h.bind hsecond).congr (fun _ => rfl) fun _ => rfl

/-- A number or what is a truth value already. -/
theorem follows_condition_of {e : Expression} {c : Condition}
    (htruth : ∀ {c}, e.truth = some c → T.Binds c.vars →
      e.kind T = .bit ∧ Follows T IsBit c.run (e.evaluate T))
    (h : e.condition = some c) (hvars : T.Binds c.vars) :
    Follows T IsBit c.run (bitOf (e.kind T) (e.evaluate T)) := by
  rcases Expression.condition_eq_some h with hc | ⟨t, ht, rfl⟩
  · obtain ⟨hkind, hfollows⟩ := htruth hc hvars
    rw [hkind]
    refine hfollows.congr (fun _ => rfl) fun d => ?_
    rw [bitOf]
    cases e.evaluate T d <;> simp [Val.toBit]
  · exact follows_nonzero hT ht hvars

theorem Expression.follows_truth {e : Expression} {c : Condition} (h : e.truth = some c)
    (hvars : T.Binds c.vars) : e.kind T = .bit ∧ Follows T IsBit c.run (e.evaluate T) := by
  induction e using Expression.induction generalizing c with
  | binary n l op r hl hr =>
    have hcompare : ∀ (o : Comparison) (l' r' : Number), op.comparison = some o → l.number = some l' →
        r.number = some r' → c = .compare o l' r' →
          op.isArithmetic = false ∧ Follows T IsBit c.run ((Expression.binary n l op r).evaluate T) := by
      rintro o l' r' ho hl' hr' rfl
      obtain ⟨hvl, hvr⟩ := Ctx.Binds.append.mp hvars
      have hand : op ≠ .conditionalAnd := by
        rintro rfl
        exact absurd ho (by simp [Operators.comparison])
      have hor : op ≠ .conditionalOr := by
        rintro rfl
        exact absurd ho (by simp [Operators.comparison])
      have hholds : ∀ a b w, IsNumber b w → Follows T IsBit (fun ρ => some (o.holds a b, ρ))
          fun d => (op.apply (.int a) w).map fun v => (v, d) := by
        intro a b w hw
        obtain rfl := hw
        rw [comparison_apply ho a b]
        exact follows_pure rfl
      have hright : ∀ a w, IsNumber a w → Follows T IsBit
          (fun ρ => (r'.run ρ).bind fun b => some (o.holds a b.1, b.2))
          fun d => (r.evaluate T d).bind fun b => (op.apply w b.1).map fun v => (v, b.2) := by
        intro a w hw
        obtain rfl := hw
        exact (r.follows_number hT hr' hvr).bind (hholds a)
      refine ⟨?_, ((l.follows_number hT hl' hvl).bind hright).congr (fun ρ => ?_) fun d =>
        (evaluate_strict hand hor n l r d).symm⟩
      · cases op <;> first | rfl | exact absurd ho (by simp [Operators.comparison])
      · simp only [Condition.run, Option.bind_eq_bind]
    cases op with
    | conditionalAnd =>
      simp only [truth, Option.bind_eq_bind, Option.bind_eq_some_iff] at h
      obtain ⟨l', hl', r', hr', h⟩ := h
      obtain rfl := Option.some.inj h
      obtain ⟨hvl, hvr⟩ := Ctx.Binds.append.mp hvars
      refine ⟨rfl, (follows_shortCircuit (follows_condition_of hT hl hl' hvl)
        (follows_condition_of hT hr hr' hvr)
        true).congr (fun ρ => ?_) fun _ => rfl⟩
      simp only [Condition.run, Option.bind_eq_bind]
      congr 1
      funext v
      obtain ⟨b, ρ'⟩ := v
      cases b <;> rfl
    | conditionalOr =>
      simp only [truth, Option.bind_eq_bind, Option.bind_eq_some_iff] at h
      obtain ⟨l', hl', r', hr', h⟩ := h
      obtain rfl := Option.some.inj h
      obtain ⟨hvl, hvr⟩ := Ctx.Binds.append.mp hvars
      refine ⟨rfl, (follows_shortCircuit (follows_condition_of hT hl hl' hvl)
        (follows_condition_of hT hr hr' hvr)
        false).congr (fun ρ => ?_) fun _ => rfl⟩
      simp only [Condition.run, Option.bind_eq_bind]
      congr 1
      funext v
      obtain ⟨b, ρ'⟩ := v
      cases b <;> rfl
    | _ =>
      simp only [truth, Option.bind_eq_bind, Option.bind_eq_some_iff] at h
      obtain ⟨o, ho, l', hl', r', hr', h⟩ := h
      obtain ⟨hop, hfollows⟩ := hcompare o l' r' ho hl' hr' (Option.some.inj h).symm
      exact ⟨by rw [kind, hop]; rfl, hfollows⟩
  | _ => exact absurd h (by simp [truth])

/-- The value of a condition as a truth value. -/
theorem Expression.follows_condition {e : Expression} {c : Condition} (h : e.condition = some c)
    (hvars : T.Binds c.vars) : Follows T IsBit c.run (bitOf (e.kind T) (e.evaluate T)) :=
  follows_condition_of hT (fun hc hbinds => e.follows_truth hT hc hbinds) h hvars

end

/-- The code of a step has a behaviour between states that are related to the data of the machine,
behind the step through its result. -/
def Gen.Behaves {α σ σ' : Type} (T : Ctx) (j : Bool) (R : σ → Data → Prop) (p : Gen α)
    (R' : α → σ' → Data → Prop) (B : Behaviour σ σ' Output) : Prop :=
  p.Lays T j fun _ a _ k => Realises machine Data.outputs R (R' a) k B

section
variable {α β σ σ₁ σ₂ : Type} {T : Ctx} {j : Bool} {R : σ → Data → Prop} {p : Gen α} {q : α → Gen β}
  {R₁ : α → σ₁ → Data → Prop} {R₂ : β → σ₂ → Data → Prop}

theorem Gen.Behaves.congr {A B : Behaviour σ σ₁ Output} (h : p.Behaves T j R R₁ A)
    (hAB : ∀ s r os, A s r os ↔ B s r os) : p.Behaves T j R R₁ B :=
  Gen.Lays.mono h fun _ _ _ _ _ hk => hk.congr hAB

theorem Gen.Behaves.bind {A : Behaviour σ σ₁ Output} {B : Behaviour σ₁ σ₂ Output}
    (hp : p.Behaves T j R R₁ A) (hq : ∀ a, (q a).Behaves T j (R₁ a) R₂ B) :
    (p >>= q).Behaves T j R R₂ (A.seq B) := by
  refine Gen.Lays.mono (Gen.Lays.bind hp hq) ?_
  rintro c b c' k - ⟨a, c₁, k₁, k₂, h₁, h₂, rfl⟩
  exact h₁.seq h₂

/-- A silent step before another step. -/
theorem Gen.Behaves.bindStep {f : σ → Option σ₁} {g : σ₁ → Option (σ₂ × List Output)}
    (hp : p.Behaves T j R R₁ (.silent f)) (hq : ∀ a, (q a).Behaves T j (R₁ a) R₂ (.step g)) :
    (p >>= q).Behaves T j R R₂ (.step fun s => (f s).bind g) :=
  (hp.bind hq).congr fun _ _ _ => Behaviour.seq_step

/-- A step that emits nothing before another one. -/
theorem Gen.Quiet.bindBehaves {B : Behaviour σ σ₂ Output} (h : p.Quiet)
    (hq : ∀ c a c', c.tables = T → p.run c = .ok (a, c') → (q a).Behaves T j R R₂ B) :
    (p >>= q).Behaves T j R R₂ B := by
  intro c b c' hT hl hc hrun
  obtain ⟨a, c₁, h₁, h₂⟩ := bind_eq_ok.mp hrun
  have hsame := h h₁
  have hc₁ : c₁.graph.cur < c₁.graph.size := by rwa [hsame.graph]
  obtain ⟨k, hk, hrealises⟩ := hq c a c₁ hT h₁ (hsame.emits.tables_eq.trans hT)
    (hsame.emits.loadsBelow hl) hc₁ h₂
  have hskip : Laid j c c₁ .skip := Laid.of_graph_eq hc hsame.graph hsame.emits hsame.loops
  exact ⟨.seq .skip k, hskip.trans hk, hrealises.afterSkip⟩

theorem behaves_pure {a : α} {f : σ → σ₁} (h : ∀ s d, R s d → R₁ a (f s) d) :
    (Pure.pure a : Gen α).Behaves T j R R₁ (.silent fun s => some (f s)) := by
  refine Gen.Lays.mono (quietRules.pure a).lays ?_
  rintro c b c' k - ⟨hrun, -, rfl⟩
  obtain ⟨rfl, -⟩ := pure_eq_ok.mp hrun
  exact Realises.skip h

/-- One instruction. -/
theorem behaves_emitInstr {i : Instr} {R' : Unit → σ₁ → Data → Prop} {f : σ → Option (σ₁ × List Output)}
    (hv : i.view = .plain) (hdst : i.dst = none)
    (hsome : ∀ s d s' os, R s d → f s = some (s', os) →
      ∃ d', i.exec d = some d' ∧ R' () s' d' ∧ d'.outputs = d.outputs ++ os)
    (hnone : ∀ s d, R s d → f s = none → i.exec d = none) :
    (emitInstr i).Behaves T j R R' (.step f) := by
  refine Gen.Lays.mono (lays_emitInstr hv hdst) ?_
  rintro c u c' k - ⟨-, rfl⟩
  exact Realises.instr hsome hnone

/-- One instruction with a result. -/
theorem behaves_emitResult {mk : ℕ → Instr} {ty : LLType} {R' : LLValue → σ₁ → Data → Prop}
    {f : σ → Option (σ₁ × List Output)} (hv : ∀ r, (mk r).view = .plain)
    (hdst : ∀ r, (mk r).dst = some r)
    (hsome : ∀ r s d s' os, R s d → f s = some (s', os) →
      ∃ d', (mk r).exec d = some d' ∧ R' ⟨.reg r, ty⟩ s' d' ∧ d'.outputs = d.outputs ++ os)
    (hnone : ∀ r s d, R s d → f s = none → (mk r).exec d = none) :
    (emitResult mk ty).Behaves T j R R' (.step f) := by
  refine Gen.Lays.mono (lays_emitResult hv hdst) ?_
  rintro c v c' k - ⟨rfl, -, rfl⟩
  exact Realises.instr (hsome c.nextReg) (hnone c.nextReg)

end

/-- What is laid out between two insert points comes from the first to the second in one way. -/
theorem Laid.normal_of {c c' : Ctx} {k k' : Code Instr Cond} (h : Laid false c c' k)
    (h' : Laid false c c' k') {d d' : Data} (he : Exec machine k d .normal d') :
    Exec machine k' d .normal d' := by
  obtain ⟨n, s, hrun, hdata, hs⟩ := he.arrives (s := ⟨c.point.block, c.point.pc, 0, d⟩)
    (h.layout c'.graph (Grows.refl _)) (by simp) ⟨rfl, rfl⟩ rfl
  exact h'.exec ⟨n, _, s, ⟨rfl, rfl⟩, hs, hrun, rfl, hdata⟩

/-- Code without calls puts out nothing. -/
theorem outputs_straight {k : Code Instr Cond} (hk : StraightCode (fun _ _ => False) k) {d d' : Data}
    {x : Exit} (he : Exec machine k d x d') : d'.outputs = d.outputs := by
  refine he.keeps (R := fun d d' => d'.outputs = d.outputs) hk.1 hk.2 (fun _ => rfl) ?_ ?_ ?_
  · intro d d₁ d₂ h₁ h₂
    exact h₂.trans h₁
  · intro i d d' hi hexec
    obtain ⟨es, htrace, hes⟩ := exec_trace hi hexec
    have hnone : es.filterMap Event.output = [] := by
      rw [List.filterMap_eq_nil_iff]
      intro e he
      cases e with
      | call tag f args behind result => exact absurd (hes _ he) id
      | _ => rfl
    rw [Data.outputs, htrace, List.filterMap_append, hnone, List.append_nil]
    rfl
  · intro v d b d' _ htest
    rw [(test_eq_some htest).2]
    exact d.outputs_note_none rfl

section
variable {α β γ : Type} {T : Ctx} {j : Bool} {p : Gen α} {out : α → Data → β} {P : α → Prop}
  {g : Data → Option (β × Data)} {rel : γ → β → Prop} {f : Env → Option (γ × Env)}

/-- The code of an evaluation without calls. -/
theorem Gen.Acts.runs (hacts : p.Acts T (fun _ => ()) out P fun _ => g)
    (hcalls : p.Calls T fun _ _ => False) (hf : Follows T rel f g) :
    p.Lays T false fun _ a _ k => StraightCode (fun _ _ => False) k ∧ P a ∧
      (∀ ρ d d', Represents T ρ d → Exec machine k d .normal d' →
        ∃ v ρ', f ρ = some (v, ρ') ∧ rel v (out a d') ∧ Represents T ρ' d') ∧
      ∀ ρ d v ρ', Represents T ρ d → f ρ = some (v, ρ') →
        ∃ d', Exec machine k d .normal d' ∧ rel v (out a d') ∧ Represents T ρ' d' := by
  intro c a c' hT hl hc hrun
  obtain ⟨k, hk, hstraight⟩ := hcalls hT hl hc hrun
  obtain ⟨k', hk', ha, hiff⟩ := hacts hT hl hc hrun
  obtain ⟨-, hiff⟩ := hiff (stable_const _ ())
  refine ⟨k, hk, hstraight, ha, ?_, ?_⟩
  · intro ρ d d' hd he
    have hg : g d.bare = some (out a d', d'.bare) := (hiff d _ _).mp ⟨d', hk.normal_of hk' he, rfl, rfl⟩
    rcases hf ρ d.bare hd with ⟨-, hnone⟩ | ⟨v, ρ', w, s, hv, hw, hrel, hs, -⟩
    · rw [hg] at hnone
      exact absurd hnone (by simp)
    · rw [hg] at hw
      obtain ⟨rfl, rfl⟩ := Prod.mk.inj (Option.some.inj hw)
      exact ⟨v, ρ', hv, hrel, hs⟩
  · intro ρ d v ρ' hd hv
    rcases hf ρ d.bare hd with ⟨hnone, -⟩ | ⟨v', ρ'', w, s, hv', hw, hrel, hs, -⟩
    · rw [hv] at hnone
      exact absurd hnone (by simp)
    · rw [hv] at hv'
      obtain ⟨rfl, rfl⟩ := Prod.mk.inj (Option.some.inj hv')
      obtain ⟨d', he, rfl, rfl⟩ := (hiff d w s).mpr hw
      exact ⟨d', hk'.normal_of hk he, hrel, hs⟩

theorem Gen.Acts.behaves (hacts : p.Acts T (fun _ => ()) out P fun _ => g)
    (hcalls : p.Calls T fun _ _ => False) (hf : Follows T rel f g) :
    p.Behaves T j (Represents T) (fun a r d => rel r.1 (out a d) ∧ Represents T r.2 d) (.silent f) := by
  refine Gen.Lays.weaken (Gen.Lays.mono (hacts.runs hcalls hf) ?_) j
  rintro c a c' k hk ⟨hstraight, -, hends, hreaches⟩
  refine ⟨fun ρ d x d' _ he => hk.done he, ?_, ?_, ?_, ?_⟩
  · intro ρ d d' hd he
    obtain ⟨v, ρ', hv, hrel, hd'⟩ := hends ρ d d' hd he
    refine ⟨(v, ρ'), [], Behaviour.step_some_iff.mpr ?_, ⟨hrel, hd'⟩, ?_⟩
    · rw [hv, Option.map_some]
    · rw [outputs_straight hstraight he, List.append_nil]
  · intro ρ d d' _ he
    refine ⟨[], Behaviour.step_none_iff.mpr (.inl rfl), ?_⟩
    rw [outputs_straight hstraight he, List.append_nil]
  · intro ρ d r os hd hstep
    obtain ⟨⟨v, ρ'⟩, hv, hr⟩ := Option.map_eq_some_iff.mp (Behaviour.step_some_iff.mp hstep)
    obtain ⟨rfl, rfl⟩ := Prod.mk.inj hr
    obtain ⟨d', he, hrel, hd'⟩ := hreaches ρ d v ρ' hd hv
    refine ⟨d', he, ⟨hrel, hd'⟩, ?_⟩
    rw [outputs_straight hstraight he, List.append_nil]
  · intro ρ d os _ hstep
    obtain rfl : os = [] := by
      rcases Behaviour.step_none_iff.mp hstep with hos | ⟨r, hr⟩
      · exact hos
      · obtain ⟨v, -, hv⟩ := Option.map_eq_some_iff.mp hr
        exact (Prod.mk.inj hv).2.symm
    exact ⟨d, Exec.start k d, (List.append_nil _).symm⟩

/-- The code of a condition. -/
theorem Gen.Acts.tests {p : Gen LLValue} {P : LLValue → Prop} {f : Env → Option (Bool × Env)}
    {g : Data → Option (Val × Data)} (hacts : p.Acts T (fun _ => ()) (fun v d => d.eval v) P fun _ => g)
    (hcalls : p.Calls T fun _ _ => False) (hf : Follows T IsBit f g) (tag : Tag) :
    p.Lays T false fun _ v _ k => Tests machine Data.outputs (Represents T) k (tag, v) f := by
  refine Gen.Lays.mono (hacts.runs hcalls hf) ?_
  rintro c v c' k hk ⟨hstraight, -, hends, hreaches⟩
  refine ⟨fun ρ d x d' _ he => hk.done he, fun ρ d d' _ he => outputs_straight hstraight he, ?_, ?_⟩
  · intro ρ d d₁ b d₂ hd he htest
    obtain ⟨b', ρ', hb', hrel, hd₁⟩ := hends ρ d d₁ hd he
    obtain ⟨heval, rfl⟩ := machine_test htest
    obtain rfl := Val.bool.inj (heval.symm.trans hrel)
    refine ⟨ρ', hb', hd₁, ?_⟩
    rw [Data.outputs_note_none _ rfl, outputs_straight hstraight he]
  · intro ρ d b ρ' hd hb
    obtain ⟨d₁, he, hrel, hd₁⟩ := hreaches ρ d b ρ' hd hb
    refine ⟨d₁, d₁.note (.branch tag b), he, ?_, hd₁, ?_⟩
    · change Cond.test (tag, v) d₁ = _
      have heval : d₁.eval v = .bool b := hrel
      simp [Cond.test, heval]
    · rw [Data.outputs_note_none _ rfl, outputs_straight hstraight he]

end

end Reir
