import Reir.InsertedRows
import Reir.LoadedValues

/-! Which values can be generated, read from the types alone. Besides the types of the names, the
generation of a value depends on two things that are recorded before it: a row literal finds its struct
type among those that `get_type` has entered, and a struct that is passed to a function has a slot. -/
namespace Reir
open Gen BlockGraph

abbrev RowTypes := List (List LLType)

def enterRow (rows : RowTypes) (ts : List LLType) : RowTypes :=
  if rows.contains ts then rows else ts :: rows

mutual

/-- The row types that `get_type` enters, in this order. -/
def Expression.rowsIn (Γ : TypeEnv) : Expression → RowTypes
  | .binary _ l _ r => r.rowsIn Γ ++ l.rowsIn Γ
  | .pointerOf _ t => t.rowsIn Γ
  | .rowLiteral _ es => rowsInAll Γ es ++ (typesIn Γ es).toList
  | .arrayLiteral _ (e :: _) => e.rowsIn Γ
  | .arrayReference _ (some p) _ => p.rowsIn Γ
  | .assign _ _ v => v.rowsIn Γ
  | _ => []

def rowsInAll (Γ : TypeEnv) : List Expression → RowTypes
  | [] => []
  | e :: es => e.rowsIn Γ ++ rowsInAll Γ es

end

/-- A step over types, with the row types entered so far. -/
abbrev TypeStep (α : Type) := StateT RowTypes Option α

def Expression.typeStep (Γ : TypeEnv) (e : Expression) : TypeStep LLType :=
  fun rows => (e.typeIn Γ).map fun t => (t, (e.rowsIn Γ).foldl enterRow rows)

def typesStep (Γ : TypeEnv) (es : List Expression) : TypeStep (List LLType) :=
  fun rows => (typesIn Γ es).map fun ts => (ts, (rowsInAll Γ es).foldl enterRow rows)

def requireRowStep (ts : List LLType) : TypeStep Unit :=
  fun rows => if rows.contains ts then some ((), rows) else none

def Operators.resultType (op : Operators) (t : LLType) : Option LLType :=
  match op with
  | .plus | .minus | .multiple | .division | .modulo => some t
  | .none => Option.none
  | _ => some .i1

/-- The element of an array at an index of the given type. -/
def elementAt (array : Option LLType) (index : LLType) : Option LLType :=
  if index.isInteger then array.bind elementOf else none

/-- A value of the type can be passed to a function. -/
def argumentFits (slots : List LLType) (stack : Option ℕ) : LLType → Bool
  | .ptr _ => true
  | t => t.isInteger || (t.isStruct && (stack.bind fun i => slots[i]?).isSome)

/-- A pointer in a row is loaded. -/
def requireField (probe value : LLType) : TypeStep Unit :=
  StateT.lift (if probe.isPointer && !value.isPointer then none else some ())

def requireArgument (slots : List LLType) (stack : Option ℕ) (t : LLType) : TypeStep Unit :=
  StateT.lift (if argumentFits slots stack t then some () else none)

mutual

/-- The type of the value of an expression, if it can be generated. -/
def Expression.valueIn (Γ : TypeEnv) (slots : List LLType) : Expression → TypeStep LLType
  | .primary _ (some (.int _)) => pure .i64
  | .primary _ (some (.varchar _)) => StateT.lift Γ.string
  | .primary _ (some _) => StateT.lift none
  | .primary _ none => pure .i8
  | .binary _ l op r => do
    let t ← l.valueIn Γ slots
    let _ ← r.valueIn Γ slots
    StateT.lift (op.resultType t)
  | .pointerOf _ t => do
    let _ ← t.valueIn Γ slots
    StateT.lift ((t.loadType Γ).map .ptr)
  | .rowLiteral _ es => do
    let ts ← typesStep Γ es
    requireRowStep ts
    rowElementsIn Γ slots es
    pure (.row ts)
  | .arrayLiteral _ es => do
    let t ← (Expression.arrayLiteral {} es).typeStep Γ
    arrayElementsIn Γ slots es
    pure t
  | .variable _ x => StateT.lift (Γ.slot x)
  | .functionCall _ p as => do
    let t ← StateT.lift (calleeType p)
    argsIn Γ slots as
    pure t
  | .arrayReference _ none _ => StateT.lift none
  | .arrayReference _ (some p) i => do
    let _ ← p.valueIn Γ slots
    let it ← i.valueIn Γ slots
    StateT.lift (elementAt (p.loadType Γ) it)
  | .memberReference _ p _ o => StateT.lift (Γ.field p o)
  | .assign _ t v => do
    let u ← t.refIn Γ slots
    let _ ← v.valueIn Γ slots
    pure u

/-- The type that the address of an expression points to, if it can be generated. -/
def Expression.refIn (Γ : TypeEnv) (slots : List LLType) : Expression → TypeStep LLType
  | .variable _ x => StateT.lift (Γ.slot x)
  | .arrayReference _ (some p) i => do
    let _ ← p.valueIn Γ slots
    let it ← i.valueIn Γ slots
    StateT.lift (elementAt (p.loadType Γ) it)
  | .memberReference _ p _ o => StateT.lift (Γ.field p o)
  | _ => StateT.lift none

/-- The value of an element of a row is generated twice. -/
def rowElementsIn (Γ : TypeEnv) (slots : List LLType) : List Expression → TypeStep Unit
  | [] => pure ()
  | e :: es => do
    let probe ← e.valueIn Γ slots
    let value ← e.valueIn Γ slots
    requireField probe value
    rowElementsIn Γ slots es

def arrayElementsIn (Γ : TypeEnv) (slots : List LLType) : List Expression → TypeStep Unit
  | [] => pure ()
  | e :: es => do
    let _ ← e.valueIn Γ slots
    arrayElementsIn Γ slots es

def argsIn (Γ : TypeEnv) (slots : List LLType) : List Expression → TypeStep Unit
  | [] => pure ()
  | e :: es => do
    let t ← e.valueIn Γ slots
    requireArgument slots e.note.stack t
    argsIn Γ slots es

end

/-- A step of code generation succeeds exactly if the step over the types does; both enter the same
row types. -/
structure Gen.Mirrors {α β : Type} (d : Ctx) (p : Gen α) (q : TypeStep β) (R : α → β → Prop) :
    Prop where
  sound : ∀ {a d'}, p.run d = .ok (a, d') → ∃ b, q.run d.rowTypes = some (b, d'.rowTypes) ∧ R a b
  complete : ∀ {b rows}, q.run d.rowTypes = some (b, rows) → ∃ a d', p.run d = .ok (a, d')

namespace Gen
variable {α β α' β' : Type} {d : Ctx} {p : Gen α} {q : TypeStep β} {f : α → Gen α'}
  {g : β → TypeStep β'} {R : α → β → Prop} {R' : α' → β' → Prop} {o : Option β}

theorem Mirrors.bind (hp : Mirrors d p q R)
    (hf : ∀ {a b d'}, p.run d = .ok (a, d') → R a b → Mirrors d' (f a) (g b) R') :
    Mirrors d (p >>= f) (q >>= g) R' where
  sound := by
    intro a d' h
    obtain ⟨a₁, d₁, h₁, h₂⟩ := bind_eq_ok.mp h
    obtain ⟨b₁, hq, hR⟩ := hp.sound h₁
    obtain ⟨b, hg, hR'⟩ := (hf h₁ hR).sound h₂
    refine ⟨b, ?_, hR'⟩
    rw [StateT.run_bind, hq]
    exact hg
  complete := by
    intro b rows h
    rw [StateT.run_bind] at h
    obtain ⟨⟨b₁, rows₁⟩, hq, hg⟩ := Option.bind_eq_some_iff.mp h
    obtain ⟨a₁, d₁, h₁⟩ := hp.complete hq
    obtain ⟨b₂, hq', hR⟩ := hp.sound h₁
    obtain ⟨rfl, rfl⟩ := Prod.mk.inj (Option.some.inj (hq.symm.trans hq'))
    obtain ⟨a, d', h₂⟩ := (hf h₁ hR).complete hg
    exact ⟨a, d', bind_eq_ok.mpr ⟨a₁, d₁, h₁, h₂⟩⟩

theorem Mirrors.map {R'' : α' → β → Prop} (hp : Mirrors d p q R) (f : α → α')
    (h : ∀ a b, R a b → R'' (f a) b) : Mirrors d (p >>= fun a => Pure.pure (f a)) q R'' where
  sound := by
    intro a d' hrun
    obtain ⟨a₁, d₁, h₁, h₂⟩ := bind_eq_ok.mp hrun
    obtain ⟨rfl, rfl⟩ := pure_eq_ok.mp h₂
    obtain ⟨b, hq, hR⟩ := hp.sound h₁
    exact ⟨b, hq, h _ _ hR⟩
  complete := by
    intro b rows hq
    obtain ⟨a, d', hrun⟩ := hp.complete hq
    exact ⟨f a, d', bind_eq_ok.mpr ⟨a, d', hrun, rfl⟩⟩

theorem Mirrors.ret {R'' : α → β' → Prop} (hp : Mirrors d p q R) (b' : β')
    (h : ∀ a b, R a b → R'' a b') : Mirrors d p (q >>= fun _ => Pure.pure b') R'' where
  sound := by
    intro a d' hrun
    obtain ⟨b, hq, hR⟩ := hp.sound hrun
    refine ⟨b', ?_, h a b hR⟩
    rw [StateT.run_bind, hq]
    rfl
  complete := by
    intro b rows hq
    rw [StateT.run_bind] at hq
    obtain ⟨⟨b₁, rows₁⟩, hq, -⟩ := Option.bind_eq_some_iff.mp hq
    exact hp.complete hq

/-- A step in front that always succeeds. -/
theorem Mirrors.before {a : α} {d' : Ctx} {q' : TypeStep β'} (hrun : p.run d = .ok (a, d'))
    (hrows : d'.rowTypes = d.rowTypes) (h : Mirrors d' (f a) q' R') : Mirrors d (p >>= f) q' R' where
  sound := by
    intro a' d'' hrun'
    rw [bind_ok hrun] at hrun'
    rw [← hrows]
    exact h.sound hrun'
  complete := by
    intro b rows hq
    rw [bind_ok hrun]
    rw [← hrows] at hq
    exact h.complete hq

end Gen

section
variable {Γ : TypeEnv} {slots : List LLType} {d d' : Ctx}

/-- A context that code is generated in, with these slots. -/
structure ReadyWith (Γ : TypeEnv) (slots : List LLType) (d : Ctx) : Prop extends Ready Γ d where
  slots : d.slots = slots

theorem ReadyWith.step {α : Type} {p : Gen α} {P : Prop} {a : α} (hd : ReadyWith Γ slots d)
    (hb : p.Builds P) (he : p.Emits) (h : p.run d = .ok (a, d')) : ReadyWith Γ slots d' :=
  ⟨hd.toReady.step hb he h, (he h).slots_eq.trans hd.slots⟩

theorem ReadyWith.value {e : Expression} {v : LLValue} (hd : ReadyWith Γ slots d)
    (h : e.getValue.run d = .ok (v, d')) : ReadyWith Γ slots d' :=
  hd.step (buildsRules.getValue e) (emitsRules.getValue e) h

theorem ReadyWith.newBlock (hd : ReadyWith Γ slots d) : ReadyWith Γ slots d.newBlock where
  cur := by
    have hcur := hd.cur
    simp only [Ctx.graph, Ctx.newBlock, Cfg.size, List.length_append] at hcur ⊢
    omega
  loads := hd.loads
  env := hd.env
  slots := hd.slots

variable (Γ slots) in
def Expression.ValueMirrored (e : Expression) : Prop :=
  ∀ {d}, ReadyWith Γ slots d → Mirrors d e.getValue (e.valueIn Γ slots) fun v t => v.ty = t

variable (Γ slots) in
def Expression.RefMirrored (e : Expression) : Prop :=
  ∀ {d}, ReadyWith Γ slots d → Mirrors d e.getRef (e.refIn Γ slots) fun v t => v.ty = .ptr t

/-- What an address points to is loaded. -/
theorem Gen.Mirrors.load {p : Gen LLValue} {q : TypeStep LLType}
    (hp : Mirrors d p q fun v t => v.ty = .ptr t) : Mirrors d (p >>= createLoad) q fun v t => v.ty = t where
  sound := by
    intro w d' h
    obtain ⟨v, d₁, h₁, h₂⟩ := bind_eq_ok.mp h
    obtain ⟨u, d₂, h₃, h₄⟩ := bind_eq_ok.mp h₂
    obtain ⟨hv, rfl⟩ := pointee_eq_ok.mp h₃
    obtain ⟨rfl, rfl⟩ := emitLoad_eq_ok.mp h₄
    obtain ⟨t, hq, ht⟩ := hp.sound h₁
    exact ⟨t, hq, LLType.ptr.inj (hv.symm.trans ht)⟩
  complete := by
    intro t rows hq
    obtain ⟨v, d₁, h₁⟩ := hp.complete hq
    obtain ⟨u, -, hu⟩ := hp.sound h₁
    exact ⟨_, _, bind_eq_ok.mpr ⟨v, d₁, h₁, bind_eq_ok.mpr ⟨u, d₁, pointee_eq_ok.mpr ⟨hu, rfl⟩, rfl⟩⟩⟩

theorem Expression.RefMirrored.value {e : Expression} (h : e.RefMirrored Γ slots)
    (hvalue : e.getValue = e.getRef >>= createLoad) (hin : e.valueIn Γ slots = e.refIn Γ slots) :
    e.ValueMirrored Γ slots := by
  intro d hd
  rw [hvalue, hin]
  exact (h hd).load

end

/-- A step that succeeds with some row types does so with more of them. -/
def TypeStep.Mono {α : Type} (q : TypeStep α) : Prop :=
  ∀ ⦃rows rows' a ts⦄, rows ⊆ rows' → q.run rows = some (a, ts) →
    ∃ ts', ts ⊆ ts' ∧ q.run rows' = some (a, ts')

namespace TypeStep
variable {α β : Type} {q : TypeStep α} {f : α → TypeStep β}

theorem Mono.bind (hq : q.Mono) (hf : ∀ a, (f a).Mono) : TypeStep.Mono (q >>= f) := by
  intro rows rows' b ts hsub h
  rw [StateT.run_bind] at h
  obtain ⟨⟨a, ts₁⟩, h₁, h₂⟩ := Option.bind_eq_some_iff.mp h
  obtain ⟨ts₁', hsub₁, h₁'⟩ := hq hsub h₁
  obtain ⟨ts', hsub', h₂'⟩ := hf a hsub₁ h₂
  refine ⟨ts', hsub', ?_⟩
  rw [StateT.run_bind, h₁']
  exact h₂'

theorem mono_pure (a : α) : TypeStep.Mono (Pure.pure a : TypeStep α) := by
  intro rows rows' b ts hsub h
  obtain ⟨rfl, rfl⟩ := Prod.mk.inj (Option.some.inj h)
  exact ⟨rows', hsub, rfl⟩

theorem mono_lift (o : Option α) : TypeStep.Mono (StateT.lift o : TypeStep α) := by
  cases o with
  | none => exact fun _ _ _ _ _ h => nomatch h
  | some a => exact mono_pure a

end TypeStep

theorem mem_enterRow {rows : RowTypes} {t u : List LLType} : u ∈ enterRow rows t ↔ u = t ∨ u ∈ rows := by
  simp only [enterRow, List.contains_iff_mem]
  split_ifs with ht
  · exact ⟨.inr, fun h => h.elim (fun hu => hu ▸ ht) id⟩
  · exact List.mem_cons

theorem foldl_enterRow_subset {rows rows' : RowTypes} (h : rows ⊆ rows') (us : RowTypes) :
    us.foldl enterRow rows ⊆ us.foldl enterRow rows' := by
  induction us generalizing rows rows' with
  | nil => exact h
  | cons u us ih =>
    refine ih fun t ht => mem_enterRow.mpr ?_
    exact (mem_enterRow.mp ht).imp_right fun hmem => h hmem

section
variable {Γ : TypeEnv} {slots : List LLType}

theorem mono_entering {α : Type} (o : Option α) (us : RowTypes) :
    TypeStep.Mono fun rows => o.map fun a => (a, us.foldl enterRow rows) := by
  intro rows rows' a ts hsub h
  obtain ⟨b, rfl, hb⟩ := Option.map_eq_some_iff.mp h
  obtain ⟨rfl, rfl⟩ := Prod.mk.inj hb
  exact ⟨_, foldl_enterRow_subset hsub us, rfl⟩

theorem mono_requireRow (ts : List LLType) : (requireRowStep ts).Mono := by
  intro rows rows' a us hsub h
  obtain ⟨hmem, hrun⟩ := Option.ite_none_right_eq_some.mp h
  obtain ⟨rfl, rfl⟩ := Prod.mk.inj (Option.some.inj hrun)
  exact ⟨rows', hsub, if_pos (List.contains_iff_mem.mpr (hsub (List.contains_iff_mem.mp hmem)))⟩

theorem mono_rowElements {es : List Expression} (h : ∀ e ∈ es, (e.valueIn Γ slots).Mono) :
    (rowElementsIn Γ slots es).Mono := by
  induction es with
  | nil => exact TypeStep.mono_pure ()
  | cons e es ih =>
    rw [List.forall_mem_cons] at h
    exact h.1.bind fun _ => h.1.bind fun _ => (TypeStep.mono_lift _).bind fun _ => ih h.2

theorem mono_arrayElements {es : List Expression} (h : ∀ e ∈ es, (e.valueIn Γ slots).Mono) :
    (arrayElementsIn Γ slots es).Mono := by
  induction es with
  | nil => exact TypeStep.mono_pure ()
  | cons e es ih =>
    rw [List.forall_mem_cons] at h
    exact h.1.bind fun _ => ih h.2

theorem mono_args {es : List Expression} (h : ∀ e ∈ es, (e.valueIn Γ slots).Mono) :
    (argsIn Γ slots es).Mono := by
  induction es with
  | nil => exact TypeStep.mono_pure ()
  | cons e es ih =>
    rw [List.forall_mem_cons] at h
    exact h.1.bind fun _ => (TypeStep.mono_lift _).bind fun _ => ih h.2

theorem Expression.mono (e : Expression) : (e.valueIn Γ slots).Mono ∧ (e.refIn Γ slots).Mono := by
  induction e using Expression.induction with
  | primary n v =>
    refine ⟨?_, TypeStep.mono_lift _⟩
    match v with
    | some (.int i) => exact TypeStep.mono_pure _
    | some (.varchar x) => exact TypeStep.mono_lift _
    | some (.float b) => exact TypeStep.mono_lift _
    | some .unknown => exact TypeStep.mono_lift _
    | none => exact TypeStep.mono_pure _
  | binary n l op r hl hr =>
    exact ⟨hl.1.bind fun _ => hr.1.bind fun _ => TypeStep.mono_lift _, TypeStep.mono_lift _⟩
  | pointerOf n t ht => exact ⟨ht.1.bind fun _ => TypeStep.mono_lift _, TypeStep.mono_lift _⟩
  | rowLiteral n es hes =>
    refine ⟨(mono_entering _ _).bind fun ts => (mono_requireRow ts).bind fun _ => ?_, TypeStep.mono_lift _⟩
    exact (mono_rowElements fun e he => (hes e he).1).bind fun _ => TypeStep.mono_pure _
  | arrayLiteral n es hes =>
    refine ⟨(mono_entering _ _).bind fun t => ?_, TypeStep.mono_lift _⟩
    exact (mono_arrayElements fun e he => (hes e he).1).bind fun _ => TypeStep.mono_pure _
  | variableRef n x => exact ⟨TypeStep.mono_lift _, TypeStep.mono_lift _⟩
  | functionCall n p as _ has =>
    refine ⟨(TypeStep.mono_lift _).bind fun t => ?_, TypeStep.mono_lift _⟩
    exact (mono_args fun e he => (has e he).1).bind fun _ => TypeStep.mono_pure _
  | arrayReference n p i hp hi =>
    cases p with
    | none => exact ⟨TypeStep.mono_lift _, TypeStep.mono_lift _⟩
    | some p =>
      have helement : TypeStep.Mono (do
          let _ ← p.valueIn Γ slots
          let it ← i.valueIn Γ slots
          StateT.lift (elementAt (p.loadType Γ) it)) :=
        (hp p rfl).1.bind fun _ => hi.1.bind fun _ => TypeStep.mono_lift _
      exact ⟨helement, helement⟩
  | memberReference n p x o _ => exact ⟨TypeStep.mono_lift _, TypeStep.mono_lift _⟩
  | assign n t v ht hv =>
    exact ⟨ht.2.bind fun _ => hv.1.bind fun _ => TypeStep.mono_pure _, TypeStep.mono_lift _⟩

end

end Reir
